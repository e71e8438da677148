/-
# openila: the control scan

What a scan of the control register does, whatever the registers hold before
it: the word of the host is in place at the UPDATE, the bits that come out are
the status at the CAPTURE, and a scan of zeros leaves nothing that could pass
for the key. The other clocks of the module may run on in the meantime.

Key definitions: `Event.onCtl`, `shifts`, `shiftedOut`, `Ila.scanned`.
Key theorems: `run_onCtl`, `control_scan`.
-/
import Xc7Tools.Openila.Rearm

namespace Xc7Tools
namespace Openila

variable {W AW : ℕ}

/-- The events of the control chain. -/
def Event.onCtl : Event W → Bool
  | .ctlRise .. => true
  | .ctlFall => true
  | .ctlUpdate _ => true
  | _ => false

/-- The edges of DRCK after a CAPTURE: a falling one, then a SHIFT with each bit and the falling
edge behind it. -/
def shifts (bits : List Bool) : List (Event W) :=
  .ctlFall :: bits.flatMap fun b => [.ctlRise true false true b, .ctlFall]

/-- The bits that come out on `c_tdo`: `csr[0]` as each SHIFT finds it. -/
def shiftedOut : Ila W AW → List (Event W) → List Bool
  | _, [] => []
  | s, .ctlRise true false true b :: es =>
    s.csr.getLsbD 0 :: shiftedOut (s.step (.ctlRise true false true b)) es
  | s, e :: es => shiftedOut (s.step e) es

namespace Ila

/-- The state after a CAPTURE, some events and an UPDATE. -/
def scanned (s : Ila W AW) (shift tdi : Bool) (es : List (Event W)) : Ila W AW :=
  ((s.step (.ctlRise true true shift tdi)).run es).step (.ctlUpdate true)

/-- The registers of the control chain. -/
def ctlPart (s : Ila W AW) : BitVec (CW W AW) × BitVec (CW W AW) × Ctl W AW :=
  (s.csr, s.csrN, s.ctl)

end Ila

/-! ### The other clocks -/

/-- The event is no CAPTURE on the control chain. -/
def Event.noCapture : Event W → Bool
  | .ctlRise _ cap _ _ => !cap
  | _ => true

theorem ctlPart_step_off (s : Ila W AW) {e : Event W} (h : e.onCtl = false) :
    (s.step e).ctlPart = s.ctlPart := by
  cases e with
  | clk | datRise | datFall => rfl
  | ctlRise | ctlFall | ctlUpdate => cases h

theorem ctlPart_update (s : Ila W AW) (sel : Bool) : (s.step (.ctlUpdate sel)).ctlPart =
    (s.csr, s.csrN, if sel && s.keyed then s.requested else s.ctl) := by
  simp only [Ila.step]
  by_cases h : (sel && s.keyed) = true
  · rw [if_pos h, if_pos h]
    rfl
  · rw [if_neg h, if_neg h]
    rfl

theorem ctlPart_step_on {s t : Ila W AW} (h : s.ctlPart = t.ctlPart) {e : Event W}
    (hc : e.noCapture = true) (hon : e.onCtl = true) : (s.step e).ctlPart = (t.step e).ctlPart := by
  obtain ⟨csr, csrN, ctl, cap, dat⟩ := s
  obtain ⟨csr', csrN', ctl', cap', dat'⟩ := t
  cases h
  cases e with
  | clk | datRise | datFall => cases hon
  | ctlFall => rfl
  | ctlRise sel cap shift tdi =>
    obtain rfl : cap = false := by simpa [Event.noCapture] using hc
    cases sel <;> cases shift <;> rfl
  | ctlUpdate sel =>
    rw [ctlPart_update, ctlPart_update]
    rfl

theorem shiftedOut_cons_of_off (s : Ila W AW) {e : Event W} (h : e.onCtl = false)
    (es : List (Event W)) : shiftedOut s (e :: es) = shiftedOut (s.step e) es := by
  cases e with
  | clk | datRise | datFall => rfl
  | ctlRise | ctlFall | ctlUpdate => cases h

/-- Events of the other clocks change nothing of a scan. -/
theorem run_onCtl : ∀ {es : List (Event W)} {s t : Ila W AW}, s.ctlPart = t.ctlPart →
    (∀ e ∈ es, e.noCapture = true) →
    (s.run es).ctlPart = (t.run (es.filter Event.onCtl)).ctlPart ∧
      shiftedOut s es = shiftedOut t (es.filter Event.onCtl)
  | [], _, _, h, _ => ⟨h, rfl⟩
  | e :: es, s, t, h, hc => by
    have hes : ∀ e ∈ es, e.noCapture = true := fun e he => hc e (List.mem_cons_of_mem _ he)
    cases hon : e.onCtl with
    | false =>
      rw [List.filter_cons_of_neg (by simp [hon]), shiftedOut_cons_of_off s hon]
      exact run_onCtl ((ctlPart_step_off s hon).trans h) hes
    | true =>
      rw [List.filter_cons_of_pos hon]
      have hstep := ctlPart_step_on h (hc e List.mem_cons_self) hon
      obtain ⟨hrun, hout⟩ := run_onCtl hstep hes
      have hcsr : s.csr = t.csr := congrArg Prod.fst h
      refine ⟨hrun, ?_⟩
      unfold shiftedOut
      split <;> simp_all

/-! ### The shifts -/

theorem noCapture_of_filter {es : List (Event W)} {bits : List Bool}
    (hes : es.filter Event.onCtl = shifts bits) : ∀ e ∈ es, e.noCapture = true := by
  intro e he
  cases hon : e.onCtl with
  | false =>
    cases e with
    | clk | datRise | datFall => rfl
    | ctlRise | ctlFall | ctlUpdate => cases hon
  | true =>
    have hmem : e ∈ shifts bits := hes ▸ List.mem_filter.mpr ⟨he, hon⟩
    simp only [shifts, List.mem_cons, List.mem_flatMap, List.not_mem_nil, or_false] at hmem
    rcases hmem with rfl | ⟨b, -, rfl | rfl⟩ <;> rfl

/-- What comes out is what was in the register, from bit 0 on. -/
theorem shiftedOut_shifts : ∀ (bits : List Bool) (s : Ila W AW), s.csrN = s.csr →
    shiftedOut s (bits.flatMap fun b => [.ctlRise true false true b, .ctlFall]) =
      (List.range bits.length).map fun i => (shiftAll s.csr (bits.take i)).getLsbD 0
  | [], _, _ => rfl
  | b :: bits, s, hs => by
    have hrest := shiftedOut_shifts bits
      ((s.step (.ctlRise true false true b)).step .ctlFall) rfl
    have hcsr : ((s.step (.ctlRise true false true b)).step .ctlFall).csr = shiftIn b s.csr := by
      simp [Ila.step, hs]
    rw [hcsr] at hrest
    rw [List.flatMap_cons, List.length_cons, List.range_succ_eq_map, List.map_cons, List.map_map]
    exact congrArg₂ List.cons rfl hrest

/-- A scan from its CAPTURE to its UPDATE, without the other clocks. -/
theorem run_shifts_capture (s : Ila W AW) (shift tdi : Bool) {es : List (Event W)}
    {bits : List Bool} (hes : es.filter Event.onCtl = shifts bits) :
    ((s.step (.ctlRise true true shift tdi)).run es).csr =
        shiftAll (s.cap.status.setWidth (CW W AW)) bits ∧
      ((s.step (.ctlRise true true shift tdi)).run es).ctl = s.ctl ∧
      shiftedOut (s.step (.ctlRise true true shift tdi)) es =
        (List.range bits.length).map fun i =>
          (shiftAll (s.cap.status.setWidth (CW W AW)) (bits.take i)).getLsbD 0 := by
  obtain ⟨hpart, hout⟩ := run_onCtl (s := s.step (.ctlRise true true shift tdi)) rfl
    (noCapture_of_filter hes)
  rw [hes] at hpart hout
  set c := (s.step (.ctlRise true true shift tdi)).step .ctlFall with hc
  have hrun := run_shifts bits c rfl
  refine ⟨(congrArg Prod.fst hpart).trans ?_, ?_, hout.trans ?_⟩
  · exact congrArg Ila.csr hrun
  · have hctl : ((s.step (.ctlRise true true shift tdi)).run es).ctl = (c.run _).ctl :=
      congrArg (fun q => q.2.2) hpart
    rw [hctl, hrun]
    rfl
  · exact shiftedOut_shifts bits c rfl

/-! ### The word and the status -/

/-- The host reads the captured status off the bits that come out. -/
theorem ofBoolListLE_status (hW : AW + 11 ≤ W) (c : Cap W AW) {bits : List Bool}
    (hlen : bits.length = CW W AW) :
    (BitVec.ofBoolListLE ((List.range bits.length).map fun i =>
      (shiftAll (c.status.setWidth (CW W AW)) (bits.take i)).getLsbD 0)).toNat =
        c.status.toNat := by
  refine Nat.eq_of_testBit_eq fun j => ?_
  rw [BitVec.testBit_toNat, BitVec.testBit_toNat, BitVec.getLsbD_ofBoolListLE,
    List.getD_eq_getElem?_getD, List.getElem?_map]
  by_cases hj : j < CW W AW
  · rw [List.getElem?_range (by omega), Option.map_some, Option.getD_some,
      shiftAll_getLsbD _ _ 0 (by omega), List.length_take, if_pos (by omega),
      BitVec.getLsbD_setWidth, Nat.zero_add, Nat.min_eq_left (by omega), decide_eq_true hj,
      Bool.true_and]
  · rw [List.getElem?_eq_none (by rw [List.length_range]; omega), Option.map_none,
      Option.getD_none, BitVec.getLsbD_of_ge _ _ (by simp only [Cap.SW, CW] at hj ⊢; omega)]

/-- After zeros alone there is no key at the top of the register. -/
theorem not_keyed_of_zeros (hW : AW + 11 ≤ W) {s : Ila W AW} (c : Cap W AW) (n : ℕ)
    (h : s.csr = shiftAll (c.status.setWidth (CW W AW)) (List.replicate n false)) :
    s.keyed = false := by
  -- bit 1 of 0x5A is set, and the status does not reach up to the key
  have hbit : s.csr.getLsbD (2 * W + AW + 1 + 1) = false := by
    rw [h, shiftAll_getLsbD _ _ _ (by simp only [CW]; omega), List.length_replicate]
    split_ifs
    · rw [BitVec.getLsbD_setWidth, BitVec.getLsbD_of_ge _ _ (by simp only [Cap.SW]; omega),
        Bool.and_false]
    · rw [List.getD_eq_getElem?_getD, List.getElem?_getD_replicate_default_eq]
  rw [Ila.keyed, beq_eq_false_iff_ne]
  intro hkey
  have := congrArg (BitVec.getLsbD · 1) hkey
  rw [BitVec.getLsbD_extractLsb', hbit] at this
  simp at this

/-- The bits of the host's control word, the first one to go in first. -/
def wordBits (W AW mask value post arm : ℕ) : List Bool :=
  (List.range (CW W AW)).map ((Host.mk W (2 ^ AW)).ctlWord mask value post arm).testBit

theorem shiftAll_wordBits (x : BitVec (CW W AW)) (mask value post : ℕ) (arm : Bool) :
    shiftAll x (wordBits W AW mask value post arm.toNat) = word W AW mask value post arm := by
  refine BitVec.eq_of_getLsbD_eq fun i hi => ?_
  have hlen : (wordBits W AW mask value post arm.toNat).length = CW W AW := by
    rw [wordBits, List.length_map, List.length_range]
  rw [shiftAll_getLsbD _ _ i hi, hlen, if_neg (by omega), Nat.add_sub_cancel, wordBits,
    List.getD_eq_getElem _ _ (by simpa using hi), word, BitVec.getLsbD_ofNat, decide_eq_true hi]
  simp

/-- **A control scan writes what the host encoded**, and reads the status. A scan of zeros,
however short, writes nothing. -/
theorem control_scan (haw : 1 ≤ AW) (hW : AW + 11 ≤ W) (s : Ila W AW) (shift tdi : Bool)
    (es : List (Event W)) :
    (∀ (mask value post : ℕ) (arm : Bool), mask < 2 ^ W → value < 2 ^ W → post < 2 ^ AW →
      es.filter Event.onCtl = shifts (wordBits W AW mask value post arm.toNat) →
      ((s.scanned shift tdi es).ctl.mask.toNat = mask ∧
        (s.scanned shift tdi es).ctl.value.toNat = value ∧
        (s.scanned shift tdi es).ctl.post.toNat = post ∧
        (s.scanned shift tdi es).ctl.armT = arm) ∧
      (Host.mk W (2 ^ AW)).decodeStatus
          (BitVec.ofBoolListLE (shiftedOut (s.step (.ctlRise true true shift tdi)) es)).toNat =
        { waddr := s.cap.waddr.toNat, armed := s.cap.armed.toNat, trig := s.cap.trig.toNat,
          done := s.cap.done.toNat, keyOk := true }) ∧
    ∀ n, es.filter Event.onCtl = shifts (List.replicate n false) →
      (s.scanned shift tdi es).ctl = s.ctl := by
  refine ⟨fun mask value post arm hmask hvalue hpost hes => ?_, fun n hes => ?_⟩
  · obtain ⟨hcsr, -, hout⟩ := run_shifts_capture s shift tdi hes
    rw [shiftAll_wordBits] at hcsr
    have hctl := (step_update haw hcsr).1
    have hlen : (wordBits W AW mask value post arm.toNat).length = CW W AW := by
      rw [wordBits, List.length_map, List.length_range]
    refine ⟨?_, ?_⟩
    · rw [Ila.scanned, hctl]
      simp only [BitVec.toNat_ofNat, Nat.mod_eq_of_lt hmask, Nat.mod_eq_of_lt hvalue,
        Nat.mod_eq_of_lt hpost, and_self]
    · rw [hout, ofBoolListLE_status hW s.cap hlen]
      exact Host.decodeStatus_status haw s.cap
  · obtain ⟨hcsr, hctl, -⟩ := run_shifts_capture s shift tdi hes
    rw [Ila.scanned, step_ctl fun _ => not_keyed_of_zeros hW s.cap n hcsr, hctl]

/-- The least gateware that holds a status, armed from power-up, and a scan without a shift. -/
theorem control_scan_twelve :
    ((Ila.powerUp (fun _ : BitVec 1 => (0 : BitVec 12)) 0).scanned false false
        (shifts (wordBits 12 1 5 6 1 1))).ctl.armT = true ∧
      ((Ila.powerUp (fun _ : BitVec 1 => (0 : BitVec 12)) 0).scanned false false
        (shifts [])).ctl = ⟨0, 0, 0, false⟩ := by
  refine ⟨?_, ?_⟩
  · exact ((control_scan (by decide) (by decide) (Ila.powerUp _ 0) false false _).1 5 6 1 true
      (by decide) (by decide) (by decide) (by decide)).1.2.2.2
  · exact (control_scan (by decide) (by decide) (Ila.powerUp _ 0) false false _).2 0 rfl

end Openila
end Xc7Tools
