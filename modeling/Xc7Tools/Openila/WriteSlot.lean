/-
# openila: the write slot

`waddr` is where the next sample goes. The memory takes a sample on every edge
of `clk` with `armed && !done`, and `waddr` moves on with it only while the
synchronised arm level is high too: the edge that finds it low in the middle of
a capture stores a sample and leaves `waddr` at it. `keepsSlot_iff` says that
such edges are all that goes wrong. Where there is none, the ring is that of
`Ring.fill` over the samples stored since power-up, and `Openila.read` shows
them oldest first, in whatever state the capture was left.

Key definitions: `noteStored`, `EdgeLaw`, `WriteSlot`, `KeepsSlot`, `Finishes`.
Key theorems: `edgeLaw_iff`, `filled`, `read_stored`, `keepsSlot_iff`.
-/
import Xc7Tools.Openila.Readout
import Xc7Tools.Openila.Rearm

namespace Xc7Tools
namespace Openila

variable {W AW : ℕ}

/-! ### The edges -/

/-- The event is an edge of `clk` that stores a sample. -/
def stores (s : Ila W AW) (e : Event W) : Bool := (e matches .clk _) && s.cap.we

/-- The samples stored since power-up, oldest first, after one more event. -/
def noteStored (s : Ila W AW) (e : Event W) (xs : List (BitVec W)) : List (BitVec W) :=
  if stores s e then xs ++ [s.cap.sample] else xs

/-- What an event should do to the ring. -/
structure EdgeLaw (s : Ila W AW) (e : Event W) : Prop where
  mem : (s.step e).cap.mem =
    if stores s e then Function.update s.cap.mem s.cap.waddr s.cap.sample else s.cap.mem
  waddr : (s.step e).cap.waddr = if stores s e then s.cap.waddr + 1 else s.cap.waddr

/-- A capture is not cut off: an edge that stores a sample finds the arm level high. -/
def Finishes (s : Ila W AW) (e : Event W) : Prop := stores s e = true → s.cap.arm = true

/-- The memory follows the write enable in any state. -/
theorem step_mem (s : Ila W AW) (e : Event W) : (s.step e).cap.mem =
    if stores s e then Function.update s.cap.mem s.cap.waddr s.cap.sample else s.cap.mem := by
  rw [Ila.step_cap]
  cases e with
  | clk p => exact Cap.clk_mem s.ctl p s.cap
  | ctlRise | ctlFall | ctlUpdate | datRise | datFall => rfl

/-- So does the address, while the arm level is high. -/
theorem clk_waddr (c : Ctl W AW) (p : BitVec W) (s : Cap W AW) :
    (s.clk c p).waddr = if s.arm && s.we then s.waddr + 1 else s.waddr := by
  unfold Cap.clk Cap.we
  cases s.arm <;> cases s.armed <;> cases s.done <;> simp
  split_ifs <;> rfl

theorem step_waddr (s : Ila W AW) (e : Event W) : (s.step e).cap.waddr =
    if s.cap.arm && stores s e then s.cap.waddr + 1 else s.cap.waddr := by
  rw [Ila.step_cap]
  cases e with
  | clk p => exact clk_waddr s.ctl p s.cap
  | ctlRise | ctlFall | ctlUpdate | datRise | datFall =>
    simp only [stores, Bool.false_and, Bool.and_false, Bool.false_eq_true, if_false]

/-- Slots of a ring with more than one are different from the next. -/
theorem slot_ne_next (hAW : 1 ≤ AW) (a : BitVec AW) : a ≠ a + 1 := by
  intro h
  have hone : (1 : BitVec AW).toNat = 1 := by
    show 1 % 2 ^ AW = 1
    exact Nat.mod_eq_of_lt (Nat.one_lt_two_pow (by omega))
  have hzero : (1 : BitVec AW) = 0 := by simpa using h.symm
  rw [hzero] at hone
  simp at hone

/-- An event obeys the law unless it cuts a capture off. -/
theorem edgeLaw_iff (hAW : 1 ≤ AW) (s : Ila W AW) (e : Event W) : EdgeLaw s e ↔ Finishes s e := by
  constructor
  · intro h hstores
    by_contra harm
    have hwaddr := h.waddr
    rw [step_waddr, hstores, Bool.eq_false_of_not_eq_true harm] at hwaddr
    exact slot_ne_next hAW _ hwaddr
  · intro h
    refine ⟨step_mem s e, ?_⟩
    rw [step_waddr]
    by_cases hstores : stores s e = true
    · rw [h hstores, Bool.true_and]
    · rw [Bool.eq_false_of_not_eq_true hstores, Bool.and_false]

/-! ### The ring -/

/-- The data register's `(DEPTH + 1) * WIDTH` bits, as the header comment has them: the status word
and then the memory. -/
def Sends (s : Cap W AW) (v : ℕ) : Prop :=
  ∀ i < 2 ^ AW + 1, (v >>> (W * i)) &&& ((1 <<< W) - 1) = (scanWord s i).toNat

theorem sends_scanOut (s : Cap W AW) (d : Dat W AW) (shift tdi0 : Bool) (tdi : ℕ → Bool)
    (hW2 : 2 ≤ W) (hW : W ≤ 65536) : Sends s (scanOut s d shift tdi0 tdi ((2 ^ AW + 1) * W)) :=
  fun i hi => scanOut_word hW2 hW _ i hi

/-- The last samples stored are in the slots before `waddr`, and the host shows them in order. -/
structure WriteSlot (s : Cap W AW) (xs : List (BitVec W)) : Prop where
  slots : ∀ k < min xs.length (2 ^ AW),
    xs.reverse[k]? = some (s.mem (s.waddr - BitVec.ofNat AW (k + 1)))
  read : AW + 11 ≤ W → ∀ v, Sends s v →
    ((Host.mk W (2 ^ AW)).read false v).2.drop (2 ^ AW - min xs.length (2 ^ AW)) =
      (xs.drop (xs.length - min xs.length (2 ^ AW))).map BitVec.toNat

/-- The memory is the ring of the samples stored, and `waddr` the slot behind them. -/
structure Filled (m : BitVec AW → BitVec W) (s : Cap W AW) (xs : List (BitVec W)) : Prop where
  waddr : s.waddr = 0 + BitVec.ofNat AW xs.length
  mem : s.mem = Ring.fill m 0 xs

/-- An event that obeys the law keeps the ring. -/
theorem Filled.step {m : BitVec AW → BitVec W} {s : Ila W AW} {e : Event W}
    {xs : List (BitVec W)} (h : Filled m s.cap xs) (he : EdgeLaw s e) :
    Filled m (s.step e).cap (noteStored s e xs) := by
  unfold noteStored
  by_cases hstores : stores s e = true
  · rw [if_pos hstores]
    constructor
    · rw [he.waddr, if_pos hstores, h.waddr, List.length_append, List.length_singleton,
        BitVec.ofNat_add, ← BitVec.add_assoc]
      rfl
    · rw [he.mem, if_pos hstores, Ring.fill_concat, ← h.mem, ← h.waddr]
  · rw [if_neg hstores]
    exact ⟨by rw [he.waddr, if_neg hstores, h.waddr], by rw [he.mem, if_neg hstores, h.mem]⟩

/-- A filled ring, seen from its write slot. -/
theorem Filled.slots {m : BitVec AW → BitVec W} {s : Cap W AW} {xs : List (BitVec W)}
    (h : Filled m s xs) (k : ℕ) (hk : k < min xs.length (2 ^ AW)) :
    xs.reverse[k]? = some (s.mem (s.waddr - BitVec.ofNat AW (k + 1))) := by
  obtain ⟨j, hj⟩ : ∃ j, xs.length = j + (k + 1) := ⟨xs.length - (k + 1), by omega⟩
  have hslot : s.waddr - BitVec.ofNat AW (k + 1) = 0 + BitVec.ofNat AW j := by
    rw [h.waddr, hj, BitVec.ofNat_add, ← BitVec.add_assoc, BitVec.add_sub_cancel]
  have hget : Ring.fill m 0 xs (0 + BitVec.ofNat AW j) = xs[j] :=
    Ring.fill_get m 0 xs j (by omega) (by omega)
  rw [hslot, h.mem, hget, List.getElem?_reverse (by omega), List.getElem?_eq_getElem (by omega)]
  congr 2
  omega

/-- The host's list ends with the last samples stored. -/
theorem Filled.read {m : BitVec AW → BitVec W} {s : Cap W AW} {xs : List (BitVec W)}
    (h : Filled m s xs) (hAW : 1 ≤ AW) (hW : AW + 11 ≤ W) {v : ℕ} (hv : Sends s v) :
    ((Host.mk W (2 ^ AW)).read false v).2.drop (2 ^ AW - min xs.length (2 ^ AW)) =
      (xs.drop (xs.length - min xs.length (2 ^ AW))).map BitVec.toNat := by
  rw [read_of_words s hAW hW hv]
  apply List.ext_getElem
  · simp only [List.length_drop, List.length_map, List.length_range]
    omega
  · intro t h1 h2
    simp only [List.length_drop, List.length_map] at h2
    simp only [List.getElem_drop, List.getElem_map, List.getElem_range]
    rw [row_of_fill h.waddr h.mem (j := xs.length - min xs.length (2 ^ AW) + t) (by omega)
      (by omega)]

/-! ### Runs -/

/-- The state and the samples stored after some events from power-up. -/
def after (mem : BitVec AW → BitVec W) (rdata : BitVec W) (es : List (Event W)) :
    Ila W AW × List (BitVec W) :=
  Run.noted Ila.step noteStored (Ila.powerUp mem rdata, []) es

/-- Every event of the run obeys the law, and in every state it reaches `waddr` is the write
slot. -/
structure KeepsSlot (mem : BitVec AW → BitVec W) (rdata : BitVec W) (es : List (Event W)) :
    Prop where
  edges : Run.Along Ila.step EdgeLaw (Ila.powerUp mem rdata) es
  ring : ∀ fs, fs <+: es → WriteSlot (after mem rdata fs).1.cap (after mem rdata fs).2

theorem filled_powerUp (mem : BitVec AW → BitVec W) (rdata : BitVec W) :
    Filled mem (Ila.powerUp mem rdata).cap [] :=
  ⟨rfl, rfl⟩

/-- The ring after a run whose events obey the law. -/
theorem filled {mem : BitVec AW → BitVec W} {rdata : BitVec W} {es : List (Event W)}
    (h : Run.Along Ila.step EdgeLaw (Ila.powerUp mem rdata) es) :
    Filled mem (after mem rdata es).1.cap (after mem rdata es).2 := by
  have hstep : ∀ (s : Ila W AW) (e : Event W) (xs : List (BitVec W)), Filled mem s.cap xs →
      EdgeLaw s e → Filled mem (s.step e).cap (noteStored s e xs) := fun _ _ _ hs he => hs.step he
  exact Run.noted_inv (fun s xs => Filled mem s.cap xs) hstep es (Ila.powerUp mem rdata, []) h
    (filled_powerUp mem rdata)

/-- **The write slot.** A run keeps it if and only if it cuts no capture off. -/
theorem keepsSlot_iff (hAW : 1 ≤ AW) (mem : BitVec AW → BitVec W) (rdata : BitVec W)
    (es : List (Event W)) :
    KeepsSlot mem rdata es ↔ Run.Along Ila.step Finishes (Ila.powerUp mem rdata) es := by
  have hlaw : (EdgeLaw : Ila W AW → Event W → Prop) = Finishes := by
    funext s e
    exact propext (edgeLaw_iff hAW s e)
  rw [← hlaw]
  constructor
  · exact KeepsSlot.edges
  · intro h
    refine ⟨h, ?_⟩
    rintro fs ⟨gs, rfl⟩
    have hfs := ((Run.along_append Ila.step noteStored EdgeLaw fs gs
      (Ila.powerUp mem rdata, [])).mp h).1
    have hring := filled hfs
    exact ⟨hring.slots, fun hW v hv => hring.read hAW hW hv⟩

/-- A scan of `ctl_word(mask, value, 0, arm)` and its UPDATE, then `n` edges of `clk`. -/
def writeThen (mask value : ℕ) (arm : Bool) (n : ℕ) : List (Event 12) :=
  ctlScan (word 12 1 mask value 0 arm) ++ .ctlUpdate true :: List.replicate n (.clk 0)

/-- A snapshot, which ends by itself. -/
theorem keepsSlot_iff_snapshot :
    KeepsSlot (W := 12) (fun _ : BitVec 1 => 0) 0 (writeThen 0 0 true 6) ↔
      Run.Along Ila.step Finishes (Ila.powerUp (fun _ : BitVec 1 => 0) 0)
        (writeThen 0 0 true 6) :=
  keepsSlot_iff le_rfl _ _ _

theorem run_writeThen (mask value : ℕ) (arm : Bool) (n : ℕ) (s : Ila 12 1) :
    (s.run (writeThen mask value arm n)).cap =
      (Cap.clk ⟨BitVec.ofNat 12 mask, BitVec.ofNat 12 value, 0, arm⟩ 0)^[n] s.cap := by
  obtain ⟨hcsr, hcap, -⟩ := run_scan (word 12 1 mask value 0 arm) s
  obtain ⟨hctl, hcap'⟩ := step_update le_rfl hcsr
  rw [writeThen, Ila.run_append, Ila.run_cons, run_replicate_clk, hctl, hcap', hcap]
  rfl

/-- A capture whose trigger does not come is disarmed: the edge that hears the low stores a sample
and leaves `waddr` at it. -/
theorem not_keepsSlot : ¬ ∀ (W AW : ℕ) (mem : BitVec AW → BitVec W) (rdata : BitVec W)
    (es : List (Event W)), 1 ≤ AW → AW + 11 ≤ W → KeepsSlot mem rdata es := by
  intro h
  have hedges := (h 12 1 (fun _ => 0) 0
    (writeThen 1 1 true 5 ++ writeThen 1 1 false 3 ++ [.clk 0]) (by omega) (by omega)).edges
  have hlast := ((Run.along_append Ila.step noteStored EdgeLaw _ _
    (Ila.powerUp (fun _ : BitVec 1 => 0) 0, [])).mp hedges).2.1
  have hstate : (Run.noted Ila.step noteStored
      (Ila.powerUp (fun _ : BitVec 1 => (0 : BitVec 12)) 0, []) (writeThen 1 1 true 5 ++
        writeThen 1 1 false 3)).1.cap =
        (Cap.clk ⟨1#12, 1#12, 0, false⟩ 0)^[3] ((Cap.clk ⟨1#12, 1#12, 0, true⟩ 0)^[5]
          (Ila.powerUp (fun _ : BitVec 1 => (0 : BitVec 12)) 0).cap) := by
    rw [Run.noted_fst]
    change ((Ila.powerUp _ _).run (writeThen 1 1 true 5 ++ writeThen 1 1 false 3)).cap = _
    rw [Ila.run_append, run_writeThen, run_writeThen]
  have hfin := (edgeLaw_iff le_rfl _ _).mp hlast
  unfold Finishes stores at hfin
  rw [hstate] at hfin
  exact absurd (hfin (by decide)) (by decide)

end Openila
end Xc7Tools
