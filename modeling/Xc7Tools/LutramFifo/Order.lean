/-
# eth_lutram_fifo: first in, first out

Each side holds its own pointer and two older copies of the other one's, all of
them codes of counts: `WSide.At` and `RSide.At` say of which. A full flag that
is low means that the pointer is less than DEPTH ahead of a copy, and the copy
is behind the reader, so there is room; and likewise for empty. Counting modulo
`2 ^ (AW + 1)` loses nothing, since the counts a flag compares are at most
DEPTH apart.

Key definitions: `WSide.At`, `RSide.At`, `Fifo.Inv`.
Key theorems: `WSide.At.clk`, `RSide.At.clk`, `Fifo.Inv.step`, `first_in_first_out`.
-/
import Xc7Tools.LutramFifo.Gateware

namespace Xc7Tools
namespace LutramFifo

variable {WIDTH AW : ℕ}

/-! ### What goes in and comes out -/

namespace Fifo

/-- The word an event writes: on an edge of `wclk` with `wr_en` and not `wr_full`. -/
def put (s : Fifo WIDTH AW) : Event WIDTH AW → List (BitVec WIDTH)
  | .w e => if s.w.accepts e.wrEn then [e.wrData] else []
  | .r _ => []
  | .both e _ => if s.w.accepts e.wrEn then [e.wrData] else []

/-- The word an event reads: on an edge of `rclk` with `rd_en` and not `rd_empty`. -/
def got (s : Fifo WIDTH AW) : Event WIDTH AW → List (BitVec WIDTH)
  | .w _ => []
  | .r f => if s.r.takes f.rdEn then [s.rdData] else []
  | .both _ f => if s.r.takes f.rdEn then [s.rdData] else []

/-- The words a run writes. -/
def accepted : Fifo WIDTH AW → List (Event WIDTH AW) → List (BitVec WIDTH)
  | _, [] => []
  | s, e :: es => s.put e ++ accepted (s.step e) es

/-- The words a run reads. -/
def taken : Fifo WIDTH AW → List (Event WIDTH AW) → List (BitVec WIDTH)
  | _, [] => []
  | s, e :: es => s.got e ++ taken (s.step e) es

theorem accepted_concat (e : Event WIDTH AW) : ∀ (s : Fifo WIDTH AW) (es : List (Event WIDTH AW)),
    s.accepted (es ++ [e]) = s.accepted es ++ (s.run es).put e
  | s, [] => by simp [accepted, run]
  | s, e' :: es => by
    rw [List.cons_append, accepted, accepted_concat e _ es, accepted, List.append_assoc]
    rfl

theorem taken_concat (e : Event WIDTH AW) : ∀ (s : Fifo WIDTH AW) (es : List (Event WIDTH AW)),
    s.taken (es ++ [e]) = s.taken es ++ (s.run es).got e
  | s, [] => by simp [taken, run]
  | s, e' :: es => by
    rw [List.cons_append, taken, taken_concat e _ es, taken, List.append_assoc]
    rfl

end Fifo

/-! ### Counts -/

theorem ofNat_add_ofBool (k : ℕ) (b : Bool) :
    BitVec.ofNat (AW + 1) k + (BitVec.ofBool b).setWidth (AW + 1) =
      BitVec.ofNat (AW + 1) (k + b.toNat) := by
  rw [BitVec.ofNat_add]
  congr 1
  refine BitVec.eq_of_toNat_eq ?_
  cases b <;> simp

/-- Counts that are less than a turn apart are told apart by their codes. -/
theorem grayOf_inj {j k : ℕ} (hjk : j ≤ k) (hk : k < j + 2 ^ (AW + 1)) :
    grayOf (AW + 1) j = grayOf (AW + 1) k ↔ j = k := by
  rw [grayOf_eq_iff]
  refine ⟨fun h => ?_, fun h => by rw [h]⟩
  have hdvd : 2 ^ (AW + 1) ∣ k - j := (Nat.modEq_iff_dvd' hjk).mp h
  have := Nat.eq_zero_of_dvd_of_lt hdvd (by omega)
  omega

/-! ### The write side -/

/-- The write side after `w` words, with copies of the read pointer at counts `a₁` and `a₂`. -/
structure WSide.At (s : WSide AW) (w a₁ a₂ : ℕ) : Prop where
  wbin : s.wbin = BitVec.ofNat (AW + 1) w
  wgray : s.wgray = grayOf (AW + 1) w
  wq1Rgray : s.wq1Rgray = grayOf (AW + 1) a₁
  wq2Rgray : s.wq2Rgray = grayOf (AW + 1) a₂
  copies : a₂ ≤ a₁
  ahead : a₂ ≤ w
  room : w ≤ a₂ + 2 ^ AW
  notFull : s.wfullQ = false → w < a₂ + 2 ^ AW

theorem WSide.At.wgrayNxt {s : WSide AW} {w a₁ a₂ : ℕ} (h : s.At w a₁ a₂) (wrEn : Bool) :
    s.wgrayNxt wrEn = grayOf (AW + 1) (w + (s.accepts wrEn).toNat) := by
  rw [WSide.wgrayNxt, WSide.wbinNxt, h.wbin, ofNat_add_ofBool, grayOf]

/-- An edge of `wclk` that finds the read pointer at count `a`. -/
theorem WSide.At.clk (haw : 1 ≤ AW) {s : WSide AW} {w a₁ a₂ a : ℕ} (h : s.At w a₁ a₂)
    (ha : a₁ ≤ a) (haw' : a₁ ≤ w) (wrEn : Bool) :
    (s.clk false wrEn (grayOf (AW + 1) a)).At (w + (s.accepts wrEn).toNat) a a₁ := by
  have hcopies := h.copies
  have hahead := h.ahead
  have hroom : w + (s.accepts wrEn).toNat ≤ a₂ + 2 ^ AW := by
    cases hacc : s.accepts wrEn with
    | false => exact h.room
    | true =>
      have hfull : s.wfullQ = false := by
        simp only [WSide.accepts, Bool.and_eq_true, Bool.not_eq_true'] at hacc
        exact hacc.2
      exact h.notFull hfull
  exact
    { wbin := by
        rw [WSide.clk, if_neg Bool.false_ne_true, WSide.wbinNxt, h.wbin, ofNat_add_ofBool]
      wgray := h.wgrayNxt wrEn
      wq1Rgray := rfl
      wq2Rgray := h.wq1Rgray
      copies := ha
      ahead := by omega
      room := by omega
      notFull := by
        intro hfull
        have hne : grayOf (AW + 1) (w + (s.accepts wrEn).toNat) ≠ grayOf (AW + 1) (a₂ + 2 ^ AW) := by
          change (s.wgrayNxt wrEn == flipTop s.wq2Rgray) = false at hfull
          rw [h.wgrayNxt, h.wq2Rgray, flipTop_gray haw] at hfull
          exact beq_eq_false_iff_ne.mp hfull
        have hlt : a₂ + 2 ^ AW < w + (s.accepts wrEn).toNat + 2 ^ (AW + 1) := by
          have := pow_succ 2 AW
          have := Nat.two_pow_pos AW
          omega
        have := mt (grayOf_inj hroom hlt).mpr hne
        omega }

/-! ### The read side -/

/-- The read side after `r` words, with copies of the write pointer at counts `b₁` and `b₂`. -/
structure RSide.At (s : RSide AW) (r b₁ b₂ : ℕ) : Prop where
  rbin : s.rbin = BitVec.ofNat (AW + 1) r
  rgray : s.rgray = grayOf (AW + 1) r
  rq1Wgray : s.rq1Wgray = grayOf (AW + 1) b₁
  rq2Wgray : s.rq2Wgray = grayOf (AW + 1) b₂
  copies : b₂ ≤ b₁
  behind : r ≤ b₂
  notEmpty : s.remptyQ = false → r < b₂

theorem RSide.At.rgrayNxt {s : RSide AW} {r b₁ b₂ : ℕ} (h : s.At r b₁ b₂) (rdEn : Bool) :
    s.rgrayNxt rdEn = grayOf (AW + 1) (r + (s.takes rdEn).toNat) := by
  rw [RSide.rgrayNxt, RSide.rbinNxt, h.rbin, ofNat_add_ofBool, grayOf]

/-- An edge of `rclk` that finds the write pointer at count `b`. -/
theorem RSide.At.clk {s : RSide AW} {r b₁ b₂ b : ℕ} (h : s.At r b₁ b₂) (hb : b₁ ≤ b)
    (hdepth : b₂ ≤ r + 2 ^ AW) (rdEn : Bool) :
    (s.clk false rdEn (grayOf (AW + 1) b)).At (r + (s.takes rdEn).toNat) b b₁ := by
  have hcopies := h.copies
  have hbehind : r + (s.takes rdEn).toNat ≤ b₂ := by
    cases htake : s.takes rdEn with
    | false => exact h.behind
    | true =>
      have hempty : s.remptyQ = false := by
        simp only [RSide.takes, Bool.and_eq_true, Bool.not_eq_true'] at htake
        exact htake.2
      exact h.notEmpty hempty
  exact
    { rbin := by
        rw [RSide.clk, if_neg Bool.false_ne_true, RSide.rbinNxt, h.rbin, ofNat_add_ofBool]
      rgray := h.rgrayNxt rdEn
      rq1Wgray := rfl
      rq2Wgray := h.rq1Wgray
      copies := hb
      behind := by omega
      notEmpty := by
        intro hempty
        have hne : grayOf (AW + 1) (r + (s.takes rdEn).toNat) ≠ grayOf (AW + 1) b₂ := by
          change (s.rgrayNxt rdEn == s.rq2Wgray) = false at hempty
          rw [h.rgrayNxt, h.rq2Wgray] at hempty
          exact beq_eq_false_iff_ne.mp hempty
        have hlt : b₂ < r + (s.takes rdEn).toNat + 2 ^ (AW + 1) := by
          have := pow_succ 2 AW
          have := Nat.two_pow_pos AW
          omega
        have := mt (grayOf_inj hbehind hlt).mpr hne
        omega }

/-! ### The module -/

namespace Fifo

/-- After the words `acc` were written and `rd` of them read. -/
structure Inv (s : Fifo WIDTH AW) (acc rd : List (BitVec WIDTH)) : Prop where
  taken : rd <+: acc
  depth : acc.length ≤ rd.length + 2 ^ AW
  mem : ∀ k, rd.length ≤ k → k < acc.length → acc[k]? = some (s.mem (BitVec.ofNat AW k))
  -- the write side's copies, and the pointer as its last edge found it
  w : ∃ aD a₁ a₂, s.w.At acc.length a₁ a₂ ∧ a₁ ≤ aD ∧ s.rgrayD = grayOf (AW + 1) aD ∧
    aD ≤ rd.length ∧ rd.length ≤ aD + 1
  r : ∃ bD b₁ b₂, s.r.At rd.length b₁ b₂ ∧ b₁ ≤ bD ∧ s.wgrayD = grayOf (AW + 1) bD ∧
    bD ≤ acc.length ∧ acc.length ≤ bD + 1

variable {s : Fifo WIDTH AW} {acc rd : List (BitVec WIDTH)}

theorem Inv.reset (h : Reset s) : Inv s [] [] := by
  have hzero : grayOf (AW + 1) 0 = 0 := by
    rw [grayOf, gray]
    simp
  refine ⟨List.prefix_rfl, Nat.zero_le _, fun k _ hk => absurd hk (Nat.not_lt_zero k), ?_, ?_⟩
  · refine ⟨0, 0, 0, ?_, le_rfl, by rw [h.rgrayD, hzero], le_rfl, Nat.zero_le _⟩
    rw [h.w]
    exact ⟨rfl, hzero.symm, hzero.symm, hzero.symm, le_rfl, le_rfl, Nat.zero_le _,
      fun _ => Nat.add_pos_right 0 (Nat.two_pow_pos AW)⟩
  · refine ⟨0, 0, 0, ?_, le_rfl, by rw [h.wgrayD, hzero], le_rfl, Nat.zero_le _⟩
    rw [h.r]
    exact ⟨rfl, hzero.symm, hzero.symm, hzero.symm, le_rfl, le_rfl, fun he => by cases he⟩

/-! ### One edge -/

theorem Inv.length (h : Inv s acc rd) : rd.length ≤ acc.length := h.taken.length_le

/-- An edge of `wclk`, in numbers. -/
theorem length_put (s : Fifo WIDTH AW) (e : WEdge WIDTH AW) :
    (s.put (.w e)).length = (s.w.accepts e.wrEn).toNat := by
  rw [put]
  cases s.w.accepts e.wrEn <;> rfl

theorem length_got (s : Fifo WIDTH AW) (f : REdge AW) :
    (s.got (.r f)).length = (s.r.takes f.rdEn).toNat := by
  rw [got]
  cases s.r.takes f.rdEn <;> rfl

/-- A write goes to a place with no unread word in it. -/
theorem Inv.stores (h : Inv s acc rd) (e : WEdge WIDTH AW) :
    (acc ++ s.put (.w e)).length ≤ rd.length + 2 ^ AW ∧
      ∀ k, rd.length ≤ k → k < (acc ++ s.put (.w e)).length →
        (acc ++ s.put (.w e))[k]? = some (s.write e (BitVec.ofNat AW k)) := by
  obtain ⟨aD, a₁, a₂, hw, ha, -, haD, -⟩ := h.w
  have hcopies := hw.copies
  cases hacc : s.w.accepts e.wrEn with
  | false =>
    have hput : s.put (.w e) = [] := by rw [put, hacc, if_neg Bool.false_ne_true]
    rw [hput, List.append_nil, write, hacc, if_neg Bool.false_ne_true]
    exact ⟨h.depth, h.mem⟩
  | true =>
    have hput : s.put (.w e) = [e.wrData] := by rw [put, hacc, if_pos rfl]
    have hfull : s.w.wfullQ = false := by
      simp only [WSide.accepts, Bool.and_eq_true, Bool.not_eq_true'] at hacc
      exact hacc.2
    have hroom := hw.notFull hfull
    have haddr : s.w.wbin.setWidth AW = BitVec.ofNat AW acc.length := by
      rw [hw.wbin]
      refine BitVec.eq_of_toNat_eq ?_
      rw [BitVec.toNat_setWidth, BitVec.toNat_ofNat, BitVec.toNat_ofNat,
        Nat.mod_mod_of_dvd _ (pow_dvd_pow 2 (Nat.le_succ AW))]
    rw [hput, write, hacc, if_pos rfl, haddr, List.length_append, List.length_singleton]
    refine ⟨by omega, fun k hk hlt => ?_⟩
    by_cases hkl : k = acc.length
    · rw [hkl, Function.update_self, List.getElem?_append_right le_rfl, Nat.sub_self]
      rfl
    · -- two counts less than a turn of the memory apart
      have hne : BitVec.ofNat AW k ≠ BitVec.ofNat AW acc.length := by
        intro he
        have hmod : k % 2 ^ AW = acc.length % 2 ^ AW := by
          simpa using congrArg BitVec.toNat he
        have hdvd : 2 ^ AW ∣ acc.length - k := (Nat.modEq_iff_dvd' (by omega)).mp hmod
        have := Nat.eq_zero_of_dvd_of_lt hdvd (by omega)
        omega
      rw [Function.update_of_ne hne, List.getElem?_append_left (by omega)]
      exact h.mem k hk (by omega)

/-- The word read is the oldest unread one. -/
theorem Inv.reads (h : Inv s acc rd) (f : REdge AW) : rd ++ s.got (.r f) <+: acc := by
  obtain ⟨bD, b₁, b₂, hr, hb, -, hbD, -⟩ := h.r
  have hcopies := hr.copies
  cases htake : s.r.takes f.rdEn with
  | false =>
    have hgot : s.got (.r f) = [] := by rw [got, htake, if_neg Bool.false_ne_true]
    rw [hgot, List.append_nil]
    exact h.taken
  | true =>
    have hgot : s.got (.r f) = [s.rdData] := by rw [got, htake, if_pos rfl]
    have hempty : s.r.remptyQ = false := by
      simp only [RSide.takes, Bool.and_eq_true, Bool.not_eq_true'] at htake
      exact htake.2
    have hlt := hr.notEmpty hempty
    have haddr : s.r.rbin.setWidth AW = BitVec.ofNat AW rd.length := by
      rw [hr.rbin]
      refine BitVec.eq_of_toNat_eq ?_
      rw [BitVec.toNat_setWidth, BitVec.toNat_ofNat, BitVec.toNat_ofNat,
        Nat.mod_mod_of_dvd _ (pow_dvd_pow 2 (Nat.le_succ AW))]
    have hhead := h.mem rd.length le_rfl (by omega)
    rw [hgot, rdData, haddr]
    obtain ⟨rest, rfl⟩ := h.taken
    rw [List.getElem?_append_right le_rfl, Nat.sub_self, ← List.head?_eq_getElem?] at hhead
    obtain ⟨tail, rfl⟩ := List.head?_eq_some_iff.mp hhead
    exact ⟨tail, by rw [List.append_assoc, List.singleton_append]⟩

theorem Inv.step (haw : 1 ≤ AW) (h : Inv s acc rd) (e : Event WIDTH AW) :
    Inv (s.step e) (acc ++ s.put e) (rd ++ s.got e) := by
  obtain ⟨aD, a₁, a₂, hw, ha, hrD, haD, haD'⟩ := h.w
  obtain ⟨bD, b₁, b₂, hr, hb, hwD, hbD, hbD'⟩ := h.r
  have hle := h.length
  have hdepth := h.depth
  have hca := hw.copies
  have hcb := hr.copies
  have hputle : ∀ e, (s.put (.w e)).length ≤ 1 := fun e => by
    rw [length_put]
    exact Bool.toNat_le _
  have hgotle : ∀ f, (s.got (.r f)).length ≤ 1 := fun f => by
    rw [length_got]
    exact Bool.toNat_le _
  cases e with
  | w e =>
    have hgot : s.got (.w e) = [] := rfl
    obtain ⟨hput, hmem⟩ := h.stores e
    obtain ⟨i, hmix, hi, hi'⟩ := exists_mix_eq haD haD' e.late
    have hw' := hw.clk haw (show a₁ ≤ i by omega) (by omega) e.wrEn
    rw [← hmix, ← hrD, ← hr.rgray, ← length_put, ← List.length_append] at hw'
    have := hputle e
    rw [hgot, List.append_nil]
    refine ⟨h.taken.trans (List.prefix_append acc _), hput, hmem, ?_, ?_⟩
    · exact ⟨rd.length, i, a₁, hw', hi', hr.rgray, le_rfl, Nat.le_succ _⟩
    · refine ⟨acc.length, b₁, b₂, hr, by omega, hw.wgray, ?_, ?_⟩ <;>
        rw [List.length_append] <;> omega
  | r f =>
    have hput : s.put (.r f) = [] := rfl
    obtain ⟨i, hmix, hi, hi'⟩ := exists_mix_eq hbD hbD' f.late
    have hr' := hr.clk (show b₁ ≤ i by omega) (show b₂ ≤ rd.length + 2 ^ AW by omega) f.rdEn
    rw [← hmix, ← hwD, ← hw.wgray, ← length_got, ← List.length_append] at hr'
    have := hgotle f
    rw [hput, List.append_nil]
    refine ⟨h.reads f, ?_, fun k hk hlt => h.mem k ?_ hlt, ?_, ?_⟩
    · rw [List.length_append]
      omega
    · rw [List.length_append] at hk
      omega
    · refine ⟨rd.length, a₁, a₂, hw, by omega, hr.rgray, ?_, ?_⟩ <;>
        rw [List.length_append] <;> omega
    · exact ⟨acc.length, i, b₁, hr', hi', hw.wgray, le_rfl, Nat.le_succ _⟩
  | both e f =>
    have hputeq : s.put (.both e f) = s.put (.w e) := rfl
    have hgoteq : s.got (.both e f) = s.got (.r f) := rfl
    obtain ⟨hput, hmem⟩ := h.stores e
    have hpe := hputle e
    have hgf := hgotle f
    rw [hputeq, hgoteq]
    have hacc' : (acc ++ s.put (.w e)).length = acc.length + (s.put (.w e)).length :=
      List.length_append
    have hrd' : (rd ++ s.got (.r f)).length = rd.length + (s.got (.r f)).length :=
      List.length_append
    have hwg : s.w.wgrayNxt e.wrEn = grayOf (AW + 1) (acc ++ s.put (.w e)).length := by
      rw [hw.wgrayNxt, hacc', length_put]
    have hrg : s.r.rgrayNxt f.rdEn = grayOf (AW + 1) (rd ++ s.got (.r f)).length := by
      rw [hr.rgrayNxt, hrd', length_got]
    obtain ⟨i, hmixa, hi, hi'⟩ := exists_mix_eq (n := AW + 1)
      (show rd.length ≤ (rd ++ s.got (.r f)).length by omega) (by omega) e.late
    obtain ⟨j, hmixb, hj, hj'⟩ := exists_mix_eq (n := AW + 1)
      (show acc.length ≤ (acc ++ s.put (.w e)).length by omega) (by omega) f.late
    have hw' := hw.clk haw (show a₁ ≤ i by omega) (by omega) e.wrEn
    rw [← hmixa, ← hrg, ← hr.rgray, ← length_put, ← List.length_append] at hw'
    have hr' := hr.clk (show b₁ ≤ j by omega) (show b₂ ≤ rd.length + 2 ^ AW by omega) f.rdEn
    rw [← hmixb, ← hwg, ← hw.wgray, ← length_got, ← List.length_append] at hr'
    refine ⟨(h.reads f).trans (List.prefix_append acc _), ?_, fun k hk hlt => hmem k ?_ hlt, ?_, ?_⟩
    · omega
    · omega
    · exact ⟨_, i, a₁, hw', hi', hrg, le_rfl, Nat.le_succ _⟩
    · exact ⟨_, j, b₁, hr', hj', hwg, le_rfl, Nat.le_succ _⟩

/-- Every run keeps the invariant. -/
theorem inv_run (haw : 1 ≤ AW) {s₀ : Fifo WIDTH AW} (h0 : Reset s₀) (es : List (Event WIDTH AW)) :
    Inv (s₀.run es) (s₀.accepted es) (s₀.taken es) := by
  induction es using List.reverseRecOn with
  | nil => exact Inv.reset h0
  | append_singleton es e ih =>
    rw [run_concat, accepted_concat, taken_concat]
    exact ih.step haw e

/-! ### Full, empty and the gray pointers -/

end Fifo

/-- The event with `wr_en` low. -/
def Event.noWrite : Event WIDTH AW → Event WIDTH AW
  | .w e => .w { e with wrEn := false }
  | .r f => .r f
  | .both e f => .both { e with wrEn := false } f

/-- The event with `rd_en` low. -/
def Event.noRead : Event WIDTH AW → Event WIDTH AW
  | .w e => .w e
  | .r f => .r { f with rdEn := false }
  | .both e f => .both e { f with rdEn := false }

namespace Fifo

variable {s : Fifo WIDTH AW} {acc rd : List (BitVec WIDTH)}

/-- A write while full is no write. -/
theorem step_full (h : s.w.wfullQ = true) (e : Event WIDTH AW) :
    s.step e = s.step e.noWrite ∧ (s.step e).mem = s.mem := by
  have hacc : ∀ wrEn, s.w.accepts wrEn = false := fun wrEn => by
    rw [WSide.accepts, h, Bool.not_true, Bool.and_false]
  cases e with
  | w e | both e f =>
    simp only [step, Event.noWrite, write, WSide.clk, WSide.wfullNxt, WSide.wgrayNxt,
      WSide.wbinNxt, hacc, Bool.false_eq_true, if_false, and_self]
  | r f => exact ⟨rfl, rfl⟩

/-- A read while empty is no read. -/
theorem step_empty (h : s.r.remptyQ = true) (e : Event WIDTH AW) : s.step e = s.step e.noRead := by
  have htake : ∀ rdEn, s.r.takes rdEn = false := fun rdEn => by
    rw [RSide.takes, h, Bool.not_true, Bool.and_false]
  cases e with
  | w e => rfl
  | r f | both e f =>
    simp only [step, Event.noRead, RSide.clk, RSide.remptyNxt, RSide.rgrayNxt, RSide.rbinNxt, htake]

/-- An edge moves a pointer by one count at most. -/
theorem Inv.oneApart (h : Inv s acc rd) (e : Event WIDTH AW) :
    OneApart (s.step e).w.wgray s.w.wgray ∧ OneApart (s.step e).r.rgray s.r.rgray := by
  obtain ⟨aD, a₁, a₂, hw, -⟩ := h.w
  obtain ⟨bD, b₁, b₂, hr, -⟩ := h.r
  have hwstep : ∀ wrEn, OneApart (s.w.wgrayNxt wrEn) s.w.wgray := fun wrEn => by
    rw [hw.wgrayNxt, hw.wgray]
    exact oneApart_grayOf (Nat.le_add_right _ _) (Nat.add_le_add_left (Bool.toNat_le _) _)
  have hrstep : ∀ rdEn, OneApart (s.r.rgrayNxt rdEn) s.r.rgray := fun rdEn => by
    rw [hr.rgrayNxt, hr.rgray]
    exact oneApart_grayOf (Nat.le_add_right _ _) (Nat.add_le_add_left (Bool.toNat_le _) _)
  cases e with
  | w e => exact ⟨hwstep _, OneApart.refl _⟩
  | r f => exact ⟨OneApart.refl _, hrstep _⟩
  | both e f => exact ⟨hwstep _, hrstep _⟩

/-- **First in, first out**, across the clock boundary. -/
theorem first_in_first_out (haw : 2 ≤ AW) {s₀ : Fifo WIDTH AW} (h0 : Reset s₀)
    (es : List (Event WIDTH AW)) :
    s₀.taken es <+: s₀.accepted es ∧
      (s₀.accepted es).length ≤ (s₀.taken es).length + 2 ^ AW ∧
      ((s₀.run es).w.wfullQ = true → ∀ e, (s₀.run es).step e = (s₀.run es).step e.noWrite ∧
        ((s₀.run es).step e).mem = (s₀.run es).mem) ∧
      ((s₀.run es).r.remptyQ = true → ∀ e, (s₀.run es).step e = (s₀.run es).step e.noRead) ∧
      ∀ e, OneApart ((s₀.run es).step e).w.wgray (s₀.run es).w.wgray ∧
        OneApart ((s₀.run es).step e).r.rgray (s₀.run es).r.rgray := by
  have hinv := inv_run (by omega) h0 es
  exact ⟨hinv.taken, hinv.depth, step_full, step_empty, hinv.oneApart⟩

/-- Two words written at once with edges of the reader, and one read. -/
theorem first_in_first_out_two :
    (afterReset 8 2).taken [.w ⟨true, 0xA1, 0⟩, .both ⟨true, 0xB2, 1⟩ ⟨true, 2⟩, .r ⟨true, 3⟩,
        .r ⟨true, 0⟩, .r ⟨true, 0⟩] = [0xA1] ∧
      (afterReset 8 2).taken [.w ⟨true, 0xA1, 0⟩, .both ⟨true, 0xB2, 1⟩ ⟨true, 2⟩, .r ⟨true, 3⟩,
        .r ⟨true, 0⟩, .r ⟨true, 0⟩] <+:
      (afterReset 8 2).accepted [.w ⟨true, 0xA1, 0⟩, .both ⟨true, 0xB2, 1⟩ ⟨true, 2⟩,
        .r ⟨true, 3⟩, .r ⟨true, 0⟩, .r ⟨true, 0⟩] :=
  ⟨by decide, (first_in_first_out le_rfl reset_afterReset _).1⟩

end Fifo
end LutramFifo
end Xc7Tools
