/-
# The byte lanes of a word

`lane w k` is byte `k` of the word `w`, the least significant first;
`setLane w k b` is `w` with that byte replaced, and leaves the others; the
lanes of bytes put together are the bytes.

Key definitions: `Lanes.lane`, `Lanes.setLane`.
Key theorems: `Lanes.lane_setLane_self`, `Lanes.lane_setLane_of_ne`,
`Lanes.lane_append_succ`.
-/
import Mathlib.Data.BitVec

namespace Xc7Tools
namespace Lanes

variable {n : ℕ}

/-- `w[8*k +: 8]` -/
def lane (w : BitVec n) (k : ℕ) : BitVec 8 := w.extractLsb' (8 * k) 8

/-- `w[8*k +: 8] <= b` -/
def setLane (w : BitVec n) (k : ℕ) (b : BitVec 8) : BitVec n :=
  (w &&& ~~~((BitVec.allOnes 8).setWidth n <<< (8 * k))) ||| (b.setWidth n <<< (8 * k))

/-- Bit by bit: inside the lane the bits of the byte, outside the word's own. -/
theorem getLsbD_setLane (w : BitVec n) (k : ℕ) (b : BitVec 8) (i : ℕ) :
    (setLane w k b).getLsbD i =
      if 8 * k ≤ i ∧ i < 8 * k + 8 then decide (i < n) && b.getLsbD (i - 8 * k)
      else w.getLsbD i := by
  simp only [setLane, BitVec.getLsbD_or, BitVec.getLsbD_and, BitVec.getLsbD_not,
    BitVec.getLsbD_shiftLeft, BitVec.getLsbD_setWidth, BitVec.getLsbD_allOnes]
  by_cases hn : i < n
  · have hsub : i - 8 * k < n := by omega
    by_cases hlow : i < 8 * k
    · rw [if_neg (by omega)]
      simp [hn, hlow]
    · by_cases hhigh : i < 8 * k + 8
      · rw [if_pos (by omega)]
        have hin : i - 8 * k < 8 := by omega
        simp [hn, hlow, hsub, hin]
      · rw [if_neg (by omega)]
        have hin : ¬ i - 8 * k < 8 := by omega
        have hb : b.getLsbD (i - 8 * k) = false := BitVec.getLsbD_of_ge _ _ (by omega)
        simp only [hn, hlow, hsub, hin, hb, decide_true, decide_false, Bool.not_false,
          Bool.and_true, Bool.and_false, Bool.or_false]
  · have hw : w.getLsbD i = false := BitVec.getLsbD_of_ge _ _ (by omega)
    simp [hn, hw]

theorem lane_setLane_self (w : BitVec n) {k : ℕ} (b : BitVec 8) (hk : 8 * k + 8 ≤ n) :
    lane (setLane w k b) k = b := by
  apply BitVec.eq_of_getLsbD_eq
  intro i hi
  rw [lane, BitVec.getLsbD_extractLsb', getLsbD_setLane, if_pos (by omega), Nat.add_sub_cancel_left]
  have hn : 8 * k + i < n := by omega
  simp [hi, hn]

theorem lane_setLane_of_ne (w : BitVec n) {j k : ℕ} (b : BitVec 8) (h : j ≠ k) :
    lane (setLane w k b) j = lane w j := by
  apply BitVec.eq_of_getLsbD_eq
  intro i hi
  rw [lane, lane, BitVec.getLsbD_extractLsb', BitVec.getLsbD_extractLsb', getLsbD_setLane,
    if_neg (by omega)]

/-! ### A word put together -/

@[simp] theorem lane_byte (b : BitVec 8) : lane b 0 = b := by
  apply BitVec.eq_of_getLsbD_eq
  intro i hi
  simp [lane, hi]

theorem lane_append_zero (w : BitVec n) (b : BitVec 8) : lane (w ++ b) 0 = b := by
  apply BitVec.eq_of_getLsbD_eq
  intro i hi
  rw [lane, BitVec.getLsbD_extractLsb', BitVec.getLsbD_append]
  simp [hi]

theorem lane_append_succ (w : BitVec n) (b : BitVec 8) (k : ℕ) :
    lane (w ++ b) (k + 1) = lane w k := by
  apply BitVec.eq_of_getLsbD_eq
  intro i hi
  have hsub : 8 * (k + 1) + i - 8 = 8 * k + i := by omega
  rw [lane, lane, BitVec.getLsbD_extractLsb', BitVec.getLsbD_extractLsb', BitVec.getLsbD_append,
    if_neg (by omega), hsub]

end Lanes
end Xc7Tools
