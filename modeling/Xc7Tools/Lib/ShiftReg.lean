/-
# Shift registers

A register of `n` bits that shifts towards its low end and takes a new bit at
the top, as JTAG data registers do. After `n` shifts nothing is left of what
it held, and it is the last `n` bits shifted in, the oldest lowest.

Key definitions: `shiftIn`, `shiftAll`.
Key theorems: `shiftIn_getLsbD`, `shiftAll_getLsbD`, `shiftAll_drop`.
-/
import Mathlib.Data.BitVec

namespace Xc7Tools

/-- `{tdi, x[n-1:1]}`: the register shifts right and takes `tdi` at the top. -/
def shiftIn {n : ℕ} (tdi : Bool) (x : BitVec n) : BitVec n :=
  (BitVec.cons tdi (x.extractLsb' 1 (n - 1))).setWidth n

theorem shiftIn_getLsbD {n : ℕ} (tdi : Bool) (x : BitVec n) {i : ℕ} (hi : i < n) :
    (shiftIn tdi x).getLsbD i = if i + 1 = n then tdi else x.getLsbD (i + 1) := by
  simp only [shiftIn, BitVec.getLsbD_setWidth, hi, decide_true, Bool.true_and,
    BitVec.getLsbD_cons, BitVec.getLsbD_extractLsb']
  by_cases h : i + 1 = n
  · rw [if_pos (by omega), if_pos h]
  · rw [if_neg (by omega), if_neg h, Nat.add_comm 1 i]
    simp [show i < n - 1 by omega]

/-- The register after `bs` are shifted in, the first bit first. -/
def shiftAll {n : ℕ} (x : BitVec n) : List Bool → BitVec n
  | [] => x
  | b :: bs => shiftAll (shiftIn b x) bs

@[simp] theorem shiftAll_nil {n : ℕ} (x : BitVec n) : shiftAll x [] = x := rfl

theorem shiftAll_concat {n : ℕ} (b : Bool) : ∀ (x : BitVec n) (bs : List Bool),
    shiftAll x (bs ++ [b]) = shiftIn b (shiftAll x bs)
  | _, [] => rfl
  | x, c :: bs => by simp only [List.cons_append, shiftAll, shiftAll_concat b _ bs]

/-- Bit `i` after some shifts: what was `bs.length` places above it, or a bit
shifted in. -/
theorem shiftAll_getLsbD {n : ℕ} : ∀ (bs : List Bool) (x : BitVec n) (i : ℕ), i < n →
    (shiftAll x bs).getLsbD i =
      if i + bs.length < n then x.getLsbD (i + bs.length) else bs.getD (i + bs.length - n) false
  | [], x, i, hi => by simp [hi]
  | b :: bs, x, i, hi => by
    rw [shiftAll, shiftAll_getLsbD bs _ i hi, List.length_cons]
    by_cases h1 : i + bs.length + 1 < n
    · rw [if_pos (by omega), if_pos (by omega), shiftIn_getLsbD b x (by omega), if_neg (by omega)]
      rfl
    · rw [if_neg (show ¬ i + (bs.length + 1) < n by omega)]
      by_cases h2 : i + bs.length + 1 = n
      · rw [if_pos (by omega), shiftIn_getLsbD b x (by omega), if_pos h2,
          show i + (bs.length + 1) - n = 0 by omega, List.getD_cons_zero]
      · rw [if_neg (by omega),
          show i + (bs.length + 1) - n = i + bs.length - n + 1 by omega, List.getD_cons_succ]

/-- The register is the last `n` bits shifted in. -/
theorem shiftAll_drop {n : ℕ} (x : BitVec n) (bs : List Bool) (h : n ≤ bs.length) :
    shiftAll x bs = shiftAll 0 (bs.drop (bs.length - n)) := by
  apply BitVec.eq_of_getLsbD_eq
  intro i hi
  have hlen : (bs.drop (bs.length - n)).length = n := by rw [List.length_drop]; omega
  rw [shiftAll_getLsbD bs x i hi, shiftAll_getLsbD _ 0 i hi, hlen, if_neg (by omega),
    if_neg (by omega), Nat.add_sub_cancel, List.getD_eq_getElem?_getD, List.getD_eq_getElem?_getD,
    List.getElem?_drop]
  congr 2
  omega

end Xc7Tools
