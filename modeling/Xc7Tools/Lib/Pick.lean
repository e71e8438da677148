/-
# Bits picked out of a word

The number made of some bits of a word, the first one lowest: `pick get is`
for the bits `get i` of the places `is`. It is told by its own bits
(`testBit_pick`), so it is a given number exactly when each place has that
number's bit (`pick_eq_iff`).

Key definitions: `pick`.
Key theorems: `testBit_pick`, `pick_eq_iff`, `pick_take_eq_iff`.
-/
import Mathlib.Data.Nat.Bitwise
import Mathlib.Data.Nat.Digits.Lemmas

namespace Xc7Tools

variable {ι : Type*}

/-- The bits of the places, the first one lowest, as a number. -/
def pick (get : ι → Bool) (is : List ι) : ℕ := Nat.ofDigits 2 (is.map fun i => (get i).toNat)

@[simp] theorem pick_nil (get : ι → Bool) : pick get [] = 0 := rfl

theorem pick_cons (get : ι → Bool) (i : ι) (is : List ι) :
    pick get (i :: is) = (get i).toNat + 2 * pick get is := by
  rw [pick, List.map_cons, Nat.ofDigits_cons]
  rfl

theorem pick_lt (get : ι → Bool) : ∀ is : List ι, pick get is < 2 ^ is.length
  | [] => Nat.one_pos
  | i :: is => by
    have ih := pick_lt get is
    have hbit := Bool.toNat_lt (get i)
    rw [pick_cons, List.length_cons, pow_succ]
    omega

/-- Bit `k` is that of the `k`-th place. -/
theorem testBit_pick (get : ι → Bool) : ∀ (is : List ι) (k : ℕ),
    (pick get is).testBit k = (is[k]?.map get).getD false
  | [], k => by simp
  | i :: is, 0 => by
    rw [pick_cons, Nat.testBit_zero]
    cases hget : get i <;> simp [hget]
  | i :: is, k + 1 => by
    have ih := testBit_pick get is k
    have hhalf : ((get i).toNat + 2 * pick get is) / 2 = pick get is := by
      have hbit := Bool.toNat_lt (get i)
      omega
    rw [pick_cons, Nat.testBit_succ, hhalf, ih, List.getElem?_cons_succ]

/-- The number is `v` when `v` fits and each place has its bit. -/
theorem pick_eq_iff {get : ι → Bool} {is : List ι} {v : ℕ} :
    pick get is = v ↔ v < 2 ^ is.length ∧ ∀ p ∈ is.zipIdx, get p.1 = v.testBit p.2 := by
  constructor
  · rintro rfl
    refine ⟨pick_lt get is, fun p hp => ?_⟩
    rw [testBit_pick, List.mem_zipIdx_iff_getElem?.mp hp]
    rfl
  · rintro ⟨hv, hbits⟩
    apply Nat.eq_of_testBit_eq
    intro k
    rw [testBit_pick]
    cases hk : is[k]? with
    | some i => exact hbits (i, k) (List.mem_zipIdx_iff_getElem?.mpr hk)
    | none =>
      have hle : 2 ^ is.length ≤ 2 ^ k :=
        Nat.pow_le_pow_right two_pos (List.getElem?_eq_none_iff.mp hk)
      exact (Nat.testBit_lt_two_pow (hv.trans_le hle)).symm

/-- The first places make the same number when the bits of the others are zeros. -/
theorem pick_take_eq_iff {get : ι → Bool} {is : List ι} {n : ℕ} :
    pick get (is.take n) = pick get is ↔ ∀ i ∈ is.drop n, get i = false := by
  constructor
  · intro h i hi
    obtain ⟨k, hk⟩ := List.mem_iff_getElem?.mp hi
    rw [List.getElem?_drop] at hk
    have hbit := congrArg (fun v => v.testBit (n + k)) h
    simp only [testBit_pick, hk, List.getElem?_take, if_neg (Nat.not_lt.mpr (Nat.le_add_right n k)),
      Option.map_none, Option.map_some, Option.getD_none, Option.getD_some] at hbit
    exact hbit.symm
  · intro h
    apply Nat.eq_of_testBit_eq
    intro k
    rw [testBit_pick, testBit_pick, List.getElem?_take]
    by_cases hk : k < n
    · rw [if_pos hk]
    · rw [if_neg hk]
      cases hi : is[k]? with
      | none => rfl
      | some i =>
        have hmem : i ∈ is.drop n := by
          apply List.mem_iff_getElem?.mpr
          refine ⟨k - n, ?_⟩
          rw [List.getElem?_drop, Nat.add_sub_cancel' (not_lt.mp hk), hi]
        exact (h i hmem).symm

end Xc7Tools
