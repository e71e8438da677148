/-
# Floating-point words

A word of a sign, an exponent and a fraction is these three fields and nothing
else. The value of a binary64 word is a rational number. A search that goes up
through the bits of a number and keeps the last one that is set ends at the top
bit (`foldl_range_log2`).

Key definitions: `magnitude`, `value`, `IsFinite`, `IsNan`, `quiet`, `trunc`.
Key theorems: `exists_append`, `foldl_range_log2`, `magnitude_lt`, `floor_magnitude`,
`eq_of_value`.
-/
import Mathlib.Data.BitVec
import Mathlib.Data.Nat.Log
import Mathlib.Data.Rat.Floor
import Mathlib.Algebra.Order.Field.Power

namespace Xc7Tools
namespace FloatWord

/-! ### Fields -/

section Fields

variable {eb mb : ℕ} (s : BitVec 1) (e : BitVec eb) (f : BitVec mb)

theorem sign_append : (s ++ e ++ f).extractLsb' (eb + mb) 1 = s := by
  rw [BitVec.extractLsb'_append_eq_of_le (Nat.le_add_left mb eb), Nat.add_sub_cancel,
    BitVec.extractLsb'_append_eq_left]

theorem exp_append : (s ++ e ++ f).extractLsb' mb eb = e := by
  rw [BitVec.extractLsb'_append_eq_of_le (Nat.le_refl mb), Nat.sub_self,
    BitVec.extractLsb'_append_eq_right]

theorem fract_append : (s ++ e ++ f).extractLsb' 0 mb = f := BitVec.extractLsb'_append_eq_right

/-- A word is its fields. -/
theorem exists_append (eb mb : ℕ) (x : BitVec (1 + eb + mb)) :
    ∃ (s : BitVec 1) (e : BitVec eb) (f : BitVec mb), x = s ++ e ++ f := by
  refine ⟨(x.extractLsb' mb (1 + eb)).extractLsb' eb 1, (x.extractLsb' mb (1 + eb)).extractLsb' 0 eb,
    x.extractLsb' 0 mb, ?_⟩
  rw [BitVec.extractLsb'_append_extractLsb', BitVec.extractLsb'_append_extractLsb']

/-- The implied one in front of a fraction. -/
theorem toNat_implied (f : BitVec mb) : (1#1 ++ f).toNat = 2 ^ mb + f.toNat := by
  rw [BitVec.toNat_append, ← Nat.shiftLeft_add_eq_or_of_lt f.isLt, Nat.shiftLeft_eq]
  exact congrArg (· + f.toNat) (Nat.one_mul _)

theorem toNat_ne_zero {n : ℕ} {x : BitVec n} (h : x ≠ 0) : x.toNat ≠ 0 := by
  intro hzero
  exact h (BitVec.eq_of_toNat_eq (hzero.trans BitVec.toNat_zero.symm))

theorem log2_toNat_lt {n : ℕ} {x : BitVec n} (h : x ≠ 0) : x.toNat.log2 < n :=
  (Nat.log2_lt (toNat_ne_zero h)).mpr x.isLt

theorem extractLsb'_eq_one {n : ℕ} (x : BitVec n) (k : ℕ) :
    x.extractLsb' k 1 = 1#1 ↔ x.getLsbD k = true := by
  have hbit : (x.extractLsb' k 1).getLsbD 0 = x.getLsbD k := by simp
  rw [← hbit]
  generalize x.extractLsb' k 1 = b
  revert b
  decide

end Fields

/-! ### The top bit -/

section Search

variable {α : Type*} (g : ℕ → α) (init : α)

theorem foldl_range_log2 {x n : ℕ} (hx : x ≠ 0) (hlt : x < 2 ^ n) :
    (List.range n).foldl (fun acc i => if x.testBit i then g i else acc) init = g x.log2 := by
  induction n with
  | zero => omega
  | succ n ih =>
    rw [List.range_succ, List.foldl_append, List.foldl_cons, List.foldl_nil]
    by_cases hbit : x.testBit n = true
    · have hle := Nat.ge_two_pow_of_testBit hbit
      have htop : x.log2 = n := by
        have h1 := (Nat.log2_lt hx).mpr hlt
        have h2 := (Nat.le_log2 hx).mpr hle
        omega
      rw [if_pos hbit, htop]
    · have hlt' : x < 2 ^ n := by
        by_contra hge
        exact hbit (Nat.testBit_of_two_pow_le_and_two_pow_add_one_gt (Nat.not_lt.mp hge) hlt)
      rw [if_neg hbit, ih hlt']

/-- Shifted until the top bit is bit `w`, a number lies between two powers of two. -/
theorem shift_log2 {x w : ℕ} (hx : x ≠ 0) (hw : x.log2 ≤ w) :
    2 ^ w ≤ x * 2 ^ (w - x.log2) ∧ x * 2 ^ (w - x.log2) < 2 ^ (w + 1) := by
  have hpow : 2 ^ x.log2 * 2 ^ (w - x.log2) = 2 ^ w := by rw [← pow_add, Nat.add_sub_cancel' hw]
  constructor
  · rw [← hpow]
    exact Nat.mul_le_mul_right _ (Nat.log2_self_le hx)
  · calc x * 2 ^ (w - x.log2) < 2 ^ (x.log2 + 1) * 2 ^ (w - x.log2) :=
          Nat.mul_lt_mul_of_pos_right Nat.lt_log2_self (Nat.two_pow_pos _)
      _ = 2 * (2 ^ x.log2 * 2 ^ (w - x.log2)) := by rw [pow_succ']; ring
      _ = 2 ^ (w + 1) := by rw [hpow, pow_succ']

end Search

/-! ### binary64 -/

/-- The value of an exponent and a fraction, without a sign. -/
def magnitude (e f : ℕ) : ℚ :=
  if e = 0 then f * 2 ^ (-1074 : ℤ) else (2 ^ 52 + f) * 2 ^ ((e : ℤ) - 1075)

/-- With a sign. -/
def signed (s : BitVec 1) (m : ℚ) : ℚ := if s = 1#1 then -m else m

/-- The value of a word that is neither infinite nor a NaN. -/
def value (x : BitVec 64) : ℚ :=
  signed (x.extractLsb' 63 1) (magnitude (x.extractLsb' 52 11).toNat (x.extractLsb' 0 52).toNat)

def IsFinite (x : BitVec 64) : Prop := x.extractLsb' 52 11 ≠ 0x7ff#11

def IsNan (x : BitVec 64) : Prop := x.extractLsb' 52 11 = 0x7ff#11 ∧ x.extractLsb' 0 52 ≠ 0#52

instance : DecidablePred IsFinite := fun _ => inferInstanceAs (Decidable (_ ≠ _))

instance : DecidablePred IsNan := fun _ => inferInstanceAs (Decidable (_ ∧ _))

/-- The NaN with its quiet bit set. -/
def quiet (x : BitVec 64) : BitVec 64 := x ||| 1#64 <<< 51

/-- Toward zero. -/
def trunc (q : ℚ) : ℤ := if 0 ≤ q then ⌊q⌋ else ⌈q⌉

/-! ### Sizes -/

section Sizes

variable {e f : ℕ}

theorem magnitude_nonneg (e f : ℕ) : 0 ≤ magnitude e f := by
  unfold magnitude
  split_ifs <;> positivity

theorem magnitude_of_pos (he : 0 < e) : magnitude e f = (2 ^ 52 + f) * 2 ^ ((e : ℤ) - 1075) :=
  if_neg (by omega)

/-- A normal number is at least the power of two of its exponent. -/
theorem le_magnitude (he : 0 < e) : (2 : ℚ) ^ ((e : ℤ) - 1023) ≤ magnitude e f := by
  have hexp : (e : ℤ) - 1023 = 52 + ((e : ℤ) - 1075) := by ring
  rw [magnitude_of_pos he, hexp, zpow_add₀ two_ne_zero]
  apply mul_le_mul_of_nonneg_right
  · have hf : (0 : ℚ) ≤ f := Nat.cast_nonneg f
    norm_num
  · positivity

/-- Every number is less than the next one. -/
theorem magnitude_lt (hf : f < 2 ^ 52) : magnitude e f < (2 : ℚ) ^ ((e : ℤ) - 1022) := by
  have hf' : (f : ℚ) < 2 ^ 52 := by exact_mod_cast hf
  rcases Nat.eq_zero_or_pos e with rfl | he
  · have hexp : ((0 : ℕ) : ℤ) - 1022 = 52 + -1074 := by norm_num
    rw [magnitude, if_pos rfl, hexp, zpow_add₀ two_ne_zero]
    apply mul_lt_mul_of_pos_right
    · exact_mod_cast hf
    · positivity
  · have hexp : (e : ℤ) - 1022 = 53 + ((e : ℤ) - 1075) := by ring
    rw [magnitude_of_pos he, hexp, zpow_add₀ two_ne_zero]
    apply mul_lt_mul_of_pos_right
    · have h53 : (2 : ℚ) ^ (53 : ℤ) = 2 ^ 52 + 2 ^ 52 := by norm_num
      rw [h53]
      linarith
    · positivity

/-- Up to exponents without a fraction, the integer part is a shift. -/
theorem floor_magnitude (he : 0 < e) (hle : e ≤ 1075) :
    ⌊magnitude e f⌋ = ((2 ^ 52 + f) / 2 ^ (1075 - e) : ℕ) := by
  have hexp : (e : ℤ) - 1075 = -((1075 - e : ℕ) : ℤ) := by omega
  have hdiv : magnitude e f = ((2 ^ 52 + f : ℕ) : ℚ) / ((2 ^ (1075 - e) : ℕ) : ℚ) := by
    rw [magnitude_of_pos he, hexp, zpow_neg, zpow_natCast, div_eq_mul_inv]
    norm_cast
  rw [hdiv, Rat.floor_natCast_div_natCast]
  norm_cast

theorem abs_signed (s : BitVec 1) {m : ℚ} (hm : 0 ≤ m) : |signed s m| = m := by
  unfold signed
  split_ifs
  · rw [abs_neg, abs_of_nonneg hm]
  · exact abs_of_nonneg hm

theorem magnitude_lt_of_lt {e' f' : ℕ} (hf : f < 2 ^ 52) (h : e < e') :
    magnitude e f < magnitude e' f' := by
  calc magnitude e f < (2 : ℚ) ^ ((e : ℤ) - 1022) := magnitude_lt hf
    _ ≤ 2 ^ ((e' : ℤ) - 1023) := zpow_le_zpow_right₀ (by norm_num) (by omega)
    _ ≤ magnitude e' f' := le_magnitude (by omega)

theorem magnitude_inj {e' f' : ℕ} (hf : f < 2 ^ 52) (hf' : f' < 2 ^ 52)
    (h : magnitude e f = magnitude e' f') : e = e' ∧ f = f' := by
  rcases Nat.lt_trichotomy e e' with hlt | rfl | hgt
  · exact absurd h (magnitude_lt_of_lt hf hlt).ne
  · refine ⟨rfl, ?_⟩
    unfold magnitude at h
    split_ifs at h
    · exact_mod_cast mul_right_cancel₀ (by positivity) h
    · exact_mod_cast add_left_cancel (mul_right_cancel₀ (by positivity) h)
  · exact absurd h (magnitude_lt_of_lt hf' hgt).ne'

theorem signed_inj {s s' : BitVec 1} {m : ℚ} (hm : m ≠ 0) (h : signed s m = signed s' m) : s = s' := by
  have hbit : ∀ b : BitVec 1, b = 0#1 ∨ b = 1#1 := by decide
  rcases hbit s with rfl | rfl
  · rcases hbit s' with rfl | rfl
    · rfl
    · exact absurd (by linarith [show m = -m from h]) hm
  · rcases hbit s' with rfl | rfl
    · exact absurd (by linarith [show -m = m from h]) hm
    · rfl

/-- A value other than zero has one word. -/
theorem eq_of_value {x y : BitVec 64} (hne : value x ≠ 0) (h : value x = value y) : x = y := by
  obtain ⟨s, e, f, rfl⟩ := exists_append 11 52 x
  obtain ⟨s', e', f', rfl⟩ := exists_append 11 52 y
  have hs : (s ++ e ++ f).extractLsb' 63 1 = s := sign_append s e f
  have hs' : (s' ++ e' ++ f').extractLsb' 63 1 = s' := sign_append s' e' f'
  simp only [value, hs, hs', exp_append, fract_append] at h hne
  have hm := magnitude_nonneg e.toNat f.toNat
  have hmag : magnitude e.toNat f.toNat = magnitude e'.toNat f'.toNat := by
    rw [← abs_signed s hm, h, abs_signed s' (magnitude_nonneg _ _)]
  obtain ⟨he, hf⟩ := magnitude_inj f.isLt f'.isLt hmag
  have hnonzero : magnitude e.toNat f.toNat ≠ 0 := by
    intro hzero
    rw [hzero] at hne
    exact hne (by simp [signed])
  have hsign : s = s' := signed_inj hnonzero (hmag ▸ h)
  rw [hsign, BitVec.eq_of_toNat_eq he, BitVec.eq_of_toNat_eq hf]

theorem trunc_intCast (n : ℤ) : trunc n = n := by
  unfold trunc
  split_ifs
  · exact Int.floor_intCast n
  · exact Int.ceil_intCast n

theorem trunc_signed (s : BitVec 1) {m : ℚ} (hm : 0 ≤ m) :
    trunc (signed s m) = if s = 1#1 then -⌊m⌋ else ⌊m⌋ := by
  unfold signed trunc
  split_ifs with hs hneg
  · have hzero : m = 0 := by linarith
    simp [hzero]
  · exact Int.ceil_neg
  · rfl

end Sizes

end FloatWord
end Xc7Tools
