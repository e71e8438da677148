/-
# fpu_hardfloat.v: conversions of integers

`of_int` and `to_int` of `examples/vc707-ocaml/fpu_hardfloat.v`, each wire a
definition. An integer is its sign and its magnitude, shifted until the top bit
is the implied one; a number with an exponent between 0 and 30 is shifted down
until the fraction is gone, and any other is 0.

Key definitions: `ofInt`, `toInt`.
Key theorems: `mantShifted_eq`, `value_ofInt`, `toInt_eq`, `conversions_exact`.
-/
import Xc7Tools.Lib.FloatWord

namespace Xc7Tools
namespace OcamlFpu

open FloatWord

/-! ### of_int -/

def intIn (a : BitVec 64) : BitVec 32 := a.extractLsb' 0 32

def mag (intIn : BitVec 32) : BitVec 32 := if intIn.getLsbD 31 then ~~~intIn + 1#32 else intIn

/-- The top set bit; the last assignment is its own. -/
def msb (mag : BitVec 32) : BitVec 5 :=
  (List.range 32).foldl (fun msb k => if mag.getLsbD k then BitVec.ofNat 5 k else msb) 0#5

def mantShifted (mag : BitVec 32) : BitVec 53 := (0#21 ++ mag) <<< (52#6 - (0#1 ++ msb mag))

def ofInt (a : BitVec 64) : BitVec 64 :=
  let m := mag (intIn a)
  if m == 0#32 then 0#64
  else (intIn a).extractLsb' 31 1 ++ (1023#11 + (0#6 ++ msb m)) ++ (mantShifted m).extractLsb' 0 52

/-! ### to_int -/

section ToInt

variable (a : BitVec 64)

def expA : BitVec 11 := a.extractLsb' 52 11

def eUnbiased : BitVec 12 := (0#1 ++ expA a) - 1023#12

def sigA : BitVec 53 := 1#1 ++ a.extractLsb' 0 52

def rshift : BitVec 6 :=
  if (52#12).slt (eUnbiased a) then 0#6 else 52#6 - (eUnbiased a).extractLsb' 0 6

def truncated : BitVec 53 := sigA a >>> rshift a

def inRange : Bool := (0#12).sle (eUnbiased a) && (eUnbiased a).slt 31#12

def toIntMag : BitVec 32 := if inRange a then (truncated a).extractLsb' 0 32 else 0#32

def toInt : BitVec 32 := if a.getLsbD 63 then ~~~toIntMag a + 1#32 else toIntMag a

end ToInt

/-! ### An integer as a word -/

section OfInt

variable {m : BitVec 32}

/-- An integer is its sign and its magnitude. -/
theorem toInt_eq_signed (n : BitVec 32) :
    (n.toInt : ℚ) = signed (n.extractLsb' 31 1) (mag n).toNat := by
  have hlt := n.isLt
  have hmsb : n.msb = n.getLsbD 31 := BitVec.msb_eq_getLsbD_last n
  rw [signed, if_congr (extractLsb'_eq_one n 31) rfl rfl, mag, BitVec.toInt_eq_msb_cond, hmsb]
  by_cases hneg : n.getLsbD 31 = true
  · have hge : 2 ^ 31 ≤ n.toNat := by
      have hpos := BitVec.msb_eq_decide n
      rw [hmsb, hneg] at hpos
      simpa using hpos.symm
    rw [if_pos hneg, if_pos hneg, if_pos hneg, ← BitVec.neg_eq_not_add, BitVec.toNat_neg,
      Nat.mod_eq_of_lt (by omega), Nat.cast_sub (by omega)]
    push_cast
    ring
  · rw [if_neg hneg, if_neg hneg, if_neg hneg]
    rfl

theorem toNat_msb (hm : m ≠ 0) : (msb m).toNat = m.toNat.log2 := by
  have htop := log2_toNat_lt hm
  have hmsb : msb m = BitVec.ofNat 5 m.toNat.log2 :=
    foldl_range_log2 (fun k => BitVec.ofNat 5 k) _ (toNat_ne_zero hm) m.isLt
  rw [hmsb, BitVec.toNat_ofNat]
  omega

/-- The top bit becomes bit 52. -/
theorem mantShifted_eq (hm : m ≠ 0) :
    (mantShifted m).toNat = m.toNat * 2 ^ (52 - m.toNat.log2) ∧ 2 ^ 52 ≤ (mantShifted m).toNat := by
  have htop := log2_toNat_lt hm
  obtain ⟨hge, hlt⟩ := shift_log2 (toNat_ne_zero hm) (show m.toNat.log2 ≤ 52 by omega)
  have hamount : (52#6 - (0#1 ++ msb m)).toNat = 52 - m.toNat.log2 := by
    rw [BitVec.toNat_sub, BitVec.toNat_append, toNat_msb hm]
    simp
    omega
  have hwide : (0#21 ++ m).toNat = m.toNat := by
    rw [BitVec.toNat_append]
    simp
  have hshift : (mantShifted m).toNat = m.toNat * 2 ^ (52 - m.toNat.log2) := by
    rw [mantShifted, BitVec.shiftLeft_eq', BitVec.toNat_shiftLeft, hamount, hwide, Nat.shiftLeft_eq,
      Nat.mod_eq_of_lt hlt]
  exact ⟨hshift, hshift ▸ hge⟩

/-- **The word is finite and its value is the integer.** -/
theorem value_ofInt (a : BitVec 64) :
    IsFinite (ofInt a) ∧ value (ofInt a) = ((intIn a).toInt : ℚ) := by
  rw [toInt_eq_signed]
  generalize hm : mag (intIn a) = m
  by_cases hzero : m = 0
  · have hword : ofInt a = 0#64 := by simp [ofInt, hm, hzero]
    rw [hword, hzero]
    have hvalue : value 0#64 = 0 := by simp [value, signed, magnitude]
    refine ⟨by decide, ?_⟩
    simp [hvalue, signed]
  · have htop := log2_toNat_lt hzero
    obtain ⟨hshift, hge⟩ := mantShifted_eq hzero
    have hlt := (mantShifted m).isLt
    have hexp : (1023#11 + (0#6 ++ msb m) : BitVec 11).toNat = 1023 + m.toNat.log2 := by
      rw [BitVec.toNat_add, BitVec.toNat_append, toNat_msb hzero]
      simp
      omega
    have hfract : 2 ^ 52 + ((mantShifted m).extractLsb' 0 52).toNat = (mantShifted m).toNat := by
      rw [BitVec.extractLsb'_toNat, Nat.shiftRight_zero]
      omega
    have hword : ofInt a = (intIn a).extractLsb' 31 1 ++ (1023#11 + (0#6 ++ msb m)) ++
        (mantShifted m).extractLsb' 0 52 := by
      have hbeq : (m == 0#32) = false := beq_eq_false_iff_ne.mpr hzero
      simp only [ofInt, hm, hbeq, Bool.false_eq_true, if_false]
    have hsign := sign_append ((intIn a).extractLsb' 31 1) (1023#11 + (0#6 ++ msb m))
      ((mantShifted m).extractLsb' 0 52)
    rw [hword]
    constructor
    · rw [IsFinite, exp_append]
      intro h
      have := congrArg BitVec.toNat h
      rw [hexp] at this
      simp at this
      omega
    · rw [value, hsign, exp_append, fract_append, hexp, magnitude_of_pos (by omega)]
      have hpow : ((1023 + m.toNat.log2 : ℕ) : ℤ) - 1075 = -((52 - m.toNat.log2 : ℕ) : ℤ) := by omega
      have hcast : (2 ^ 52 + (((mantShifted m).extractLsb' 0 52).toNat : ℚ)) =
          m.toNat * 2 ^ (52 - m.toNat.log2) := by exact_mod_cast hfract.trans hshift
      rw [hcast, hpow, zpow_neg, zpow_natCast, mul_inv_cancel_right₀ (by positivity)]

end OfInt

/-! ### A word as an integer -/

section ToInt

variable (x : BitVec 64)

theorem toInt_eUnbiased : (eUnbiased x).toInt = ((expA x).toNat : ℤ) - 1023 := by
  have hlt := (expA x).isLt
  have hnat : (eUnbiased x).toNat = ((expA x).toNat + 3073) % 4096 := by
    rw [eUnbiased, BitVec.toNat_sub, BitVec.toNat_append]
    simp
    omega
  rw [BitVec.toInt_eq_toNat_cond, hnat]
  split_ifs <;> omega

theorem inRange_iff : inRange x = true ↔ 1023 ≤ (expA x).toNat ∧ (expA x).toNat ≤ 1053 := by
  have hzero : (0#12).toInt = 0 := by decide
  have hmax : (31#12).toInt = 31 := by decide
  rw [inRange, Bool.and_eq_true_iff, BitVec.sle_eq_decide, BitVec.slt_eq_decide, toInt_eUnbiased,
    hzero, hmax, decide_eq_true_iff, decide_eq_true_iff]
  omega

variable {x}

/-- In range, the magnitude is the integer part. -/
theorem toNat_toIntMag (h : inRange x = true) :
    ((toIntMag x).toNat : ℤ) = ⌊magnitude (expA x).toNat (x.extractLsb' 0 52).toNat⌋ := by
  obtain ⟨hlow, hhigh⟩ := (inRange_iff x).mp h
  have hlt := (expA x).isLt
  have hfract := (x.extractLsb' 0 52).isLt
  have hnat : (eUnbiased x).toNat = (expA x).toNat - 1023 := by
    rw [eUnbiased, BitVec.toNat_sub, BitVec.toNat_append]
    simp
    omega
  have hbig : ¬ (52#12).slt (eUnbiased x) = true := by
    have hmax : (52#12).toInt = 52 := by decide
    rw [BitVec.slt_eq_decide, toInt_eUnbiased, hmax, decide_eq_true_iff]
    omega
  have hshift : (rshift x).toNat = 1075 - (expA x).toNat := by
    rw [rshift, if_neg hbig, BitVec.toNat_sub, BitVec.extractLsb'_toNat, hnat]
    simp
    omega
  have hdiv : (truncated x).toNat =
      (2 ^ 52 + (x.extractLsb' 0 52).toNat) / 2 ^ (1075 - (expA x).toNat) := by
    rw [truncated, BitVec.ushiftRight_eq', BitVec.toNat_ushiftRight, hshift, sigA, toNat_implied,
      Nat.shiftRight_eq_div_pow]
  have hsmall : (truncated x).toNat < 2 ^ 31 := by
    have hpow : 2 ^ 22 ≤ 2 ^ (1075 - (expA x).toNat) := Nat.pow_le_pow_right (by decide) (by omega)
    rw [hdiv, Nat.div_lt_iff_lt_mul (Nat.two_pow_pos _)]
    calc 2 ^ 52 + (x.extractLsb' 0 52).toNat < 2 ^ 31 * 2 ^ 22 := by omega
      _ ≤ 2 ^ 31 * 2 ^ (1075 - (expA x).toNat) := Nat.mul_le_mul_left _ hpow
  rw [toIntMag, if_pos h, BitVec.extractLsb'_toNat, Nat.shiftRight_zero,
    Nat.mod_eq_of_lt (by omega), hdiv, floor_magnitude (by omega) (by omega)]

/-- With the sign put on. -/
theorem toInt_eq_ofInt (m : ℤ) (h : ((toIntMag x).toNat : ℤ) = m) :
    toInt x = BitVec.ofInt 32 (if x.extractLsb' 63 1 = 1#1 then -m else m) := by
  have hmag : BitVec.ofInt 32 m = toIntMag x := by
    rw [← h, BitVec.ofInt_natCast, BitVec.ofNat_toNat, BitVec.setWidth_eq]
  rw [toInt, if_congr (extractLsb'_eq_one x 63) rfl rfl]
  split_ifs
  · rw [BitVec.ofInt_neg, hmag, BitVec.neg_eq_not_add]
  · exact hmag.symm

/-- **The integer is the word's value without its fraction, or 0 if that is not below 2^31.** -/
theorem toInt_eq (x : BitVec 64) : toInt x =
    BitVec.ofInt 32 (if IsFinite x ∧ |value x| < 2 ^ 31 then trunc (value x) else 0) := by
  have hnonneg := magnitude_nonneg (expA x).toNat (x.extractLsb' 0 52).toNat
  have hupper := magnitude_lt (e := (expA x).toNat) (x.extractLsb' 0 52).isLt
  have hvalue : value x = signed (x.extractLsb' 63 1)
    (magnitude (expA x).toNat (x.extractLsb' 0 52).toNat) := rfl
  by_cases hrange : inRange x = true
  · obtain ⟨hlow, hhigh⟩ := (inRange_iff x).mp hrange
    have hfinite : IsFinite x := by
      intro h
      have : (expA x).toNat = 2047 := congrArg BitVec.toNat h
      omega
    have hbelow : |value x| < 2 ^ 31 := by
      rw [hvalue, abs_signed _ hnonneg]
      calc magnitude _ _ < (2 : ℚ) ^ (((expA x).toNat : ℤ) - 1022) := hupper
        _ ≤ 2 ^ (31 : ℤ) := zpow_le_zpow_right₀ (by norm_num) (by omega)
        _ = 2 ^ 31 := by norm_num
    have htrunc : (if IsFinite x ∧ |value x| < 2 ^ 31 then trunc (value x) else 0) =
        trunc (value x) := if_pos ⟨hfinite, hbelow⟩
    rw [toInt_eq_ofInt _ (toNat_toIntMag hrange), htrunc, hvalue, trunc_signed _ hnonneg]
  · have hmag : ((toIntMag x).toNat : ℤ) = 0 := by
      rw [toIntMag, if_neg hrange]
      rfl
    rw [toInt_eq_ofInt 0 hmag, neg_zero, ite_self]
    split_ifs with hbelow
    · rw [hvalue, abs_signed _ hnonneg] at hbelow
      have hsmall : (expA x).toNat < 1023 := by
        by_contra hge
        have hlarge : 1054 ≤ (expA x).toNat := by
          by_contra hlt
          exact hrange ((inRange_iff x).mpr ⟨by omega, by omega⟩)
        refine absurd hbelow.2 (not_lt.mpr ?_)
        calc (2 : ℚ) ^ 31 = 2 ^ (31 : ℤ) := by norm_num
          _ ≤ 2 ^ (((expA x).toNat : ℤ) - 1023) := zpow_le_zpow_right₀ (by norm_num) (by omega)
          _ ≤ magnitude _ _ := le_magnitude (by omega)
      have hone : magnitude (expA x).toNat (x.extractLsb' 0 52).toNat < 1 := by
        calc magnitude _ _ < (2 : ℚ) ^ (((expA x).toNat : ℤ) - 1022) := hupper
          _ ≤ 2 ^ (0 : ℤ) := zpow_le_zpow_right₀ (by norm_num) (by omega)
          _ = 1 := zpow_zero 2
      rw [hvalue, trunc_signed _ hnonneg, Int.floor_eq_zero_iff.mpr ⟨hnonneg, hone⟩, neg_zero,
        ite_self]
    · rfl

end ToInt

/-- **The conversions are exact**: an integer's word is the only one with its value, but that 0 is +0;
a word's integer is its value without the fraction, if that is in range; and one undoes the other but
for the least integer. -/
theorem conversions_exact :
    (∀ a, IsFinite (ofInt a) ∧ value (ofInt a) = ((intIn a).toInt : ℚ) ∧
      (∀ y, value y = ((intIn a).toInt : ℚ) → intIn a ≠ 0 → y = ofInt a) ∧
      (intIn a = 0 → ofInt a = 0)) ∧
    (∀ x, toInt x = BitVec.ofInt 32 (if IsFinite x ∧ |value x| < 2 ^ 31 then trunc (value x) else 0)) ∧
    ∀ a, intIn a ≠ BitVec.intMin 32 → toInt (ofInt a) = intIn a := by
  refine ⟨fun a => ⟨(value_ofInt a).1, (value_ofInt a).2, fun y hy hne => ?_, fun h => ?_⟩, toInt_eq,
    fun a ha => ?_⟩
  · have hint : (intIn a).toInt ≠ 0 := fun h =>
      hne (BitVec.eq_of_toInt_eq (h.trans BitVec.toInt_zero.symm))
    refine eq_of_value ?_ (hy.trans (value_ofInt a).2.symm)
    rw [hy]
    exact_mod_cast hint
  · rw [ofInt, h]
    rfl
  · obtain ⟨hfinite, hvalue⟩ := value_ofInt a
    have hbelow : |((intIn a).toInt : ℚ)| < 2 ^ 31 := by
      have hlow := BitVec.le_toInt (intIn a)
      have hhigh := BitVec.toInt_lt (x := intIn a)
      have hne : (intIn a).toInt ≠ -2 ^ 31 := fun h => ha (BitVec.eq_of_toInt_eq h)
      rw [← Int.cast_abs]
      have habs : |(intIn a).toInt| < 2 ^ 31 := by
        rw [abs_lt]
        omega
      exact_mod_cast habs
    rw [toInt_eq, hvalue, if_pos ⟨hfinite, hbelow⟩, trunc_intCast, BitVec.ofInt_toInt]

end OcamlFpu
end Xc7Tools
