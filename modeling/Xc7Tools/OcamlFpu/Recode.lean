/-
# recode64.v: binary64 and HardFloat's recoded format

`recode64` and `derecode64` of `examples/vc707-ocaml/recode64.v`, each wire a
definition. On the IEEE side a word is zero, subnormal, normal, infinite or a
NaN by its exponent and fraction; `recode64` puts each of them in a range of
exponents of its own, where `derecode64` finds it again. A subnormal fraction
whose top bit is bit `t` gets the exponent `974 + t` and is shifted left by
`52 - t`, which `derecode64` undoes. What a number is worth stays the same, with
2048 as the exponent of 1.

Key definitions: `recode64`, `derecode64`, `Canonical`, `recValue`.
Key theorems: `Recode.subnormFract_eq`, `Derecode.subnormal`, `derecode64_recode64`,
`recode64_derecode64`, `recode_inverse`, `recValue_recode64`.
-/
import Xc7Tools.Lib.FloatWord

namespace Xc7Tools
namespace OcamlFpu

open FloatWord

/-! ### recode64 -/

namespace Recode

/-- Leading zeros of the fraction; the last assignment is the top bit's. -/
def lz (fractIn : BitVec 52) : BitVec 6 :=
  (List.range 52).foldl (fun lz i => if fractIn.getLsbD i then 51#6 - BitVec.ofNat 6 i else lz) 52#6

def subnormFract (fractIn : BitVec 52) : BitVec 52 := (fractIn <<< lz fractIn) <<< 1

variable (expIn : BitVec 11) (fractIn : BitVec 52)

def isZero : Bool := expIn == 0 && fractIn == 0

def isSpecial : Bool := expIn == 0x7ff#11

def isSubnormal : Bool := expIn == 0 && !(fractIn == 0)

def expNormal : BitVec 12 := (0#1 ++ expIn) + 1025#12

def expSubnormal : BitVec 12 := 1025#12 - (0#6 ++ lz fractIn)

def isInfIn : Bool := isSpecial expIn && fractIn == 0

def expOut : BitVec 12 :=
  if isZero expIn fractIn then 0#12
  else if isSpecial expIn then
    if isInfIn expIn fractIn then 0b110#3 ++ 0#9 else 0b111#3 ++ 0#9
  else if isSubnormal expIn fractIn then expSubnormal fractIn
  else expNormal expIn

def fractOut : BitVec 52 :=
  if isZero expIn fractIn then 0#52
  else if isSpecial expIn then
    if fractIn == 0 then 0#52 else 1#1 ++ fractIn.extractLsb' 0 51
  else if isSubnormal expIn fractIn then subnormFract fractIn
  else fractIn

end Recode

def recode64 (x : BitVec 64) : BitVec 65 :=
  x.extractLsb' 63 1 ++ Recode.expOut (x.extractLsb' 52 11) (x.extractLsb' 0 52) ++
    Recode.fractOut (x.extractLsb' 52 11) (x.extractLsb' 0 52)

/-! ### derecode64 -/

namespace Derecode

variable (expIn : BitVec 12) (fract : BitVec 52)

def isZero : Bool := expIn.extractLsb' 9 3 == 0b000#3

def isSpecial : Bool := expIn.extractLsb' 10 2 == 0b11#2

def isNan : Bool := isSpecial expIn && expIn.getLsbD 9

/-- IEEE's exponent field, signed. -/
def eIeee : BitVec 13 := (0#1 ++ expIn) - 1025#13

def isSubnormal : Bool := !isSpecial expIn && !isZero expIn && (eIeee expIn).slt 1#13

def shift : BitVec 7 := 1#7 - (eIeee expIn).extractLsb' 0 7

def withImplied : BitVec 53 := 1#1 ++ fract

def shifted : BitVec 53 :=
  if 53#7 ≤ shift expIn then 0#53 else withImplied fract >>> (shift expIn).extractLsb' 0 6

def expOut : BitVec 11 :=
  if isZero expIn || isSubnormal expIn then 0#11
  else if isSpecial expIn then 0x7ff#11
  else (eIeee expIn).extractLsb' 0 11

def fractOut : BitVec 52 :=
  if isZero expIn then 0#52
  else if isSpecial expIn then
    if isNan expIn then 1#1 ++ fract.extractLsb' 0 51 else 0#52
  else if isSubnormal expIn then (shifted expIn fract).extractLsb' 0 52
  else fract

end Derecode

def derecode64 (x : BitVec 65) : BitVec 64 :=
  x.extractLsb' 64 1 ++ Derecode.expOut (x.extractLsb' 52 12) ++
    Derecode.fractOut (x.extractLsb' 52 12) (x.extractLsb' 0 52)

theorem recode64_append (s : BitVec 1) (e : BitVec 11) (f : BitVec 52) :
    recode64 (s ++ e ++ f) = s ++ Recode.expOut e f ++ Recode.fractOut e f := by
  have hs : (s ++ e ++ f).extractLsb' 63 1 = s := sign_append s e f
  rw [recode64, hs, exp_append, fract_append]

theorem derecode64_append (s : BitVec 1) (e : BitVec 12) (f : BitVec 52) :
    derecode64 (s ++ e ++ f) = s ++ Derecode.expOut e ++ Derecode.fractOut e f := by
  have hs : (s ++ e ++ f).extractLsb' 64 1 = s := sign_append s e f
  rw [derecode64, hs, exp_append, fract_append]

/-! ### Classes of IEEE words -/

namespace Recode

variable {e : BitVec 11} {f : BitVec 52}

theorem zero : expOut 0 0 = 0 ∧ fractOut 0 0 = 0 := ⟨rfl, rfl⟩

theorem infinity : expOut 0x7ff 0 = 0xc00 ∧ fractOut 0x7ff 0 = 0 := ⟨rfl, rfl⟩

theorem nan (hf : f ≠ 0) :
    expOut 0x7ff f = 0xe00 ∧ fractOut 0x7ff f = 1#1 ++ f.extractLsb' 0 51 := by
  have hf' : ¬ f = 0#52 := hf
  simp [expOut, fractOut, isZero, isSpecial, isInfIn, hf']

theorem normal (h0 : e ≠ 0) (hspecial : e ≠ 0x7ff) :
    (expOut e f).toNat = e.toNat + 1025 ∧ fractOut e f = f := by
  have h0' : (e == 0) = false := beq_eq_false_iff_ne.mpr h0
  have hs' : (e == 0x7ff#11) = false := beq_eq_false_iff_ne.mpr hspecial
  have hlt := e.isLt
  simp only [expOut, fractOut, isZero, isSpecial, isSubnormal, h0', hs', Bool.false_and,
    Bool.false_eq_true, if_false, and_true]
  rw [expNormal, BitVec.toNat_add, BitVec.toNat_append]
  simp
  omega

/-- The top bit is bit `t`. -/
theorem lz_eq (hf : f ≠ 0) : (lz f).toNat + f.toNat.log2 = 51 := by
  have htop := log2_toNat_lt hf
  have hlz : lz f = 51#6 - BitVec.ofNat 6 f.toNat.log2 :=
    foldl_range_log2 (fun i => 51#6 - BitVec.ofNat 6 i) _ (toNat_ne_zero hf) f.isLt
  rw [hlz, BitVec.toNat_sub]
  simp
  omega

/-- The shift drops the top bit of the fraction, which is the implied one. -/
theorem subnormFract_eq (hf : f ≠ 0) :
    2 ^ 52 + (subnormFract f).toNat = f.toNat * 2 ^ (52 - f.toNat.log2) := by
  have hlz := lz_eq hf
  have hlz' : (lz f).toNat = 51 - f.toNat.log2 := by omega
  obtain ⟨hge, hlt⟩ := shift_log2 (toNat_ne_zero hf) (show f.toNat.log2 ≤ 51 by omega)
  have hpow : 2 ^ (52 - f.toNat.log2) = 2 * 2 ^ (51 - f.toNat.log2) := by
    rw [← pow_succ']
    congr 1
    omega
  have hassoc : f.toNat * (2 * 2 ^ (51 - f.toNat.log2)) = 2 * (f.toNat * 2 ^ (51 - f.toNat.log2)) := by
    ring
  have hshift : (subnormFract f).toNat = 2 * (f.toNat * 2 ^ (51 - f.toNat.log2)) % 2 ^ 52 := by
    rw [subnormFract, BitVec.toNat_shiftLeft, BitVec.shiftLeft_eq', BitVec.toNat_shiftLeft,
      Nat.shiftLeft_eq, Nat.shiftLeft_eq, hlz', Nat.mod_eq_of_lt hlt, pow_one, Nat.mul_comm]
  rw [hshift, hpow, hassoc]
  generalize f.toNat * 2 ^ (51 - f.toNat.log2) = m at *
  omega

theorem subnormal (hf : f ≠ 0) :
    (expOut 0 f).toNat = 974 + f.toNat.log2 ∧ fractOut 0 f = subnormFract f := by
  have hf' : ¬ f = 0#52 := hf
  have hlz := lz_eq hf
  have hout : expOut 0 f = expSubnormal f := by
    simp [expOut, isZero, isSpecial, isSubnormal, hf']
  constructor
  · rw [hout, expSubnormal, BitVec.toNat_sub, BitVec.toNat_append]
    simp
    omega
  · simp [fractOut, isZero, isSpecial, isSubnormal, hf']

end Recode

/-! ### Ranges of recoded exponents -/

namespace Derecode

variable {e : BitVec 12} {f : BitVec 52}

theorem isZero_eq : isZero e = decide (e.toNat < 512) := by
  have hlt := e.isLt
  rw [isZero, Bool.eq_iff_iff, beq_iff_eq, decide_eq_true_iff, ← BitVec.toNat_inj,
    BitVec.extractLsb'_toNat, Nat.shiftRight_eq_div_pow]
  simp
  omega

theorem isSpecial_eq : isSpecial e = decide (3072 ≤ e.toNat) := by
  have hlt := e.isLt
  rw [isSpecial, Bool.eq_iff_iff, beq_iff_eq, decide_eq_true_iff, ← BitVec.toNat_inj,
    BitVec.extractLsb'_toNat, Nat.shiftRight_eq_div_pow]
  simp
  omega

theorem toNat_eIeee : (eIeee e).toNat = (e.toNat + 7167) % 8192 := by
  have hlt := e.isLt
  rw [eIeee, BitVec.toNat_sub, BitVec.toNat_append]
  simp
  omega

theorem isSubnormal_eq : isSubnormal e = decide (512 ≤ e.toNat ∧ e.toNat ≤ 1025) := by
  have hlt := e.isLt
  have hint : (eIeee e).toInt = e.toNat - 1025 := by
    rw [BitVec.toInt_eq_toNat_cond, toNat_eIeee]
    split_ifs <;> omega
  have hone : (1#13).toInt = 1 := by decide
  rw [isSubnormal, isZero_eq, isSpecial_eq, BitVec.slt_eq_decide, hint, hone, Bool.eq_iff_iff]
  simp
  omega

theorem zero (he : e.toNat < 512) : expOut e = 0 ∧ fractOut e f = 0 := by
  simp [expOut, fractOut, isZero_eq, he]

theorem infinity (he : 3072 ≤ e.toNat) (hbit : e.getLsbD 9 = false) :
    expOut e = 0x7ff ∧ fractOut e f = 0 := by
  have h0 : ¬ e.toNat < 512 := by omega
  have h1 : ¬ e.toNat ≤ 1025 := by omega
  have hbit' : e[9] = false := hbit
  simp [expOut, fractOut, isNan, isZero_eq, isSpecial_eq, isSubnormal_eq, he, hbit', h0, h1]

theorem nan (he : 3072 ≤ e.toNat) (hbit : e.getLsbD 9 = true) :
    expOut e = 0x7ff ∧ fractOut e f = 1#1 ++ f.extractLsb' 0 51 := by
  have h0 : ¬ e.toNat < 512 := by omega
  have h1 : ¬ e.toNat ≤ 1025 := by omega
  have hbit' : e[9] = true := hbit
  simp [expOut, fractOut, isNan, isZero_eq, isSpecial_eq, isSubnormal_eq, he, hbit', h0, h1]

theorem normal (hlow : 1026 ≤ e.toNat) (hhigh : e.toNat < 3072) :
    (expOut e).toNat + 1025 = e.toNat ∧ fractOut e f = f := by
  have h0 : ¬ e.toNat < 512 := by omega
  have h1 : ¬ e.toNat ≤ 1025 := by omega
  have h2 : ¬ 3072 ≤ e.toNat := by omega
  simp only [expOut, fractOut, isZero_eq, isSpecial_eq, isSubnormal_eq, h0, h1, h2, and_false,
    decide_false, Bool.or_false, Bool.false_eq_true, if_false, and_true]
  rw [BitVec.extractLsb'_toNat, toNat_eIeee]
  simp
  omega

/-- The leading one is shifted into the fraction. -/
theorem subnormal (hlow : 974 ≤ e.toNat) (hhigh : e.toNat ≤ 1025) :
    expOut e = 0 ∧
      (fractOut e f).toNat = (2 ^ 52 + f.toNat) / 2 ^ (1026 - e.toNat) % 2 ^ 52 := by
  have h0 : ¬ e.toNat < 512 := by omega
  have h1 : 512 ≤ e.toNat := by omega
  have h2 : ¬ 3072 ≤ e.toNat := by omega
  have hshift : (shift e).toNat = 1026 - e.toNat := by
    rw [shift, BitVec.toNat_sub, BitVec.extractLsb'_toNat, toNat_eIeee]
    simp
    omega
  have hshift' : ((shift e).extractLsb' 0 6).toNat = 1026 - e.toNat := by
    rw [BitVec.extractLsb'_toNat, hshift, Nat.shiftRight_zero]
    omega
  have hle : ¬ 53#7 ≤ shift e := by
    rw [BitVec.le_def, hshift]
    simp
    omega
  have himplied : (withImplied f).toNat = 2 ^ 52 + f.toNat := toNat_implied f
  have hshifted : (shifted e f).toNat = (2 ^ 52 + f.toNat) / 2 ^ (1026 - e.toNat) := by
    rw [shifted, if_neg hle, BitVec.ushiftRight_eq', BitVec.toNat_ushiftRight, hshift', himplied,
      Nat.shiftRight_eq_div_pow]
  constructor
  · simp [expOut, isZero_eq, isSubnormal_eq, h1, hhigh]
  · simp only [fractOut, isZero_eq, isSpecial_eq, isSubnormal_eq, h0, h1, h2, hhigh, and_self,
      decide_false, decide_true, Bool.false_eq_true, if_false, if_true]
    rw [BitVec.extractLsb'_toNat, hshifted, Nat.shiftRight_zero]

end Derecode

/-! ### Round trips -/

section RoundTrip

variable {e : BitVec 11} {f : BitVec 52}

/-- Zero, subnormal, normal, infinite, NaN. -/
theorem ieee_cases (e : BitVec 11) (f : BitVec 52) :
    (e = 0 ∧ f = 0) ∨ (e = 0 ∧ f ≠ 0) ∨ (0 < e.toNat ∧ e.toNat < 2047) ∨
      (e = 0x7ff ∧ f = 0) ∨ (e = 0x7ff ∧ f ≠ 0) := by
  have hlt := e.isLt
  by_cases h0 : e = 0
  · by_cases hf : f = 0
    · exact .inl ⟨h0, hf⟩
    · exact .inr (.inl ⟨h0, hf⟩)
  · by_cases hspecial : e = 0x7ff
    · by_cases hf : f = 0
      · exact .inr (.inr (.inr (.inl ⟨hspecial, hf⟩)))
      · exact .inr (.inr (.inr (.inr ⟨hspecial, hf⟩)))
    · have hpos := toNat_ne_zero h0
      have htop : e.toNat ≠ 2047 := fun h => hspecial (BitVec.eq_of_toNat_eq h)
      exact .inr (.inr (.inl ⟨by omega, by omega⟩))

theorem ne_of_toNat (h0 : 0 < e.toNat) (hspecial : e.toNat < 2047) : e ≠ 0 ∧ e ≠ 0x7ff := by
  constructor
  · rintro rfl
    exact absurd h0 (by decide)
  · rintro rfl
    exact absurd hspecial (by decide)

/-- The fraction of a NaN, made quiet. -/
def quietFract (f : BitVec 52) : BitVec 52 := 1#1 ++ f.extractLsb' 0 51

theorem getLsbD_quietFract (f : BitVec 52) : (quietFract f).getLsbD 51 = true := by
  rw [quietFract, BitVec.getLsbD_append]
  rfl

theorem quietFract_of_getLsbD (h : f.getLsbD 51 = true) : quietFract f = f := by
  refine BitVec.eq_of_getLsbD_eq fun i hi => ?_
  rw [quietFract, BitVec.getLsbD_append]
  rcases Nat.lt_or_ge i 51 with hlt | hge
  · simp [hlt]
  · obtain rfl : i = 51 := by omega
    exact h.symm

theorem quiet_append (s : BitVec 1) (e : BitVec 11) (f : BitVec 52) :
    quiet (s ++ e ++ f) = s ++ e ++ quietFract f := by
  have hbit : (1#64 <<< 51 : BitVec 64) = 0#1 ++ 0#11 ++ (1#1 ++ 0#51 : BitVec 52) := by decide
  have hfract : f ||| (1#1 ++ 0#51 : BitVec 52) = quietFract f := by
    have hsplit : ∀ x : BitVec (1 + 51), x.extractLsb' 51 1 ++ x.extractLsb' 0 51 = x := fun x =>
      BitVec.extractLsb'_append_extractLsb'
    have hf : f = (f.extractLsb' 51 1 ++ f.extractLsb' 0 51 : BitVec 52) := (hsplit f).symm
    have hone : f.extractLsb' 51 1 ||| 1#1 = 1#1 := by
      generalize f.extractLsb' 51 1 = b
      revert b
      decide
    conv_lhs => rw [hf]
    rw [BitVec.or_append, hone, BitVec.or_zero]
    rfl
  have hor : (s ++ e ++ f) ||| (0#1 ++ 0#11 ++ (1#1 ++ 0#51 : BitVec 52)) =
      ((s ++ e) ||| (0#1 ++ 0#11)) ++ (f ||| (1#1 ++ 0#51 : BitVec 52)) := BitVec.or_append
  rw [quiet, hbit]
  refine hor.trans ?_
  rw [BitVec.or_append, BitVec.or_zero, BitVec.or_zero, hfract]

/-- Exponent and fraction of a number that `recode64` puts out. -/
def CanonicalFields (e : BitVec 12) (f : BitVec 52) : Prop :=
  (e = 0 ∧ f = 0) ∨ (e = 0b110#3 ++ 0#9 ∧ f = 0) ∨ (e = 0b111#3 ++ 0#9 ∧ f.getLsbD 51 = true) ∨
    (974 ≤ e.toNat ∧ e.toNat ≤ 3071 ∧ (e.toNat ≤ 1025 → 2 ^ (1026 - e.toNat) ∣ f.toNat))

theorem canonicalFields_recode (e : BitVec 11) (f : BitVec 52) :
    CanonicalFields (Recode.expOut e f) (Recode.fractOut e f) := by
  rcases ieee_cases e f with ⟨rfl, rfl⟩ | ⟨rfl, hf⟩ | ⟨h0, hspecial⟩ | ⟨rfl, rfl⟩ | ⟨rfl, hf⟩
  · exact .inl Recode.zero
  · obtain ⟨he', hf'⟩ := Recode.subnormal hf
    have htop := log2_toNat_lt hf
    refine .inr (.inr (.inr ⟨by omega, by omega, fun _ => ?_⟩))
    have hk : 1026 - (Recode.expOut 0 f).toNat = 52 - f.toNat.log2 := by omega
    have hdvd : 2 ^ (52 - f.toNat.log2) ∣ 2 ^ 52 + (Recode.subnormFract f).toNat := by
      rw [Recode.subnormFract_eq hf]
      exact Nat.dvd_mul_left _ _
    rw [hk, hf']
    exact (Nat.dvd_add_right (Nat.pow_dvd_pow 2 (Nat.sub_le _ _))).mp hdvd
  · obtain ⟨hne, hne'⟩ := ne_of_toNat h0 hspecial
    obtain ⟨he', -⟩ := Recode.normal (f := f) hne hne'
    exact .inr (.inr (.inr ⟨by omega, by omega, fun h => by omega⟩))
  · exact .inr (.inl Recode.infinity)
  · obtain ⟨he', hf'⟩ := Recode.nan hf
    rw [he', hf']
    exact .inr (.inr (.inl ⟨rfl, getLsbD_quietFract f⟩))

/-- `derecode64` finds the class again. -/
theorem derecode_recode (e : BitVec 11) (f : BitVec 52) :
    Derecode.expOut (Recode.expOut e f) = e ∧
      Derecode.fractOut (Recode.expOut e f) (Recode.fractOut e f) =
        if e = 0x7ff ∧ f ≠ 0 then quietFract f else f := by
  rcases ieee_cases e f with ⟨rfl, rfl⟩ | ⟨rfl, hf⟩ | ⟨h0, hspecial⟩ | ⟨rfl, rfl⟩ | ⟨rfl, hf⟩
  · obtain ⟨he', hf'⟩ := Recode.zero
    rw [he', hf']
    exact Derecode.zero (by decide)
  · obtain ⟨he', hf'⟩ := Recode.subnormal hf
    have htop := log2_toNat_lt hf
    have hk : 1026 - (Recode.expOut 0 f).toNat = 52 - f.toNat.log2 := by omega
    obtain ⟨hback, hback'⟩ := Derecode.subnormal (e := Recode.expOut 0 f) (f := Recode.fractOut 0 f)
      (by omega) (by omega)
    refine ⟨hback, BitVec.eq_of_toNat_eq ?_⟩
    rw [if_neg fun h => absurd h.1 (by decide), hback', hk, hf', Recode.subnormFract_eq hf,
      Nat.mul_div_cancel _ (Nat.two_pow_pos _)]
    exact Nat.mod_eq_of_lt f.isLt
  · obtain ⟨hne, hne'⟩ := ne_of_toNat h0 hspecial
    obtain ⟨he', hf'⟩ := Recode.normal (f := f) hne hne'
    obtain ⟨hback, hback'⟩ := Derecode.normal (e := Recode.expOut e f) (f := Recode.fractOut e f)
      (by omega) (by omega)
    rw [if_neg fun h => hne' h.1]
    exact ⟨BitVec.eq_of_toNat_eq (by omega), hback'.trans hf'⟩
  · obtain ⟨he', hf'⟩ := Recode.infinity
    rw [he', hf', if_neg fun h => h.2 rfl]
    exact Derecode.infinity (by decide) (by decide)
  · obtain ⟨he', hf'⟩ := Recode.nan hf
    obtain ⟨hback, hback'⟩ := Derecode.nan (e := 0xe00) (f := quietFract f) (by decide) (by decide)
    rw [he', hf', if_pos ⟨rfl, hf⟩]
    exact ⟨hback, hback'.trans (quietFract_of_getLsbD (getLsbD_quietFract f))⟩

theorem recode_derecode_subnormal {e : BitVec 12} {f : BitVec 52} (hlow : 974 ≤ e.toNat)
    (hsub : e.toNat ≤ 1025) (hzeros : 2 ^ (1026 - e.toNat) ∣ f.toNat) :
    Recode.expOut (Derecode.expOut e) (Derecode.fractOut e f) = e ∧
      Recode.fractOut (Derecode.expOut e) (Derecode.fractOut e f) = f := by
  obtain ⟨hback, hback'⟩ := Derecode.subnormal (f := f) hlow hsub
  obtain ⟨m, hm⟩ := hzeros
  have hlt := f.isLt
  generalize hk : 1026 - e.toNat = k at *
  have hsplit : 2 ^ 52 = 2 ^ k * 2 ^ (52 - k) := by
    rw [← pow_add]
    congr 1
    omega
  have hmlt : m < 2 ^ (52 - k) := by
    rw [hm, hsplit] at hlt
    exact Nat.lt_of_mul_lt_mul_left hlt
  have hdiv : (2 ^ 52 + f.toNat) / 2 ^ k = 2 ^ (52 - k) + m := by
    rw [hm, hsplit, ← Nat.mul_add, Nat.mul_div_cancel_left _ (Nat.two_pow_pos k)]
  have hhalf : 2 ^ (52 - k + 1) ≤ 2 ^ 52 := Nat.pow_le_pow_right (by decide) (by omega)
  rw [pow_succ] at hhalf
  have hg : (Derecode.fractOut e f).toNat = 2 ^ (52 - k) + m := by
    rw [hback', hdiv, Nat.mod_eq_of_lt (by omega)]
  have hpos := Nat.two_pow_pos (52 - k)
  have hne : Derecode.fractOut e f ≠ 0 := by
    intro h0
    rw [h0] at hg
    exact absurd hg.symm (by simp)
  have hlog : (Derecode.fractOut e f).toNat.log2 = 52 - k := by
    rw [hg, Nat.log2_eq_iff (by omega), pow_succ]
    omega
  obtain ⟨he', hf'⟩ := Recode.subnormal hne
  have hfract := Recode.subnormFract_eq hne
  have hshift : 52 - (52 - k) = k := by omega
  rw [hlog, hshift, hg, Nat.mul_comm, Nat.mul_add, ← hsplit, ← hm] at hfract
  rw [hback]
  refine ⟨BitVec.eq_of_toNat_eq (by omega), hf'.trans (BitVec.eq_of_toNat_eq ?_)⟩
  exact Nat.add_left_cancel hfract

/-- `recode64` does again what `derecode64` has undone. -/
theorem recode_derecode {e : BitVec 12} {f : BitVec 52} (h : CanonicalFields e f) :
    Recode.expOut (Derecode.expOut e) (Derecode.fractOut e f) = e ∧
      Recode.fractOut (Derecode.expOut e) (Derecode.fractOut e f) = f := by
  rcases h with ⟨rfl, rfl⟩ | ⟨rfl, rfl⟩ | ⟨rfl, hbit⟩ | ⟨hlow, hhigh, hzeros⟩
  · exact ⟨rfl, rfl⟩
  · exact ⟨rfl, rfl⟩
  · obtain ⟨hback, hback'⟩ := Derecode.nan (e := 0xe00) (f := f) (by decide) (by decide)
    have hf : f ≠ 0 := by
      rintro rfl
      exact absurd hbit (by decide)
    have hquiet : 1#1 ++ f.extractLsb' 0 51 = f := quietFract_of_getLsbD hbit
    obtain ⟨he', hf'⟩ := Recode.nan hf
    rw [hquiet] at hback' hf'
    have he : (0b111#3 ++ 0#9 : BitVec 12) = 0xe00 := rfl
    rw [he, hback, hback']
    exact ⟨he', hf'⟩
  · by_cases hsub : e.toNat ≤ 1025
    · exact recode_derecode_subnormal hlow hsub (hzeros hsub)
    · obtain ⟨hback, hback'⟩ := Derecode.normal (e := e) (f := f) (by omega) (by omega)
      obtain ⟨hne, hne'⟩ := ne_of_toNat (e := Derecode.expOut e) (by omega) (by omega)
      obtain ⟨he', hf'⟩ := Recode.normal (f := f) hne hne'
      rw [hback']
      exact ⟨BitVec.eq_of_toNat_eq (by omega), hf'⟩

end RoundTrip

/-- Zero, infinity and quiet NaN as `recode64` puts them out, or a finite number in range, with
zeros where a subnormal has been shifted. -/
def Canonical (r : BitVec 65) : Prop := CanonicalFields (r.extractLsb' 52 12) (r.extractLsb' 0 52)

theorem derecode64_recode64 (x : BitVec 64) :
    derecode64 (recode64 x) = if IsNan x then quiet x else x := by
  obtain ⟨s, e, f, rfl⟩ := exists_append 11 52 x
  obtain ⟨hexp, hfract⟩ := derecode_recode e f
  have hnan : IsNan (s ++ e ++ f) ↔ e = 0x7ff ∧ f ≠ 0 := by
    rw [IsNan, exp_append, fract_append]
    rfl
  rw [recode64_append, derecode64_append, hexp, hfract, if_congr hnan rfl rfl, quiet_append]
  split_ifs
  · rfl
  · rfl

theorem canonical_append (s : BitVec 1) (e : BitVec 12) (f : BitVec 52) :
    Canonical (s ++ e ++ f) ↔ CanonicalFields e f := by
  rw [Canonical, exp_append, fract_append]

theorem canonical_recode64 (x : BitVec 64) : Canonical (recode64 x) :=
  (canonical_append _ _ _).mpr (canonicalFields_recode _ _)

theorem recode64_derecode64 {r : BitVec 65} (h : Canonical r) : recode64 (derecode64 r) = r := by
  obtain ⟨s, e, f, rfl⟩ := exists_append 12 52 r
  obtain ⟨hexp, hfract⟩ := recode_derecode ((canonical_append s e f).mp h)
  rw [derecode64_append, recode64_append, hexp, hfract]

/-- **The two are inverse**, but that a NaN comes back quiet; the image of `recode64` is told by the
fields. -/
theorem recode_inverse :
    (∀ x, derecode64 (recode64 x) = if IsNan x then quiet x else x) ∧
      (∀ r, (∃ x, recode64 x = r) → recode64 (derecode64 r) = r) ∧
      ∀ r, (∃ x, recode64 x = r) ↔ Canonical r := by
  refine ⟨derecode64_recode64, ?_, fun r => ⟨?_, fun h => ⟨_, recode64_derecode64 h⟩⟩⟩
  · rintro _ ⟨x, rfl⟩
    exact recode64_derecode64 (canonical_recode64 x)
  · rintro ⟨x, rfl⟩
    exact canonical_recode64 x

/-! ### Values -/

/-- The value of a number in the recoded format that is neither infinite nor a NaN. -/
def recValue (r : BitVec 65) : ℚ :=
  let exp := r.extractLsb' 52 12
  let m : ℚ := 2 ^ 52 + ((r.extractLsb' 0 52).toNat : ℚ)
  signed (r.extractLsb' 64 1) (if exp.toNat < 512 then 0 else m * 2 ^ ((exp.toNat : ℤ) - 2100))

theorem recValue_append (s : BitVec 1) (e : BitVec 12) (f : BitVec 52) :
    recValue (s ++ e ++ f) =
      signed s (if e.toNat < 512 then 0 else (2 ^ 52 + (f.toNat : ℚ)) * 2 ^ ((e.toNat : ℤ) - 2100)) := by
  have hs : (s ++ e ++ f).extractLsb' 64 1 = s := sign_append s e f
  simp only [recValue, hs, exp_append, fract_append]

/-- **Recoding does not change the value.** -/
theorem recValue_recode64 {x : BitVec 64} (hx : IsFinite x) : recValue (recode64 x) = value x := by
  obtain ⟨s, e, f, rfl⟩ := exists_append 11 52 x
  have hs : (s ++ e ++ f).extractLsb' 63 1 = s := sign_append s e f
  rw [IsFinite, exp_append] at hx
  rw [recode64_append, recValue_append, value, hs, exp_append, fract_append]
  congr 1
  have hmag : ∀ n : ℕ, magnitude (0 : BitVec 11).toNat n = n * 2 ^ (-1074 : ℤ) := fun n => if_pos rfl
  rcases ieee_cases e f with ⟨rfl, rfl⟩ | ⟨rfl, hf⟩ | ⟨h0, hspecial⟩ | ⟨rfl, rfl⟩ | ⟨rfl, hf⟩
  · rw [Recode.zero.1, if_pos (by decide), hmag]
    simp
  · obtain ⟨he', hf'⟩ := Recode.subnormal hf
    have htop := log2_toNat_lt hf
    have hfract : (2 ^ 52 + ((Recode.subnormFract f).toNat : ℚ)) =
        f.toNat * 2 ^ (52 - f.toNat.log2) := by exact_mod_cast Recode.subnormFract_eq hf
    have hexp : ((974 + f.toNat.log2 : ℕ) : ℤ) - 2100 = -1074 - ((52 - f.toNat.log2 : ℕ) : ℤ) := by
      omega
    rw [he', hf', if_neg (by omega), hfract, hexp, zpow_sub₀ (by norm_num), zpow_natCast, hmag]
    field_simp
  · obtain ⟨hne, hne'⟩ := ne_of_toNat h0 hspecial
    obtain ⟨he', hf'⟩ := Recode.normal (f := f) hne hne'
    have hexp : ((e.toNat + 1025 : ℕ) : ℤ) - 2100 = (e.toNat : ℤ) - 1075 := by omega
    rw [he', hf', if_neg (by omega), hexp, magnitude, if_neg (by omega)]
  · exact absurd rfl hx
  · exact absurd rfl hx

end OcamlFpu
end Xc7Tools
