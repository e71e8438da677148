/-
# Decimal numerals

`str(k)` of a natural number, and the ways it is read back: `int(s)` of
Python, and digits of ASCII by their codes.

Key definitions: `Str.isAsciiDigit`, `Str.value`, `Str.IsNumeral`.
Key theorems: `Str.value_toDigits`, `Str.int?_of_isNumeral`, `Str.int?_toDigits`.
-/
import Xc7Tools.Lib.Lines

namespace Xc7Tools
namespace Str

/-- `[0-9]` -/
def isAsciiDigit (c : Char) : Bool := '0'.toNat ≤ c.toNat && c.toNat ≤ '9'.toNat

/-- The number of some digits of ASCII. -/
def value (ds : Str) : ℕ := Nat.ofDigits 10 (ds.map fun c => c.toNat - '0'.toNat).reverse

/-- No digit of any script is white space. -/
theorem isSpace_of_isDigit {c : Char} (h : isDigit c = true) : isSpace c = false := by
  rw [isDigit, digit?, Option.isSome_map] at h
  obtain ⟨z, hz⟩ := Option.isSome_iff_exists.mp h
  have hmem := List.mem_of_find?_eq_some hz
  have hrange := List.find?_some hz
  simp only [Bool.and_eq_true, decide_eq_true_eq] at hrange
  have hapart : ∀ z ∈ zeros, 32 < z ∧ (z + 9 < 0x85 ∨ 0xA0 < z) ∧ (z + 9 < 0x1680 ∨ 0x1680 < z) ∧
      (z + 9 < 0x2000 ∨ 0x205F < z) ∧ (z + 9 < 0x3000 ∨ 0x3000 < z) := by decide
  have hz' := hapart z hmem
  simp only [isSpace, Bool.or_eq_false_iff, Bool.and_eq_false_iff, decide_eq_false_iff_not,
    beq_eq_false_iff_ne]
  omega

theorem isAsciiDigit_iff {c : Char} : isAsciiDigit c = true ↔ 0x30 ≤ c.toNat ∧ c.toNat ≤ 0x39 := by
  simp only [isAsciiDigit, Bool.and_eq_true, decide_eq_true_eq]
  rfl

theorem not_isSpace_of_isAsciiDigit {c : Char} (h : isAsciiDigit c = true) : isSpace c = false := by
  rw [isAsciiDigit_iff] at h
  simp only [isSpace, Bool.or_eq_false_iff, Bool.and_eq_false_iff, decide_eq_false_iff_not,
    beq_eq_false_iff_ne]
  omega

theorem ne_of_isAsciiDigit {c d : Char} (h : isAsciiDigit c = true) (hd : isAsciiDigit d = false) :
    c ≠ d := fun e => by
  rw [e, hd] at h
  cases h

/-! ### Numerals -/

/-- A numeral is one digit, or a shorter numeral and a digit. -/
theorem toDigits_induction {b : ℕ} (hb : 1 < b) {P : ℕ → Str → Prop}
    (one : ∀ d < b, P d [d.digitChar])
    (more : ∀ n d, d < b → P n (Nat.toDigits b n) →
      P (b * n + d) (Nat.toDigits b n ++ [d.digitChar])) (n : ℕ) : P n (Nat.toDigits b n) := by
  induction n using Nat.strong_induction_on with
  | _ n ih =>
    by_cases hn : n < b
    · rw [Nat.toDigits_of_lt_base hn]
      exact one n hn
    · have hdiv : n / b < n := Nat.div_lt_self (by omega) hb
      rw [Nat.toDigits_of_base_le hb (by omega)]
      have h := more (n / b) (n % b) (Nat.mod_lt n (by omega)) (ih (n / b) hdiv)
      rwa [Nat.div_add_mod] at h

theorem digitChar_spec : ∀ d < 10, isAsciiDigit d.digitChar = true ∧
    d.digitChar.toNat - '0'.toNat = d ∧ digit? d.digitChar = some d := by decide

theorem isAsciiDigit_of_mem_toDigits {n : ℕ} {c : Char} (h : c ∈ Nat.toDigits 10 n) :
    isAsciiDigit c = true := by
  revert c
  refine toDigits_induction (by decide) (P := fun _ s => ∀ {c}, c ∈ s → isAsciiDigit c = true) ?_ ?_ n
  · intro d hd c hc
    rw [List.mem_singleton.mp hc]
    exact (digitChar_spec d hd).1
  · intro n d hd ih c hc
    rcases List.mem_append.mp hc with hc | hc
    · exact ih hc
    · rw [List.mem_singleton.mp hc]
      exact (digitChar_spec d hd).1

theorem solid_toDigits (n : ℕ) : Solid (Nat.toDigits 10 n) := fun _ hc =>
  not_isSpace_of_isAsciiDigit (isAsciiDigit_of_mem_toDigits hc)

theorem value_toDigits (n : ℕ) : value (Nat.toDigits 10 n) = n := by
  refine toDigits_induction (by decide) (P := fun n s => value s = n) ?_ ?_ n
  · intro d hd
    rw [value, List.map_singleton, List.reverse_singleton, Nat.ofDigits_singleton]
    exact (digitChar_spec d hd).2.1
  · intro n d hd ih
    rw [value, List.map_append, List.reverse_append, List.map_singleton, List.reverse_singleton,
      List.singleton_append, Nat.ofDigits_cons, (digitChar_spec d hd).2.1]
    rw [value] at ih
    rw [ih]
    exact Nat.add_comm d (10 * n)

theorem toDigits_injective : Function.Injective (Nat.toDigits 10) := fun m n h => by
  rw [← value_toDigits m, h, value_toDigits]

/-- Digits of ASCII, one at least. -/
def IsNumeral (ds : Str) : Prop := ds ≠ [] ∧ ∀ c ∈ ds, isAsciiDigit c = true

instance : DecidablePred IsNumeral := fun ds =>
  @instDecidableAnd _ _ inferInstance (List.decidableBAll _ ds)

theorem isNumeral_toDigits (n : ℕ) : IsNumeral (Nat.toDigits 10 n) :=
  ⟨Nat.toDigits_ne_nil, fun _ => isAsciiDigit_of_mem_toDigits⟩

theorem digit?_of_isAsciiDigit {c : Char} (h : isAsciiDigit c = true) :
    digit? c = some (c.toNat - '0'.toNat) := by
  rw [isAsciiDigit_iff] at h
  have hfirst : zeros.find? (fun z => z ≤ c.toNat && c.toNat < z + 10) = some 0x30 := by
    apply List.find?_cons_of_pos
    rw [Bool.and_eq_true, decide_eq_true_eq, decide_eq_true_eq]
    omega
  rw [digit?, hfirst]
  rfl

theorem isDigit_of_isAsciiDigit {c : Char} (h : isAsciiDigit c = true) : isDigit c = true := by
  rw [isDigit, digit?_of_isAsciiDigit h]
  rfl

theorem digitsValue_of_digits {ds : Str} (h : ∀ c ∈ ds, isAsciiDigit c = true) :
    digitsValue ds = value ds := by
  have hmap : ds.filterMap digit? = ds.map fun c => c.toNat - '0'.toNat := by
    rw [← List.filterMap_eq_map]
    exact List.filterMap_congr fun c hc => digit?_of_isAsciiDigit (h c hc)
  rw [digitsValue, value, hmap]

/-- `int(s)` of digits of ASCII, if they are not too many. -/
theorem int?_eq_ite {ds : Str} (h : IsNumeral ds) :
    int? ds = if ds.length ≤ maxStrDigits then some (value ds : ℤ) else none := by
  obtain ⟨hne, hall⟩ := h
  have hspace : ∀ c ∈ ds, isIntSpace c = false := fun c hc => by
    rw [isIntSpace, not_isSpace_of_isAsciiDigit (hall c hc), Bool.false_and]
  obtain ⟨c, s, hs⟩ := List.exists_cons_of_ne_nil hne
  have hdrop : ds.dropWhile isIntSpace = ds := by
    rw [hs, List.dropWhile_cons, hspace c (by rw [hs]; exact List.mem_cons_self)]
    rfl
  have hrdrop : ds.rdropWhile isIntSpace = ds := by
    rw [List.rdropWhile_eq_self_iff]
    intro hne
    rw [hspace _ (List.getLast_mem hne)]
    exact Bool.false_ne_true
  have hunder : underscored? ds = if ds.length ≤ maxStrDigits then some (value ds) else none := by
    have hone : ds.splitOn '_' = [ds] := List.splitOn_eq_singleton fun hmem =>
      ne_of_isAsciiDigit (hall _ hmem) (by decide) rfl
    have hdigits : ∀ c ∈ ds, isDigit c = true := fun c hc => isDigit_of_isAsciiDigit (hall c hc)
    have hparts : (ds.splitOn '_').all fun p => p ≠ [] ∧ p.all isDigit := by
      simpa [hone, hne] using hdigits
    rw [underscored?, if_pos hparts, hone, List.flatten_singleton, intOf,
      digitsValue_of_digits hall]
  have hc : isAsciiDigit c = true := hall c (by rw [hs]; exact List.mem_cons_self)
  unfold int?
  rw [hdrop, hrdrop]
  split
  · exact absurd (List.cons.inj hs).1.symm (ne_of_isAsciiDigit hc (by decide))
  · exact absurd (List.cons.inj hs).1.symm (ne_of_isAsciiDigit hc (by decide))
  · rw [hunder]
    split_ifs <;> rfl

theorem int?_of_isNumeral {ds : Str} (h : IsNumeral ds) (hlen : ds.length ≤ maxStrDigits) :
    int? ds = some (value ds : ℤ) := by
  rw [int?_eq_ite h, if_pos hlen]

/-- `int(str(n))` -/
theorem int?_toDigits {n : ℕ} (hn : (Nat.toDigits 10 n).length ≤ maxStrDigits) :
    int? (Nat.toDigits 10 n) = some (n : ℤ) := by
  rw [int?_of_isNumeral (isNumeral_toDigits n) hn, value_toDigits]

/-- A number below a power of ten has no more digits than its exponent. -/
theorem length_toDigits_le {n e : ℕ} (he : 0 < e) (hn : n < 10 ^ e) :
    (Nat.toDigits 10 n).length ≤ e := Nat.toDigits_length 10 n e he hn

/-- Numbers of a usual size are read back. -/
theorem int?_toDigits_of_lt {n : ℕ} (hn : n < 10 ^ 20) : int? (Nat.toDigits 10 n) = some (n : ℤ) :=
  int?_toDigits ((length_toDigits_le (by decide) hn).trans (by decide))

end Str
end Xc7Tools
