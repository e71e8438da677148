/-
# Numerals of other shapes

`int(s, 16)`, and numerals filled up with zeros from the left, as `%03d` and
`%08x` print them. Filling up does not change the number that is read, and
without the zeros in front it is the number's own numeral.

Key definitions: `Str.int16?`, `Str.zfill`, `Str.hexValue`, `Str.dropZeros`.
Key theorems: `Str.value_zfill`, `Str.int16?_zfill`, `Str.dropZeros_eq_toDigits`.
-/
import Xc7Tools.Lib.Decimal

namespace Xc7Tools
namespace Str

/-- A digit of `int(s, 16)`. -/
def hexDigit? (c : Char) : Option ℕ := (hex? c).or (digit? c)

/-- Digits of `int(s, 16)`, single underscores between them. -/
def underscored16? (s : Str) : Option ℕ :=
  let parts := s.splitOn '_'
  if parts.all fun p => p ≠ [] ∧ p.all fun c => (hexDigit? c).isSome then
    some (Nat.ofDigits 16 (parts.flatten.filterMap hexDigit?).reverse)
  else none

/-- The digits of `int(s, 16)`, behind an optional `0x`. -/
def prefixed16? : Str → Option ℕ
  | '0' :: 'x' :: '_' :: s => underscored16? s
  | '0' :: 'x' :: s => underscored16? s
  | '0' :: 'X' :: '_' :: s => underscored16? s
  | '0' :: 'X' :: s => underscored16? s
  | s => underscored16? s

/-- `int(s, 16)`; none is a ValueError. -/
def int16? (s : Str) : Option ℤ :=
  match (s.dropWhile isIntSpace).rdropWhile isIntSpace with
  | '-' :: r => (prefixed16? r).map fun n => -(n : ℤ)
  | '+' :: r => (prefixed16? r).map Int.ofNat
  | r => (prefixed16? r).map Int.ofNat

/-- `%0wd` and `%0wx` of the digits of a number. -/
def zfill (w : ℕ) (ds : Str) : Str := List.replicate (w - ds.length) '0' ++ ds

/-! ### Decimal -/

theorem IsNumeral.zfill {ds : Str} (h : IsNumeral ds) (w : ℕ) : IsNumeral (zfill w ds) := by
  refine ⟨fun hnil => h.1 (List.append_eq_nil_iff.mp hnil).2, fun c hc => ?_⟩
  rcases List.mem_append.mp hc with hc | hc
  · rw [List.eq_of_mem_replicate hc]
    rfl
  · exact h.2 c hc

theorem value_zfill (w : ℕ) (ds : Str) : value (zfill w ds) = value ds := by
  rw [zfill, value, List.map_append, List.reverse_append, List.map_replicate,
    List.reverse_replicate, show '0'.toNat - '0'.toNat = 0 from rfl,
    Nat.ofDigits_append_replicate_zero]
  rfl

/-! ### Hexadecimal -/

/-- Lower case hexadecimal digits, one at least. -/
def IsHexNumeral (ds : Str) : Prop := ds ≠ [] ∧ ∀ c ∈ ds, ∃ d < 16, c = Nat.digitChar d

theorem digitChar_hex : ∀ d < 16, hexDigit? d.digitChar = some d ∧ isSpace d.digitChar = false ∧
    d.digitChar ∉ ['_', '-', '+', 'x', 'X'] := by decide

theorem isHexNumeral_toDigits (n : ℕ) : IsHexNumeral (Nat.toDigits 16 n) := by
  refine ⟨Nat.toDigits_ne_nil, ?_⟩
  refine toDigits_induction (by decide) (P := fun _ s => ∀ c ∈ s, ∃ d < 16, c = Nat.digitChar d)
    ?_ ?_ n
  · intro d hd c hc
    exact ⟨d, hd, List.mem_singleton.mp hc⟩
  · intro n d hd ih c hc
    rcases List.mem_append.mp hc with hc | hc
    · exact ih c hc
    · exact ⟨d, hd, List.mem_singleton.mp hc⟩

theorem IsHexNumeral.zfill {ds : Str} (h : IsHexNumeral ds) (w : ℕ) : IsHexNumeral (zfill w ds) := by
  refine ⟨fun hnil => h.1 (List.append_eq_nil_iff.mp hnil).2, fun c hc => ?_⟩
  rcases List.mem_append.mp hc with hc | hc
  · exact ⟨0, by decide, List.eq_of_mem_replicate hc⟩
  · exact h.2 c hc

/-- The number of some digits of `int(s, 16)`. -/
def hexValue (ds : Str) : ℕ := Nat.ofDigits 16 (ds.filterMap hexDigit?).reverse

theorem hexValue_zfill (w : ℕ) (ds : Str) : hexValue (zfill w ds) = hexValue ds := by
  have hzeros : (List.replicate (w - ds.length) '0').filterMap hexDigit? =
      List.replicate (w - ds.length) 0 := List.filterMap_replicate_of_some rfl
  rw [hexValue, Str.zfill, List.filterMap_append, hzeros, List.reverse_append,
    List.reverse_replicate, Nat.ofDigits_append_replicate_zero]
  rfl

theorem hexValue_toDigits (n : ℕ) : hexValue (Nat.toDigits 16 n) = n := by
  refine toDigits_induction (by decide) (P := fun n s => hexValue s = n) ?_ ?_ n
  · intro d hd
    rw [hexValue, List.filterMap_cons_some (digitChar_hex d hd).1]
    exact Nat.ofDigits_singleton
  · intro n d hd ih
    rw [hexValue, List.filterMap_append, List.reverse_append, List.filterMap_cons_some
      (digitChar_hex d hd).1, List.filterMap_nil, List.reverse_singleton, List.singleton_append,
      Nat.ofDigits_cons]
    rw [hexValue] at ih
    rw [ih]
    exact Nat.add_comm d (16 * n)

theorem int16?_of_isHexNumeral {ds : Str} (h : IsHexNumeral ds) :
    int16? ds = some (hexValue ds : ℤ) := by
  obtain ⟨hne, hall⟩ := h
  have hchar : ∀ c ∈ ds, (hexDigit? c).isSome = true ∧ isIntSpace c = false ∧
      c ∉ ['_', '-', '+', 'x', 'X'] := by
    intro c hc
    obtain ⟨d, hd, rfl⟩ := hall c hc
    obtain ⟨hdigit, hspace, hmem⟩ := digitChar_hex d hd
    exact ⟨by rw [hdigit]; rfl, by rw [isIntSpace, hspace, Bool.false_and], hmem⟩
  have hunder : underscored16? ds = some (hexValue ds) := by
    have hone : ds.splitOn '_' = [ds] := List.splitOn_eq_singleton fun hmem =>
      (hchar _ hmem).2.2 (by decide)
    have hdigits : ∀ c ∈ ds, hexDigit? c ≠ none := fun c hc =>
      Option.isSome_iff_ne_none.mp (hchar c hc).1
    simpa [underscored16?, hone, hne, hexValue] using hdigits
  have hprefixed : prefixed16? ds = underscored16? ds := by
    unfold prefixed16?
    split
    · exact absurd (by decide) (hchar 'x' (by simp)).2.2
    · exact absurd (by decide) (hchar 'x' (by simp)).2.2
    · exact absurd (by decide) (hchar 'X' (by simp)).2.2
    · exact absurd (by decide) (hchar 'X' (by simp)).2.2
    · rfl
  have hdrop : ds.dropWhile isIntSpace = ds := by
    obtain ⟨c, s, rfl⟩ := List.exists_cons_of_ne_nil hne
    rw [List.dropWhile_cons, (hchar c List.mem_cons_self).2.1]
    rfl
  have hrdrop : ds.rdropWhile isIntSpace = ds := by
    rw [List.rdropWhile_eq_self_iff]
    intro hne
    rw [(hchar _ (List.getLast_mem hne)).2.1]
    exact Bool.false_ne_true
  unfold int16?
  rw [hdrop, hrdrop]
  split
  · exact absurd (by decide) (hchar '-' List.mem_cons_self).2.2
  · exact absurd (by decide) (hchar '+' List.mem_cons_self).2.2
  · rw [hprefixed, hunder]
    rfl

/-- `int('%0wx' % n, 16)` -/
theorem int16?_zfill (w n : ℕ) : int16? (zfill w (Nat.toDigits 16 n)) = some (n : ℤ) := by
  rw [int16?_of_isHexNumeral ((isHexNumeral_toDigits n).zfill w), hexValue_zfill,
    hexValue_toDigits]

theorem length_zfill (w : ℕ) (ds : Str) : (zfill w ds).length = max w ds.length := by
  rw [zfill, List.length_append, List.length_replicate]
  omega

/-- `int('%0wd' % n)` -/
theorem int?_zfill {w n : ℕ} (hw : w ≤ 20) (hn : n < 10 ^ 20) :
    int? (zfill w (Nat.toDigits 10 n)) = some (n : ℤ) := by
  have hlen : (zfill w (Nat.toDigits 10 n)).length ≤ maxStrDigits := by
    rw [length_zfill]
    exact (max_le hw (length_toDigits_le (by decide) hn)).trans (by decide)
  rw [int?_of_isNumeral ((isNumeral_toDigits n).zfill w) hlen, value_zfill, value_toDigits]

/-! ### Leading zeros -/

/-- The numeral without the zeros in front, one digit at least. -/
def dropZeros : Str → Str
  | [] => []
  | [c] => [c]
  | c :: d :: s => if c = '0' then dropZeros (d :: s) else c :: d :: s

theorem dropZeros_concat (x : Char) : ∀ {ds : Str}, ds ≠ [] →
    dropZeros (ds ++ [x]) = if dropZeros ds = ['0'] then [x] else dropZeros ds ++ [x]
  | [c], _ => by
    by_cases hc : c = '0'
    · simp [dropZeros, hc]
    · simp [dropZeros, hc]
  | c :: d :: s, _ => by
    have ih := dropZeros_concat x (List.cons_ne_nil d s)
    by_cases hc : c = '0'
    · simpa [dropZeros, hc] using ih
    · simp [dropZeros, hc]

theorem hexValue_append (s t : Str) :
    hexValue (s ++ t) = 16 ^ (t.filterMap hexDigit?).length * hexValue s + hexValue t := by
  rw [hexValue, List.filterMap_append, List.reverse_append, Nat.ofDigits_append,
    List.length_reverse, Nat.add_comm]
  rfl

theorem hexValue_concat (s : Str) {d : ℕ} (hd : d < 16) :
    hexValue (s ++ [d.digitChar]) = 16 * hexValue s + d := by
  have hone : [d.digitChar].filterMap hexDigit? = [d] := by simp [(digitChar_hex d hd).1]
  have hvalue : hexValue [d.digitChar] = d := by simp [hexValue, hone]
  rw [hexValue_append, hone, hvalue]
  simp

/-- Without the zeros it is the numeral that is printed. -/
theorem dropZeros_eq_toDigits {ds : Str} (h : IsHexNumeral ds) :
    dropZeros ds = Nat.toDigits 16 (hexValue ds) := by
  obtain ⟨hne, hall⟩ := h
  induction ds using List.reverseRecOn with
  | nil => exact absurd rfl hne
  | append_singleton ds c ih =>
    obtain ⟨d, hd, rfl⟩ := hall c (by simp)
    by_cases hnil : ds = []
    · have hvalue := hexValue_concat [] hd
      rw [hnil, hvalue]
      simp [dropZeros, hexValue, Nat.toDigits_of_lt_base hd]
    · have ih := ih hnil fun e he => hall e (List.mem_append_left _ he)
      rw [dropZeros_concat _ hnil, hexValue_concat _ hd, ih]
      rcases Nat.eq_zero_or_pos (hexValue ds) with hzero | hpos
      · simp [hzero, Nat.toDigits_of_lt_base hd]
      · have hnot : Nat.toDigits 16 (hexValue ds) ≠ ['0'] := fun he => by
          have := congrArg hexValue he
          rw [hexValue_toDigits] at this
          exact absurd (this.trans (by rfl)) hpos.ne'
        rw [if_neg hnot, ← Nat.toDigits_append_toDigits (by decide) hpos hd, Nat.toDigits_of_lt_base hd]

end Str
end Xc7Tools
