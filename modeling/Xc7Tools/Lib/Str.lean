/-
# Python strings

A Python string is its list of characters. White space and decimal digits
are Unicode's, as in `str.strip`, `\s`, `\d` and `int`: a digit of any script
is one (the table is Unicode 14's, of Python 3.11).

Key definitions: `Str`, `isSpace`, `strip`, `digit?`, `maxStrDigits`, `intOf`, `intBase`, `int?`,
`indexed`.
-/
import Mathlib.Data.List.DropRight
import Mathlib.Data.Nat.Digits.Defs

namespace Xc7Tools

/-- A Python `str`. -/
abbrev Str := List Char

namespace Str

/-- `c.isspace()`, and `\s` in a pattern. -/
def isSpace (c : Char) : Bool :=
  let n := c.toNat
  (0x09 ≤ n && n ≤ 0x0D) || (0x1C ≤ n && n ≤ 0x20) || n == 0x85 || n == 0xA0 || n == 0x1680 ||
    (0x2000 ≤ n && n ≤ 0x200A) || n == 0x2028 || n == 0x2029 || n == 0x202F || n == 0x205F ||
    n == 0x3000

/-- `[ \t]` in a pattern. -/
def isBlank (c : Char) : Bool := c == ' ' || c == '\t'

/-- `s.strip()`. -/
def strip (s : Str) : Str := (s.dropWhile isSpace).rdropWhile isSpace

/-- `s <= t`: by the code points, from the left. -/
def le : Str → Str → Bool
  | [], _ => true
  | _ :: _, [] => false
  | c :: s, d :: t => c.toNat < d.toNat || (c == d && le s t)

/-- `s.split(sep, 1)`, or none when `sep` is not in `s`. -/
def split1 (sep : Char) (s : Str) : Option (Str × Str) :=
  match s.dropWhile (· != sep) with
  | [] => none
  | _ :: rest => some (s.takeWhile (· != sep), rest)

/-- The code points of the zeros of the decimal digits (category Nd); the
other nine digits of a script follow its zero. -/
def zeros : List ℕ :=
  [0x30, 0x660, 0x6F0, 0x7C0, 0x966, 0x9E6, 0xA66, 0xAE6, 0xB66, 0xBE6, 0xC66, 0xCE6, 0xD66,
    0xDE6, 0xE50, 0xED0, 0xF20, 0x1040, 0x1090, 0x17E0, 0x1810, 0x1946, 0x19D0, 0x1A80, 0x1A90,
    0x1B50, 0x1BB0, 0x1C40, 0x1C50, 0xA620, 0xA8D0, 0xA900, 0xA9D0, 0xA9F0, 0xAA50, 0xABF0,
    0xFF10, 0x104A0, 0x10D30, 0x11066, 0x110F0, 0x11136, 0x111D0, 0x112F0, 0x11450, 0x114D0,
    0x11650, 0x116C0, 0x11730, 0x118E0, 0x11950, 0x11C50, 0x11D50, 0x11DA0, 0x16A60, 0x16AC0,
    0x16B50, 0x1D7CE, 0x1D7D8, 0x1D7E2, 0x1D7EC, 0x1D7F6, 0x1E140, 0x1E2F0, 0x1E950, 0x1FBF0]

/-- The value of a decimal digit of any script. -/
def digit? (c : Char) : Option ℕ :=
  (zeros.find? fun z => z ≤ c.toNat && c.toNat < z + 10).map fun z => c.toNat - z

/-- `\d` in a pattern. -/
def isDigit (c : Char) : Bool := (digit? c).isSome

/-- The number that decimal digits of any script denote. -/
def digitsValue (s : Str) : ℕ := Nat.ofDigits 10 (s.filterMap digit?).reverse

/-- The most digits that `int` takes in a decimal text, CPython's default; leading zeros count. -/
def maxStrDigits : ℕ := 4300

/-- `int(s)` of a text that matches `\d+`; none is the ValueError of too many digits. -/
def intOf (s : Str) : Option ℕ := if s.length ≤ maxStrDigits then some (digitsValue s) else none

theorem intOf_eq_some {s : Str} {n : ℕ} :
    intOf s = some n ↔ s.length ≤ maxStrDigits ∧ n = digitsValue s := by
  unfold intOf
  split_ifs with h <;> simp [h, eq_comm]

/-- `[0-9a-fA-F]` in a pattern, as a value. -/
def hex? (c : Char) : Option ℕ :=
  if '0' ≤ c ∧ c ≤ '9' then some (c.toNat - '0'.toNat)
  else if 'a' ≤ c ∧ c ≤ 'f' then some (c.toNat - 'a'.toNat + 10)
  else if 'A' ≤ c ∧ c ≤ 'F' then some (c.toNat - 'A'.toNat + 10)
  else none

theorem hex?_lt {c : Char} {v : ℕ} (h : hex? c = some v) : v < 16 := by
  unfold hex? at h
  split_ifs at h with h0 ha hA
  · have hle : c.toNat ≤ 57 := h0.2
    have hv : c.toNat - 48 = v := Option.some.inj h
    omega
  · have hle : c.toNat ≤ 102 := ha.2
    have hv : c.toNat - 97 + 10 = v := Option.some.inj h
    omega
  · have hle : c.toNat ≤ 70 := hA.2
    have hv : c.toNat - 65 + 10 = v := Option.some.inj h
    omega

/-- What `int(s, 2)` takes off the front: an optional `0b`. -/
def dropBinPrefix : Str → Str
  | '0' :: 'b' :: s => s
  | '0' :: 'B' :: s => s
  | s => s

/-- `int(s, radix)` of a text of hexadecimal digits; none is a ValueError. Bases that are powers of
two have no limit. -/
def intBase (radix : ℕ) (s : Str) : Option ℕ :=
  let s := if radix = 2 then dropBinPrefix s else s
  if s = [] ∨ radix = 10 ∧ maxStrDigits < s.length then none
  else (s.mapM fun c => (hex? c).filter (· < radix)).map fun ds => Nat.ofDigits radix ds.reverse

/-- The white space `int` takes off around its digits: the separators of ASCII
are not among it. -/
def isIntSpace (c : Char) : Bool := isSpace c && !(0x1C ≤ c.toNat && c.toNat ≤ 0x1F)

/-- Decimal digits, single underscores between them. -/
def underscored? (s : Str) : Option ℕ :=
  let parts := s.splitOn '_'
  if parts.all fun p => p ≠ [] ∧ p.all isDigit then intOf parts.flatten else none

/-- `int(s)`; none is a ValueError. -/
def int? (s : Str) : Option ℤ :=
  match (s.dropWhile isIntSpace).rdropWhile isIntSpace with
  | '-' :: r => (underscored? r).map fun n => -(n : ℤ)
  | '+' :: r => (underscored? r).map Int.ofNat
  | r => (underscored? r).map Int.ofNat

/-- `name, _, rest = s.partition(sep)` -/
def partition (sep : Char) (s : Str) : Str × Str :=
  (s.takeWhile (· != sep), (s.dropWhile (· != sep)).drop 1)

/-- `f'{name}[{k}]'` -/
def indexed (name : Str) (k : ℕ) : Str := name ++ '[' :: Nat.toDigits 10 k ++ [']']

/-- `sub in s` -/
def isIn (sub : Str) : Str → Bool
  | [] => sub.isEmpty
  | c :: s => sub.isPrefixOf (c :: s) || isIn sub s

theorem isIn_iff_isInfix {sub : Str} : ∀ {s : Str}, isIn sub s = true ↔ sub <:+: s
  | [] => List.isEmpty_iff.trans List.infix_nil.symm
  | c :: s => by
    rw [isIn, Bool.or_eq_true_iff, List.isPrefixOf_iff_prefix, isIn_iff_isInfix, List.infix_cons_iff]

theorem intercalate_append {sep : Str} {s t : List Str} (hs : s ≠ []) (ht : t ≠ []) :
    sep.intercalate (s ++ t) = sep.intercalate s ++ sep ++ sep.intercalate t := by
  induction s with
  | nil => exact absurd rfl hs
  | cons u s ih =>
    rcases eq_or_ne s [] with rfl | hne
    · rw [List.singleton_append, List.intercalate_cons_of_ne_nil ht, List.intercalate_singleton]
    · have hcat := List.append_ne_nil_of_left_ne_nil hne t
      rw [List.cons_append, List.intercalate_cons_of_ne_nil hcat,
        List.intercalate_cons_of_ne_nil hne, ih hne]
      simp only [List.append_assoc]

/-! ### Stripping -/

theorem strip_append_left {t s : Str} (h : ∀ c ∈ t, isSpace c = true) :
    strip (t ++ s) = strip s := by
  rw [strip, strip, List.dropWhile_append_of_pos h]

theorem rdropWhile_append_right {p : Char → Bool} {s t : Str} (h : ∀ c ∈ t, p c = true) :
    (s ++ t).rdropWhile p = s.rdropWhile p := by
  rw [List.rdropWhile, List.reverse_append,
    List.dropWhile_append_of_pos fun c hc => h c (List.mem_reverse.mp hc), List.rdropWhile]

theorem strip_append_right {s t : Str} (h : ∀ c ∈ t, isSpace c = true) :
    strip (s ++ t) = strip s := by
  rw [strip, strip, List.dropWhile_append]
  split_ifs with hs
  · rw [List.isEmpty_iff.mp hs, List.dropWhile_eq_nil_iff.mpr h]
  · exact rdropWhile_append_right h

/-- Stripping from the right stops in front of a character that stays. -/
theorem rdropWhile_append_cons {p : Char → Bool} {c : Char} (hc : p c = false) (s t : Str) :
    (s ++ c :: t).rdropWhile p = s ++ c :: t.rdropWhile p := by
  induction t using List.reverseRecOn with
  | nil => simp [hc]
  | append_singleton t d ih =>
    rw [show s ++ c :: (t ++ [d]) = (s ++ c :: t) ++ [d] by simp, List.rdropWhile_concat, ih,
      List.rdropWhile_concat]
    split_ifs
    · rfl
    · simp

theorem strip_rdropWhile {p : Char → Bool} (hp : ∀ c, p c = true → isSpace c = true) (s : Str) :
    strip (s.rdropWhile p) = strip s := by
  conv_rhs => rw [← List.rdropWhile_append_rtakeWhile (p := p) (l := s)]
  exact (strip_append_right fun c hc => hp c (List.mem_rtakeWhile_imp hc)).symm

section TakeWhile

variable {q : Char → Bool} (hq : ∀ c, isSpace c = true → q c = true)

include hq

/-- White space before a text does not change where it is cut. -/
theorem strip_takeWhile_dropWhile {p : Char → Bool} (hp : ∀ c, p c = true → isSpace c = true)
    (s : Str) : strip ((s.dropWhile p).takeWhile q) = strip (s.takeWhile q) := by
  have hsp : ∀ c ∈ s.takeWhile p, isSpace c = true := fun c hc => hp c (List.mem_takeWhile_imp hc)
  conv_rhs => rw [← List.takeWhile_append_dropWhile (p := p) (l := s)]
  rw [List.takeWhile_append_of_pos fun c hc => hq c (hsp c hc), strip_append_left hsp]

/-- Nor does white space after it. -/
theorem strip_takeWhile_rdropWhile (s : Str) :
    strip ((s.rdropWhile isSpace).takeWhile q) = strip (s.takeWhile q) := by
  have hsp : ∀ c ∈ s.rtakeWhile isSpace, isSpace c = true := fun c hc =>
    List.mem_rtakeWhile_imp hc
  conv_rhs =>
    rw [← List.rdropWhile_append_rtakeWhile (p := isSpace) (l := s), List.takeWhile_append]
  split_ifs with hlen
  · have hall : (s.rdropWhile isSpace).takeWhile q = s.rdropWhile isSpace :=
      (List.takeWhile_prefix q).eq_of_length hlen
    have hall' : (s.rtakeWhile isSpace).takeWhile q = s.rtakeWhile isSpace :=
      List.takeWhile_eq_self_iff.mpr fun c hc => hq c (hsp c hc)
    rw [hall, hall', strip_append_right hsp]
  · rfl

theorem strip_takeWhile_strip (s : Str) :
    strip ((strip s).takeWhile q) = strip (s.takeWhile q) := by
  change strip (((s.dropWhile isSpace).rdropWhile isSpace).takeWhile q) = _
  rw [strip_takeWhile_rdropWhile hq, strip_takeWhile_dropWhile hq fun _ h => h]

end TakeWhile

end Str

end Xc7Tools
