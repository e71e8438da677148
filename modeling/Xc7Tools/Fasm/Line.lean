/-
# fasm_fast: one line of FASM

`parse_fasm_line` of `scripts/fasm_fast.py`. The pattern `_LINE` is matched
from left to right without backtracking: after each of its parts the next
character decides whether the match can go on, and the lazy group of the
value ends where only blanks are left before the comment or the end.

`ParseError` has a constructor for each way the function raises; all of them
are a ValueError. An annotation is never returned, so `FasmLine` has no field
for it, and the line number, which only the messages use, is left out.

Key definitions: `matchLine`, `parseValue`, `parseFasmLine`.
-/
import Xc7Tools.Lib.Str

namespace Xc7Tools
namespace Fasm

open Str

inductive ValueFormat where
  | plain
  | verilogBinary
  | verilogOctal
  | verilogDecimal
  | verilogHex
  deriving DecidableEq

structure SetFasmFeature where
  feature : Str
  start : Option ℕ
  end_ : Option ℕ
  value : ℕ
  valueFormat : Option ValueFormat
  deriving DecidableEq

structure FasmLine where
  setFeature : Option SetFasmFeature
  comment : Option Str
  deriving DecidableEq

inductive ParseError where
  /-- "FASM annotations are not supported by this reader; ..." -/
  | annotations
  /-- "cannot read FASM line ..." -/
  | cannotReadLine (text : Str)
  /-- "cannot read FASM value ..." -/
  | cannotReadValue (text : Str)
  /-- `int` refuses the digits. -/
  | badInt (digits : Str)
  /-- `1 << width` refuses a negative width. -/
  | negativeShift (width : ℤ)
  /-- "value %d does not fit in %d bit(s)" -/
  | doesNotFit (value : ℕ) (width : ℤ)
  deriving DecidableEq

/-! ### The pattern -/

/-- The groups of `_LINE`. -/
structure Groups where
  feature : Option Str
  hi : Option Str
  lo : Option Str
  value : Option Str
  comment : Option Str
  deriving DecidableEq

/-- `[A-Za-z_]` -/
def isFeatureStart (c : Char) : Bool := c.isAlpha || c == '_'

/-- `[A-Za-z0-9_.]` -/
def isFeatureChar (c : Char) : Bool := c.isAlphanum || c == '_' || c == '.'

/-- `(?:\[(?P<hi>\d+)(?::(?P<lo>\d+))?\])?` and the rest of the text. -/
def matchRange (s : Str) : Option Str × Option Str × Str :=
  match s with
  | '[' :: r =>
    let hi := r.takeWhile isDigit
    match hi, r.dropWhile isDigit with
    | _ :: _, ']' :: rest => (some hi, none, rest)
    | _ :: _, ':' :: r' =>
      let lo := r'.takeWhile isDigit
      match lo, r'.dropWhile isDigit with
      | _ :: _, ']' :: rest => (some hi, some lo, rest)
      | _, _ => (none, none, s)
    | _, _ => (none, none, s)
  | _ => (none, none, s)

/-- `(?:[ \t]*=[ \t]*(?P<value>[^#\s][^#]*?))?`, up to the blanks before the
comment or the end, and the rest of the text. -/
def matchValue (s : Str) : Option Str × Str :=
  match s.dropWhile isBlank with
  | '=' :: r =>
    match r.dropWhile isBlank with
    | c :: r' =>
      if c = '#' ∨ isSpace c = true then (none, s)
      else
        (some (((c :: r').takeWhile (· != '#')).rdropWhile isBlank), (c :: r').dropWhile (· != '#'))
    | [] => (none, s)
  | _ => (none, s)

/-- `[ \t]*(?:\#(?P<comment>.*))?$` -/
def matchComment (s : Str) : Option (Option Str) :=
  match s.dropWhile isBlank with
  | [] => some none
  | '#' :: c => if '\n' ∈ c then none else some (some c)
  | _ => none

/-- `_LINE.match(s)` -/
def matchLine (s : Str) : Option Groups :=
  let s := s.dropWhile isBlank
  match s with
  | c :: _ =>
    if isFeatureStart c then
      let (hi, lo, s₁) := matchRange (s.dropWhile isFeatureChar)
      let (value, s₂) := matchValue s₁
      (matchComment s₂).map fun comment =>
        { feature := some (s.takeWhile isFeatureChar), hi, lo, value, comment }
    else (matchComment s).map fun comment => ⟨none, none, none, none, comment⟩
  | [] => some ⟨none, none, none, none, none⟩

/-! ### The value -/

/-- `_BASES` -/
def bases (c : Char) : Option (ℕ × ValueFormat) :=
  match c.toLower with
  | 'b' => some (2, .verilogBinary)
  | 'o' => some (8, .verilogOctal)
  | 'd' => some (10, .verilogDecimal)
  | 'h' => some (16, .verilogHex)
  | _ => none

/-- `text.replace("_", "")` -/
def dropUnderscores (s : Str) : Str := s.filter (· != '_')

/-- `_SIZED.match(text)`: the radix, the format and the digits. -/
def matchSized (text : Str) : Option (ℕ × ValueFormat × Str) :=
  match text.takeWhile isDigit, text.dropWhile isDigit with
  | _ :: _, '\'' :: base :: digits =>
    if digits ≠ [] ∧ digits.all (fun c => (hex? c).isSome || c == '_') then
      (bases base).map fun (radix, fmt) => (radix, fmt, digits)
    else none
  | _, _ => none

/-- `_parse_value` -/
def parseValue (text : Str) : Except ParseError (ℕ × ValueFormat) :=
  match matchSized text with
  | some (radix, fmt, digits) =>
    match intBase radix (dropUnderscores digits) with
    | some n => .ok (n, fmt)
    | none => .error (.badInt (dropUnderscores digits))
  | none =>
    if text ≠ [] ∧ text.all (fun c => ('0' ≤ c ∧ c ≤ '9') || c == '_') then
      match intBase 10 (dropUnderscores text) with
      | some n => .ok (n, .plain)
      | none => .error (.badInt (dropUnderscores text))
    else .error (.cannotReadValue text)

/-! ### The line -/

/-- `int(d)` of a group. -/
def intGroup (d : Str) : Except ParseError ℕ :=
  match intOf d with
  | some n => .ok n
  | none => .error (.badInt d)

/-- `start, end` from the groups `hi` and `lo`. -/
def startEnd : Option Str → Option Str → Except ParseError (Option ℕ × Option ℕ)
  | none, _ => .ok (none, none)
  | some hi, none => do return (some (← intGroup hi), none)
  | some hi, some lo => do
    let start ← intGroup lo
    return (some start, some (← intGroup hi))

/-- `(end - start + 1) if end is not None else 1` -/
def width : Option ℕ × Option ℕ → ℤ
  | (start, some hi) => hi - (start.getD 0) + 1
  | (_, none) => 1

/-- The check that the value fits the range. -/
def fits (value : ℕ) (w : ℤ) : Except ParseError Unit :=
  if w < 0 then .error (.negativeShift w)
  else if 1 <<< w.toNat ≤ value then .error (.doesNotFit value w)
  else .ok ()

/-- The value of the line and its format, checked against the range. -/
def readValue (range : Option ℕ × Option ℕ) :
    Option Str → Except ParseError (ℕ × Option ValueFormat)
  | none => .ok (1, none)
  | some raw => do
    let (value, fmt) ← parseValue (strip raw)
    fits value (width range)
    .ok (value, some fmt)

/-- `parse_fasm_line` -/
def parseFasmLine (text : Str) : Except ParseError FasmLine :=
  if '{' ∈ text ∨ '}' ∈ text then .error .annotations
  else
    match matchLine (text.rdropWhile (· == '\n')) with
    | none => .error (.cannotReadLine (text.rdropWhile (· == '\n')))
    | some g =>
      match g.feature with
      | none => .ok ⟨none, g.comment⟩
      | some feature => do
        let range ← startEnd g.hi g.lo
        let (value, valueFormat) ← readValue range g.value
        .ok ⟨some { feature, start := range.1, end_ := range.2, value, valueFormat }, g.comment⟩

end Fasm
end Xc7Tools
