/-
# unnamed_bits.py

`scripts/unnamed_bits.py` lists the bits that a bitstream sets in a tile and
that no feature of the tile's type names. The database is its files, each a
name and a text; the tile grid is the value of its JSON; what `bitread` prints
is a list of lines. What is found is `unnamed`: by tile type and by position
text the tiles that show it.

Key definitions: `tokens`, `readBit`, `ownMinors`, `tileFound`, `unnamedBits`.
-/
import Mathlib.Data.List.Sort
import Xc7Tools.Lib.Checked
import Xc7Tools.Lib.Gather
import Xc7Tools.Lib.Numerals

namespace Xc7Tools
namespace UnnamedBits

open Str Checked

inductive Error where
  | ValueError

/-! ### The database -/

/-- The digits that are no decimal digits (Unicode's Numeric_Type=Digit), as first and last code
point. -/
def otherDigits : List (ℕ × ℕ) :=
  [(0xB2, 0xB3), (0xB9, 0xB9), (0x1369, 0x1371), (0x19DA, 0x19DA), (0x2070, 0x2070),
    (0x2074, 0x2079), (0x2080, 0x2089), (0x2460, 0x2468), (0x2474, 0x247C), (0x2488, 0x2490),
    (0x24EA, 0x24EA), (0x24F5, 0x24FD), (0x24FF, 0x24FF), (0x2776, 0x277E), (0x2780, 0x2788),
    (0x278A, 0x2792), (0x10A40, 0x10A43), (0x10E60, 0x10E68), (0x11052, 0x1105A),
    (0x1F100, 0x1F10A)]

/-- `s.isdigit()` -/
def isdigit (s : Str) : Bool :=
  s ≠ [] && s.all fun c => isDigit c || otherDigits.any fun r => r.1 ≤ c.toNat && c.toNat ≤ r.2

/-- `bit.split('_')[0]` -/
def minorText (bit : Str) : Str := bit.takeWhile (· != '_')

/-- The token is a position. -/
def isPosition (bit : Str) : Bool := bit.contains '_' && isdigit (minorText bit)

/-- The tile type and the positions of a line. -/
def lineTokens (line : Str) : List (Str × Str) :=
  match fields line with
  | [] => []
  | part :: bits =>
    ((bits.map fun bit => bit.dropWhile (· == '!')).filter isPosition).map fun bit =>
      (part.takeWhile (· != '.'), bit)

/-- The files that are read. -/
def isDb (path : Str) : Bool :=
  ("segbits_".toList.isPrefixOf path || "ppips_".toList.isPrefixOf path) &&
    ".db".toList.isSuffixOf path && !(isIn "origin_info".toList path || isIn "mask_".toList path)

/-- The positions of the database, each with its tile type. -/
def tokens (db : List (Str × Str)) : List (Str × Str) :=
  (db.filter fun f => isDb f.1).flatMap fun f => (linesOf f.2).flatMap lineTokens

def named (db : List (Str × Str)) : Dict Str (List Str) := Dict.gather Dict.addTo (tokens db)

/-- `int(b.split('_')[0])` -/
def minorOf (bit : Str) : Option ℤ := int? (minorText bit)

/-- `{t: {int(b.split('_')[0]) for b in bits} for t, bits in named.items()}` -/
def ownMinors (named : Dict Str (List Str)) : Except Error (Dict Str (List ℤ)) :=
  if named.values.all fun bits => bits.all fun bit => (minorOf bit).isSome then
    .ok (named.map fun bits => (bits.filterMap minorOf).dedup)
  else .error .ValueError

/-! ### The bits that are set -/

/-- A frame, a word and a bit of a line of `bitread`; other lines are passed over. -/
def readBit (line : Str) : Option (ℤ × ℤ × ℤ) :=
  match line.splitOn '_' with
  | _ :: frame :: word :: bit :: _ => do
    return (← int16? frame, ← int? word, ← int? bit)
  | _ => none

/-- `set_bits`, without the frames that have none. -/
def setBits (lines : List Str) : Dict ℤ (List (ℤ × ℤ)) :=
  Dict.gather Dict.addTo (lines.filterMap readBit)

/-! ### The tile grid -/

inductive Baseaddr where
  | text (s : Str)
  | int (n : ℤ)

structure Block where
  baseaddr : Baseaddr
  offset : ℤ
  words : ℤ
  frames : ℤ

/-- `int(base, 16) if isinstance(base, str) else base` -/
def Block.base? (b : Block) : Option ℤ :=
  match b.baseaddr with
  | .text s => int16? s
  | .int n => some n

/-- A tile: its type, and its blocks by their names. -/
structure Entry where
  type : Str
  bits : Option (List (Str × Block))

/-- `entry.get('bits', {}).items()` -/
def Entry.blocks (e : Entry) : List (Str × Block) := e.bits.getD []

/-! ### What is found -/

/-- `f"{n}"` -/
def intText : ℤ → Str
  | .ofNat n => Nat.toDigits 10 n
  | .negSucc n => '-' :: Nat.toDigits 10 (n + 1)

/-- `f"{n:02d}"` -/
def intText2 : ℤ → Str
  | .ofNat n => zfill 2 (Nat.toDigits 10 n)
  | .negSucc n => '-' :: Nat.toDigits 10 (n + 1)

/-- `f"{minor}_{index:02d}"` -/
def posText (minor index : ℤ) : Str := intText minor ++ '_' :: intText2 index

section

variable (named : Dict Str (List Str)) (own : Dict Str (List ℤ)) (bits : Dict ℤ (List (ℤ × ℤ)))

/-- What a block of a tile adds, with `base` its address. -/
def blockFound (ttype tile : Str) (block : Block) (base : ℤ) : List (Str × Str × Str) :=
  ((own.getAll ttype).insertionSort (· ≤ ·)).flatMap fun minor =>
    if block.frames ≤ minor then []
    else (bits.getAll (base + minor)).filterMap fun p =>
      if block.offset ≤ p.1 ∧ p.1 < block.offset + block.words then
        let pos := posText minor ((p.1 - block.offset) * 32 + p.2)
        if (named.getAll ttype).contains pos then none else some (ttype, pos, tile)
      else none

/-- What a tile adds. -/
def tileFound (t : Str × Entry) : Except Error (List (Str × Str × Str)) := do
  let found ← t.2.blocks.mapM fun b =>
    if b.1 = "BLOCK_RAM".toList then .ok []
    else do
      let base ← orRaise .ValueError b.2.base?
      return blockFound named own bits t.2.type t.1 b.2 base
  return found.flatten

end

/-- The script: how many bits are set, and `unnamed`. -/
def unnamedBits (db : List (Str × Str)) (tilegrid : List (Str × Entry)) (out : List Str) :
    Except Error (ℕ × Dict Str (Dict Str (List Str))) := do
  let bits := setBits out
  let own ← ownMinors (named db)
  let found ← tilegrid.mapM (tileFound (named db) own bits)
  return ((bits.values.map List.length).sum,
    (Dict.gather Dict.appendTo found.flatten).map (Dict.gather Dict.appendTo))

end UnnamedBits
end Xc7Tools
