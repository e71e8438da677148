/-
# ff_state: flip-flops as bits of the bitstream

`scripts/ff_state.py`. A flip-flop is an entry of `flops`: the feature that
holds its value, present for 0, and the names it answers to, sorted. `read`
prints a line per name, `write` edits the lines of the FASM. What goes to
stderr is left out, and so are the file names.

A name that no flip-flop answers to is ignored in a state file.

Key definitions: `feature`, `flops`, `value`, `read`, `wanted`, `byName`,
`edits`, `write`.
Key theorems: `isFeature_of_mem_flops`.
-/
import Mathlib.Data.List.Sort
import Xc7Tools.Lib.Checked
import Xc7Tools.Lib.Lines
import Xc7Tools.Netlist.Yosys

namespace Xc7Tools
namespace FfState

open Yosys Checked Str

inductive Error where
  /-- No module has the attribute `top`. -/
  | noTop
  | keyError (key : Str)
  | indexError
  /-- The site has no X coordinate. -/
  | attributeError (site : Str)
  /-- `int` refuses the value in the state file. -/
  | valueError (text : Str)
  deriving DecidableEq

/-- An entry of the placement. The names of tiles and bels have no white
space. -/
structure Place where
  site : Str
  tile : Str
  bel : Str
  type : Str
  solid_tile : Solid tile
  solid_bel : Solid bel

abbrev Placement := Dict Str Place

/-! ### The flip-flops -/

/-- What one netname adds to `names_of`: its name under each of its ids. -/
def bitNames (q : Str × NetName) : List (ℕ × Str) :=
  q.2.bits.zipIdx.filterMap fun (b, i) =>
    match b with
    | .net j => some (j, if q.2.bits.length = 1 then q.1 else indexed q.1 i)
    | .const _ => none

/-- `names_of` -/
def namesOf (top : Module) : Dict ℕ (List Str) :=
  (top.netnames.items.flatMap bitNames).foldl
    (fun d p => d.set p.1 ((d.get? p.1).getD [] ++ [p.2])) .empty

/-- `re.search(r'X(\d+)', site).group(1)` -/
def searchX : Str → Option Str
  | [] => none
  | c :: s =>
    if c = 'X' ∧ s.takeWhile isDigit ≠ [] then some (s.takeWhile isDigit) else searchX s

/-- `tile.split('_X')[0]` -/
def beforeX : Str → Str
  | '_' :: 'X' :: _ => []
  | c :: s => c :: beforeX s
  | [] => []

/-- `feature`, with the number in the site's name. -/
def featureAt (pl : Place) (x : ℕ) : Str :=
  let kind : Str :=
    if "CLBLM".toList <+: beforeX pl.tile ∧ x % 2 = 0 then ['M'] else ['L']
  pl.tile ++ ".SLICE".toList ++ kind ++ "_X".toList ++ Nat.toDigits 10 (x % 2) ++ ".".toList ++
    pl.bel ++ ".ZINI".toList

def feature (pl : Place) : Except Error Str := do
  let digits ← orRaise (.attributeError pl.site) (searchX pl.site)
  return featureAt pl (← orRaise (.valueError digits) (intOf digits))

/-- The names of a flip-flop whose Q is this bit, sorted; those yosys made up
are left out. -/
def flopNames (names : Dict ℕ (List Str)) (cn : Str) (q : Bit) : List Str :=
  let ns := match q with
    | .net i => (names.get? i).getD [cn]
    | .const _ => [cn]
  let sorted := (ns.filter fun n => ! "$".toList.isPrefixOf n).insertionSort fun a b => le a b
  if sorted = [] then [cn] else sorted

/-- One turn of the loop over the cells. -/
def addFlop (place : Placement) (names : Dict ℕ (List Str)) (d : Dict Str (List Str))
    (q : Str × Cell) : Except Error (Dict Str (List Str)) :=
  if !"FD".toList.isPrefixOf q.2.type then .ok d
  else
    match place.get? q.1 with
    | none => .ok d
    | some pl =>
      if pl.type ≠ "SLICE_FFX".toList then .ok d
      else do
        let bits ← orRaise (.keyError "Q".toList) (q.2.connections.get? "Q".toList)
        let bit ← orRaise .indexError bits.head?
        return d.set (← feature pl) (flopNames names q.1 bit)

/-- `flops` -/
def flops (place : Placement) (design : Modules) : Except Error (Dict Str (List Str)) := do
  let (_, top) ← orRaise .noTop (top? design)
  top.cells.items.foldlM (addFlop place (namesOf top)) .empty

/-! ### Reading -/

/-- `present` -/
def present (lines : List Str) : List Str :=
  (lines.map strip).filter fun l => ".ZINI".toList.isSuffixOf l

/-- `0 if feat in present else 1` -/
def value (lines : List Str) (feat : Str) : ℤ := if feat ∈ present lines then 0 else 1

/-- The lines `read` prints: a name and its value. -/
def report (flops : Dict Str (List Str)) (lines : List Str) : List (Str × ℤ) :=
  (flops.items.insertionSort fun a b => le (a.2.headD []) (b.2.headD [])).flatMap fun q =>
    q.2.map fun n => (n, value lines q.1)

/-- The mode `read`. -/
def read (fasm : Str) (place : Placement) (design : Modules) : Except Error (List (Str × ℤ)) := do
  return report (← flops place design) (linesOf fasm)

/-! ### Writing -/

/-- One line of the state file. -/
def addWanted (want : Dict Str ℤ) (line : Str) : Except Error (Dict Str ℤ) :=
  match fields (line.takeWhile (· != '#')) with
  | [n, v] => do return want.set n (← orRaise (.valueError v) (int? v))
  | _ => .ok want

/-- `want` -/
def wanted (state : Str) : Except Error (Dict Str ℤ) := (linesOf state).foldlM addWanted .empty

/-- `by_name` -/
def byName (flops : Dict Str (List Str)) : Dict Str Str :=
  Dict.empty.update (flops.items.flatMap fun q => q.2.map fun n => (n, q.1))

/-- `edits` -/
def edits (flops : Dict Str (List Str)) (want : Dict Str ℤ) : Dict Str ℤ :=
  Dict.empty.update (want.items.filterMap fun q => ((byName flops).get? q.1).map fun f => (f, q.2))

/-- `out`: the lines that stay and the features that are added. -/
def edited (edits : Dict Str ℤ) (lines : List Str) : List Str :=
  (lines.filter fun l => (edits.get? (strip l)).getD 0 = 0) ++
    (edits.items.filter fun q => q.2 = 0 ∧ q.1 ∉ present lines).map Prod.fst

/-- The mode `write`: the FASM it prints. -/
def write (fasm : Str) (place : Placement) (design : Modules) (state : Str) : Except Error Str := do
  let flops ← flops place design
  let want ← wanted state
  return render (edited (edits flops want) (linesOf fasm))

/-! ### Features -/

/-- A text that is a feature of a flip-flop: one word that ends in `.ZINI`. -/
structure IsFeature (f : Str) : Prop where
  solid : Solid f
  suffix : ".ZINI".toList <:+ f

theorem isFeature_featureAt (pl : Place) (x : ℕ) : IsFeature (featureAt pl x) := by
  have hdigit : Solid (Nat.toDigits 10 (x % 2)) := by
    rcases Nat.mod_two_eq_zero_or_one x with h | h <;> rw [h] <;> decide
  refine ⟨?_, List.suffix_append _ _⟩
  unfold featureAt
  split_ifs
  all_goals
    exact (((((((pl.solid_tile.append (by decide)).append (by decide)).append (by decide)).append
      hdigit).append (by decide)).append pl.solid_bel).append (by decide))

theorem isFeature_of_addFlop {place : Placement} {names : Dict ℕ (List Str)}
    {d d' : Dict Str (List Str)} {q : Str × Cell} (h : addFlop place names d q = .ok d')
    (hd : ∀ f ∈ d, IsFeature f) : ∀ f ∈ d', IsFeature f := by
  unfold addFlop at h
  split_ifs at h
  · exact Except.ok.inj h ▸ hd
  split at h
  case h_1 => exact Except.ok.inj h ▸ hd
  case h_2 pl _ =>
    split_ifs at h
    · exact Except.ok.inj h ▸ hd
    simp only [feature, bind_eq_ok, orRaise_eq_ok, pure_eq_ok] at h
    obtain ⟨bits, -, bit, -, f, ⟨ds, -, x, -, rfl⟩, rfl⟩ := h
    intro f hf
    rcases Dict.mem_set.mp hf with rfl | hf
    · exact isFeature_featureAt pl x
    · exact hd f hf

theorem isFeature_of_mem_flops {place : Placement} {design : Modules} {fl : Dict Str (List Str)}
    (h : flops place design = .ok fl) : ∀ f ∈ fl, IsFeature f := by
  have hfold : ∀ {names} {qs : List (Str × Cell)} {d d' : Dict Str (List Str)},
      qs.foldlM (addFlop place names) d = .ok d' → (∀ f ∈ d, IsFeature f) →
        ∀ f ∈ d', IsFeature f := by
    intro names qs
    induction qs with
    | nil =>
      intro d d' h hd
      rw [List.foldlM_nil, pure_eq_ok] at h
      exact h ▸ hd
    | cons q qs ih =>
      intro d d' h hd
      rw [List.foldlM_cons, bind_eq_ok] at h
      obtain ⟨d₁, h₁, h⟩ := h
      exact ih h (isFeature_of_addFlop h₁ hd)
  simp only [flops, bind_eq_ok] at h
  obtain ⟨top, -, h⟩ := h
  exact hfold h fun f hf => absurd hf (Dict.not_mem_empty f)

end FfState
end Xc7Tools
