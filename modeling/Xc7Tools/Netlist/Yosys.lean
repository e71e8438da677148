/-
# Yosys netlists

The JSON netlists the merge scripts read and write, with the members the
scripts use: modules with ports, cells and netnames, whose bits are net ids
or constants. A member a script neither reads nor writes (a cell's `model`, a
netname's `offset`) stays with its object and is not modelled. Yosys writes
`attributes` and `hide_name` everywhere, so the defaults the scripts have for
them do not arise.

The scripts make up net ids above the largest one they find in netnames and
cell connections (`maxid`); since yosys lists every bit of a port in a netname
too, none of them occurs in the design (`Netlist.not_occurs`).

Key definitions: `Module`, `Occurs`, `Netlist`, `maxid`.
Key theorems: `Netlist.le_maxid`, `Netlist.not_occurs`.
-/
import Xc7Tools.Lib.Dict
import Xc7Tools.Lib.Str

namespace Xc7Tools
namespace Yosys

/-! ### The format -/

/-- A bit of a net: a net's id, or a constant `"0"`, `"1"`, `"x"`, `"z"`. -/
inductive Bit where
  | net (id : ℕ)
  | const (s : Str)
  deriving DecidableEq

/-- `isinstance(b, int)` -/
def Bit.isNet : Bit → Bool
  | .net _ => true
  | .const _ => false

theorem Bit.exists_of_isNet : ∀ {b : Bit}, b.isNet = true → ∃ i, b = .net i
  | .net i, _ => ⟨i, rfl⟩

/-- The constant `"0"`. -/
abbrev Bit.zero : Bit := .const ['0']

/-- A JSON value of an attribute or a parameter. -/
inductive Value where
  | str (s : Str)
  | num (n : ℤ)
  deriving DecidableEq

/-- Python's truth of a value. -/
def Value.truthy : Value → Bool
  | .str s => s ≠ []
  | .num n => n ≠ 0

structure Port where
  direction : Str
  bits : List Bit
  deriving DecidableEq

structure Cell where
  hideName : ℤ
  type : Str
  parameters : Dict Str Value
  attributes : Dict Str Value
  portDirections : Dict Str Str
  connections : Dict Str (List Bit)
  deriving DecidableEq

structure NetName where
  hideName : ℤ
  attributes : Dict Str Value
  bits : List Bit
  deriving DecidableEq

structure Module where
  attributes : Dict Str Value
  ports : Dict Str Port
  cells : Dict Str Cell
  netnames : Dict Str NetName
  deriving DecidableEq

/-- `design['modules']` -/
abbrev Modules := Dict Str Module

/-- `next(k for k, m in modules.items() if m.get('attributes', {}).get('top'))` -/
def top? (ms : Modules) : Option (Str × Module) :=
  ms.items.find? fun p => ((p.2.attributes.get? "top".toList).map Value.truthy).getD false

/-- The attributes of a top module. -/
def topAttr : Dict Str Value := ⟨[("top".toList, .num 1)], by decide⟩

theorem top?_mem {ms : Modules} {k : Str} {m : Module} (h : top? ms = some (k, m)) :
    ms.get? k = some m := Dict.get?_eq_some.mpr (List.mem_of_find?_eq_some h)

/-! ### Net ids -/

namespace Module

/-- The bits of the netnames and of the cell connections. -/
def bits (m : Module) : List Bit :=
  m.netnames.values.flatMap NetName.bits ++
    m.cells.values.flatMap fun c => c.connections.values.flatten

/-- The bits of the ports. -/
def portBits (m : Module) : List Bit := m.ports.values.flatMap Port.bits

/-- `bits_of` -/
def bitsOf (m : Module) (n : Str) : Option (List Bit) := (m.netnames.get? n).map NetName.bits

/-- The bits of one port. -/
def pinBits (m : Module) (pin : Str) : List Bit := ((m.ports.get? pin).map Port.bits).getD []

theorem pinBits_of_get? {m : Module} {pin : Str} {p : Port} (h : m.ports.get? pin = some p) :
    m.pinBits pin = p.bits := by
  rw [pinBits, h]
  rfl

theorem mem_pinBits_of_head? {m : Module} {pin : Str} {p : Port} {b : Bit}
    (h : m.ports.get? pin = some p) (hb : p.bits.head? = some b) : b ∈ m.pinBits pin :=
  pinBits_of_get? h ▸ List.mem_of_mem_head? hb

/-- The id occurs in a netname, a cell connection or a port. -/
def Occurs (m : Module) (i : ℕ) : Prop := .net i ∈ m.bits ∨ .net i ∈ m.portBits

theorem mem_bits_of_netname {m : Module} {n : Str} {d : NetName} {b : Bit}
    (h : m.netnames.get? n = some d) (hb : b ∈ d.bits) : b ∈ m.bits :=
  List.mem_append_left _ (List.mem_flatMap.mpr ⟨d, Dict.mem_values.mpr ⟨n, h⟩, hb⟩)

theorem mem_bits_of_bitsOf {m : Module} {n : Str} {bs : List Bit} (h : m.bitsOf n = some bs)
    {b : Bit} (hb : b ∈ bs) : b ∈ m.bits := by
  obtain ⟨d, hd, rfl⟩ := Option.map_eq_some_iff.mp h
  exact mem_bits_of_netname hd hb

theorem mem_bits_of_cell {m : Module} {n k : Str} {c : Cell} {bs : List Bit} {b : Bit}
    (h : m.cells.get? n = some c) (hk : c.connections.get? k = some bs) (hb : b ∈ bs) :
    b ∈ m.bits :=
  List.mem_append_right _ (List.mem_flatMap.mpr ⟨c, Dict.mem_values.mpr ⟨n, h⟩,
    List.mem_flatten.mpr ⟨bs, Dict.mem_values.mpr ⟨k, hk⟩, hb⟩⟩)

end Module

/-- The id occurs somewhere in the design. -/
def Occurs (ms : Modules) (i : ℕ) : Prop := ∃ m ∈ ms.values, m.Occurs i

/-- A netlist as yosys writes it: every bit of a port is listed in a netname of
its module. -/
structure Netlist where
  modules : Modules
  named : ∀ m ∈ modules.values, ∀ b ∈ m.portBits, b ∈ m.netnames.values.flatMap NetName.bits

/-- `maxid = max(maxid, b)`, when `b` is an id. -/
def maxBit (n : ℕ) : Bit → ℕ
  | .net i => max n i
  | .const _ => n

/-- The largest id in the netnames and cell connections, 0 if there is none. -/
def maxid (ms : Modules) : ℕ := (ms.values.flatMap Module.bits).foldl maxBit 0

theorem le_foldl_maxBit : ∀ (bs : List Bit) (n : ℕ),
    n ≤ bs.foldl maxBit n ∧ ∀ i, .net i ∈ bs → i ≤ bs.foldl maxBit n
  | [], n => ⟨le_rfl, fun _ h => by cases h⟩
  | b :: bs, n => by
    obtain ⟨h1, h2⟩ := le_foldl_maxBit bs (maxBit n b)
    have hn : n ≤ maxBit n b := by cases b <;> simp [maxBit]
    refine ⟨hn.trans h1, fun i hi => ?_⟩
    rcases List.mem_cons.mp hi with rfl | hi
    · exact (Nat.le_max_right n i).trans h1
    · exact h2 i hi

theorem le_maxid {ms : Modules} {m : Module} (hm : m ∈ ms.values) {i : ℕ}
    (h : .net i ∈ m.bits) : i ≤ maxid ms :=
  (le_foldl_maxBit _ 0).2 i (List.mem_flatMap.mpr ⟨m, hm, h⟩)

/-- In a netlist of yosys's the maximum covers the ports too. -/
theorem Netlist.le_maxid (d : Netlist) {i : ℕ} (h : Occurs d.modules i) : i ≤ maxid d.modules := by
  obtain ⟨m, hm, h | h⟩ := h
  · exact Yosys.le_maxid hm h
  · exact Yosys.le_maxid hm (List.mem_append_left _ (d.named m hm _ h))

/-- The ids the scripts make up: `base + k` with `base = maxid + 1`. -/
def base (ms : Modules) : ℕ := maxid ms + 1

theorem Netlist.not_occurs (d : Netlist) (k : ℕ) : ¬ Occurs d.modules (base d.modules + k) := by
  intro h
  have := d.le_maxid h
  simp only [base] at this
  omega

end Yosys
end Xc7Tools
