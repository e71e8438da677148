/-
# Splicing one netlist into another

What `openila_merge.py` and `jtag_ctl_merge.py` have in common. Ports of the
spliced module are attached to bits of the design: the port map is a
dictionary built from pairs of a port's bit and a bit of the design. Every
other id of the module becomes that id plus the base, constants stay, and the
cells and netnames are assigned into the design's top module under a prefix.

The map on bits is a gluing (`portBit_eq_glue`), so two bits meet in the copy
exactly when they are the same or their ports are attached to the same bit.

Key definitions: `portBit`, `spliceCells`, `skipped`, `spliceNames`,
`DistinctPorts`, `Component`.
Key theorems: `portBit_eq_iff`, `get?_spliceCells`, `get?_spliceNames`,
`unaliased_spliceNames_iff`.
-/
import Xc7Tools.Lib.Glue
import Xc7Tools.Netlist.Yosys

namespace Xc7Tools
namespace Yosys

/-! ### The map on bits -/

/-- `port_map.get(b, base + b)`, constants as they are. -/
def portBit (portMap : Dict Bit Bit) (base : ℕ) : Bit → Bit
  | .const s => .const s
  | .net i => (portMap.get? (.net i)).getD (.net (base + i))

/-- What a bit of the spliced module is given in the design. -/
def outer (portMap : Dict Bit Bit) : Bit → Option Bit
  | .const s => some (.const s)
  | .net i => portMap.get? (.net i)

/-- What a bit is in the output otherwise. -/
def own (base : ℕ) : Bit → Bit
  | .const s => .const s
  | .net i => .net (base + i)

theorem portBit_eq_glue (portMap : Dict Bit Bit) (base : ℕ) :
    portBit portMap base = glue (outer portMap) (own base) := by
  funext b
  cases b <;> rfl

theorem portBit_of_get? {portMap : Dict Bit Bit} {base i : ℕ} {c : Bit}
    (h : portMap.get? (.net i) = some c) : portBit portMap base (.net i) = c := by
  rw [portBit, h, Option.getD_some]

theorem portBit_of_not_mem {portMap : Dict Bit Bit} {base i : ℕ} (h : Bit.net i ∉ portMap) :
    portBit portMap base (.net i) = .net (base + i) := by
  rw [portBit, Dict.get?_eq_none.mpr h, Option.getD_none]

/-- When the design's bits are all below the base, two bits of the module meet
exactly when they are the same bit or are given the same bit of the design. -/
theorem portBit_eq_iff {portMap : Dict Bit Bit} {base : ℕ}
    (hlow : ∀ b i, portMap.get? b = some (.net i) → i < base) (a b : Bit) :
    portBit portMap base a = portBit portMap base b ↔
      a = b ∨ ∃ c, outer portMap a = some c ∧ outer portMap b = some c := by
  rw [portBit_eq_glue]
  refine glue_eq_iff (fun a b ha hb h => ?_) (fun a b c ha hb h => ?_) a b
  · cases a with
    | const s => cases ha
    | net i =>
      cases b with
      | const s => cases hb
      | net j =>
        simp only [own, Bit.net.injEq] at h
        rw [show i = j by omega]
  · cases a with
    | const s => cases ha
    | net i =>
      subst h
      cases b with
      | const s => cases hb
      | net j =>
        have := hlow _ _ hb
        omega

/-! ### Ports -/

/-- `{b: word[k] if k < len(word) else '0' for k, b in enumerate(port)}`, as
pairs. -/
def fillPort (word : List Bit) (port : List Bit) : List (Bit × Bit) :=
  port.zipIdx.map fun (b, k) => (b, (word[k]?).getD .zero)

theorem fillPort_keys (word port : List Bit) : (fillPort word port).map Prod.fst = port := by
  simp only [fillPort, List.map_map, Function.comp_def]
  exact List.zipIdx_map_fst 0 port

theorem mem_fillPort {word port : List Bit} {b c : Bit} :
    (b, c) ∈ fillPort word port ↔ ∃ k : ℕ, port[k]? = some b ∧ c = (word[k]?).getD .zero := by
  simp only [fillPort, List.mem_map, Prod.exists, Prod.mk.injEq, List.mem_zipIdx_iff_getElem?]
  constructor
  · rintro ⟨b', k, hk, rfl, rfl⟩
    exact ⟨k, hk, rfl⟩
  · rintro ⟨k, hk, rfl⟩
    exact ⟨b, k, hk, rfl, rfl⟩

/-- With different bits in the port, each is filled once. -/
theorem fillPort_unique {word port : List Bit} (hn : port.Nodup) {b c c' : Bit}
    (h : (b, c) ∈ fillPort word port) (h' : (b, c') ∈ fillPort word port) : c' = c := by
  obtain ⟨k, hk, rfl⟩ := mem_fillPort.mp h
  obtain ⟨k', hk', rfl⟩ := mem_fillPort.mp h'
  obtain ⟨hlt, -⟩ := List.getElem?_eq_some_iff.mp hk
  rw [(List.getElem?_inj hlt hn).mp (hk.trans hk'.symm)]

/-- The bits of these ports are nets, and no two of them the same. -/
structure DistinctPorts (pins : List Str) (m : Module) : Prop where
  nets : ∀ pin ∈ pins, ∀ b ∈ m.pinBits pin, b.isNet = true
  nodup : ∀ pin ∈ pins, (m.pinBits pin).Nodup
  disjoint : ∀ pin ∈ pins, ∀ pin' ∈ pins, pin ≠ pin' → ∀ b ∈ m.pinBits pin, b ∉ m.pinBits pin'

/-- A netlist to be spliced in. Yosys gives every bit of an input port, and of
an output port that a register drives, a net of its own. -/
structure Component (pins : List Str) where
  modules : Modules
  distinct : ∀ k m, top? modules = some (k, m) → DistinctPorts pins m

/-! ### Cells and netnames -/

/-- A copy of the cell with its connections mapped. -/
def Cell.mapBits (f : Bit → Bit) (c : Cell) : Cell :=
  { c with connections := c.connections.map (List.map f) }

/-- The netname as the scripts add it. -/
def NetName.mapBits (f : Bit → Bit) (d : NetName) : NetName := { d with bits := d.bits.map f }

/-- `top['cells'][prefix + cn] = c2` for every cell of the spliced module. -/
def spliceCells (pfx : Str) (f : Bit → Bit) (cells : Dict Str Cell) (m : Module) : Module :=
  { m with cells := m.cells.update (cells.items.map fun p => (pfx ++ p.1, p.2.mapBits f)) }

/-- `all(b in port_map or not isinstance(b, int) for b in d['bits'])`: the
scripts' reason to leave a netname out. -/
def skipped (portMap : Dict Bit Bit) (d : NetName) : Bool :=
  d.bits.all fun b => b ∈ portMap || !b.isNet

/-- `top['netnames'][prefix + n] = ...` for every netname that is not left
out. -/
def spliceNames (pfx : Str) (f : Bit → Bit) (portMap : Dict Bit Bit) (names : Dict Str NetName)
    (m : Module) : Module :=
  { m with netnames := m.netnames.update ((names.items.filter fun p => !skipped portMap p.2).map
      fun p => (pfx ++ p.1, p.2.mapBits f)) }

/-- Distinct names stay distinct under a prefix. -/
theorem nodup_prefixed (pfx : Str) {α β : Type*} (g : α → β) {ps : List (Str × α)}
    (h : (ps.map Prod.fst).Nodup) :
    ((ps.map fun p => (pfx ++ p.1, g p.2)).map Prod.fst).Nodup := by
  rw [List.map_map]
  rw [show (Prod.fst ∘ fun p : Str × α => (pfx ++ p.1, g p.2)) = (pfx ++ ·) ∘ Prod.fst from rfl,
    ← List.map_map]
  exact h.map (List.append_right_injective pfx)

theorem get?_spliceCells (pfx : Str) (f : Bit → Bit) {cells : Dict Str Cell} (m : Module)
    {n : Str} {c : Cell} (h : cells.get? n = some c) :
    (spliceCells pfx f cells m).cells.get? (pfx ++ n) = some (c.mapBits f) :=
  Dict.get?_update_of_mem _ (nodup_prefixed pfx _ cells.nodup)
    (List.mem_map.mpr ⟨(n, c), Dict.get?_eq_some.mp h, rfl⟩)

/-- A cell whose name is not one of the prefixed names stays. -/
theorem get?_spliceCells_of_ne (pfx : Str) (f : Bit → Bit) {cells : Dict Str Cell} (m : Module)
    {n : Str} (h : ∀ cn ∈ cells, pfx ++ cn ≠ n) :
    (spliceCells pfx f cells m).cells.get? n = m.cells.get? n := by
  refine Dict.get?_update_of_not_mem _ fun hn => ?_
  simp only [List.map_map, List.mem_map, Function.comp_apply] at hn
  obtain ⟨p, hp, rfl⟩ := hn
  exact h p.1 (List.mem_map.mpr ⟨p, hp, rfl⟩) rfl

theorem get?_spliceNames (pfx : Str) (f : Bit → Bit) (portMap : Dict Bit Bit)
    {names : Dict Str NetName} (m : Module) {n : Str} {d : NetName} (h : names.get? n = some d)
    (hs : skipped portMap d = false) :
    (spliceNames pfx f portMap names m).netnames.get? (pfx ++ n) = some (d.mapBits f) := by
  have hkept : (n, d) ∈ names.items.filter fun p => !skipped portMap p.2 :=
    List.mem_filter.mpr ⟨Dict.get?_eq_some.mp h, by rw [hs]; rfl⟩
  have hnodup := names.nodup.sublist
    ((List.filter_sublist (p := fun p => !skipped portMap p.2)).map Prod.fst)
  exact Dict.get?_update_of_mem _ (nodup_prefixed pfx (NetName.mapBits f) hnodup)
    (List.mem_map.mpr ⟨(n, d), hkept, rfl⟩)

/-- A netname that is not one of the names added stays. -/
theorem get?_spliceNames_of_ne (pfx : Str) (f : Bit → Bit) (portMap : Dict Bit Bit)
    {names : Dict Str NetName} (m : Module) {n : Str}
    (h : ∀ nn d, names.get? nn = some d → skipped portMap d = false → pfx ++ nn ≠ n) :
    (spliceNames pfx f portMap names m).netnames.get? n = m.netnames.get? n := by
  refine Dict.get?_update_of_not_mem _ fun hn => ?_
  simp only [List.map_map, List.mem_map, List.mem_filter, Function.comp_apply,
    Bool.not_eq_true'] at hn
  obtain ⟨p, ⟨hp, hs⟩, rfl⟩ := hn
  exact h p.1 p.2 (Dict.get?_eq_some.mpr hp) hs rfl

/-- A netname is added when it has an id that is no port's. -/
theorem skipped_eq_false_iff {portMap : Dict Bit Bit} {d : NetName} :
    skipped portMap d = false ↔ ∃ i, .net i ∈ d.bits ∧ Bit.net i ∉ portMap := by
  rw [skipped, List.all_eq_false]
  constructor
  · rintro ⟨b, hb, h⟩
    simp only [Bool.or_eq_true, decide_eq_true_eq, Bool.not_eq_true', not_or,
      Bool.not_eq_false] at h
    obtain ⟨i, rfl⟩ := Bit.exists_of_isNet h.2
    exact ⟨i, hb, h.1⟩
  · rintro ⟨i, hi, h⟩
    exact ⟨.net i, hi, by simpa [Bit.isNet] using h⟩

/-- No netname added for the spliced module has an id of the design. -/
def Unaliased (design : Modules) (pfx : Str) (portMap : Dict Bit Bit) (names : Dict Str NetName)
    (top : Module) : Prop :=
  ∀ n d, names.get? n = some d → skipped portMap d = false →
    ∃ e, top.netnames.get? (pfx ++ n) = some e ∧ ∀ j, .net j ∈ e.bits → ¬ Occurs design j

/-- A mapped netname has no id of the design exactly when none of its bits is a
port's that is given such an id. -/
theorem mapBits_unaliased_iff {design : Modules} {portMap : Dict Bit Bit} {base : ℕ}
    (hbase : ∀ k, ¬ Occurs design (base + k)) (d : NetName) :
    (∀ j, .net j ∈ (d.mapBits (portBit portMap base)).bits → ¬ Occurs design j) ↔
      ∀ i j, .net i ∈ d.bits → portMap.get? (.net i) = some (.net j) → ¬ Occurs design j := by
  constructor
  · intro h i j hi hj
    exact h j (List.mem_map.mpr ⟨.net i, hi, portBit_of_get? hj⟩)
  · intro h j hj
    obtain ⟨b, hb, e⟩ := List.mem_map.mp hj
    cases b with
    | const s => cases e
    | net i =>
      cases hc : portMap.get? (.net i) with
      | some c =>
        rw [portBit_of_get? hc] at e
        exact h i j hb (hc.trans (congrArg some e))
      | none =>
        rw [portBit_of_not_mem (Dict.get?_eq_none.mp hc)] at e
        cases e
        exact hbase i

/-- The splice is unaliased exactly when every netname it adds is. -/
theorem unaliased_spliceNames_iff {design : Modules} {portMap : Dict Bit Bit} {base : ℕ}
    (hbase : ∀ k, ¬ Occurs design (base + k)) (pfx : Str) (names : Dict Str NetName) (m : Module) :
    Unaliased design pfx portMap names (spliceNames pfx (portBit portMap base) portMap names m) ↔
      ∀ n d, names.get? n = some d → skipped portMap d = false →
        ∀ i j, .net i ∈ d.bits → portMap.get? (.net i) = some (.net j) → ¬ Occurs design j := by
  refine forall₄_congr fun n d hd hs => ?_
  rw [get?_spliceNames pfx (portBit portMap base) portMap m hd hs, ← mapBits_unaliased_iff hbase]
  simp

end Yosys
end Xc7Tools
