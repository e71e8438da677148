/-
# openila_merge: the design's own netlist

The ILA's cells and netnames are assigned into the dictionaries of the
design's top module, so a name that is there already is lost. The design
survives exactly when no prefixed name of the ILA is one of the design's
(`survives_iff`); a second ILA under the same prefix is where it is not
(`second_ila`).

Key definitions: `Survives`, `NoClash`.
Key theorems: `Found.mem_portMap`, `survives_iff`.
-/
import Xc7Tools.Netlist.OpenilaMerge

namespace Xc7Tools
namespace OpenilaMerge

open Yosys Checked

variable {a : Args} {design ila : Modules} {p : Plan}

/-- The design's netlist is in the output as it was, and one cell more for
each cell of the ILA. -/
structure Survives (design : Modules) (p : Plan) (out : Modules) : Prop where
  modules : ∀ k m, k ≠ p.topName → design.get? k = some m → out.get? k = some m
  top : ∃ top, out.get? p.topName = some top ∧
    (∀ n c, p.top.cells.get? n = some c → top.cells.get? n = some c) ∧
    (∀ n d, p.top.netnames.get? n = some d → top.netnames.get? n = some d) ∧
    top.cells.items.length = p.top.cells.items.length + p.ila.cells.items.length

/-- The bits of the ILA's ports that the script maps. -/
def mappedBits (ila : Module) : List Bit :=
  (ila.pinBits "clk".toList).take 1 ++ ila.pinBits "probe".toList

/-- The netname has an id of the ILA's own, so the script adds it. -/
def Own (ila : Module) (d : NetName) : Prop := ∃ i, .net i ∈ d.bits ∧ .net i ∉ mappedBits ila

/-- No cell and no netname that is added has a name of the design's. -/
structure NoClash (pfx : Str) (p : Plan) : Prop where
  cells : ∀ n ∈ p.ila.cells, pfx ++ n ∉ p.top.cells
  netnames : ∀ n d, p.ila.netnames.get? n = some d → Own p.ila d → pfx ++ n ∉ p.top.netnames

theorem Found.mem_portMap (f : Found a design ila p) {b : Bit} :
    b ∈ p.portMap ↔ b ∈ mappedBits p.ila := by
  have hclk : (p.ila.pinBits "clk".toList).take 1 = [f.pin] := by
    rw [Module.pinBits_of_get? f.hclkPort]
    obtain ⟨bs, hbs⟩ := List.head?_eq_some_iff.mp f.hpin
    rw [hbs]
    rfl
  rw [f.hportMap, Dict.mem_set, Dict.mem_update, fillPort_keys, mappedBits, hclk, f.probeBits]
  simp [Dict.not_mem_empty]

theorem Found.skipped_eq_false (f : Found a design ila p) {d : NetName} :
    skipped p.portMap d = false ↔ Own p.ila d := by
  simp only [skipped_eq_false_iff, f.mem_portMap, Own]

/-- An added netname has an id the design has not. -/
theorem Found.fresh_of_own (f : Found a design ila p) {d : NetName} (hd : Own p.ila d) :
    ∃ j, .net j ∈ (d.mapBits p.ilaBit).bits ∧ .net j ∉ p.top.bits := by
  obtain ⟨i, hi, hm⟩ := hd
  refine ⟨p.base + i, List.mem_map.mpr ⟨_, hi, ?_⟩, fun h => ?_⟩
  · exact portBit_of_not_mem fun h => hm (f.mem_portMap.mp h)
  · have := le_maxid (Dict.mem_values.mpr ⟨_, top?_mem f.htop⟩) h
    rw [f.hbase, base] at this
    omega

/-- The number of cells after the splice: only new names count. -/
theorem length_spliced_cells (pfx : Str) (p : Plan) :
    (p.spliced pfx).cells.items.length = p.top.cells.items.length + p.ila.cells.items.length ↔
      ∀ n ∈ p.ila.cells, pfx ++ n ∉ p.top.cells := by
  have hlen := Dict.length_update p.top.cells
    (nodup_prefixed pfx (Cell.mapBits p.ilaBit) p.ila.cells.nodup)
  have hcells : (p.spliced pfx).cells = p.top.cells.update
      (p.ila.cells.items.map fun q => (pfx ++ q.1, q.2.mapBits p.ilaBit)) := rfl
  rw [hcells, hlen, Nat.add_left_cancel_iff]
  conv_lhs => rhs; rw [← List.length_map (fun q => (pfx ++ q.1, q.2.mapBits p.ilaBit))]
  rw [List.countP_eq_length]
  constructor
  · intro h n hn
    obtain ⟨q, hq, rfl⟩ := List.mem_map.mp hn
    simpa using h _ (List.mem_map_of_mem hq)
  · intro h q hq
    obtain ⟨q', hq', rfl⟩ := List.mem_map.mp hq
    simpa using h q'.1 (List.mem_map_of_mem hq')

/-- **The design's netlist survives the splice exactly when no name clashes.** -/
theorem survives_iff (h : plan a design ila = .ok p) :
    Survives design p (p.output a.pfx design) ↔ NoClash a.pfx p := by
  obtain ⟨f⟩ := plan_eq_ok h
  have hout : (p.output a.pfx design).get? p.topName = some (p.spliced a.pfx) :=
    Dict.get?_set_self _ _ _
  constructor
  · rintro ⟨-, top, htop, -, hnames, hcount⟩
    obtain rfl := Option.some.inj (hout.symm.trans htop)
    refine ⟨(length_spliced_cells _ _).mp hcount, fun n d hd hown hn => ?_⟩
    obtain ⟨d₀, hd₀⟩ := Dict.mem_iff.mp hn
    have hadded : (p.spliced a.pfx).netnames.get? (a.pfx ++ n) = some (d.mapBits p.ilaBit) :=
      get?_spliceNames _ _ _ _ hd (f.skipped_eq_false.mpr hown)
    obtain rfl := Option.some.inj (hadded.symm.trans (hnames _ _ hd₀))
    obtain ⟨j, hj, hfresh⟩ := f.fresh_of_own hown
    exact hfresh (Module.mem_bits_of_netname hd₀ hj)
  · intro hc
    refine ⟨fun k m hk hm => ?_, p.spliced a.pfx, hout, fun n c hn => ?_, fun n d hn => ?_,
      (length_spliced_cells _ _).mpr hc.cells⟩
    · rw [Plan.output, Dict.get?_set_of_ne _ _ (Ne.symm hk), hm]
    · refine (get?_spliceCells_of_ne _ _ p.top fun cn hcn e => ?_).trans hn
      exact hc.cells cn hcn (e ▸ Dict.mem_iff.mpr ⟨c, hn⟩)
    · refine (get?_spliceNames_of_ne _ _ _ _ fun nn dd hdd hs e => ?_).trans hn
      exact hc.netnames nn dd hdd (f.skipped_eq_false.mp hs) (e ▸ Dict.mem_iff.mpr ⟨d, hn⟩)

theorem survives_sampler : ∃ p, plan probeQ register.modules samplerNetlist.modules = .ok p ∧
    (Survives register.modules p (p.output probeQ.pfx register.modules) ↔
      NoClash probeQ.pfx p) := by
  obtain ⟨p, hp⟩ := exists_of_isOk (x := plan probeQ register.modules samplerNetlist.modules)
    (by decide)
  exact ⟨p, hp, survives_iff hp⟩

/-- The register with the sampler on its output. -/
def instrumented : Modules :=
  match merge probeQ register.modules samplerNetlist.modules with
  | .ok (out, _) => out
  | .error _ => register.modules

/-- A second ILA under the default prefix takes the place of the first one. -/
theorem second_ila : ∃ p, plan probeQ instrumented samplerNetlist.modules = .ok p ∧
    ¬ Survives instrumented p (p.output probeQ.pfx instrumented) := by
  obtain ⟨p, hp⟩ := exists_of_isOk (x := plan probeQ instrumented samplerNetlist.modules)
    (by decide)
  refine ⟨p, hp, fun ⟨_, top, htop, _, _, hcount⟩ => ?_⟩
  have hlengths : (plan probeQ instrumented samplerNetlist.modules).toOption.map (fun p =>
      ((p.spliced probeQ.pfx).cells.items.length, p.top.cells.items.length,
        p.ila.cells.items.length)) = some (2, 2, 1) := by decide
  obtain rfl := Option.some.inj ((Dict.get?_set_self _ _ _).symm.trans htop)
  rw [hp] at hlengths
  simp only [Except.toOption, Option.map_some, Option.some.injEq, Prod.mk.injEq] at hlengths
  omega

end OpenilaMerge
end Xc7Tools
