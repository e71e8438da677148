/-
# Aliases of the design's nets

The merge scripts leave out a netname of the spliced module when all of its
bits are ports' or constants, so that no net of the design gets a second name.
A netname that has a bit of the module's own besides one of a port's is added,
and that bit of the design is then named twice: `unaliased_iff` says that this
is the only way, for both scripts.

Key definitions: `Mixed`.
Key theorems: `unaliased_iff_of_portMap`, `unaliased_iff`.
-/
import Xc7Tools.Netlist.JtagCtlMerge
import Xc7Tools.Netlist.OpenilaMerge

namespace Xc7Tools

open Yosys Checked

/-- A netname of the spliced module has an id of the module's own, which no
port gives a bit, and one that a port gives a net of the design. -/
def Mixed (design : Modules) (given : Bit → Bit → Prop) (names : Dict Str NetName) : Prop :=
  ∃ n d, names.get? n = some d ∧ (∃ i, .net i ∈ d.bits ∧ ∀ c, ¬ given (.net i) c) ∧
    ∃ i j, .net i ∈ d.bits ∧ given (.net i) (.net j) ∧ Occurs design j

/-- What both scripts do, for the relation that the port map is. -/
theorem unaliased_iff_of_portMap {design : Modules} {portMap : Dict Bit Bit} {base : ℕ}
    (hbase : ∀ k, ¬ Occurs design (base + k)) {given : Bit → Bit → Prop}
    (hgiven : ∀ b c, portMap.get? b = some c ↔ given b c) (pfx : Str) (names : Dict Str NetName)
    (m : Module) :
    Unaliased design pfx portMap names (spliceNames pfx (portBit portMap base) portMap names m) ↔
      ¬ Mixed design given names := by
  have hown : ∀ {d : NetName}, skipped portMap d = false ↔
      ∃ i, .net i ∈ d.bits ∧ ∀ c, ¬ given (.net i) c := by
    intro d
    simp only [skipped_eq_false_iff, Dict.mem_iff, hgiven, not_exists]
  rw [unaliased_spliceNames_iff hbase]
  constructor
  · rintro h ⟨n, d, hd, hi, i, j, hj, hij, hocc⟩
    exact h n d hd (hown.mpr hi) i j hj ((hgiven _ _).mpr hij) hocc
  · intro h n d hd hs i j hi hij hocc
    exact h ⟨n, d, hd, hown.mp hs, i, j, hi, (hgiven _ _).mp hij, hocc⟩

/-- **No net of the design gets a second name exactly when** no netname of the
spliced module mixes the module's own nets with the design's. -/
theorem unaliased_iff (design : Netlist) :
    (∀ (a : OpenilaMerge.Args) (ila : Component OpenilaMerge.pins) (p : OpenilaMerge.Plan),
      OpenilaMerge.plan a design.modules ila.modules = .ok p →
        (Unaliased design.modules a.pfx p.portMap p.ila.netnames (p.spliced a.pfx) ↔
          ¬ Mixed design.modules (OpenilaMerge.Joined a p) p.ila.netnames)) ∧
    ∀ (a : JtagCtlMerge.Args) (ctl : Component JtagCtlMerge.pins) (p : JtagCtlMerge.Plan),
      JtagCtlMerge.plan a design.modules ctl.modules = .ok p →
        (Unaliased design.modules JtagCtlMerge.pfx p.portMap p.ctl.netnames
          (p.spliced a.bufgName) ↔
          ¬ Mixed design.modules (JtagCtlMerge.Attached a p) p.ctl.netnames) := by
  constructor
  · intro a ila p h
    obtain ⟨f⟩ := OpenilaMerge.plan_eq_ok h
    obtain ⟨k, hk⟩ := f.hila
    have hp := ila.distinct k p.ila hk
    exact unaliased_iff_of_portMap (f.not_occurs design) (fun b c => f.get?_portMap hp) _ _ _
  · intro a ctl p h
    have f := JtagCtlMerge.plan_eq_ok h
    obtain ⟨k, hk⟩ := f.ctl
    have hp := ctl.distinct k p.ctl hk
    exact unaliased_iff_of_portMap (f.not_occurs design) (fun b c => f.get?_portMap hp) _ _ _

theorem unaliased_sampler : ∃ p,
    OpenilaMerge.plan OpenilaMerge.probeQ OpenilaMerge.register.modules
      OpenilaMerge.samplerNetlist.modules = .ok p ∧
    (Unaliased OpenilaMerge.register.modules OpenilaMerge.probeQ.pfx p.portMap p.ila.netnames
      (p.spliced OpenilaMerge.probeQ.pfx) ↔
      ¬ Mixed OpenilaMerge.register.modules (OpenilaMerge.Joined OpenilaMerge.probeQ p)
        p.ila.netnames) := by
  obtain ⟨p, hp⟩ := exists_of_isOk (x := OpenilaMerge.plan OpenilaMerge.probeQ
    OpenilaMerge.register.modules OpenilaMerge.samplerNetlist.modules) (by decide)
  exact ⟨p, hp, (unaliased_iff OpenilaMerge.register).1 _ OpenilaMerge.samplerNetlist p hp⟩

/-- The sampler with a bus `w` of its register and its first probe bit. -/
def mixedSampler : Modules := ⟨[("openila".toList, { OpenilaMerge.sampler with
  netnames := OpenilaMerge.sampler.netnames.set "w".toList ⟨0, .empty, [.net 5, .net 3]⟩ })],
  by decide⟩

/-- With this bus the net of `q[0]` is named `ila.w[1]` too. -/
theorem probe_bit_aliased : ∃ p,
    OpenilaMerge.plan OpenilaMerge.probeQ OpenilaMerge.register.modules mixedSampler = .ok p ∧
    ¬ Unaliased OpenilaMerge.register.modules OpenilaMerge.probeQ.pfx p.portMap p.ila.netnames
      (p.spliced OpenilaMerge.probeQ.pfx) := by
  obtain ⟨p, hp⟩ := exists_of_isOk (x := OpenilaMerge.plan OpenilaMerge.probeQ
    OpenilaMerge.register.modules mixedSampler) (by decide)
  refine ⟨p, hp, fun h => ?_⟩
  have hw : (OpenilaMerge.plan OpenilaMerge.probeQ OpenilaMerge.register.modules
      mixedSampler).toOption.map (fun p => (p.ila.netnames.get? "w".toList,
        skipped p.portMap ⟨0, .empty, [.net 5, .net 3]⟩,
        (p.spliced OpenilaMerge.probeQ.pfx).netnames.get? "ila.w".toList)) =
      some (some ⟨0, .empty, [.net 5, .net 3]⟩, false, some ⟨0, .empty, [.net 9, .net 3]⟩) := by
    decide
  rw [hp] at hw
  obtain ⟨hname, hw⟩ := Prod.mk.inj (Option.some.inj hw)
  obtain ⟨hadded, hw⟩ := Prod.mk.inj hw
  obtain ⟨e, he, hfree⟩ := h _ _ hname hadded
  obtain rfl := Option.some.inj (hw.symm.trans he)
  exact hfree 3 (by simp) ⟨_, List.mem_singleton_self _, Or.inl (by decide)⟩

end Xc7Tools
