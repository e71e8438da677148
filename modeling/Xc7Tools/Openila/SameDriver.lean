/-
# openila: the script and the GUI are one driver

Both arm the same gateware and read it. They build the same control word,
decode a status alike and group the probe bits alike at every WIDTH. The
header of a data scan they decode alike at a WIDTH that holds a status, which
the gateware asks for: below it the script's word ends inside the key and the
GUI reads on into the first sample. And the GUI counts the bits of a capture in
an `int`, which its own ranges of WIDTH and DEPTH overflow.

Key theorems: `same_driver`.
-/
import Xc7Tools.Openila.Gui
import Xc7Tools.Openila.ProbeMap

namespace Xc7Tools
namespace Openila

/-- A status is read alike from a data scan, and the samples. -/
def SameRead (cfg : IlaConfig) : Prop :=
  ∀ rx : BitVec ((cfg.depth + 1) * cfg.width), ∃ st samples,
    cfg.read (Bits.ofBits rx) = some (st, samples) ∧
      st.toStatus = (cfg.host.read false rx.toNat).1 ∧
      samples.map Bits.toNat = (cfg.host.read false rx.toNat).2

/-- The text of a map file gives the same buses. -/
def SameBuses (text : Str) (width : ℕ) : Prop :=
  (loadMap text).map (fun names => busesOf names width) =
    some (MainWindow.rebuildTriggerTable (MainWindow.loadMap text) width)

/-- **The two drivers are the same driver**, at a WIDTH that holds a status and with a capture
whose bits an `int` counts. -/
theorem same_driver {cfg : IlaConfig} {AW : ℕ} (h : 1 ≤ AW) (hd : cfg.depth = 2 ^ AW) :
    (∀ (mask value : BitVec cfg.width) (post : ℕ) (arm : Bool),
      (cfg.ctlWord (Bits.ofBits mask) (Bits.ofBits value) post arm).toNat =
        cfg.host.ctlWord mask.toNat value.toNat post arm.toNat) ∧
    (∀ rx : BitVec cfg.cw,
      (cfg.decodeStatus (Bits.ofBits rx) 0).toStatus = cfg.host.decodeStatus rx.toNat) ∧
    (AW + 11 ≤ cfg.width → (cfg.depth + 1) * cfg.width + 7 < 2 ^ 31 → SameRead cfg) ∧
    ∀ ls : List MapLine, SameBuses (mapText ls) cfg.width := by
  refine ⟨fun mask value post arm => ?_, fun rx => ?_, fun hW hint rx => ?_, fun ls => ?_⟩
  · rw [ctlWord_toNat h hd, toNat_ofBits, toNat_ofBits]
  · rw [decodeStatus_eq h hd, toNat_ofBits]
  · have hread := read_eq h hd hW hint (Bits.ofBits rx)
    rw [toNat_ofBits] at hread
    obtain ⟨⟨st, samples⟩, hr, hsame⟩ := Option.map_eq_some_iff.mp hread
    exact ⟨st, samples, hr, congrArg Prod.fst hsame, congrArg Prod.snd hsame⟩
  · exact busesOf_loadMap ls cfg.width

/-- A gateware of two samples of 12 bits, the least that hold a status. -/
theorem same_driver_twelve : SameRead ⟨12, 2, by decide, by decide⟩ ∧
    SameBuses (mapText [⟨1, "a[1]".toList, by decide, by decide, by decide⟩,
      ⟨0, "a[0]".toList, by decide, by decide, by decide⟩]) 12 :=
  have h := @same_driver ⟨12, 2, by decide, by decide⟩ 1 le_rfl rfl
  ⟨h.2.2.1 le_rfl (by decide), h.2.2.2 _⟩

/-- With words of 11 bits the key of the header ends in the first sample: the script finds it
whole, the GUI does not. The bits of 2 ^ 20 samples of 4096, the largest the GUI offers, are no
`int`. And a blank in a name stops the script, where the GUI passes over the line. -/
theorem not_same_driver : ¬ SameRead ⟨11, 2, by decide, by decide⟩ ∧
    ¬ SameRead ⟨4096, 2 ^ 20, by decide, by decide⟩ ∧ ¬ SameBuses "0 a b\n".toList 11 := by
  refine ⟨fun h => ?_, fun h => ?_, by unfold SameBuses; decide⟩
  · obtain ⟨st, samples, hr, hst, -⟩ := h (BitVec.ofNat _ (0x1A <<< 4 + 1 <<< 11))
    obtain ⟨rfl, -⟩ := Prod.mk.inj (Option.some.inj hr)
    have hkey := congrArg Status.keyOk hst
    revert hkey
    decide
  · obtain ⟨st, samples, hr, -⟩ := h 0
    rw [IlaConfig.read, if_neg (by decide)] at hr
    cases hr

end Openila
end Xc7Tools
