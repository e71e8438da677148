/-
# stage_rv64.sh: the images of a payload

What the check of the boot.json mode is for: the images lie in memory without
running into each other, and the firmware is handed the device tree. The
script compares neighbours of the sorted regions and looks at the first image
whose name ends in `.dtb`; `checkJson_iff` says that this decides it, for any
number of images that all have a load address and a file with something in it.

Key definitions: `Image`, `Loads`, `WellFormed`, `Bootable`.
Key theorems: `checkOverlaps_iff`, `checkDtb_iff`, `checkJson_iff`.
-/
import Mathlib.Data.Int.ConditionallyCompleteOrder
import Mathlib.Data.List.Pairwise
import Xc7Tools.Lib.Extents
import Xc7Tools.StageRv64.Script

namespace Xc7Tools
namespace StageRv64

open Str Checked Payload

/-! ### What is asked of a payload -/

/-- A file of the payload and the address it is loaded at. -/
structure Image where
  name : Str
  load : ℤ
  data : Bytes
  deriving DecidableEq

namespace Image

def stop (i : Image) : ℤ := i.load + i.data.length

def isDtb (i : Image) : Bool := ".dtb".toList.isSuffixOf i.name

/-- The tuple of `regs`. -/
def region (i : Image) : ℤ × ℤ × Str := (i.load, i.stop, i.name)

end Image

/-- The member `key` of boot.json is the hexadecimal number `a`. -/
def Sets (ms : List (Str × Json)) (key : Str) (a : ℤ) : Prop :=
  ∃ s, (Json.dict ms).get? key = some (.str s) ∧ int16? s = some a

/-- boot.json loads the image from the payload. -/
structure Loads (src : Src) (ms : List (Str × Json)) (i : Image) : Prop where
  image : i.name ∉ registers
  address : Sets ms i.name i.load
  file : src.files i.name = some i.data

/-- Every member but the registers is an image with something in it, and one at most is a device
tree. -/
structure WellFormed (src : Src) (ms : List (Str × Json)) : Prop where
  image : ∀ name v, (Json.dict ms).get? name = some v → name ∉ registers →
    ∃ i, Loads src ms i ∧ i.name = name ∧ i.data ≠ []
  oneDtb : ∀ i j, Loads src ms i → Loads src ms j → i.isDtb = true → j.isDtb = true →
    i.name = j.name

def magic : Bytes := [0xD0, 0x0D, 0xFE, 0xED]

/-- No two images share an address, and the firmware is handed the device tree. -/
structure Bootable (src : Src) (ms : List (Str × Json)) : Prop where
  apart : ∀ i j, Loads src ms i → Loads src ms j → i.name ≠ j.name →
    Disjoint (Set.Ico i.load i.stop) (Set.Ico j.load j.stop)
  dtb : ∀ i, Loads src ms i → i.isDtb = true → Sets ms "r1".toList i.load ∧ magic <+: i.data

/-! ### The images of a well-formed payload -/

theorem not_contains {name : Str} :
    (!registers.contains name) = true ↔ name ∉ registers := by
  rw [Bool.not_eq_true', ← Bool.not_eq_true, List.contains_iff_mem]

theorem intOfJson_ok {v : Json} {a : ℤ} :
    intOfJson v = .ok a ↔ ∃ s, v = .str s ∧ int16? s = some a := by
  cases v <;> simp [intOfJson]

/-- The members that are no registers, with their numbers and files. -/
def imagesOf (src : Src) (ms : List (Str × Json)) : List Image :=
  ((Json.dict ms).items.filter fun p => !registers.contains p.1).map fun p =>
    ⟨p.1, ((intOfJson p.2).toOption).getD 0, (src.files p.1).getD []⟩

section Images

variable {src : Src} {ms : List (Str × Json)}

theorem Loads.unique {i j : Image} (hi : Loads src ms i) (hj : Loads src ms j)
    (h : i.name = j.name) : i = j := by
  obtain ⟨s, hs, hload⟩ := hi.address
  obtain ⟨s', hs', hload'⟩ := hj.address
  rw [← h, hs] at hs'
  cases hs'
  have hl : i.load = j.load := Option.some.inj (hload.symm.trans hload')
  have hd : i.data = j.data := Option.some.inj (hi.file.symm.trans (h ▸ hj.file))
  cases i; cases j
  simp only at h hl hd
  subst h hl hd
  rfl

/-- The images in the order of boot.json are the images it loads. -/
theorem mem_imagesOf (h : WellFormed src ms) {i : Image} :
    i ∈ imagesOf src ms ↔ Loads src ms i := by
  have hread : ∀ {j : Image} {s : Str}, int16? s = some j.load → src.files j.name = some j.data →
      (⟨j.name, ((intOfJson (.str s)).toOption).getD 0, (src.files j.name).getD []⟩ : Image) = j :=
    fun {j s} hs hf => by
      rw [intOfJson_ok.mpr ⟨s, rfl, hs⟩, hf]
      rfl
  simp only [imagesOf, List.mem_map, List.mem_filter, not_contains]
  constructor
  · rintro ⟨⟨name, v⟩, ⟨hmem, hname⟩, rfl⟩
    obtain ⟨j, hj, rfl, -⟩ := h.image name v (Dict.get?_eq_some.mpr hmem) hname
    obtain ⟨s, hs, hload⟩ := hj.address
    have hv : v = .str s := Option.some.inj ((Dict.get?_eq_some.mpr hmem).symm.trans hs)
    subst hv
    exact (hread hload hj.file).symm ▸ hj
  · intro hi
    obtain ⟨s, hs, hload⟩ := hi.address
    exact ⟨(i.name, .str s), ⟨Dict.get?_eq_some.mp hs, hi.image⟩, hread hload hi.file⟩

theorem nodup_imagesOf : ((imagesOf src ms).map Image.name).Nodup := by
  have hsub : ((imagesOf src ms).map Image.name).Sublist (Json.dict ms).keys := by
    unfold imagesOf Dict.keys
    rw [List.map_map]
    exact List.filter_sublist.map _
  exact hsub.nodup (Json.dict ms).nodup

/-- `addrs` has the name and the address of each image. -/
theorem addrs_eq (h : WellFormed src ms) :
    addrs (.obj ms) = .ok ((imagesOf src ms).map fun i => (i.name, i.load)) := by
  unfold addrs imagesOf
  rw [List.map_map]
  apply mapM_eq_map
  intro p hp
  obtain ⟨hmem, hname⟩ := List.mem_filter.mp hp
  rw [not_contains] at hname
  obtain ⟨j, hj, hj', -⟩ := h.image p.1 p.2 (Dict.get?_eq_some.mpr hmem) hname
  obtain ⟨s, hs, hload⟩ := hj.address
  have hv : p.2 = .str s :=
    Option.some.inj ((Dict.get?_eq_some.mpr hmem).symm.trans (hj' ▸ hs))
  have hint : intOfJson p.2 = .ok j.load := intOfJson_ok.mpr ⟨s, hv, hload⟩
  rw [hint, Function.comp_apply, hint]
  rfl

/-- `regs` has the region of each image. -/
theorem regs_eq (h : WellFormed src ms) :
    ((imagesOf src ms).map fun i => (i.name, i.load)).mapM (region src) =
      .ok ((imagesOf src ms).map Image.region) := by
  have hmap : (imagesOf src ms).map Image.region =
      ((imagesOf src ms).map fun i => (i.name, i.load)).map
        fun p => (p.2, p.2 + (((src.files p.1).getD []).length : ℤ), p.1) := by
    rw [List.map_map]
    refine List.map_congr_left fun i hi => ?_
    simp only [Function.comp_apply, Image.region, Image.stop, ((mem_imagesOf h).mp hi).file,
      Option.getD_some]
  rw [hmap]
  apply mapM_eq_map
  intro p hp
  obtain ⟨i, hi, rfl⟩ := List.mem_map.mp hp
  unfold region
  rw [((mem_imagesOf h).mp hi).file]
  rfl

end Images

/-! ### The overlaps -/

theorem checkOverlaps_ok : ∀ regs : List (ℤ × ℤ × Str),
    checkOverlaps regs = .ok () ↔ regs.IsChain fun s t => s.2.1 ≤ t.1
  | [] => by simp [checkOverlaps]
  | [s] => by simp [checkOverlaps]
  | s :: t :: regs => by
    have ih := checkOverlaps_ok (t :: regs)
    rw [List.isChain_cons_cons]
    unfold checkOverlaps
    split_ifs with hlt
    · simp only [false_iff, not_and]
      intro hle
      exact absurd hlt (not_lt.mpr hle)
    · rw [ih]
      simp only [not_lt.mp hlt, true_and]

theorem regionLe_start {s t : ℤ × ℤ × Str} (h : regionLe s t = true) : s.1 ≤ t.1 := by
  unfold regionLe at h
  rw [Bool.or_eq_true, decide_eq_true_eq, Bool.and_eq_true, beq_iff_eq] at h
  rcases h with hlt | ⟨heq, -⟩
  · exact hlt.le
  · exact heq.le

theorem start_le_of_not {s t : ℤ × ℤ × Str} (h : ¬ regionLe s t = true) : t.1 ≤ s.1 := by
  by_contra hlt
  apply h
  unfold regionLe
  rw [decide_eq_true (not_le.mp hlt), Bool.true_or]

/-- The neighbours of the sorted regions decide for all of them. -/
theorem checkOverlaps_iff {regs : List (ℤ × ℤ × Str)} (h : ∀ s ∈ regs, s.1 < s.2.1) :
    checkOverlaps (regs.insertionSort fun s t => regionLe s t = true) = .ok () ↔
      regs.Pairwise (Extents.Apart (fun s => s.1) fun s => s.2.1) := by
  have hperm := List.perm_insertionSort (fun s t => regionLe s t = true) regs
  have hsorted : (regs.insertionSort fun s t => regionLe s t = true).Pairwise
      fun s t => s.1 ≤ t.1 :=
    Extents.pairwise_insertionSort Prod.fst (fun _ _ => regionLe_start)
      (fun _ _ => start_le_of_not) regs
  rw [checkOverlaps_ok,
    Extents.neighbours_iff_disjoint (fun s hs => h s (hperm.mem_iff.mp hs)) hsorted]
  exact hperm.pairwise_iff fun hst => hst.symm

theorem regions_nonempty {src : Src} {ms : List (Str × Json)} (h : WellFormed src ms) :
    ∀ s ∈ (imagesOf src ms).map Image.region, s.1 < s.2.1 := by
  intro s hs
  obtain ⟨i, hi, rfl⟩ := List.mem_map.mp hs
  have hload := (mem_imagesOf h).mp hi
  obtain ⟨s, hget, -⟩ := hload.address
  obtain ⟨j, hj, hname, hdata⟩ := h.image i.name _ hget hload.image
  rw [hj.unique hload hname] at hdata
  have hpos := List.length_pos_of_ne_nil hdata
  simp only [Image.region, Image.stop]
  omega

/-- Images of different names are apart two by two. -/
theorem pairwise_apart_iff {src : Src} {ms : List (Str × Json)} (h : WellFormed src ms) :
    ((imagesOf src ms).map Image.region).Pairwise
        (Extents.Apart (fun s => s.1) fun s => s.2.1) ↔
      ∀ i j, Loads src ms i → Loads src ms j → i.name ≠ j.name →
        Disjoint (Set.Ico i.load i.stop) (Set.Ico j.load j.stop) := by
  rw [List.pairwise_map]
  constructor
  · intro hp i j hi hj hne
    have hsymm : Std.Symm fun a b : Image =>
        Extents.Apart (fun s : ℤ × ℤ × Str => s.1) (fun s => s.2.1) a.region b.region :=
      ⟨fun a b hab => hab.symm⟩
    exact hp.forall ((mem_imagesOf h).mpr hi) ((mem_imagesOf h).mpr hj)
      fun e => hne (congrArg Image.name e)
  · intro hp
    have hnodup : ((imagesOf src ms).map Image.name).Nodup := nodup_imagesOf
    have hnames := List.pairwise_map.mp hnodup
    refine (List.Pairwise.and_mem.mp hnames).imp ?_
    rintro i j ⟨hi, hj, hne⟩
    exact hp i j ((mem_imagesOf h).mp hi) ((mem_imagesOf h).mp hj) hne

/-! ### The device tree -/

theorem checkDtb_iff {src : Src} {ms : List (Str × Json)} {i : Image} (hi : Loads src ms i) :
    checkDtb src (.obj ms) (i.name, i.load) = .ok () ↔
      Sets ms "r1".toList i.load ∧ magic <+: i.data := by
  have hdata : (src.files i.name).getD [] = i.data := by rw [hi.file, Option.getD_some]
  simp only [checkDtb, bind_eq_ok, orRaise_eq_ok, hdata, Sets]
  constructor
  · rintro ⟨v, hv, r1, hr1, h⟩
    obtain ⟨s, rfl, hs⟩ := intOfJson_ok.mp hr1
    split_ifs at h with hne hmagic
    · exact ⟨⟨s, hv, hs.trans (congrArg some (not_not.mp hne))⟩,
        List.prefix_iff_eq_take.mpr (not_not.mp hmagic).symm⟩
  · rintro ⟨⟨s, hv, hs⟩, hmagic⟩
    refine ⟨_, hv, i.load, intOfJson_ok.mpr ⟨s, rfl, hs⟩, ?_⟩
    have htake : i.data.take 4 = [0xD0, 0x0D, 0xFE, 0xED] :=
      (List.prefix_iff_eq_take.mp hmagic).symm
    rw [if_neg (not_not.mpr rfl), if_neg (not_not.mpr htake)]

section DeviceTree

variable {src : Src} {ms : List (Str × Json)} (h : WellFormed src ms)

include h

theorem no_dtb (hnone : ((imagesOf src ms).map fun i => (i.name, i.load)).find?
    (fun p => ".dtb".toList.isSuffixOf p.1) = none) (i : Image) (hi : Loads src ms i) :
    i.isDtb = false := by
  have hmem : (i.name, i.load) ∈ (imagesOf src ms).map fun i => (i.name, i.load) :=
    List.mem_map_of_mem ((mem_imagesOf h).mpr hi)
  exact Bool.eq_false_of_not_eq_true (List.find?_eq_none.mp hnone _ hmem)

/-- The image that is found is the only device tree. -/
theorem only_dtb {p : Str × ℤ} (hsome : ((imagesOf src ms).map fun i => (i.name, i.load)).find?
    (fun p => ".dtb".toList.isSuffixOf p.1) = some p) :
    ∃ i, Loads src ms i ∧ p = (i.name, i.load) ∧
      ∀ j, Loads src ms j ∧ j.isDtb = true ↔ j = i := by
  have hsuffix := List.find?_some hsome
  obtain ⟨i, hi, rfl⟩ := List.mem_map.mp (List.mem_of_find?_eq_some hsome)
  have hload : Loads src ms i := (mem_imagesOf h).mp hi
  have hdtb : i.isDtb = true := hsuffix
  refine ⟨i, hload, rfl, fun j => ⟨?_, ?_⟩⟩
  · rintro ⟨hj, hjdtb⟩
    exact hj.unique hload (h.oneDtb j i hj hload hjdtb hdtb)
  · rintro rfl
    exact ⟨hload, hdtb⟩

end DeviceTree

/-! ### The check -/

/-- **The check decides.** The boot.json of a well-formed payload passes if and only if its images
are disjoint and its device tree, if there is one, is one and is handed over in `r1`. -/
theorem checkJson_iff {src : Src} {ms : List (Str × Json)} (hjson : src.json = some (.obj ms))
    (h : WellFormed src ms) : checkJson src = .ok () ↔ Bootable src ms := by
  have hoverlaps := checkOverlaps_iff (regions_nonempty h)
  simp only [checkJson, bind_eq_ok, orRaise_eq_ok, hjson, Option.some.injEq, exists_eq_left',
    addrs_eq h, Except.ok.injEq, regs_eq h, hoverlaps, pairwise_apart_iff h]
  cases hfind : ((imagesOf src ms).map fun i => (i.name, i.load)).find?
      fun p => ".dtb".toList.isSuffixOf p.1 with
  | none =>
    constructor
    · rintro ⟨-, hapart, -⟩
      exact ⟨hapart, fun i hi hdtb => absurd hdtb (ne_true_of_eq_false (no_dtb h hfind i hi))⟩
    · intro hb
      exact ⟨(), hb.apart, rfl⟩
  | some p =>
    obtain ⟨i, hi, rfl, honly⟩ := only_dtb h hfind
    constructor
    · rintro ⟨-, hapart, hdtb⟩
      refine ⟨hapart, fun j hj hjdtb => ?_⟩
      rw [(honly j).mp ⟨hj, hjdtb⟩]
      exact (checkDtb_iff hi).mp hdtb
    · intro hb
      exact ⟨(), hb.apart, (checkDtb_iff hi).mpr (hb.dtb i hi ((honly i).mpr rfl).2)⟩

/-- The boot.json of a payload of two images, the device tree right before the kernel. -/
def smallJson : List (Str × Json) :=
  [("Image".toList, .str "0x80".toList), ("rv64.dtb".toList, .str "7b".toList),
    ("r1".toList, .str "0x7B".toList)]

def small : Src where
  files := Function.update (Function.update (fun _ => none) "Image".toList (some [1, 2, 3]))
    "rv64.dtb".toList (some [0xD0, 0x0D, 0xFE, 0xED, 0])
  json := some (.obj smallJson)

theorem checkJson_iff_small : checkJson small = .ok () ↔ Bootable small smallJson := by
  have hmem : ∀ name v, (Json.dict smallJson).get? name = some v → name ∉ registers →
      name = "Image".toList ∧ v = .str "0x80".toList ∨
        name = "rv64.dtb".toList ∧ v = .str "7b".toList := by
    intro name v hget hname
    have hitem := Dict.get?_eq_some.mp hget
    rcases List.mem_cons.mp hitem with heq | hitem
    · exact Or.inl ⟨congrArg Prod.fst heq, congrArg Prod.snd heq⟩
    rcases List.mem_cons.mp hitem with heq | hitem
    · exact Or.inr ⟨congrArg Prod.fst heq, congrArg Prod.snd heq⟩
    have hr1 : name = "r1".toList := congrArg Prod.fst (List.mem_singleton.mp hitem)
    rw [hr1] at hname
    exact absurd (by decide) hname
  have hdtb : ∀ i : Image, Loads small smallJson i → i.isDtb = true → i.name = "rv64.dtb".toList := by
    intro i hi hdtb
    obtain ⟨s, hs, -⟩ := hi.address
    rcases hmem _ _ hs hi.image with ⟨hname, -⟩ | ⟨hname, -⟩
    · rw [Image.isDtb, hname] at hdtb
      exact absurd hdtb (by decide)
    · exact hname
  apply checkJson_iff rfl
  constructor
  · intro name v hget hname
    rcases hmem name v hget hname with ⟨rfl, rfl⟩ | ⟨rfl, rfl⟩
    · exact ⟨⟨_, 128, [1, 2, 3]⟩, ⟨hname, ⟨_, hget, by decide⟩, by decide⟩, rfl, by decide⟩
    · exact ⟨⟨_, 123, [0xD0, 0x0D, 0xFE, 0xED, 0]⟩, ⟨hname, ⟨_, hget, by decide⟩, by decide⟩,
        rfl, by decide⟩
  · intro i j hi hj hi' hj'
    rw [hdtb i hi hi', hdtb j hj hj']

end StageRv64
end Xc7Tools
