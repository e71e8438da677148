/-
# stage_rv64.sh: what can be put back

The files the script saves are there under their `.rv32` names, as they first
were, after any runs in any order. The script also removes rootfs.cpio and
overwrites boot.bin or rv64.dtb, which it saves nowhere; and where one of the
three files it does save was missing at first, a run after the boot.json mode
saves the one that was staged. Apart from these it keeps its word
(`recoverable_iff`).

Key definitions: `Recoverable`, `Keeps`, `Restorable`.
Key theorems: `Inv.step`, `recoverable_iff`.
-/
import Xc7Tools.StageRv64.Script

namespace Xc7Tools
namespace StageRv64

open Str Checked Payload

/-- The checks let the run through. -/
def Run.accepted (r : Run) : Bool := (check r.mode r.src).isOk

/-! ### What is asked of the script -/

/-- What the script has touched of `F` is under its `.rv32` name, and nothing else is. -/
structure Recoverable (F : Dir) (d : Tftp) : Prop where
  kept : ∀ f c, F f = some c → f ∈ d.touched → d.files (rv32 f) = some c
  faithful : ∀ f c, d.files (rv32 f) = some c → F f = some c

/-- After every one of some runs the directory is recoverable, and a run that is refused leaves it
as it was. -/
def Keeps (F : Dir) (rs : List Run) : Prop :=
  (∀ k, Recoverable F (runs F (rs.take k))) ∧
    ∀ k r, rs[k]? = some r → r.accepted = false → runs F (rs.take (k + 1)) = runs F (rs.take k)

/-- Some run was accepted. -/
def ran (rs : List Run) : Bool := rs.any Run.accepted

/-- Some run of the mode was accepted. -/
def ranIn (mode : Mode) (rs : List Run) : Bool := rs.any fun r => r.accepted && r.mode = mode

/-- An accepted run in the boot.json mode, and an accepted run after it. -/
def again : List Run → Bool
  | [] => false
  | r :: rs => (r.accepted && r.mode = .bootJson && ran rs) || again rs

/-- The files that are never saved are not there for the runs to take, and the three that are
saved are there when one could be saved that was staged. -/
structure Restorable (F : Dir) (rs : List Run) : Prop where
  rootfs : ran rs = true → F "rootfs.cpio".toList = none
  bin : ranIn .bin rs = true → F "boot.bin".toList = none
  dtb : ranIn .bootJson rs = true → F "rv64.dtb".toList = none
  again : again rs = true → ∀ f ∈ saved, F f ≠ none

/-! ### Names -/

theorem rv32_inj {f g : Str} (h : rv32 f = rv32 g) : f = g := List.append_cancel_right h

/-- A name that ends otherwise is no `.rv32` name. -/
theorem ne_rv32 {g : Str} (h : g.getLast? ≠ some '2') (f : Str) : g ≠ rv32 f := by
  rintro rfl
  exact h (by simp [rv32])

/-! ### The commands -/

namespace Tftp

variable (d : Tftp) (c : Bytes)

theorem files_cp (f g : Str) : (d.cp c f).files g = if g = f then some c else d.files g :=
  Function.update_apply d.files f (some c) g

theorem files_rm (f g : Str) : (d.rm f).files g = if g = f then none else d.files g :=
  Function.update_apply d.files f none g

theorem mem_touch {f g : Str} :
    g ∈ d.touch f ↔ g ∈ d.touched ∨ (g = f ∧ (d.files f).isSome = true) := by
  unfold touch
  split_ifs with h
  · simp [h, or_comm]
  · simp [h]

theorem cpFrom_some {src : Src} {f : Str} {c : Bytes} (h : src.files f = some c) :
    d.cpFrom src f = d.cp c f := by
  rw [cpFrom, h]

end Tftp

theorem files_save (d : Tftp) (f g : Str) :
    (save d f).files g = if g = rv32 f then (d.files g).or (d.files f) else d.files g := by
  unfold save
  by_cases hg : g = rv32 f
  · subst hg
    rw [if_pos rfl]
    cases hf : d.files f <;> cases hr : d.files (rv32 f) <;> simp [Tftp.files_cp, hr]
  · rw [if_neg hg]
    split
    · rw [Tftp.files_cp, if_neg hg]
    · rfl

/-- Saving takes nothing away. -/
theorem touched_save (d : Tftp) (f : Str) : (save d f).touched = d.touched := by
  unfold save
  split
  · next hr => simp [Tftp.cp, Tftp.touch, hr]
  · rfl

/-- The directory after the saving. -/
theorem files_saved (d : Tftp) (g : Str) :
    (∀ f ∈ saved, (saved.foldl save d).files (rv32 f) = (d.files (rv32 f)).or (d.files f)) ∧
      ((∀ f ∈ saved, g ≠ rv32 f) → (saved.foldl save d).files g = d.files g) ∧
      (saved.foldl save d).touched = d.touched := by
  refine ⟨fun f hf => ?_, fun hg => ?_, ?_⟩
  · simp only [saved, List.mem_cons, List.not_mem_nil, or_false] at hf
    simp only [saved, List.foldl_cons, List.foldl_nil, files_save]
    rcases hf with rfl | rfl | rfl <;> simp [rv32]
  · simp only [saved, List.mem_cons, List.not_mem_nil, or_false, forall_eq_or_imp,
      forall_eq] at hg
    simp only [saved, List.foldl_cons, List.foldl_nil, files_save, hg.1, hg.2.1, hg.2.2, if_false]
  · simp only [saved, List.foldl_cons, List.foldl_nil, touched_save]

theorem files_cpAll (src : Src) (g : Str) : ∀ (fs : List Str) (d : Tftp),
    (∀ f ∈ fs, (src.files f).isSome = true) →
    (fs.foldl (fun d f => d.cpFrom src f) d).files g = if g ∈ fs then src.files g else d.files g
  | [], _, _ => rfl
  | f :: fs, d, h => by
    obtain ⟨c, hc⟩ := Option.isSome_iff_exists.mp (h f List.mem_cons_self)
    rw [List.foldl_cons, files_cpAll src g fs _ fun f hf => h f (List.mem_cons_of_mem _ hf),
      Tftp.cpFrom_some d hc, Tftp.files_cp]
    by_cases hg : g ∈ fs
    · simp [hg]
    · by_cases hgf : g = f
      · simp [hgf, hc]
      · simp [hg, hgf]

theorem mem_touched_cpAll (src : Src) (g : Str) : ∀ (fs : List Str) (d : Tftp), fs.Nodup →
    (∀ f ∈ fs, (src.files f).isSome = true) →
    (g ∈ (fs.foldl (fun d f => d.cpFrom src f) d).touched ↔
      g ∈ d.touched ∨ (g ∈ fs ∧ (d.files g).isSome = true))
  | [], _, _, _ => by simp
  | f :: fs, d, hn, h => by
    obtain ⟨c, hc⟩ := Option.isSome_iff_exists.mp (h f List.mem_cons_self)
    obtain ⟨hf, hn⟩ := List.nodup_cons.mp hn
    rw [List.foldl_cons, mem_touched_cpAll src g fs _ hn fun f hf => h f (List.mem_cons_of_mem _ hf),
      Tftp.cpFrom_some d hc, Tftp.files_cp]
    have htouch : g ∈ (d.cp c f).touched ↔ g ∈ d.touched ∨ (g = f ∧ (d.files f).isSome = true) :=
      d.mem_touch
    rw [htouch, List.mem_cons]
    by_cases hgf : g = f
    · subst hgf
      simp [hf]
    · simp [hgf]

namespace Tftp

variable {f g : Str}

/-- A file that is moved aside once and removed otherwise. -/
theorem files_mvOnce_rm (d : Tftp) (h : Str) : ((d.mvOnce f g).rm f).files h =
    if h = f then none else if h = g then (d.files g).or (d.files f) else d.files h := by
  rw [files_rm]
  by_cases hf : h = f
  · rw [if_pos hf, if_pos hf]
  rw [if_neg hf, if_neg hf]
  unfold mvOnce mv
  cases hdf : d.files f with
  | none =>
    by_cases hg : h = g
    · simp [hg]
    · simp [hg]
  | some c =>
    cases hdg : d.files g with
    | none => simp [files_rm, files_cp, hf]
    | some c' =>
      by_cases hg : h = g
      · simp [hg, hdg]
      · simp [hg]

theorem mem_touched_mvOnce_rm (hfg : f ≠ g) (d : Tftp) (h : Str) :
    h ∈ ((d.mvOnce f g).rm f).touched ↔
      h ∈ d.touched ∨ (h = f ∧ (d.files f).isSome = true) := by
  have hrm : ∀ (d : Tftp), h ∈ (d.rm f).touched ↔
      h ∈ d.touched ∨ (h = f ∧ (d.files f).isSome = true) := fun d => d.mem_touch
  have hcp : ∀ (d : Tftp) c, h ∈ (d.cp c g).touched ↔
      h ∈ d.touched ∨ (h = g ∧ (d.files g).isSome = true) := fun d c => d.mem_touch
  rw [hrm]
  unfold mvOnce mv
  cases hdf : d.files f with
  | none => simp [hdf]
  | some c =>
    cases hdg : d.files g with
    | none => simp [hrm, hcp, files_rm, files_cp, hfg, hdf, hdg]
    | some c' => simp [hdf]

end Tftp

/-! ### An accepted run -/

theorem present_of_checkPresent {src : Src} : ∀ {fs : List Str}, checkPresent src fs = .ok () →
    ∀ f ∈ fs, (src.files f).isSome = true
  | [], _, _, hf => by cases hf
  | f' :: fs, h, f, hf => by
    unfold checkPresent at h
    split_ifs at h with hs
    rcases List.mem_cons.mp hf with rfl | hf
    · exact hs
    · exact present_of_checkPresent h f hf

/-- What an accepted run does. -/
structure Staged (mode : Mode) (d d' : Tftp) : Prop where
  backup : ∀ f ∈ saved, d'.files (rv32 f) = (d.files (rv32 f)).or (d.files f)
  other : ∀ g ∉ saved, d'.files (rv32 g) = d.files (rv32 g)
  bin : mode ≠ .bootJson → (∀ f ∈ saved, d.files f = none → d'.files f = none) ∧
    d'.files "rv64.dtb".toList = d.files "rv64.dtb".toList
  bootJson : mode ≠ .bin → (∀ f ∈ saved, (d'.files f).isSome = true) ∧
    d'.files "boot.bin".toList = d.files "boot.bin".toList
  touched : ∀ f, f ∈ d'.touched ↔ f ∈ d.touched ∨ ((d.files f).isSome = true ∧
    (f = "rootfs.cpio".toList ∨
      mode = .bin ∧ (f = "boot.bin".toList ∨ f = "boot.json".toList) ∨
      mode = .bootJson ∧ f ∈ threeFiles))

/-- The directory with the saved files, without the old root file system. -/
theorem files_prepared (d : Tftp) {g : Str} (hg : g ≠ "rootfs.cpio".toList) :
    ((saved.foldl save d).rm "rootfs.cpio".toList).files g = (saved.foldl save d).files g := by
  rw [Tftp.files_rm, if_neg hg]

theorem mem_touched_prepared (d : Tftp) (g : Str) :
    g ∈ ((saved.foldl save d).rm "rootfs.cpio".toList).touched ↔
      g ∈ d.touched ∨ (g = "rootfs.cpio".toList ∧ (d.files g).isSome = true) := by
  have hrm : g ∈ ((saved.foldl save d).rm "rootfs.cpio".toList).touched ↔ _ :=
    (saved.foldl save d).mem_touch
  have hroot : (saved.foldl save d).files "rootfs.cpio".toList = d.files "rootfs.cpio".toList :=
    (files_saved d _).2.1 fun f _ => ne_rv32 (by decide) f
  rw [hrm, (files_saved d g).2.2, hroot]
  exact or_congr_right (and_congr_right fun h => by rw [h])

/-- A name that is no `.rv32` one is as it was before the saving. -/
theorem files_saved_of_last (d : Tftp) {g : Str} (hg : g.getLast? ≠ some '2') :
    (saved.foldl save d).files g = d.files g :=
  (files_saved d g).2.1 fun f _ => ne_rv32 hg f

theorem files_saved_rv32 (d : Tftp) {g : Str} (hg : g ∉ saved) :
    (saved.foldl save d).files (rv32 g) = d.files (rv32 g) :=
  (files_saved d (rv32 g)).2.1 fun _ hf he => hg (rv32_inj he ▸ hf)

theorem last_of_mem_saved : ∀ f ∈ saved, f.getLast? ≠ some '2' := by decide

theorem last_of_mem_threeFiles : ∀ f ∈ threeFiles, f.getLast? ≠ some '2' := by decide

theorem ne_of_mem_saved : ∀ f ∈ saved, f ≠ "boot.json.rv64-3file".toList ∧
    f ≠ "boot.bin".toList ∧ f ≠ "rootfs.cpio".toList := by decide

theorem ne_rootfs_of_mem_threeFiles : ∀ f ∈ threeFiles, f ≠ "rootfs.cpio".toList := by decide

theorem mem_threeFiles_cases : ∀ f ∈ threeFiles, f ∈ saved ∨ f = "rv64.dtb".toList := by decide

theorem mem_threeFiles_of_mem_saved : ∀ f ∈ saved, f ∈ threeFiles := by decide

theorem staged_bin {src : Src} (h : check .bin src = .ok ()) (d : Tftp) :
    Staged .bin d (staged .bin src d) := by
  obtain ⟨c, hc⟩ : ∃ c, src.files "boot.bin".toList = some c := by
    obtain ⟨c, hc, -⟩ := bind_eq_ok.mp h
    exact ⟨c, orRaise_eq_ok.mp hc⟩
  set d₁ := (saved.foldl save d).rm "rootfs.cpio".toList with hd₁
  have hd' : staged .bin src d = dropBootJson (d₁.cp c "boot.bin".toList) :=
    congrArg dropBootJson (Tftp.cpFrom_some d₁ hc)
  have hfiles : ∀ g, g ≠ "boot.json".toList → g ≠ "boot.json.rv64-3file".toList →
      g ≠ "boot.bin".toList → g ≠ "rootfs.cpio".toList →
      (staged .bin src d).files g = (saved.foldl save d).files g := by
    intro g h1 h2 h3 h4
    rw [hd', dropBootJson, Tftp.files_mvOnce_rm, if_neg h1, if_neg h2, Tftp.files_cp, if_neg h3,
      hd₁, files_prepared d h4]
  have hrv : ∀ f, (staged .bin src d).files (rv32 f) = (saved.foldl save d).files (rv32 f) :=
    fun f => hfiles _ (ne_rv32 (by decide) f).symm (ne_rv32 (by decide) f).symm
      (ne_rv32 (by decide) f).symm (ne_rv32 (by decide) f).symm
  refine ⟨fun f hf => ?_, fun g hg => ?_, fun _ => ⟨fun f hf hnone => ?_, ?_⟩,
    fun hm => absurd rfl hm, fun f => ?_⟩
  · rw [hrv, (files_saved d f).1 f hf]
  · rw [hrv, files_saved_rv32 d hg]
  · by_cases hj : f = "boot.json".toList
    · rw [hd', dropBootJson, Tftp.files_mvOnce_rm, if_pos hj]
    · have hne := ne_of_mem_saved f hf
      rw [hfiles f hj hne.1 hne.2.1 hne.2.2, files_saved_of_last d (last_of_mem_saved f hf), hnone]
  · rw [hfiles _ (by decide) (by decide) (by decide) (by decide),
      files_saved_of_last d (by decide)]
  · have hcp : f ∈ (d₁.cp c "boot.bin".toList).touched ↔ _ := d₁.mem_touch
    have hbin : d₁.files "boot.bin".toList = d.files "boot.bin".toList := by
      rw [hd₁, files_prepared d (by decide), files_saved_of_last d (by decide)]
    have hjson : (d₁.cp c "boot.bin".toList).files "boot.json".toList =
        d.files "boot.json".toList := by
      rw [Tftp.files_cp, if_neg (by decide), hd₁, files_prepared d (by decide),
        files_saved_of_last d (by decide)]
    rw [hd', dropBootJson, Tftp.mem_touched_mvOnce_rm (by decide), hcp, hbin, hjson, hd₁,
      mem_touched_prepared]
    constructor
    · rintro (((h | ⟨rfl, h⟩) | ⟨rfl, h⟩) | ⟨rfl, h⟩)
      · exact Or.inl h
      · exact Or.inr ⟨h, Or.inl rfl⟩
      · exact Or.inr ⟨h, Or.inr (Or.inl ⟨rfl, Or.inl rfl⟩)⟩
      · exact Or.inr ⟨h, Or.inr (Or.inl ⟨rfl, Or.inr rfl⟩)⟩
    · rintro (h | ⟨h, rfl | ⟨-, rfl | rfl⟩ | ⟨hm, -⟩⟩)
      · exact Or.inl (Or.inl (Or.inl h))
      · exact Or.inl (Or.inl (Or.inr ⟨rfl, h⟩))
      · exact Or.inl (Or.inr ⟨rfl, h⟩)
      · exact Or.inr ⟨rfl, h⟩
      · cases hm

theorem staged_bootJson {src : Src} (h : check .bootJson src = .ok ()) (d : Tftp) :
    Staged .bootJson d (staged .bootJson src d) := by
  have hsrc : ∀ f ∈ threeFiles, (src.files f).isSome = true := by
    obtain ⟨u, hu, -⟩ := bind_eq_ok.mp h
    exact present_of_checkPresent hu
  set d₁ := (saved.foldl save d).rm "rootfs.cpio".toList with hd₁
  have hfiles : ∀ g, (staged .bootJson src d).files g =
      if g ∈ threeFiles then src.files g else d₁.files g := fun g => files_cpAll src g _ d₁ hsrc
  have hrv : ∀ f, (staged .bootJson src d).files (rv32 f) =
      (saved.foldl save d).files (rv32 f) := by
    intro f
    have hnot : rv32 f ∉ threeFiles := fun hmem =>
      absurd rfl (ne_rv32 (last_of_mem_threeFiles _ hmem) f)
    rw [hfiles, if_neg hnot, hd₁, files_prepared d (ne_rv32 (by decide) f).symm]
  refine ⟨fun f hf => ?_, fun g hg => ?_, fun hm => absurd rfl hm, fun _ => ⟨fun f hf => ?_, ?_⟩,
    fun f => ?_⟩
  · rw [hrv, (files_saved d f).1 f hf]
  · rw [hrv, files_saved_rv32 d hg]
  · have hmem := mem_threeFiles_of_mem_saved f hf
    rw [hfiles, if_pos hmem]
    exact hsrc f hmem
  · rw [hfiles, if_neg (by decide), hd₁, files_prepared d (by decide),
      files_saved_of_last d (by decide)]
  · have htouched : f ∈ (staged .bootJson src d).touched ↔
        f ∈ d₁.touched ∨ (f ∈ threeFiles ∧ (d₁.files f).isSome = true) :=
      mem_touched_cpAll src f _ d₁ (by decide) hsrc
    have hf : f ∈ threeFiles → d₁.files f = d.files f := by
      intro hmem
      rw [hd₁, files_prepared d (ne_rootfs_of_mem_threeFiles f hmem),
        files_saved_of_last d (last_of_mem_threeFiles f hmem)]
    rw [htouched, hd₁, mem_touched_prepared]
    constructor
    · rintro ((h | ⟨rfl, h⟩) | ⟨hmem, h⟩)
      · exact Or.inl h
      · exact Or.inr ⟨h, Or.inl rfl⟩
      · exact Or.inr ⟨hf hmem ▸ h, Or.inr (Or.inr ⟨rfl, hmem⟩)⟩
    · rintro (h | ⟨h, rfl | ⟨hm, -⟩ | ⟨-, hmem⟩⟩)
      · exact Or.inl (Or.inl h)
      · exact Or.inl (Or.inr ⟨rfl, h⟩)
      · cases hm
      · exact Or.inr ⟨hmem, (hf hmem).symm ▸ h⟩

/-! ### Any runs -/

theorem ran_concat (rs : List Run) (r : Run) : ran (rs ++ [r]) = (ran rs || r.accepted) := by
  simp [ran]

theorem ranIn_concat (mode : Mode) (rs : List Run) (r : Run) :
    ranIn mode (rs ++ [r]) = (ranIn mode rs || (r.accepted && r.mode = mode)) := by
  simp [ranIn]

theorem not_ranIn_concat {mode : Mode} {rs : List Run} {r : Run} (ha : r.accepted = true)
    (h : ranIn mode (rs ++ [r]) = false) : ranIn mode rs = false ∧ r.mode ≠ mode := by
  rw [ranIn_concat, ha, Bool.or_eq_false_iff] at h
  exact ⟨h.1, of_decide_eq_false h.2⟩

theorem again_concat (r : Run) : ∀ rs : List Run,
    again (rs ++ [r]) = (again rs || (ranIn .bootJson rs && r.accepted))
  | [] => by simp [again, ran, ranIn]
  | r' :: rs => by
    have hran : ranIn .bootJson (r' :: rs) =
        ((r'.accepted && r'.mode = .bootJson) || ranIn .bootJson rs) := by simp [ranIn]
    rw [List.cons_append, again, again, again_concat r rs, ran_concat, hran]
    cases r'.accepted && decide (r'.mode = .bootJson) <;> cases r.accepted <;> simp [Bool.or_comm]

theorem again_of_take : ∀ (rs : List Run) (k : ℕ), again (rs.take k) = true → again rs = true
  | _, 0, h => by simp [again] at h
  | [], _ + 1, h => h
  | r :: rs, k + 1, h => by
    rw [List.take_succ_cons, again] at h
    rw [again]
    rcases Bool.or_eq_true_iff.mp h with h | h
    · obtain ⟨hr, h⟩ := Bool.and_eq_true_iff.mp h
      obtain ⟨r', hr', h⟩ := List.any_eq_true.mp h
      rw [hr, show ran rs = true from List.any_eq_true.mpr ⟨r', List.mem_of_mem_take hr', h⟩]
      rfl
    · rw [again_of_take rs k h, Bool.or_true]

/-- The files that are taken and saved nowhere. -/
def Unsaved (rs : List Run) (f : Str) : Prop :=
  (f = "rootfs.cpio".toList ∧ ran rs = true) ∨ (f = "boot.bin".toList ∧ ranIn .bin rs = true) ∨
    (f = "rv64.dtb".toList ∧ ranIn .bootJson rs = true)

/-- What holds after some runs in a directory that held `F`. -/
structure Inv (F : Dir) (rs : List Run) (d : Tftp) : Prop where
  fresh : ran rs = false → d = ⟨F, []⟩
  other : ∀ g ∉ saved, d.files (rv32 g) = none
  first : ran rs = true → ∀ f ∈ saved, F f ≠ none → d.files (rv32 f) = F f
  absent : ranIn .bootJson rs = false → ∀ f ∈ saved, F f = none → d.files f = none
  staged : ranIn .bootJson rs = true → ∀ f ∈ saved,
    (d.files f).isSome = true ∨ (d.files (rv32 f)).isSome = true
  once : again rs = false → ∀ f ∈ saved, F f = none → d.files (rv32 f) = none
  second : again rs = true → ∀ f ∈ saved, (d.files (rv32 f)).isSome = true
  bin : ranIn .bin rs = false → d.files "boot.bin".toList = F "boot.bin".toList
  dtb : ranIn .bootJson rs = false → d.files "rv64.dtb".toList = F "rv64.dtb".toList
  within : ∀ f ∈ d.touched, (ran rs = true ∧ f ∈ saved) ∨ Unsaved rs f
  lost : ∀ f, Unsaved rs f → (F f).isSome = true → f ∈ d.touched

theorem Inv.start {F : Dir} (hF : ∀ f, F (rv32 f) = none) : Inv F [] ⟨F, []⟩ where
  fresh _ := rfl
  other g _ := hF g
  first h := by cases h
  absent _ _ _ h := h
  staged h := by cases h
  once _ f _ _ := hF f
  second h := by cases h
  bin _ := rfl
  dtb _ := rfl
  within f h := by cases h
  lost f h := by rcases h with ⟨_, h⟩ | ⟨_, h⟩ | ⟨_, h⟩ <;> cases h

theorem script_of_refused {r : Run} (h : r.accepted = false) (d : Tftp) : (script r d).2 = d := by
  unfold script
  unfold Run.accepted at h
  cases hc : check r.mode r.src with
  | error e => rfl
  | ok u =>
    rw [hc] at h
    cases h

theorem script_of_accepted {r : Run} (h : r.accepted = true) (d : Tftp) :
    Staged r.mode d (script r d).2 := by
  obtain ⟨mode, src⟩ := r
  have hc : check mode src = .ok () := by
    unfold Run.accepted at h
    cases hc : check mode src with
    | ok u => rfl
    | error e =>
      rw [hc] at h
      cases h
  have hd : (script ⟨mode, src⟩ d).2 = StageRv64.staged mode src d := by simp only [script, hc]
  rw [hd]
  cases mode with
  | bin => exact staged_bin hc d
  | bootJson => exact staged_bootJson hc d

/-- A file that is taken and saved nowhere is still the first one. -/
theorem Inv.files_of_unsaved {F : Dir} {rs : List Run} {d : Tftp} (h : Inv F rs d) {f : Str}
    (hf : f ∈ ["rootfs.cpio".toList, "boot.bin".toList, "rv64.dtb".toList])
    (hn : ¬ Unsaved rs f) : d.files f = F f := by
  simp only [List.mem_cons, List.not_mem_nil, or_false] at hf
  rcases hf with rfl | rfl | rfl
  · have hr : ran rs = false := Bool.eq_false_iff.mpr fun hr => hn (Or.inl ⟨rfl, hr⟩)
    rw [h.fresh hr]
  · exact h.bin (Bool.eq_false_iff.mpr fun hr => hn (Or.inr (Or.inl ⟨rfl, hr⟩)))
  · exact h.dtb (Bool.eq_false_iff.mpr fun hr => hn (Or.inr (Or.inr ⟨rfl, hr⟩)))

/-- What an accepted run touches is saved, or is newly taken and saved nowhere. -/
theorem taken_cases {mode : Mode} {rs : List Run} {r : Run} (ha : r.accepted = true)
    (hm : r.mode = mode) {f : Str} (h : f = "rootfs.cpio".toList ∨
      mode = .bin ∧ (f = "boot.bin".toList ∨ f = "boot.json".toList) ∨
      mode = .bootJson ∧ f ∈ threeFiles) : f ∈ saved ∨ Unsaved (rs ++ [r]) f := by
  unfold Unsaved
  rw [ran_concat, ranIn_concat, ranIn_concat, ha, hm]
  rcases h with rfl | ⟨rfl, rfl | rfl⟩ | ⟨rfl, h⟩
  · simp
  · simp
  · exact Or.inl (by decide)
  · rcases mem_threeFiles_cases f h with h | rfl
    · exact Or.inl h
    · simp

theorem Unsaved.concat {rs : List Run} {f : Str} (h : Unsaved rs f) (r : Run) :
    Unsaved (rs ++ [r]) f := by
  unfold Unsaved at h ⊢
  rw [ran_concat, ranIn_concat, ranIn_concat]
  rcases h with ⟨hf, h⟩ | ⟨hf, h⟩ | ⟨hf, h⟩ <;> simp [hf, h]

/-- What becomes taken and saved nowhere, the run takes. -/
theorem taken_of_unsaved {rs : List Run} {r : Run} {f : Str}
    (h : Unsaved (rs ++ [r]) f) (hn : ¬ Unsaved rs f) : r.accepted = true ∧
      (f = "rootfs.cpio".toList ∨
        r.mode = .bin ∧ (f = "boot.bin".toList ∨ f = "boot.json".toList) ∨
        r.mode = .bootJson ∧ f ∈ threeFiles) := by
  unfold Unsaved at h hn
  rw [ran_concat, ranIn_concat, ranIn_concat] at h
  obtain ⟨hr, hb, hd⟩ := not_or.mp hn |>.imp_right not_or.mp
  rcases h with ⟨hf, h⟩ | ⟨hf, h⟩ | ⟨hf, h⟩
  · have ha := (Bool.or_eq_true_iff.mp h).resolve_left fun h => hr ⟨hf, h⟩
    exact ⟨ha, Or.inl hf⟩
  · obtain ⟨ha, hm⟩ := Bool.and_eq_true_iff.mp
      ((Bool.or_eq_true_iff.mp h).resolve_left fun h => hb ⟨hf, h⟩)
    exact ⟨ha, Or.inr (Or.inl ⟨of_decide_eq_true hm, Or.inl hf⟩)⟩
  · obtain ⟨ha, hm⟩ := Bool.and_eq_true_iff.mp
      ((Bool.or_eq_true_iff.mp h).resolve_left fun h => hd ⟨hf, h⟩)
    exact ⟨ha, Or.inr (Or.inr ⟨of_decide_eq_true hm, hf ▸ (by decide)⟩)⟩

/-- The list of the files that a run saves nowhere. -/
theorem Unsaved.mem {rs : List Run} {f : Str} (h : Unsaved rs f) :
    f ∈ ["rootfs.cpio".toList, "boot.bin".toList, "rv64.dtb".toList] := by
  rcases h with ⟨rfl, -⟩ | ⟨rfl, -⟩ | ⟨rfl, -⟩
  · exact List.mem_cons_self
  · exact List.mem_cons_of_mem _ List.mem_cons_self
  · exact List.mem_cons_of_mem _ (List.mem_cons_of_mem _ List.mem_cons_self)

/-- The invariant through an accepted run. -/
theorem Inv.accepted {F : Dir} {rs : List Run} {d d' : Tftp} (hF : ∀ f, F (rv32 f) = none)
    (h : Inv F rs d) {r : Run} (ha : r.accepted = true) (hs : Staged r.mode d d') :
    Inv F (rs ++ [r]) d' := by
  have hran : ran (rs ++ [r]) = true := by rw [ran_concat, ha, Bool.or_true]
  have hagain : again (rs ++ [r]) = (again rs || ranIn .bootJson rs) := by
    rw [again_concat, ha, Bool.and_true]
  refine ⟨fun hr => ?_, fun g hg => ?_, fun _ f hf hFf => ?_, fun hr f hf hFf => ?_,
    fun hr f hf => ?_, fun hr f hf hFf => ?_, fun hr f hf => ?_, fun hr => ?_, fun hr => ?_,
    fun f hf => ?_, fun f hu hFf => ?_⟩
  · rw [hran] at hr
    cases hr
  · rw [hs.other g hg, h.other g hg]
  · rw [hs.backup f hf]
    cases hr : ran rs with
    | true =>
      rw [h.first hr f hf hFf]
      exact Option.or_of_isSome (Option.isSome_iff_ne_none.mpr hFf)
    | false =>
      rw [h.fresh hr]
      exact (congrArg (·.or (F f)) (hF f)).trans Option.none_or
  · obtain ⟨hr, hm⟩ := not_ranIn_concat ha hr
    exact (hs.bin hm).1 f hf (h.absent hr f hf hFf)
  · cases hm : r.mode with
    | bootJson => exact Or.inl ((hs.bootJson (by rw [hm]; nofun)).1 f hf)
    | bin =>
      have hr : ranIn .bootJson rs = true := by simpa [ranIn_concat, hm] using hr
      rw [hs.backup f hf, Option.isSome_or, Bool.or_eq_true_iff]
      exact Or.inr (h.staged hr f hf).symm
  · rw [hagain, Bool.or_eq_false_iff] at hr
    rw [hs.backup f hf, h.once hr.1 f hf hFf, h.absent hr.2 f hf hFf, Option.none_or]
  · rw [hs.backup f hf, Option.isSome_or, Bool.or_eq_true_iff]
    rw [hagain, Bool.or_eq_true_iff] at hr
    rcases hr with hr | hr
    · exact Or.inl (h.second hr f hf)
    · exact (h.staged hr f hf).symm
  · obtain ⟨hr, hm⟩ := not_ranIn_concat ha hr
    rw [(hs.bootJson hm).2, h.bin hr]
  · obtain ⟨hr, hm⟩ := not_ranIn_concat ha hr
    rw [(hs.bin hm).2, h.dtb hr]
  · rcases (hs.touched f).mp hf with hf | ⟨-, hf⟩
    · exact (h.within f hf).imp (fun hf => ⟨hran, hf.2⟩) fun hu => hu.concat r
    · exact (taken_cases ha rfl hf).imp_left fun hf => ⟨hran, hf⟩
  · apply (hs.touched f).mpr
    by_cases hn : Unsaved rs f
    · exact Or.inl (h.lost f hn hFf)
    · exact Or.inr ⟨(h.files_of_unsaved hu.mem hn).symm ▸ hFf, (taken_of_unsaved hu hn).2⟩

theorem Inv.refused {F : Dir} {rs : List Run} {d : Tftp} (h : Inv F rs d) {r : Run}
    (ha : r.accepted = false) : Inv F (rs ++ [r]) d := by
  have hran : ran (rs ++ [r]) = ran rs := by rw [ran_concat, ha, Bool.or_false]
  have hin : ∀ m, ranIn m (rs ++ [r]) = ranIn m rs := fun m => by
    rw [ranIn_concat, ha, Bool.false_and, Bool.or_false]
  have hagain : again (rs ++ [r]) = again rs := by
    rw [again_concat, ha, Bool.and_false, Bool.or_false]
  have hun : ∀ f, Unsaved (rs ++ [r]) f ↔ Unsaved rs f := fun f => by
    unfold Unsaved
    rw [hran, hin, hin]
  exact {
    fresh := hran ▸ h.fresh
    other := h.other
    first := hran ▸ h.first
    absent := hin .bootJson ▸ h.absent
    staged := hin .bootJson ▸ h.staged
    once := hagain ▸ h.once
    second := hagain ▸ h.second
    bin := hin .bin ▸ h.bin
    dtb := hin .bootJson ▸ h.dtb
    within := fun f hf => (h.within f hf).imp (fun hf => ⟨hran.trans hf.1, hf.2⟩) (hun f).mpr
    lost := fun f hu => h.lost f ((hun f).mp hu) }

theorem Inv.step {F : Dir} {rs : List Run} {d : Tftp} (hF : ∀ f, F (rv32 f) = none)
    (h : Inv F rs d) (r : Run) : Inv F (rs ++ [r]) (script r d).2 := by
  cases ha : r.accepted with
  | true => exact h.accepted hF ha (script_of_accepted ha d)
  | false =>
    rw [script_of_refused ha]
    exact h.refused ha

theorem Inv.runs {F : Dir} (hF : ∀ f, F (rv32 f) = none) (rs : List Run) :
    Inv F rs (runs F rs) := by
  induction rs using List.reverseRecOn with
  | nil => exact Inv.start hF
  | append_singleton rs r ih =>
    unfold StageRv64.runs
    rw [List.foldl_concat]
    exact ih.step hF r

/-- One directory after some runs. -/
theorem recoverable_runs {F : Dir} (hF : ∀ f, F (rv32 f) = none) (rs : List Run) :
    Recoverable F (runs F rs) ↔ Restorable F rs := by
  have h := Inv.runs hF rs
  constructor
  · intro hrec
    have hlost : ∀ f, f ∉ saved → Unsaved rs f → F f = none := by
      intro f hf hu
      by_contra hne
      obtain ⟨c, hc⟩ := Option.ne_none_iff_exists'.mp hne
      have hkept := hrec.kept f c hc (h.lost f hu (by rw [hc]; rfl))
      rw [h.other f hf] at hkept
      cases hkept
    refine ⟨fun hr => hlost _ (by decide) (Or.inl ⟨rfl, hr⟩),
      fun hr => hlost _ (by decide) (Or.inr (Or.inl ⟨rfl, hr⟩)),
      fun hr => hlost _ (by decide) (Or.inr (Or.inr ⟨rfl, hr⟩)), fun hr f hf hnone => ?_⟩
    obtain ⟨c, hc⟩ := Option.isSome_iff_exists.mp (h.second hr f hf)
    have hfaith := hrec.faithful f c hc
    rw [hnone] at hfaith
    cases hfaith
  · intro hres
    refine ⟨fun f c hc hf => ?_, fun f c hc => ?_⟩
    · rcases h.within f hf with ⟨hr, hf⟩ | hu
      · rw [h.first hr f hf (by rw [hc]; nofun), hc]
      · have hnone : F f = none := by
          rcases hu with ⟨rfl, hr⟩ | ⟨rfl, hr⟩ | ⟨rfl, hr⟩
          · exact hres.rootfs hr
          · exact hres.bin hr
          · exact hres.dtb hr
        rw [hnone] at hc
        cases hc
    · by_cases hf : f ∈ saved
      · cases hr : ran rs with
        | false =>
          rw [h.fresh hr] at hc
          exact absurd (hc.symm.trans (hF f)) nofun
        | true =>
          by_cases hFf : F f = none
          · have hag : again rs = false := Bool.eq_false_iff.mpr fun ha => hres.again ha f hf hFf
            rw [h.once hag f hf hFf] at hc
            cases hc
          · rw [← h.first hr f hf hFf, hc]
      · rw [h.other f hf] at hc
        cases hc

/-- Fewer runs take less. -/
theorem Restorable.take {F : Dir} {rs : List Run} (h : Restorable F rs) (k : ℕ) :
    Restorable F (rs.take k) := by
  have hany : ∀ p : Run → Bool, (rs.take k).any p = true → rs.any p = true := fun p hp => by
    obtain ⟨r, hr, hp⟩ := List.any_eq_true.mp hp
    exact List.any_eq_true.mpr ⟨r, List.mem_of_mem_take hr, hp⟩
  exact ⟨fun hr => h.rootfs (hany _ hr), fun hr => h.bin (hany _ hr), fun hr => h.dtb (hany _ hr),
    fun hr => h.again (again_of_take rs k hr)⟩

/-- **What can be put back.** After any runs in a directory without `.rv32` files, what they took
is under its `.rv32` name and nothing else is, exactly when the files that are saved nowhere were
not there to take, and, where a run follows one of the boot.json mode, the three that are saved
were. A run that is refused changes nothing. -/
theorem recoverable_iff (F : Dir) (hF : ∀ f, F (rv32 f) = none) (rs : List Run) :
    Keeps F rs ↔ Restorable F rs := by
  constructor
  · intro h
    have hall := h.1 rs.length
    rw [List.take_length] at hall
    exact (recoverable_runs hF rs).mp hall
  · intro h
    refine ⟨fun k => (recoverable_runs hF _).mpr (h.take k), fun k r hk ha => ?_⟩
    rw [List.take_add_one, hk]
    unfold StageRv64.runs
    rw [Option.toList_some, List.foldl_concat]
    exact script_of_refused ha _

/-- A run in the bin mode, with a boot.bin of zeros. -/
def binRun : Run :=
  ⟨.bin, fun f => if f = "boot.bin".toList then some (List.replicate 1000001 0) else none, none⟩

theorem check_bin {src : Src} {c : Bytes} (h : src.files "boot.bin".toList = some c)
    (hc : 1000000 < c.length) : check .bin src = .ok () := by
  unfold check
  rw [h]
  exact if_pos hc

theorem binRun_accepted : binRun.accepted = true := by
  have hlen : 1000000 < (List.replicate 1000001 (0 : UInt8)).length := by
    rw [List.length_replicate]
    decide
  have hsrc : binRun.src.files "boot.bin".toList = some (List.replicate 1000001 0) := by
    simp only [binRun, if_true]
  have hcheck : check binRun.mode binRun.src = .ok () := check_bin hsrc hlen
  unfold Run.accepted
  rw [hcheck]
  rfl

/-- The three saved files are there, and the mode that moves boot.json away runs twice. -/
theorem recoverable_iff_twice :
    Keeps (fun f => if f ∈ saved then some [1] else none) [binRun, binRun] := by
  have hF : ∀ f, (if rv32 f ∈ saved then some [(1 : UInt8)] else none) = none := fun f =>
    if_neg fun h => ne_rv32 (last_of_mem_saved _ h) f rfl
  apply (recoverable_iff _ hF _).mpr
  exact ⟨fun _ => if_neg (by decide), fun _ => if_neg (by decide), fun _ => if_neg (by decide),
    fun _ f hf => by simp [hf]⟩

/-- An old root file system, removed and saved nowhere. -/
theorem not_keeps_rootfs :
    ¬ ∀ F : Dir, (∀ f, F (rv32 f) = none) → ∀ rs, Keeps F rs := by
  intro h
  have hF : ∀ f, (if rv32 f = "rootfs.cpio".toList then some [(7 : UInt8)] else none) = none :=
    fun f => if_neg fun he => ne_rv32 (by decide) f he.symm
  have hkeeps := h (fun f => if f = "rootfs.cpio".toList then some [7] else none) hF [binRun]
  have hran : ran [binRun] = true := by simp [ran, binRun_accepted]
  have hnone := ((recoverable_runs hF [binRun]).mp (hkeeps.1 1)).rootfs hran
  rw [if_pos rfl] at hnone
  cases hnone

end StageRv64
end Xc7Tools
