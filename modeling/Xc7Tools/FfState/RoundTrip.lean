/-
# ff_state: scan-in, then scan-out

What `read` prints of the FASM that `write` made. An edited feature has the
value it was given, any other its old one; a flip-flop is edited when `by_name`
sends a name of the state file to it. `by_name` sends a name to the last
flip-flop that answers to it (`byName_eq_some`), so when two answer to one name
only the last is set. `roundTrip_iff` says that, for names of flip-flops, this
is the only way the round trip fails.

Key definitions: `LastFlop`, `RoundTrip`, `Reached`.
Key theorems: `byName_eq_some`, `value_of_last`, `value_of_not_last`,
`roundTrip_iff`.
-/
import Xc7Tools.FfState.Script

namespace Xc7Tools
namespace FfState

open Yosys Checked Str

/-! ### The value of a feature -/

theorem IsFeature.mem_present {f : Str} (hf : IsFeature f) {lines : List Str} :
    f ∈ present lines ↔ ∃ l ∈ lines, strip l = f := by
  have hsuffix : ".ZINI".toList.isSuffixOf f = true := List.isSuffixOf_iff_suffix.mpr hf.suffix
  rw [present, List.mem_filter, List.mem_map]
  exact and_iff_left hsuffix

/-- The lines that come back when the edited lines are written and read. -/
theorem linesOf_write {ed : Dict Str ℤ} (hed : ∀ f ∈ ed, IsFeature f) (fasm : Str) :
    linesOf (render (edited ed (linesOf fasm))) = edited ed (linesOf fasm) ∨
      linesOf (render (edited ed (linesOf fasm))) = edited ed (linesOf fasm) ++ [[]] := by
  refine linesOf_render fun l hl => ?_
  rcases List.mem_append.mp hl with hl | hl
  · exact unbroken_of_mem_linesOf (List.mem_of_mem_filter hl)
  · obtain ⟨q, hq, rfl⟩ := List.mem_map.mp hl
    exact (hed q.1 (List.mem_map_of_mem (List.mem_of_mem_filter hq))).solid.unbroken

/-- A feature is among the edited lines when it was and is not set to 1, or is
set to 0. -/
theorem exists_edited {ed : Dict Str ℤ} (hed : ∀ f ∈ ed, IsFeature f) {lines : List Str} {f : Str}
    (hf : IsFeature f) : (∃ l ∈ edited ed lines, strip l = f) ↔
      ed.get? f = none ∧ f ∈ present lines ∨ ed.get? f = some 0 := by
  constructor
  · rintro ⟨l, hl, rfl⟩
    rcases List.mem_append.mp hl with hl | hl
    · obtain ⟨hl, hzero⟩ := List.mem_filter.mp hl
      have hzero : (ed.get? (strip l)).getD 0 = 0 := by simpa using hzero
      cases hget : ed.get? (strip l) with
      | none => exact Or.inl ⟨rfl, hf.mem_present.mpr ⟨l, hl, rfl⟩⟩
      | some v => rw [hget, Option.getD_some] at hzero; exact Or.inr (by rw [hzero])
    · obtain ⟨q, hq, rfl⟩ := List.mem_map.mp hl
      obtain ⟨hq, hzero⟩ := List.mem_filter.mp hq
      have hzero : q.2 = 0 ∧ q.1 ∉ present lines := by simpa using hzero
      have hfeat := hed q.1 (List.mem_map_of_mem hq)
      rw [hfeat.solid.strip_eq]
      exact Or.inr (Dict.get?_eq_some.mpr (hzero.1 ▸ hq))
  · rintro (⟨hnone, hpresent⟩ | hzero)
    · obtain ⟨l, hl, rfl⟩ := hf.mem_present.mp hpresent
      exact ⟨l, List.mem_append_left _ (List.mem_filter.mpr ⟨hl, by simp [hnone]⟩), rfl⟩
    · by_cases hpresent : f ∈ present lines
      · obtain ⟨l, hl, rfl⟩ := hf.mem_present.mp hpresent
        exact ⟨l, List.mem_append_left _ (List.mem_filter.mpr ⟨hl, by simp [hzero]⟩), rfl⟩
      · refine ⟨f, List.mem_append_right _ (List.mem_map.mpr ⟨(f, 0), ?_, rfl⟩), hf.solid.strip_eq⟩
        exact List.mem_filter.mpr ⟨Dict.get?_eq_some.mp hzero, by simp [hpresent]⟩

/-- What is present after the edits. -/
theorem mem_present_edited {ed : Dict Str ℤ} (hed : ∀ f ∈ ed, IsFeature f) (fasm : Str) {f : Str}
    (hf : IsFeature f) :
    f ∈ present (linesOf (render (edited ed (linesOf fasm)))) ↔
      ed.get? f = none ∧ f ∈ present (linesOf fasm) ∨ ed.get? f = some 0 := by
  rw [hf.mem_present, ← exists_edited hed hf]
  rcases linesOf_write hed fasm with h | h
  · rw [h]
  · rw [h]
    constructor
    · rintro ⟨l, hl, rfl⟩
      rcases List.mem_append.mp hl with hl | hl
      · exact ⟨l, hl, rfl⟩
      · rw [List.mem_singleton.mp hl] at hf
        exact absurd hf.suffix (by decide)
    · rintro ⟨l, hl, rfl⟩
      exact ⟨l, List.mem_append_left _ hl, rfl⟩

/-- A feature that is not edited keeps its value. -/
theorem value_of_not_edited {ed : Dict Str ℤ} (hed : ∀ f ∈ ed, IsFeature f) (fasm : Str) {f : Str}
    (hf : IsFeature f) (h : ed.get? f = none) :
    value (linesOf (render (edited ed (linesOf fasm)))) f = value (linesOf fasm) f := by
  have hiff := mem_present_edited hed fasm hf
  rw [h] at hiff
  simp only [value, hiff]
  simp

/-- An edited feature has its value. -/
theorem value_of_edited {ed : Dict Str ℤ} (hed : ∀ f ∈ ed, IsFeature f) (fasm : Str) {f : Str}
    (hf : IsFeature f) {v : ℤ} (hv : v = 0 ∨ v = 1) (h : ed.get? f = some v) :
    value (linesOf (render (edited ed (linesOf fasm)))) f = v := by
  have hiff := mem_present_edited hed fasm hf
  rw [h] at hiff
  rcases hv with rfl | rfl
  · exact if_pos (hiff.mpr (Or.inr rfl))
  · exact if_neg fun hm => by simpa using hiff.mp hm

/-! ### Who is edited -/

/-- The flip-flop answers to the name. -/
def Answers (fl : Dict Str (List Str)) (f n : Str) : Prop :=
  ∃ names, fl.get? f = some names ∧ n ∈ names

/-- `f` is the last flip-flop that answers to the name. -/
def LastFlop (fl : Dict Str (List Str)) (n f : Str) : Prop :=
  ∃ pre names post, fl.items = pre ++ (f, names) :: post ∧ n ∈ names ∧ ∀ q ∈ post, n ∉ q.2

theorem LastFlop.answers {fl : Dict Str (List Str)} {n f : Str} (h : LastFlop fl n f) :
    Answers fl f n := by
  obtain ⟨pre, names, post, hitems, hn, -⟩ := h
  refine ⟨names, Dict.get?_eq_some.mpr ?_, hn⟩
  rw [hitems]
  exact List.mem_append_right _ List.mem_cons_self

/-- Names of one flip-flop lead to it. -/
theorem get?_update_names (d : Dict Str Str) (f n : Str) : ∀ names : List Str,
    (d.update (names.map fun m => (m, f))).get? n = if n ∈ names then some f else d.get? n := by
  intro names
  induction names generalizing d with
  | nil => simp
  | cons m names ih =>
    rw [List.map_cons, Dict.update_cons, ih, Dict.get?_set]
    by_cases hm : m = n
    · simp [hm]
    · have hm' : n ≠ m := fun e => hm e.symm
      simp [hm, hm']

/-- `by_name` is the search from the end. -/
theorem byName_get? (fl : Dict Str (List Str)) (n : Str) :
    (byName fl).get? n = (fl.items.reverse.find? fun q => n ∈ q.2).map Prod.fst := by
  unfold byName
  induction fl.items using List.reverseRecOn with
  | nil => rfl
  | append_singleton items q ih =>
    rw [List.flatMap_append, Dict.update_append, List.flatMap_singleton, get?_update_names, ih,
      List.reverse_concat, List.find?_cons]
    by_cases hn : n ∈ q.2 <;> simp [hn]

theorem byName_eq_some {fl : Dict Str (List Str)} {n f : Str} :
    (byName fl).get? n = some f ↔ LastFlop fl n f := by
  rw [byName_get?, Option.map_eq_some_iff]
  simp only [List.find?_eq_some_iff_append, LastFlop]
  constructor
  · rintro ⟨⟨f, names⟩, ⟨hn, post, pre, hitems, hpost⟩, rfl⟩
    refine ⟨pre.reverse, names, post.reverse, ?_, by simpa using hn, fun q hq => ?_⟩
    · rw [← List.reverse_reverse fl.items, hitems]
      simp
    · simpa using hpost q (List.mem_reverse.mp hq)
  · rintro ⟨pre, names, post, hitems, hn, hpost⟩
    refine ⟨(f, names), ⟨by simpa using hn, post.reverse, pre.reverse, ?_, fun q hq => ?_⟩, rfl⟩
    · rw [hitems]
      simp
    · simpa using hpost q (List.mem_reverse.mp hq)

/-- A feature is edited when the last flip-flop of a name that is set has it,
to the value of such a name. -/
theorem edits_eq_some {fl : Dict Str (List Str)} {want : Dict Str ℤ} {f : Str} {v : ℤ}
    (h : (edits fl want).get? f = some v) : ∃ n, want.get? n = some v ∧ LastFlop fl n f := by
  obtain ⟨⟨n, v'⟩, hq, hf⟩ := List.mem_filterMap.mp (Dict.mem_of_get?_update_empty h)
  obtain ⟨f', hname, he⟩ := Option.map_eq_some_iff.mp hf
  obtain ⟨rfl, rfl⟩ := Prod.mk.inj he
  exact ⟨n, Dict.get?_eq_some.mpr hq, byName_eq_some.mp hname⟩

theorem mem_edits {fl : Dict Str (List Str)} {want : Dict Str ℤ} {f : Str} :
    f ∈ edits fl want ↔ ∃ n ∈ want, LastFlop fl n f := by
  constructor
  · intro h
    obtain ⟨v, hv⟩ := Dict.mem_iff.mp h
    obtain ⟨n, hn, hlast⟩ := edits_eq_some hv
    exact ⟨n, Dict.mem_iff.mpr ⟨v, hn⟩, hlast⟩
  · rintro ⟨n, hn, hlast⟩
    obtain ⟨v, hv⟩ := Dict.mem_iff.mp hn
    refine Dict.mem_update.mpr (Or.inl (List.mem_map.mpr ⟨(f, v), ?_, rfl⟩))
    exact List.mem_filterMap.mpr ⟨(n, v), Dict.get?_eq_some.mp hv,
      by rw [byName_eq_some.mpr hlast]; rfl⟩

/-! ### The round trip -/

/-- The state file does not set names of one flip-flop to different values. -/
def Consistent (fl : Dict Str (List Str)) (want : Dict Str ℤ) : Prop :=
  ∀ f n m, Answers fl f n → Answers fl f m → ∀ v w, want.get? n = some v → want.get? m = some w →
    v = w

/-- The line is not that of a flip-flop named in the state file. -/
def untouched (fl : Dict Str (List Str)) (want : Dict Str ℤ) (l : Str) : Bool :=
  ((fl.get? (strip l)).getD []).all fun n => n ∉ want

/-- What scan-in and scan-out of `out` are to give, for a design with the
flip-flops `fl`. -/
structure RoundTrip (place : Placement) (design : Modules) (fasm out : Str)
    (fl : Dict Str (List Str)) (want : Dict Str ℤ) : Prop where
  /-- A name that was set is printed with its value, and with no other. -/
  printed : ∀ n v, want.get? n = some v → ∃ ls, read out place design = .ok ls ∧ (n, v) ∈ ls ∧
    ∀ w, (n, w) ∈ ls → w = v
  /-- Every flip-flop that answers to the name has the value. -/
  named : ∀ n v, want.get? n = some v → ∀ f, Answers fl f n → value (linesOf out) f = v
  /-- A flip-flop that is not named keeps its value. -/
  kept : ∀ f ∈ fl, (∀ n, Answers fl f n → n ∉ want) →
    value (linesOf out) f = value (linesOf fasm) f
  /-- The other lines are there, in their order. -/
  lines : ((linesOf fasm).filter (untouched fl want)).Sublist (linesOf out)

/-- When the state file reaches what it names. -/
structure Reached (fasm : Str) (fl : Dict Str (List Str)) (want : Dict Str ℤ) : Prop where
  /-- Every name is that of a flip-flop. -/
  known : ∀ n ∈ want, ∃ f, Answers fl f n
  /-- Every flip-flop with a name that is set is the last one to answer to such
  a name, or has the value already. -/
  last : ∀ n v, want.get? n = some v → ∀ f, Answers fl f n →
    (∃ m ∈ want, LastFlop fl m f) ∨ value (linesOf fasm) f = v

section

variable {place : Placement} {design : Modules} {fasm out : Str} {fl : Dict Str (List Str)}
  {want : Dict Str ℤ}

theorem isFeature_of_mem_edits (hfl : flops place design = .ok fl) :
    ∀ f ∈ edits fl want, IsFeature f := by
  intro f hf
  obtain ⟨n, -, hlast⟩ := mem_edits.mp hf
  obtain ⟨names, hget, -⟩ := hlast.answers
  exact isFeature_of_mem_flops hfl f (Dict.mem_iff.mpr ⟨names, hget⟩)

/-- The edited lines keep the untouched ones. -/
theorem untouched_sublist (lines : List Str) :
    (lines.filter (untouched fl want)).Sublist (edited (edits fl want) lines) := by
  refine (List.monotone_filter_right lines fun l hl => ?_).trans (List.sublist_append_left _ _)
  have hnone : (edits fl want).get? (strip l) = none := by
    rw [Dict.get?_eq_none]
    intro hm
    obtain ⟨n, hn, hlast⟩ := mem_edits.mp hm
    obtain ⟨names, hget, hnames⟩ := hlast.answers
    rw [untouched, hget, Option.getD_some, List.all_eq_true] at hl
    simpa [hn] using hl n hnames
  simp [hnone]

/-- What is printed for a name are the values of the flip-flops that answer to
it. -/
theorem mem_report {lines : List Str} {n : Str} {w : ℤ} :
    (n, w) ∈ report fl lines ↔ ∃ f, Answers fl f n ∧ value lines f = w := by
  constructor
  · intro h
    obtain ⟨⟨f, names⟩, hq, hn⟩ := List.mem_flatMap.mp h
    obtain ⟨m, hm, he⟩ := List.mem_map.mp hn
    obtain ⟨rfl, rfl⟩ := Prod.mk.inj he
    exact ⟨f, ⟨names, Dict.get?_eq_some.mpr ((List.perm_insertionSort _ _).mem_iff.mp hq), hm⟩,
      rfl⟩
  · rintro ⟨f, ⟨names, hget, hn⟩, rfl⟩
    refine List.mem_flatMap.mpr ⟨(f, names), ?_, List.mem_map.mpr ⟨n, hn, rfl⟩⟩
    exact (List.perm_insertionSort _ _).mem_iff.mpr (Dict.get?_eq_some.mp hget)

/-- What `write` prints. -/
theorem write_eq_ok {state : Str} (hfl : flops place design = .ok fl)
    (hwant : wanted state = .ok want) (h : write fasm place design state = .ok out) :
    out = render (edited (edits fl want) (linesOf fasm)) := by
  simp only [write, hfl, hwant, bind_eq_ok, pure_eq_ok] at h
  obtain ⟨fl', hfl', want', hwant', rfl⟩ := h
  rw [Except.ok.inj hfl', Except.ok.inj hwant']

/-- The last flip-flop of a name that is set has the value of each of its
names. -/
theorem value_of_last (hfl : flops place design = .ok fl)
    (hbit : ∀ n v, want.get? n = some v → v = 0 ∨ v = 1) (hc : Consistent fl want)
    (hout : out = render (edited (edits fl want) (linesOf fasm))) {f n : Str} {v : ℤ}
    (hf : Answers fl f n) (hn : want.get? n = some v) (hlast : ∃ m ∈ want, LastFlop fl m f) :
    value (linesOf out) f = v := by
  have hfeat : IsFeature f := by
    obtain ⟨names, hget, -⟩ := hf
    exact isFeature_of_mem_flops hfl f (Dict.mem_iff.mpr ⟨names, hget⟩)
  obtain ⟨v', hv'⟩ := Dict.mem_iff.mp (mem_edits.mpr hlast)
  obtain ⟨m, hm, hlast'⟩ := edits_eq_some hv'
  have hv : v = v' := hc f n m hf hlast'.answers v v' hn hm
  rw [hv, hout]
  exact value_of_edited (isFeature_of_mem_edits hfl) fasm hfeat (hbit m v' hm) hv'

/-- A flip-flop that is the last of no such name keeps its value. -/
theorem value_of_not_last (hfl : flops place design = .ok fl)
    (hout : out = render (edited (edits fl want) (linesOf fasm))) {f : Str} (hf : f ∈ fl)
    (hnone : ¬ ∃ m ∈ want, LastFlop fl m f) :
    value (linesOf out) f = value (linesOf fasm) f := by
  have hget : (edits fl want).get? f = none :=
    Dict.get?_eq_none.mpr fun hm => hnone (mem_edits.mp hm)
  rw [hout]
  exact value_of_not_edited (isFeature_of_mem_edits hfl) fasm (isFeature_of_mem_flops hfl f hf) hget

/-- **Scan-in, then scan-out gives back the state exactly when** every name is
that of a flip-flop, and every flip-flop with a name that is set is the last to
answer to such a name or has the value already. -/
theorem roundTrip_iff {state : Str} (hfl : flops place design = .ok fl)
    (hwant : wanted state = .ok want) (hout : write fasm place design state = .ok out)
    (hbit : ∀ n v, want.get? n = some v → v = 0 ∨ v = 1) (hc : Consistent fl want) :
    RoundTrip place design fasm out fl want ↔ Reached fasm fl want := by
  have hout := write_eq_ok hfl hwant hout
  have hread : ∀ {ls}, read out place design = .ok ls ↔ report fl (linesOf out) = ls := by
    intro ls
    rw [read, hfl]
    exact pure_eq_ok
  have hflop : ∀ {f n}, Answers fl f n → f ∈ fl := fun ⟨names, hget, _⟩ =>
    Dict.mem_iff.mpr ⟨names, hget⟩
  constructor
  · intro h
    refine ⟨fun n hn => ?_, fun n v hn f hf => ?_⟩
    · obtain ⟨v, hv⟩ := Dict.mem_iff.mp hn
      obtain ⟨ls, hls, hmem, -⟩ := h.printed n v hv
      rw [← hread.mp hls] at hmem
      obtain ⟨f, hf, -⟩ := mem_report.mp hmem
      exact ⟨f, hf⟩
    · by_cases hlast : ∃ m ∈ want, LastFlop fl m f
      · exact Or.inl hlast
      · have hold := value_of_not_last hfl hout (hflop hf) hlast
        exact Or.inr (hold.symm.trans (h.named n v hn f hf))
  · intro h
    have hnamed : ∀ n v, want.get? n = some v → ∀ f, Answers fl f n →
        value (linesOf out) f = v := by
      intro n v hn f hf
      by_cases hlast : ∃ m ∈ want, LastFlop fl m f
      · exact value_of_last hfl hbit hc hout hf hn hlast
      · have hold := value_of_not_last hfl hout (hflop hf) hlast
        exact hold.trans ((h.last n v hn f hf).resolve_left hlast)
    constructor
    case named => exact hnamed
    case printed =>
      intro n v hn
      obtain ⟨f, hf⟩ := h.known n (Dict.mem_iff.mpr ⟨v, hn⟩)
      refine ⟨_, hread.mpr rfl, mem_report.mpr ⟨f, hf, hnamed n v hn f hf⟩, fun w hw => ?_⟩
      obtain ⟨f', hf', rfl⟩ := mem_report.mp hw
      exact hnamed n v hn f' hf'
    case kept =>
      intro f hf hunnamed
      refine value_of_not_last hfl hout hf ?_
      rintro ⟨m, hm, hlast⟩
      exact hunnamed m hlast.answers hm
    case lines =>
      rw [hout]
      rcases linesOf_write (isFeature_of_mem_edits hfl) fasm with he | he
      · rw [he]
        exact untouched_sublist _
      · rw [he]
        exact (untouched_sublist _).trans (List.sublist_append_left _ _)

end

/-! ### A name of two flip-flops -/

/-- A register in bel `bel` of one slice. -/
def placeAt (bel : Str) (h : Solid bel) : Place where
  site := "SLICE_X0Y0".toList
  tile := "CLBLL_L_X2Y0".toList
  bel := bel
  type := "SLICE_FFX".toList
  solid_tile := by decide
  solid_bel := h

def registerAt (q : ℕ) : Cell :=
  ⟨0, "FDRE".toList, .empty, .empty, .empty, ⟨[("Q".toList, [.net q])], List.nodup_singleton _⟩⟩

/-- Two registers of a bus `a`, and one whose net is called `a[0]`. -/
def escaped : Modules := ⟨[("escaped".toList, {
  attributes := topAttr
  ports := .empty
  cells := ⟨[("f".toList, registerAt 2), ("g".toList, registerAt 3), ("h".toList, registerAt 4)],
    by decide⟩
  netnames := ⟨[("a".toList, ⟨0, .empty, [.net 2, .net 3]⟩),
    ("a[0]".toList, ⟨0, .empty, [.net 4]⟩)], by decide⟩ })], by decide⟩

def placed : Placement :=
  ⟨[("f".toList, placeAt "AFF".toList (by decide)), ("g".toList, placeAt "BFF".toList (by decide)),
    ("h".toList, placeAt "CFF".toList (by decide))], by decide⟩

def zini (bel : Str) : Str := "CLBLL_L_X2Y0.SLICEL_X0.".toList ++ bel ++ ".ZINI".toList

def escapedFlops : Dict Str (List Str) :=
  ⟨[(zini "AFF".toList, ["a[0]".toList]), (zini "BFF".toList, ["a[1]".toList]),
    (zini "CFF".toList, ["a[0]".toList])], by decide⟩

theorem flops_escaped : flops placed escaped = .ok escapedFlops := ok_of_toOption (by decide)

/-- A state file that sets one name. -/
def wantOne (n : Str) (v : ℤ) : Dict Str ℤ := ⟨[(n, v)], List.nodup_singleton _⟩

theorem get?_wantOne {n m : Str} {v w : ℤ} (h : (wantOne n v).get? m = some w) : m = n ∧ w = v :=
  Prod.mk.inj (List.mem_singleton.mp (Dict.get?_eq_some.mp h))

theorem consistent_wantOne (fl : Dict Str (List Str)) (n : Str) (v : ℤ) :
    Consistent fl (wantOne n v) := fun _ _ _ _ _ _ _ hv hw =>
  (get?_wantOne hv).2.trans (get?_wantOne hw).2.symm

theorem roundTrip_bus : ∃ out, write [] placed escaped "a[1] 0".toList = .ok out ∧
    RoundTrip placed escaped [] out escapedFlops (wantOne "a[1]".toList 0) := by
  obtain ⟨out, hout⟩ := exists_of_isOk (x := write [] placed escaped "a[1] 0".toList) (by decide)
  have hwant : wanted "a[1] 0".toList = .ok (wantOne "a[1]".toList 0) := ok_of_toOption (by decide)
  refine ⟨out, hout, (roundTrip_iff flops_escaped hwant hout (fun n v h => ?_)
    (consistent_wantOne _ _ _)).mpr ⟨fun n hn => ?_, fun n v hn f hf => Or.inl ?_⟩⟩
  · exact Or.inl (get?_wantOne h).2
  · obtain ⟨v, hv⟩ := Dict.mem_iff.mp hn
    obtain ⟨rfl, -⟩ := get?_wantOne hv
    exact ⟨zini "BFF".toList, ["a[1]".toList], by decide, by decide⟩
  obtain ⟨rfl, rfl⟩ := get?_wantOne hn
  obtain ⟨names, hget, hmem⟩ := hf
  refine ⟨"a[1]".toList, by decide, byName_eq_some.mp ?_⟩
  have hitems := Dict.get?_eq_some.mp hget
  simp only [escapedFlops, List.mem_cons, Prod.mk.injEq, List.not_mem_nil, or_false] at hitems
  rcases hitems with ⟨rfl, rfl⟩ | ⟨rfl, rfl⟩ | ⟨rfl, rfl⟩
  · exact absurd hmem (by decide)
  · decide
  · exact absurd hmem (by decide)

/-- Setting `a[0]` sets the register of the net `a[0]`, not that of bit 0 of the
bus. -/
theorem shared_name : flops placed escaped = .ok escapedFlops ∧
    ∃ out, write [] placed escaped "a[0] 0".toList = .ok out ∧
    wanted "a[0] 0".toList = .ok (wantOne "a[0]".toList 0) ∧
    Consistent escapedFlops (wantOne "a[0]".toList 0) ∧
    ¬ RoundTrip placed escaped [] out escapedFlops (wantOne "a[0]".toList 0) := by
  have hout : write [] placed escaped "a[0] 0".toList =
      .ok ('\n' :: (zini "CFF".toList ++ ['\n'])) := ok_of_toOption (by decide)
  refine ⟨flops_escaped, _, hout, ok_of_toOption (by decide), consistent_wantOne _ _ _, fun h => ?_⟩
  have hvalue := h.named "a[0]".toList 0 (by decide) (zini "AFF".toList)
    ⟨["a[0]".toList], by decide, by decide⟩
  exact absurd hvalue (by decide)

end FfState
end Xc7Tools
