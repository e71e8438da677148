/-
# openila: the columns of a merged ILA

From the probes asked of `openila_merge.py` to the numbers the host script
shows. The merge fills the probe word with bits of the design's nets and names
each in the probe map; the host cuts the names back to those of nets, makes a
column of neighbours with one name and weighs the bits of a column as they
come. What the map leaves out is the index of a bit, and whether brackets are
part of a name: `shows_iff` says for which probes the columns are right.

Key definitions: `places`, `mapFile`, `Shows`, `Legible`.
Key theorems: `word_eq`, `loadMap_mapFile`, `grouped_columns`, `weighted_iff`, `shows_iff`.
-/
import Mathlib.Data.List.Count
import Xc7Tools.Lib.Runs
import Xc7Tools.Netlist.OpenilaMerge
import Xc7Tools.Openila.Vcd

namespace Xc7Tools
namespace Openila

open Str Yosys Checked OpenilaMerge

/-! ### What the probes ask for -/

/-- A bit of a design net: the net and the index of the bit in it. -/
abbrev Place := Str × ℕ

/-- The bit there, if the net has it. -/
def bitAt (top : Module) (q : Place) : Option Bit := (top.bitsOf q.1).bind fun bs => bs[q.2]?

/-- The place `NET[k]` names. -/
def indexedPlace (name : Str) : Option Place :=
  (matchIndexed name).bind fun (net, ds) => (intOf ds).map fun k => (net, k)

/-- The places of `NET`, of a net of this name, or of `NET[k]`. -/
def located (top : Module) (name : Str) : List Place :=
  match top.bitsOf name with
  | some bs => (List.range bs.length).map fun k => (name, k)
  | none => (indexedPlace name).toList

/-- The places one `--probe NET[/N]` asks for. -/
def asked (top : Module) (p : Str) : List Place :=
  let name := (Str.partition '/' p).1
  let n := (Str.partition '/' p).2
  if n = [] then located top name
  else match Str.int? n with
    | some k =>
      (located top name).take (if 0 ≤ k then k.toNat else (located top name).length - k.natAbs)
    | none => []

/-- The places of the probe word, LSB first. -/
def places (top : Module) (probes : List Str) : List Place := probes.flatMap (asked top)

/-- `for k, n in enumerate(probe_map): f.write(f'{k} {n}\n')` -/
def mapFile (names : List Str) : Str :=
  (names.zipIdx.map fun p => lineOf p.2 p.1).flatMap (· ++ ['\n'])

/-! ### What the columns should show -/

/-- The place sampled in a bit of the probe. -/
def placeOf (ps : List Place) : ℤ → Option Place
  | .ofNat k => ps[k]?
  | .negSucc _ => none

/-- The index, in its net, of the bit sampled in a bit of the probe. -/
def indexOf (ps : List Place) (k : ℤ) : ℕ := ((placeOf ps k).map Prod.snd).getD 0

/-- The sampled value of a bit of the probe. -/
def sampled (v : ℕ) (k : ℤ) : ℕ := (v.testBit k.toNat).toNat

/-- The columns show the nets they are labelled with. -/
structure Shows (top : Module) (ps : List Place) (buses : List Bus) : Prop where
  /-- Every probed bit is in one position of one column. -/
  once : ∀ q ∈ ps, ((buses.flatMap Prod.snd).map (placeOf ps)).count (some q) = 1
  /-- In a column there are bits of its net. -/
  labelled : ∀ b ∈ buses, ∀ k ∈ b.2, ∃ i, placeOf ps k = some (b.1, i)
  /-- They are weighted in the order of their indices. -/
  weighted : ∀ b ∈ buses, ∀ v,
    field v b.2 = (b.2.map fun k => sampled v k * 2 ^ Runs.rank (indexOf ps) b.2 k).sum
  /-- The column of a net of one bit has one. -/
  single : ∀ b ∈ buses, ∀ bs, top.bitsOf b.1 = some bs → bs.length = 1 → b.2.length = 1

/-- `int` reads the numbers of `n` bits. -/
def Readable (n : ℕ) : Prop := ∀ k < n, (Nat.toDigits 10 k).length ≤ maxStrDigits

instance (n : ℕ) : Decidable (Readable n) := inferInstanceAs (Decidable (∀ k < n, _))

/-- What the probes have to be for that. -/
structure Legible (top : Module) (probes : List Str) (width : ℕ) : Prop where
  /-- Without a map there is a column for each bit of the probe, of no net. -/
  mapped : places top probes ≠ [] ∨ width = 0
  /-- No net probed has white space in its name. -/
  solid : ∀ q ∈ places top probes, Solid q.1
  /-- A net that gives one bit under its own name has one that stands for no bit of another. -/
  plain : ∀ p ∈ probes, asked top p = [((Str.partition '/' p).1, 0)] →
    (Str.partition '/' p).1 ≠ [] ∧
      ((Str.partition '/' p).1.getLast? = some ']' → '[' ∉ (Str.partition '/' p).1)
  /-- No bit of the probe has too high a number for `int`. -/
  few : Readable (places top probes).length
  /-- No bit is asked for twice. -/
  once : (places top probes).Nodup
  /-- Neighbours of one net are in the order of their indices. -/
  ascending : (places top probes).IsChain fun q q' => q.1 = q'.1 → q.2 < q'.2

/-! ### The probe word and its labels -/

variable {top : Module}

theorem located_eq {topName n : Str} {bs : List Bit} (h : find topName top n = .ok bs) :
    bs.map some = (located top n).map (bitAt top) := by
  unfold find at h
  unfold located
  cases hn : top.bitsOf n with
  | some cs =>
    rw [hn] at h
    obtain rfl : cs = bs := Except.ok.inj h
    refine List.ext_getElem (by simp) fun k hk _ => ?_
    simp [bitAt, hn]
  | none =>
    rw [hn] at h
    cases hm : matchIndexed n with
    | none =>
      rw [hm] at h
      cases h
    | some q =>
      obtain ⟨name, ds⟩ := q
      simp only [hm] at h
      cases hname : top.bitsOf name with
      | none =>
        rw [hname] at h
        cases h
      | some cs =>
        simp only [hname, bind_eq_ok, orRaise_eq_ok, pure_eq_ok] at h
        obtain ⟨k, hk, c, hc, rfl⟩ := h
        simp [indexedPlace, hm, hk, bitAt, hname, hc]

/-- A probe gives the bits at the places it asks for. -/
theorem probed_eq {topName p : Str} {bs : List Bit} (h : probed topName top p = .ok bs) :
    bs.map some = (asked top p).map (bitAt top) := by
  unfold probed at h
  unfold asked
  simp only [bind_eq_ok] at h
  obtain ⟨cs, hcs, h⟩ := h
  have hloc := located_eq hcs
  have hlen : cs.length = (located top (Str.partition '/' p).1).length := by
    simpa using congrArg List.length hloc
  by_cases hn : (Str.partition '/' p).2 = []
  · simp only [if_pos hn, pure_eq_ok] at h ⊢
    rw [← h, hloc]
  · simp only [if_neg hn, bind_eq_ok, orRaise_eq_ok, pure_eq_ok] at h ⊢
    obtain ⟨k, hk, rfl⟩ := h
    have hslice : sliceTo cs k = cs.take (if 0 ≤ k then k.toNat else cs.length - k.natAbs) := by
      unfold sliceTo
      split_ifs <;> rfl
    rw [hk, hslice, List.map_take, hloc, ← List.map_take, hlen]

/-- The places of a probe with the names the probe map has for them. -/
def labels (top : Module) (p : Str) : List (Place × Str) :=
  (asked top p).zipIdx.map fun x => (x.1,
    if 1 < (asked top p).length then Str.indexed (Str.partition '/' p).1 x.2
    else (Str.partition '/' p).1)

theorem map_fst_labels (p : Str) : (labels top p).map Prod.fst = asked top p := by
  rw [labels, List.map_map]
  exact List.zipIdx_map_fst 0 _

/-- The places of the probe word with their names. -/
def labelled (top : Module) (probes : List Str) : List (Place × Str) := probes.flatMap (labels top)

theorem map_fst_labelled (probes : List Str) :
    (labelled top probes).map Prod.fst = places top probes := by
  simp only [labelled, places, List.map_flatMap, map_fst_labels]

/-- **The merge fills the probe word with the bits at the places asked for, and names them.** -/
theorem word_eq {topName : Str} : ∀ {probes : List Str} {w w' : Word},
    probes.foldlM (addProbe topName top) w = .ok w' →
      w'.bits.map some =
          w.bits.map some ++ (places top probes).map (fun q => (bitAt top q).map defined) ∧
        w'.names = w.names ++ (labelled top probes).map Prod.snd
  | [], w, w', h => by
    rw [List.foldlM_nil, pure_eq_ok] at h
    simp [h, places, labelled]
  | p :: probes, w, w', h => by
    obtain ⟨bits, hbits, h⟩ := foldlM_addProbe_cons h
    have hp := probed_eq hbits
    have hlen : bits.length = (asked top p).length := by simpa using congrArg List.length hp
    have hdefined : (bits.map defined).map some =
        (asked top p).map fun q => (bitAt top q).map defined := by
      have h2 := congrArg (List.map (Option.map defined)) hp
      rw [List.map_map, List.map_map] at h2
      rw [List.map_map]
      exact h2
    have hnames : ((List.range bits.length).map fun k => if 1 < bits.length then
        Str.indexed (Str.partition '/' p).1 k else (Str.partition '/' p).1) =
        (labels top p).map Prod.snd := by
      rw [labels, List.map_map, hlen, List.range_eq_range', ← List.zipIdx_map_snd, List.map_map]
      rfl
    obtain ⟨hb, hn⟩ := word_eq h
    refine ⟨?_, ?_⟩
    · rw [hb, List.map_append, hdefined]
      simp [places]
    · rw [hn, hnames]
      simp [labelled]

/-- The label is the name of the net with an index behind it. -/
def Indexes (net label : Str) : Prop :=
  ∃ ds, (∀ c ∈ ds, isDigit c = true) ∧ label = net ++ '[' :: (ds ++ [']'])

theorem indexes_indexed (net : Str) (k : ℕ) : Indexes net (Str.indexed net k) :=
  ⟨Nat.toDigits 10 k, fun _ hc => isDigit_of_isAsciiDigit (isAsciiDigit_of_mem_toDigits hc), by
    simp [Str.indexed]⟩

theorem indexes_of_indexedPlace {n : Str} {q : Place} (h : indexedPlace n = some q) :
    Indexes q.1 n := by
  obtain ⟨⟨net, text⟩, hm, hq⟩ := Option.bind_eq_some_iff.mp h
  obtain ⟨k, -, rfl⟩ := Option.map_eq_some_iff.mp hq
  unfold matchIndexed at hm
  split at hm
  · rename_i r hrev
    have hn : n = r.reverse ++ [']'] := by
      rw [← List.reverse_reverse n, hrev, List.reverse_cons]
    split at hm
    · rename_i d ds name htake hdrop
      split_ifs at hm with hbreak
      obtain ⟨rfl, -⟩ := Prod.mk.inj (Option.some.inj hm)
      refine ⟨(d :: ds).reverse, ?_, ?_⟩
      · intro c hc
        have hmem : c ∈ r.takeWhile isDigit := htake ▸ List.mem_reverse.mp hc
        exact List.mem_takeWhile_imp hmem
      · rw [hn, ← List.takeWhile_append_dropWhile (p := isDigit) (l := r), htake, hdrop]
        simp
    · cases hm
  · cases hm

/-- A probe of a net by its name, or of one bit by its index. -/
theorem asked_cases (top : Module) (p : Str) :
    (∃ m, asked top p = (List.range m).map fun k => ((Str.partition '/' p).1, k)) ∨
      ∃ q, asked top p = [q] ∧ Indexes q.1 (Str.partition '/' p).1 := by
  have hcut : ∀ m, (∃ m', (located top (Str.partition '/' p).1).take m =
      (List.range m').map fun k => ((Str.partition '/' p).1, k)) ∨
      ∃ q, (located top (Str.partition '/' p).1).take m = [q] ∧
        Indexes q.1 (Str.partition '/' p).1 := by
    intro m
    unfold located
    split
    · exact Or.inl ⟨_, by rw [← List.map_take, List.take_range]⟩
    · cases hm : indexedPlace (Str.partition '/' p).1 with
      | none => exact Or.inl ⟨0, by simp⟩
      | some q =>
        cases m with
        | zero => exact Or.inl ⟨0, by simp⟩
        | succ m => exact Or.inr ⟨q, by simp, indexes_of_indexedPlace hm⟩
  unfold asked
  by_cases hn : (Str.partition '/' p).2 = []
  · simp only [if_pos hn]
    have h := hcut (located top (Str.partition '/' p).1).length
    rwa [List.take_length] at h
  · simp only [if_neg hn]
    cases Str.int? (Str.partition '/' p).2 with
    | none => exact Or.inl ⟨0, rfl⟩
    | some k => exact hcut _

/-- A place is labelled with its index, or is the one bit taken of a net. -/
theorem label_cases {p : Str} {q : Place} {l : Str} (h : (q, l) ∈ labels top p) :
    Indexes q.1 l ∨ l = q.1 ∧ l = (Str.partition '/' p).1 ∧
      asked top p = [((Str.partition '/' p).1, 0)] := by
  obtain ⟨⟨q', k⟩, hk, heq⟩ := List.mem_map.mp h
  obtain ⟨rfl, rfl⟩ := Prod.mk.inj heq
  have hget : (asked top p)[k]? = some q' := List.mem_zipIdx_iff_getElem?.mp hk
  rcases asked_cases top p with ⟨m, hm⟩ | ⟨q, hq, hidx⟩
  · rw [hm] at hget
    obtain ⟨hkm, rfl⟩ : k < m ∧ ((Str.partition '/' p).1, k) = q' := by
      obtain ⟨hlen, hval⟩ := List.getElem?_eq_some_iff.mp hget
      simpa using And.intro hlen hval
    rw [hm, List.length_map, List.length_range]
    split_ifs with h1
    · exact Or.inl (indexes_indexed _ k)
    · obtain ⟨rfl, rfl⟩ : m = 1 ∧ k = 0 := by omega
      exact Or.inr ⟨rfl, rfl, rfl⟩
  · rw [hq] at hget
    obtain ⟨rfl, rfl⟩ : k = 0 ∧ q = q' := by
      cases k with
      | zero => exact ⟨rfl, Option.some.inj hget⟩
      | succ k => cases hget
    rw [hq, if_neg (by simp)]
    exact Or.inl hidx

/-! ### The names of nets, cut out of the labels -/

theorem Indexes.busName_eq {net l : Str} (h : Indexes net l) : busName l = net := by
  obtain ⟨ds, hds, rfl⟩ := h
  have hlast : (net ++ '[' :: (ds ++ [']'])).getLast? = some ']' := by
    rw [← List.cons_append, ← List.append_assoc, List.getLast?_concat]
  have hmem : '[' ∈ net ++ '[' :: (ds ++ [']']) := by simp
  have htail : ∀ c ∈ ds ++ [']'], (c != '[') = true := by
    intro c hc
    rcases List.mem_append.mp hc with hc | hc
    · rw [bne_iff_ne]
      rintro rfl
      exact absurd (hds _ hc) (by decide)
    · rw [List.mem_singleton.mp hc]
      decide
  have hdrop : (net ++ '[' :: (ds ++ [']'])).rdropWhile (· != '[') = net ++ ['['] := by
    rw [rdropWhile_append_cons (p := (· != '[')) (by simp), List.rdropWhile_eq_nil_iff.mpr htail]
  rw [busName, if_pos hlast, rsplitHead, if_pos hmem, hdrop, List.dropLast_concat]

theorem Indexes.ne_nil {net l : Str} (h : Indexes net l) : l ≠ [] := by
  obtain ⟨ds, -, rfl⟩ := h
  exact List.append_ne_nil_of_right_ne_nil _ (List.cons_ne_nil _ _)

theorem Indexes.solid {net l : Str} (h : Indexes net l) (hnet : Solid net) : Solid l := by
  obtain ⟨ds, hds, rfl⟩ := h
  have hopen : Solid ['['] := by decide
  have hclose : Solid [']'] := by decide
  exact hnet.append (hopen.append ((show Solid ds from fun c hc => isSpace_of_isDigit (hds c hc)).append hclose))

/-- A name is cut at its last bracket when it ends in one. -/
theorem busName_eq_self_iff {n : Str} : busName n = n ↔ (n.getLast? = some ']' → '[' ∉ n) := by
  unfold busName
  split_ifs with hlast
  · rw [forall_prop_of_true hlast]
    unfold rsplitHead
    split_ifs with hmem
    · rw [iff_false_right (not_not.mpr hmem)]
      intro heq
      have hlt : n.length = (n.rdropWhile (· != '[')).length - 1 := by
        rw [← List.length_dropLast, heq]
      have hle := (List.rdropWhile_prefix (· != '[') n).length_le
      have hpos := List.length_pos_of_mem hmem
      omega
    · exact iff_of_true rfl hmem
  · exact iff_of_true rfl fun h => absurd h hlast

/-! ### The map, loaded -/

/-- The items of the map: a bit of the probe and a name each. -/
def numbered (names : List Str) : List (ℤ × Str) := names.zipIdx.map fun p => ((p.2 : ℤ), p.1)

theorem fileLines_mapFile {names : List Str} (h : ∀ n ∈ names, Solid n) :
    fileLines (mapFile names) = names.zipIdx.map fun p => lineOf p.2 p.1 := by
  rw [mapFile, fileLines_flatMap]
  rw [List.forall_mem_map]
  exact fun p hp => unbroken_lineOf p.2 (h p.1 (List.fst_mem_of_mem_zipIdx hp))

/-- The map loads as it was written. -/
theorem loadMap_mapFile {names : List Str} (h : ∀ n ∈ names, Solid n) (hne : ∀ n ∈ names, n ≠ [])
    (hfew : Readable names.length) :
    loadMap (mapFile names) = some (Dict.empty.update (numbered names)) := by
  have hfold : ∀ (xs : List (Str × ℕ)), (∀ x ∈ xs, Solid x.1 ∧ x.1 ≠ [] ∧
      (Nat.toDigits 10 x.2).length ≤ maxStrDigits) → ∀ d : Dict ℤ Str,
      (xs.map fun p => lineOf p.2 p.1).foldlM loadLine d =
        some (d.update (xs.map fun p => ((p.2 : ℤ), p.1))) := by
    intro xs
    induction xs with
    | nil => exact fun _ d => rfl
    | cons x xs ih =>
      intro hxs d
      obtain ⟨⟨hsolid, hname, hlen⟩, hxs⟩ := List.forall_mem_cons.mp hxs
      have hline : loadLine d (lineOf x.2 x.1) = some (d.set x.2 x.1) := by
        simp [loadLine, fields_lineOf x.2 hsolid hname, int?_toDigits hlen]
      rw [List.map_cons, List.foldlM_cons, hline, Option.bind_eq_bind, Option.bind_some, ih hxs]
      rfl
  rw [loadMap, fileLines_mapFile h, hfold]
  · rfl
  · intro x hx
    have hmem := List.fst_mem_of_mem_zipIdx hx
    have hlt : x.2 < names.length :=
      (List.getElem?_eq_some_iff.mp (List.mem_zipIdx_iff_getElem?.mp hx)).1
    exact ⟨h x.1 hmem, hne x.1 hmem, hfew x.2 hlt⟩

/-- A map that loads has a number `int` reads and a name in each of its lines. -/
theorem fields_of_loadMap {names : List Str} (h : ∀ n ∈ names, Solid n) {d : Dict ℤ Str}
    (hd : loadMap (mapFile names) = some d) {k : ℕ} {n : Str} (hk : names[k]? = some n) :
    ∃ ds n', fields (lineOf k n) = [ds, n'] ∧ (int? ds).isSome := by
  have hlines : ∀ (ls : List Str) (d d' : Dict ℤ Str), ls.foldlM loadLine d = some d' →
      ∀ l ∈ ls, ∃ ds n', fields l = [ds, n'] ∧ (int? ds).isSome := by
    intro ls
    induction ls with
    | nil => exact fun _ _ _ l hl => absurd hl List.not_mem_nil
    | cons l ls ih =>
      intro d d' hfold
      rw [List.foldlM_cons, Option.bind_eq_bind, Option.bind_eq_some_iff] at hfold
      obtain ⟨d₁, hload, hfold⟩ := hfold
      refine List.forall_mem_cons.mpr ⟨?_, ih d₁ d' hfold⟩
      unfold loadLine at hload
      split at hload
      · next ds n hfields =>
        obtain ⟨k, hk, -⟩ := Option.map_eq_some_iff.mp hload
        exact ⟨ds, n, hfields, by rw [hk]; rfl⟩
      · cases hload
  rw [loadMap, fileLines_mapFile h] at hd
  exact hlines _ _ _ hd _ (List.mem_map.mpr ⟨(n, k), List.mem_zipIdx_iff_getElem?.mpr hk, rfl⟩)

theorem ne_nil_of_loadMap {names : List Str} (h : ∀ n ∈ names, Solid n) {d : Dict ℤ Str}
    (hd : loadMap (mapFile names) = some d) : ∀ n ∈ names, n ≠ [] := by
  rintro n hn rfl
  obtain ⟨k, hk⟩ := List.mem_iff_getElem?.mp hn
  obtain ⟨ds, n', htwo, -⟩ := fields_of_loadMap h hd hk
  have hfields : fields (lineOf k []) = [Nat.toDigits 10 k] := by
    rw [fields, lineOf, List.splitOnP_append_cons_of_forall_mem (solid_toDigits k) ' ' (by decide)]
    simp [Nat.toDigits_ne_nil]
  rw [hfields] at htwo
  cases htwo

theorem readable_of_loadMap {names : List Str} (h : ∀ n ∈ names, Solid n) {d : Dict ℤ Str}
    (hd : loadMap (mapFile names) = some d) : Readable names.length := by
  intro k hk
  have hget : names[k]? = some names[k] := List.getElem?_eq_getElem hk
  obtain ⟨ds, n', htwo, hint⟩ := fields_of_loadMap h hd hget
  rw [fields_lineOf k (h _ (List.getElem_mem hk))
    (ne_nil_of_loadMap h hd _ (List.getElem_mem hk))] at htwo
  obtain ⟨rfl, -⟩ := List.cons.inj htwo
  by_contra hlen
  rw [int?_eq_ite (isNumeral_toDigits k), if_neg hlen] at hint
  cases hint

/-- The names of a map have no white space. -/
theorem solid_of_loadMap {text : Str} {d : Dict ℤ Str} (h : loadMap text = some d) :
    ∀ n ∈ d.values, Solid n := by
  have hfold : ∀ (ls : List Str) (d d' : Dict ℤ Str), (∀ n ∈ d.values, Solid n) →
      ls.foldlM loadLine d = some d' → ∀ n ∈ d'.values, Solid n := by
    intro ls
    induction ls with
    | nil =>
      intro d d' hsolid hfold
      rw [← Option.some.inj hfold]
      exact hsolid
    | cons l ls ih =>
      intro d d' hsolid hfold
      rw [List.foldlM_cons, Option.bind_eq_bind, Option.bind_eq_some_iff] at hfold
      obtain ⟨d₁, hload, hfold⟩ := hfold
      refine ih d₁ d' (fun n hn => ?_) hfold
      unfold loadLine at hload
      split at hload
      · next k n' hfields =>
        obtain ⟨k', -, rfl⟩ := Option.map_eq_some_iff.mp hload
        obtain ⟨k'', hget⟩ := Dict.mem_values.mp hn
        rw [Dict.get?_set] at hget
        split_ifs at hget
        · rw [← Option.some.inj hget]
          have hmem : n' ∈ fields l := by
            rw [hfields]
            exact List.mem_cons_of_mem _ (List.mem_singleton_self n')
          exact fun c hc => (mem_of_mem_splitOnP (List.mem_of_mem_filter hmem) c hc).2
        · exact hsolid n (Dict.mem_values.mpr ⟨k'', hget⟩)
      · cases hload
  exact hfold _ _ _ (fun n hn => absurd hn List.not_mem_nil) h

/-- The columns of a map come in the order it was written in. -/
theorem columns_numbered (names : List Str) :
    columns (Dict.empty.update (numbered names)) = numbered names := by
  have hlt : MainWindow.Ordered (numbered names) := by
    refine List.pairwise_map.mpr ?_
    have hrange : ((names.zipIdx.map Prod.snd).Pairwise (· < ·)) := by
      rw [List.zipIdx_map_snd]
      exact List.pairwise_lt_range'
    exact (List.pairwise_map.mp hrange).imp fun h => Int.ofNat_lt.mpr h
  have hkeys : ((numbered names).map Prod.fst).Nodup :=
    (List.pairwise_map.mpr hlt).imp fun h => ne_of_lt h
  refine (MainWindow.columns_eq hlt fun k => ?_).symm
  have hget : ((numbered names).find? fun p => p.1 = k).map Prod.snd =
      (⟨numbered names, hkeys⟩ : Dict ℤ Str).get? k := rfl
  rw [hget]
  apply Option.ext
  intro n
  rw [Dict.get?_eq_some]
  refine ⟨Dict.get?_update_of_mem Dict.empty hkeys, Dict.mem_of_get?_update_empty⟩

/-! ### Columns are runs of names -/

/-- A place with its name, and the bit of the probe it is sampled in. -/
abbrev Entry := (Place × Str) × ℕ

/-- The name of the column an entry is put into. -/
def columnOf (x : Entry) : Str := busName x.1.2

/-- The column of a run. -/
def busOf (g : Str × List Entry) : Bus := (g.1, g.2.map fun x => (x.2 : ℤ))

theorem appendBit_map (gs : List (Str × List Entry)) (x : Entry) :
    appendBit (gs.map busOf) (columnOf x) x.2 = (Runs.push columnOf gs x).map busOf := by
  unfold appendBit Runs.push
  rw [List.getLast?_map]
  cases gs.getLast? with
  | none => simp [busOf]
  | some g =>
    by_cases hkey : g.1 = columnOf x
    · simp [busOf, hkey]
    · simp [busOf, hkey]

/-- **The columns of a map are the runs of names in it.** -/
theorem busesOf_eq {items : List (Place × Str)} (hne : items ≠ []) (width : ℕ) :
    busesOf (Dict.empty.update (numbered (items.map Prod.snd))) width =
      (Runs.runs columnOf items.zipIdx).map busOf := by
  have hcols := columns_numbered (items.map Prod.snd)
  have hitems : (Dict.empty.update (numbered (items.map Prod.snd))).items ≠ [] := by
    intro hnil
    have hcols' : columns (Dict.empty.update (numbered (items.map Prod.snd))) = [] := by
      simp [columns, Dict.keys, hnil]
    rw [hcols'] at hcols
    have hlen := congrArg List.length hcols
    simp only [numbered, List.length_map, List.length_zipIdx, List.length_nil] at hlen
    exact hne (List.length_eq_zero_iff.mp hlen.symm)
  have hnumbered : numbered (items.map Prod.snd) =
      items.zipIdx.map fun x => ((x.2 : ℤ), x.1.2) := by
    rw [numbered, List.zipIdx_map, List.map_map]
    rfl
  rw [busesOf, if_pos hitems, hcols, hnumbered, List.foldl_map]
  have hruns : ([] : List Bus) = ([] : List (Str × List Entry)).map busOf := rfl
  rw [hruns]
  exact List.foldl_hom (List.map busOf) fun gs x => appendBit_map gs x

/-- Without names there is a column for each bit of the probe. -/
theorem busesOf_nil (width : ℕ) : busesOf (Dict.empty.update (numbered [])) width =
    (List.range width).map fun k => (unnamed k, [(k : ℤ)]) := by
  have hitems : (Dict.empty.update (numbered [])).items = [] := rfl
  rw [busesOf, if_neg (not_not.mpr hitems), foldl_unnamed]

/-! ### Weights -/

theorem sampled_two_pow (j : ℕ) (k : ℤ) : sampled (2 ^ j) k = if k.toNat = j then 1 else 0 := by
  rw [sampled, Nat.testBit_two_pow]
  by_cases h : k.toNat = j
  · rw [if_pos h, decide_eq_true h.symm]
    rfl
  · rw [if_neg h, decide_eq_false (Ne.symm h)]
    rfl

/-- `field` weighs the bits as they come. -/
theorem field_eq_sum (v : ℕ) (ks : List ℤ) :
    field v ks = (ks.zipIdx.map fun p => sampled v p.1 * 2 ^ p.2).sum := by
  refine congrArg List.sum (List.map_congr_left fun p _ => ?_)
  rw [Nat.shiftLeft_eq, Nat.and_one_is_mod, Nat.shiftRight_eq_div_pow, sampled, Nat.toNat_testBit]

/-- The weight of one bit is what the column shows when only that bit is set. -/
theorem sum_sampled {ks : List ℤ} (hks : (ks.map Int.toNat).Nodup) (w : ℤ × ℕ → ℕ) {p : ℤ × ℕ}
    (hp : p ∈ ks.zipIdx) :
    (ks.zipIdx.map fun q => sampled (2 ^ p.1.toNat) q.1 * w q).sum = w p := by
  have hnodup : (ks.zipIdx.map fun q => q.1.toNat).Nodup := by
    rw [← List.zipIdx_map_fst 0 ks, List.map_map] at hks
    exact hks
  have hother : ∀ q, q ≠ p → q ∈ ks.zipIdx → sampled (2 ^ p.1.toNat) q.1 * w q = 0 := by
    intro q hne hq
    have hbit : q.1.toNat ≠ p.1.toNat := fun h => hne (List.inj_on_of_nodup_map hnodup hq hp h)
    rw [sampled_two_pow, if_neg hbit, zero_mul]
  have hcount : @List.count _ instBEqOfDecidableEq p ks.zipIdx = 1 :=
    @List.count_eq_one_of_mem _ instBEqOfDecidableEq _ _ _ (List.Nodup.of_map _ hnodup) hp
  rw [List.sum_map_eq_nsmul_single p _ hother, hcount, one_nsmul, sampled_two_pow, if_pos rfl,
    one_mul]

/-- **The bits of a column are weighted by rank when they come in their order, and only then.** -/
theorem weighted_iff {ks : List ℤ} (hks : (ks.map Int.toNat).Nodup) (f : ℤ → ℕ) :
    (∀ v, field v ks = (ks.map fun k => sampled v k * 2 ^ Runs.rank f ks k).sum) ↔
      ks.Pairwise fun k k' => f k < f k' := by
  have hranked : ∀ v, (ks.map fun k => sampled v k * 2 ^ Runs.rank f ks k).sum =
      (ks.zipIdx.map fun p => sampled v p.1 * 2 ^ Runs.rank f ks p.1).sum := by
    intro v
    have hfst : ∀ g : ℤ → ℕ, ks.map g = ks.zipIdx.map fun p => g p.1 := fun g => by
      conv_lhs => rw [← List.zipIdx_map_fst 0 ks, List.map_map]
      rfl
    rw [hfst]
  rw [← Runs.rank_iff]
  constructor
  · intro h i hi
    have hp : (ks[i], i) ∈ ks.zipIdx :=
      List.mem_zipIdx_iff_getElem?.mpr (List.getElem?_eq_getElem hi)
    have hweight := h (2 ^ ks[i].toNat)
    rw [field_eq_sum, hranked, sum_sampled hks (fun p => 2 ^ p.2) hp,
      sum_sampled hks (fun p => 2 ^ Runs.rank f ks p.1) hp] at hweight
    exact (Nat.pow_right_injective le_rfl hweight).symm
  · intro h v
    rw [field_eq_sum, hranked]
    refine congrArg List.sum (List.map_congr_left fun p hp => ?_)
    obtain ⟨hi, hval⟩ := List.getElem?_eq_some_iff.mp (List.mem_zipIdx_iff_getElem?.mp hp)
    rw [← hval, h p.2 hi]

/-! ### The columns of an ILA -/

theorem placeOf_natCast (ps : List Place) (k : ℕ) : placeOf ps k = ps[k]? := rfl

section Entries

variable {items : List (Place × Str)}

theorem placeOf_entry {x : Entry} (hx : x ∈ items.zipIdx) :
    placeOf (items.map Prod.fst) x.2 = some x.1.1 := by
  rw [placeOf_natCast, List.getElem?_map, List.mem_zipIdx_iff_getElem?.mp hx, Option.map_some]

theorem indexOf_entry {x : Entry} (hx : x ∈ items.zipIdx) :
    indexOf (items.map Prod.fst) x.2 = x.1.1.2 := by
  rw [indexOf, placeOf_entry hx, Option.map_some, Option.getD_some]

/-- The positions of the columns show the places in the order of the probe word. -/
theorem placeOf_positions {gs : List (Str × List Entry)}
    (h : Runs.Grouped columnOf items.zipIdx gs) :
    (((gs.map busOf).flatMap Prod.snd).map (placeOf (items.map Prod.fst))) =
      (items.map Prod.fst).map some := by
  have hpositions : (gs.map busOf).flatMap Prod.snd = items.zipIdx.map fun x => (x.2 : ℤ) := by
    rw [← h.flatten, List.map_flatten, List.map_map, List.flatMap_map, List.flatMap_def]
    rfl
  have hplaces : (items.zipIdx.map fun x => (x.2 : ℤ)).map (placeOf (items.map Prod.fst)) =
      items.zipIdx.map fun x => some x.1.1 := by
    rw [List.map_map]
    exact List.map_congr_left fun x hx => placeOf_entry hx
  rw [hpositions, hplaces, List.map_map]
  conv_rhs => rw [← List.zipIdx_map_fst 0 items, List.map_map]
  rfl

/-- Neighbours of one net are in order when the bits of each column are. -/
theorem isChain_iff_runs {gs : List (Str × List Entry)}
    (h : Runs.Grouped columnOf items.zipIdx gs) (hname : ∀ x ∈ items, busName x.2 = x.1.1) :
    ((items.map Prod.fst).IsChain fun q q' => q.1 = q'.1 → q.2 < q'.2) ↔
      ∀ g ∈ gs, g.2.Pairwise fun x y => x.1.1.2 < y.1.1.2 := by
  have hnet : ∀ x ∈ items.zipIdx, columnOf x = x.1.1.1 := fun x hx =>
    hname x.1 (List.fst_mem_of_mem_zipIdx hx)
  have hplaces : items.map Prod.fst = items.zipIdx.map fun x => x.1.1 := by
    conv_lhs => rw [← List.zipIdx_map_fst 0 items, List.map_map]
    rfl
  have : Trans (fun x y : Entry => x.1.1.2 < y.1.1.2) (fun x y : Entry => x.1.1.2 < y.1.1.2)
      fun x y : Entry => x.1.1.2 < y.1.1.2 := ⟨lt_trans⟩
  calc ((items.map Prod.fst).IsChain fun q q' => q.1 = q'.1 → q.2 < q'.2)
      ↔ items.zipIdx.IsChain fun x y => x.1.1.1 = y.1.1.1 → x.1.1.2 < y.1.1.2 := by
        rw [hplaces, List.isChain_map]
    _ ↔ items.zipIdx.IsChain fun x y => columnOf x = columnOf y → x.1.1.2 < y.1.1.2 := by
        refine List.IsChain.iff_of_mem_imp fun x y hx hy => ?_
        rw [hnet x hx, hnet y hy]
    _ ↔ ∀ g ∈ gs, g.2.IsChain fun x y => x.1.1.2 < y.1.1.2 := h.isChain_iff _
    _ ↔ ∀ g ∈ gs, g.2.Pairwise fun x y => x.1.1.2 < y.1.1.2 :=
        forall₂_congr fun g _ => List.isChain_iff_pairwise

/-- **Columns whose names are those of the nets show them when no bit stands twice and neighbours
of one net come in the order of their indices, and only then.** -/
theorem shows_runs_iff (hname : ∀ x ∈ items, busName x.2 = x.1.1)
    (hbit : ∀ x ∈ items, (bitAt top x.1).isSome) :
    Shows top (items.map Prod.fst) ((Runs.runs columnOf items.zipIdx).map busOf) ↔
      (items.map Prod.fst).Nodup ∧
        (items.map Prod.fst).IsChain fun q q' => q.1 = q'.1 → q.2 < q'.2 := by
  have hgs := Runs.grouped_runs columnOf items.zipIdx
  set gs := Runs.runs columnOf items.zipIdx
  have hmem : ∀ g ∈ gs, ∀ x ∈ g.2, x ∈ items.zipIdx := fun g hg x hx => by
    rw [← hgs.flatten]
    exact List.mem_flatten.mpr ⟨g.2, List.mem_map.mpr ⟨g, hg, rfl⟩, hx⟩
  have hnet : ∀ g ∈ gs, ∀ x ∈ g.2, g.1 = x.1.1.1 := fun g hg x hx => by
    rw [← hgs.key_eq g hg x hx]
    exact hname x.1 (List.fst_mem_of_mem_zipIdx (hmem g hg x hx))
  have honce : (∀ q ∈ items.map Prod.fst, (((gs.map busOf).flatMap Prod.snd).map
      (placeOf (items.map Prod.fst))).count (some q) = 1) ↔ (items.map Prod.fst).Nodup := by
    rw [placeOf_positions hgs, List.nodup_iff_count_eq_one]
    refine forall₂_congr fun q _ => ?_
    rw [List.count_map_of_injective _ _ (Option.some_injective _)]
  have hweighted : (∀ b ∈ gs.map busOf, ∀ v, field v b.2 = (b.2.map fun k =>
      sampled v k * 2 ^ Runs.rank (indexOf (items.map Prod.fst)) b.2 k).sum) ↔
      ∀ g ∈ gs, g.2.Pairwise fun x y => x.1.1.2 < y.1.1.2 := by
    rw [List.forall_mem_map]
    refine forall₂_congr fun g hg => ?_
    have hks : ((busOf g).2.map Int.toNat).Nodup := by
      have hnat : (busOf g).2.map Int.toNat = g.2.map Prod.snd := by
        rw [busOf, List.map_map]
        rfl
      have hsub : (g.2.map Prod.snd).Sublist (items.zipIdx.map Prod.snd) := by
        rw [← hgs.flatten]
        exact (List.sublist_flatten_of_mem (List.mem_map.mpr ⟨g, hg, rfl⟩)).map _
      rw [hnat]
      refine List.Nodup.sublist hsub ?_
      rw [List.zipIdx_map_snd]
      exact List.nodup_range' ..
    rw [weighted_iff hks, busOf, List.pairwise_map]
    refine List.Pairwise.iff_of_mem fun {x y} hx hy => ?_
    rw [indexOf_entry (hmem g hg x hx), indexOf_entry (hmem g hg y hy)]
  rw [isChain_iff_runs hgs hname]
  constructor
  · exact fun h => ⟨honce.mp h.once, hweighted.mp h.weighted⟩
  · rintro ⟨hnodup, hascending⟩
    refine ⟨honce.mpr hnodup, ?_, hweighted.mpr hascending, ?_⟩
    · intro b hb k hk
      obtain ⟨g, hg, rfl⟩ := List.mem_map.mp hb
      obtain ⟨x, hx, rfl⟩ := List.mem_map.mp hk
      refine ⟨x.1.1.2, ?_⟩
      rw [placeOf_entry (hmem g hg x hx), busOf, hnet g hg x hx]
    · intro b hb bs hbs hone
      obtain ⟨g, hg, rfl⟩ := List.mem_map.mp hb
      -- the only index is 0
      have hzero : ∀ x ∈ g.2, x.1.1.2 = 0 := by
        intro x hx
        have hsome := hbit x.1 (List.fst_mem_of_mem_zipIdx (hmem g hg x hx))
        have hbs : top.bitsOf g.1 = some bs := hbs
        rw [bitAt, ← hnet g hg x hx, hbs, Option.bind_some] at hsome
        obtain ⟨c, hc⟩ := Option.isSome_iff_exists.mp hsome
        have hlt := (List.getElem?_eq_some_iff.mp hc).1
        omega
      have hlen : (busOf g).2.length = g.2.length := List.length_map _
      rw [hlen]
      cases hgs2 : g.2 with
      | nil => exact absurd hgs2 (hgs.ne_nil g hg)
      | cons x xs =>
        cases xs with
        | nil => rfl
        | cons y ys =>
          rw [hgs2] at hzero
          have hpair := hascending g hg
          rw [hgs2] at hpair
          have hlt := (List.pairwise_cons.mp hpair).1 y List.mem_cons_self
          rw [hzero x List.mem_cons_self,
            hzero y (List.mem_cons_of_mem _ List.mem_cons_self)] at hlt
          exact absurd hlt (lt_irrefl 0)

end Entries

/-! ### From the probes to the columns -/

theorem word_of_plan {a : Args} {design ila : Modules} {p : Plan} (h : plan a design ila = .ok p) :
    a.probes.foldlM (addProbe p.topName p.top) ⟨[], []⟩ = .ok p.word := by
  simp only [plan, bind_eq_ok, orRaise_eq_ok] at h
  obtain ⟨clk, -, ⟨topName, top⟩, -, ⟨k, m⟩, -, word, hword, probe, -, h⟩ := h
  split_ifs at h with hwidth
  · simp [throw, throwThe, MonadExceptOf.throw, bind, Except.bind] at h
  simp only [bind_eq_ok, orRaise_eq_ok, pure_eq_ok] at h
  obtain ⟨nets, -, net, -, clkPort, -, pin, -, rfl⟩ := h
  exact hword

section Plan

variable {probes : List Str} {width : ℕ}

/-- A label has the name of its net in front, or is the one name of a net of one bit. -/
theorem labelled_cases {x : Place × Str} (hx : x ∈ labelled top probes) :
    Indexes x.1.1 x.2 ∨ x.2 = x.1.1 ∧ ∃ p ∈ probes, x.2 = (Str.partition '/' p).1 ∧
      asked top p = [((Str.partition '/' p).1, 0)] := by
  obtain ⟨p, hp, hx⟩ := List.mem_flatMap.mp hx
  rcases label_cases hx with h | ⟨hnet, hname, halone⟩
  · exact Or.inl h
  · exact Or.inr ⟨hnet, p, hp, hname, halone⟩

theorem length_labels :
    ((labelled top probes).map Prod.snd).length = (places top probes).length := by
  rw [← map_fst_labelled, List.length_map, List.length_map]

theorem mem_places {x : Place × Str} (hx : x ∈ labelled top probes) : x.1 ∈ places top probes := by
  rw [← map_fst_labelled]
  exact List.mem_map.mpr ⟨x, hx, rfl⟩

/-- No label has white space when no net has. -/
theorem solid_labels (h : ∀ q ∈ places top probes, Solid q.1) :
    ∀ n ∈ (labelled top probes).map Prod.snd, Solid n := by
  rw [List.forall_mem_map]
  intro x hx
  have hnet := h x.1 (mem_places hx)
  rcases labelled_cases hx with hidx | ⟨hname, -⟩
  · exact hidx.solid hnet
  · rw [hname]
    exact hnet

/-- A net of one bit, by its own name, is an item of the map. -/
theorem alone_mem {p : Str} (hp : p ∈ probes)
    (halone : asked top p = [((Str.partition '/' p).1, 0)]) :
    (((Str.partition '/' p).1, 0), (Str.partition '/' p).1) ∈ labelled top probes := by
  refine List.mem_flatMap.mpr ⟨p, hp, ?_⟩
  rw [labels, halone]
  exact List.mem_singleton_self _

/-- What legible probes have for labels. -/
theorem Legible.names (h : Legible top probes width) {x : Place × Str}
    (hx : x ∈ labelled top probes) : x.2 ≠ [] ∧ busName x.2 = x.1.1 := by
  rcases labelled_cases hx with hidx | ⟨hnet, p, hp, hname, halone⟩
  · exact ⟨hidx.ne_nil, hidx.busName_eq⟩
  · obtain ⟨hne, hbracket⟩ := h.plain p hp halone
    rw [← hnet, hname]
    exact ⟨hne, busName_eq_self_iff.mpr hbracket⟩

/-- A column that is right names every net in it. -/
theorem Shows.net {ps : List Place} {buses : List Bus} (h : Shows top ps buses) {q : Place}
    (hq : q ∈ ps) : ∃ b ∈ buses, b.1 = q.1 := by
  have hpos : 0 < ((buses.flatMap Prod.snd).map (placeOf ps)).count (some q) := by
    rw [h.once q hq]
    exact Nat.one_pos
  obtain ⟨k, hk, hplace⟩ := List.mem_map.mp (List.count_pos_iff.mp hpos)
  obtain ⟨b, hb, hk⟩ := List.mem_flatMap.mp hk
  obtain ⟨i, hi⟩ := h.labelled b hb k hk
  rw [hplace] at hi
  exact ⟨b, hb, (congrArg Prod.fst (Option.some.inj hi)).symm⟩

/-- **The columns show the nets they are labelled with for legible probes, and only for these.** -/
theorem shows_iff (hbit : ∀ q ∈ places top probes, (bitAt top q).isSome) :
    (∃ d, loadMap (mapFile ((labelled top probes).map Prod.snd)) = some d ∧
      Shows top (places top probes) (busesOf d width)) ↔ Legible top probes width := by
  have hbits : ∀ x ∈ labelled top probes, (bitAt top x.1).isSome := fun x hx =>
    hbit x.1 (mem_places hx)
  constructor
  · rintro ⟨d, hload, hshows⟩
    have hsolid : ∀ q ∈ places top probes, Solid q.1 := by
      intro q hq
      obtain ⟨b, hb, hname⟩ := hshows.net hq
      rw [← hname]
      exact solid_busesOf (solid_of_loadMap hload) width b hb
    have hne := ne_nil_of_loadMap (solid_labels hsolid) hload
    have hfew := readable_of_loadMap (solid_labels hsolid) hload
    obtain rfl := Option.some.inj ((loadMap_mapFile (solid_labels hsolid) hne hfew).symm.trans hload)
    rw [length_labels] at hfew
    rcases eq_or_ne (labelled top probes) [] with hnil | hitems
    · have hplaces : places top probes = [] := by rw [← map_fst_labelled, hnil, List.map_nil]
      refine ⟨Or.inr ?_, hsolid, ?_, hfew, by rw [hplaces]; exact List.nodup_nil, by simp [hplaces]⟩
      · -- the first of the columns of no net
        cases width with
        | zero => rfl
        | succ width =>
          have hbus : (unnamed 0, [0]) ∈
              busesOf (Dict.empty.update (numbered [])) (width + 1) := by
            rw [busesOf_nil]
            exact List.mem_map.mpr ⟨0, List.mem_range.mpr (Nat.succ_pos width), rfl⟩
          rw [hnil, List.map_nil] at hshows
          obtain ⟨i, hi⟩ := hshows.labelled _ hbus 0 (List.mem_singleton_self 0)
          rw [hplaces] at hi
          cases hi
      · intro p hp halone
        have hmem := alone_mem hp halone
        rw [hnil] at hmem
        cases hmem
    · rw [busesOf_eq hitems] at hshows
      have hname : ∀ x ∈ labelled top probes, busName x.2 = x.1.1 := by
        intro x hx
        have hgs := Runs.grouped_runs columnOf (labelled top probes).zipIdx
        obtain ⟨k, hk⟩ := List.mem_iff_getElem?.mp hx
        have hentry : (x, k) ∈ (labelled top probes).zipIdx := List.mem_zipIdx_iff_getElem?.mpr hk
        have hplace := placeOf_entry hentry
        rw [← hgs.flatten] at hentry
        obtain ⟨l, hl, hentry⟩ := List.mem_flatten.mp hentry
        obtain ⟨g, hg, rfl⟩ := List.mem_map.mp hl
        obtain ⟨i, hi⟩ := hshows.labelled (busOf g) (List.mem_map.mpr ⟨g, hg, rfl⟩) k
          (List.mem_map.mpr ⟨(x, k), hentry, rfl⟩)
        rw [← map_fst_labelled, hplace] at hi
        have hkey : columnOf (x, k) = g.1 := hgs.key_eq g hg (x, k) hentry
        exact hkey.trans (congrArg Prod.fst (Option.some.inj hi)).symm
      rw [← map_fst_labelled, shows_runs_iff hname hbits, map_fst_labelled] at hshows
      refine ⟨Or.inl ?_, hsolid, ?_, hfew, hshows.1, hshows.2⟩
      · rw [← map_fst_labelled]
        exact fun h => hitems (List.map_eq_nil_iff.mp h)
      · intro p hp halone
        have hmem := alone_mem hp halone
        exact ⟨hne _ (List.mem_map.mpr ⟨_, hmem, rfl⟩), busName_eq_self_iff.mp (hname _ hmem)⟩
  · intro h
    have hne : ∀ n ∈ (labelled top probes).map Prod.snd, n ≠ [] := by
      rw [List.forall_mem_map]
      exact fun x hx => (h.names hx).1
    refine ⟨_, loadMap_mapFile (solid_labels h.solid) hne (length_labels ▸ h.few), ?_⟩
    rcases eq_or_ne (labelled top probes) [] with hnil | hitems
    · have hplaces : places top probes = [] := by rw [← map_fst_labelled, hnil, List.map_nil]
      have hwidth : width = 0 := h.mapped.resolve_left (not_not.mpr hplaces)
      rw [hnil, hplaces, hwidth, List.map_nil, busesOf_nil, List.range_zero, List.map_nil]
      exact ⟨by simp, by simp, by simp, by simp⟩
    · have hname : ∀ x ∈ labelled top probes, busName x.2 = x.1.1 := fun x hx => (h.names hx).2
      rw [busesOf_eq hitems, ← map_fst_labelled, shows_runs_iff hname hbits, map_fst_labelled]
      exact ⟨h.once, h.ascending⟩

end Plan

/-- The probe word of an accepted run has a bit for every place. -/
theorem bits_of_plan {a : Args} {design ila : Modules} {p : Plan} (h : plan a design ila = .ok p) :
    p.word.bits.map some =
        (places p.top a.probes).map (fun q => (bitAt p.top q).map defined) ∧
      p.word.names = (labelled p.top a.probes).map Prod.snd := by
  obtain ⟨hbits, hnames⟩ := word_eq (word_of_plan h)
  exact ⟨by simpa using hbits, by simpa using hnames⟩

theorem isSome_bitAt {a : Args} {design ila : Modules} {p : Plan} (h : plan a design ila = .ok p) :
    ∀ q ∈ places p.top a.probes, (bitAt p.top q).isSome := by
  intro q hq
  have hmem : (bitAt p.top q).map defined ∈ p.word.bits.map some := by
    rw [(bits_of_plan h).1]
    exact List.mem_map.mpr ⟨q, hq, rfl⟩
  obtain ⟨b, -, hb⟩ := List.mem_map.mp hmem
  rw [← Option.isSome_map (f := defined), ← hb]
  rfl

theorem plan_of_merge {a : Args} {design ila out : Modules} {names : List Str}
    (h : merge a design ila = .ok (out, names)) :
    ∃ p, plan a design ila = .ok p ∧ p.word.names = names := by
  simp only [merge, bind_eq_ok, pure_eq_ok, Prod.mk.injEq] at h
  obtain ⟨p, hplan, -, hnames⟩ := h
  exact ⟨p, hplan, hnames⟩

/-- The top module of the register. -/
def registerTop : Module := ((top? register.modules).get (by decide)).2

theorem top_register {a : Args} {ila : Modules} {p : Plan} (h : plan a register.modules ila = .ok p) :
    p.top = registerTop := by
  obtain ⟨f⟩ := plan_eq_ok h
  unfold registerTop
  simp only [f.htop, Option.get_some]

theorem legible_probeQ : Legible registerTop probeQ.probes 64 where
  mapped := Or.inl (by decide)
  solid := by decide
  plain := by decide
  few := by decide
  once := by decide
  ascending := by
    have hplaces : places registerTop probeQ.probes = [("q".toList, 0), ("q".toList, 1)] := by decide
    rw [hplaces, List.isChain_pair]
    exact fun _ => Nat.zero_lt_one

/-- **Of the probes the merge accepts, the host's columns show what they are labelled with for the
legible ones.** -/
theorem columns_iff {a : Args} {design ila out : Modules} {names : List Str}
    (h : merge a design ila = .ok (out, names)) (width : ℕ) :
    ∃ p, plan a design ila = .ok p ∧
      p.word.bits.map some =
        (places p.top a.probes).map (fun q => (bitAt p.top q).map defined) ∧
      ((∃ d, loadMap (mapFile names) = some d ∧
          Shows p.top (places p.top a.probes) (busesOf d width)) ↔
        Legible p.top a.probes width) := by
  obtain ⟨p, hplan, rfl⟩ := plan_of_merge h
  obtain ⟨hbits, hnames⟩ := bits_of_plan hplan
  rw [hnames]
  exact ⟨p, hplan, hbits, shows_iff (isSome_bitAt hplan)⟩

theorem columns_iff_probeQ : ∃ p d,
    plan probeQ register.modules samplerNetlist.modules = .ok p ∧
      loadMap (mapFile p.word.names) = some d ∧
      Shows p.top (places p.top probeQ.probes) (busesOf d 64) := by
  obtain ⟨⟨out, names⟩, h⟩ := exists_of_isOk
    (x := merge probeQ register.modules samplerNetlist.modules) (by decide)
  obtain ⟨p, hplan, -, hiff⟩ := columns_iff h 64
  obtain ⟨p', hplan', hnames⟩ := plan_of_merge h
  obtain rfl := Except.ok.inj (hplan.symm.trans hplan')
  obtain ⟨d, hload, hshows⟩ := hiff.mpr (top_register hplan ▸ legible_probeQ)
  exact ⟨p, d, hplan, hnames ▸ hload, hshows⟩

/-- The bits of the register's output, the upper one first. -/
def probeSwapped : Args :=
  { clk := some "clk".toList, probes := ["q[1]".toList, "q[0]".toList] }

/-- Bits probed one by one, from the top down, are weighted the wrong way round. -/
theorem not_columns : ¬ ∀ (a : Args) (design ila out : Modules) (names : List Str),
    merge a design ila = .ok (out, names) → ∀ width, ∃ p d, plan a design ila = .ok p ∧
      loadMap (mapFile names) = some d ∧
      Shows p.top (places p.top a.probes) (busesOf d width) := by
  intro hall
  obtain ⟨⟨out, names⟩, h⟩ := exists_of_isOk
    (x := merge probeSwapped register.modules samplerNetlist.modules) (by decide)
  obtain ⟨p, d, hplan, hload, hshows⟩ := hall _ _ _ _ _ h 64
  obtain ⟨p', hplan', rfl⟩ := plan_of_merge h
  obtain rfl := Except.ok.inj (hplan.symm.trans hplan')
  rw [(bits_of_plan hplan).2] at hload
  have hlegible := (shows_iff (isSome_bitAt hplan)).mp ⟨d, hload, hshows⟩
  rw [top_register hplan] at hlegible
  have hplaces : places registerTop probeSwapped.probes = [("q".toList, 1), ("q".toList, 0)] := by
    decide
  have hchain := hlegible.ascending
  rw [hplaces, List.isChain_pair] at hchain
  exact absurd (hchain rfl) (Nat.not_lt_zero 1)

end Openila
end Xc7Tools
