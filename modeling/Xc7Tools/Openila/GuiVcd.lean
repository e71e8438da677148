/-
# openila GUI: the value change dump

`MainWindow::exportVcd`. It notes the last value of each signal as a `qint64`,
-1 at first, and writes a signal when its value is not the one noted. A value is
what `Waveform::valueAt` makes of the first 64 bits of the signal, so the file
has the others as zeros, and a signal whose first 64 bits are all ones in the
first sample has the value noted at the start: it is not written and has none in
the file. `exportVcd_replays_iff` says that this is all that goes wrong.

Key definitions: `Waveform.valueAt`, `MainWindow.exportVcd`.
Key theorems: `Waveform.valueAt_eq`, `MainWindow.read_exportText`,
`MainWindow.exportVcd_replays_iff`.
-/
import Xc7Tools.Lib.Pick
import Xc7Tools.Openila.Bits
import Xc7Tools.Openila.Vcd

namespace Xc7Tools
namespace Openila

open Str Vcd

/-- `Waveform::valueAt`, of a sample that is not before the first. -/
def Waveform.valueAt (samples : List Bits) (s : Signal) (t : ℕ) : ℕ :=
  match samples[t]? with
  | none => 0
  | some x =>
    (List.range (min s.bits.length 64)).foldl (fun v i => v ||| (x.get (s.bits.getD i 0)).toNat <<< i) 0

/-- `qint64(v)` of a `uint64_t` -/
def toQint64 (v : ℕ) : ℤ := (BitVec.ofNat 64 v).toInt

/-- `quint64(v)` of a `qint64` -/
def toQuint64 (v : ℤ) : ℕ := (BitVec.ofInt 64 v).toNat

/-- A `qint64` in a text stream. -/
def intText (v : ℤ) : Str :=
  if v < 0 then '-' :: Nat.toDigits 10 v.natAbs else Nat.toDigits 10 v.natAbs

namespace MainWindow

/-- The body of the inner loop, with the lines written so far and `last`. -/
def writeSignal (samples : List Bits) (t : ℕ) (st : List Str × List ℤ) (p : Signal × ℕ) :
    List Str × List ℤ :=
  let v := toQint64 (Waveform.valueAt samples p.1 t)
  if st.2[p.2]? = some v then st
  else
    (st.1 ++ [if p.1.bits.length = 1 then intText v ++ ident p.2
      else 'b' :: Nat.toDigits 2 (toQuint64 v) ++ ' ' :: ident p.2], st.2.set p.2 v)

/-- The body of the outer loop. -/
def writeSample (stamp : ℕ → ℕ) (sigs : List Signal) (samples : List Bits) (st : List Str × List ℤ)
    (t : ℕ) : List Str × List ℤ :=
  sigs.zipIdx.foldl (writeSignal samples t) (st.1 ++ ['#' :: Nat.toDigits 10 (stamp t)], st.2)

/-- The text of the file; its header and its identifiers are the script's. -/
def exportText (stamp : ℕ → ℕ) (sigs : List Signal) (samples : List Bits) : Str :=
  unlines (headerLines (fun s => s.bits.length) Signal.name sigs ++
    ((List.range samples.length).foldl (writeSample stamp sigs samples)
      ([], List.replicate sigs.length (-1))).1)

/-- `exportVcd`: none when there is nothing captured yet. -/
def exportVcd (stamp : ℕ → ℕ) (sigs : List Signal) (samples : List Bits) : Option Str :=
  if samples = [] then none else some (exportText stamp sigs samples)

end MainWindow

/-! ### Values -/

/-- The first 64 bits of a signal. -/
def first64 (x : Bits) (s : Signal) : ℕ := pick x.get (s.bits.take 64)

theorem first64_lt (x : Bits) (s : Signal) : first64 x s < 2 ^ 64 := by
  refine (pick_lt x.get (s.bits.take 64)).trans_le (Nat.pow_le_pow_right two_pos ?_)
  rw [List.length_take]
  exact Nat.min_le_left 64 _

theorem Waveform.valueAt_eq {samples : List Bits} (s : Signal) {t : ℕ} (ht : t < samples.length) :
    Waveform.valueAt samples s t = first64 samples[t] s := by
  apply Nat.eq_of_testBit_eq
  intro j
  have hloop := Bits.testBit_orLoop (fun i => samples[t].get (s.bits.getD i 0)) j
    (min s.bits.length 64)
  simp only [Waveform.valueAt, List.getElem?_eq_getElem ht]
  rw [hloop, first64, testBit_pick, List.getElem?_take]
  by_cases h64 : j < 64
  · by_cases hlen : j < s.bits.length
    · simp [h64, hlen]
    · simp [hlen]
  · simp [h64]

theorem toQuint64_toQint64 {v : ℕ} (hv : v < 2 ^ 64) : toQuint64 (toQint64 v) = v := by
  rw [toQuint64, toQint64, BitVec.ofInt_toInt, BitVec.toNat_ofNat, Nat.mod_eq_of_lt hv]

theorem toQint64_inj {v w : ℕ} (hv : v < 2 ^ 64) (hw : w < 2 ^ 64) :
    toQint64 v = toQint64 w ↔ v = w := by
  constructor
  · intro h
    rw [← toQuint64_toQint64 hv, h, toQuint64_toQint64 hw]
  · rintro rfl
    rfl

/-- The value noted at first is that of 64 ones. -/
theorem toQint64_ones : toQint64 (2 ^ 64 - 1) = -1 := by decide

namespace MainWindow

/-! ### Names -/

/-- A line of a map is of one line. -/
theorem unbroken_loadLine {names : List (ℤ × Str)} (h : ∀ it ∈ names, '\n' ∉ it.2) {line : Str}
    (hline : '\n' ∉ line) : ∀ it ∈ loadLine names line, '\n' ∉ it.2 := by
  have htrim : '\n' ∉ trimmed line := fun hmem =>
    hline (List.dropWhile_sublist _ |>.subset ((List.rdropWhile_prefix _ _).subset hmem))
  unfold loadLine
  simp only
  split_ifs
  · exact h
  · split
    · rename_i k n hsplit
      intro it hit
      rcases mem_qmapSet_imp hit with rfl | hit
      · have hn : n ∈ (trimmed line).splitOn ' ' := by
          rw [hsplit]
          simp
        exact fun hmem => htrim (mem_of_mem_splitOn hn _ hmem).1
      · exact h it hit
    · exact h

/-- The GUI's signals have no line break in their names. -/
theorem unbroken_sigs (text : Str) (width : ℕ) :
    ∀ b ∈ rebuildTriggerTable (loadMap text) width, '\n' ∉ b.1 := by
  have hnames : ∀ ls : List Str, (∀ l ∈ ls, '\n' ∉ l) →
      ∀ it ∈ ls.foldl loadLine [], '\n' ∉ it.2 := by
    intro ls hls
    induction ls using List.reverseRecOn with
    | nil => exact fun it hit => absurd hit List.not_mem_nil
    | append_singleton ls l ih =>
      rw [List.forall_mem_append, List.forall_mem_singleton] at hls
      rw [List.foldl_append, List.foldl_cons, List.foldl_nil]
      exact unbroken_loadLine (ih hls.1) hls.2
  have hload : ∀ b ∈ loadMap text, '\n' ∉ b.1 := by
    intro b hb
    simp only [loadMap, busName_eq] at hb
    obtain ⟨it, hit, hname⟩ := mem_foldl_appendBit hb
    have hit := hnames _ (fun l hl hmem => (mem_of_mem_splitOn hl _ hmem).2 rfl) it hit
    rw [hname]
    exact fun hmem => hit (mem_of_mem_busName hmem)
  unfold rebuildTriggerTable
  split_ifs
  · rw [List.forall_mem_map]
    exact fun k _ => (solid_unnamed k).unbroken.1
  · exact hload

/-! ### The loops -/

/-- The values of a sample, by the places of the signals. -/
def events (samples : List Bits) (sigs : List (Signal × ℕ)) (t : ℕ) : List (ℕ × ℕ) :=
  sigs.map fun p => (p.2, Waveform.valueAt samples p.1 t)

/-- `last` notes the values of a function. -/
structure Notes (last : List ℤ) (f : ℕ → Option ℕ) : Prop where
  noted : ∀ k (h : k < last.length), ∃ v < 2 ^ 64, f k = some v ∧ last[k] = toQint64 v

theorem Notes.getElem?_eq_iff {last : List ℤ} {f : ℕ → Option ℕ} (h : Notes last f) {k v : ℕ}
    (hk : k < last.length) (hv : v < 2 ^ 64) : last[k]? = some (toQint64 v) ↔ f k = some v := by
  obtain ⟨w, hw, hf, hlast⟩ := h.noted k hk
  rw [List.getElem?_eq_getElem hk, hlast, hf, Option.some_inj, Option.some_inj]
  exact toQint64_inj hw hv

theorem Notes.set {last : List ℤ} {f : ℕ → Option ℕ} (h : Notes last f) (k : ℕ) {v : ℕ}
    (hv : v < 2 ^ 64) : Notes (last.set k (toQint64 v)) (Function.update f k (some v)) := by
  constructor
  intro j hj
  rw [List.length_set] at hj
  rw [List.getElem_set]
  by_cases hjk : k = j
  · subst hjk
    exact ⟨v, hv, Function.update_self _ _ _, if_pos rfl⟩
  · rw [if_neg hjk, Function.update_of_ne (Ne.symm hjk)]
    exact h.noted j hj

theorem valueAt_lt (samples : List Bits) (s : Signal) (t : ℕ) :
    Waveform.valueAt samples s t < 2 ^ 64 := by
  by_cases ht : t < samples.length
  · rw [Waveform.valueAt_eq s ht]
    exact first64_lt _ s
  · rw [Waveform.valueAt, List.getElem?_eq_none (not_lt.mp ht)]
    exact Nat.two_pow_pos 64

theorem valueAt_lt_two {samples : List Bits} {s : Signal} {t : ℕ} (hs : s.bits.length = 1) :
    Waveform.valueAt samples s t < 2 := by
  by_cases ht : t < samples.length
  · have hlt := pick_lt samples[t].get (s.bits.take 64)
    rw [List.length_take, hs] at hlt
    rw [Waveform.valueAt_eq s ht]
    exact hlt
  · rw [Waveform.valueAt, List.getElem?_eq_none (not_lt.mp ht)]
    exact two_pos

/-- A signal is written as the script writes a column. -/
theorem signalLine_eq (width : ℕ) {v : ℕ} (hv : v < 2 ^ 64) (hwidth : width = 1 → v < 2) (id : Str) :
    (if width = 1 then intText (toQint64 v) ++ id
      else 'b' :: Nat.toDigits 2 (toQuint64 (toQint64 v)) ++ ' ' :: id) = changeLine width v id := by
  unfold changeLine
  split_ifs with h
  · rcases (by omega : v = 0 ∨ v = 1 ∨ 2 ≤ v) with rfl | rfl | h2
    · rfl
    · rfl
    · exact absurd (hwidth h) (not_lt.mpr h2)
  · rw [toQuint64_toQint64 hv]

/-- The inner loop writes the changes of a sample. -/
theorem foldl_writeSignal (samples : List Bits) (t : ℕ) : ∀ (ps : List (Signal × ℕ))
    (st : List Str × List ℤ) (f : ℕ → Option ℕ), (∀ p ∈ ps, p.2 < st.2.length) → Notes st.2 f →
    ∃ ls, (ps.foldl (writeSignal samples t) st).1 = st.1 ++ ls ∧
      Says ls (changes ident f (events samples ps t)) ∧
      (ps.foldl (writeSignal samples t) st).2.length = st.2.length ∧
      Notes (ps.foldl (writeSignal samples t) st).2 (noted f (events samples ps t))
  | [], st, f, _, hnotes => ⟨[], (List.append_nil _).symm, says_nil, rfl, hnotes⟩
  | p :: ps, st, f, hlen, hnotes => by
    obtain ⟨hp, hps⟩ := List.forall_mem_cons.mp hlen
    have hv := valueAt_lt samples p.1 t
    have hlast := hnotes.getElem?_eq_iff hp hv
    have hline := signalLine_eq p.1.bits.length hv (valueAt_lt_two (t := t)) (ident p.2)
    have hevents : events samples (p :: ps) t =
        (p.2, Waveform.valueAt samples p.1 t) :: events samples ps t := rfl
    have hnoted : noted f (events samples (p :: ps) t) =
        noted (Function.update f p.2 (some (Waveform.valueAt samples p.1 t)))
          (events samples ps t) := rfl
    rw [List.foldl_cons, hnoted, hevents, changes, writeSignal, hline]
    by_cases hsame : f p.2 = some (Waveform.valueAt samples p.1 t)
    · rw [if_pos (hlast.mpr hsame), if_pos hsame, ← hsame, Function.update_eq_self]
      exact foldl_writeSignal samples t ps st f hps hnotes
    · rw [if_neg fun h => hsame (hlast.mp h), if_neg hsame]
      obtain ⟨ls, hls, hlines, hlength, hnotes'⟩ := foldl_writeSignal samples t ps
        (st.1 ++ [changeLine p.1.bits.length (Waveform.valueAt samples p.1 t) (ident p.2)],
          st.2.set p.2 (toQint64 (Waveform.valueAt samples p.1 t))) _
        (fun q hq => by rw [List.length_set]; exact hps q hq) (hnotes.set p.2 hv)
      refine ⟨_, hls.trans (List.append_assoc _ _ _), ?_, hlength.trans List.length_set, hnotes'⟩
      exact hlines.cons (unbroken_changeLine _ _ (solid_ident p.2))
        (readLine_changeLine _ valueAt_lt_two (solid_ident p.2))

/-- What `last` notes at first. -/
def ones : ℕ → Option ℕ := fun _ => some (2 ^ 64 - 1)

/-- The outer loop writes the dump. -/
theorem foldl_writeSample (stamp : ℕ → ℕ) (sigs : List Signal) (samples : List Bits) (n : ℕ)
    (st : List Str × List ℤ)
    (hst : st = (List.range n).foldl (writeSample stamp sigs samples)
      ([], List.replicate sigs.length (-1))) :
    Says st.1 (dumpOf ident stamp ones (events samples sigs.zipIdx) n) ∧
      st.2.length = sigs.length ∧ Notes st.2 (lastOf ones (events samples sigs.zipIdx) n) := by
  induction n generalizing st with
  | zero =>
    subst hst
    refine ⟨says_nil, List.length_replicate, ⟨fun k hk => ?_⟩⟩
    refine ⟨2 ^ 64 - 1, by decide, rfl, ?_⟩
    rw [toQint64_ones]
    exact List.getElem_replicate _
  | succ n ih =>
    rw [List.range_succ, List.foldl_append] at hst
    obtain ⟨hlines, hlength, hnotes⟩ := ih _ rfl
    set st₀ := (List.range n).foldl (writeSample stamp sigs samples)
      ([], List.replicate sigs.length (-1))
    have hplaces : ∀ p ∈ sigs.zipIdx, p.2 < st₀.2.length := fun p hp => by
      rw [hlength]
      obtain ⟨hlt, _⟩ := List.getElem?_eq_some_iff.mp (List.mem_zipIdx_iff_getElem?.mp hp)
      exact hlt
    obtain ⟨ls, hls, hlines', hlength', hnotes'⟩ := foldl_writeSignal samples n
      sigs.zipIdx (st₀.1 ++ ['#' :: Nat.toDigits 10 (stamp n)], st₀.2) _ hplaces hnotes
    have hst : st = sigs.zipIdx.foldl (writeSignal samples n)
        (st₀.1 ++ ['#' :: Nat.toDigits 10 (stamp n)], st₀.2) := hst
    rw [hst, hls, List.append_assoc]
    refine ⟨hlines.append ?_, hlength'.trans hlength, hnotes'⟩
    exact hlines'.cons (unbroken_timeLine (stamp n)) (readLine_time (stamp n))

/-- What the file says: the signals and the changes of the samples. -/
theorem read_exportText (stamp : ℕ → ℕ) {sigs : List Signal} (hnames : ∀ s ∈ sigs, '\n' ∉ s.name)
    (samples : List Bits) :
    read (exportText stamp sigs samples) = declare (columnVars (fun s => s.bits.length) sigs) ++
      dumpOf ident stamp ones (events samples sigs.zipIdx) samples.length := by
  obtain ⟨hlines, _⟩ := foldl_writeSample stamp sigs samples samples.length _ rfl
  exact read_unlines ((says_headerLines _ hnames).append hlines)

/-- A signal has the value of the last sample, unless all had 64 ones. -/
theorem after_signal (stamp : ℕ → ℕ) {sigs : List Signal} (samples : List Bits)
    {p : Signal × ℕ} (hp : p ∈ sigs.zipIdx) (m : ℕ) :
    after (dumpOf ident stamp ones (events samples sigs.zipIdx) (m + 1)) (ident p.2) =
      if ∀ i ≤ m, 2 ^ 64 - 1 = Waveform.valueAt samples p.1 i then none
      else some (Waveform.valueAt samples p.1 m) := by
  have hkeys : ∀ i, ((events samples sigs.zipIdx i).map Prod.fst).Nodup := fun i => by
    rw [events, List.map_map]
    show (sigs.zipIdx.map Prod.snd).Nodup
    rw [List.zipIdx_map_snd]
    exact List.nodup_range' ..
  have hmem : ∀ i, (p.2, Waveform.valueAt samples p.1 i) ∈ events samples sigs.zipIdx i := fun i =>
    List.mem_map.mpr ⟨p, hp, rfl⟩
  rw [after_dumpOf ident stamp ones _ hkeys (fun _ _ _ he => ident_injective he) hmem]
  exact if_congr (forall₂_congr fun i _ => Option.some_inj) rfl rfl

/-! ### The file -/

/-- What a signal should show in a sample: the value of all its bits. -/
def shownBy (samples : List Bits) (s : Signal) (i : ℕ) : ℕ :=
  pick (samples.getD i (Bits.zeros 0)).get s.bits

/-- The file replays to the samples, but for what is lost of long signals. -/
theorem replays_exportText (stamp : ℕ → ℕ) (period : ℕ) {sigs : List Signal}
    (hnames : ∀ s ∈ sigs, '\n' ∉ s.name) (samples : List Bits) :
    Replays (exportText stamp sigs samples) period samples.length
        (sigs.map fun s => (s.bits.length, shownBy samples s)) ↔
      ((List.range samples.length).map stamp).Pairwise (· < ·) ∧ ∀ s ∈ sigs,
        (∀ x ∈ samples.head?, first64 x s ≠ 2 ^ 64 - 1) ∧
        ∀ i < samples.length, ∃ j, ∃ _ : j < samples.length,
          reached stamp samples.length (i * period) = j + 1 ∧
          first64 samples[j] s = shownBy samples s i := by
  rw [replays_columns _ (grows_dumpOf _ _ _ _) (read_exportText stamp hnames samples)]
  refine and_congr_right fun htime => ?_
  constructor
  · intro h s hs
    obtain ⟨k, hget⟩ := List.mem_iff_getElem?.mp hs
    have hk : (s, k) ∈ sigs.zipIdx := List.mem_zipIdx_iff_getElem?.mpr hget
    have hshown : ∀ i < samples.length, ∃ j, reached stamp samples.length (i * period) = j + 1 ∧
        (¬ ∀ i ≤ j, 2 ^ 64 - 1 = Waveform.valueAt samples s i) ∧
        Waveform.valueAt samples s j = shownBy samples s i := by
      intro i hi
      have hvalue := h i hi _ hk
      cases hreached : reached stamp samples.length (i * period) with
      | zero =>
        rw [hreached] at hvalue
        cases hvalue
      | succ j =>
        rw [hreached, after_signal stamp samples hk] at hvalue
        split_ifs at hvalue with hones
        exact ⟨j, rfl, hones, Option.some.inj hvalue⟩
    constructor
    · intro x hx hones
      obtain ⟨xs, rfl⟩ := List.head?_eq_some_iff.mp hx
      obtain ⟨j, hreached, hnot, _⟩ := hshown 0 (by simp)
      have hzero := reached_zero_le htime
      rw [Nat.zero_mul] at hreached
      apply hnot
      intro i hi
      obtain rfl : i = 0 := by omega
      rw [Waveform.valueAt_eq s (by simp)]
      exact hones.symm
    · intro i hi
      obtain ⟨j, hreached, _, hvalue⟩ := hshown i hi
      have hj : j < samples.length := by
        have hle := reached_le stamp samples.length (i * period)
        omega
      rw [Waveform.valueAt_eq s hj] at hvalue
      exact ⟨j, hj, hreached, hvalue⟩
  · intro h i hi p hp
    obtain ⟨hfirst, hshown⟩ := h p.1 (List.fst_mem_of_mem_zipIdx hp)
    obtain ⟨j, hj, hreached, hvalue⟩ := hshown i hi
    have hpos : 0 < samples.length := by omega
    have hnot : ¬ ∀ i ≤ j, 2 ^ 64 - 1 = Waveform.valueAt samples p.1 i := by
      intro hones
      have hzero := hones 0 (Nat.zero_le j)
      rw [Waveform.valueAt_eq p.1 hpos] at hzero
      refine hfirst samples[0] ?_ hzero.symm
      rw [List.head?_eq_getElem?, List.getElem?_eq_getElem hpos]
      rfl
    rw [hreached, after_signal stamp samples hp, if_neg hnot, Waveform.valueAt_eq p.1 hj, hvalue]

/-- With no samples there is no file, and its text would have none. -/
theorem replays_exportVcd (stamp : ℕ → ℕ) (period : ℕ) {sigs : List Signal}
    (hnames : ∀ s ∈ sigs, '\n' ∉ s.name) (samples : List Bits) :
    (∀ text, exportVcd stamp sigs samples = some text →
      Replays text period samples.length (sigs.map fun s => (s.bits.length, shownBy samples s))) ↔
      Replays (exportText stamp sigs samples) period samples.length
        (sigs.map fun s => (s.bits.length, shownBy samples s)) := by
  unfold exportVcd
  by_cases hnil : samples = []
  · subst hnil
    rw [if_pos rfl]
    refine iff_of_true (fun text h => by cases h) ?_
    rw [replays_exportText stamp period hnames]
    simp
  · rw [if_neg hnil]
    constructor
    · exact fun h => h _ rfl
    · rintro h text ⟨⟩
      exact h

/-- Where the time stamps are on time, that is: no 64 ones in the first sample, and zeros behind the
first 64 bits in all of them. -/
theorem replays_exportText_of_onTime {stamp : ℕ → ℕ} {period : ℕ} {sigs : List Signal}
    (hnames : ∀ s ∈ sigs, '\n' ∉ s.name) {samples : List Bits}
    (htime : OnTime stamp period samples.length) :
    Replays (exportText stamp sigs samples) period samples.length
        (sigs.map fun s => (s.bits.length, shownBy samples s)) ↔
      ∀ s ∈ sigs, (∀ x ∈ samples.head?, first64 x s ≠ 2 ^ 64 - 1) ∧
        ∀ x ∈ samples, ∀ k ∈ s.bits.drop 64, x.get k = false := by
  rw [replays_exportText stamp period hnames, and_iff_right htime.increasing]
  refine forall₂_congr fun s _ => and_congr_right fun _ => ?_
  have hshown : ∀ i (hi : i < samples.length),
      first64 samples[i] s = shownBy samples s i ↔ ∀ k ∈ s.bits.drop 64, samples[i].get k = false := by
    intro i hi
    rw [first64, shownBy, List.getD_eq_getElem _ _ hi]
    exact pick_take_eq_iff
  rw [List.forall_mem_iff_getElem]
  refine forall₂_congr fun i hi => ?_
  constructor
  · rintro ⟨j, hj, hreached, hvalue⟩
    obtain rfl : j = i := by
      rw [htime.reached hi] at hreached
      omega
    exact (hshown j hj).mp hvalue
  · intro h
    exact ⟨i, hi, htime.reached hi, (hshown i hi).mpr h⟩

/-- **The file an export writes replays to the capture, unless a signal has a bit set behind its
first 64 or 64 ones at the start.** Whatever the time stamps, they have to increase, and the last
sample dated up to the time of a sample to show the same; those of doubles do, for a clock of at least
2 ps. -/
theorem exportVcd_replays_iff (period : ℕ) {sigs : List Signal} (hnames : ∀ s ∈ sigs, '\n' ∉ s.name)
    (samples : List Bits) :
    (∀ stamp, (∀ text, exportVcd stamp sigs samples = some text →
        Replays text period samples.length (sigs.map fun s => (s.bits.length, shownBy samples s))) ↔
      ((List.range samples.length).map stamp).Pairwise (· < ·) ∧ ∀ s ∈ sigs,
        (∀ x ∈ samples.head?, first64 x s ≠ 2 ^ 64 - 1) ∧
        ∀ i < samples.length, ∃ j, ∃ _ : j < samples.length,
          reached stamp samples.length (i * period) = j + 1 ∧
          first64 samples[j] s = shownBy samples s i) ∧
    ∀ fl, Rounds fl → 2 ≤ period → samples.length * period ≤ 2 ^ 50 →
      ((∀ text, exportVcd (stampOf fl period) sigs samples = some text →
          Replays text period samples.length (sigs.map fun s => (s.bits.length, shownBy samples s))) ↔
        ∀ s ∈ sigs, (∀ x ∈ samples.head?, first64 x s ≠ 2 ^ 64 - 1) ∧
          ∀ x ∈ samples, ∀ k ∈ s.bits.drop 64, x.get k = false) := by
  refine ⟨fun stamp => ?_, fun fl hfl hp hn => ?_⟩
  · rw [replays_exportVcd stamp period hnames, replays_exportText stamp period hnames]
  · rw [replays_exportVcd _ period hnames, replays_exportText_of_onTime hnames (onTime_of_rounds hfl hp hn)]

/-- A signal of one bit, and three samples of it. -/
def bitSignal : Signal := ⟨"we".toList, [3]⟩

def bitSamples : List Bits := [⟨[8]⟩, ⟨[0]⟩, ⟨[8]⟩]

theorem exportVcd_replays_iff_bit : (∀ s ∈ [bitSignal], '\n' ∉ s.name) ∧
    ∀ text, exportVcd (stampOf id 8000) [bitSignal] bitSamples = some text →
      Replays text 8000 3 ([bitSignal].map fun s => (s.bits.length, shownBy bitSamples s)) := by
  have hnames : ∀ s ∈ [bitSignal], '\n' ∉ s.name := by
    rw [List.forall_mem_singleton]
    simp [bitSignal]
  refine ⟨hnames, ((exportVcd_replays_iff 8000 hnames bitSamples).2 id rounds_id (by decide)
    (by decide)).mpr ?_⟩
  rw [List.forall_mem_singleton]
  exact ⟨by decide, by decide⟩

/-- A signal of 65 bits, and a sample in which only the last is set. -/
def wideSignal : Signal := ⟨"count".toList, List.range 65⟩

def wideSample : Bits := ⟨List.replicate 8 0 ++ [1]⟩

theorem not_exportVcd_replays : ¬ ∀ text,
    exportVcd (fun i => i * 8000) [wideSignal] [wideSample] = some text →
      Replays text 8000 1 ([wideSignal].map fun s => (s.bits.length, shownBy [wideSample] s)) := by
  intro h
  have hnames : ∀ s ∈ [wideSignal], '\n' ∉ s.name := by
    rw [List.forall_mem_singleton]
    simp [wideSignal]
  have hall := (replays_exportText_of_onTime hnames (onTime_mul (by decide) 1)).mp (h _ rfl)
  have hlost := (hall wideSignal List.mem_cons_self).2 wideSample List.mem_cons_self 64 (by decide)
  revert hlost
  decide

end MainWindow

end Openila
end Xc7Tools
