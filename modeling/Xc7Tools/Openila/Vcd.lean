/-
# openila: the value change dump of the script

`write_vcd` of `scripts/openila.py` on the buses of a probe map. A line is
written for a bus when its value is not the one in `last`, and `last` and the
identifiers are kept by the name of the bus: the columns of a map whose names
make the same bus without being neighbours share one identifier, the last one's,
and the others never get a value. That is all that goes wrong (`replays_writeVcd`).
The time of a sample is a product of doubles, `int(i * clk_ns * 1000)`, and
here any function: `onTime_of_rounds` says when such a product is on time, and
there distinct names are all that is asked for (`writeVcd_replays_iff`).

Key definitions: `writeVcd`, `field`, `ident`, `ProbeMap`.
Key theorems: `after_column`, `nodup_of_values`, `replays_writeVcd`, `onTime_of_rounds`,
`writeVcd_replays_iff`.
-/
import Mathlib.Data.Rat.Floor
import Mathlib.Tactic.Linarith
import Xc7Tools.Lib.Replay
import Xc7Tools.Openila.ProbeMap

namespace Xc7Tools
namespace Openila

open Str Vcd

/-! ### The script -/

/-- `field(v, bits)`; the bits of a probe are not negative. -/
def field (v : ℕ) (bits : List ℤ) : ℕ :=
  (bits.zipIdx.map fun p => ((v >>> p.1.toNat) &&& 1) <<< p.2).sum

/-- `chr(33 + j) if j < 90 else f'v{j}'` -/
def ident (j : ℕ) : Str := if j < 90 then [Char.ofNat (33 + j)] else 'v' :: Nat.toDigits 10 j

/-- The dictionary `ids` behind its loop. -/
def idsOf (buses : List Bus) : Dict Str Str :=
  Dict.empty.update (buses.zipIdx.map fun p => (p.1.1, ident p.2))

/-- `f'$var wire {len(bits)} {ids[b]} {b} $end'` -/
def varLine (width : ℕ) (id b : Str) : Str :=
  "$var wire ".toList ++ Nat.toDigits 10 width ++ ' ' :: id ++ ' ' :: b ++ " $end".toList

/-- `f'{x}{ids[b]}' if len(bits) == 1 else f'b{x:b} {ids[b]}'` -/
def changeLine (width x : ℕ) (id : Str) : Str :=
  if width = 1 then Nat.toDigits 10 x ++ id else 'b' :: Nat.toDigits 2 x ++ ' ' :: id

/-- The body of `for b, bits in buses`, with the lines written so far and `last`. -/
def writeBus (ids : Dict Str Str) (v : ℕ) (st : List Str × Dict Str ℕ) (b : Bus) :
    List Str × Dict Str ℕ :=
  let x := field v b.2
  if st.2.get? b.1 ≠ some x then
    (st.1 ++ [changeLine b.2.length x ((ids.get? b.1).getD [])], st.2.set b.1 x)
  else st

/-- The body of `for i, v in enumerate(samples)`. -/
def writeSample (stamp : ℕ → ℕ) (buses : List Bus) (st : List Str × Dict Str ℕ) (p : ℕ × ℕ) :
    List Str × Dict Str ℕ :=
  buses.foldl (writeBus (idsOf buses) p.1) (st.1 ++ ['#' :: Nat.toDigits 10 (stamp p.2)], st.2)

/-- The lines in front of the samples, of columns with a width and a name. -/
def headerLines {α : Type*} (width : α → ℕ) (name : α → Str) (cols : List α) : List Str :=
  ["$timescale 1ps $end".toList, "$scope module ila $end".toList] ++
    cols.zipIdx.map (fun p => varLine (width p.1) (ident p.2) (name p.1)) ++
    ["$upscope $end".toList, "$enddefinitions $end".toList]

/-- `write_vcd`: the text of the file, with the time stamps of the samples. -/
def writeVcd (stamp : ℕ → ℕ) (buses : List Bus) (samples : List ℕ) : Str :=
  unlines (headerLines (fun b => b.2.length) Prod.fst buses ++
    (samples.zipIdx.foldl (writeSample stamp buses) ([], Dict.empty)).1)

/-! ### Its lines, read -/

theorem toNat_ofNat_ident : ∀ j < 90, (Char.ofNat (33 + j)).toNat = 33 + j := by decide

theorem ident_injective : Function.Injective ident := by
  intro j k h
  unfold ident at h
  split_ifs at h with hj hk hk
  · have hcode := congrArg Char.toNat (List.head_eq_of_cons_eq h)
    rw [toNat_ofNat_ident j hj, toNat_ofNat_ident k hk] at hcode
    omega
  · exact absurd (List.tail_eq_of_cons_eq h).symm Nat.toDigits_ne_nil
  · exact absurd (List.tail_eq_of_cons_eq h) Nat.toDigits_ne_nil
  · exact toDigits_injective (List.tail_eq_of_cons_eq h)

/-- There is no white space in an identifier. -/
theorem solid_ident (j : ℕ) : Solid (ident j) := by
  unfold ident
  split_ifs with hj
  · have hchar : ∀ j < 90, isSpace (Char.ofNat (33 + j)) = false := by decide
    intro c hc
    rw [List.mem_singleton.mp hc]
    exact hchar j hj
  · intro c hc
    rcases List.mem_cons.mp hc with rfl | hc
    · rfl
    · exact solid_toDigits j c hc

theorem blank_notMem {s : Str} (h : Solid s) : ' ' ∉ s := fun hm => absurd (h _ hm) (by decide)

theorem readLine_varLine (width : ℕ) {id : Str} (hid : Solid id) (b : Str) :
    readLine (varLine width id b) = some (.var width id) := by
  have hassoc : ∀ kind stop : Str, varKey ++ ' ' :: (kind ++ [' ']) ++ Nat.toDigits 10 width ++
      ' ' :: id ++ ' ' :: b ++ stop = varKey ++ ' ' :: (kind ++ ' ' ::
      (Nat.toDigits 10 width ++ ' ' :: (id ++ ' ' :: (b ++ stop)))) := fun kind stop => by
    simp only [List.append_assoc, List.cons_append, List.nil_append]
  have hkey : "$var wire ".toList = varKey ++ ' ' :: ("wire".toList ++ [' ']) := rfl
  have hline : varLine width id b = _ :=
    (congrArg (fun w => w ++ Nat.toDigits 10 width ++ ' ' :: id ++ ' ' :: b ++ " $end".toList)
      hkey).trans (hassoc "wire".toList " $end".toList)
  exact (congrArg readLine hline).trans (readLine_var width (by simp) (blank_notMem hid) _)

theorem readLine_changeLine (width : ℕ) {x : ℕ} (hx : width = 1 → x < 2) {id : Str} (hid : Solid id) :
    readLine (changeLine width x id) = some (.change id x) := by
  unfold changeLine
  split_ifs with hwidth
  · exact readLine_bit (hx hwidth) id
  · exact readLine_bits x (blank_notMem hid)

theorem unbroken_varLine (width : ℕ) {id b : Str} (hid : Solid id) (hb : '\n' ∉ b) :
    '\n' ∉ varLine width id b := by
  have hwidth : '\n' ∉ Nat.toDigits 10 width := (solid_toDigits width).unbroken.1
  have hid := hid.unbroken.1
  have hwire : '\n' ∉ "$var wire ".toList := by simp
  have hend : '\n' ∉ " $end".toList := by simp
  unfold varLine
  generalize "$var wire ".toList = wire at hwire ⊢
  generalize " $end".toList = stop at hend ⊢
  simp only [List.mem_append, List.mem_cons, hwidth, hid, hb, hwire, hend, or_false,
    false_or]
  decide

theorem unbroken_timeLine (t : ℕ) : '\n' ∉ '#' :: Nat.toDigits 10 t := by
  simp only [List.mem_cons, (solid_toDigits t).unbroken.1, or_false]
  decide

theorem unbroken_changeLine (width x : ℕ) {id : Str} (hid : Solid id) :
    '\n' ∉ changeLine width x id := by
  have hdec : '\n' ∉ Nat.toDigits 10 x := (solid_toDigits x).unbroken.1
  have hbin : '\n' ∉ Nat.toDigits 2 x := fun h => by
    rcases mem_toDigits_two x _ h with h | h <;> exact absurd h (by decide)
  have hid := hid.unbroken.1
  unfold changeLine
  split_ifs
  · simp only [List.mem_append, hdec, hid, or_false, not_false_iff]
  · simp only [List.mem_append, List.mem_cons, hbin, hid, or_false, not_or]
    decide

/-! ### The header -/

section Header

variable {α : Type*} (width : α → ℕ) {name : α → Str} {cols : List α}

/-- The variables declared for the columns. -/
def columnVars (cols : List α) : List (ℕ × Str) := cols.zipIdx.map fun p => (width p.1, ident p.2)

theorem says_headerLines (hnames : ∀ a ∈ cols, '\n' ∉ name a) :
    Says (headerLines width name cols) (declare (columnVars width cols)) := by
  have hvars : Says (cols.zipIdx.map fun p => varLine (width p.1) (ident p.2) (name p.1))
      (declare (columnVars width cols)) := by
    rw [declare, columnVars, List.map_map]
    refine says_map fun p hp => ⟨?_, readLine_varLine _ (solid_ident p.2) _⟩
    exact unbroken_varLine _ (solid_ident p.2) (hnames p.1 (List.fst_mem_of_mem_zipIdx hp))
  have hfront : Says ["$timescale 1ps $end".toList, "$scope module ila $end".toList] [] :=
    ⟨List.forall_mem_cons.mpr ⟨by simp, List.forall_mem_singleton.mpr (by simp)⟩, rfl⟩
  have hback : Says ["$upscope $end".toList, "$enddefinitions $end".toList] [] :=
    ⟨List.forall_mem_cons.mpr ⟨by simp, List.forall_mem_singleton.mpr (by simp)⟩, rfl⟩
  have h := (hfront.append hvars).append hback
  rw [List.nil_append, List.append_nil] at h
  exact h

/-- A file of these columns replays when each variable has its column's value behind the samples
dated up to a sample's time. -/
theorem replays_columns {stamp : ℕ → ℕ} {group dump : ℕ → List Item} (h : Grows stamp group dump)
    {text : Str} {n : ℕ} (hread : read text = declare (columnVars width cols) ++ dump n)
    {period : ℕ} (shown : α → ℕ → ℕ) :
    Replays text period n (cols.map fun a => (width a, shown a)) ↔
      ((List.range n).map stamp).Pairwise (· < ·) ∧ ∀ i < n, ∀ p ∈ cols.zipIdx,
        after (dump (reached stamp n (i * period))) (ident p.2) = some (shown p.1 i) := by
  have hcols : ∀ {β : Type} (f : α → β), cols.map f = cols.zipIdx.map fun p => f p.1 := fun f => by
    conv_lhs => rw [← List.zipIdx_map_fst 0 cols, List.map_map]
    rfl
  have hwidths : (columnVars width cols).map Prod.fst =
      (cols.map fun a => (width a, shown a)).map Prod.fst := by
    rw [columnVars, List.map_map, List.map_map, hcols]
    rfl
  have hids : ((columnVars width cols).map Prod.snd).Nodup := by
    have hsnd : (columnVars width cols).map Prod.snd = (cols.zipIdx.map Prod.snd).map ident := by
      rw [columnVars, List.map_map, List.map_map]
      rfl
    rw [hsnd, List.zipIdx_map_snd]
    exact (List.nodup_range' ..).map ident_injective
  rw [replays_iff h hread, and_iff_right ⟨hwidths, hids⟩]
  refine and_congr_right fun _ => forall₂_congr fun i _ => ?_
  rw [columnVars, List.map_map, List.map_map, hcols]
  exact List.map_inj_left

end Header

/-! ### The loops -/

/-- The identifier a change of a bus is written with. -/
def idOf (buses : List Bus) (b : Str) : Str := ((idsOf buses).get? b).getD []

/-- The values of a sample, by the names of the buses. -/
def events (buses : List Bus) (v : ℕ) : List (Str × ℕ) := buses.map fun b => (b.1, field v b.2)

theorem get?_idsOf {buses : List Bus} {b id : Str} (h : (idsOf buses).get? b = some id) :
    ∃ p ∈ buses.zipIdx, p.1.1 = b ∧ ident p.2 = id := by
  obtain ⟨p, hp, heq⟩ := List.mem_map.mp (Dict.mem_of_get?_update_empty h)
  exact ⟨p, hp, congrArg Prod.fst heq, congrArg Prod.snd heq⟩

theorem solid_idOf (buses : List Bus) (b : Str) : Solid (idOf buses b) := by
  unfold idOf
  cases hget : (idsOf buses).get? b with
  | none => exact fun c hc => absurd hc List.not_mem_nil
  | some id =>
    obtain ⟨p, _, _, rfl⟩ := get?_idsOf hget
    exact solid_ident p.2

theorem field_lt {v : ℕ} {bits : List ℤ} (h : bits.length = 1) : field v bits < 2 := by
  obtain ⟨b, rfl⟩ := List.length_eq_one_iff.mp h
  have hbit : (v >>> b.toNat) &&& 1 < 2 := Nat.and_lt_two_pow _ (by decide : 1 < 2 ^ 1)
  simpa [field] using hbit

/-- The inner loop writes the changes of a sample. -/
theorem foldl_writeBus (buses : List Bus) (v : ℕ) : ∀ (bs : List Bus) (st : List Str × Dict Str ℕ),
    ∃ ls, (bs.foldl (writeBus (idsOf buses) v) st).1 = st.1 ++ ls ∧
      Says ls (changes (idOf buses) st.2.get? (events bs v)) ∧
      (bs.foldl (writeBus (idsOf buses) v) st).2.get? = noted st.2.get? (events bs v)
  | [], st => ⟨[], (List.append_nil _).symm, says_nil, rfl⟩
  | b :: bs, st => by
    have hline := readLine_changeLine b.2.length (field_lt (v := v)) (solid_idOf buses b.1)
    have hbroken := unbroken_changeLine b.2.length (field v b.2) (solid_idOf buses b.1)
    have hevents : events (b :: bs) v = (b.1, field v b.2) :: events bs v := rfl
    have hnoted : noted st.2.get? (events (b :: bs) v) =
        noted (Function.update st.2.get? b.1 (some (field v b.2))) (events bs v) := rfl
    rw [List.foldl_cons, hnoted, hevents, changes, writeBus]
    by_cases hlast : st.2.get? b.1 = some (field v b.2)
    · rw [if_neg (not_not.mpr hlast), if_pos hlast, ← hlast, Function.update_eq_self]
      exact foldl_writeBus buses v bs st
    · obtain ⟨ls, hls, hlines, hlast'⟩ := foldl_writeBus buses v bs
        (st.1 ++ [changeLine b.2.length (field v b.2) (idOf buses b.1)], st.2.set b.1 (field v b.2))
      have hset : (st.2.set b.1 (field v b.2)).get? =
          Function.update st.2.get? b.1 (some (field v b.2)) := by
        funext k
        rw [Dict.get?_set, Function.update_apply]
        exact if_congr eq_comm rfl rfl
      rw [hset] at hlines hlast'
      rw [if_pos hlast, if_neg hlast]
      exact ⟨_, hls.trans (List.append_assoc _ _ _), hlines.cons hbroken hline, hlast'⟩

/-- The outer loop writes the dump. -/
theorem foldl_writeSample (stamp : ℕ → ℕ) (buses : List Bus) (sample : ℕ → ℕ) (n : ℕ)
    (st : List Str × Dict Str ℕ)
    (hst : st = ((List.range n).map fun i => (sample i, i)).foldl (writeSample stamp buses)
      ([], Dict.empty)) :
    Says st.1 (dumpOf (idOf buses) stamp (fun _ => none) (fun i => events buses (sample i)) n) ∧
      st.2.get? = lastOf (fun _ => none) (fun i => events buses (sample i)) n := by
  induction n generalizing st with
  | zero =>
    subst hst
    exact ⟨says_nil, rfl⟩
  | succ n ih =>
    rw [List.range_succ, List.map_append, List.foldl_append] at hst
    obtain ⟨hlines, hlast⟩ := ih _ rfl
    set st₀ := ((List.range n).map fun i => (sample i, i)).foldl (writeSample stamp buses)
      ([], Dict.empty)
    obtain ⟨ls, hls, hlines', hlast'⟩ := foldl_writeBus buses (sample n) buses
      (st₀.1 ++ ['#' :: Nat.toDigits 10 (stamp n)], st₀.2)
    have hst : st = buses.foldl (writeBus (idsOf buses) (sample n))
        (st₀.1 ++ ['#' :: Nat.toDigits 10 (stamp n)], st₀.2) := hst
    rw [hlast] at hlines' hlast'
    rw [hst, hls, List.append_assoc]
    exact ⟨hlines.append (hlines'.cons (unbroken_timeLine (stamp n)) (readLine_time (stamp n))), hlast'⟩

theorem zipIdx_eq_map (samples : List ℕ) :
    samples.zipIdx = (List.range samples.length).map fun i => (samples.getD i 0, i) := by
  apply List.ext_getElem
  · simp
  · intro i h₁ h₂
    have hi : i < samples.length := by simpa using h₁
    simp [hi]

/-- What the file says: the columns and the changes of the samples. -/
theorem read_writeVcd (stamp : ℕ → ℕ) {buses : List Bus} (hnames : ∀ b ∈ buses, '\n' ∉ b.1)
    (samples : List ℕ) :
    read (writeVcd stamp buses samples) = declare (columnVars (fun b => b.2.length) buses) ++
      dumpOf (idOf buses) stamp (fun _ => none) (fun i => events buses (samples.getD i 0))
        samples.length := by
  obtain ⟨hlines, _⟩ := foldl_writeSample stamp buses (fun i => samples.getD i 0)
    samples.length _ rfl
  rw [writeVcd, zipIdx_eq_map]
  exact read_unlines ((says_headerLines _ hnames).append hlines)

/-! ### Columns -/

section Columns

variable (stamp : ℕ → ℕ) {buses : List Bus} (sample : ℕ → ℕ)

/-- With a name of its own a column is changed under the identifier it is declared with. -/
theorem idOf_column (hnodup : (buses.map Prod.fst).Nodup) {p : Bus × ℕ} (hp : p ∈ buses.zipIdx) :
    idOf buses p.1.1 = ident p.2 := by
  have hkeys : ((buses.zipIdx.map fun p => (p.1.1, ident p.2)).map Prod.fst).Nodup := by
    have hfst : (buses.zipIdx.map fun p => (p.1.1, ident p.2)).map Prod.fst = buses.map Prod.fst := by
      rw [List.map_map, ← List.zipIdx_map_fst 0 buses, List.map_map, List.zipIdx_map_fst]
      rfl
    rw [hfst]
    exact hnodup
  have hget : (idsOf buses).get? p.1.1 = some (ident p.2) :=
    Dict.get?_update_of_mem Dict.empty hkeys (List.mem_map.mpr ⟨p, hp, rfl⟩)
  rw [idOf, hget, Option.getD_some]

theorem eq_of_mem_zipIdx {p q : Bus × ℕ} (hp : p ∈ buses.zipIdx) (hq : q ∈ buses.zipIdx)
    (h : p.2 = q.2) : p.1 = q.1 := by
  have hp := List.mem_zipIdx_iff_getElem?.mp hp
  have hq := List.mem_zipIdx_iff_getElem?.mp hq
  rw [h, hq] at hp
  exact (Option.some.inj hp).symm

/-- Then it has the value of the last sample. -/
theorem after_column (hnodup : (buses.map Prod.fst).Nodup) {p : Bus × ℕ} (hp : p ∈ buses.zipIdx)
    (m x : ℕ) :
    after (dumpOf (idOf buses) stamp (fun _ => none) (fun i => events buses (sample i)) m)
      (ident p.2) = some x ↔ ∃ j, m = j + 1 ∧ field (sample j) p.1.2 = x := by
  cases m with
  | zero => simp [dumpOf, after]
  | succ j =>
    have hkeys : ∀ i, ((events buses (sample i)).map Prod.fst).Nodup := fun i => by
      rw [events, List.map_map]
      exact hnodup
    have hinj : ∀ i, ∀ e ∈ events buses (sample i), idOf buses e.1 = idOf buses p.1.1 →
        e.1 = p.1.1 := by
      intro i e he heq
      obtain ⟨b, hb, rfl⟩ := List.mem_map.mp he
      obtain ⟨k, hget⟩ := List.mem_iff_getElem?.mp hb
      have hk : (b, k) ∈ buses.zipIdx := List.mem_zipIdx_iff_getElem?.mpr hget
      have hidx : k = p.2 := by
        apply ident_injective
        rw [← idOf_column hnodup hk, ← idOf_column hnodup hp]
        exact heq
      exact congrArg Prod.fst (eq_of_mem_zipIdx hk hp hidx)
    have hmem : ∀ i, (p.1.1, field (sample i) p.1.2) ∈ events buses (sample i) := fun i =>
      List.mem_map.mpr ⟨p.1, List.fst_mem_of_mem_zipIdx hp, rfl⟩
    rw [← idOf_column hnodup hp, after_dumpOf (idOf buses) stamp _ _ hkeys hinj hmem,
      if_neg fun h => Option.some_ne_none _ (h 0 (Nat.zero_le j)).symm]
    simp

/-- Columns that all have a value have names of their own. -/
theorem nodup_of_values {m : ℕ} (h : ∀ p ∈ buses.zipIdx, (after (dumpOf (idOf buses) stamp
    (fun _ => none) (fun i => events buses (sample i)) m) (ident p.2)).isSome) :
    (buses.map Prod.fst).Nodup := by
  have hid : ∀ p ∈ buses.zipIdx, (idsOf buses).get? p.1.1 = some (ident p.2) := by
    intro p hp
    by_contra hne
    have hnone : after (dumpOf (idOf buses) stamp (fun _ => none)
        (fun i => events buses (sample i)) m) (ident p.2) = none := by
      refine after_dumpOf_of_ne (idOf buses) stamp _ _ (fun i e he heq => ?_) m
      obtain ⟨b, hb, rfl⟩ := List.mem_map.mp he
      unfold idOf at heq
      cases hget : (idsOf buses).get? b.1 with
      | none =>
        rw [hget] at heq
        have hlen := congrArg List.length heq
        unfold ident at hlen
        split_ifs at hlen
        · cases hlen
        · cases hlen
      | some id =>
        rw [hget, Option.getD_some] at heq
        obtain ⟨q, hq, hname, hident⟩ := get?_idsOf hget
        have hidx : q.2 = p.2 := ident_injective (hident.trans heq)
        rw [← hname, eq_of_mem_zipIdx hq hp hidx, heq] at hget
        exact hne hget
    have hsome := h p hp
    rw [hnone] at hsome
    cases hsome
  rw [List.Nodup, List.pairwise_map, List.pairwise_iff_getElem]
  intro i j hi hj hlt hname
  have hmem : ∀ k (hk : k < buses.length), (buses[k], k) ∈ buses.zipIdx := fun k hk =>
    List.mem_zipIdx_iff_getElem?.mpr (List.getElem?_eq_getElem hk)
  have hi := hid _ (hmem i hi)
  rw [hname, hid _ (hmem j hj)] at hi
  have hidx : j = i := ident_injective (Option.some.inj hi)
  omega

/-- What a column should show in a sample. -/
def shownBy (b : Bus) (i : ℕ) : ℕ := field (sample i) b.2

end Columns

/-- The file replays to the samples, unless two columns have one name. -/
theorem replays_writeVcd (stamp : ℕ → ℕ) (period : ℕ) {buses : List Bus}
    (hnames : ∀ b ∈ buses, '\n' ∉ b.1) (samples : List ℕ) :
    Replays (writeVcd stamp buses samples) period samples.length
        (buses.map fun b => (b.2.length, shownBy (fun i => samples.getD i 0) b)) ↔
      ((List.range samples.length).map stamp).Pairwise (· < ·) ∧
      (samples = [] ∨ (buses.map Prod.fst).Nodup) ∧
      ∀ b ∈ buses, ∀ i < samples.length, ∃ j, reached stamp samples.length (i * period) = j + 1 ∧
        field (samples.getD j 0) b.2 = field (samples.getD i 0) b.2 := by
  rw [replays_columns _ (grows_dumpOf _ _ _ _) (read_writeVcd stamp hnames samples)]
  refine and_congr_right fun _ => ?_
  constructor
  · intro h
    have hnames : samples = [] ∨ (buses.map Prod.fst).Nodup := by
      rcases samples.eq_nil_or_concat with hnil | ⟨_, _, hne⟩
      · exact Or.inl hnil
      · refine Or.inr (nodup_of_values stamp (fun i => samples.getD i 0)
          (m := reached stamp samples.length (0 * period)) fun p hp => ?_)
        rw [h 0 (by simp [hne]) p hp]
        rfl
    refine ⟨hnames, fun b hb i hi => ?_⟩
    have hnodup : (buses.map Prod.fst).Nodup := hnames.resolve_left (by rintro rfl; cases hi)
    obtain ⟨k, hget⟩ := List.mem_iff_getElem?.mp hb
    have hk : (b, k) ∈ buses.zipIdx := List.mem_zipIdx_iff_getElem?.mpr hget
    exact (after_column stamp _ hnodup hk _ _).mp (h i hi _ hk)
  · rintro ⟨hnames, h⟩ i hi p hp
    have hnodup : (buses.map Prod.fst).Nodup := hnames.resolve_left (by rintro rfl; cases hi)
    exact (after_column stamp _ hnodup hp _ _).mpr (h p.1 (List.fst_mem_of_mem_zipIdx hp) i hi)

/-- Where the time stamps are on time, distinct names are all that is asked for. -/
theorem replays_writeVcd_of_onTime {stamp : ℕ → ℕ} {period : ℕ} {buses : List Bus}
    (hnames : ∀ b ∈ buses, '\n' ∉ b.1) {samples : List ℕ}
    (htime : OnTime stamp period samples.length) :
    Replays (writeVcd stamp buses samples) period samples.length
        (buses.map fun b => (b.2.length, shownBy (fun i => samples.getD i 0) b)) ↔
      samples = [] ∨ (buses.map Prod.fst).Nodup := by
  rw [replays_writeVcd stamp period hnames, and_iff_right htime.increasing, and_iff_left]
  intro b _ i hi
  exact ⟨i, htime.reached hi, rfl⟩

/-! ### Time stamps -/

/-- A product of doubles is the real one but for a relative error, away from the ends of the
exponent's range. -/
def Rounds (fl : ℚ → ℚ) : Prop :=
  ∀ x, x = 0 ∨ (1 / 2 ^ 60 ≤ x ∧ x ≤ 2 ^ 60) → |fl x - x| ≤ x * (1 / 2 ^ 53)

theorem rounds_id : Rounds id := by
  intro x hx
  have hpos : 0 ≤ x := by
    rcases hx with rfl | ⟨hx, -⟩
    · exact le_rfl
    · exact (by positivity : (0 : ℚ) ≤ 1 / 2 ^ 60).trans hx
  rw [id_eq, sub_self, abs_zero]
  positivity

/-- `int(i * clk_ns * 1000)`, with the clock period in picoseconds. -/
def stampOf (fl : ℚ → ℚ) (period i : ℕ) : ℕ := ⌊fl (fl (i * fl (period / 1000)) * 1000)⌋₊

section Stamps

variable {fl : ℚ → ℚ}

theorem Rounds.le (h : Rounds fl) {x : ℚ} (hx : x = 0 ∨ (1 / 2 ^ 60 ≤ x ∧ x ≤ 2 ^ 60)) :
    x * (1 - 1 / 2 ^ 53) ≤ fl x ∧ fl x ≤ x * (1 + 1 / 2 ^ 53) := by
  have hbound := abs_le.mp (h x hx)
  constructor
  · linarith [hbound.1]
  · linarith [hbound.2]

/-- The two products and the period itself are rounded. -/
theorem Rounds.product (h : Rounds fl) {period i : ℕ} (hp : 0 < period)
    (hi : i * period ≤ 2 ^ 50) :
    (i * period : ℚ) * (1 - 1 / 2 ^ 53) ^ 3 ≤ fl (fl (i * fl (period / 1000)) * 1000) ∧
      fl (fl (i * fl (period / 1000)) * 1000) ≤ (i * period : ℚ) * (1 + 1 / 2 ^ 53) ^ 3 := by
  rcases Nat.eq_zero_or_pos i with rfl | hi0
  · have hzero : fl 0 = 0 := by simpa using h 0 (Or.inl rfl)
    simp [hzero]
  have hp1 : (1 : ℚ) ≤ period := by exact_mod_cast hp
  have hi1 : (1 : ℚ) ≤ i := by exact_mod_cast hi0
  have hip : (i * period : ℚ) ≤ 2 ^ 50 := by exact_mod_cast hi
  have hpi : (period : ℚ) ≤ i * period := le_mul_of_one_le_left (by positivity) hi1
  obtain ⟨hc, hc'⟩ := h.le (x := period / 1000) (Or.inr ⟨by linarith, by linarith⟩)
  have hlow : (period / 2000 : ℚ) ≤ fl (period / 1000) := by linarith
  have hic : (i * (period / 2000) : ℚ) ≤ i * fl (period / 1000) := by gcongr
  have hic' : (i * fl (period / 1000) : ℚ) ≤ i * (period / 1000 * (1 + 1 / 2 ^ 53)) := by gcongr
  obtain ⟨ha, ha'⟩ := h.le (x := i * fl (period / 1000)) (Or.inr ⟨by linarith, by linarith⟩)
  obtain ⟨hy, hy'⟩ := h.le (x := fl (i * fl (period / 1000)) * 1000)
    (Or.inr ⟨by linarith, by linarith⟩)
  constructor
  · calc (i * period : ℚ) * (1 - 1 / 2 ^ 53) ^ 3
        = i * (period / 1000 * (1 - 1 / 2 ^ 53)) * (1 - 1 / 2 ^ 53) * 1000 * (1 - 1 / 2 ^ 53) := by
          ring
      _ ≤ i * fl (period / 1000) * (1 - 1 / 2 ^ 53) * 1000 * (1 - 1 / 2 ^ 53) := by
          gcongr
      _ ≤ fl (i * fl (period / 1000)) * 1000 * (1 - 1 / 2 ^ 53) := by
          gcongr
      _ ≤ _ := hy
  · calc fl (fl (i * fl (period / 1000)) * 1000)
        ≤ fl (i * fl (period / 1000)) * 1000 * (1 + 1 / 2 ^ 53) := hy'
      _ ≤ i * fl (period / 1000) * (1 + 1 / 2 ^ 53) * 1000 * (1 + 1 / 2 ^ 53) := by gcongr
      _ ≤ i * (period / 1000 * (1 + 1 / 2 ^ 53)) * (1 + 1 / 2 ^ 53) * 1000 * (1 + 1 / 2 ^ 53) := by
          gcongr
      _ = (i * period : ℚ) * (1 + 1 / 2 ^ 53) ^ 3 := by ring

/-- A clock of at least 2 ps is on time up to 2 ^ 50 ps. -/
theorem onTime_of_rounds (h : Rounds fl) {period n : ℕ} (hp : 2 ≤ period)
    (hn : n * period ≤ 2 ^ 50) : OnTime (stampOf fl period) period n := by
  have hbound : ∀ i < n, (i * period : ℚ) - 1 / 2 ≤ fl (fl (i * fl (period / 1000)) * 1000) ∧
      fl (fl (i * fl (period / 1000)) * 1000) ≤ (i * period : ℚ) + 1 / 2 := by
    intro i hi
    have hle : i * period ≤ 2 ^ 50 := (Nat.mul_le_mul_right _ hi.le).trans hn
    have hip : (i * period : ℚ) ≤ 2 ^ 50 := by exact_mod_cast hle
    have hpos : (0 : ℚ) ≤ i * period := by positivity
    obtain ⟨hlow, hhigh⟩ := h.product (by omega) hle
    have hcube : (1 - 1 / 2 ^ 51 : ℚ) ≤ (1 - 1 / 2 ^ 53) ^ 3 := by norm_num
    have hcube' : ((1 + 1 / 2 ^ 53) ^ 3 : ℚ) ≤ 1 + 1 / 2 ^ 51 := by norm_num
    have hmul := mul_le_mul_of_nonneg_left hcube hpos
    have hmul' := mul_le_mul_of_nonneg_left hcube' hpos
    constructor
    · linarith
    · linarith
  constructor
  · intro i hi
    have hlt : fl (fl (i * fl (period / 1000)) * 1000) < (i * period : ℕ) + 1 := by
      push_cast
      linarith [(hbound i hi).2]
    exact Nat.lt_succ_iff.mp ((Nat.floor_lt' (Nat.succ_ne_zero _)).mpr (by exact_mod_cast hlt))
  · intro i hi
    have hp2 : (2 : ℚ) ≤ period := by exact_mod_cast hp
    have hlow := (hbound (i + 1) hi).1
    refine Nat.lt_of_succ_le (Nat.le_floor ?_)
    push_cast at hlow ⊢
    linarith

end Stamps

/-! ### Maps -/

/-- A probe map as the script reads it: bits of the probe, and names without white space. -/
structure ProbeMap where
  names : Dict ℤ Str
  nonneg : ∀ k ∈ names.keys, 0 ≤ k
  solid : ∀ n ∈ names.values, Solid n

theorem mem_of_mem_busName {n : Str} {c : Char} (h : c ∈ busName n) : c ∈ n := by
  have hcut : c ∈ rsplitHead '[' n → c ∈ n := by
    unfold rsplitHead
    split_ifs
    · exact fun hc => (List.rdropWhile_prefix _ _).subset (List.dropLast_subset _ hc)
    · exact id
  unfold busName at h
  split_ifs at h
  · exact hcut h
  · exact h

theorem solid_unnamed (k : ℕ) : Solid (unnamed k) := by
  intro c hc
  rcases List.mem_cons.mp hc with rfl | hc
  · rfl
  · exact solid_toDigits k c hc

/-- The buses have the names of the columns. -/
theorem mem_foldl_appendBit {cols : List (ℤ × Str)} {b : Bus}
    (h : b ∈ cols.foldl (fun buses c => appendBit buses (busName c.2) c.1) []) :
    ∃ c ∈ cols, b.1 = busName c.2 := by
  induction cols using List.reverseRecOn generalizing b with
  | nil => cases h
  | append_singleton cols c ih =>
    rw [List.foldl_append, List.foldl_cons, List.foldl_nil] at h
    set buses := cols.foldl (fun buses c => appendBit buses (busName c.2) c.1) [] with hbuses
    have hold : ∀ b ∈ buses, ∃ c' ∈ cols ++ [c], b.1 = busName c'.2 := fun b hb => by
      obtain ⟨c', hc', hname⟩ := ih hb
      exact ⟨c', List.mem_append_left _ hc', hname⟩
    have hnew : ∃ c' ∈ cols ++ [c], busName c.2 = busName c'.2 :=
      ⟨c, List.mem_append_right _ (List.mem_singleton_self c), rfl⟩
    unfold appendBit at h
    split at h
    · rename_i name bits hlast
      have hmem : (name, bits) ∈ buses := List.mem_of_getLast? hlast
      split_ifs at h with hname
      · rcases List.mem_append.mp h with hb | hb
        · exact hold b (List.dropLast_subset _ hb)
        · rw [List.mem_singleton.mp hb]
          obtain ⟨c', hc', hname'⟩ := hold _ hmem
          exact ⟨c', hc', hname'⟩
      · rcases List.mem_append.mp h with hb | hb
        · exact hold b hb
        · rw [List.mem_singleton.mp hb]
          exact hnew
    · rcases List.mem_append.mp h with hb | hb
      · exact hold b hb
      · rw [List.mem_singleton.mp hb]
        exact hnew

/-- The buses have no white space in their names when the names of the map have none. -/
theorem solid_busesOf {names : Dict ℤ Str} (h : ∀ n ∈ names.values, Solid n) (width : ℕ) :
    ∀ b ∈ busesOf names width, Solid b.1 := by
  intro b hb
  unfold busesOf at hb
  obtain ⟨c, hc, hname⟩ := mem_foldl_appendBit hb
  rw [hname]
  suffices h : Solid c.2 from fun d hd => h d (mem_of_mem_busName hd)
  split_ifs at hc
  · obtain ⟨k, _, rfl⟩ := List.mem_map.mp hc
    show Solid ((names.get? k).getD [])
    cases hget : names.get? k with
    | none => exact fun c hc => absurd hc List.not_mem_nil
    | some n => exact h n (Dict.mem_values.mpr ⟨k, hget⟩)
  · obtain ⟨k, _, rfl⟩ := List.mem_map.mp hc
    exact solid_unnamed k

theorem ProbeMap.unbroken (m : ProbeMap) (width : ℕ) : ∀ b ∈ busesOf m.names width, '\n' ∉ b.1 :=
  fun b hb => (solid_busesOf m.solid width b hb).unbroken.1

/-- **The file of a probe map replays to the capture, unless two columns that are not neighbours
have one name.** Whatever the time stamps, they have to increase, and the last sample dated up to the
time of a sample to show the same; those of doubles do, for a clock of at least 2 ps. -/
theorem writeVcd_replays_iff (m : ProbeMap) (width period : ℕ) (samples : List ℕ) :
    (∀ stamp, Replays (writeVcd stamp (busesOf m.names width) samples) period samples.length
        ((busesOf m.names width).map fun b => (b.2.length, shownBy (fun i => samples.getD i 0) b)) ↔
      ((List.range samples.length).map stamp).Pairwise (· < ·) ∧
      (samples = [] ∨ ((busesOf m.names width).map Prod.fst).Nodup) ∧
      ∀ b ∈ busesOf m.names width, ∀ i < samples.length,
        ∃ j, reached stamp samples.length (i * period) = j + 1 ∧
          field (samples.getD j 0) b.2 = field (samples.getD i 0) b.2) ∧
    ∀ fl, Rounds fl → 2 ≤ period → samples.length * period ≤ 2 ^ 50 →
      (Replays (writeVcd (stampOf fl period) (busesOf m.names width) samples) period samples.length
          ((busesOf m.names width).map fun b => (b.2.length, shownBy (fun i => samples.getD i 0) b)) ↔
        samples = [] ∨ ((busesOf m.names width).map Prod.fst).Nodup) :=
  ⟨fun stamp => replays_writeVcd stamp period (m.unbroken width) samples,
    fun _ hfl hp hn => replays_writeVcd_of_onTime (m.unbroken width) (onTime_of_rounds hfl hp hn)⟩

/-- A bus of two bits and a net. -/
def busMap : ProbeMap where
  names := ⟨[(0, "q[0]".toList), (1, "q[1]".toList), (2, "we".toList)], by decide⟩
  nonneg := by decide
  solid := by decide

/-- Three samples of them, at a clock of 8 ns. -/
theorem writeVcd_replays_iff_bus : Replays (writeVcd (stampOf id 8000) (busesOf busMap.names 3) [5, 2, 7])
    8000 3 ((busesOf busMap.names 3).map fun b => (b.2.length, shownBy (fun i => [5, 2, 7].getD i 0) b)) :=
  ((writeVcd_replays_iff busMap 3 8000 [5, 2, 7]).2 id rounds_id (by decide) (by decide)).mpr
    (Or.inr (by decide))

/-- Two bits of one bus with another between them. -/
def splitMap : ProbeMap where
  names := ⟨[(0, "q[0]".toList), (1, "we".toList), (2, "q[1]".toList)], by decide⟩
  nonneg := by decide
  solid := by decide

/-- One sample of them, all ones, at a clock of 8 ns. -/
theorem not_replays : ¬ Replays (writeVcd (fun i => i * 8000) (busesOf splitMap.names 3) [7]) 8000 1
    ((busesOf splitMap.names 3).map fun b => (b.2.length, shownBy (fun i => [7].getD i 0) b)) := by
  intro h
  have hnames := ((replays_writeVcd _ 8000 (splitMap.unbroken 3) [7]).mp h).2.1
  rcases hnames with hnil | hnodup
  · cases hnil
  · revert hnodup
    decide

end Openila
end Xc7Tools
