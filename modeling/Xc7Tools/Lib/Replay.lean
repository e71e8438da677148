/-
# Dumps that hold changes only

A dump that grows by a dated group of changes for each sample: of it the groups
up to a time are read (`upTo_of_grows`), and so it replays to what it was made
from when the variables have the right values behind the groups
(`replays_iff`). Where a group holds a change for a key only if the value is
not the one noted last, a variable has the value of the last sample, unless
every sample so far had the value noted at first (`after_dumpOf`).

Key definitions: `Vcd.reached`, `Vcd.OnTime`, `Vcd.Grows`, `Vcd.changes`, `Vcd.dumpOf`.
Key theorems: `Vcd.upTo_of_grows`, `Vcd.replays_iff`, `Vcd.after_dumpOf`.
-/
import Xc7Tools.Lib.Vcd

namespace Xc7Tools
namespace Vcd

/-! ### Dates -/

/-- The number of samples of `n` that are dated up to a time. -/
def reached (stamp : ℕ → ℕ) (n t : ℕ) : ℕ := ((List.range n).takeWhile fun i => stamp i ≤ t).length

theorem reached_le (stamp : ℕ → ℕ) (n t : ℕ) : reached stamp n t ≤ n := by
  have h := (List.takeWhile_sublist (fun i => decide (stamp i ≤ t)) (l := List.range n)).length_le
  rwa [List.length_range] at h

theorem reached_succ (stamp : ℕ → ℕ) (n t : ℕ) : reached stamp (n + 1) t =
    if reached stamp n t = n ∧ stamp n ≤ t then n + 1 else reached stamp n t := by
  have hlen : reached stamp n t = (List.range n).length ↔ reached stamp n t = n := by
    rw [List.length_range]
  unfold reached at *
  rw [List.range_succ, List.takeWhile_append]
  by_cases hall : ((List.range n).takeWhile fun i => stamp i ≤ t).length = n
  · rw [if_pos (hlen.mpr hall), hall]
    by_cases ht : stamp n ≤ t <;> simp [ht]
  · rw [if_neg fun h => hall (hlen.mp h), if_neg fun h => hall h.1]

theorem stamp_le_of_lt_reached {stamp : ℕ → ℕ} {n t i : ℕ} (h : i < reached stamp n t) :
    stamp i ≤ t := by
  induction n with
  | zero => exact absurd h (Nat.not_lt_zero i)
  | succ n ih =>
    rw [reached_succ] at h
    split_ifs at h with hall
    · rcases Nat.lt_succ_iff_lt_or_eq.mp h with hi | rfl
      · exact ih (by rw [hall.1]; exact hi)
      · exact hall.2
    · exact ih h

/-- At time 0 only the first of some samples can be reached, when the dates increase. -/
theorem reached_zero_le {stamp : ℕ → ℕ} {n : ℕ}
    (h : ((List.range n).map stamp).Pairwise (· < ·)) : reached stamp n 0 ≤ 1 := by
  by_contra hlt
  have hle : stamp 1 ≤ 0 := stamp_le_of_lt_reached (not_le.mp hlt)
  have hn : 1 < n := (not_le.mp hlt).trans_le (reached_le stamp n 0)
  rw [List.pairwise_map, List.pairwise_iff_getElem] at h
  have hstep := h 0 1 (by simpa using hn.trans' Nat.one_pos) (by simpa using hn) Nat.one_pos
  rw [List.getElem_range, List.getElem_range] at hstep
  omega

/-- Each sample is dated at its time or before, and after the time of the sample before. -/
structure OnTime (stamp : ℕ → ℕ) (period n : ℕ) : Prop where
  le : ∀ i < n, stamp i ≤ i * period
  lt : ∀ i, i + 1 < n → i * period < stamp (i + 1)

/-- A time is up to a sample, and then the sample is dated up to it. -/
theorem reached_eq {stamp : ℕ → ℕ} {n t j : ℕ} (hj : j < n) (hle : ∀ i ≤ j, stamp i ≤ t)
    (hlt : j + 1 < n → t < stamp (j + 1)) : reached stamp n t = j + 1 := by
  obtain ⟨m, rfl⟩ : ∃ m, n = j + 1 + m := ⟨n - (j + 1), by omega⟩
  clear hj
  have hbase : ∀ k ≤ j + 1, reached stamp k t = k := by
    intro k hk
    induction k with
    | zero => rfl
    | succ k ih => rw [reached_succ, if_pos ⟨ih (by omega), hle k (by omega)⟩]
  induction m with
  | zero => exact hbase _ le_rfl
  | succ m ih =>
    rw [← Nat.add_assoc, reached_succ]
    by_cases hm : m = 0
    · subst hm
      rw [if_neg fun h => absurd h.2 (not_le.mpr (hlt (by omega)))]
      exact hbase _ le_rfl
    · have ih := ih fun _ => hlt (by omega)
      rw [ih, if_neg (by omega)]

/-- Exact dates are on time. -/
theorem onTime_mul {period : ℕ} (h : 0 < period) (n : ℕ) : OnTime (fun i => i * period) period n :=
  ⟨fun _ _ => le_rfl, fun _ _ => Nat.mul_lt_mul_of_pos_right (Nat.lt_succ_self _) h⟩

theorem OnTime.reached {stamp : ℕ → ℕ} {period n : ℕ} (h : OnTime stamp period n) {i : ℕ}
    (hi : i < n) : reached stamp n (i * period) = i + 1 := by
  refine reached_eq hi (fun k hk => ?_) (h.lt i)
  exact (h.le k (by omega)).trans (Nat.mul_le_mul_right _ hk)

theorem OnTime.increasing {stamp : ℕ → ℕ} {period n : ℕ} (h : OnTime stamp period n) :
    ((List.range n).map stamp).Pairwise (· < ·) := by
  rw [List.pairwise_map, List.pairwise_iff_getElem]
  intro i j hi hj hij
  rw [List.length_range] at hi hj
  rw [List.getElem_range, List.getElem_range]
  obtain ⟨k, rfl⟩ : ∃ k, j = k + 1 := ⟨j - 1, by omega⟩
  calc stamp i ≤ i * period := h.le i hi
    _ ≤ k * period := Nat.mul_le_mul_right _ (by omega)
    _ < stamp (k + 1) := h.lt k hj

/-! ### A dump that grows -/

/-- A dump that grows by a group of changes for each sample. -/
structure Grows (stamp : ℕ → ℕ) (group : ℕ → List Item) (dump : ℕ → List Item) : Prop where
  zero : dump 0 = []
  succ : ∀ i, dump (i + 1) = dump i ++ .time (stamp i) :: group i
  quiet : ∀ i, times (group i) = [] ∧ vars (group i) = []

section Grows

variable {stamp : ℕ → ℕ} {group dump : ℕ → List Item}

theorem upTo_of_quiet {t : ℕ} {items : List Item} (h : times items = []) :
    upTo t items = items := by
  unfold upTo
  rw [List.takeWhile_eq_self_iff]
  intro x hx
  cases x with
  | var | change => rfl
  | time t' =>
    have hmem : t' ∈ times items := List.mem_filterMap.mpr ⟨_, hx, rfl⟩
    rw [h] at hmem
    cases hmem

theorem upTo_append_of_quiet {t : ℕ} {items : List Item} (h : times items = []) (rest : List Item) :
    upTo t (items ++ rest) = items ++ upTo t rest := by
  have hself := upTo_of_quiet (t := t) h
  unfold upTo at hself ⊢
  rw [List.takeWhile_append, hself, if_pos rfl]

theorem Grows.length_strictMono (h : Grows stamp group dump) :
    StrictMono fun i => (dump i).length := by
  refine strictMono_nat_of_lt_succ fun i => ?_
  rw [h.succ, List.length_append, List.length_cons]
  omega

/-- The part up to a time is that of the samples dated up to it. -/
theorem upTo_of_grows (h : Grows stamp group dump) (t : ℕ) : ∀ n,
    upTo t (dump n) = dump (reached stamp n t)
  | 0 => by
    rw [h.zero, reached]
    exact h.zero.symm
  | n + 1 => by
    have ih := upTo_of_grows h t n
    have hlen : (dump (reached stamp n t)).length = (dump n).length ↔ reached stamp n t = n :=
      h.length_strictMono.injective.eq_iff
    have hself := upTo_of_quiet (t := t) (h.quiet n).1
    rw [reached_succ]
    unfold upTo at ih hself ⊢
    rw [h.succ, List.takeWhile_append, ih]
    by_cases hall : reached stamp n t = n
    · rw [if_pos (hlen.mpr hall), hall, List.takeWhile_cons, hself]
      by_cases ht : stamp n ≤ t
      · rw [if_pos (by simpa using ht), if_pos ⟨rfl, ht⟩, h.succ]
      · rw [if_neg (by simpa using ht), if_neg fun h => ht h.2, List.append_nil]
    · rw [if_neg fun h => hall (hlen.mp h), if_neg fun h => hall h.1]

theorem vars_of_grows (h : Grows stamp group dump) : ∀ n, vars (dump n) = []
  | 0 => by
    rw [h.zero]
    rfl
  | n + 1 => by
    have ih := vars_of_grows h n
    have hquiet := (h.quiet n).2
    unfold vars at ih hquiet ⊢
    rw [h.succ, List.filterMap_append, ih, List.filterMap_cons, hquiet]
    rfl

theorem times_of_grows (h : Grows stamp group dump) : ∀ n,
    times (dump n) = (List.range n).map stamp
  | 0 => by
    rw [h.zero]
    rfl
  | n + 1 => by
    have ih := times_of_grows h n
    have hquiet := (h.quiet n).1
    unfold times at ih hquiet ⊢
    rw [h.succ, List.filterMap_append, ih, List.filterMap_cons, hquiet, List.range_succ,
      List.map_append]
    rfl

/-- Some declarations. -/
def declare (vs : List (ℕ × Str)) : List Item := vs.map fun v => .var v.1 v.2

theorem vars_declare (vs : List (ℕ × Str)) : vars (declare vs) = vs := by
  rw [vars, declare, List.filterMap_map]
  exact List.filterMap_some

theorem times_declare (vs : List (ℕ × Str)) : times (declare vs) = [] := by
  rw [times, declare, List.filterMap_map]
  exact List.filterMap_none vs

theorem after_append_declare (vs : List (ℕ × Str)) (items : List Item) :
    after (declare vs ++ items) = after items := by
  have hdeclare : ∀ cur, (declare vs).foldl Item.apply cur = cur := fun cur => by
    induction vs with
    | nil => rfl
    | cons v vs ih => exact ih
  rw [after, List.foldl_append, hdeclare, after]

/-- What is asked for, of declarations and a dump that grows. -/
theorem replays_iff (h : Grows stamp group dump) {text : Str} {vs : List (ℕ × Str)} {n : ℕ}
    (hread : read text = declare vs ++ dump n) {period : ℕ} {cols : List (ℕ × (ℕ → ℕ))} :
    Replays text period n cols ↔ (vs.map Prod.fst = cols.map Prod.fst ∧ (vs.map Prod.snd).Nodup) ∧
      ((List.range n).map stamp).Pairwise (· < ·) ∧
      ∀ i < n, vs.map (fun v => after (dump (reached stamp n (i * period))) v.2) =
        cols.map fun c => some (c.2 i) := by
  have hvars : vars (read text) = vs := by
    have hdecl := vars_declare vs
    have hdump := vars_of_grows h n
    unfold vars at hdecl hdump ⊢
    rw [hread, List.filterMap_append, hdecl, hdump, List.append_nil]
  have htimes : times (read text) = (List.range n).map stamp := by
    have hdecl := times_declare vs
    have hdump := times_of_grows h n
    unfold times at hdecl hdump ⊢
    rw [hread, List.filterMap_append, hdecl, hdump, List.nil_append]
  have hvalue : ∀ t, valueAt (read text) t = after (dump (reached stamp n t)) := fun t => by
    funext id
    rw [valueAt, hread, upTo_append_of_quiet (times_declare vs), upTo_of_grows h,
      after_append_declare]
  constructor
  · intro hreplays
    refine ⟨⟨?_, ?_⟩, ?_, fun i hi => ?_⟩
    · rw [← hvars, hreplays.widths]
    · rw [← hvars]
      exact hreplays.ids
    · rw [← htimes]
      exact hreplays.times
    · rw [← hreplays.values i hi, hvars, hvalue]
  · rintro ⟨⟨hwidths, hids⟩, htime, hvalues⟩
    constructor
    · rw [hvars, hwidths]
    · rw [hvars]
      exact hids
    · rw [htimes]
      exact htime
    · intro i hi
      rw [hvars, hvalue]
      exact hvalues i hi

end Grows

/-! ### Changes only -/

section Changes

variable {κ : Type*} [DecidableEq κ] (idOf : κ → Str)

/-- The changes for some keys and their values, where others are noted last. -/
def changes (last : κ → Option ℕ) : List (κ × ℕ) → List Item
  | [] => []
  | p :: ps =>
    if last p.1 = some p.2 then changes last ps
    else .change (idOf p.1) p.2 :: changes (Function.update last p.1 (some p.2)) ps

/-- The values noted behind them. -/
def noted (last : κ → Option ℕ) (ps : List (κ × ℕ)) : κ → Option ℕ :=
  ps.foldl (fun last p => Function.update last p.1 (some p.2)) last

theorem quiet_changes : ∀ (ps : List (κ × ℕ)) (last : κ → Option ℕ),
    times (changes idOf last ps) = [] ∧ vars (changes idOf last ps) = []
  | [], _ => ⟨rfl, rfl⟩
  | p :: ps, last => by
    unfold changes
    split_ifs
    · exact quiet_changes ps last
    · exact quiet_changes ps _

/-- No other variable changes. -/
theorem apply_changes_of_ne {id : Str} : ∀ (ps : List (κ × ℕ)) (last : κ → Option ℕ)
    (cur : Str → Option ℕ), (∀ p ∈ ps, idOf p.1 ≠ id) →
    (changes idOf last ps).foldl Item.apply cur id = cur id
  | [], _, _, _ => rfl
  | p :: ps, last, cur, h => by
    obtain ⟨hp, hps⟩ := List.forall_mem_cons.mp h
    unfold changes
    split_ifs
    · exact apply_changes_of_ne ps last cur hps
    · rw [List.foldl_cons, apply_changes_of_ne ps _ _ hps, Item.apply,
        Function.update_of_ne hp.symm]

/-- The variable of a key gets the key's value, if that is not the one noted. -/
theorem apply_changes {k : κ} {x : ℕ} : ∀ (ps : List (κ × ℕ)) (last : κ → Option ℕ)
    (cur : Str → Option ℕ), (ps.map Prod.fst).Nodup → (∀ p ∈ ps, idOf p.1 = idOf k → p.1 = k) →
    (k, x) ∈ ps →
    (changes idOf last ps).foldl Item.apply cur (idOf k) =
      if last k = some x then cur (idOf k) else some x
  | p :: ps, last, cur, hnodup, hinj, hmem => by
    obtain ⟨hnotMem, hnodup⟩ := List.nodup_cons.mp hnodup
    obtain ⟨_, hinj'⟩ := List.forall_mem_cons.mp hinj
    unfold changes
    rcases List.mem_cons.mp hmem with rfl | hmem
    · -- no later pair is of this key
      have hne : ∀ p ∈ ps, idOf p.1 ≠ idOf k := fun p hp he =>
        hnotMem (List.mem_map.mpr ⟨p, hp, hinj' p hp he⟩)
      split_ifs
      · exact apply_changes_of_ne idOf ps last cur hne
      · rw [List.foldl_cons, apply_changes_of_ne idOf ps _ _ hne]
        exact Function.update_self _ _ _
    · have hkey : p.1 ≠ k := fun h => hnotMem (h ▸ List.mem_map_of_mem hmem)
      have hid : idOf k ≠ idOf p.1 := fun h => hkey (hinj p List.mem_cons_self h.symm)
      by_cases hlast : last p.1 = some p.2
      · rw [if_pos hlast, apply_changes ps last cur hnodup hinj' hmem]
      · rw [if_neg hlast, List.foldl_cons, apply_changes ps _ _ hnodup hinj' hmem,
          Function.update_of_ne hkey.symm, Item.apply, Function.update_of_ne hid]

theorem noted_of_mem {k : κ} {x : ℕ} : ∀ (ps : List (κ × ℕ)) (last : κ → Option ℕ),
    (ps.map Prod.fst).Nodup → (k, x) ∈ ps → noted last ps k = some x := by
  intro ps
  induction ps using List.reverseRecOn with
  | nil => intro _ _ h; cases h
  | append_singleton ps p ih =>
    intro last hnodup hmem
    rw [List.map_append, List.nodup_append] at hnodup
    rw [noted, List.foldl_append, List.foldl_cons, List.foldl_nil]
    rcases List.mem_append.mp hmem with hmem | hmem
    · have hne : k ≠ p.1 := hnodup.2.2 k (List.mem_map_of_mem hmem) p.1 List.mem_cons_self
      rw [Function.update_of_ne hne]
      exact ih last hnodup.1 hmem
    · rw [← List.mem_singleton.mp hmem]
      exact Function.update_self _ _ _

variable (stamp : ℕ → ℕ) (init : κ → Option ℕ) (ps : ℕ → List (κ × ℕ))

/-- What is noted after some samples. -/
def lastOf : ℕ → κ → Option ℕ
  | 0 => init
  | m + 1 => noted (lastOf m) (ps m)

/-- The dump of some samples. -/
def dumpOf : ℕ → List Item
  | 0 => []
  | m + 1 => dumpOf m ++ .time (stamp m) :: changes idOf (lastOf init ps m) (ps m)

theorem grows_dumpOf : Grows stamp (fun m => changes idOf (lastOf init ps m) (ps m))
    (dumpOf idOf stamp init ps) :=
  ⟨rfl, fun _ => rfl, fun m => quiet_changes idOf (ps m) _⟩

theorem after_dumpOf_succ (m : ℕ) : after (dumpOf idOf stamp init ps (m + 1)) =
    (changes idOf (lastOf init ps m) (ps m)).foldl Item.apply (after (dumpOf idOf stamp init ps m)) := by
  unfold after
  rw [dumpOf, List.foldl_append, List.foldl_cons]
  rfl

/-- A variable that is of no key never gets a value. -/
theorem after_dumpOf_of_ne {id : Str} (h : ∀ m, ∀ p ∈ ps m, idOf p.1 ≠ id) : ∀ m,
    after (dumpOf idOf stamp init ps m) id = none
  | 0 => rfl
  | m + 1 => by
    rw [after_dumpOf_succ, apply_changes_of_ne idOf (ps m) _ _ (h m)]
    exact after_dumpOf_of_ne h m

/-- The variable of a key has the value of the last sample, unless all had the one noted first. -/
theorem after_dumpOf {k : κ} {x : ℕ → ℕ} (hnodup : ∀ m, ((ps m).map Prod.fst).Nodup)
    (hinj : ∀ m, ∀ p ∈ ps m, idOf p.1 = idOf k → p.1 = k) (hmem : ∀ m, (k, x m) ∈ ps m) : ∀ m,
    after (dumpOf idOf stamp init ps (m + 1)) (idOf k) =
      if ∀ i ≤ m, init k = some (x i) then none else some (x m) := by
  have hstep : ∀ m, after (dumpOf idOf stamp init ps (m + 1)) (idOf k) =
      if lastOf init ps m k = some (x m) then after (dumpOf idOf stamp init ps m) (idOf k)
      else some (x m) := fun m => by
    rw [after_dumpOf_succ]
    exact apply_changes idOf (ps m) _ _ (hnodup m) (hinj m) (hmem m)
  intro m
  induction m with
  | zero =>
    rw [hstep]
    exact if_congr (by simp [lastOf]) rfl rfl
  | succ m ih =>
    have hlast : lastOf init ps (m + 1) k = some (x m) := noted_of_mem (ps m) _ (hnodup m) (hmem m)
    have hsucc : (∀ i ≤ m + 1, init k = some (x i)) ↔
        (∀ i ≤ m, init k = some (x i)) ∧ init k = some (x (m + 1)) := by
      constructor
      · exact fun h => ⟨fun i hi => h i (by omega), h (m + 1) le_rfl⟩
      · rintro ⟨h, hm⟩ i hi
        rcases Nat.le_succ_iff.mp hi with hi | rfl
        · exact h i hi
        · exact hm
    rw [hstep, hlast, ih]
    by_cases hsame : x m = x (m + 1)
    · rw [if_pos (congrArg some hsame), hsame]
      refine if_congr ?_ rfl rfl
      rw [hsucc, ← hsame]
      exact ⟨fun h => ⟨h, h m le_rfl⟩, And.left⟩
    · rw [if_neg fun h => hsame (Option.some.inj h), if_neg]
      intro h
      have hm := (h m (by omega)).symm.trans (h (m + 1) le_rfl)
      exact hsame (Option.some.inj hm)

end Changes

end Vcd
end Xc7Tools
