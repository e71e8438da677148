/-
# Sets, sorting and counting, as in Python

A set of hashable values is a list without repetition, in an order nothing may
depend on: `sorted` takes the order out again. `Counter(xs)` has each value of
`xs` once, in the order they first come, with how often it comes, and
`most_common(n)` ranks them by that, ties in their order.

Key definitions: `Str.sorted`, `Counter.count`, `Counter.mostCommon`.
Key theorems: `Str.sorted_congr`, `Counter.get?_count`, `Counter.length_items_count`.
-/
import Mathlib.Data.List.Dedup
import Mathlib.Data.List.Sort
import Xc7Tools.Lib.Dict
import Xc7Tools.Lib.Str

namespace Xc7Tools

namespace Str

/-! ### The order of strings -/

theorem le_total : ∀ s t : Str, le s t = true ∨ le t s = true
  | [], _ => Or.inl rfl
  | _ :: _, [] => Or.inr rfl
  | c :: s, d :: t => by
    have ih := le_total s t
    rcases Nat.lt_trichotomy c.toNat d.toNat with h | h | h
    · simp [le, h]
    · have hc : c = d := Char.toNat_inj.mp h
      subst hc
      simpa [le] using ih
    · simp [le, h]

theorem le_antisymm : ∀ {s t : Str}, le s t = true → le t s = true → s = t
  | [], [], _, _ => rfl
  | [], _ :: _, _, h => by cases h
  | _ :: _, [], h, _ => by cases h
  | c :: s, d :: t, h, h' => by
    simp only [le, Bool.or_eq_true, decide_eq_true_eq, Bool.and_eq_true, beq_iff_eq] at h h'
    rcases h with h | ⟨rfl, h⟩
    · rcases h' with h' | ⟨rfl, -⟩ <;> omega
    · have h'' : le t s = true := h'.elim (fun e => absurd e (lt_irrefl _)) And.right
      rw [le_antisymm h h'']

theorem le_trans : ∀ {s t u : Str}, le s t = true → le t u = true → le s u = true
  | [], _, _, _, _ => rfl
  | _ :: _, [], _, h, _ => by cases h
  | _ :: _, _ :: _, [], _, h => by cases h
  | c :: s, d :: t, e :: u, h, h' => by
    simp only [le, Bool.or_eq_true, decide_eq_true_eq, Bool.and_eq_true, beq_iff_eq] at h h' ⊢
    rcases h with h | ⟨rfl, h⟩
    · rcases h' with h' | ⟨rfl, -⟩
      · exact Or.inl (h.trans h')
      · exact Or.inl h
    · rcases h' with h' | ⟨rfl, h'⟩
      · exact Or.inl h'
      · exact Or.inr ⟨rfl, le_trans h h'⟩

/-- `sorted(ts)`. -/
def sorted (ts : List Str) : List Str := ts.insertionSort fun s t => le s t = true

theorem perm_sorted (ts : List Str) : (sorted ts).Perm ts := List.perm_insertionSort _ ts

theorem mem_sorted {t : Str} {ts : List Str} : t ∈ sorted ts ↔ t ∈ ts := (perm_sorted ts).mem_iff

instance : Std.Total fun s t : Str => le s t = true := ⟨le_total⟩

instance : IsTrans Str fun s t => le s t = true := ⟨fun _ _ _ => le_trans⟩

instance : Std.Antisymm fun s t : Str => le s t = true := ⟨fun _ _ => le_antisymm⟩

/-- Sorting forgets the order a set is kept in. -/
theorem sorted_congr {ts us : List Str} (hts : ts.Nodup) (hus : us.Nodup)
    (h : ∀ t, t ∈ ts ↔ t ∈ us) : sorted ts = sorted us := by
  have hp : (sorted ts).Perm (sorted us) :=
    (perm_sorted ts).trans (((List.perm_ext_iff_of_nodup hts hus).mpr h).trans (perm_sorted us).symm)
  exact hp.eq_of_pairwise' (List.pairwise_insertionSort _ ts) (List.pairwise_insertionSort _ us)

end Str

namespace Counter

variable {α : Type*} [DecidableEq α]

/-- `Counter(xs)`, made by `counter[x] += 1` for each `x`. -/
def count (xs : List α) : Dict α ℕ :=
  xs.foldl (fun d x => d.set x ((d.get? x).getD 0 + 1)) Dict.empty

theorem count_concat (xs : List α) (x : α) :
    count (xs ++ [x]) = (count xs).set x (((count xs).get? x).getD 0 + 1) := by
  rw [count, List.foldl_concat]
  rfl

/-- Each value has its number of occurrences. -/
theorem get?_count (xs : List α) (a : α) :
    (count xs).get? a = if a ∈ xs then some (xs.count a) else none := by
  induction xs using List.reverseRecOn with
  | nil => rfl
  | append_singleton xs x ih =>
    rw [count_concat, Dict.get?_set]
    by_cases h : x = a
    · subst h
      by_cases hx : x ∈ xs
      · simp [ih, hx]
      · simp [ih, hx, List.count_eq_zero_of_not_mem hx]
    · have h' : ¬ a = x := fun e => h e.symm
      simp [h, h', ih, List.count_append]

theorem mem_keys_count {xs : List α} {a : α} : a ∈ (count xs).keys ↔ a ∈ xs := by
  rw [← Dict.mem_def, ← not_iff_not, ← Dict.get?_eq_none, get?_count]
  split_ifs with h <;> simp [h]

/-- There are as many entries as different values. -/
theorem length_items_count (xs : List α) : (count xs).items.length = xs.dedup.length := by
  have hperm : (count xs).keys.Perm xs.dedup :=
    (List.perm_ext_iff_of_nodup (count xs).nodup (List.nodup_dedup xs)).mpr fun a =>
      mem_keys_count.trans List.mem_dedup.symm
  rw [← hperm.length_eq, Dict.keys, List.length_map]

/-- `counter.most_common(n)` -/
def mostCommon (n : ℕ) (d : Dict α ℕ) : List (α × ℕ) :=
  (d.items.insertionSort fun p q => q.2 ≤ p.2).take n

/-- What is ranked is counted. -/
theorem get?_of_mem_mostCommon {n : ℕ} {d : Dict α ℕ} {p : α × ℕ} (h : p ∈ mostCommon n d) :
    d.get? p.1 = some p.2 :=
  Dict.get?_eq_some.mpr ((List.perm_insertionSort _ d.items).mem_iff.mp (List.mem_of_mem_take h))

omit [DecidableEq α] in
theorem length_mostCommon_le (n : ℕ) (d : Dict α ℕ) : (mostCommon n d).length ≤ n :=
  List.length_take_le ..

omit [DecidableEq α] in
/-- With at most `n` values all are ranked. -/
theorem mem_mostCommon {n : ℕ} {d : Dict α ℕ} (hn : d.items.length ≤ n) {p : α × ℕ} :
    p ∈ mostCommon n d ↔ p ∈ d.items := by
  have hperm := List.perm_insertionSort (fun p q : α × ℕ => q.2 ≤ p.2) d.items
  rw [mostCommon, List.take_of_length_le (hperm.length_eq.trans_le hn), hperm.mem_iff]

end Counter

end Xc7Tools
