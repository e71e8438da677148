/-
# Ranges sorted by their start

A list of half-open ranges `[start, stop)`, none of them empty, in the order
of their starts. Only neighbours have to be looked at: when each range ends
where the next begins or before, it ends before all the later ones
(`pairwise_of_neighbours`), so the ranges are disjoint two by two if and only
if neighbours are (`neighbours_iff_disjoint`).

Key definitions: `Extents.Apart`.
Key theorems: `Extents.pairwise_of_neighbours`, `Extents.neighbours_iff_disjoint`,
`Extents.pairwise_insertionSort`.
-/
import Mathlib.Data.List.Sort
import Mathlib.Order.CompletePartialOrder
import Mathlib.Order.Interval.Set.Disjoint

namespace Xc7Tools
namespace Extents

variable {ι α : Type*} [LinearOrder α] (start stop : ι → α)

/-- The two ranges have no point in common. -/
def Apart (i j : ι) : Prop := Disjoint (Set.Ico (start i) (stop i)) (Set.Ico (start j) (stop j))

theorem Apart.symm {i j : ι} (h : Apart start stop i j) : Apart start stop j i :=
  Disjoint.symm h

variable {start stop}

theorem apart_of_le {i j : ι} (h : stop i ≤ start j) : Apart start stop i j :=
  Set.Ico_disjoint_Ico.mpr (((min_le_left _ _).trans h).trans (le_max_right _ _))

/-- Of two ranges that are apart, the one that starts first ends before the
other starts. -/
theorem Apart.stop_le {i j : ι} (h : Apart start stop i j) (hle : start i ≤ start j)
    (hj : start j < stop j) : stop i ≤ start j := by
  have hmin : min (stop i) (stop j) ≤ max (start i) (start j) := Set.Ico_disjoint_Ico.mp h
  rw [max_eq_right hle] at hmin
  rcases min_le_iff.mp hmin with hi | hj'
  · exact hi
  · exact absurd hj' (not_le.mpr hj)

/-- A range that ends before its neighbour ends before all that follow. -/
theorem pairwise_of_neighbours : ∀ {xs : List ι}, (∀ i ∈ xs, start i ≤ stop i) →
    xs.IsChain (fun i j => stop i ≤ start j) → xs.Pairwise fun i j => stop i ≤ start j
  | [], _, _ => List.Pairwise.nil
  | [i], _, _ => List.pairwise_singleton _ i
  | i :: j :: xs, hxs, h => by
    obtain ⟨hij, htail⟩ := List.isChain_cons_cons.mp h
    have ih := pairwise_of_neighbours (fun k hk => hxs k (List.mem_cons_of_mem _ hk)) htail
    have hj : start j ≤ stop j := hxs j (List.mem_cons_of_mem _ List.mem_cons_self)
    refine List.pairwise_cons.mpr ⟨fun k hk => ?_, ih⟩
    rcases List.mem_cons.mp hk with rfl | hk
    · exact hij
    · exact (hij.trans hj).trans ((List.pairwise_cons.mp ih).1 k hk)

/-- **Neighbours decide.** -/
theorem neighbours_iff_disjoint {xs : List ι} (hxs : ∀ i ∈ xs, start i < stop i)
    (hsorted : xs.Pairwise fun i j => start i ≤ start j) :
    xs.IsChain (fun i j => stop i ≤ start j) ↔ xs.Pairwise (Apart start stop) := by
  constructor
  · intro h
    exact (pairwise_of_neighbours (fun i hi => (hxs i hi).le) h).imp apart_of_le
  · intro h
    apply List.Pairwise.isChain
    have hboth := List.Pairwise.and_mem.mp (hsorted.and h)
    apply hboth.imp
    rintro i j ⟨-, hj, hle, hapart⟩
    exact hapart.stop_le hle (hxs j hj)

/-! ### Sorting by a finer order -/

section Sorted

variable (start) {r : ι → ι → Prop} [DecidableRel r] (hle : ∀ i j, r i j → start i ≤ start j)
  (hge : ∀ i j, ¬ r i j → start j ≤ start i)

include hle hge

theorem pairwise_orderedInsert (i : ι) : ∀ {xs : List ι},
    (xs.Pairwise fun j k => start j ≤ start k) →
      (xs.orderedInsert r i).Pairwise fun j k => start j ≤ start k
  | [], _ => List.pairwise_singleton _ i
  | j :: xs, h => by
    obtain ⟨hj, hxs⟩ := List.pairwise_cons.mp h
    rw [List.orderedInsert_cons]
    split_ifs with hij
    · refine List.pairwise_cons.mpr ⟨fun k hk => ?_, h⟩
      rcases List.mem_cons.mp hk with rfl | hk
      · exact hle i k hij
      · exact (hle i j hij).trans (hj k hk)
    · refine List.pairwise_cons.mpr ⟨fun k hk => ?_, pairwise_orderedInsert i hxs⟩
      rcases List.mem_cons.mp ((List.perm_orderedInsert r i xs).mem_iff.mp hk) with rfl | hk
      · exact hge k j hij
      · exact hj k hk

/-- A sort that looks at the start first leaves the starts in order. -/
theorem pairwise_insertionSort : ∀ xs : List ι,
    (xs.insertionSort r).Pairwise fun j k => start j ≤ start k
  | [] => List.Pairwise.nil
  | i :: xs => pairwise_orderedInsert start hle hge i (pairwise_insertionSort xs)

end Sorted

end Extents
end Xc7Tools
