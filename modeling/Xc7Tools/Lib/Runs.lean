/-
# Runs of one key

The items of a list put together, from the left, with the neighbours that have
their key. The runs one after the other are the list, and neighbouring runs
have different keys (`grouped_runs`): so a relation between neighbours of one
key holds in the list when it holds in each run (`Grouped.isChain_iff`). The
rank of an item, how many are less, is its place exactly in a list that
increases (`rank_iff`).

Key definitions: `Runs.runs`, `Runs.Grouped`, `Runs.rank`.
Key theorems: `Runs.grouped_runs`, `Runs.Grouped.isChain_iff`, `Runs.rank_iff`.
-/
import Mathlib.Data.List.Chain
import Mathlib.Order.Lattice

namespace Xc7Tools
namespace Runs

variable {α κ : Type*}

/-- The item joins the last run if that has its key, and starts one if not. -/
def push [DecidableEq κ] (key : α → κ) (gs : List (κ × List α)) (x : α) : List (κ × List α) :=
  match gs.getLast? with
  | some g => if g.1 = key x then gs.dropLast ++ [(g.1, g.2 ++ [x])] else gs ++ [(key x, [x])]
  | none => gs ++ [(key x, [x])]

/-- The runs of a list. -/
def runs [DecidableEq κ] (key : α → κ) (xs : List α) : List (κ × List α) := xs.foldl (push key) []

/-- The groups are the runs of the list. -/
structure Grouped (key : α → κ) (xs : List α) (gs : List (κ × List α)) : Prop where
  flatten : (gs.map Prod.snd).flatten = xs
  key_eq : ∀ g ∈ gs, ∀ x ∈ g.2, key x = g.1
  ne_nil : ∀ g ∈ gs, g.2 ≠ []
  apart : gs.IsChain fun g g' => g.1 ≠ g'.1

theorem Grouped.push [DecidableEq κ] {key : α → κ} {xs : List α} {gs : List (κ × List α)}
    (h : Grouped key xs gs) (x : α) : Grouped key (xs ++ [x]) (push key gs x) := by
  rcases gs.eq_nil_or_concat with rfl | ⟨init, g, rfl⟩
  · obtain rfl : [] = xs := h.flatten
    exact {
      flatten := rfl
      key_eq := by simp [Runs.push]
      ne_nil := by simp [Runs.push]
      apart := List.isChain_singleton _ }
  unfold Runs.push
  rw [List.concat_eq_append] at h ⊢
  rw [List.getLast?_concat, List.dropLast_concat]
  by_cases hkey : g.1 = key x
  · -- the last run is one longer
    simp only [if_pos hkey]
    have hinit : ∀ g' ∈ init, g' ∈ init ++ [g] := fun g' hg' => List.mem_append_left _ hg'
    have hlast : g ∈ init ++ [g] := List.mem_append_right _ (List.mem_singleton_self g)
    refine ⟨?_, ?_, ?_, ?_⟩
    · simp [← h.flatten]
    · intro g' hg' y hy
      rcases List.mem_append.mp hg' with hg' | hg'
      · exact h.key_eq g' (hinit g' hg') y hy
      · rw [List.mem_singleton.mp hg'] at hy ⊢
        rcases List.mem_append.mp hy with hy | hy
        · exact h.key_eq g hlast y hy
        · rw [List.mem_singleton.mp hy]
          exact hkey.symm
    · intro g' hg'
      rcases List.mem_append.mp hg' with hg' | hg'
      · exact h.ne_nil g' (hinit g' hg')
      · rw [List.mem_singleton.mp hg']
        exact List.concat_ne_nil _ _
    · obtain ⟨hchain, -, hends⟩ := List.isChain_append.mp h.apart
      refine List.isChain_append.mpr ⟨hchain, List.isChain_singleton _, ?_⟩
      intro g₁ h₁ g₂ h₂
      rw [← Option.some.inj h₂]
      exact hends g₁ h₁ g rfl
  · -- a run of its own
    simp only [if_neg hkey]
    refine ⟨?_, ?_, ?_, ?_⟩
    · simp [← h.flatten]
    · intro g' hg' y hy
      rcases List.mem_append.mp hg' with hg' | hg'
      · exact h.key_eq g' hg' y hy
      · rw [List.mem_singleton.mp hg'] at hy ⊢
        rw [List.mem_singleton.mp hy]
    · intro g' hg'
      rcases List.mem_append.mp hg' with hg' | hg'
      · exact h.ne_nil g' hg'
      · rw [List.mem_singleton.mp hg']
        exact List.cons_ne_nil _ _
    · refine List.isChain_append.mpr ⟨h.apart, List.isChain_singleton _, ?_⟩
      intro g₁ h₁ g₂ h₂
      rw [List.getLast?_concat] at h₁
      rw [← Option.some.inj h₁, ← Option.some.inj h₂]
      exact hkey

theorem grouped_runs [DecidableEq κ] (key : α → κ) (xs : List α) :
    Grouped key xs (runs key xs) := by
  induction xs using List.reverseRecOn with
  | nil => exact ⟨rfl, by simp [runs], by simp [runs], List.isChain_nil⟩
  | append_singleton xs x ih =>
    rw [runs, List.foldl_append]
    exact ih.push x

/-- **What is asked of neighbours of one key is asked of the neighbours in the runs.** -/
theorem Grouped.isChain_iff {key : α → κ} {xs : List α} {gs : List (κ × List α)}
    (h : Grouped key xs gs) (R : α → α → Prop) :
    xs.IsChain (fun x y => key x = key y → R x y) ↔ ∀ g ∈ gs, g.2.IsChain R := by
  have hne : [] ∉ gs.map Prod.snd := fun hmem => by
    obtain ⟨g, hg, hnil⟩ := List.mem_map.mp hmem
    exact h.ne_nil g hg hnil
  have hbetween : (gs.map Prod.snd).IsChain fun l₁ l₂ =>
      ∀ᵉ (x ∈ l₁.getLast?) (y ∈ l₂.head?), key x = key y → R x y := by
    refine (List.isChain_map _).mpr (h.apart.imp_of_mem_imp fun g g' hg hg' hkeys => ?_)
    intro x hx y hy hkey
    rw [h.key_eq g hg x (List.mem_of_getLast? hx), h.key_eq g' hg' y (List.mem_of_head? hy)] at hkey
    exact absurd hkey hkeys
  rw [← h.flatten, List.isChain_flatten hne, and_iff_left hbetween, List.forall_mem_map]
  refine forall₂_congr fun g hg => List.IsChain.iff_of_mem_imp fun x y hx hy => ?_
  rw [h.key_eq g hg x hx, h.key_eq g hg y hy]
  exact forall_prop_of_true rfl

/-! ### Ranks -/

variable {β : Type*} [LinearOrder β] (f : α → β)

/-- How many of the items are less. -/
def rank (xs : List α) (x : α) : ℕ := xs.countP fun y => f y < f x

theorem rank_mono {xs : List α} {x y : α} (h : f x ≤ f y) : rank f xs x ≤ rank f xs y := by
  apply List.countP_mono_left
  intro z _ hz
  exact decide_eq_true (lt_of_lt_of_le (of_decide_eq_true hz) h)

/-- **Every item has its place for its rank when the list increases, and only then.** -/
theorem rank_iff {xs : List α} :
    (∀ (i : ℕ) (hi : i < xs.length), rank f xs xs[i] = i) ↔ xs.Pairwise fun x y => f x < f y := by
  constructor
  · intro h
    rw [List.pairwise_iff_getElem]
    intro i j hi hj hlt
    by_contra hle
    have hrank : rank f xs xs[j] ≤ rank f xs xs[i] := rank_mono f (not_lt.mp hle)
    rw [h i hi, h j hj] at hrank
    omega
  · intro h
    induction xs with
    | nil => exact fun i hi => absurd hi (Nat.not_lt_zero i)
    | cons x xs ih =>
      obtain ⟨hx, hxs⟩ := List.pairwise_cons.mp h
      intro i hi
      cases i with
      | zero =>
        refine List.countP_eq_zero.mpr fun y hy => ?_
        rw [decide_eq_true_iff, not_lt]
        rcases List.mem_cons.mp hy with rfl | hy
        · exact le_rfl
        · exact (hx y hy).le
      | succ i =>
        have hi : i < xs.length := Nat.lt_of_succ_lt_succ hi
        have hlt : f x < f xs[i] := hx _ (List.getElem_mem hi)
        have hrank : rank f (x :: xs) xs[i] = rank f xs xs[i] + 1 :=
          List.countP_cons_of_pos (decide_eq_true hlt)
        rw [List.getElem_cons_succ, hrank, ih hxs i hi]

end Runs
end Xc7Tools
