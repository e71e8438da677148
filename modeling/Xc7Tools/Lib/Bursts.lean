/-
# Bursts of a stream

A stream of values under an enable, one of each per edge of a clock. A burst
is a longest stretch with the enable on: the values under it in order, with
no gap. `Bursts.next` watches one edge, and what has been seen is the list of
the bursts that are over and the one in progress.

Key definitions: `Bursts`, `Bursts.next`, `Bursts.all`, `Bursts.watch`.
Key theorems: `Bursts.prefix_all_next`, `Bursts.exists_stretches`.
-/
import Mathlib.Data.List.Forall2
import Mathlib.Data.List.Infix
import Mathlib.Tactic.Common

namespace Xc7Tools

/-- The bursts that are over, and the one in progress. -/
structure Bursts (α : Type*) where
  whole : List (List α)
  part : List α
  deriving DecidableEq

namespace Bursts

variable {α : Type*} {b : Bursts α}

def empty : Bursts α := ⟨[], []⟩

/-- All bursts, with the one in progress. -/
def all (b : Bursts α) : List (List α) := b.whole ++ if b.part = [] then [] else [b.part]

/-- An edge with the enable on (`some`) or off. -/
def next (b : Bursts α) : Option α → Bursts α
  | some a => ⟨b.whole, b.part ++ [a]⟩
  | none => ⟨b.all, []⟩

@[simp] theorem whole_some (a : α) : (b.next (some a)).whole = b.whole := rfl

@[simp] theorem part_some (a : α) : (b.next (some a)).part = b.part ++ [a] := rfl

@[simp] theorem whole_none : (b.next none).whole = b.all := rfl

@[simp] theorem part_none : (b.next none).part = [] := rfl

theorem all_of_nil (h : b.part = []) : b.all = b.whole := by
  unfold all
  rw [if_pos h, List.append_nil]

theorem all_of_ne_nil (h : b.part ≠ []) : b.all = b.whole ++ [b.part] := by
  unfold all
  rw [if_neg h]

@[simp] theorem all_none : (b.next none).all = b.all := all_of_nil rfl

theorem all_some (a : α) : (b.next (some a)).all = b.whole ++ [b.part ++ [a]] :=
  all_of_ne_nil (List.concat_ne_nil a b.part)

/-- Between two bursts nothing changes. -/
theorem next_none_of_nil (h : b.part = []) : b.next none = b := by
  rcases b with ⟨w, p⟩
  obtain rfl : p = [] := h
  unfold next
  rw [all_of_nil rfl]

/-- **A burst only grows.** -/
theorem prefix_all_next {f : List α} (hf : f ∈ b.all) (o : Option α) :
    ∃ f' ∈ (b.next o).all, f <+: f' := by
  rcases o with _ | a
  · exact ⟨f, by rwa [all_none], List.prefix_refl f⟩
  · rw [all_some]
    by_cases hp : b.part = []
    · rw [all_of_nil hp] at hf
      exact ⟨f, List.mem_append_left _ hf, List.prefix_refl f⟩
    · rw [all_of_ne_nil hp, List.mem_append, List.mem_singleton] at hf
      rcases hf with hf | rfl
      · exact ⟨f, List.mem_append_left _ hf, List.prefix_refl f⟩
      · exact ⟨_, List.mem_append_right _ (List.mem_singleton_self _), List.prefix_append _ _⟩

/-! ### A list of symbols and its bursts -/

variable {σ : Type*} (v : σ → Option α)

/-- The bursts of a list of symbols. -/
def watch (l : List σ) : Bursts α := l.foldl (fun b x => b.next (v x)) empty

theorem watch_concat (l : List σ) (x : σ) : watch v (l ++ [x]) = (watch v l).next (v x) := by
  simp [watch]

theorem watch_quiet {l q : List σ} (hl : (watch v l).part = []) (hq : ∀ x ∈ q, v x = none) :
    watch v (l ++ q) = watch v l := by
  induction q using List.reverseRecOn with
  | nil => rw [List.append_nil]
  | append_singleton q x ih =>
    have hsame := ih fun y hy => hq y (List.mem_append_left _ hy)
    rw [← List.append_assoc, watch_concat, hsame, hq x (by simp), next_none_of_nil hl]

/-- A burst with the gap before it and the symbol that ends it. -/
structure Stretch (σ : Type*) where
  gap : List σ
  burst : List σ
  stop : σ

/-- The symbols of a stretch. -/
def Stretch.symbols (t : Stretch σ) : List σ := t.gap ++ (t.burst ++ [t.stop])

/-- A stretch of the burst `f`. -/
structure Stretch.Of (t : Stretch σ) (f : List α) : Prop where
  gap : ∀ x ∈ t.gap, v x = none
  burst : t.burst.map v = f.map some
  stop : v t.stop = none

/-- **A list is its bursts and the gaps between them.** -/
theorem exists_stretches (l : List σ) : ∃ (ts : List (Stretch σ)) (gap cur : List σ),
    l = ts.flatMap Stretch.symbols ++ (gap ++ cur) ∧
      List.Forall₂ (Stretch.Of v) ts (watch v l).whole ∧ (∀ x ∈ gap, v x = none) ∧
      cur.map v = (watch v l).part.map some := by
  induction l using List.reverseRecOn with
  | nil => exact ⟨[], [], [], rfl, .nil, fun x hx => absurd hx List.not_mem_nil, rfl⟩
  | append_singleton l x ih =>
    obtain ⟨ts, gap, cur, hl, hts, hgap, hcur⟩ := ih
    rw [watch_concat]
    cases hx : v x with
    | some a =>
      refine ⟨ts, gap, cur ++ [x], ?_, hts, hgap, ?_⟩
      · rw [hl]
        simp only [List.append_assoc]
      · rw [List.map_append, hcur, part_some, List.map_append, List.map_singleton, hx]
        rfl
    | none =>
      by_cases hpart : (watch v l).part = []
      · have hnil : cur = [] := by simpa [hpart] using hcur
        refine ⟨ts, gap ++ [x], [], ?_, ?_, ?_, rfl⟩
        · rw [hl, hnil]
          simp
        · rw [next_none_of_nil hpart]
          exact hts
        · intro y hy
          rcases List.mem_append.mp hy with hy | hy
          · exact hgap y hy
          · rw [List.mem_singleton.mp hy, hx]
      · refine ⟨ts ++ [⟨gap, cur, x⟩], [], [], ?_, ?_, fun y hy => absurd hy List.not_mem_nil, rfl⟩
        · rw [hl]
          simp [Stretch.symbols]
        · rw [whole_none, all_of_ne_nil hpart]
          exact List.rel_append hts (.cons ⟨hgap, hcur, hx⟩ .nil)

end Bursts
end Xc7Tools
