/-
# A copy glued along some of its points

A structure is copied into a host: some of its points are given to points of
the host (`outer`), every other point gets one of its own (`own`). When the
points of the copy's own are different from each other and from the given
ones, two points of the structure meet in the copy exactly when they are the
same or are given the same point of the host.

Key definitions: `glue`.
Key theorems: `glue_eq_iff`.
-/
import Mathlib.Data.Option.Basic

namespace Xc7Tools

variable {α β : Type*}

/-- The point of the host that stands for `a`. -/
def glue (outer : α → Option β) (own : α → β) (a : α) : β := (outer a).getD (own a)

variable {outer : α → Option β} {own : α → β}

theorem glue_of_outer {a : α} {b : β} (h : outer a = some b) : glue outer own a = b := by
  rw [glue, h, Option.getD_some]

theorem glue_of_own {a : α} (h : outer a = none) : glue outer own a = own a := by
  rw [glue, h, Option.getD_none]

theorem glue_eq_iff (hinj : ∀ a b, outer a = none → outer b = none → own a = own b → a = b)
    (hfresh : ∀ a b c, outer a = none → outer b = some c → own a ≠ c) (a b : α) :
    glue outer own a = glue outer own b ↔ a = b ∨ ∃ c, outer a = some c ∧ outer b = some c := by
  cases ha : outer a with
  | none =>
    cases hb : outer b with
    | none =>
      rw [glue_of_own ha, glue_of_own hb]
      exact ⟨fun h => Or.inl (hinj a b ha hb h), fun h => by
        rcases h with rfl | ⟨_, h, _⟩
        · rfl
        · cases h⟩
    | some c =>
      rw [glue_of_own ha, glue_of_outer hb]
      refine ⟨fun h => absurd h (hfresh a b c ha hb), fun h => ?_⟩
      rcases h with rfl | ⟨_, h, _⟩
      · rw [ha] at hb; cases hb
      · cases h
  | some c =>
    cases hb : outer b with
    | none =>
      rw [glue_of_outer ha, glue_of_own hb]
      refine ⟨fun h => absurd h.symm (hfresh b a c hb ha), fun h => ?_⟩
      rcases h with rfl | ⟨_, _, h⟩
      · rw [ha] at hb; cases hb
      · cases h
    | some d =>
      rw [glue_of_outer ha, glue_of_outer hb]
      refine ⟨fun h => Or.inr ⟨c, rfl, congrArg some h.symm⟩, fun h => ?_⟩
      rcases h with rfl | ⟨_, h1, h2⟩
      · rw [ha] at hb; exact Option.some.inj hb
      · exact (Option.some.inj h1).trans (Option.some.inj h2).symm

end Xc7Tools
