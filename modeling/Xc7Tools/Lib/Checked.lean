/-
# Results that may be an exception

A run of a script that may raise is an `Except`. `orRaise` is a lookup that
raises when nothing is found; `bind_eq_ok` takes an accepted run apart into its
steps.

Key definitions: `orRaise`.
Key theorems: `bind_eq_ok`, `exists_of_mem_mapM`.
-/
import Mathlib.Data.List.Basic

namespace Xc7Tools
namespace Checked

universe u v

variable {ε : Type u} {α β : Type v}

/-- The value found, or the exception. -/
def orRaise (e : ε) : Option α → Except ε α
  | some a => .ok a
  | none => .error e

@[simp] theorem orRaise_eq_ok {e : ε} {o : Option α} {a : α} :
    orRaise e o = .ok a ↔ o = some a := by
  cases o <;> simp [orRaise]

theorem bind_eq_ok {x : Except ε α} {f : α → Except ε β} {b : β} :
    (x >>= f) = .ok b ↔ ∃ a, x = .ok a ∧ f a = .ok b := by
  cases x <;> simp [bind, Except.bind]

theorem pure_eq_ok {a b : α} : (pure a : Except ε α) = .ok b ↔ a = b := by
  simp [pure, Except.pure]

theorem exists_of_isOk : ∀ {x : Except ε α}, x.isOk = true → ∃ a, x = .ok a
  | .ok a, _ => ⟨a, rfl⟩
  | .error _, h => by cases h

theorem ok_of_toOption : ∀ {x : Except ε α} {a : α}, x.toOption = some a → x = .ok a
  | .ok _, _, h => congrArg _ (Option.some.inj h)
  | .error _, _, h => by cases h

/-- Every result of an accepted `mapM` is the result of one of the steps. -/
theorem exists_of_mem_mapM {f : α → Except ε β} : ∀ {xs : List α} {ys : List β},
    xs.mapM f = .ok ys → ∀ {y}, y ∈ ys → ∃ x ∈ xs, f x = .ok y
  | [], ys, h, y, hy => by
    rw [List.mapM_nil, pure_eq_ok] at h
    subst h
    cases hy
  | x :: xs, ys, h, y, hy => by
    simp only [List.mapM_cons, bind_eq_ok, pure_eq_ok] at h
    obtain ⟨z, hz, zs, hzs, rfl⟩ := h
    rcases List.mem_cons.mp hy with rfl | hy
    · exact ⟨x, List.mem_cons_self, hz⟩
    · obtain ⟨x', hx', h'⟩ := exists_of_mem_mapM hzs hy
      exact ⟨x', List.mem_cons_of_mem _ hx', h'⟩

/-- Every step of an accepted `mapM` has its result among the results. -/
theorem exists_of_mem_of_mapM {f : α → Except ε β} : ∀ {xs : List α} {ys : List β},
    xs.mapM f = .ok ys → ∀ {x}, x ∈ xs → ∃ y ∈ ys, f x = .ok y
  | [], _, _, _, hx => by cases hx
  | x :: xs, ys, h, x', hx => by
    simp only [List.mapM_cons, bind_eq_ok, pure_eq_ok] at h
    obtain ⟨z, hz, zs, hzs, rfl⟩ := h
    rcases List.mem_cons.mp hx with rfl | hx
    · exact ⟨z, List.mem_cons_self, hz⟩
    · obtain ⟨y, hy, h'⟩ := exists_of_mem_of_mapM hzs hx
      exact ⟨y, List.mem_cons_of_mem _ hy, h'⟩

theorem mapM_eq_map {f : α → Except ε β} {g : α → β} : ∀ {xs : List α},
    (∀ x ∈ xs, f x = .ok (g x)) → xs.mapM f = .ok (xs.map g)
  | [], _ => List.mapM_nil
  | x :: xs, h => by
    have ih := mapM_eq_map fun x' hx' => h x' (List.mem_cons_of_mem _ hx')
    rw [List.mapM_cons, h x List.mem_cons_self]
    exact bind_eq_ok.mpr ⟨_, rfl, bind_eq_ok.mpr ⟨_, ih, rfl⟩⟩

end Checked
end Xc7Tools
