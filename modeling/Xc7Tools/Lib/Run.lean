/-
# Runs of a clocked machine

A machine is a step function on its state and an input per step. `stateAt`
is its state before step `n` of an endless run, and `inv_from` the induction
along a stretch of a run: what holds where the stretch begins and is kept by
each of its steps holds where it ends.

A finite run is a list of inputs, and may have a ledger beside it that notes
what each step shows (`noted`). What relates the ledger to the state and is
kept by each step that `ok` allows holds after every run of such steps
(`noted_inv`).

Key definitions: `Run.stateAt`, `Run.noted`, `Run.Along`.
Key theorems: `Run.inv_from`, `Run.noted_inv`, `Run.foldl_inv`.
-/
import Mathlib.Data.Nat.Notation
import Mathlib.Logic.Basic

namespace Xc7Tools
namespace Run

variable {σ ε : Type*} (step : σ → ε → σ)

/-- The state before step `n` of the run from `s` that takes input `inp n` at
step `n`. -/
def stateAt (inp : ℕ → ε) (s : σ) : ℕ → σ
  | 0 => s
  | n + 1 => step (stateAt inp s n) (inp n)

theorem stateAt_succ (inp : ℕ → ε) (s : σ) (n : ℕ) :
    stateAt step inp s (n + 1) = step (stateAt step inp s n) (inp n) := rfl

/-- **Invariants along a run.** What holds before step `a` and is kept by the
steps `a .. a + n - 1` holds before step `a + n`; it may count the steps. -/
theorem inv_from {inp : ℕ → ε} {s : σ} {a : ℕ} (I : ℕ → σ → Prop)
    (h0 : I 0 (stateAt step inp s a)) :
    ∀ n, (∀ i < n, I i (stateAt step inp s (a + i)) →
      I (i + 1) (step (stateAt step inp s (a + i)) (inp (a + i)))) →
        I n (stateAt step inp s (a + n))
  | 0, _ => h0
  | n + 1, h => by
    have ih := inv_from I h0 n fun i hi => h i (Nat.lt_succ_of_lt hi)
    rw [← Nat.add_assoc, stateAt_succ]
    exact h n (Nat.lt_succ_self n) ih

/-! ### Finite runs with a ledger -/

variable {τ : Type*} (note : σ → ε → τ → τ) (ok : σ → ε → Prop)

/-- The state and the ledger after the inputs of a list. -/
def noted : σ × τ → List ε → σ × τ
  | x, [] => x
  | x, e :: es => noted (step x.1 e, note x.1 e x.2) es

/-- Each step of the run is one that `ok` allows. -/
def Along : σ → List ε → Prop
  | _, [] => True
  | s, e :: es => ok s e ∧ Along (step s e) es

instance decidableAlong [∀ s e, Decidable (ok s e)] :
    ∀ (s : σ) (es : List ε), Decidable (Along step ok s es)
  | _, [] => isTrue trivial
  | s, e :: es =>
    have := decidableAlong (step s e) es
    inferInstanceAs (Decidable (_ ∧ _))

theorem along_of_forall (h : ∀ s e, ok s e) :
    ∀ (es : List ε) (s : σ), Along step ok s es
  | [], _ => trivial
  | e :: es, s => ⟨h s e, along_of_forall h es _⟩

theorem along_of_forall_mem : ∀ {es : List ε}, (∀ e ∈ es, ∀ s, ok s e) → ∀ s, Along step ok s es
  | [], _, _ => trivial
  | e :: _, h, s => ⟨h e (List.mem_cons_self ..) s,
      along_of_forall_mem (fun e' he' => h e' (List.mem_cons_of_mem e he')) _⟩

/-- The ledger does not act on the state. -/
theorem noted_fst : ∀ (es : List ε) (x : σ × τ), (noted step note x es).1 = es.foldl step x.1
  | [], _ => rfl
  | _ :: es, _ => noted_fst es _

theorem noted_append : ∀ (es fs : List ε) (x : σ × τ),
    noted step note x (es ++ fs) = noted step note (noted step note x es) fs
  | [], _, _ => rfl
  | _ :: es, fs, _ => noted_append es fs _

theorem along_append : ∀ (es fs : List ε) (x : σ × τ), Along step ok x.1 (es ++ fs) ↔
    Along step ok x.1 es ∧ Along step ok (noted step note x es).1 fs
  | [], _, _ => by simp [Along, noted]
  | _ :: es, fs, _ => by
    rw [List.cons_append, Along, Along, and_assoc, along_append es fs (step _ _, note _ _ _)]
    rfl

variable {step note ok}

/-- **Invariants of a noted run.** -/
theorem noted_inv (I : σ → τ → Prop)
    (hI : ∀ s e t, I s t → ok s e → I (step s e) (note s e t)) : ∀ (es : List ε) (x : σ × τ),
      Along step ok x.1 es → I x.1 x.2 →
        I (noted step note x es).1 (noted step note x es).2
  | [], _, _, h => h
  | _ :: es, _, hes, h => noted_inv I hI es (step _ _, note _ _ _) hes.2 (hI _ _ _ h hes.1)

/-- **Invariants of a run.** -/
theorem foldl_inv (I : σ → Prop) (hI : ∀ s e, I s → ok s e → I (step s e)) :
    ∀ (es : List ε) (s : σ), Along step ok s es → I s → I (es.foldl step s)
  | [], _, _, h => h
  | _ :: es, _, hes, h => foldl_inv I hI es _ hes.2 (hI _ _ h hes.1)

end Run
end Xc7Tools
