/-
# Values gathered under their keys

A `defaultdict` of sets or of lists, filled with one pair after another: under
a key lie the values of its pairs.

Key definitions: `Dict.gather`, `Dict.getAll`.
Key theorems: `Dict.mem_getAll_gather`.
-/
import Xc7Tools.Lib.Dict

namespace Xc7Tools
namespace Dict

variable {κ α : Type*} [DecidableEq κ]

/-- `d.get(k, ())` -/
def getAll (d : Dict κ (List α)) (k : κ) : List α := (d.get? k).getD []

/-- The pairs in their order, each value added to those of its key: by `add` to a set, by
`append` to a list. -/
def gather (add : List α → α → List α) (ps : List (κ × α)) : Dict κ (List α) :=
  ps.foldl (fun d p => d.set p.1 (add (d.getAll p.1) p.2)) empty

/-- `s.add(a)` of a set. -/
def addTo [DecidableEq α] (s : List α) (a : α) : List α := s.insert a

/-- `l.append(a)` -/
def appendTo (l : List α) (a : α) : List α := l ++ [a]

theorem mem_addTo [DecidableEq α] (s : List α) (a b : α) : b ∈ addTo s a ↔ b ∈ s ∨ b = a := by
  rw [addTo, List.mem_insert_iff, or_comm]

theorem mem_appendTo (l : List α) (a b : α) : b ∈ appendTo l a ↔ b ∈ l ∨ b = a := by
  rw [appendTo, List.mem_append, List.mem_singleton]

theorem gather_concat (add : List α → α → List α) (ps : List (κ × α)) (p : κ × α) :
    gather add (ps ++ [p]) =
      (gather add ps).set p.1 (add ((gather add ps).getAll p.1) p.2) := by
  rw [gather, List.foldl_concat]
  rfl

theorem getAll_set (d : Dict κ (List α)) (k k' : κ) (l : List α) :
    (d.set k l).getAll k' = if k = k' then l else d.getAll k' := by
  unfold getAll
  rw [get?_set]
  by_cases h : k = k'
  · rw [if_pos h, if_pos h]
    rfl
  · rw [if_neg h, if_neg h]

/-- **Under a key lie the values of its pairs.** -/
theorem mem_getAll_gather {add : List α → α → List α}
    (hadd : ∀ l a b, b ∈ add l a ↔ b ∈ l ∨ b = a) {ps : List (κ × α)} {k : κ} {a : α} :
    a ∈ (gather add ps).getAll k ↔ (k, a) ∈ ps := by
  induction ps using List.reverseRecOn with
  | nil => simp [gather, getAll]
  | append_singleton ps p ih =>
    rw [gather_concat, getAll_set, List.mem_append, List.mem_singleton, Prod.ext_iff]
    by_cases h : p.1 = k
    · rw [if_pos h, hadd, h, ih]
      simp
    · rw [if_neg h, ih]
      simp [Ne.symm h]

end Dict
end Xc7Tools
