/-
# A ring buffer written at consecutive slots

The memory is a function of a `w`-bit slot number, so slot arithmetic wraps
at `2 ^ w`. `fill m a xs` is the memory after the words `xs` are stored at
`a`, `a + 1`, ... in order; a word is still there when fewer than `2 ^ w`
words were stored after it (`fill_get`).

Key definitions: `Ring.fill`.
Key theorems: `Ring.fill_concat`, `Ring.fill_get`.
-/
import Mathlib.Data.BitVec
import Mathlib.Logic.Function.Basic

namespace Xc7Tools
namespace Ring

variable {w : ℕ} {α : Type*}

/-- The memory after the words `xs` are stored from slot `a` on. -/
def fill (m : BitVec w → α) (a : BitVec w) : List α → BitVec w → α
  | [] => m
  | x :: xs => fill (Function.update m a x) (a + 1) xs

@[simp] theorem fill_nil (m : BitVec w → α) (a : BitVec w) : fill m a [] = m := rfl

/-- One more word goes to the slot after the last. -/
theorem fill_concat (x : α) : ∀ (m : BitVec w → α) (a : BitVec w) (xs : List α),
    fill m a (xs ++ [x]) = Function.update (fill m a xs) (a + BitVec.ofNat w xs.length) x
  | m, a, [] => by simp [fill]
  | m, a, y :: ys => by
    have hslot : a + 1 + BitVec.ofNat w ys.length = a + BitVec.ofNat w (ys.length + 1) := by
      rw [BitVec.ofNat_add, BitVec.add_assoc, BitVec.add_comm 1]
      rfl
    simp only [List.cons_append, fill, List.length_cons, fill_concat x _ _ ys, hslot]

/-- Slots less than a turn apart are different. -/
theorem slot_ne (a : BitVec w) {i j : ℕ} (hij : i < j) (hj : j < i + 2 ^ w) :
    a + BitVec.ofNat w i ≠ a + BitVec.ofNat w j := by
  intro h
  have h1 : BitVec.ofNat w i = BitVec.ofNat w j := by simpa using h
  have h2 : i % 2 ^ w = j % 2 ^ w := by simpa using congrArg BitVec.toNat h1
  have h3 : 2 ^ w ∣ j - i := (Nat.modEq_iff_dvd' hij.le).mp h2
  have := Nat.le_of_dvd (by omega) h3
  omega

/-- A stored word is read back until the ring has turned over it. -/
theorem fill_get (m : BitVec w → α) (a : BitVec w) (xs : List α) :
    ∀ (j : ℕ) (hj : j < xs.length), xs.length ≤ j + 2 ^ w →
      fill m a xs (a + BitVec.ofNat w j) = xs[j] := by
  -- from the last word back: it is either the one asked for or in another slot
  induction xs using List.reverseRecOn with
  | nil => intro j hj; simp at hj
  | append_singleton ys x ih =>
    intro j hj hturn
    rw [List.length_append, List.length_singleton] at hj hturn
    rw [fill_concat]
    rcases Nat.lt_or_ge j ys.length with hlt | hge
    · rw [Function.update_of_ne (slot_ne a hlt (by omega)), ih j hlt (by omega),
        List.getElem_append_left hlt]
    · have hlast : j = ys.length := by omega
      subst hlast
      simp

end Ring
end Xc7Tools
