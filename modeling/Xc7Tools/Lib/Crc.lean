/-
# The register of a cyclic redundancy check

A register of `w` cells takes the bits of a message one at a time: the top
cell and the bit are added and fed back into the cells where the polynomial
has a term. Adding two registers and their messages adds the results
(`feed_xor`), and a register fed its own bits, top cell first, is cleared
(`feed_top`). So a message followed by its own check, inverted or not, leaves
the register at a value that no other check leaves (`feed_top_eq_iff`): the
residue.

Key definitions: `Crc.step`, `Crc.feed`, `Crc.top`, `Crc.residue`.
Key theorems: `Crc.feed_xor`, `Crc.feed_top`, `Crc.feed_injective`,
`Crc.feed_top_eq_iff`.
-/
import Mathlib.Data.BitVec
import Mathlib.Tactic.Common

namespace Xc7Tools
namespace Crc

variable {w : ℕ} (p : BitVec w)

/-- A bit into the register. `p` is the polynomial without its term of degree `w`. -/
def step (s : BitVec w) (x : Bool) : BitVec w := (s <<< 1) ^^^ (if s.msb ^^ x then p else 0#w)

/-- The bits of a message into the register. -/
def feed (s : BitVec w) (xs : List Bool) : BitVec w := xs.foldl (step p) s

/-- The register's own bits, the top cell first. -/
def top (s : BitVec w) : List Bool := (List.range w).map s.getMsbD

/-- What a message and its inverted check leave. -/
def residue : BitVec w := feed p 0#w (top (BitVec.allOnes w))

@[simp] theorem feed_nil (s : BitVec w) : feed p s [] = s := rfl

@[simp] theorem feed_cons (s : BitVec w) (x : Bool) (xs : List Bool) :
    feed p s (x :: xs) = feed p (step p s x) xs := rfl

theorem feed_append (s : BitVec w) (xs ys : List Bool) :
    feed p s (xs ++ ys) = feed p (feed p s xs) ys := List.foldl_append

@[simp] theorem length_top (s : BitVec w) : (top s).length = w := by simp [top]

/-! ### Sums -/

theorem step_xor (s t : BitVec w) (x y : Bool) :
    step p (s ^^^ t) (x ^^ y) = step p s x ^^^ step p t y := by
  apply BitVec.eq_of_getLsbD_eq
  intro i hi
  simp only [step, BitVec.getLsbD_xor, BitVec.getLsbD_shiftLeft, BitVec.msb_xor]
  cases s.msb <;> cases t.msb <;> cases x <;> cases y <;> simp <;> grind

/-- **Sums of messages.** -/
theorem feed_xor : ∀ (xs ys : List Bool) (s t : BitVec w), xs.length = ys.length →
    feed p (s ^^^ t) (List.zipWith xor xs ys) = feed p s xs ^^^ feed p t ys
  | [], [], _, _, _ => rfl
  | x :: xs, y :: ys, s, t, h => by
    rw [List.zipWith_cons_cons, feed_cons, step_xor,
      feed_xor xs ys _ _ (by simpa using h)]
    rfl

theorem top_xor (s t : BitVec w) : top (s ^^^ t) = List.zipWith xor (top s) (top t) := by
  simp only [top, List.zipWith_map, List.zipWith_self]
  apply List.map_congr_left
  intro i _
  simp

/-! ### A register and its own bits -/

theorem step_own (s : BitVec w) (k : ℕ) :
    step p (s <<< k) (s.getMsbD k) = s <<< (k + 1) := by
  simp [step, BitVec.msb_shiftLeft, BitVec.shiftLeft_add]

theorem feed_own (s : BitVec w) : ∀ k, feed p s ((List.range k).map s.getMsbD) = s <<< k
  | 0 => by simp
  | k + 1 => by
    rw [List.range_succ, List.map_append, feed_append, feed_own s k]
    exact step_own p s k

/-- **A register is cleared by its own bits.** -/
theorem feed_top (s : BitVec w) : feed p s (top s) = 0#w := by
  rw [top, feed_own]
  exact BitVec.shiftLeft_eq_zero (Nat.le_refl w)

/-- After a check only its difference from the register's own bits counts. -/
theorem feed_top_diff (s t : BitVec w) : feed p s (top t) = feed p 0#w (top (s ^^^ t)) := by
  have hs : s ^^^ (s ^^^ t) = t := by rw [← BitVec.xor_assoc, BitVec.xor_self, BitVec.zero_xor]
  calc feed p s (top t)
      = feed p (s ^^^ 0#w) (List.zipWith xor (top s) (top (s ^^^ t))) := by
        rw [← top_xor, hs, BitVec.xor_zero]
    _ = feed p s (top s) ^^^ feed p 0#w (top (s ^^^ t)) := feed_xor p _ _ _ _ (by simp)
    _ = feed p 0#w (top (s ^^^ t)) := by rw [feed_top, BitVec.zero_xor]

/-! ### What the register forgets -/

variable {p}

/-- With a constant term the polynomial shows in cell 0 what was fed back. -/
theorem getLsbD_step_zero (hp : p.getLsbD 0 = true) (s : BitVec w) (x : Bool) :
    (step p s x).getLsbD 0 = (s.msb ^^ x) := by
  have hw : 0 < w := BitVec.lt_of_getLsbD hp
  rw [step, BitVec.getLsbD_xor, BitVec.getLsbD_shiftLeft]
  cases s.msb ^^ x
  · simp
  · simp only [↓reduceIte, hp]
    simp

theorem getLsbD_step_succ (s : BitVec w) (x : Bool) {i : ℕ} (hi : i + 1 < w) :
    (step p s x).getLsbD (i + 1) =
      (s.getLsbD i ^^ (if s.msb ^^ x then p else 0#w).getLsbD (i + 1)) := by
  simp only [step, BitVec.getLsbD_xor, BitVec.getLsbD_shiftLeft, hi]
  simp

theorem step_injective (hp : p.getLsbD 0 = true) {s t : BitVec w} {x : Bool}
    (h : step p s x = step p t x) : s = t := by
  have hmsb : s.msb = t.msb := by
    have h0 := getLsbD_step_zero hp s x
    rw [h, getLsbD_step_zero hp] at h0
    simpa using h0.symm
  apply BitVec.eq_of_getLsbD_eq
  intro i hi
  by_cases hlast : i + 1 = w
  · have hi' : w - 1 = i := by omega
    rw [← hi', ← BitVec.msb_eq_getLsbD_last, ← BitVec.msb_eq_getLsbD_last, hmsb]
  · have hi1 := getLsbD_step_succ (p := p) s x (i := i) (by omega)
    rw [h, getLsbD_step_succ t x (by omega), hmsb] at hi1
    simpa using hi1.symm

/-- **No two registers are brought together** by one message. -/
theorem feed_injective (hp : p.getLsbD 0 = true) : ∀ (xs : List Bool) {s t : BitVec w},
    feed p s xs = feed p t xs → s = t
  | [], _, _, h => h
  | _ :: xs, _, _, h => step_injective hp (feed_injective hp xs h)

theorem feed_zero_top (s : BitVec w) :
    feed p 0#w (top s) = feed p s (top 0#w) := by
  rw [feed_top_diff p s, BitVec.xor_zero]

/-- Two checks leave the same only if they are the same. -/
theorem feed_zero_top_inj (hp : p.getLsbD 0 = true) {s t : BitVec w} :
    feed p 0#w (top s) = feed p 0#w (top t) ↔ s = t := by
  refine ⟨fun h => ?_, fun h => by rw [h]⟩
  rw [feed_zero_top, feed_zero_top] at h
  exact feed_injective hp _ h

/-- **The residue** is left by the inverted check, and by no other. -/
theorem feed_top_eq_iff (hp : p.getLsbD 0 = true) (s t : BitVec w) :
    feed p s (top t) = residue p ↔ t = ~~~s := by
  rw [feed_top_diff, residue, feed_zero_top_inj hp]
  refine ⟨fun h => ?_, fun h => ?_⟩
  · rw [← BitVec.zero_xor (x := t), ← BitVec.xor_self (x := s), BitVec.xor_assoc, h,
      BitVec.xor_allOnes]
  · rw [h]
    apply BitVec.eq_of_getLsbD_eq
    intro i hi
    simp [hi]

end Crc
end Xc7Tools
