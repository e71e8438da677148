/-
# A toggle there and back

Two clock domains hand something over by toggles: the sender flips its own,
two flops carry it across, the receiver flips an answer when it is through,
and two flops carry that back. The sender flips again only when the answer
agrees with its toggle. Round this ring of six there is then never more than
one place where a value differs from the one before it, and that place says
how far the exchange has come.

Where nothing comes back the sender may still flip a toggle whose last flip has
been taken: `Toggle.Crossing` is the way there alone.

Key definitions: `Toggle.Ring`, `Toggle.Crossing`, `Toggle.away`.
Key theorems: `Toggle.Ring.flip`, `Toggle.Ring.answer`, `Toggle.Ring.settled`,
`Toggle.Ring.arrived`, `Toggle.Ring.unanswered`, `Toggle.Crossing.across`.
-/
import Mathlib.Data.Bool.Basic
import Mathlib.Data.Nat.Notation
import Mathlib.Tactic.Common

namespace Xc7Tools
namespace Toggle

/-- The sender's toggle, its two flops, the answer and its two flops: at most one place differs
from the one before. -/
def Ring (a b c d e f : Bool) : Prop :=
  (a != b).toNat + (b != c).toNat + (c != d).toNat + (d != e).toNat + (e != f).toNat ≤ 1

instance (a b c d e f : Bool) : Decidable (Ring a b c d e f) := inferInstanceAs (Decidable (_ ≤ _))

variable {a b c d e f : Bool}

/-- The receiver's clock: its flops move on, and it may answer what it sees. -/
theorem Ring.answer (h : Ring a b c d e f) (d' : Bool) (hd : d' = d ∨ d' = c) :
    Ring a a b d' e f := by
  revert a b c d e f d'
  decide

/-- The sender's clock, without a flip. -/
theorem Ring.back (h : Ring a b c d e f) : Ring a b c d d e := by
  revert a b c d e f
  decide

/-- The sender's clock: it flips when the answer agrees. -/
theorem Ring.flip (h : Ring a b c d e f) (hf : a = f) : Ring (!a) b c d d e := by
  revert a b c d e f
  decide

/-- The answer agrees: the whole ring does. -/
theorem Ring.settled (h : Ring a b c d e f) (hf : a = f) :
    b = a ∧ c = a ∧ d = a ∧ e = a := by
  revert a b c d e f
  decide

/-- The flip has arrived and is not answered: it is all across, and nothing has come back. -/
theorem Ring.arrived (h : Ring a b c d e f) (hd : c ≠ d) :
    b = a ∧ c = a ∧ d = (!a) ∧ e = (!a) ∧ f = (!a) := by
  revert a b c d e f
  decide

/-- The flip is not answered: nothing has come back. -/
theorem Ring.unanswered (h : Ring a b c d e f) (hd : a ≠ d) : e = d ∧ f = d := by
  revert a b c d e f
  decide

/-- The last flip is answered: the way there is at rest. -/
theorem Ring.agreed (h : Ring a b c d e f) (hd : a = d) : b = a ∧ c = a := by
  revert a b c d e f
  decide

/-! ### One way -/

/-- The sender's toggle, its two flops and the toggle taken last; `w` says that a flip is on its
way. -/
def Crossing (a b c d w : Bool) : Prop :=
  (a != b).toNat + (b != c).toNat + (c != d).toNat = w.toNat

instance (a b c d w : Bool) : Decidable (Crossing a b c d w) :=
  inferInstanceAs (Decidable (_ = _))

variable {w : Bool}

/-- Nothing is on its way. -/
theorem Crossing.settled (h : Crossing a b c d false) : a = d ∧ b = d ∧ c = d := by
  revert a b c d
  decide

theorem Crossing.of_eq (ha : a = d) (hb : b = d) (hc : c = d) : Crossing a b c d false := by
  subst ha hb hc
  cases c <;> rfl

theorem Crossing.eq_false (h : Crossing a b c d w) (hab : a = b) (hbc : b = c) (hcd : c = d) :
    w = false := by
  revert a b c d w
  decide

/-- The receiver's clock, where it has nothing to take. -/
theorem Crossing.move (h : Crossing a b c d w) (hcd : c = d) : Crossing a a b d w := by
  revert a b c d w
  decide

/-- The receiver's clock, where it has: that is all there is. -/
theorem Crossing.across (h : Crossing a b c d w) (hcd : c ≠ d) :
    w = true ∧ a = (!d) ∧ b = (!d) ∧ c = !d := by
  revert a b c d w
  decide

/-- The sender's clock: it flips. -/
theorem Crossing.flip (h : Crossing a b c d false) : Crossing (!a) b c d true := by
  revert a b c d
  decide

/-- The edges a flip has still to go. -/
def away (a b c : Bool) : ℕ := (b != a).toNat + (c != a).toNat

/-- The receiver's clock: a flip on its way comes nearer. -/
theorem Crossing.nearer (h : Crossing a b c d true) (hcd : c = d) : away a a b + 1 = away a b c := by
  revert a b c d
  decide

end Toggle
end Xc7Tools
