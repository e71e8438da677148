/-
# jtag_clkctl: which writes are requests

The header says that only a keyed write is a request, since "the TAP passes
Update-DR for reasons of its own". What UPDATE tests for the key is the shift
register, and CAPTURE fills that with the status: nets of the design. So the
key can come from the design, with no bit shifted in (`captured_key`).

`Scan` keeps what the register was last loaded with and the bits shifted in
since. The register is always the one shifted into the other (`sr_scan`), and
`only_keyed_iff` says in which runs only keyed writes are requests: those in
which no UPDATE that comes too early finds the key.

Key definitions: `Scan`, `OnlyKeyed`, `NoStrayKey`.
Key theorems: `sr_scan`, `update_changes`, `only_keyed_iff`.
-/
import Xc7Tools.Clkctl.Gateware

namespace Xc7Tools
namespace Clkctl

/-! ### What the shift register holds -/

/-- What the last CAPTURE loaded, and the bits shifted in since, oldest
first. -/
structure Scan where
  loaded : BitVec 32
  bits : List Bool

def Scan.next (c : Scan) : Event → Scan
  | .drck true true _ _ status => ⟨status, []⟩
  | .drck true false true tdi _ => { c with bits := c.bits ++ [tdi] }
  | _ => c

/-- The scan after the events `es` from power-up. -/
def scanOf (es : List Event) : Scan := es.foldl Scan.next ⟨0, []⟩

/-- One event keeps the register and the scan in step. -/
theorem sr_step {s : State} {c : Scan} (h : s.sr = shiftAll c.loaded c.bits) (e : Event) :
    (s.step e).sr = shiftAll (c.next e).loaded (c.next e).bits := by
  cases e with
  | drck sel cap shift tdi status =>
    cases sel <;> cases cap <;> cases shift <;>
      simp [State.step, Scan.next, h, shiftAll_concat]
  | update sel =>
    simp only [State.step]
    split_ifs <;> exact h
  | clkFree => exact h

/-- The register is the scan's bits on top of what they left of its load. -/
theorem sr_scan (es : List Event) :
    (powerUp.run es).sr = shiftAll (scanOf es).loaded (scanOf es).bits := by
  unfold State.run scanOf
  apply List.foldl_rel (r := fun (s : State) (c : Scan) => s.sr = shiftAll c.loaded c.bits)
  · rfl
  · exact fun e _ s c h => sr_step h e

/-! ### Requests -/

/-- The word carries the key. -/
def KeyIn (x : BitVec 32) : Prop := x.extractLsb' 24 7 = 0x2A#7

/-- The UPDATE changes `ctrl` or `req_t`. -/
def Changes (s : State) (sel : Bool) : Prop :=
  (s.step (.update sel)).gate.ctrl ≠ s.gate.ctrl ∨ (s.step (.update sel)).gate.reqT ≠ s.gate.reqT

/-- An UPDATE changes something exactly when it is on the chain and the
register carries the key: a request always toggles `req_t`. -/
theorem update_changes (s : State) (sel : Bool) : Changes s sel ↔ sel = true ∧ KeyIn s.sr := by
  by_cases hk : s.keyed = true
  · have hin : KeyIn s.sr := by simpa [State.keyed, KeyIn] using hk
    cases sel <;> simp [Changes, State.step, Gate.request, hk, hin]
  · have hout : ¬ KeyIn s.sr := by simpa [State.keyed, KeyIn] using hk
    simp [Changes, State.step, hk, hout]

/-- In the run from power-up, every UPDATE that changes `ctrl` or `req_t`
follows 32 or more bits shifted in since the last CAPTURE, the last 32 of
which carry the key. -/
def OnlyKeyed (es : List Event) : Prop :=
  ∀ pre sel post, es = pre ++ .update sel :: post → Changes (powerUp.run pre) sel →
    32 ≤ (scanOf pre).bits.length ∧
      KeyIn (shiftAll 0 ((scanOf pre).bits.drop ((scanOf pre).bits.length - 32)))

/-- No UPDATE with fewer than 32 bits shifted in finds the key in these bits
and what they left of the status (or of the power-up zeros). -/
def NoStrayKey (es : List Event) : Prop :=
  ∀ pre post, es = pre ++ .update true :: post → (scanOf pre).bits.length < 32 →
    ¬ KeyIn (shiftAll (scanOf pre).loaded (scanOf pre).bits)

/-- **Only a keyed write is a request** in exactly the runs in which no stray
key is found. -/
theorem only_keyed_iff (es : List Event) : OnlyKeyed es ↔ NoStrayKey es := by
  constructor
  · intro h pre post hes hlt hkey
    have hchange : Changes (powerUp.run pre) true :=
      (update_changes _ _).mpr ⟨rfl, by rw [sr_scan]; exact hkey⟩
    have := (h pre true post hes hchange).1
    omega
  · intro h pre sel post hes hchange
    obtain ⟨rfl, hkey⟩ := (update_changes _ _).mp hchange
    rw [sr_scan] at hkey
    have hlen : 32 ≤ (scanOf pre).bits.length := by
      by_contra hlt
      exact h pre post hes (by omega) hkey
    exact ⟨hlen, by rw [shiftAll_drop _ _ hlen] at hkey; exact hkey⟩

/-- A status with the key in its bits 30:24, captured and updated with no
shift between, is a request: it releases the clock. -/
theorem captured_key : ¬ OnlyKeyed [.capture 0x2A000001, .update true] := by
  intro h
  have := (h [.capture 0x2A000001] true [] rfl (Or.inr (by decide))).1
  exact absurd this (by decide)

end Clkctl
end Xc7Tools
