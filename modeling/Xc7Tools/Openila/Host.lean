/-
# openila: the host driver

The class `Openila` of `scripts/openila.py`. A Python int is a natural
number here: every value the class handles is one, and its masks and shifts
are `&&&`, `<<<` and `>>>`. `read` takes the integer `user_dr` returns for
the scan of the data register as its argument.

Key definitions: `Host.ctlWord`, `Host.decodeStatus`, `Host.read`.
Key theorems: `Host.decodeStatus_status`.
-/
import Mathlib.Data.Nat.Size
import Xc7Tools.Openila.Gateware

namespace Xc7Tools
namespace Openila

/-- An `Openila` object: the WIDTH and DEPTH it was made for. -/
structure Host where
  W : ℕ
  D : ℕ

/-- The dictionary `decode_status` returns. -/
structure Status where
  waddr : ℕ
  armed : ℕ
  trig : ℕ
  done : ℕ
  keyOk : Bool
  deriving DecidableEq

namespace Host

/-- `max(1, (depth - 1).bit_length())`. -/
def AW (o : Host) : ℕ := max 1 (Nat.size (o.D - 1))

/-- `AW + 11`. -/
def SW (o : Host) : ℕ := o.AW + 11

/-- `ctl_word`. -/
def ctlWord (o : Host) (mask value post arm : ℕ) : ℕ :=
  (mask &&& ((1 <<< o.W) - 1)) ||| ((value &&& ((1 <<< o.W) - 1)) <<< o.W) |||
    ((post &&& ((1 <<< o.AW) - 1)) <<< (2 * o.W)) ||| (arm <<< (2 * o.W + o.AW)) |||
    (0x5A <<< (2 * o.W + o.AW + 1))

def decodeStatus (o : Host) (s : ℕ) : Status :=
  let s := s &&& ((1 <<< o.SW) - 1)
  { waddr := s &&& ((1 <<< o.AW) - 1)
    armed := (s >>> o.AW) &&& 1
    trig := (s >>> (o.AW + 1)) &&& 1
    done := (s >>> (o.AW + 2)) &&& 1
    keyOk := s >>> (o.AW + 3) == 0x1A }

/-- `words` of `read`: word `i` is bits `W*i .. W*i+W-1` of the scan. -/
def words (o : Host) (v : ℕ) : List ℕ :=
  (List.range (o.D + 1)).map fun i => (v >>> (o.W * i)) &&& ((1 <<< o.W) - 1)

/-- `read`, after `user_dr` returned `v`. -/
def read (o : Host) (raw : Bool) (v : ℕ) : Status × List ℕ :=
  let st := o.decodeStatus ((o.words v).headD 0)
  let samples := (o.words v).tail
  (st, if raw then samples else samples.drop st.waddr ++ samples.take st.waddr)

/-! ### What the gateware sends -/

/-- The host finds the gateware's address width. -/
theorem AW_two_pow {AW : ℕ} (h : 1 ≤ AW) (W : ℕ) : (Host.mk W (2 ^ AW)).AW = AW := by
  obtain ⟨n, rfl⟩ : ∃ n, AW = n + 1 := ⟨AW - 1, by omega⟩
  have hpos : 0 < 2 ^ n := Nat.two_pow_pos n
  have hle : Nat.size (2 ^ (n + 1) - 1) ≤ n + 1 := Nat.size_le.mpr (by omega)
  have hge : n < Nat.size (2 ^ (n + 1) - 1) := Nat.lt_size.mpr (by rw [pow_succ]; omega)
  simp only [Host.AW]
  omega

/-- The status word as a number: the flags above `waddr`. -/
theorem status_toNat {W AW : ℕ} (s : Cap W AW) : s.status.toNat =
    2 ^ AW * (s.armed.toNat + 2 * (s.trig.toNat + 2 * (s.done.toNat + 2 * 0x1A))) +
      s.waddr.toNat := by
  rw [Cap.status, BitVec.toNat_cast, BitVec.toNat_append,
    ← Nat.shiftLeft_add_eq_or_of_lt s.waddr.isLt, Nat.shiftLeft_eq, Nat.mul_comm]
  cases s.armed <;> cases s.trig <;> cases s.done <;> rfl

/-- A host made for the gateware's DEPTH reads its status word back. -/
theorem decodeStatus_status {W AW : ℕ} (h : 1 ≤ AW) (s : Cap W AW) :
    (Host.mk W (2 ^ AW)).decodeStatus s.status.toNat =
      { waddr := s.waddr.toNat, armed := s.armed.toNat, trig := s.trig.toNat,
        done := s.done.toNat, keyOk := true } := by
  have hlt : s.status.toNat % 2 ^ (AW + 11) = s.status.toNat :=
    Nat.mod_eq_of_lt s.status.isLt
  set f := s.armed.toNat + 2 * (s.trig.toNat + 2 * (s.done.toNat + 2 * 0x1A)) with hf
  have hlow : s.status.toNat % 2 ^ AW = s.waddr.toNat := by
    rw [status_toNat, Nat.mul_add_mod, Nat.mod_eq_of_lt s.waddr.isLt]
  have hhigh : ∀ k, s.status.toNat / 2 ^ (AW + k) = f / 2 ^ k := fun k => by
    rw [pow_add, ← Nat.div_div_eq_div_mul, status_toNat, ← hf,
      Nat.mul_add_div (Nat.two_pow_pos AW), Nat.div_eq_of_lt s.waddr.isLt, Nat.add_zero]
  have h0 := hhigh 0
  rw [Nat.add_zero] at h0
  simp only [decodeStatus, SW, AW_two_pow h, Nat.one_shiftLeft, Nat.and_two_pow_sub_one_eq_mod,
    Nat.shiftRight_eq_div_pow, Nat.and_one_is_mod, hlt, hlow, hhigh, h0]
  rw [hf]
  cases s.armed <;> cases s.trig <;> cases s.done <;> rfl

end Host

end Openila
end Xc7Tools
