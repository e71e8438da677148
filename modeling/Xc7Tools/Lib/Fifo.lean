/-
# A queue in a ring whose pointers have one bit more than a slot

The memory has `2 ^ w` slots, the pointers `w + 1` bits: equal pointers are an
empty queue, pointers that differ in the top bit only a full one. As long as
no word is written to a full queue and none taken from an empty one, what is
between the pointers is a list, a write puts a word at its end
(`contents_push`) and a read takes its head (`contents_pop`), however often
the pointers wrap.

Key definitions: `Fifo.contents`, `Fifo.isEmpty`, `Fifo.isFull`.
Key theorems: `Fifo.contents_push`, `Fifo.contents_pop`, `Fifo.isFull_iff`.
-/
import Xc7Tools.Lib.Ring

namespace Xc7Tools
namespace Fifo

variable {w : ℕ} {α : Type*}

/-- The slot of a pointer. -/
def slot (p : BitVec (w + 1)) : BitVec w := p.setWidth w

/-- The number of words between the pointers. -/
def count (wp rp : BitVec (w + 1)) : ℕ := (wp - rp).toNat

def isEmpty (wp rp : BitVec (w + 1)) : Bool := wp == rp

def isFull (wp rp : BitVec (w + 1)) : Bool := slot wp == slot rp && wp.getLsbD w != rp.getLsbD w

/-- The words between the pointers, the oldest first. -/
def contents (mem : BitVec w → α) (wp rp : BitVec (w + 1)) : List α :=
  (List.range (count wp rp)).map fun k => mem (slot (rp + BitVec.ofNat _ k))

@[simp] theorem length_contents (mem : BitVec w → α) (wp rp : BitVec (w + 1)) :
    (contents mem wp rp).length = count wp rp := by
  simp [contents]

/-! ### The pointers -/

variable {wp rp : BitVec (w + 1)}

@[simp] theorem count_self : count rp rp = 0 := by simp [count]

@[simp] theorem contents_self (mem : BitVec w → α) : contents mem rp rp = [] := by
  simp [contents]

theorem eq_add_count (wp rp : BitVec (w + 1)) : wp = rp + BitVec.ofNat _ (count wp rp) := by
  rw [count, BitVec.ofNat_toNat, BitVec.setWidth_eq, BitVec.add_comm, BitVec.sub_add_cancel]

theorem isEmpty_iff : isEmpty wp rp = true ↔ count wp rp = 0 := by
  constructor
  · intro h
    have h : wp = rp := by simpa [isEmpty] using h
    rw [h, count_self]
  · intro h
    have := eq_add_count wp rp
    rw [h] at this
    simpa [isEmpty] using this

/-- A full turn keeps the slot and changes the top bit. -/
theorem add_turn (p : BitVec (w + 1)) : slot (p + BitVec.ofNat _ (2 ^ w)) = slot p ∧
    (p + BitVec.ofNat _ (2 ^ w)).getLsbD w ≠ p.getLsbD w := by
  have hp := p.isLt
  have hpow : 2 ^ (w + 1) = 2 * 2 ^ w := by rw [Nat.pow_succ, Nat.mul_comm]
  have hpos := Nat.two_pow_pos w
  have htop (q : BitVec (w + 1)) : q.getLsbD w = decide (2 ^ w ≤ q.toNat) := by
    simpa [BitVec.msb_eq_getLsbD_last] using BitVec.msb_eq_decide q
  have hsum : (p + BitVec.ofNat _ (2 ^ w)).toNat = (p.toNat + 2 ^ w) % 2 ^ (w + 1) := by
    rw [BitVec.toNat_add, BitVec.toNat_ofNat, Nat.add_mod_mod]
  constructor
  · apply BitVec.eq_of_toNat_eq
    rw [slot, slot, BitVec.toNat_setWidth, BitVec.toNat_setWidth, hsum, hpow,
      Nat.mod_mul_left_mod, Nat.add_mod_right]
  · rw [htop, htop, hsum, Ne, decide_eq_decide]
    rcases Nat.lt_or_ge p.toNat (2 ^ w) with hlow | hhigh
    · rw [Nat.mod_eq_of_lt (by omega)]
      omega
    · rw [Nat.mod_eq_sub_mod (by omega), Nat.mod_eq_of_lt (by omega)]
      omega

/-- As long as the queue has not been overrun it is full when it has a word in
every slot. -/
theorem isFull_iff (hc : count wp rp ≤ 2 ^ w) : isFull wp rp = true ↔ count wp rp = 2 ^ w := by
  have hwp := eq_add_count wp rp
  constructor
  · intro h
    obtain ⟨hslot, htop⟩ : slot wp = slot rp ∧ wp.getLsbD w ≠ rp.getLsbD w := by
      simpa [isFull] using h
    by_contra hne
    have hlt : count wp rp < 2 ^ w := by omega
    -- the same slot, less than a turn apart: the same pointer
    have hmod : (rp.toNat + count wp rp) % 2 ^ w = rp.toNat % 2 ^ w := by
      have h := congrArg BitVec.toNat hslot
      rw [hwp] at h
      simpa [slot, Nat.pow_succ, Nat.mod_mul_left_mod] using h
    have hzero : count wp rp % 2 ^ w = 0 := by
      have h : count wp rp ≡ 0 [MOD 2 ^ w] := by
        apply Nat.ModEq.add_left_cancel (Nat.ModEq.refl rp.toNat)
        exact hmod
      exact h
    rw [Nat.mod_eq_of_lt hlt] at hzero
    rw [hzero] at hwp
    exact htop (by rw [hwp]; simp)
  · intro h
    rw [h] at hwp
    obtain ⟨hslot, htop⟩ := add_turn rp
    rw [← hwp] at hslot htop
    rw [isFull, Bool.and_eq_true, beq_iff_eq, bne_iff_ne]
    exact ⟨hslot, htop⟩

theorem count_push (hc : count wp rp < 2 ^ w) : count (wp + 1) rp = count wp rp + 1 := by
  have hpow : 2 ^ (w + 1) = 2 * 2 ^ w := by rw [Nat.pow_succ, Nat.mul_comm]
  have hsub : wp + 1 - rp = wp - rp + 1 := by
    rw [BitVec.sub_eq_add_neg, BitVec.sub_eq_add_neg, BitVec.add_assoc, BitVec.add_comm 1,
      ← BitVec.add_assoc]
  unfold count at hc ⊢
  have hone : (1 : BitVec (w + 1)).toNat = 1 := BitVec.toNat_one (Nat.succ_pos w)
  rw [hsub, BitVec.toNat_add, hone, Nat.mod_eq_of_lt (by omega)]

theorem count_pop (hc : 0 < count wp rp) : count wp (rp + 1) + 1 = count wp rp := by
  have hsub : wp - (rp + 1) = wp - rp - 1 := by
    rw [BitVec.sub_eq_add_neg, BitVec.sub_eq_add_neg, BitVec.sub_eq_add_neg, BitVec.neg_add,
      BitVec.sub_eq_add_neg, BitVec.add_assoc]
  have hlt := (wp - rp).isLt
  unfold count at hc ⊢
  have hone : (1 : BitVec (w + 1)).toNat = 1 := BitVec.toNat_one (Nat.succ_pos w)
  rw [hsub, BitVec.toNat_sub, hone]
  rw [Nat.mod_eq_sub_mod (by omega), Nat.mod_eq_of_lt (by omega)]
  omega

/-! ### The words -/

/-- A word goes to the end of the queue. -/
theorem contents_push (mem : BitVec w → α) (x : α) (hc : count wp rp < 2 ^ w) :
    contents (Function.update mem (slot wp) x) (wp + 1) rp = contents mem wp rp ++ [x] := by
  unfold contents
  rw [count_push hc, List.range_succ, List.map_append, List.map_singleton, ← eq_add_count,
    Function.update_self]
  congr 1
  apply List.map_congr_left
  intro k hk
  rw [List.mem_range] at hk
  -- another slot: less than a turn before the end
  apply Function.update_of_ne
  have hne := Ring.slot_ne (slot rp) hk (by omega)
  have hadd (n : ℕ) : slot (rp + BitVec.ofNat _ n) = slot rp + BitVec.ofNat w n := by
    apply BitVec.eq_of_toNat_eq
    simp [slot, Nat.pow_succ]
  rw [hadd]
  conv_rhs => rw [eq_add_count wp rp, hadd]
  exact hne

/-- The head of the queue is the word at the read pointer. -/
theorem contents_pop (mem : BitVec w → α) (hc : 0 < count wp rp) :
    contents mem wp rp = mem (slot rp) :: contents mem wp (rp + 1) := by
  unfold contents
  rw [← count_pop hc, List.range_succ_eq_map, List.map_cons, List.map_map]
  congr 1
  · simp
  · apply List.map_congr_left
    intro k _
    have hnext : rp + BitVec.ofNat _ (k + 1) = rp + 1 + BitVec.ofNat _ k := by
      rw [BitVec.ofNat_add, BitVec.add_assoc]
      exact congrArg (rp + ·) (BitVec.add_comm _ _)
    rw [Function.comp_apply, Nat.succ_eq_add_one, hnext]

end Fifo
end Xc7Tools
