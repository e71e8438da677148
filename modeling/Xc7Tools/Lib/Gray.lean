/-
# Gray code

The reflected Gray code of a counter. The codes of two counts in a row differ
in one bit, so a sample whose bits are taken some before and some after the
step is one of the two codes. The code of the count half a turn ahead is the
same but for its two top bits, which is how a FIFO tells full from empty.

Key definitions: `gray`, `OneApart`, `mix`, `flipTop`.
Key theorems: `gray_injective`, `oneApart_gray_succ`, `mix_eq_or_eq`, `flipTop_gray`.
-/
import Mathlib.Data.BitVec

namespace Xc7Tools

variable {n : ℕ}

/-- `x ^ (x >> 1)` -/
def gray (x : BitVec n) : BitVec n := x ^^^ (x >>> 1)

theorem getLsbD_gray (x : BitVec n) (i : ℕ) :
    (gray x).getLsbD i = (x.getLsbD i ^^ x.getLsbD (i + 1)) := by
  rw [gray, BitVec.getLsbD_xor, BitVec.getLsbD_ushiftRight, Nat.add_comm 1 i]

/-- The counter is read off its code from the top. -/
theorem gray_injective : Function.Injective (gray : BitVec n → BitVec n) := by
  intro x y h
  have htop : ∀ k i, n ≤ i + k → x.getLsbD i = y.getLsbD i := by
    intro k
    induction k with
    | zero =>
      intro i hi
      rw [BitVec.getLsbD_of_ge x i hi, BitVec.getLsbD_of_ge y i hi]
    | succ k ih =>
      intro i hi
      have hbit := congrArg (BitVec.getLsbD · i) h
      simp only [getLsbD_gray, ih (i + 1) (by omega)] at hbit
      simpa using hbit
  exact BitVec.eq_of_getLsbD_eq fun i _ => htop n i (by omega)

/-! ### One step -/

/-- The bits that change when `x` is counted up. -/
def flips (x : BitVec n) (i : ℕ) : Prop := i < n ∧ ∀ j < i, x.getLsbD j = true

theorem getLsbD_succ (x : BitVec n) (i : ℕ) :
    (x + 1).getLsbD i ≠ x.getLsbD i ↔ flips x i := by
  by_cases hi : i < n
  · have hcarry : (x + 1).getLsbD i = (x.getLsbD i ^^ decide (∀ j < i, x.getLsbD j = true)) := by
      cases i with
      | zero =>
        rw [show (1 : BitVec n) = 1#n from rfl, BitVec.getLsbD_add hi]
        simp [hi]
      | succ i =>
        rw [show (1 : BitVec n) = 1#n from rfl, BitVec.getLsbD_add hi,
          BitVec.carry_succ_one i x (by omega)]
        have hlt : decide (∀ j ≤ i, x.getLsbD j = true) = decide (∀ j < i + 1, x.getLsbD j = true) :=
          decide_eq_decide.mpr (forall_congr' fun j => imp_congr_left Nat.lt_succ_iff.symm)
        rw [hlt]
        simp
    rw [hcarry, flips]
    cases x.getLsbD i <;> simp [hi]
  · rw [BitVec.getLsbD_of_ge _ _ (not_lt.mp hi), BitVec.getLsbD_of_ge _ _ (not_lt.mp hi)]
    simp [flips, hi]

/-- Two words that differ in at most one bit. -/
def OneApart (a b : BitVec n) : Prop :=
  ∀ i j, a.getLsbD i ≠ b.getLsbD i → a.getLsbD j ≠ b.getLsbD j → i = j

theorem OneApart.refl (a : BitVec n) : OneApart a a := fun _ _ h => absurd rfl h

/-- **Counting up changes one bit of the code.** -/
theorem oneApart_gray_succ (x : BitVec n) : OneApart (gray (x + 1)) (gray x) := by
  -- a bit of the code changes where the changes of the count end
  have hend : ∀ i, (gray (x + 1)).getLsbD i ≠ (gray x).getLsbD i →
      flips x i ∧ ¬ flips x (i + 1) := by
    intro i hi
    rw [getLsbD_gray, getLsbD_gray] at hi
    have hmono : flips x (i + 1) → flips x i := fun h =>
      ⟨by have := h.1; omega, fun j hj => h.2 j (by omega)⟩
    have h0 := getLsbD_succ x i
    have h1 := getLsbD_succ x (i + 1)
    by_cases hf : flips x (i + 1)
    · have h0' := h0.mpr (hmono hf)
      have h1' := h1.mpr hf
      revert hi h0' h1'
      cases (x + 1).getLsbD i <;> cases x.getLsbD i <;> cases (x + 1).getLsbD (i + 1) <;>
        cases x.getLsbD (i + 1) <;> simp
    · refine ⟨h0.mp fun he => hi ?_, hf⟩
      rw [he, not_ne_iff.mp (mt h1.mp hf)]
  intro i j hi hj
  obtain ⟨hfi, hni⟩ := hend i hi
  obtain ⟨hfj, hnj⟩ := hend j hj
  rcases Nat.lt_trichotomy i j with hij | hij | hij
  · exact absurd ⟨by have := hfj.1; omega, fun k hk => hfj.2 k (by omega)⟩ hni
  · exact hij
  · exact absurd ⟨by have := hfi.1; omega, fun k hk => hfi.2 k (by omega)⟩ hnj

/-- A sample taken while `b` becomes `a`: the bits of `m` are sampled after it. -/
def mix (m a b : BitVec n) : BitVec n := (a &&& m) ||| (b &&& ~~~m)

theorem getLsbD_mix (m a b : BitVec n) {i : ℕ} (hi : i < n) :
    (mix m a b).getLsbD i = if m.getLsbD i then a.getLsbD i else b.getLsbD i := by
  simp only [mix, BitVec.getLsbD_or, BitVec.getLsbD_and, BitVec.getLsbD_not, decide_eq_true hi]
  cases m.getLsbD i <;> simp

/-- A sample of a word that changes in one bit is the old word or the new one. -/
theorem mix_eq_or_eq {a b : BitVec n} (h : OneApart a b) (m : BitVec n) :
    mix m a b = a ∨ mix m a b = b := by
  by_cases hex : ∃ i, a.getLsbD i ≠ b.getLsbD i
  · obtain ⟨i, hi⟩ := hex
    have hother : ∀ j, j ≠ i → a.getLsbD j = b.getLsbD j := fun j hj => by
      by_contra hne
      exact hj (h j i hne hi)
    cases hm : m.getLsbD i with
    | true =>
      refine Or.inl (BitVec.eq_of_getLsbD_eq fun j hj => ?_)
      rw [getLsbD_mix m a b hj]
      by_cases hji : j = i
      · rw [hji, hm, if_pos rfl]
      · rw [hother j hji, ite_self]
    | false =>
      refine Or.inr (BitVec.eq_of_getLsbD_eq fun j hj => ?_)
      rw [getLsbD_mix m a b hj]
      by_cases hji : j = i
      · rw [hji, hm, if_neg Bool.false_ne_true]
      · rw [hother j hji, ite_self]
  · refine Or.inl (BitVec.eq_of_getLsbD_eq fun j hj => ?_)
    have hj' : a.getLsbD j = b.getLsbD j := by
      by_contra hne
      exact hex ⟨j, hne⟩
    rw [getLsbD_mix m a b hj, hj', ite_self]

/-! ### Counts -/

/-- The code of a count. -/
def grayOf (n k : ℕ) : BitVec n := gray (BitVec.ofNat n k)

theorem grayOf_eq_iff {j k : ℕ} : grayOf n j = grayOf n k ↔ j % 2 ^ n = k % 2 ^ n := by
  unfold grayOf
  rw [gray_injective.eq_iff]
  constructor
  · intro h
    simpa using congrArg BitVec.toNat h
  · intro h
    exact BitVec.eq_of_toNat_eq (by simpa using h)

theorem oneApart_grayOf {j k : ℕ} (hjk : j ≤ k) (hk : k ≤ j + 1) :
    OneApart (grayOf n k) (grayOf n j) := by
  rcases Nat.lt_or_eq_of_le hjk with hlt | rfl
  · obtain rfl : k = j + 1 := by omega
    have hsucc : BitVec.ofNat n (j + 1) = BitVec.ofNat n j + 1 := by
      rw [BitVec.ofNat_add]
      rfl
    unfold grayOf
    rw [hsucc]
    exact oneApart_gray_succ _
  · exact OneApart.refl _

/-- A sample of a counter's code that may have been stepping is the code of a count it had. -/
theorem exists_mix_eq {j k : ℕ} (hjk : j ≤ k) (hk : k ≤ j + 1) (m : BitVec n) :
    ∃ i, mix m (grayOf n k) (grayOf n j) = grayOf n i ∧ j ≤ i ∧ i ≤ k := by
  rcases mix_eq_or_eq (oneApart_grayOf hjk hk) m with h | h
  · exact ⟨k, h, hjk, le_rfl⟩
  · exact ⟨j, h, le_rfl, hjk⟩

/-! ### Half a turn -/

/-- `{~x[w:w-1], x[w-2:0]}` of a word of `w + 1` bits. -/
def flipTop {w : ℕ} (x : BitVec (w + 1)) : BitVec (w + 1) :=
  (~~~x.extractLsb' (w - 1) 2 ++ x.extractLsb' 0 (w - 1)).setWidth (w + 1)

theorem getLsbD_flipTop {w : ℕ} (hw : 1 ≤ w) (x : BitVec (w + 1)) {i : ℕ} (hi : i < w + 1) :
    (flipTop x).getLsbD i = (x.getLsbD i ^^ decide (w - 1 ≤ i)) := by
  rw [flipTop, BitVec.getLsbD_setWidth, BitVec.getLsbD_append, decide_eq_true hi, Bool.true_and]
  by_cases hlow : i < w - 1
  · rw [if_pos hlow, BitVec.getLsbD_extractLsb', decide_eq_true hlow, Nat.zero_add]
    simp [show ¬ w - 1 ≤ i by omega]
  · rw [if_neg hlow, BitVec.getLsbD_not, BitVec.getLsbD_extractLsb']
    simp [show i - (w - 1) < 2 by omega, show w - 1 + (i - (w - 1)) = i by omega,
      show w - 1 ≤ i by omega]

/-- The code of the count half a turn ahead. -/
theorem flipTop_gray {w : ℕ} (hw : 1 ≤ w) (k : ℕ) :
    flipTop (grayOf (w + 1) k) = grayOf (w + 1) (k + 2 ^ w) := by
  have hbit : ∀ i < w + 1, (BitVec.ofNat (w + 1) (k + 2 ^ w)).getLsbD i =
      ((BitVec.ofNat (w + 1) k).getLsbD i ^^ decide (i = w)) := by
    intro i hi
    rw [BitVec.getLsbD_ofNat, BitVec.getLsbD_ofNat, decide_eq_true hi, Bool.true_and,
      Bool.true_and, Nat.add_comm]
    by_cases hiw : i = w
    · rw [hiw, Nat.testBit_two_pow_add_eq]
      simp
    · rw [Nat.testBit_two_pow_add_gt (by omega)]
      simp [hiw]
  refine BitVec.eq_of_getLsbD_eq fun i hi => ?_
  rw [getLsbD_flipTop hw _ hi, grayOf, grayOf, getLsbD_gray, getLsbD_gray, hbit i hi]
  by_cases htop : i = w
  · subst htop
    rw [BitVec.getLsbD_of_ge _ (i + 1) (by omega), BitVec.getLsbD_of_ge _ (i + 1) (by omega)]
    simp
  · rw [hbit (i + 1) (by omega)]
    by_cases hnext : i + 1 = w
    · simp [htop, show w - 1 ≤ i by omega, hnext]
    · simp [htop, show ¬ w - 1 ≤ i by omega, hnext]

end Xc7Tools
