/-
# Shift registers with feedback, over any sum

A shift register with linear feedback, in the two usual configurations, over
a type with a binary sum. Run over bits it is the circuit; run over rows of
coefficients it computes, once for all inputs, which input bits each cell is
the sum of. What makes the second good for the first is `step_map`: a map
that respects the sums carries a step of the one register to a step of the
other.

`parity` is the sum of the bits of a word, and `ofBits` the word of some
bits. Over bits the register is an operation on words: a Fibonacci register
shifts in the parity of the tapped bits, and the Galois register is that of
`Crc`.

Key definitions: `Lfsr.Reg`, `Lfsr.step`, `Lfsr.run`, `Lfsr.parity`,
`Lfsr.ofBits`, `Lfsr.Words.next`.
Key theorems: `Lfsr.run_map`, `Lfsr.parity_xor`, `Lfsr.parity_twoPow`, `Lfsr.Words.Holds.feed`,
`Lfsr.feed_galois`.
-/
import Xc7Tools.Lib.Crc

namespace Xc7Tools
namespace Lfsr

/-- Where the feedback is added: before the last cell's value comes in, or at the cells. -/
inductive Config where
  | fibonacci
  | galois
  deriving DecidableEq

/-- The cells, and the values shifted out, the last one first. -/
structure Reg (α : Type*) where
  cells : ℕ → α
  out : ℕ → α

variable {α β : Type*} (op : α → α → α) (w poly : ℕ) (ff : Bool)

/-- Each cell takes the value of the one before it, and the first takes `v`. -/
def shift (v : α) (c : ℕ → α) : ℕ → α
  | 0 => v
  | j + 1 => c j

/-- The terms of the polynomial but its first and its last. -/
def taps : List ℕ := (List.range' 1 (w - 1)).filter poly.testBit

/-- An input into a register of `w` cells. With `ff` only the input is shifted in, not what is fed
back. -/
def step : Config → Reg α → α → Reg α
  | .fibonacci, r, x =>
    let v := (taps w poly).foldl (fun v j => op (r.cells (j - 1)) v) (op (r.cells (w - 1)) x)
    ⟨shift (if ff then x else v) r.cells, shift v r.out⟩
  | .galois, r, x =>
    let v := op (r.cells (w - 1)) x
    let fb := if ff then x else v
    ⟨fun j => if j ∈ taps w poly then op (shift fb r.cells j) fb else shift fb r.cells j,
      shift v r.out⟩

def run (cfg : Config) (r : Reg α) (xs : List α) : Reg α := xs.foldl (step op w poly ff cfg) r

/-! ### Maps that respect the sums -/

def Reg.map (φ : α → β) (r : Reg α) : Reg β := ⟨fun j => φ (r.cells j), fun j => φ (r.out j)⟩

theorem map_shift (φ : α → β) (v : α) (c : ℕ → α) (j : ℕ) :
    φ (shift v c j) = shift (φ v) (fun i => φ (c i)) j := by
  cases j <;> rfl

variable {op} {op' : β → β → β} {φ : α → β}

theorem map_taps (hφ : ∀ a b, φ (op a b) = op' (φ a) (φ b)) (c : ℕ → α) :
    ∀ (js : List ℕ) (v : α), φ (js.foldl (fun v j => op (c (j - 1)) v) v) =
      js.foldl (fun v j => op' (φ (c (j - 1))) v) (φ v)
  | [], _ => rfl
  | j :: js, v => by rw [List.foldl_cons, map_taps hφ c js, hφ, List.foldl_cons]

theorem step_map (hφ : ∀ a b, φ (op a b) = op' (φ a) (φ b)) (cfg : Config) (r : Reg α) (x : α) :
    (step op w poly ff cfg r x).map φ = step op' w poly ff cfg (r.map φ) (φ x) := by
  cases cfg
  case fibonacci =>
    simp only [step, Reg.map, map_shift, apply_ite φ, map_taps hφ, hφ]
  case galois =>
    simp only [step, Reg.map, map_shift, apply_ite φ, hφ]

/-- **One run for the other**: a map that respects the sums may be taken before or after. -/
theorem run_map (hφ : ∀ a b, φ (op a b) = op' (φ a) (φ b)) (cfg : Config) :
    ∀ (xs : List α) (r : Reg α),
      (run op w poly ff cfg r xs).map φ = run op' w poly ff cfg (r.map φ) (xs.map φ)
  | [], _ => rfl
  | x :: xs, r => by
    rw [List.map_cons, run, List.foldl_cons, ← run, run_map hφ cfg xs, step_map w poly ff hφ]
    rfl

/-! ### Sums of bits -/

/-- The sum of the first `n` bits of `f`. -/
def sum (f : ℕ → Bool) : ℕ → Bool
  | 0 => false
  | n + 1 => sum f n ^^ f n

theorem sum_false : ∀ n, sum (fun _ => false) n = false
  | 0 => rfl
  | n + 1 => by rw [sum, sum_false n]; rfl

theorem sum_xor (f g : ℕ → Bool) : ∀ n, sum (fun i => f i ^^ g i) n = (sum f n ^^ sum g n)
  | 0 => rfl
  | n + 1 => by
    rw [sum, sum_xor f g n, sum, sum]
    cases sum f n <;> cases sum g n <;> cases f n <;> cases g n <;> rfl

theorem sum_single (f : ℕ → Bool) (j : ℕ) :
    ∀ n, sum (fun i => f i && decide (j = i)) n = (decide (j < n) && f j)
  | 0 => by simp [sum]
  | n + 1 => by
    rw [sum, sum_single f j n]
    by_cases hj : j = n
    · subst hj
      simp
    · have hlt : j < n + 1 ↔ j < n := by omega
      simp [hj, hlt]

theorem sum_congr {f g : ℕ → Bool} : ∀ {n : ℕ}, (∀ i < n, f i = g i) → sum f n = sum g n
  | 0, _ => rfl
  | n + 1, h => by
    rw [sum, sum_congr fun i hi => h i (Nat.lt_succ_of_lt hi), h n (Nat.lt_succ_self n), sum]

theorem sum_add (f : ℕ → Bool) (m : ℕ) : ∀ n, sum f (m + n) = (sum f m ^^ sum (fun i => f (m + i)) n)
  | 0 => by simp [sum]
  | n + 1 => by
    rw [← Nat.add_assoc, sum, sum_add f m n, sum]
    exact Bool.xor_assoc _ _ _

/-- The sum does not depend on which end it begins at. -/
theorem sum_reverse (f : ℕ → Bool) : ∀ n, sum (fun i => f (n - 1 - i)) n = sum f n
  | 0 => rfl
  | n + 1 => by
    have hlow : sum (fun i => f (n + 1 - 1 - i)) (1 + n) = (f n ^^ sum f n) := by
      rw [sum_add, ← sum_reverse f n]
      congr 1
      · simp [sum]
      · refine sum_congr fun i hi => congrArg f ?_
        omega
    rw [Nat.add_comm 1 n] at hlow
    rw [hlow, sum, Bool.xor_comm]

/-- The sum of the bits of a word. -/
def parity {n : ℕ} (v : BitVec n) : Bool := sum v.getLsbD n

theorem parity_xor {n : ℕ} (u v : BitVec n) : parity (u ^^^ v) = (parity u ^^ parity v) := by
  rw [parity, parity, parity, ← sum_xor]
  exact sum_congr fun i _ => BitVec.getLsbD_xor

theorem parity_zero {n : ℕ} : parity (0#n) = false := by
  rw [parity, ← sum_false n]
  exact sum_congr fun i _ => BitVec.getLsbD_zero

theorem parity_and_xor {n : ℕ} (s u v : BitVec n) :
    parity (s &&& (u ^^^ v)) = (parity (s &&& u) ^^ parity (s &&& v)) := by
  rw [← parity_xor]
  congr 1
  apply BitVec.eq_of_getLsbD_eq
  intro i _
  simp only [BitVec.getLsbD_and, BitVec.getLsbD_xor]
  cases s.getLsbD i <;> rfl

theorem parity_twoPow {n : ℕ} (s : BitVec n) (j : ℕ) :
    parity (s &&& BitVec.twoPow n j) = s.getLsbD j := by
  have h := sum_single s.getLsbD j n
  by_cases hj : j < n
  · simp only [hj, decide_true, Bool.true_and] at h
    rw [← h, parity]
    refine sum_congr fun i _ => ?_
    simp only [BitVec.getLsbD_and, BitVec.getLsbD_twoPow, hj, decide_true, Bool.true_and]
  · have hzero : s &&& BitVec.twoPow n j = 0#n := by
      apply BitVec.eq_of_getLsbD_eq
      intro i _
      simp [hj]
    rw [hzero, parity_zero, BitVec.getLsbD_of_ge s j (by omega)]

theorem parity_append {m n : ℕ} (u : BitVec m) (v : BitVec n) :
    parity (u ++ v) = (parity v ^^ parity u) := by
  have hsum : parity (u ++ v) = sum (u ++ v).getLsbD (n + m) := by rw [Nat.add_comm n m, parity]
  rw [hsum, sum_add]
  congr 1
  · refine sum_congr fun i hi => ?_
    rw [BitVec.getLsbD_append, if_pos (by simpa using hi)]
  · refine sum_congr fun i hi => ?_
    rw [BitVec.getLsbD_append, if_neg (by simp), Nat.add_sub_cancel_left]

theorem parity_reverse {n : ℕ} (v : BitVec n) : parity v.reverse = parity v := by
  rw [parity, parity, ← sum_reverse v.getLsbD]
  refine sum_congr fun i hi => ?_
  rw [BitVec.getLsbD_reverse, BitVec.getMsbD]
  simp [hi]

/-- The word of some bits. -/
def ofBits : (n : ℕ) → (ℕ → Bool) → BitVec n
  | 0, _ => 0
  | n + 1, f => BitVec.cons (f n) (ofBits n f)

theorem getLsbD_ofBits (f : ℕ → Bool) : ∀ {n i : ℕ}, i < n → (ofBits n f).getLsbD i = f i
  | n + 1, i, h => by
    rw [ofBits, BitVec.getLsbD_cons]
    by_cases hi : i = n
    · rw [if_pos hi, hi]
    · rw [if_neg hi, getLsbD_ofBits f (by omega)]

theorem ofBits_congr {f g : ℕ → Bool} {n : ℕ} (h : ∀ i < n, f i = g i) : ofBits n f = ofBits n g := by
  apply BitVec.eq_of_getLsbD_eq
  intro i hi
  rw [getLsbD_ofBits f hi, getLsbD_ofBits g hi, h i hi]

theorem ofBits_getLsbD {n : ℕ} (v : BitVec n) : ofBits n v.getLsbD = v := by
  apply BitVec.eq_of_getLsbD_eq
  intro i hi
  exact getLsbD_ofBits _ hi

/-! ### The register as a word -/

theorem mem_taps {j : ℕ} : j ∈ taps w poly ↔ (1 ≤ j ∧ j < w) ∧ poly.testBit j = true := by
  have hrange : 1 ≤ j ∧ j < 1 + (w - 1) ↔ 1 ≤ j ∧ j < w := by omega
  rw [taps, List.mem_filter, List.mem_range'_1, hrange]

/-- The cells and the outputs as words, bit `j` for cell `j`. -/
structure Words (w d : ℕ) where
  state : BitVec w
  out : BitVec d

variable {w poly} {d : ℕ}

/-- The bit that is fed back. `p` is the polynomial without its term of degree `w`. -/
def feedback (cfg : Config) (p s : BitVec w) (x : Bool) : Bool :=
  match cfg with
  | .fibonacci => parity (s &&& p.rotateRight 1) ^^ x
  | .galois => s.msb ^^ x

/-- Fibonacci: shifted up, with a bit in the lowest place; Galois: shifted up, and the polynomial
added if the bit is one. -/
def Words.next (cfg : Config) (ff : Bool) (p : BitVec w) (s : Words w d) (x : Bool) : Words w d :=
  let v := feedback cfg p s.state x
  let fb := if ff then x else v
  ⟨match cfg with
    | .fibonacci => s.state.shiftConcat fb
    | .galois => (s.state <<< 1) ^^^ (if fb then p else 0#w),
    s.out.shiftConcat v⟩

def Words.feed (cfg : Config) (ff : Bool) (p : BitVec w) (s : Words w d) (xs : List Bool) :
    Words w d := xs.foldl (Words.next cfg ff p) s

/-- The words hold what the cells do. -/
structure Words.Holds (s : Words w d) (r : Reg Bool) : Prop where
  cells : ∀ j < w, r.cells j = s.state.getLsbD j
  out : ∀ j < d, r.out j = s.out.getLsbD j

variable {p : BitVec w}

/-- The sum over the taps, from the lowest one. -/
theorem foldl_taps (c : ℕ → Bool) (v : Bool) : ∀ n,
    ((List.range' 1 n).filter poly.testBit).foldl (fun v j => c (j - 1) ^^ v) v =
      (sum (fun i => c i && poly.testBit (i + 1)) n ^^ v)
  | 0 => by simp [sum]
  | n + 1 => by
    rw [List.range'_concat, List.filter_append, List.foldl_append, foldl_taps c v n, sum,
      Nat.one_mul, Nat.add_comm 1 n]
    cases htap : poly.testBit (n + 1) <;>
      simp [htap, Bool.xor_comm, Bool.xor_left_comm]

/-- The tapped cells are those of the polynomial, one place down, and the last. -/
theorem parity_taps (hw : 0 < w) (hp : ∀ j < w, p.getLsbD j = (decide (j = 0) || poly.testBit j))
    (s : BitVec w) : parity (s &&& p.rotateRight 1) =
      (sum (fun i => s.getLsbD i && poly.testBit (i + 1)) (w - 1) ^^ s.getLsbD (w - 1)) := by
  have hbit : ∀ i < w, (s &&& p.rotateRight 1).getLsbD i =
      (s.getLsbD i && (decide (i + 1 = w) || poly.testBit (i + 1))) := fun i hi => by
    rw [BitVec.getLsbD_and, BitVec.getLsbD_rotateRight]
    rcases Nat.lt_or_ge 1 w with hw' | hw'
    · rw [Nat.mod_eq_of_lt hw']
      by_cases hlast : i + 1 = w
      · have hge : ¬ i < w - 1 := by omega
        have hzero : i - (w - 1) = 0 := by omega
        rw [decide_eq_false hge, cond_false, hzero, hp 0 hw]
        simp [hlast, hi]
      · have hlt : i < w - 1 := by omega
        rw [decide_eq_true hlt, cond_true, Nat.add_comm 1 i, hp (i + 1) (by omega)]
        simp [hlast]
    · -- a register of one cell
      obtain rfl : w = 1 := by omega
      obtain rfl : i = 0 := by omega
      simp [hp 0 hw]
  obtain ⟨n, rfl⟩ : ∃ n, w = n + 1 := ⟨w - 1, by omega⟩
  rw [parity, sum, Nat.add_sub_cancel]
  congr 1
  · refine sum_congr fun i hi => ?_
    have hne : i + 1 ≠ n + 1 := by omega
    rw [hbit i (by omega), decide_eq_false hne, Bool.false_or]
  · rw [hbit n (by omega), decide_eq_true rfl, Bool.true_or, Bool.and_true]

theorem Words.Holds.next {s : Words w d} {r : Reg Bool} (h : s.Holds r) (hw : 0 < w)
    (hp : ∀ j < w, p.getLsbD j = (decide (j = 0) || poly.testBit j)) (cfg : Config) (ff x : Bool) :
    (s.next cfg ff p x).Holds (step xor w poly ff cfg r x) := by
  have hshift : ∀ {n : ℕ} {c : ℕ → Bool} {v : BitVec n} (b : Bool), (∀ j < n, c j = v.getLsbD j) →
      ∀ j < n, shift b c j = (v.shiftConcat b).getLsbD j := fun {n c v} b hc j hj => by
    rw [BitVec.getLsbD_shiftConcat, decide_eq_true hj]
    cases j with
    | zero => rfl
    | succ j => exact hc j (by omega)
  cases cfg with
  | fibonacci =>
    have hv : (taps w poly).foldl (fun v j => xor (r.cells (j - 1)) v) (xor (r.cells (w - 1)) x) =
        feedback .fibonacci p s.state x := by
      rw [feedback, parity_taps hw hp, taps, foldl_taps, ← h.cells (w - 1) (by omega)]
      have hsum : sum (fun i => r.cells i && poly.testBit (i + 1)) (w - 1) =
          sum (fun i => s.state.getLsbD i && poly.testBit (i + 1)) (w - 1) :=
        sum_congr fun i hi => by rw [h.cells i (by omega)]
      rw [hsum, Bool.xor_assoc]
    simp only [step, hv]
    exact ⟨hshift _ h.cells, hshift _ h.out⟩
  | galois =>
    have hv : xor (r.cells (w - 1)) x = feedback .galois p s.state x := by
      rw [feedback, h.cells (w - 1) (by omega), BitVec.msb_eq_getLsbD_last]
    simp only [step, hv]
    refine ⟨fun j hj => ?_, hshift _ h.out⟩
    have hcell : ∀ fb : Bool, (if j ∈ taps w poly then xor (shift fb r.cells j) fb
        else shift fb r.cells j) = ((s.state <<< 1) ^^^ (if fb then p else 0#w)).getLsbD j := fun fb => by
      rw [BitVec.getLsbD_xor, BitVec.getLsbD_shiftLeft, apply_ite (fun q : BitVec w => q.getLsbD j),
        hp j hj]
      cases j with
      | zero => cases fb <;> simp [shift, mem_taps]
      | succ j =>
        have hc := h.cells j (by omega)
        cases htap : poly.testBit (j + 1) <;> cases fb <;> simp [shift, mem_taps, htap, hj, hc]
    exact hcell _

theorem Words.Holds.feed (hw : 0 < w)
    (hp : ∀ j < w, p.getLsbD j = (decide (j = 0) || poly.testBit j)) (cfg : Config) (ff : Bool) :
    ∀ (xs : List Bool) {s : Words w d} {r : Reg Bool}, s.Holds r →
      (s.feed cfg ff p xs).Holds (run xor w poly ff cfg r xs)
  | [], _, _, h => h
  | x :: xs, _, _, h => Words.Holds.feed hw hp cfg ff xs (h.next hw hp cfg ff x)

/-- A Galois register is that of a cyclic redundancy check. -/
theorem feed_galois (p : BitVec w) : ∀ (xs : List Bool) (s : Words w d),
    (s.feed .galois false p xs).state = Crc.feed p s.state xs
  | [], _ => rfl
  | x :: xs, s => feed_galois p xs (s.next .galois false p x)

end Lfsr
end Xc7Tools
