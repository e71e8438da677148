/-
# openila GUI: bit vectors of bytes

`struct Bits` of `examples/openila/gui/ila.h`: bit `i` is bit `i % 8` of byte
`i / 8`. An index past the last byte is undefined there; here such a bit reads
as 0 and is not written, and no lemma about a write leaves the bound out. The
bits of a vector as a number are those of `toNat` (`testBit_toNat`), which is
what the rest is compared by.

Key definitions: `Bits`, `Bits.get`, `Bits.set`, `Bits.put`, `Bits.field`.
Key theorems: `Bits.get_set`, `Bits.get_setAll`, `Bits.testBit_field`, `Bits.testBit_toNat`.
-/
import Mathlib.Data.BitVec
import Mathlib.Data.Nat.Bitwise
import Mathlib.Data.Nat.Digits.Defs

namespace Xc7Tools
namespace Openila

/-- A bit vector, a byte for every eight bits. -/
structure Bits where
  b : List (BitVec 8)

namespace Bits

/-- `Bits(n)` -/
def zeros (n : ℕ) : Bits := ⟨List.replicate ((n + 7) / 8) 0⟩

def size (x : Bits) : ℕ := x.b.length * 8

def get (x : Bits) (i : ℕ) : Bool := (x.b.getD (i / 8) 0).getLsbD (i % 8)

def set (x : Bits) (i : ℕ) (v : Bool) : Bits :=
  ⟨x.b.modify (i / 8) fun c =>
    if v then c ||| (1#8 <<< (i % 8)) else c &&& ~~~(1#8 <<< (i % 8))⟩

/-- `for (int i = 0; i < n; i++) set(lsb + i, f(i))` -/
def setAll (x : Bits) (lsb n : ℕ) (f : ℕ → Bool) : Bits :=
  (List.range n).foldl (fun x i => x.set (lsb + i) (f i)) x

def put (x : Bits) (lsb n v : ℕ) : Bits := x.setAll lsb n v.testBit

def field (x : Bits) (lsb n : ℕ) : ℕ :=
  (List.range (min n 64)).foldl (fun v i => v ||| (x.get (lsb + i)).toNat <<< i) 0

/-- The integer the vector denotes. -/
def toNat (x : Bits) : ℕ := Nat.ofDigits 256 (x.b.map BitVec.toNat)

/-- A bit string, as a vector. -/
def ofBits {n : ℕ} (v : BitVec n) : Bits :=
  ⟨(List.range ((n + 7) / 8)).map fun i => v.extractLsb' (8 * i) 8⟩

/-! ### Single bits -/

theorem size_zeros (n : ℕ) : n ≤ (zeros n).size := by
  simp only [size, zeros, List.length_replicate]
  omega

@[simp] theorem size_set (x : Bits) (i : ℕ) (v : Bool) : (x.set i v).size = x.size := by
  simp [size, set]

@[simp] theorem get_zeros (n i : ℕ) : (zeros n).get i = false := by
  have h : (List.replicate ((n + 7) / 8) (0 : BitVec 8)).getD (i / 8) 0 = 0 := by
    rw [List.getD_eq_getElem?_getD, List.getElem?_replicate]
    split <;> rfl
  simp only [get, zeros, h]
  exact BitVec.getLsbD_zero

theorem get_of_size_le {x : Bits} {i : ℕ} (h : x.size ≤ i) : x.get i = false := by
  have hlen : x.b.length ≤ i / 8 := by
    unfold size at h
    omega
  rw [get, List.getD_eq_default _ _ hlen]
  exact BitVec.getLsbD_zero

/-- The mask of a bit has that bit only. -/
theorem getLsbD_one_shiftLeft {k : ℕ} (hk : k < 8) (j : ℕ) :
    (1#8 <<< k).getLsbD j = decide (j = k) := by
  rw [← BitVec.twoPow_eq, BitVec.getLsbD_twoPow]
  simp [hk, eq_comm]

theorem get_set {x : Bits} {i : ℕ} (h : i < x.size) (v : Bool) (j : ℕ) :
    (x.set i v).get j = if i = j then v else x.get j := by
  have hlen : i / 8 < x.b.length := by
    unfold size at h
    omega
  have hi : i % 8 < 8 := Nat.mod_lt _ (by decide)
  have hj : j % 8 < 8 := Nat.mod_lt _ (by decide)
  have hmask := getLsbD_one_shiftLeft hi
  unfold set get
  generalize 1#8 <<< (i % 8) = m at hmask
  simp only [List.getD_eq_getElem?_getD, List.getElem?_modify]
  by_cases hbyte : i / 8 = j / 8
  · have hbit : j % 8 = i % 8 ↔ i = j := by omega
    simp only [hbyte, if_true, List.getElem?_eq_getElem (hbyte ▸ hlen), Option.map_eq_map,
      Option.map_some, Option.getD_some]
    rw [← if_congr hbit rfl rfl]
    cases v with
    | true =>
      simp only [if_true, BitVec.getLsbD_or, hmask]
      split_ifs with hij <;> simp only [hij, decide_true, decide_false, Bool.or_true, Bool.or_false]
    | false =>
      simp only [Bool.false_eq_true, if_false, BitVec.getLsbD_and, BitVec.getLsbD_not, hmask, hj,
        decide_true, Bool.true_and]
      split_ifs with hij <;> simp only [hij, decide_true, decide_false, Bool.not_true, Bool.not_false,
        Bool.and_true, Bool.and_false]
  · have hne : i ≠ j := fun e => hbyte (by rw [e])
    simp only [if_neg hbyte, if_neg hne, Option.map_eq_map, Option.map_id']

/-! ### Loops over bits -/

theorem setAll_succ (x : Bits) (lsb n : ℕ) (f : ℕ → Bool) :
    x.setAll lsb (n + 1) f = (x.setAll lsb n f).set (lsb + n) (f n) := by
  rw [setAll, List.range_succ, List.foldl_append]
  rfl

@[simp] theorem size_setAll (x : Bits) (lsb n : ℕ) (f : ℕ → Bool) :
    (x.setAll lsb n f).size = x.size := by
  induction n with
  | zero => rfl
  | succ n ih => rw [setAll_succ, size_set, ih]

/-- The loop writes its own range and nothing else. -/
theorem get_setAll {x : Bits} {lsb : ℕ} (f : ℕ → Bool) (j : ℕ) : ∀ {n}, lsb + n ≤ x.size →
    (x.setAll lsb n f).get j = if lsb ≤ j ∧ j < lsb + n then f (j - lsb) else x.get j
  | 0, _ => by
    rw [if_neg (by omega)]
    rfl
  | n + 1, h => by
    have ih := get_setAll f j (show lsb + n ≤ x.size by omega)
    rw [setAll_succ, get_set (by rw [size_setAll]; omega), ih]
    by_cases hj : lsb + n = j
    · rw [if_pos hj, if_pos ⟨by omega, by omega⟩]
      congr 1
      omega
    · rw [if_neg hj]
      exact if_congr (by omega) rfl rfl

/-- A loop that puts bits into a number puts each in its place. -/
theorem testBit_orLoop (f : ℕ → Bool) (j : ℕ) : ∀ n,
    ((List.range n).foldl (fun v i => v ||| (f i).toNat <<< i) 0).testBit j = (decide (j < n) && f j)
  | 0 => by simp
  | m + 1 => by
    rw [List.range_succ, List.foldl_append, List.foldl_cons, List.foldl_nil, Nat.testBit_or,
      testBit_orLoop f j m, Nat.testBit_shiftLeft]
    by_cases hlt : j < m
    · simp [hlt, Nat.lt_succ_of_lt hlt, Nat.not_le.mpr hlt]
    · by_cases heq : j = m
      · subst heq
        cases f j <;> simp
      · have hle : m ≤ j := by omega
        have hbit : ((f m).toNat).testBit (j - m) = false := by
          obtain ⟨k, hk⟩ : ∃ k, j - m = k + 1 := ⟨j - m - 1, by omega⟩
          rw [hk]
          cases f m <;> simp [Nat.testBit_succ]
        have hlt' : ¬ j < m + 1 := by omega
        simp [hlt, hlt', hle, hbit]

/-- A field has the bits of its range, as many as a 64-bit word holds. -/
theorem testBit_field (x : Bits) (lsb n j : ℕ) :
    (x.field lsb n).testBit j = (decide (j < min n 64) && x.get (lsb + j)) :=
  testBit_orLoop (fun i => x.get (lsb + i)) j (min n 64)

theorem testBit_ofDigits : ∀ (l : List (BitVec 8)) (i : ℕ),
    (Nat.ofDigits 256 (l.map BitVec.toNat)).testBit i = (l.getD (i / 8) 0).getLsbD (i % 8)
  | [], i => by simp
  | c :: l, i => by
    have hc : c.toNat < 2 ^ 8 := c.isLt
    have hcons : Nat.ofDigits 256 ((c :: l).map BitVec.toNat) =
        2 ^ 8 * Nat.ofDigits 256 (l.map BitVec.toNat) + c.toNat := by
      rw [List.map_cons, Nat.ofDigits_cons, Nat.add_comm]
      rfl
    rw [hcons, Nat.testBit_two_pow_mul_add _ hc]
    by_cases hi : i < 8
    · rw [if_pos hi, Nat.div_eq_of_lt hi, Nat.mod_eq_of_lt hi]
      rfl
    · obtain ⟨k, rfl⟩ : ∃ k, i = k + 8 := ⟨i - 8, by omega⟩
      rw [if_neg hi, Nat.add_sub_cancel, testBit_ofDigits l k, Nat.add_div_right _ (by decide),
        Nat.add_mod_right]
      rfl

theorem testBit_toNat (x : Bits) (i : ℕ) : x.toNat.testBit i = x.get i := testBit_ofDigits x.b i

/-- A bit string's vector has its bits. -/
theorem get_ofBits {n : ℕ} (v : BitVec n) (i : ℕ) : (ofBits v).get i = v.getLsbD i := by
  have hmod : i % 8 < 8 := Nat.mod_lt _ (by decide)
  rw [get, ofBits, List.getD_eq_getElem?_getD, List.getElem?_map]
  by_cases hi : i / 8 < (n + 7) / 8
  · rw [List.getElem?_range hi]
    simp [hmod, Nat.div_add_mod]
  · have hlen : n ≤ i := by omega
    rw [List.getElem?_eq_none (by simpa using hi), v.getLsbD_of_ge i hlen]
    simp

end Bits

end Openila
end Xc7Tools
