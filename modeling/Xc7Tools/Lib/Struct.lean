/-
# Integers in bytes

Unsigned integers of a number of bytes in either byte order, one
(`readInt`, `writeInt`) or a row of them (`readInts`, `writeInts`). Reading what
was written gives the integers back.

Key definitions: `Order`, `readInts`, `writeInts`.
Key theorems: `readInts_writeInts`, `getElem_readInts`.
-/
import Mathlib.Data.List.Basic
import Mathlib.Tactic.Ring

namespace Xc7Tools
namespace Struct

/-- `>` and `<` of a format. -/
inductive Order where
  | big
  | little
  deriving DecidableEq

namespace Order

/-- The least significant byte first. -/
def fromLow : Order → List UInt8 → List UInt8
  | big, bs => bs.reverse
  | little, bs => bs

@[simp] theorem length_fromLow (o : Order) (bs : List UInt8) : (o.fromLow bs).length = bs.length := by
  cases o
  · exact List.length_reverse
  · rfl

@[simp] theorem fromLow_fromLow (o : Order) (bs : List UInt8) : o.fromLow (o.fromLow bs) = bs := by
  cases o
  · exact List.reverse_reverse bs
  · rfl

end Order

/-! ### One integer -/

/-- The number of some bytes, the least significant first. -/
def ofLow : List UInt8 → ℕ
  | [] => 0
  | b :: bs => b.toNat + 256 * ofLow bs

/-- The bytes of a number, the least significant first. -/
def toLow : ℕ → ℕ → List UInt8
  | 0, _ => []
  | size + 1, n => UInt8.ofNat n :: toLow size (n / 256)

def readInt (o : Order) (bs : List UInt8) : ℕ := ofLow (o.fromLow bs)

def writeInt (o : Order) (size n : ℕ) : List UInt8 := o.fromLow (toLow size n)

theorem ofLow_lt : ∀ bs : List UInt8, ofLow bs < 256 ^ bs.length
  | [] => Nat.one_pos
  | b :: bs => by
    have ih := ofLow_lt bs
    have hb := b.toNat_lt
    rw [ofLow, List.length_cons, pow_succ]
    omega

theorem length_toLow : ∀ size n : ℕ, (toLow size n).length = size
  | 0, _ => rfl
  | size + 1, n => congrArg Nat.succ (length_toLow size (n / 256))

theorem ofLow_toLow : ∀ {size n : ℕ}, n < 256 ^ size → ofLow (toLow size n) = n
  | 0, n, h => by
    rw [pow_zero, Nat.lt_one_iff] at h
    rw [h]
    rfl
  | size + 1, n, h => by
    rw [pow_succ] at h
    rw [toLow, ofLow, ofLow_toLow (by omega), UInt8.toNat_ofNat']
    omega

theorem readInt_lt (o : Order) (bs : List UInt8) : readInt o bs < 256 ^ bs.length := by
  have h := ofLow_lt (o.fromLow bs)
  rwa [Order.length_fromLow] at h

@[simp] theorem length_writeInt (o : Order) (size n : ℕ) : (writeInt o size n).length = size := by
  rw [writeInt, Order.length_fromLow, length_toLow]

theorem readInt_writeInt (o : Order) {size n : ℕ} (h : n < 256 ^ size) :
    readInt o (writeInt o size n) = n := by
  rw [readInt, writeInt, Order.fromLow_fromLow, ofLow_toLow h]

/-! ### A row of integers -/

variable (o : Order) (size : ℕ)

/-- The first `count` integers of some bytes. -/
def readInts : ℕ → List UInt8 → List ℕ
  | 0, _ => []
  | count + 1, bs => readInt o (bs.take size) :: readInts count (bs.drop size)

def writeInts (ns : List ℕ) : List UInt8 := ns.flatMap (writeInt o size)

@[simp] theorem length_readInts : ∀ (count : ℕ) (bs : List UInt8),
    (readInts o size count bs).length = count
  | 0, _ => rfl
  | count + 1, bs => congrArg Nat.succ (length_readInts count (bs.drop size))

@[simp] theorem length_writeInts : ∀ ns : List ℕ, (writeInts o size ns).length = size * ns.length
  | [] => rfl
  | n :: ns => by
    have ih := length_writeInts ns
    unfold writeInts at ih ⊢
    rw [List.flatMap_cons, List.length_append, length_writeInt, ih, List.length_cons]
    ring

theorem writeInts_append (ns ms : List ℕ) :
    writeInts o size (ns ++ ms) = writeInts o size ns ++ writeInts o size ms :=
  List.flatMap_append

theorem readInts_writeInts : ∀ {ns : List ℕ}, (∀ n ∈ ns, n < 256 ^ size) → ∀ bs : List UInt8,
    readInts o size ns.length (writeInts o size ns ++ bs) = ns
  | [], _, _ => rfl
  | n :: ns, h, bs => by
    have hn := h n List.mem_cons_self
    have ih := readInts_writeInts (fun m hm => h m (List.mem_cons_of_mem _ hm)) bs
    have hcons : writeInts o size (n :: ns) ++ bs =
        writeInt o size n ++ (writeInts o size ns ++ bs) := by
      rw [writeInts, List.flatMap_cons, List.append_assoc]
      rfl
    rw [hcons, List.length_cons, readInts, List.take_left' (length_writeInt o size n),
      List.drop_left' (length_writeInt o size n), readInt_writeInt o hn, ih]

theorem readInts_lt : ∀ {count : ℕ} {bs : List UInt8}, ∀ n ∈ readInts o size count bs, n < 256 ^ size
  | 0, _, _, hn => absurd hn List.not_mem_nil
  | count + 1, bs, n, hn => by
    rcases List.mem_cons.mp hn with rfl | hn
    · have hlen : (bs.take size).length ≤ size := List.length_take_le size bs
      exact lt_of_lt_of_le (readInt_lt o _) (Nat.pow_le_pow_right (by decide) hlen)
    · exact readInts_lt n hn

/-- The integer at an index is read where it stands. -/
theorem getElem_readInts : ∀ {count : ℕ} {bs : List UInt8} {j : ℕ}
    (hj : j < (readInts o size count bs).length),
    (readInts o size count bs)[j] = readInt o ((bs.drop (size * j)).take size)
  | 0, _, _, hj => absurd hj (Nat.not_lt_zero _)
  | count + 1, bs, 0, _ => rfl
  | count + 1, bs, j + 1, hj => by
    have hj' : j < (readInts o size count (bs.drop size)).length := Nat.lt_of_succ_lt_succ hj
    have ih := getElem_readInts hj'
    rw [List.drop_drop] at ih
    rw [Nat.mul_succ, Nat.add_comm (size * j)]
    exact ih

/-- The same, of a row that was written. -/
theorem readInt_writeInts {ns : List ℕ} (h : ∀ n ∈ ns, n < 256 ^ size) (bs : List UInt8) {j : ℕ}
    (hj : j < ns.length) :
    readInt o (((writeInts o size ns ++ bs).drop (size * j)).take size) = ns[j] := by
  have hread := readInts_writeInts o size h bs
  have hj' : j < (readInts o size ns.length (writeInts o size ns ++ bs)).length := by
    rwa [length_readInts]
  rw [← getElem_readInts o size hj']
  simp only [hread]

end Struct
end Xc7Tools
