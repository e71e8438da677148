/-
# UF2 files

A UF2 file is a row of blocks of 512 bytes. Eight little-endian words come
first, two magics among them, then 476 bytes of data and a last magic. A reader
puts the first `size` bytes of a block's data at its address. A file of blocks
whose fields fit is read back (`read_encode`).

Key definitions: `Block`, `Block.encode`, `Block.decode`, `read`, `placed`.
Key theorems: `Block.decode_encode`, `read_encode`, `placed_eq_zipIdx`.
-/
import Xc7Tools.Lib.Struct

namespace Xc7Tools
namespace Uf2

open Struct

def magicStart0 : ℕ := 0x0A324655

def magicStart1 : ℕ := 0x9E5D5157

def magicEnd : ℕ := 0x0AB16F30

/-- A block, without its magics. -/
structure Block where
  flags : ℕ
  address : ℕ
  size : ℕ
  number : ℕ
  count : ℕ
  family : ℕ
  data : List UInt8
  deriving DecidableEq

namespace Block

def words (b : Block) : List ℕ :=
  [magicStart0, magicStart1, b.flags, b.address, b.size, b.number, b.count, b.family]

structure Valid (b : Block) : Prop where
  fits : ∀ n ∈ b.words, n < 2 ^ 32
  data : b.data.length = 476

def encode (b : Block) : List UInt8 :=
  writeInts .little 4 b.words ++ b.data ++ writeInts .little 4 [magicEnd]

def decode (bs : List UInt8) : Option Block :=
  match readInts .little 4 8 bs with
  | [m₀, m₁, flags, address, size, number, count, family] =>
    if m₀ = magicStart0 ∧ m₁ = magicStart1 ∧ readInts .little 4 1 (bs.drop 508) = [magicEnd] then
      some { flags, address, size, number, count, family, data := (bs.drop 32).take 476 }
    else none
  | _ => none

/-- The bytes a reader places, with their addresses. -/
def writes (b : Block) : List (UInt8 × ℕ) := (b.data.take b.size).zipIdx b.address

theorem length_encode {b : Block} (h : b.Valid) : b.encode.length = 512 := by
  simp [encode, words, h.data]

theorem decode_encode {b : Block} (h : b.Valid) : decode b.encode = some b := by
  have hhead : (writeInts .little 4 b.words).length = 32 := by simp [words]
  have hwords : readInts .little 4 8 b.encode = b.words := by
    rw [encode, List.append_assoc]
    exact readInts_writeInts .little 4 h.fits _
  have hdata : (b.encode.drop 32).take 476 = b.data := by
    rw [encode, List.append_assoc, List.drop_left' hhead, List.take_left' h.data]
  have hend : readInts .little 4 1 (b.encode.drop 508) = [magicEnd] := by
    have hlen : (writeInts .little 4 b.words ++ b.data).length = 508 := by simp [hhead, h.data]
    have hmagic : ∀ n ∈ [magicEnd], n < 256 ^ 4 := by simp [magicEnd]
    rw [encode, List.drop_left' hlen]
    simpa using readInts_writeInts .little 4 hmagic []
  unfold decode
  simp [hwords, words, hend, hdata]

end Block

/-! ### Files -/

def readBlocks : ℕ → List UInt8 → Option (List Block)
  | 0, _ => some []
  | n + 1, bs => do
    let b ← Block.decode (bs.take 512)
    let rest ← readBlocks n (bs.drop 512)
    some (b :: rest)

def read (file : List UInt8) : Option (List Block) :=
  if file.length % 512 = 0 then readBlocks (file.length / 512) file else none

/-- What a reader places where, in the order of the blocks. -/
def placed (blocks : List Block) : List (UInt8 × ℕ) := blocks.flatMap Block.writes

theorem length_flatMap_encode : ∀ {blocks : List Block}, (∀ b ∈ blocks, b.Valid) →
    (blocks.flatMap Block.encode).length = 512 * blocks.length
  | [], _ => rfl
  | b :: blocks, h => by
    have ih := length_flatMap_encode fun c hc => h c (List.mem_cons_of_mem _ hc)
    rw [List.flatMap_cons, List.length_append, ih, Block.length_encode (h b List.mem_cons_self),
      List.length_cons]
    ring

theorem readBlocks_encode : ∀ {blocks : List Block}, (∀ b ∈ blocks, b.Valid) →
    readBlocks blocks.length (blocks.flatMap Block.encode) = some blocks
  | [], _ => rfl
  | b :: blocks, h => by
    have hb := h b List.mem_cons_self
    have ih := readBlocks_encode fun c hc => h c (List.mem_cons_of_mem _ hc)
    rw [List.flatMap_cons, List.length_cons, readBlocks, List.take_left' (Block.length_encode hb),
      List.drop_left' (Block.length_encode hb), Block.decode_encode hb, ih]
    rfl

/-- **A file of blocks whose fields fit is read back.** -/
theorem read_encode {blocks : List Block} (h : ∀ b ∈ blocks, b.Valid) :
    read (blocks.flatMap Block.encode) = some blocks := by
  rw [read, length_flatMap_encode h, if_pos (Nat.mul_mod_right _ _),
    Nat.mul_div_cancel_left _ (by decide : 0 < 512), readBlocks_encode h]

/-- Blocks of one size, each behind the other, are placed without a gap. -/
theorem placed_eq_zipIdx {size base : ℕ} {f : ℕ → Block} (hsize : ∀ i, (f i).size = size)
    (haddress : ∀ i, (f i).address = base + size * i)
    (hdata : ∀ i, size ≤ (f i).data.length) : ∀ n,
    placed ((List.range n).map f) =
      ((List.range n).flatMap fun i => (f i).data.take size).zipIdx base
  | 0 => rfl
  | n + 1 => by
    have ih := placed_eq_zipIdx hsize haddress hdata n
    have hlen : ((List.range n).flatMap fun i => (f i).data.take size).length = size * n := by
      simp [List.length_flatMap, hdata, Nat.mul_comm]
    unfold placed at ih ⊢
    rw [List.range_succ, List.map_append, List.flatMap_append, ih, List.flatMap_append,
      List.zipIdx_append, hlen]
    simp [Block.writes, hsize, haddress]

end Uf2
end Xc7Tools
