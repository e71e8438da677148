/-
# sonata.py: the configuration image

`write_uf2` of `boards/sonata.py`: 256 bytes of the bitstream in each block of
a UF2 file, the data area filled up with zeros. What a reader of such files
places is the bitstream from the base address on, with zeros up to the next
multiple of 256 (`writeUf2_placed`). A base address so high that a block would
lie beyond 32 bits is a `struct.error`, so the file is written just if there is
room (`writeUf2_eq_none`).

Key definitions: `pack`, `block`, `writeUf2`.
Key theorems: `writeUf2_eq`, `writeUf2_placed`, `writeUf2_eq_none`.
-/
import Xc7Tools.Lib.Uf2
import Mathlib.Algebra.Order.Floor.Div
import Mathlib.GroupTheory.GroupAction.Ring

namespace Xc7Tools
namespace Sonata

open Struct Uf2

abbrev Bytes := List UInt8

def familyId : ℕ := 0x6CE29E6B

def payloadSize : ℕ := 256

def blockDataSize : ℕ := 476

def flagFamilyIdPresent : ℕ := 0x00002000

def magicStart0 : ℕ := 0x0A324655

def magicStart1 : ℕ := 0x9E5D5157

def magicEnd : ℕ := 0x0AB16F30

/-- `struct.pack("<I...", ...)`; none is a `struct.error`. -/
def pack (ns : List ℕ) : Option Bytes :=
  if ∀ n ∈ ns, n < 2 ^ 32 then some (writeInts .little 4 ns) else none

/-- `payload`, filled up. -/
def payload (bitstream : Bytes) (offset : ℕ) : Bytes :=
  let payload := (bitstream.drop offset).take payloadSize
  payload ++ List.replicate (blockDataSize - payload.length) 0

/-- What one round of the loop writes. -/
def block (bitstream : Bytes) (baseAddress blockCount blockNumber : ℕ) : Option Bytes := do
  let offset := blockNumber * payloadSize
  let header ← pack [magicStart0, magicStart1, flagFamilyIdPresent, baseAddress + offset, payloadSize,
    blockNumber, blockCount, familyId]
  let footer ← pack [magicEnd]
  some (header ++ payload bitstream offset ++ footer)

/-- The file; none if there is an error on the way. -/
def writeUf2 (bitstream : Bytes) (baseAddress : ℕ) : Option Bytes :=
  let blockCount := (bitstream.length + payloadSize - 1) / payloadSize
  (List.range blockCount).foldlM
    (fun file blockNumber => (block bitstream baseAddress blockCount blockNumber).map (file ++ ·)) []

/-! ### The blocks -/

section Blocks

variable (bitstream : Bytes) (base count : ℕ)

/-- What a block says. -/
def blockAt (number : ℕ) : Block where
  flags := flagFamilyIdPresent
  address := base + payloadSize * number
  size := payloadSize
  number := number
  count := count
  family := familyId
  data := payload bitstream (number * payloadSize)

theorem length_payload (offset : ℕ) : (payload bitstream offset).length = blockDataSize := by
  simp only [payload, List.length_append, List.length_replicate, List.length_take, payloadSize,
    blockDataSize]
  omega

variable {base count}

theorem fits_words {number : ℕ} (hcount : count < 2 ^ 32) (hnumber : number < count) :
    (∀ n ∈ (blockAt bitstream base count number).words, n < 2 ^ 32) ↔
      base + payloadSize * number < 2 ^ 32 := by
  simp only [Block.words, blockAt, List.forall_mem_cons, List.not_mem_nil, false_imp_iff,
    implies_true, and_true]
  simp only [Uf2.magicStart0, Uf2.magicStart1, flagFamilyIdPresent, payloadSize, familyId]
  omega

theorem block_eq {number : ℕ} (hcount : count < 2 ^ 32) (hnumber : number < count)
    (hroom : base + payloadSize * number < 2 ^ 32) :
    block bitstream base count number = some (blockAt bitstream base count number).encode := by
  have hhead := (fits_words bitstream hcount hnumber).mpr hroom
  have hwords : [magicStart0, magicStart1, flagFamilyIdPresent, base + number * payloadSize,
      payloadSize, number, count, familyId] = (blockAt bitstream base count number).words := by
    rw [Nat.mul_comm number]
    rfl
  have hfoot : ∀ n ∈ [magicEnd], n < 2 ^ 32 := by simp [magicEnd]
  simp only [block, hwords, pack, if_pos hhead, if_pos hfoot]
  rfl

theorem valid_blockAt {number : ℕ} (hcount : count < 2 ^ 32) (hnumber : number < count)
    (hroom : base + payloadSize * number < 2 ^ 32) :
    (blockAt bitstream base count number).Valid :=
  ⟨(fits_words bitstream hcount hnumber).mpr hroom, length_payload bitstream _⟩

/-- Rounds that all write. -/
theorem foldlM_append {f : ℕ → Option Bytes} {g : ℕ → Bytes} : ∀ {is : List ℕ} (file : Bytes),
    (∀ i ∈ is, f i = some (g i)) →
    is.foldlM (fun file i => (f i).map (file ++ ·)) file = some (file ++ is.flatMap g)
  | [], file, _ => by simp
  | i :: is, file, h => by
    have hrest : ∀ j ∈ is, f j = some (g j) := fun j hj => h j (List.mem_cons_of_mem _ hj)
    have ih := foldlM_append (file ++ g i) hrest
    rw [List.foldlM_cons, h i List.mem_cons_self, List.flatMap_cons, ← List.append_assoc]
    exact ih

/-- **Where there is room, the file is the blocks one behind the other.** -/
theorem writeUf2_eq (hroom : base + payloadSize * (bitstream.length ⌈/⌉ payloadSize) ≤ 2 ^ 32) :
    writeUf2 bitstream base =
      some (((List.range (bitstream.length ⌈/⌉ payloadSize)).map
        (blockAt bitstream base (bitstream.length ⌈/⌉ payloadSize))).flatMap Block.encode) := by
  have hcount : (bitstream.length + payloadSize - 1) / payloadSize = bitstream.length ⌈/⌉ payloadSize :=
    (Nat.ceilDiv_eq_add_pred_div _ _).symm
  simp only [writeUf2, hcount]
  generalize bitstream.length ⌈/⌉ payloadSize = count at *
  rw [foldlM_append [] (g := fun i => (blockAt bitstream base count i).encode), List.nil_append,
    List.flatMap_map]
  intro i hi
  have hlt := List.mem_range.mp hi
  unfold payloadSize at hroom
  exact block_eq bitstream (by omega) hlt (by unfold payloadSize; omega)

/-- A round that fails. -/
theorem foldlM_eq_none {f : ℕ → Option Bytes} : ∀ {is : List ℕ} {i : ℕ} (file : Bytes), i ∈ is →
    f i = none → is.foldlM (fun file i => (f i).map (file ++ ·)) file = none
  | j :: is, i, file, hi, h => by
    rw [List.foldlM_cons]
    cases hj : f j with
    | none => rfl
    | some bs =>
      have hne : i ≠ j := fun e => by simp [e, hj] at h
      exact foldlM_eq_none (file ++ bs) (List.mem_of_ne_of_mem hne hi) h

/-- There is no file if a block's address is beyond 32 bits. -/
theorem writeUf2_eq_none {i : ℕ} (hi : i < bitstream.length ⌈/⌉ payloadSize)
    (hroom : 2 ^ 32 ≤ base + payloadSize * i) : writeUf2 bitstream base = none := by
  have hcount : (bitstream.length + payloadSize - 1) / payloadSize = bitstream.length ⌈/⌉ payloadSize :=
    (Nat.ceilDiv_eq_add_pred_div _ _).symm
  simp only [writeUf2, hcount]
  refine foldlM_eq_none [] (List.mem_range.mpr hi) ?_
  have hpack : pack [magicStart0, magicStart1, flagFamilyIdPresent, base + i * payloadSize,
      payloadSize, i, bitstream.length ⌈/⌉ payloadSize, familyId] = none := by
    refine if_neg fun h => ?_
    have haddress := h (base + i * payloadSize) (by simp)
    rw [Nat.mul_comm] at haddress
    omega
  simp only [block, hpack]
  rfl

end Blocks

/-! ### The bytes that are placed -/

theorem take_payload (bitstream : Bytes) (offset : ℕ) :
    (payload bitstream offset).take payloadSize =
      (bitstream.drop offset).take payloadSize ++
        List.replicate (payloadSize - (bitstream.length - offset)) 0 := by
  simp only [payload, List.take_append, List.take_take, List.length_take, List.length_drop,
    List.take_replicate, Nat.min_self, payloadSize, blockDataSize]
  congr 2
  omega

/-- The payloads are the bitstream as far as it goes, and zeros. -/
theorem flatMap_payload (bitstream : Bytes) : ∀ n,
    ((List.range n).flatMap fun i => (payload bitstream (i * payloadSize)).take payloadSize) =
      bitstream.take (payloadSize * n) ++
        List.replicate (payloadSize * n - bitstream.length) 0
  | 0 => by simp
  | n + 1 => by
    have ih := flatMap_payload bitstream n
    rw [List.range_succ, List.flatMap_append, ih, List.flatMap_singleton, take_payload,
      Nat.mul_comm n, Nat.mul_succ, List.take_add]
    rcases Nat.lt_or_ge (payloadSize * n) bitstream.length with hlt | hge
    · have hzero : payloadSize * n - bitstream.length = 0 := by omega
      have hpad : payloadSize - (bitstream.length - payloadSize * n) =
          payloadSize * n + payloadSize - bitstream.length := by omega
      rw [hzero, hpad]
      simp
    · have hpad : payloadSize * n + payloadSize - bitstream.length =
          (payloadSize * n - bitstream.length) + payloadSize := by omega
      have hfull : payloadSize - (bitstream.length - payloadSize * n) = payloadSize := by omega
      rw [hpad, hfull, List.drop_eq_nil_of_le hge, List.replicate_add]
      simp

/-- **The file is the bitstream.** A reader finds its blocks in order, with their fields, and places
the bitstream at the base address, zeros behind it, each byte at the next address. -/
theorem writeUf2_placed (bitstream : Bytes) {base : ℕ}
    (hroom : base + 256 * (bitstream.length ⌈/⌉ 256) ≤ 2 ^ 32) :
    ∃ file blocks, writeUf2 bitstream base = some file ∧
      file.length = 512 * (bitstream.length ⌈/⌉ 256) ∧ Uf2.read file = some blocks ∧
      blocks.length = bitstream.length ⌈/⌉ 256 ∧
      (∀ i (hi : i < blocks.length), blocks[i].flags = flagFamilyIdPresent ∧
        blocks[i].family = familyId ∧ blocks[i].number = i ∧
        blocks[i].count = bitstream.length ⌈/⌉ 256 ∧ blocks[i].size = 256) ∧
      (placed blocks).map Prod.fst =
        bitstream ++ List.replicate (256 * (bitstream.length ⌈/⌉ 256) - bitstream.length) 0 ∧
      (placed blocks).map Prod.snd = List.range' base (256 * (bitstream.length ⌈/⌉ 256)) := by
  have hfile := writeUf2_eq bitstream hroom
  have hfull : bitstream.length ≤ 256 * (bitstream.length ⌈/⌉ 256) := le_smul_ceilDiv (by decide : 0 < 256)
  unfold payloadSize at hfile
  generalize bitstream.length ⌈/⌉ 256 = count at *
  have hvalid : ∀ b ∈ (List.range count).map (blockAt bitstream base count), b.Valid := by
    intro b hb
    obtain ⟨i, hi, rfl⟩ := List.mem_map.mp hb
    have hlt := List.mem_range.mp hi
    exact valid_blockAt bitstream (by omega) hlt (by unfold payloadSize; omega)
  have hplaced := placed_eq_zipIdx (f := blockAt bitstream base count) (fun _ => rfl) (fun _ => rfl)
    (fun i => by rw [blockAt, length_payload]; decide) count
  have hbytes : ((List.range count).flatMap fun i =>
      (blockAt bitstream base count i).data.take 256) =
        bitstream ++ List.replicate (256 * count - bitstream.length) 0 := by
    have h := flatMap_payload bitstream count
    rw [payloadSize, List.take_of_length_le hfull] at h
    exact h
  refine ⟨_, _, hfile, ?_, read_encode hvalid, ?_, fun i hi => ?_, ?_, ?_⟩
  · rw [length_flatMap_encode hvalid]
    simp
  · simp
  · simp [blockAt, payloadSize]
  · rw [hplaced, hbytes, List.zipIdx_map_fst]
  · rw [hplaced, hbytes, List.zipIdx_map_snd, List.length_append, List.length_replicate]
    congr 1
    omega

/-- Three hundred bytes, in two blocks. -/
def ramp : Bytes := (List.range 300).map Nat.toUInt8

theorem length_ramp : ramp.length = 300 := by
  rw [ramp, List.length_map, List.length_range]

theorem writeUf2_placed_ramp : ∃ file blocks, writeUf2 ramp 4096 = some file ∧
    file.length = 1024 ∧ Uf2.read file = some blocks ∧ blocks.length = 2 ∧
    (placed blocks).map Prod.fst = ramp ++ List.replicate 212 0 ∧
    (placed blocks).map Prod.snd = List.range' 4096 512 := by
  have hcount : ramp.length ⌈/⌉ 256 = 2 := by
    rw [length_ramp, Nat.ceilDiv_eq_add_pred_div]
  have hroom : 4096 + 256 * (ramp.length ⌈/⌉ 256) ≤ 2 ^ 32 := by
    rw [hcount]
    decide
  obtain ⟨file, blocks, hfile, hsize, hread, hblocks, -, hbytes, haddresses⟩ :=
    writeUf2_placed ramp hroom
  simp only [hcount] at hsize hblocks hbytes haddresses
  rw [length_ramp] at hbytes
  exact ⟨file, blocks, hfile, hsize, hread, hblocks, hbytes, haddresses⟩

end Sonata
end Xc7Tools
