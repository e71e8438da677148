/-
# The frames of the MAC

What a frame looks like on the GMII: seven bytes of preamble, the start of
frame delimiter, the bytes of the frame with its padding, and the frame check
sequence, the inverted register of the CRC with its low byte first
(`encode`). The padding brings `frame_ptr`, which counts 16 bits, to
MIN_FRAME_LENGTH - 5.

A register that has also taken the check bytes is at the residue of the CRC-32
if they are the inverted register, and at another value if not
(`crcBytes_check`).

Key definitions: `crcBytes`, `padded`, `fcsBytes`, `encode`, `residue`.
Key theorems: `crcBytes_eq`, `crcBytes_check`, `crcBytes_fcs`.
-/
import Xc7Tools.EthMac.Gateware

namespace Xc7Tools
namespace EthMac

/-- The register after the bytes of a list. -/
def crcBytes (c : BitVec 32) (bs : List (BitVec 8)) : BitVec 32 :=
  bs.foldl (fun c b => crcNext b c) c

@[simp] theorem crcBytes_nil (c : BitVec 32) : crcBytes c [] = c := rfl

theorem crcBytes_cons (c : BitVec 32) (b : BitVec 8) (bs : List (BitVec 8)) :
    crcBytes c (b :: bs) = crcBytes (crcNext b c) bs := rfl

theorem crcBytes_append (c : BitVec 32) (bs bs' : List (BitVec 8)) :
    crcBytes c (bs ++ bs') = crcBytes (crcBytes c bs) bs' := List.foldl_append

theorem crcBytes_concat (c : BitVec 32) (bs : List (BitVec 8)) (b : BitVec 8) :
    crcBytes c (bs ++ [b]) = crcNext b (crcBytes c bs) := crcBytes_append c bs [b]

/-! ### On the GMII -/

/-- The zeros after a frame of `n` bytes. -/
def padding (cfg : Tx.Config) (n : ℕ) : ℕ :=
  if cfg.enablePadding then (cfg.minFrameLength - 5).toNat - (n - 1) % 65536 else 0

/-- A frame with its padding. -/
def padded (cfg : Tx.Config) (f : List (BitVec 8)) : List (BitVec 8) :=
  f ++ List.replicate (padding cfg f.length) 0

/-- The check bytes of a register. -/
def fcsBytes (c : BitVec 32) : List (BitVec 8) := (List.range 4).map (Tx.fcsByte c)

/-- The preamble and the delimiter. -/
def header : List (BitVec 8) := List.replicate 7 ethPre ++ [ethSfd]

/-- The frame check sequence of some bytes. -/
def checkOf (bs : List (BitVec 8)) : List (BitVec 8) := fcsBytes (crcBytes crcInit bs)

/-- A frame on the GMII. -/
def encode (cfg : Tx.Config) (f : List (BitVec 8)) : List (BitVec 8) :=
  header ++ padded cfg f ++ checkOf (padded cfg f)

@[simp] theorem length_header : header.length = 8 := rfl

@[simp] theorem length_fcsBytes (c : BitVec 32) : (fcsBytes c).length = 4 := by simp [fcsBytes]

@[simp] theorem length_checkOf (bs : List (BitVec 8)) : (checkOf bs).length = 4 := by simp [checkOf]

theorem length_padded (cfg : Tx.Config) (f : List (BitVec 8)) :
    (padded cfg f).length = f.length + padding cfg f.length := by
  simp [padded]

theorem length_encode (cfg : Tx.Config) (f : List (BitVec 8)) :
    (encode cfg f).length = 12 + (padded cfg f).length := by
  simp only [encode, List.length_append, length_header, length_checkOf]
  omega

/-! ### The residue -/

/-- What the CRC-32 of a frame and its check comes to. -/
def residue : BitVec 32 := 0xDEBB20E3

theorem residue_eq : residue = (Crc.residue poly).reverse := by decide +kernel

theorem reverse_reverse {n : ℕ} (v : BitVec n) : v.reverse.reverse = v := by
  apply BitVec.eq_of_getLsbD_eq
  intro i _
  rw [BitVec.getLsbD_reverse, BitVec.getMsbD_reverse]

theorem reverse_inj {n : ℕ} {u v : BitVec n} : u.reverse = v.reverse ↔ u = v :=
  ⟨fun h => by rw [← reverse_reverse u, h, reverse_reverse], fun h => by rw [h]⟩

theorem reverse_not {n : ℕ} (v : BitVec n) : (~~~v).reverse = ~~~v.reverse := by
  apply BitVec.eq_of_getLsbD_eq
  intro i _
  simp only [BitVec.getLsbD_reverse, BitVec.getLsbD_not, BitVec.getMsbD_not]

/-- The bytes go into the register bit by bit. -/
theorem crcBytes_eq : ∀ (bs : List (BitVec 8)) (c : BitVec 32),
    crcBytes c bs = (Crc.feed poly c.reverse (bs.flatMap lsbFirst)).reverse
  | [], c => (reverse_reverse c).symm
  | b :: bs, c => by
    rw [List.flatMap_cons, Crc.feed_append, ← reverse_reverse (Crc.feed poly c.reverse _),
      ← crcNext_eq, ← crcBytes_eq bs]
    rfl

theorem lsbFirst_append {m n : ℕ} (u : BitVec m) (v : BitVec n) :
    lsbFirst (u ++ v) = lsbFirst v ++ lsbFirst u := by
  have hrange : List.range (m + n) = List.range n ++ (List.range m).map (n + ·) := by
    rw [Nat.add_comm, List.range_add]
  simp only [lsbFirst]
  rw [hrange, List.map_append, List.map_map]
  congr 1
  · refine List.map_congr_left fun i hi => ?_
    rw [BitVec.getLsbD_append, if_pos (List.mem_range.mp hi)]
  · refine List.map_congr_left fun i _ => ?_
    simp [BitVec.getLsbD_append]

theorem top_reverse {n : ℕ} (v : BitVec n) : Crc.top v.reverse = lsbFirst v := by
  simp only [Crc.top, lsbFirst]
  exact List.map_congr_left fun i _ => BitVec.getMsbD_reverse

/-- The bits of four bytes are those of the word they make, its low byte first. -/
theorem lsbFirst_word (b0 b1 b2 b3 : BitVec 8) :
    [b0, b1, b2, b3].flatMap lsbFirst = Crc.top (b3 ++ b2 ++ b1 ++ b0).reverse := by
  rw [top_reverse, lsbFirst_append, lsbFirst_append, lsbFirst_append]
  simp

/-- **The residue shows a right check**, and only a right one. -/
theorem crcBytes_check (c : BitVec 32) (b0 b1 b2 b3 : BitVec 8) :
    crcBytes c [b0, b1, b2, b3] = residue ↔ b3 ++ b2 ++ b1 ++ b0 = ~~~c := by
  rw [crcBytes_eq, lsbFirst_word, residue_eq, reverse_inj, Crc.feed_top_eq_iff (by decide),
    ← reverse_not, reverse_inj]

theorem fcsByte_word (c : BitVec 32) :
    Tx.fcsByte c 3 ++ Tx.fcsByte c 2 ++ Tx.fcsByte c 1 ++ Tx.fcsByte c 0 = ~~~c := by
  apply BitVec.eq_of_getLsbD_eq
  intro i hi
  simp only [BitVec.getLsbD_append, Tx.fcsByte, BitVec.getLsbD_not, BitVec.getLsbD_extractLsb']
  split_ifs with h0 h1 h2
  · simp [h0, hi]
  · simp [h1, hi, show 8 + (i - 8) = i by omega]
  · simp [h2, hi, show 16 + (i - 8 - 8) = i by omega]
  · simp [hi, show 24 + (i - 8 - 8 - 8) = i by omega, show i - 8 - 8 - 8 < 8 by omega]

/-- The check of a frame brings the register to the residue. -/
theorem crcBytes_checkOf (bs : List (BitVec 8)) :
    crcBytes crcInit (bs ++ checkOf bs) = residue := by
  rw [crcBytes_append]
  exact (crcBytes_check _ _ _ _ _).mpr (fcsByte_word _)

end EthMac
end Xc7Tools
