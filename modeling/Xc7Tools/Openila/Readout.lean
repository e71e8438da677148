/-
# openila: the readout

USER<DAT> sends the status word and then the memory, word by word, each LSB
first; `Openila.read` on the host cuts the scan into words again, decodes the
first and rotates the others by `waddr`. `readout` says that the two are
inverse, for every earlier content of the shift register and every TDI.

The invariant is `Shifting i b`: `b` bits of word `i` are out. The block RAM
is addressed a word ahead, and the word it holds is ready from the second bit
on (`Shifting.rdata`), so the last bit of word `i` can load word `i + 1`.

Key definitions: `scan`, `Shifting`.
Key theorems: `Shifting.next_bit`, `Shifting.next_word`, `scan_tdo`, `readout`.
-/
import Mathlib.Data.Nat.Bitwise
import Xc7Tools.Lib.Run
import Xc7Tools.Openila.Capture
import Xc7Tools.Openila.Host

namespace Xc7Tools
namespace Openila

variable {W AW : ℕ}

/-! ### One scan -/

/-- A falling edge of DRCK and the SHIFT edge after it. -/
def shiftEdge (s : Cap W AW) (d : Dat W AW) (tdi : Bool) : Dat W AW :=
  d.fall.rise s.mem s.status true false true tdi

/-- The register after the CAPTURE edge (with any SHIFT and TDI) and `n` SHIFT
edges, while the FSM `s` stands still. -/
def scan (s : Cap W AW) (d : Dat W AW) (shift tdi0 : Bool) (tdi : ℕ → Bool) (n : ℕ) : Dat W AW :=
  Run.stateAt (shiftEdge s) tdi (d.rise s.mem s.status true true shift tdi0) n

/-- The integer `user_dr` assembles, LSB first, from the TDO bits before each
of `nbits` SHIFT edges. -/
def scanOut (s : Cap W AW) (d : Dat W AW) (shift tdi0 : Bool) (tdi : ℕ → Bool) (nbits : ℕ) : ℕ :=
  Nat.ofBits fun i : Fin nbits => (scan s d shift tdi0 tdi i).tdo

/-- Word `i` of the scan: the header, then the memory from slot 0 on. -/
def scanWord (s : Cap W AW) : ℕ → BitVec W
  | 0 => s.status.setWidth W
  | i + 1 => s.mem (BitVec.ofNat AW i)

/-- `b` bits of word `i` are out. -/
structure Shifting (s : Cap W AW) (i b : ℕ) (d : Dat W AW) : Prop where
  raddr : d.raddr = BitVec.ofNat AW i
  bitn : d.bitn = BitVec.ofNat 16 b
  rdata : 1 ≤ b → d.rdata = s.mem (BitVec.ofNat AW i)
  dsr : ∀ k, k + b < W → d.dsr.getLsbD k = (scanWord s i).getLsbD (k + b)

theorem shifting_capture (s : Cap W AW) (d : Dat W AW) (shift tdi : Bool) :
    Shifting s 0 0 (d.rise s.mem s.status true true shift tdi) :=
  ⟨rfl, rfl, fun h => absurd h (by omega), fun _ _ => rfl⟩

/-- The counter tells the last bit of a word from the others. -/
theorem bitn_toNat {b : ℕ} (hb : b < W) (hW : W ≤ 65536) : (BitVec.ofNat 16 b).toNat = b := by
  rw [BitVec.toNat_ofNat]
  exact Nat.mod_eq_of_lt (by omega)

/-- One bit further in a word. -/
theorem Shifting.next_bit {s : Cap W AW} {d : Dat W AW} {i b : ℕ} (h : Shifting s i b d)
    (hW : W ≤ 65536) (hb : b + 1 < W) (tdi : Bool) :
    Shifting s i (b + 1) (shiftEdge s d tdi) := by
  have hne : ¬ d.bitn.toNat = W - 1 := by
    rw [h.bitn, bitn_toNat (by omega) hW]; omega
  have hstep : shiftEdge s d tdi =
      { d.fall with rdata := s.mem d.raddr, dsr := shiftIn tdi d.dsr, bitn := d.bitn + 1 } := by
    simp [shiftEdge, Dat.rise, Dat.fall, hne]
  rw [hstep]
  refine ⟨h.raddr, ?_, fun _ => by simp only [h.raddr], fun k hk => ?_⟩
  · rw [h.bitn, BitVec.ofNat_add]; rfl
  · simp only
    rw [shiftIn_getLsbD tdi d.dsr (by omega), if_neg (by omega), h.dsr (k + 1) (by omega)]
    congr 1
    omega

/-- From the last bit of a word to the first of the next. -/
theorem Shifting.next_word {s : Cap W AW} {d : Dat W AW} {i : ℕ} (h : Shifting s i (W - 1) d)
    (hW2 : 2 ≤ W) (hW : W ≤ 65536) (tdi : Bool) : Shifting s (i + 1) 0 (shiftEdge s d tdi) := by
  have he : d.bitn.toNat = W - 1 := by rw [h.bitn, bitn_toNat (by omega) hW]
  have hstep : shiftEdge s d tdi =
      { d.fall with rdata := s.mem d.raddr, dsr := d.rdata, raddr := d.raddr + 1, bitn := 0 } := by
    simp [shiftEdge, Dat.rise, Dat.fall, he]
  rw [hstep]
  refine ⟨?_, rfl, fun h0 => absurd h0 (by omega), fun k hk => ?_⟩
  · rw [h.raddr, BitVec.ofNat_add]; rfl
  · simp only [h.rdata (by omega), scanWord, Nat.add_zero]

section Scan

variable {s : Cap W AW} {d : Dat W AW} {shift tdi0 : Bool} {tdi : ℕ → Bool}

/-- The bits of the word that starts at SHIFT edge `n`. -/
theorem shifting_bits (hW : W ≤ 65536) {i n : ℕ}
    (h : Shifting s i 0 (scan s d shift tdi0 tdi n)) (b : ℕ) (hb : b < W) :
    Shifting s i b (scan s d shift tdi0 tdi (n + b)) := by
  apply Run.inv_from (shiftEdge s) (Shifting s i) h
  intro b' hb' ih
  exact ih.next_bit hW (by omega) _

/-- Word `i` starts exactly `W * i` SHIFT edges after CAPTURE. -/
theorem shifting_words (hW2 : 2 ≤ W) (hW : W ≤ 65536) :
    ∀ i, Shifting s i 0 (scan s d shift tdi0 tdi (W * i))
  | 0 => shifting_capture s d shift tdi0
  | i + 1 => by
    have hlast := shifting_bits hW (shifting_words hW2 hW i) (W - 1) (by omega)
    have hedge : W * (i + 1) = W * i + (W - 1) + 1 := by rw [Nat.mul_succ]; omega
    rw [hedge]
    exact hlast.next_word hW2 hW _

/-- TDO before SHIFT edge `W * i + b` is bit `b` of word `i`. -/
theorem scan_tdo (hW2 : 2 ≤ W) (hW : W ≤ 65536) (i b : ℕ) (hb : b < W) :
    (scan s d shift tdi0 tdi (W * i + b)).tdo = (scanWord s i).getLsbD b := by
  have h0 : Shifting s i 0 (scan s d shift tdi0 tdi (W * i)) := shifting_words hW2 hW i
  have h := (shifting_bits hW h0 b hb).dsr 0 (by omega)
  rwa [Nat.zero_add] at h

/-- The host's word `i` is the gateware's. -/
theorem scanOut_word (hW2 : 2 ≤ W) (hW : W ≤ 65536) (n i : ℕ) (hi : i < n) :
    (scanOut s d shift tdi0 tdi (n * W) >>> (W * i)) &&& ((1 <<< W) - 1) =
      (scanWord s i).toNat := by
  apply Nat.eq_of_testBit_eq
  intro b
  rw [Nat.one_shiftLeft, Nat.and_two_pow_sub_one_eq_mod, Nat.testBit_mod_two_pow,
    Nat.testBit_shiftRight, BitVec.testBit_toNat, scanOut, Nat.testBit_ofBits]
  by_cases hb : b < W
  · have hlt : W * i + b < n * W := by
      calc W * i + b < W * i + W := Nat.add_lt_add_left hb _
        _ = W * (i + 1) := (Nat.mul_succ W i).symm
        _ ≤ W * n := Nat.mul_le_mul_left W hi
        _ = n * W := Nat.mul_comm W n
    simp only [hb, decide_true, Bool.true_and, hlt, ↓reduceDIte, scan_tdo hW2 hW i b hb]
  · simp only [hb, decide_false, Bool.false_and]
    exact (BitVec.getLsbD_of_ge _ _ (by omega)).symm

end Scan

/-! ### The host -/

/-- The memory from slot 0 on, rotated by `waddr`, is the rows in order. -/
theorem rotate_rows (s : Cap W AW) :
    let ws := (List.range (2 ^ AW)).map fun i => (s.mem (BitVec.ofNat AW i)).toNat
    ws.drop s.waddr.toNat ++ ws.take s.waddr.toNat =
      (List.range (2 ^ AW)).map fun r => (s.row r).toNat := by
  have hw := s.waddr.isLt
  apply List.ext_getElem
  · simp; omega
  · intro r h1 h2
    simp only [List.length_map, List.length_range] at h2
    simp only [List.getElem_map, List.getElem_range, Cap.row]
    by_cases hr : r < 2 ^ AW - s.waddr.toNat
    · rw [List.getElem_append_left (by simpa using hr)]
      simp only [List.getElem_drop, List.getElem_map, List.getElem_range]
    · rw [List.getElem_append_right (by simp; omega)]
      simp only [List.getElem_take, List.getElem_map, List.getElem_range, List.length_drop,
        List.length_map, List.length_range]
      congr 2
      apply BitVec.eq_of_toNat_eq
      rw [BitVec.toNat_ofNat, BitVec.toNat_ofNat,
        show s.waddr.toNat + r = r - (2 ^ AW - s.waddr.toNat) + 2 ^ AW by omega,
        Nat.add_mod_right]

/-- A scan of the words the header comment describes, read by `Openila.read`. -/
theorem read_of_words (s : Cap W AW) {v : ℕ} (hAW : 1 ≤ AW) (hSW : AW + 11 ≤ W)
    (hword : ∀ i < 2 ^ AW + 1, (v >>> (W * i)) &&& ((1 <<< W) - 1) = (scanWord s i).toNat) :
    (Host.mk W (2 ^ AW)).read false v =
      ({ waddr := s.waddr.toNat, armed := s.armed.toNat, trig := s.trig.toNat,
         done := s.done.toNat, keyOk := true },
       (List.range (2 ^ AW)).map fun r => (s.row r).toNat) := by
  have hwords : (Host.mk W (2 ^ AW)).words v =
      s.status.toNat :: (List.range (2 ^ AW)).map fun i => (s.mem (BitVec.ofNat AW i)).toNat := by
    have hhead : (scanWord s 0).toNat = s.status.toNat := by
      simp only [scanWord, BitVec.toNat_setWidth]
      exact Nat.mod_eq_of_lt (lt_of_lt_of_le s.status.isLt (Nat.pow_le_pow_right two_pos hSW))
    rw [Host.words, List.map_congr_left fun i hi => hword i (List.mem_range.mp hi),
      List.range_succ_eq_map, List.map_cons, hhead, List.map_map]
    rfl
  simp only [Host.read, hwords, List.headD_cons, List.tail_cons, Host.decodeStatus_status hAW,
    Bool.false_eq_true, ↓reduceIte, rotate_rows]

/-- **Gateware and host are inverse.** One CAPTURE edge and `(DEPTH + 1) * WIDTH`
SHIFT edges on USER<DAT>, read by `Openila.read`, give the status and the
memory from `waddr` on. -/
theorem readout (s : Cap W AW) (d : Dat W AW) (shift tdi0 : Bool) (tdi : ℕ → Bool)
    (hAW : 1 ≤ AW) (hSW : AW + 11 ≤ W) (hW : W ≤ 65536) :
    (Host.mk W (2 ^ AW)).read false (scanOut s d shift tdi0 tdi ((2 ^ AW + 1) * W)) =
      ({ waddr := s.waddr.toNat, armed := s.armed.toNat, trig := s.trig.toNat,
         done := s.done.toNat, keyOk := true },
       (List.range (2 ^ AW)).map fun r => (s.row r).toNat) := by
  apply read_of_words s hAW hSW
  intro i hi
  exact scanOut_word (by omega) hW _ i hi

/-- A finished capture of an instance with the smallest WIDTH, read with
TDI at 1. -/
theorem readout_instance :
    (Host.mk 12 (2 ^ 1)).read false (scanOut
        (⟨0#12, 7#3, true, true, true, 1#1, 1#1, fun a => if a = 0 then 0xABC#12 else 0x123#12⟩ :
          Cap 12 1)
        ⟨1#1, 1#1, 5#12, 0xFFF#12, 0xFFF#12, 7#16, 7#16⟩ false true (fun _ => true)
        ((2 ^ 1 + 1) * 12)) =
      (⟨1, 1, 1, 1, true⟩, [0x123, 0xABC]) :=
  (readout _ _ _ _ _ (by decide) (by decide) (by decide)).trans (by decide)

end Openila
end Xc7Tools
