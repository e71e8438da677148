/-
# rgmii_lfsr: the parallel LFSR

`examples/vc707-ethmin/rtl/rgmii_lfsr.sv`: the module shifts `DATA_WIDTH`
bits through a register of `LFSR_WIDTH` cells in one pass. Its `initial` block
simulates the register on masks, a `Row` of them for each cell and each output
bit (`masks`), and two styles of circuit then sum the bits that the masks
select (`reductionSum`, `loopSum`). That is right for the masks it computes: both
styles shift the data through the register bit by bit (`serial`), whatever
the widths, the polynomial and the configuration.

`crcNext` is the instance in the MAC, the CRC-32 of Ethernet: a byte into
the register of `Crc`, bit 0 first, with the cells in the other order.

Key definitions: `Row`, `Params`, `masks`, `stateOut`, `dataOut`, `serial`, `crcNext`.
Key theorems: `stateOut_eq`, `dataOut_eq`, `circuits_shift_serially`, `circuits_words`, `crcNext_eq`.
-/
import Xc7Tools.Lib.Crc
import Xc7Tools.Lib.Lfsr

namespace Xc7Tools
namespace EthMac

open Lfsr

/-- The parameters; any LFSR_CONFIG but the two is an error at elaboration. -/
structure Params where
  lfsrWidth : ℕ
  lfsrPoly : ℕ
  lfsrConfig : Config
  lfsrFeedForward : Bool
  reverse : Bool
  dataWidth : ℕ

/-- STYLE_INT. AUTO is one of the two. -/
inductive Style where
  | reduction
  | loop
  deriving DecidableEq

/-- The masks of a cell: the bits of the state and of the data it is the sum of. They are computed
together, as `state_val` and `data_val` are. -/
structure Row (w d : ℕ) where
  state : BitVec w
  data : BitVec d

namespace Row

variable {w d : ℕ}

/-- `state_val = lfsr_mask_state[j] ^ state_val`, and the same for the data. -/
def xor (a b : Row w d) : Row w d := ⟨a.state ^^^ b.state, a.data ^^^ b.data⟩

/-- The bits of both masks in the other order. -/
def reverse (r : Row w d) : Row w d := ⟨r.state.reverse, r.data.reverse⟩

/-- The sum of the bits a row selects. -/
def eval (state : BitVec w) (data : BitVec d) (r : Row w d) : Bool :=
  parity (state &&& r.state) ^^ parity (data &&& r.data)

theorem eval_xor (state : BitVec w) (data : BitVec d) (a b : Row w d) :
    (a.xor b).eval state data = (a.eval state data ^^ b.eval state data) := by
  simp only [eval, xor, parity_and_xor]
  cases parity (state &&& a.state) <;> cases parity (state &&& b.state) <;>
    cases parity (data &&& a.data) <;> simp

theorem reverse_and {n : ℕ} (u v : BitVec n) : u.reverse &&& v = (u &&& v.reverse).reverse := by
  apply BitVec.eq_of_getLsbD_eq
  intro i hi
  simp only [BitVec.getLsbD_and, BitVec.getLsbD_reverse, BitVec.getMsbD_and, BitVec.getMsbD_reverse]

theorem eval_reverse (state : BitVec w) (data : BitVec d) (r : Row w d) :
    r.reverse.eval state data = r.eval state.reverse data.reverse := by
  rw [eval, eval, reverse_and, reverse_and, parity_reverse, parity_reverse]
  rfl

end Row

/-! ### The `initial` block -/

/-- "init bit masks" -/
def initMasks (p : Params) : Reg (Row p.lfsrWidth p.dataWidth) :=
  ⟨fun i => ⟨BitVec.twoPow _ i, 0⟩, fun i => ⟨BitVec.twoPow _ i, 0⟩⟩

/-- The data bits `1 << i`, from the top one to bit 0. -/
def dataRows (p : Params) : List (Row p.lfsrWidth p.dataWidth) :=
  (List.range p.dataWidth).reverse.map fun i => ⟨0, BitVec.twoPow _ i⟩

/-- "simulate shift register" -/
def simulate (p : Params) : Reg (Row p.lfsrWidth p.dataWidth) :=
  run Row.xor p.lfsrWidth p.lfsrPoly p.lfsrFeedForward p.lfsrConfig (initMasks p) (dataRows p)

/-- The masks, "reverse bits if selected". -/
def masks (p : Params) : Reg (Row p.lfsrWidth p.dataWidth) :=
  if p.reverse then
    ⟨fun i => ((simulate p).cells (p.lfsrWidth - 1 - i)).reverse,
      fun i => ((simulate p).out (p.dataWidth - 1 - i)).reverse⟩
  else simulate p

/-! ### The circuit -/

variable {w d : ℕ}

/-- `^{(state_in & mask_state), (data_in & mask_data)}` -/
def reductionSum (state : BitVec w) (data : BitVec d) (r : Row w d) : Bool :=
  parity ((state &&& r.state) ++ (data &&& r.data))

/-- The nested loops: a bit is added where the mask has one. -/
def loopSum (state : BitVec w) (data : BitVec d) (r : Row w d) : Bool :=
  let acc := (List.range w).foldl
    (fun acc j => if r.state.getLsbD j then acc ^^ state.getLsbD j else acc) false
  (List.range d).foldl (fun acc j => if r.data.getLsbD j then acc ^^ data.getLsbD j else acc) acc

def Style.select : Style → BitVec w → BitVec d → Row w d → Bool
  | .reduction => reductionSum
  | .loop => loopSum

/-- `state_out` -/
def stateOut (p : Params) (style : Style) (data : BitVec p.dataWidth) (state : BitVec p.lfsrWidth) :
    BitVec p.lfsrWidth :=
  ofBits _ fun n => style.select state data ((masks p).cells n)

/-- `data_out` -/
def dataOut (p : Params) (style : Style) (data : BitVec p.dataWidth) (state : BitVec p.lfsrWidth) :
    BitVec p.dataWidth :=
  ofBits _ fun n => style.select state data ((masks p).out n)

/-! ### The two styles -/

theorem reductionSum_eq (state : BitVec w) (data : BitVec d) (r : Row w d) :
    reductionSum state data r = r.eval state data := by
  rw [reductionSum, parity_append, Bool.xor_comm, Row.eval]

theorem foldl_loop {n : ℕ} (mask v : BitVec n) (acc : Bool) : ∀ k,
    (List.range k).foldl (fun acc j => if mask.getLsbD j then acc ^^ v.getLsbD j else acc) acc =
      (acc ^^ sum (v &&& mask).getLsbD k)
  | 0 => by simp [sum]
  | k + 1 => by
    rw [List.range_succ, List.foldl_append, foldl_loop mask v acc k]
    simp only [List.foldl_cons, List.foldl_nil, sum, BitVec.getLsbD_and]
    cases mask.getLsbD k <;> simp

theorem loopSum_eq (state : BitVec w) (data : BitVec d) (r : Row w d) :
    loopSum state data r = r.eval state data := by
  simp only [loopSum, foldl_loop, Bool.false_xor, Row.eval, parity]

@[simp] theorem select_eq (style : Style) (state : BitVec w) (data : BitVec d) (r : Row w d) :
    style.select state data r = r.eval state data := by
  cases style
  · exact reductionSum_eq state data r
  · exact loopSum_eq state data r

/-! ### The register, bit by bit -/

/-- The register with the bits of `state` in it, after the bits of `data`, the top one first. -/
def shifted (p : Params) (data : BitVec p.dataWidth) (state : BitVec p.lfsrWidth) : Reg Bool :=
  run Bool.xor p.lfsrWidth p.lfsrPoly p.lfsrFeedForward p.lfsrConfig
    ⟨state.getLsbD, state.getLsbD⟩ ((List.range p.dataWidth).reverse.map data.getLsbD)

/-- What the module's description says it does: the data through the register bit by bit, the state
and the outputs in the other order if REVERSE is set. -/
def serial (p : Params) (data : BitVec p.dataWidth) (state : BitVec p.lfsrWidth) :
    BitVec p.lfsrWidth × BitVec p.dataWidth :=
  if p.reverse then
    let r := shifted p data.reverse state.reverse
    ((ofBits _ r.cells).reverse, (ofBits _ r.out).reverse)
  else
    let r := shifted p data state
    (ofBits _ r.cells, ofBits _ r.out)

/-- The masks of the simulated register select what the register holds. -/
theorem simulate_map (p : Params) (data : BitVec p.dataWidth) (state : BitVec p.lfsrWidth) :
    (simulate p).map (Row.eval state data) = shifted p data state := by
  have hinit : (initMasks p).map (Row.eval state data) = ⟨state.getLsbD, state.getLsbD⟩ := by
    simp [initMasks, Reg.map, Row.eval, parity_twoPow, parity_zero]
  have hrows : (dataRows p).map (Row.eval state data) =
      (List.range p.dataWidth).reverse.map data.getLsbD := by
    simp [dataRows, Row.eval, parity_twoPow, parity_zero]
  rw [simulate, run_map _ _ _ (Row.eval_xor state data), hinit, hrows, shifted]

theorem eval_cells (p : Params) (data : BitVec p.dataWidth) (state : BitVec p.lfsrWidth) (n : ℕ) :
    ((simulate p).cells n).eval state data = (shifted p data state).cells n := by
  rw [← simulate_map]
  rfl

theorem eval_out (p : Params) (data : BitVec p.dataWidth) (state : BitVec p.lfsrWidth) (n : ℕ) :
    ((simulate p).out n).eval state data = (shifted p data state).out n := by
  rw [← simulate_map]
  rfl

theorem reverse_ofBits (f : ℕ → Bool) (n : ℕ) :
    (ofBits n f).reverse = ofBits n fun i => f (n - 1 - i) := by
  apply BitVec.eq_of_getLsbD_eq
  intro i hi
  rw [getLsbD_ofBits _ hi, BitVec.getLsbD_reverse, BitVec.getMsbD, getLsbD_ofBits f (by omega)]
  simp [hi]

theorem stateOut_eq (p : Params) (style : Style) (data : BitVec p.dataWidth)
    (state : BitVec p.lfsrWidth) : stateOut p style data state = (serial p data state).1 := by
  unfold stateOut serial masks
  cases p.reverse <;>
    simp [Row.eval_reverse, eval_cells, reverse_ofBits]

theorem dataOut_eq (p : Params) (style : Style) (data : BitVec p.dataWidth)
    (state : BitVec p.lfsrWidth) : dataOut p style data state = (serial p data state).2 := by
  unfold dataOut serial masks
  cases p.reverse <;>
    simp [Row.eval_reverse, eval_out, reverse_ofBits]

/-- **The circuit is the register**, in both styles and for all parameters. -/
theorem circuits_shift_serially (p : Params) (style : Style) (data : BitVec p.dataWidth)
    (state : BitVec p.lfsrWidth) :
    (stateOut p style data state, dataOut p style data state) = serial p data state :=
  Prod.ext (stateOut_eq p style data state) (dataOut_eq p style data state)

/-! ### The register as a word -/

/-- The register with the bits of `state` in it after some bits, as words. -/
def wordsAfter (p : Params) (q state : BitVec p.lfsrWidth) (xs : List Bool) :
    Words p.lfsrWidth p.dataWidth :=
  Words.feed p.lfsrConfig p.lfsrFeedForward q ⟨state, state.setWidth _⟩ xs

/-- The bits of a word, bit 0 first. -/
def lsbFirst (data : BitVec d) : List Bool := (List.range d).map data.getLsbD

theorem reverse_bits (data : BitVec d) :
    (List.range d).reverse.map data.reverse.getLsbD = lsbFirst data := by
  apply List.ext_getElem
  · simp [lsbFirst]
  · intro i hi hi'
    have hlt : i < d := by simpa using hi
    simp only [lsbFirst, List.getElem_map, List.getElem_reverse, List.getElem_range,
      List.length_range, BitVec.getLsbD_reverse, BitVec.getMsbD]
    have hidx : d - 1 - (d - 1 - i) = i := by omega
    rw [hidx, decide_eq_true (by omega), Bool.true_and]

section Words

variable (p : Params) (hw : 0 < p.lfsrWidth) {q : BitVec p.lfsrWidth}
  (hq : ∀ j < p.lfsrWidth, q.getLsbD j = (decide (j = 0) || p.lfsrPoly.testBit j))
include hw hq

theorem ofBits_shifted (data : BitVec p.dataWidth) (state : BitVec p.lfsrWidth) :
    (ofBits _ (shifted p data state).cells, ofBits _ (shifted p data state).out) =
      ((wordsAfter p q state ((List.range p.dataWidth).reverse.map data.getLsbD)).state,
        (wordsAfter p q state ((List.range p.dataWidth).reverse.map data.getLsbD)).out) := by
  have hstart : (⟨state, state.setWidth p.dataWidth⟩ : Words _ _).Holds
      ⟨state.getLsbD, state.getLsbD⟩ :=
    ⟨fun _ _ => rfl, fun j hj => by rw [BitVec.getLsbD_setWidth, decide_eq_true hj, Bool.true_and]⟩
  have hend := hstart.feed hw hq p.lfsrConfig p.lfsrFeedForward
    ((List.range p.dataWidth).reverse.map data.getLsbD)
  exact Prod.ext ((ofBits_congr hend.cells).trans (ofBits_getLsbD _))
    ((ofBits_congr hend.out).trans (ofBits_getLsbD _))

/-- **The circuit is the register as a word**: with REVERSE the data is shifted in from bit 0, and
the words are in the other order. -/
theorem circuits_words (style : Style) (data : BitVec p.dataWidth) (state : BitVec p.lfsrWidth) :
    (stateOut p style data state, dataOut p style data state) =
      if p.reverse then
        let r := wordsAfter p q state.reverse (lsbFirst data)
        (r.state.reverse, r.out.reverse)
      else
        let r := wordsAfter p q state ((List.range p.dataWidth).reverse.map data.getLsbD)
        (r.state, r.out) := by
  rw [stateOut_eq, dataOut_eq, Prod.mk.eta, serial]
  cases p.reverse with
  | false => exact ofBits_shifted p hw hq data state
  | true =>
    have h := ofBits_shifted p hw hq data.reverse state.reverse
    rw [reverse_bits] at h
    exact congrArg (Prod.map BitVec.reverse BitVec.reverse) h

end Words

/-! ### The CRC-32 of the MAC -/

/-- **A Galois circuit with REVERSE is a CRC** of the word, bit 0 first; its cells are in the other
order. -/
theorem stateOut_crc (p : Params) (style : Style) (hw : 0 < p.lfsrWidth)
    (hconfig : p.lfsrConfig = .galois) (hforward : p.lfsrFeedForward = false)
    (hreverse : p.reverse = true) {q : BitVec p.lfsrWidth}
    (hq : ∀ j < p.lfsrWidth, q.getLsbD j = (decide (j = 0) || p.lfsrPoly.testBit j))
    (data : BitVec p.dataWidth) (state : BitVec p.lfsrWidth) :
    stateOut p style data state = (Crc.feed q state.reverse (lsbFirst data)).reverse := by
  have hwords := congrArg Prod.fst (circuits_words p hw hq style data state)
  rw [if_pos hreverse, wordsAfter, hconfig, hforward] at hwords
  exact hwords.trans (congrArg BitVec.reverse (feed_galois q _ _))

/-- `eth_crc_8` -/
def ethCrc8 : Params where
  lfsrWidth := 32
  lfsrPoly := 0x4c11db7
  lfsrConfig := .galois
  lfsrFeedForward := false
  reverse := true
  dataWidth := 8

/-- `crc_next` of a byte. "AUTO" is REDUCTION: SIMULATION is defined right above. -/
def crcNext (data : BitVec 8) (crcState : BitVec 32) : BitVec 32 :=
  stateOut ethCrc8 .reduction data crcState

/-- The polynomial of Ethernet. -/
def poly : BitVec 32 := 0x04C11DB7

theorem crcNext_eq (data : BitVec 8) (crcState : BitVec 32) :
    crcNext data crcState = (Crc.feed poly crcState.reverse (lsbFirst data)).reverse :=
  stateOut_crc ethCrc8 .reduction (by decide) rfl rfl rfl (q := poly) (by decide) data crcState

end EthMac
end Xc7Tools
