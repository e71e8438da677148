/-
# eth_stream_dma: the gateware

`examples/vc707-ethmin/rtl/eth_stream_dma.sv`, one Lean definition for each
`always` block: `Rx.clk` and `Tx.clk` on `eth_clk`, `Cpu.clk` on `cpu_clk`.
A register is a field of the same name. Port B of `picosoc_mem_dp` is a memory
of words with its output register: an edge with `mem_en` reads, and with
`mem_we` as well it writes. `Dma` is the module with its memory, `Dma.step` an
edge of either clock with the signals it samples; a run has no reset in it,
and begins where `Dma.Reset` says the two resets leave the module.

Key definitions: `Rx.clk`, `Tx.clk`, `Cpu.clk`, `Dma.step`, `Dma.Reset`.
Key theorems: `Dma.reset_reached`.
-/
import Mathlib.Data.BitVec
import Mathlib.Logic.Function.Basic

namespace Xc7Tools
namespace EthDma

/-- The module's parameters; a WINDOW_WORDS that `rx_word` can hold. -/
structure Params where
  rxWordBase : BitVec 14
  txWordBase : BitVec 14
  windowWords : ℕ
  windowWords_lt : windowWords < 1024

/-- The memory of `picosoc_mem_dp`, its 8192 words. -/
abbrev Mem := BitVec 13 → BitVec 32

/-- `ab = addr_b[12:0]` -/
def ab (addr : BitVec 14) : BitVec 13 := addr.extractLsb' 0 13

/-- What an edge of `eth_clk` samples of the two streams. -/
structure EthIn where
  rxTdata : BitVec 8
  rxTvalid : Bool
  rxTlast : Bool
  rxTuser : Bool
  txTready : Bool
  deriving DecidableEq

/-- What an edge of `cpu_clk` samples. -/
structure CpuIn where
  rxAck : Bool
  txLen : BitVec 11
  txStart : Bool
  deriving DecidableEq

/-- The registers the RX process writes. -/
structure Rx where
  rxByte : BitVec 2
  rxWord : BitVec 10
  rxCount : BitVec 11
  rxHold : BitVec 24
  rxTog : Bool
  rxTruncQ : Bool
  rxPoison : Bool
  rxLenQ : BitVec 11
  rxAckS1 : Bool
  rxAckS2 : Bool
  rxMen : Bool
  rxMwe : Bool
  rxMaddr : BitVec 14
  rxMdata : BitVec 32
  deriving DecidableEq

/-- The registers the TX process writes. -/
structure Tx where
  txRun : Bool
  txIdx : BitVec 11
  sel1 : BitVec 2
  sel2 : BitVec 2
  v1 : Bool
  v2 : Bool
  l1 : Bool
  l2 : Bool
  txNbyte : BitVec 11
  txGoS1 : Bool
  txGoS2 : Bool
  txDoneTog : Bool
  txMen : Bool
  txMaddr : BitVec 14
  tdata : BitVec 8
  tvalid : Bool
  tlast : Bool
  deriving DecidableEq

/-- The registers of the CPU's clock. -/
structure Cpu where
  rxTogS1 : Bool
  rxTogS2 : Bool
  rxAckTogQ : Bool
  txTog : Bool
  txDoneS1 : Bool
  txDoneS2 : Bool
  txLenQ : BitVec 11
  deriving DecidableEq

/-! ### RX -/

namespace Rx

/-- `rx_window_free` -/
def windowFree (s : Rx) : Bool := s.rxTog == s.rxAckS2

/-- `rx_room` -/
def room (p : Params) (s : Rx) : Bool := s.rxWord.toNat < p.windowWords

/-- `rx_full = {rx_axis_tdata, rx_hold}` -/
def full (s : Rx) (tdata : BitVec 8) : BitVec 32 := tdata ++ s.rxHold

/-- The word a beat commits. -/
def word (s : Rx) (tdata : BitVec 8) : BitVec 32 :=
  if s.rxByte = 3 then s.full tdata else s.full tdata >>> (8 * (3 - s.rxByte.toNat))

/-- The part of a beat behind `if (rx_window_free && !tx_run)`. -/
def take (p : Params) (i : EthIn) (s s' : Rx) : Rx :=
  let s' :=
    { s' with
      rxCount := s.rxCount + 1
      rxHold := i.rxTdata ++ s.rxHold.extractLsb' 8 16
      rxByte := s.rxByte + 1 }
  if s.rxByte = 3 ∨ i.rxTlast = true then
    let s' :=
      if s.room p then
        { s' with
          rxMen := true
          rxMwe := true
          rxMaddr := p.rxWordBase + s.rxWord.setWidth 14
          rxMdata := s.word i.rxTdata
          rxWord := s.rxWord + 1 }
      else { s' with rxTruncQ := true }
    { s' with rxByte := 0 }
  else s'

/-- The part of a beat behind `if (rx_axis_tlast)`. -/
def finish (txRun : Bool) (i : EthIn) (s s' : Rx) : Rx :=
  let s' := { s' with rxWord := 0, rxCount := 0, rxByte := 0, rxPoison := false }
  if i.rxTuser || s.rxPoison || !s.windowFree || txRun then { s' with rxTruncQ := false }
  else { s' with rxLenQ := s.rxCount + 1, rxTog := !s.rxTog }

/-- A beat of the stream. -/
def beat (p : Params) (txRun : Bool) (i : EthIn) (s s' : Rx) : Rx :=
  let s' := if !s.windowFree || txRun then { s' with rxPoison := true } else s'
  let s' := if s.windowFree && !txRun then s.take p i s' else s'
  if i.rxTlast then s.finish txRun i s' else s'

/-- The RX process; what it writes goes into the second copy of the state. -/
def clk (p : Params) (rst rxAckTogQ txRun : Bool) (i : EthIn) (s : Rx) : Rx :=
  let s' := { s with rxMen := false, rxMwe := false, rxAckS1 := rxAckTogQ, rxAckS2 := s.rxAckS1 }
  if rst then
    { s' with
      rxByte := 0
      rxWord := 0
      rxCount := 0
      rxTog := false
      rxTruncQ := false
      rxLenQ := 0
      rxPoison := false }
  else if i.rxTvalid then s.beat p txRun i s'
  else s'

end Rx

/-! ### TX -/

namespace Tx

/-- `tx_adv` -/
def adv (s : Tx) (tready : Bool) : Bool := !s.tvalid || tready

/-- The three stages, on an edge on which the output side can take a byte. -/
def advance (p : Params) (rdata : BitVec 32) (s s' : Tx) : Tx :=
  let s' :=
    { s' with
      txMen := s.txIdx < s.txNbyte
      txMaddr := p.txWordBase + (s.txIdx.extractLsb' 2 9).setWidth 14
      sel1 := s.txIdx.extractLsb' 0 2
      v1 := s.txIdx < s.txNbyte
      l1 := s.txIdx + 1 == s.txNbyte
      txIdx := if s.txIdx < s.txNbyte then s.txIdx + 1 else s.txIdx
      sel2 := s.sel1
      v2 := s.v1
      l2 := s.l1
      tdata := rdata.extractLsb' (8 * s.sel2.toNat) 8
      tvalid := s.v2
      tlast := s.l2 }
  if s.v2 && s.l2 then { s' with txRun := false, txDoneTog := s.txGoS2 } else s'

/-- The TX process. -/
def clk (p : Params) (rst txTog : Bool) (txLenQ : BitVec 11) (rdata : BitVec 32) (tready : Bool)
    (s : Tx) : Tx :=
  let s' := { s with txGoS1 := txTog, txGoS2 := s.txGoS1 }
  if rst then
    { s' with
      tvalid := false
      tlast := false
      txRun := false
      txIdx := 0
      txDoneTog := false
      txMen := false
      v1 := false
      v2 := false
      l1 := false
      l2 := false }
  else if !s.txRun then
    let s' :=
      { s' with
        txMen := false
        v1 := false
        v2 := false
        l1 := false
        l2 := false
        tvalid := false
        tlast := false }
    if s.txGoS2 != s.txDoneTog then { s' with txRun := true, txIdx := 0, txNbyte := txLenQ }
    else s'
  else if s.adv tready then s.advance p rdata s'
  else s'

end Tx

/-! ### The CPU's clock -/

namespace Cpu

/-- `rx_valid` -/
def rxValid (s : Cpu) : Bool := s.rxTogS2 != s.rxAckTogQ

/-- `tx_busy` -/
def txBusy (s : Cpu) : Bool := s.txTog != s.txDoneS2

def clk (rst rxTog txDoneTog : Bool) (i : CpuIn) (s : Cpu) : Cpu :=
  if rst then ⟨false, false, false, false, false, false, 0⟩
  else
    { rxTogS1 := rxTog
      rxTogS2 := s.rxTogS1
      rxAckTogQ := if i.rxAck && s.rxValid then !s.rxAckTogQ else s.rxAckTogQ
      txTog := if i.txStart && !s.txBusy then !s.txTog else s.txTog
      txDoneS1 := txDoneTog
      txDoneS2 := s.txDoneS1
      txLenQ := if i.txStart && !s.txBusy then i.txLen else s.txLenQ }

end Cpu

/-! ### The module and its memory -/

structure Dma where
  rx : Rx
  tx : Tx
  cpu : Cpu
  mem : Mem
  rdata : BitVec 32

inductive Event where
  | eth (i : EthIn)
  | cpu (i : CpuIn)
  deriving DecidableEq

namespace Dma

def memEn (s : Dma) : Bool := if s.tx.txRun then s.tx.txMen else s.rx.rxMen

def memWe (s : Dma) : Bool := if s.tx.txRun then false else s.rx.rxMwe

def memAddr (s : Dma) : BitVec 14 := if s.tx.txRun then s.tx.txMaddr else s.rx.rxMaddr

/-- An edge of `eth_clk`. -/
def ethClk (p : Params) (rst : Bool) (i : EthIn) (s : Dma) : Dma :=
  { s with
    rx := s.rx.clk p rst s.cpu.rxAckTogQ s.tx.txRun i
    tx := s.tx.clk p rst s.cpu.txTog s.cpu.txLenQ s.rdata i.txTready
    mem := if s.memEn && s.memWe then Function.update s.mem (ab s.memAddr) s.rx.rxMdata else s.mem
    rdata :=
      if s.memEn then (if s.memWe then s.rx.rxMdata else s.mem (ab s.memAddr)) else s.rdata }

/-- An edge of `cpu_clk`. -/
def cpuClk (rst : Bool) (i : CpuIn) (s : Dma) : Dma :=
  { s with cpu := s.cpu.clk rst s.rx.rxTog s.tx.txDoneTog i }

def step (p : Params) (s : Dma) : Event → Dma
  | .eth i => s.ethClk p false i
  | .cpu i => s.cpuClk false i

def run (p : Params) (s : Dma) (es : List Event) : Dma := es.foldl (step p) s

/-- What the resets leave; the other registers and the memory hold anything. -/
structure Reset (s : Dma) : Prop where
  cpu : s.cpu = ⟨false, false, false, false, false, false, 0⟩
  rxByte : s.rx.rxByte = 0
  rxWord : s.rx.rxWord = 0
  rxCount : s.rx.rxCount = 0
  rxTog : s.rx.rxTog = false
  rxTruncQ : s.rx.rxTruncQ = false
  rxPoison : s.rx.rxPoison = false
  rxMen : s.rx.rxMen = false
  rxMwe : s.rx.rxMwe = false
  rxAck : s.rx.rxAckS1 = false ∧ s.rx.rxAckS2 = false
  txRun : s.tx.txRun = false
  tvalid : s.tx.tvalid = false
  txGo : s.tx.txGoS1 = false ∧ s.tx.txGoS2 = false
  txDoneTog : s.tx.txDoneTog = false

/-- An edge of `cpu_clk` and two of `eth_clk` with the resets on. -/
theorem reset_reached (p : Params) (s : Dma) (c : CpuIn) (i j : EthIn) :
    Reset (((s.cpuClk true c).ethClk p true i).ethClk p true j) :=
  ⟨rfl, rfl, rfl, rfl, rfl, rfl, rfl, rfl, rfl, ⟨rfl, rfl⟩, rfl, rfl, ⟨rfl, rfl⟩, rfl⟩

theorem run_append (p : Params) (s : Dma) (es fs : List Event) :
    s.run p (es ++ fs) = (s.run p es).run p fs := List.foldl_append

theorem run_concat (p : Params) (s : Dma) (es : List Event) (e : Event) :
    s.run p (es ++ [e]) = (s.run p es).step p e := by
  rw [run_append]
  rfl

end Dma

/-! ### The module of the board -/

/-- The windows of `eth_stream_dma`'s defaults. -/
def defaults : Params := ⟨0x0C00, 0x0E00, 512, by decide⟩

/-- After reset, with the bytes 0 to 7 in the TX window. -/
def afterReset : Dma where
  rx := ⟨0, 0, 0, 0, false, false, false, 0, false, false, false, false, 0, 0⟩
  tx := ⟨false, 0, 0, 0, false, false, false, false, 0, false, false, false, false, 0, 0, false,
    false⟩
  cpu := ⟨false, false, false, false, false, false, 0⟩
  mem := fun a => if a = 0x0E00 then 0x03020100 else if a = 0x0E01 then 0x07060504 else 0
  rdata := 0

theorem reset_afterReset : Dma.Reset afterReset :=
  ⟨rfl, rfl, rfl, rfl, rfl, rfl, rfl, rfl, rfl, ⟨rfl, rfl⟩, rfl, rfl, ⟨rfl, rfl⟩, rfl⟩

end EthDma
end Xc7Tools
