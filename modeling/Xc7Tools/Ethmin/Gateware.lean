/-
# ethmin: the CPU's side, the DMA and the MAC

`examples/vc707-ethmin/rtl/ethmin_core.v` with the MAC of
`sgmii_soc_liteeth.sv`, as `vc707_ethmin.v` connects them. `Core.clk` is the
register file on the CPU's bus, `stored` port A of `picosoc_mem_dp`, and
`Station` puts them beside `eth_stream_dma` and the two halves of
`eth_mac_1g`: an edge of `clk_mac` moves the DMA and both halves, an edge of
`clk_sys` the register file, the CPU's side of the DMA and the memory. All of
them sample what the registers show before the edge.

The memory has the 14 address bits of port B; port A drives 13 of them.

Key definitions: `Core.clk`, `stored`, `Station.step`.
Key theorems: `stored_of_ne`.
-/
import Xc7Tools.EthDma.Gateware
import Xc7Tools.EthMac.Receive
import Xc7Tools.EthMac.Transmit
import Xc7Tools.Lib.Lanes

namespace Xc7Tools
namespace Ethmin

open EthDma (Dma Mem Params CpuIn EthIn)
open EthMac (Axis)
open EthMac.Rx (Gmii)

/-! ### The register file -/

/-- The bus of the iomem devices, and the status of the PHY. -/
structure Bus where
  iomemValid : Bool
  iomemWstrb : BitVec 4
  iomemAddr : BitVec 32
  iomemWdata : BitVec 32
  pcspmaStatus : BitVec 16
  deriving DecidableEq

/-- The registers of ethmin_core. -/
structure Core where
  iomemReady : Bool
  iomemRdata : BitVec 32
  gpio : BitVec 32
  txLen : BitVec 11
  txStart : Bool
  rxAck : Bool
  deriving DecidableEq

/-- A word with the bytes of `d` that are strobed. -/
def strobed (wen : BitVec 4) (d w : BitVec 32) : BitVec 32 :=
  (List.range 4).foldl
    (fun w k => if wen.getLsbD k then Lanes.setLane w k (Lanes.lane d k) else w) w

namespace Core

/-- `gpio_sel` -/
def gpioSel (i : Bus) : Bool := i.iomemValid && i.iomemAddr.extractLsb' 24 8 == 0x03

/-- `eth_sel` -/
def ethSel (i : Bus) : Bool := i.iomemValid && i.iomemAddr.extractLsb' 24 8 == 0x04

/-- What the read of a register of the Ethernet gives. -/
def ethRead (i : Bus) (d : Dma) (s : Core) : BitVec 32 :=
  match i.iomemAddr.extractLsb' 0 8 with
  | 0x00 => i.pcspmaStatus ++ 0#13 ++ BitVec.ofBool d.rx.rxTruncQ ++ BitVec.ofBool d.cpu.txBusy ++
      BitVec.ofBool d.cpu.rxValid
  | 0x04 => d.rx.rxLenQ.setWidth 32
  | 0x08 => s.txLen.setWidth 32
  | _ => 0

/-- The register file; `rx_ack` and `tx_start` are pulses. -/
def clk (resetn : Bool) (i : Bus) (d : Dma) (s : Core) : Core :=
  let s' := { s with iomemReady := false, rxAck := false, txStart := false }
  if !resetn then { s' with gpio := 0 }
  else if gpioSel i && !s.iomemReady then
    { s' with
      iomemReady := true
      iomemRdata := s.gpio
      gpio := strobed i.iomemWstrb i.iomemWdata s.gpio }
  else if ethSel i && !s.iomemReady then
    let s' := { s' with iomemReady := true, iomemRdata := ethRead i d s }
    if i.iomemWstrb = 0 then s'
    else
      match i.iomemAddr.extractLsb' 0 8 with
      | 0x04 => { s' with rxAck := true }
      | 0x08 => { s' with txLen := i.iomemWdata.extractLsb' 0 11, txStart := true }
      | _ => s'
  else s'

/-- What the DMA samples of the registers. -/
def pulses (s : Core) : CpuIn := ⟨s.rxAck, s.txLen, s.txStart⟩

end Core

/-! ### Port A of the memory -/

/-- What port A samples of the CPU. -/
structure Store where
  wen : BitVec 4
  addr : BitVec 22
  wdata : BitVec 32
  deriving DecidableEq

/-- `a = addr[12:0]` -/
def Store.word (st : Store) : BitVec 13 := st.addr.extractLsb' 0 13

/-- The memory after an edge of port A. -/
def stored (st : Store) (mem : Mem) : Mem :=
  Function.update mem st.word (strobed st.wen st.wdata (mem st.word))

/-- The port reads only. -/
def Store.none : Store := ⟨0, 0, 0⟩

/-! ### The station -/

structure Station where
  core : Core
  dma : Dma
  tx : EthMac.Tx
  rx : EthMac.Rx

/-- An edge of `clk_mac`, with what the GMII receives, or of `clk_sys`. -/
inductive Edge where
  | mac (g : Gmii)
  | sys (i : Bus) (st : Store)
  deriving DecidableEq

/-- The DMA's TX stream; `tx_axis_tuser` is low. -/
def offered (d : Dma) : Axis := ⟨d.tx.tdata, d.tx.tvalid, d.tx.tlast, false⟩

namespace Station

/-- What the DMA samples of the MAC. -/
def ethIn (x : Station) : EthIn :=
  ⟨x.rx.mAxis.tdata, x.rx.mAxis.tvalid, x.rx.mAxis.tlast, x.rx.mAxis.tuser, x.tx.sAxisTready⟩

/-- An edge of `clk_mac`. -/
def macClk (cfg : EthMac.Tx.Config) (p : Params) (g : Gmii) (x : Station) : Station :=
  { x with
    dma := x.dma.step p (.eth x.ethIn)
    tx := x.tx.step cfg (offered x.dma)
    rx := x.rx.step g }

/-- An edge of `clk_sys`. -/
def sysClk (p : Params) (i : Bus) (st : Store) (x : Station) : Station :=
  { x with
    core := x.core.clk true i x.dma
    dma := { x.dma.step p (.cpu x.core.pulses) with mem := stored st x.dma.mem } }

def step (cfg : EthMac.Tx.Config) (p : Params) (x : Station) : Edge → Station
  | .mac g => x.macClk cfg p g
  | .sys i st => x.sysClk p i st

/-- What the resets leave. -/
structure Reset (x : Station) : Prop where
  core : x.core.iomemReady = false ∧ x.core.gpio = 0 ∧ x.core.txStart = false ∧ x.core.rxAck = false
  dma : x.dma.Reset
  tx : EthMac.Reset x.tx
  rx : x.rx.Reset
  rxAxis : x.rx.mAxis.tvalid = false

end Station

/-- The windows of the board. -/
def board : Params := { EthDma.defaults with rxWordBase := 1024, txWordBase := 1536 }

def Station.afterReset : Station :=
  ⟨⟨false, 0, 0, 0, false, false⟩, EthDma.afterReset, .afterReset, .afterReset⟩

theorem Station.reset_afterReset : Station.afterReset.Reset :=
  ⟨⟨rfl, rfl, rfl, rfl⟩, EthDma.reset_afterReset, EthMac.reset_afterReset,
    ⟨rfl, rfl, rfl, rfl, rfl, rfl⟩, rfl⟩

/-- A bus on which nothing is asked for, and one with a write of a word. -/
def Bus.idle : Bus := ⟨false, 0, 0, 0, 0⟩

def Bus.write (addr wdata : BitVec 32) : Bus := ⟨true, 0xF, addr, wdata, 0⟩

/-! ### The memory after a store -/

theorem stored_of_ne {st : Store} {mem : Mem} {a : BitVec 13} (ha : a ≠ st.word) :
    stored st mem a = mem a := Function.update_of_ne ha _ _

theorem strobed_zero (d w : BitVec 32) : strobed 0 d w = w := by
  simp [strobed, List.range_succ]

/-- A store without strobes is none. -/
theorem stored_of_wen {st : Store} (h : st.wen = 0) (mem : Mem) : stored st mem = mem := by
  rw [stored, h, strobed_zero, Function.update_eq_self]

end Ethmin
end Xc7Tools
