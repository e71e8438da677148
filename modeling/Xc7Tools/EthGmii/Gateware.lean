/-
# eth_gmii_retime256: the gateware

`examples/vc707-ethmin/rtl/eth_gmii_retime256.sv` and its two packet buffers,
`eth_pkt_buf256.sv`: one Lean definition for each `always` block, a register is
a field of the same name. The module is two halves that share nothing but
`mac_clk`, each with a buffer between two clocks. `Edges` says which of the
three clocks have an edge at one time, with what these sample; every register
is written from the state before the edges, as nonblocking assignments do. A
run has no reset in it, and begins where `Retime.Reset` says the resets leave
the module.

Key definitions: `PktBuf`, `RxCap.clk`, `RxReplay.clk`, `TxCap.clk`,
`TxBurst.clk`, `Retime.step`, `Retime.Reset`.
Key theorems: `Retime.reset_reached`.
-/
import Mathlib.Data.BitVec
import Mathlib.Logic.Function.Basic

namespace Xc7Tools
namespace EthGmii

/-! ### eth_pkt_buf256 -/

/-- The registers and the 2K x 9 memory of `eth_pkt_buf256`. -/
structure PktBuf where
  waddr : BitVec 11
  wrCount : BitVec 11
  mem : BitVec 11 → BitVec 9
  rdQ : BitVec 9

namespace PktBuf

/-- `wr_room` -/
def wrRoom (s : PktBuf) (wrStart : Bool) : Bool := wrStart || s.wrCount != BitVec.allOnes 11

/-- `waddr_eff` -/
def waddrEff (s : PktBuf) (wrStart : Bool) : BitVec 11 := if wrStart then 0 else s.waddr

/-- `rd_data` -/
def rdData (s : PktBuf) : BitVec 8 := s.rdQ.setWidth 8

/-- An edge of `clk`. -/
def clk (rst wrStart wrEn : Bool) (wrData : BitVec 8) (s : PktBuf) : PktBuf :=
  let doWr := wrEn && s.wrRoom wrStart
  let s' :=
    if doWr then
      { s with mem := Function.update s.mem (s.waddrEff wrStart) (wrData.setWidth 9) }
    else s
  if rst then { s' with waddr := 0, wrCount := 0 }
  else if wrStart then
    { s' with waddr := if doWr then 1 else 0, wrCount := if doWr then 1 else 0 }
  else if doWr then { s' with waddr := s.waddr + 1, wrCount := s.wrCount + 1 }
  else s'

/-- An edge of `rd_clk`. -/
def rdClk (rdAddr : BitVec 11) (s : PktBuf) : PktBuf := { s with rdQ := s.mem rdAddr }

end PktBuf

/-! ### RX -/

/-- What an edge of `pcs_rx_clk` samples. -/
structure GmiiIn where
  rxd : BitVec 8
  dv : Bool
  er : Bool
  deriving DecidableEq

/-- The registers of `pcs_rx_clk`. -/
structure RxCap where
  rxInFrame : Bool
  rxTog : Bool
  rxLen : BitVec 11
  busyS1 : Bool
  busyS2 : Bool
  deriving DecidableEq

/-- The registers of `mac_clk`. -/
structure RxReplay where
  rxTogS1 : Bool
  rxTogS2 : Bool
  rxAckTog : Bool
  replaying : Bool
  rxbRaddr : BitVec 11
  replayN : BitVec 11
  replayingD : Bool
  deriving DecidableEq

namespace RxCap

/-- `rx_in_frame_next` -/
def inFrameNext (s : RxCap) (i : GmiiIn) : Bool := i.dv && !s.busyS2

/-- `rx_start` -/
def start (s : RxCap) (i : GmiiIn) : Bool := s.inFrameNext i && !s.rxInFrame

/-- RX capture, and the two flops of `rx_busy`. -/
def clk (rst busy : Bool) (rxbCount : BitVec 11) (i : GmiiIn) (s : RxCap) : RxCap :=
  let s' := { s with busyS1 := busy, busyS2 := s.busyS1 }
  if rst then { s' with rxInFrame := false, rxTog := false, rxLen := 0 }
  else
    let s' := { s' with rxInFrame := s.inFrameNext i }
    if s.rxInFrame && !i.dv then { s' with rxLen := rxbCount, rxTog := !s.rxTog } else s'

end RxCap

namespace RxReplay

/-- `(rx_tog_s2 != rx_ack_tog) | replaying` -/
def busy (s : RxReplay) : Bool := s.rxTogS2 != s.rxAckTog || s.replaying

/-- RX replay. -/
def clk (rst rxTog : Bool) (rxLen : BitVec 11) (s : RxReplay) : RxReplay :=
  if rst then ⟨false, false, false, false, 0, 0, false⟩
  else
    let s' := { s with rxTogS1 := rxTog, rxTogS2 := s.rxTogS1 }
    let s' :=
      if !s.replaying && !s.replayingD then
        if s.rxTogS2 != s.rxAckTog then
          { s' with replaying := true, rxbRaddr := 0, replayN := rxLen }
        else s'
      else
        { s' with
          rxbRaddr := s.rxbRaddr + 1
          replaying := if s.rxbRaddr + 1 ≥ s.replayN then false else s.replaying }
    let s' := { s' with replayingD := s.replaying }
    if s.replayingD && !s.replaying then { s' with rxAckTog := s.rxTogS2 } else s'

end RxReplay

/-- The half that receives. -/
structure Rx where
  cap : RxCap
  replay : RxReplay
  buf : PktBuf

namespace Rx

/-- An edge of `pcs_rx_clk`, with the busy signal it samples. -/
def pcsClk (rst busy : Bool) (i : GmiiIn) (s : Rx) : Rx :=
  { s with
    cap := s.cap.clk rst busy s.buf.wrCount i
    buf := s.buf.clk rst (s.cap.start i) (i.dv && s.cap.inFrameNext i) i.rxd }

/-- An edge of `mac_clk`. -/
def macClk (rst : Bool) (s : Rx) : Rx :=
  { s with
    replay := s.replay.clk rst s.cap.rxTog s.cap.rxLen
    buf := s.buf.rdClk s.replay.rxbRaddr }

/-- The edges of one time. -/
def step (s : Rx) : Option GmiiIn → Bool → Rx
  | none, false => s
  | none, true => s.macClk false
  | some i, false => s.pcsClk false s.replay.busy i
  | some i, true =>
    { cap := (s.pcsClk false s.replay.busy i).cap
      replay := (s.macClk false).replay
      buf := { (s.pcsClk false s.replay.busy i).buf with rdQ := (s.macClk false).buf.rdQ } }

/-- `mac_rxd` under `mac_rx_dv` -/
def gmii (s : Rx) : Option (BitVec 8) := if s.replay.replayingD then some s.buf.rdData else none

end Rx

/-! ### TX -/

/-- What an edge of `mac_clk` samples of the MAC. -/
structure MacIn where
  txd : BitVec 8
  txEn : Bool
  deriving DecidableEq

/-- The registers of `mac_clk`. -/
structure TxCap where
  txTog : Bool
  txEnQ : Bool
  txLen : BitVec 11
  deriving DecidableEq

/-- The registers of `pcs_tx_clk`. -/
structure TxBurst where
  txTogS1 : Bool
  txTogS2 : Bool
  txDoneTog : Bool
  sending : Bool
  sendingD : Bool
  txbRaddr : BitVec 11
  sendN : BitVec 11
  fcount : BitVec 8
  pcsTxd : BitVec 8
  pcsTxEn : Bool
  deriving DecidableEq

namespace TxCap

/-- `tx_start` -/
def start (s : TxCap) (i : MacIn) : Bool := i.txEn && !s.txEnQ

/-- TX capture. -/
def clk (rst : Bool) (txbCount : BitVec 11) (i : MacIn) (s : TxCap) : TxCap :=
  if rst then ⟨false, false, 0⟩
  else
    let s' := { s with txEnQ := i.txEn }
    if s.txEnQ && !i.txEn then { s' with txLen := txbCount, txTog := !s.txTog } else s'

end TxCap

/-- TX burst. -/
def TxBurst.clk (rst txTog : Bool) (txLen : BitVec 11) (txbRdata : BitVec 8) (s : TxBurst) :
    TxBurst :=
  if rst then
    { s with
      txTogS1 := false
      txTogS2 := false
      txDoneTog := false
      sending := false
      pcsTxEn := false
      txbRaddr := 0
      sendingD := false
      fcount := 0 }
  else
    let s' :=
      { s with
        txTogS1 := txTog
        txTogS2 := s.txTogS1
        sendingD := s.sending
        pcsTxd := if s.sending || s.sendingD then txbRdata else s.pcsTxd
        pcsTxEn := s.sendingD }
    let s' :=
      if !s.sending && !s.sendingD then
        if s.txTogS2 != s.txDoneTog then
          { s' with sending := true, txbRaddr := 0, sendN := txLen }
        else s'
      else if s.sending then
        { s' with
          txbRaddr := s.txbRaddr + 1
          sending := if s.txbRaddr + 1 ≥ s.sendN then false else s.sending }
      else s'
    if s.sendingD && !s.sending then
      { s' with txDoneTog := s.txTogS2, fcount := s.fcount + 1 }
    else s'

/-- The half that transmits. -/
structure Tx where
  cap : TxCap
  burst : TxBurst
  buf : PktBuf

namespace Tx

/-- An edge of `mac_clk`. -/
def macClk (rst : Bool) (i : MacIn) (s : Tx) : Tx :=
  { s with
    cap := s.cap.clk rst s.buf.wrCount i
    buf := s.buf.clk rst (s.cap.start i) i.txEn i.txd }

/-- An edge of `pcs_tx_clk`. -/
def pcsClk (rst : Bool) (s : Tx) : Tx :=
  { s with
    burst := s.burst.clk rst s.cap.txTog s.cap.txLen s.buf.rdData
    buf := s.buf.rdClk s.burst.txbRaddr }

/-- The edges of one time. -/
def step (s : Tx) : Option MacIn → Bool → Tx
  | none, false => s
  | none, true => s.pcsClk false
  | some i, false => s.macClk false i
  | some i, true =>
    { cap := (s.macClk false i).cap
      burst := (s.pcsClk false).burst
      buf := { (s.macClk false i).buf with rdQ := (s.pcsClk false).buf.rdQ } }

/-- `pcs_txd` under `pcs_tx_en` -/
def gmii (s : Tx) : Option (BitVec 8) := if s.burst.pcsTxEn then some s.burst.pcsTxd else none

end Tx

/-! ### The module -/

/-- The clocks that have an edge at one time, with what they sample. -/
structure Edges where
  pcsRx : Option GmiiIn
  pcsTx : Bool
  mac : Option MacIn
  deriving DecidableEq

structure Retime where
  rx : Rx
  tx : Tx

namespace Retime

def step (s : Retime) (e : Edges) : Retime where
  rx := s.rx.step e.pcsRx e.mac.isSome
  tx := s.tx.step e.mac e.pcsTx

def run (s : Retime) (es : List Edges) : Retime := es.foldl step s

theorem run_concat (s : Retime) (es : List Edges) (e : Edges) :
    s.run (es ++ [e]) = (s.run es).step e := List.foldl_concat _ _ _ _

/-- What the resets leave; the other registers and the memories hold anything. -/
structure Reset (s : Retime) : Prop where
  rxInFrame : s.rx.cap.rxInFrame = false
  rxTog : s.rx.cap.rxTog = false
  replay : s.rx.replay = ⟨false, false, false, false, 0, 0, false⟩
  txCap : s.tx.cap = ⟨false, false, 0⟩
  txTogS1 : s.tx.burst.txTogS1 = false
  txTogS2 : s.tx.burst.txTogS2 = false
  txDoneTog : s.tx.burst.txDoneTog = false
  sending : s.tx.burst.sending = false
  sendingD : s.tx.burst.sendingD = false
  pcsTxEn : s.tx.burst.pcsTxEn = false

/-- An edge of every clock with the resets on. -/
theorem reset_reached (s : Retime) (busy : Bool) (i : GmiiIn) (j : MacIn) :
    Reset ⟨(s.rx.pcsClk true busy i).macClk true, (s.tx.macClk true j).pcsClk true⟩ :=
  ⟨rfl, rfl, rfl, rfl, rfl, rfl, rfl, rfl, rfl, rfl⟩

/-- After reset, with empty buffers. -/
def afterReset : Retime where
  rx := ⟨⟨false, false, 0, false, false⟩, ⟨false, false, false, false, 0, 0, false⟩,
    ⟨0, 0, fun _ => 0, 0⟩⟩
  tx := ⟨⟨false, false, 0⟩, ⟨false, false, false, false, false, 0, 0, 0, 0, false⟩,
    ⟨0, 0, fun _ => 0, 0⟩⟩

theorem reset_afterReset : Reset afterReset := ⟨rfl, rfl, rfl, rfl, rfl, rfl, rfl, rfl, rfl, rfl⟩

end Retime
end EthGmii
end Xc7Tools
