/-
# ethmin_vm_core: the gateware

`examples/vc707-ocaml/ethmin_vm_core.v`: a register is a field of the same
name, in a structure for each `always` block, and the block is that
structure's `clk`. The VM, `eth_stream_dma` and `simpleuart` are outside: an
edge of `clk_sys` samples what they drive (`SysIn`), an edge of `eth_clk`
samples port B of the packet RAM (`PortB`). A ROM is read as a whole; its
first words are the image the build put there.

Key definitions: `Seq.clk`, `Fetch.clk`, `Uart.clk`, `RxFifo.clk`, `Io.clk`,
`Core.clkSys`, `Core.ethClk`, `Core.powerUp`.
-/
import Mathlib.Data.Nat.Log
import Xc7Tools.Lib.Fifo
import Xc7Tools.Lib.Lanes

namespace Xc7Tools
namespace EthminVm

open Lanes (lane setLane)

/-- The parameters, `program.vh` and the ROMs. -/
structure Params where
  buildId : BitVec 32
  clkHz : ℕ
  programWords : ℕ
  heapWords : ℕ
  globalsWords : ℕ
  codeRom : BitVec 15 → BitVec 32
  heapRom : BitVec 16 → BitVec 36
  globalsRom : BitVec 16 → BitVec 36

/-- What an edge of `clk_sys` samples. -/
structure SysIn where
  resetn : Bool
  dip : BitVec 8
  btn : BitVec 5
  pcspmaStatus : BitVec 16
  rxValid : Bool
  rxTrunc : Bool
  rxLen : BitVec 11
  txBusy : Bool
  pc : BitVec 24
  trapValid : Bool
  trapPrim : BitVec 8
  trapArg0 : BitVec 32
  trapArg1 : BitVec 32
  putcValid : Bool
  putcChar : BitVec 8
  uartWait : Bool
  uartRxDo : BitVec 32
  deriving DecidableEq

/-- What an edge of `eth_clk` samples: port B of the packet RAM. -/
structure PortB where
  en : Bool
  we : Bool
  addr : BitVec 14
  wdata : BitVec 32
  deriving DecidableEq

/-! ### The boot sequencer -/

/-- `seq_state`; three bits, so one value has no name. -/
inductive SeqState
  | resident
  | header
  | code
  | heap
  | globals
  | start
  | run
  | unused
  deriving DecidableEq

/-- The registers of the sequencer, with the memory it writes. -/
structure Seq where
  seqState : SeqState
  seqFromStage : Bool
  seqDataReady : Bool
  seqI : BitVec 16
  seqN : BitVec 16
  stageCode : BitVec 16
  stageHeap : BitVec 16
  stageGlobals : BitVec 16
  globCount : BitVec 16
  seqQ : BitVec 32
  romQ : BitVec 32
  vmHold : Bool
  loadWe : Bool
  loadGlobals : Bool
  loadAddr : BitVec 15
  imageWords : BitVec 15
  loadData : BitVec 32
  hdrI : BitVec 2
  codeBank : Bool
  progWords : BitVec 16
  progCode : BitVec 15 → BitVec 32

namespace Seq

/-- `seq_addr` -/
def seqAddr (s : Seq) : BitVec 14 :=
  if s.seqState = .header then 2 + s.hdrI.setWidth 14
  else (8 + s.seqI + (if s.seqState ≠ .code then s.stageCode else 0) +
    (if s.seqState = .globals then s.stageHeap else 0)).setWidth 14

/-- The header words, a cycle after each is read. -/
def header (s s' : Seq) : Seq :=
  let s' := { s' with seqDataReady := true, hdrI := s.hdrI + 1 }
  if s.seqDataReady then
    if s.hdrI = 1 then { s' with stageCode := s.seqQ.setWidth 16 }
    else if s.hdrI = 2 then { s' with stageHeap := s.seqQ.setWidth 16 }
    else if s.hdrI = 3 then
      { s' with
        stageGlobals := s.seqQ.setWidth 16
        seqN := s.stageCode
        seqI := 0
        seqDataReady := false
        seqState := .code }
    else s'
  else s'

/-- The word read last cycle goes to its place. -/
def store (s s' : Seq) : Seq :=
  if s.seqState = .code then
    -- `seq_i[14:0] - 1` has 32 bits: below zero it is outside the memory
    if s.seqI.setWidth 15 = 0 then s'
    else { s' with progCode := Function.update s.progCode (s.seqI.setWidth 15 - 1) s.seqQ }
  else
    { s' with
      loadWe := true
      loadGlobals := decide (s.seqState = .globals)
      loadAddr := (s.seqI - 1).setWidth 15
      loadData :=
        if s.seqState = .globals ∧ s.globCount.setWidth 32 ≤ s.seqI.setWidth 32 - 1 then 1
        else if s.seqFromStage then s.seqQ else s.romQ }

/-- The next word of the section, or the next section. -/
def advance (p : Params) (s s' : Seq) : Seq :=
  if s.seqI < s.seqN then { s' with seqI := s.seqI + 1, seqDataReady := true }
  else
    let s' := { s' with seqI := 0, seqDataReady := false }
    match s.seqState with
    | .code => { s' with seqN := s.stageHeap, seqState := .heap }
    | .heap =>
      { s' with
        seqN := (1 : BitVec 16) <<< 13
        globCount := if s.seqFromStage then s.stageGlobals else BitVec.ofNat 16 p.globalsWords
        seqState := .globals }
    | _ => { s' with seqState := .start }

/-- The block that reads, and `load_we <= 0`. -/
def latched (p : Params) (stageRam : BitVec 15 → BitVec 32) (s : Seq) : Seq :=
  { s with
    romQ := (if s.seqState = .globals then p.globalsRom s.seqI else p.heapRom s.seqI).setWidth 32
    seqQ := stageRam (s.seqAddr.setWidth 15)
    loadWe := false }

/-- Both blocks of the sequencer. -/
def clk (p : Params) (stageRam : BitVec 15 → BitVec 32) (resetn bootReq : Bool) (s : Seq) : Seq :=
  let s' := s.latched p stageRam
  if !resetn then
    { s' with
      seqState := .resident
      seqFromStage := false
      seqI := 0
      seqDataReady := false
      vmHold := true
      codeBank := false }
  else
    match s.seqState with
    | .resident =>
      { s' with
        seqN := BitVec.ofNat 16 p.heapWords
        seqI := 0
        seqDataReady := false
        seqState := .heap }
    | .header => s.header s'
    | .code | .heap | .globals => s.advance p (if s.seqDataReady then s.store s' else s')
    | .start =>
      { s' with
        imageWords :=
          if s.seqFromStage then s.stageHeap.setWidth 15 else BitVec.ofNat 15 p.heapWords
        codeBank := s.seqFromStage
        progWords := s.stageCode
        seqState := .run }
    | .run =>
      let s' := { s' with vmHold := false }
      if bootReq then
        { s' with
          vmHold := true
          seqFromStage := true
          hdrI := 0
          seqDataReady := false
          seqState := .header }
      else s'
    | .unused => { s' with seqState := .run }

end Seq

/-! ### Instruction fetch -/

/-- The registers of the fetch unit, the code ROM's output register among them. -/
structure Fetch where
  codeRomQ : BitVec 32
  codeProgQ : BitVec 32
  codeQPc : BitVec 24
  codeQValid : Bool
  fetchInRange : Bool

namespace Fetch

/-- `code_valid` -/
def codeValid (s : Fetch) (pc : BitVec 24) : Bool := s.codeQValid && s.codeQPc == pc

/-- `fetch_pc` -/
def fetchPc (s : Fetch) (pc : BitVec 24) : BitVec 24 := if s.codeValid pc then pc + 1 else pc

/-- `code_rdata` -/
def codeRdata (s : Fetch) (codeBank : Bool) : BitVec 32 :=
  if !s.fetchInRange then 0xDEADBEEF else if codeBank then s.codeProgQ else s.codeRomQ

def clk (p : Params) (q : Seq) (vmReset : Bool) (pc : BitVec 24) (s : Fetch) : Fetch where
  codeRomQ := p.codeRom ((s.fetchPc pc).setWidth 15)
  codeProgQ := q.progCode ((s.fetchPc pc).setWidth 15)
  fetchInRange :=
    if q.codeBank then s.fetchPc pc < q.progWords.setWidth 24
    else (s.fetchPc pc).setWidth 32 < BitVec.ofNat 32 p.programWords
  codeQPc := s.fetchPc pc
  codeQValid := !vmReset

end Fetch

/-! ### UART -/

/-- The UART's FIFO and the byte it offers to `simpleuart`. -/
structure Uart where
  uartFifo : BitVec 8 → BitVec 8
  ufWp : BitVec 9
  ufRp : BitVec 9
  uartByte : BitVec 8
  uartWe : Bool

namespace Uart

/-- `uf_empty` -/
def ufEmpty (s : Uart) : Bool := Fifo.isEmpty s.ufWp s.ufRp

/-- `uf_full` -/
def ufFull (s : Uart) : Bool := Fifo.isFull s.ufWp s.ufRp

def clk (resetn ufPush : Bool) (ufDin : BitVec 8) (uartWait : Bool) (s : Uart) : Uart :=
  if !resetn then { s with ufWp := 0, ufRp := 0, uartWe := false }
  else
    let s' :=
      if ufPush && !s.ufFull then
        { s with
          uartFifo := Function.update s.uartFifo (Fifo.slot s.ufWp) ufDin
          ufWp := s.ufWp + 1 }
      else s
    if s.uartWe then
      if !uartWait then { s' with uartWe := false } else s'
    else if !s.ufEmpty then
      { s' with uartByte := s.uartFifo (Fifo.slot s.ufRp), uartWe := true, ufRp := s.ufRp + 1 }
    else s'

end Uart

/-- The FIFO of received bytes. -/
structure RxFifo where
  rxFifo : BitVec 8 → BitVec 8
  rxfWp : BitVec 9
  rxfRp : BitVec 9

namespace RxFifo

/-- `rxf_empty` -/
def rxfEmpty (s : RxFifo) : Bool := Fifo.isEmpty s.rxfWp s.rxfRp

/-- `rxf_full` -/
def rxfFull (s : RxFifo) : Bool := Fifo.isFull s.rxfWp s.rxfRp

/-- `uart_rx_take` -/
def uartRxTake (s : RxFifo) (uartRxDo : BitVec 32) : Bool :=
  uartRxDo != 0xFFFFFFFF && !s.rxfFull

def clk (resetn rxfPop : Bool) (uartRxDo : BitVec 32) (s : RxFifo) : RxFifo :=
  if !resetn then { s with rxfWp := 0, rxfRp := 0 }
  else
    let s' :=
      if s.uartRxTake uartRxDo then
        { s with
          rxFifo := Function.update s.rxFifo (Fifo.slot s.rxfWp) (uartRxDo.setWidth 8)
          rxfWp := s.rxfWp + 1 }
      else s
    if rxfPop then { s' with rxfRp := s.rxfRp + 1 } else s'

end RxFifo

/-! ### The millisecond timer and the synchronisers -/

structure Timer where
  msPrescale : ℕ
  msCount : BitVec 30

def Timer.clk (p : Params) (resetn : Bool) (s : Timer) : Timer :=
  let msDiv := p.clkHz / 1000
  if !resetn then ⟨0, 0⟩
  else if s.msPrescale + 1 = msDiv then ⟨0, s.msCount + 1⟩
  else { s with msPrescale := (s.msPrescale + 1) % 2 ^ Nat.clog 2 msDiv }

structure Sync where
  dipSync0 : BitVec 8
  dipSync1 : BitVec 8
  btnSync0 : BitVec 5
  btnSync1 : BitVec 5

def Sync.clk (i : SysIn) (s : Sync) : Sync := ⟨i.dip, s.dipSync0, i.btn, s.btnSync0⟩

/-! ### The I/O space -/

/-- `io_state`; three values have no name. -/
inductive IoState
  | idle
  | pktRead
  | uart
  | done
  | stageRead
  | unused
  deriving DecidableEq

/-- The registers of the block that answers the trap port. -/
structure Io where
  ioState : IoState
  ioLane : BitVec 2
  leds : BitVec 8
  txLen : BitVec 11
  txStart : Bool
  rxAck : Bool
  bootReq : Bool
  rxfPop : Bool
  trapReady : Bool
  trapResult : BitVec 32
  deriving DecidableEq

/-- The pulses end. -/
def Io.lowered (s : Io) : Io :=
  { s with trapReady := false, rxAck := false, txStart := false, bootReq := false, rxfPop := false }

/-- The packet RAM, a memory for each lane, with the output registers of its ports. -/
structure Packet where
  mem : BitVec 2 → BitVec 10 → BitVec 8
  aQ : BitVec 2 → BitVec 8
  bQ : BitVec 2 → BitVec 8

/-- The staging RAM, with the output register of the program's side. -/
structure Staging where
  stageRam : BitVec 15 → BitVec 32
  stageQ : BitVec 32

/-- The module. -/
structure Core where
  seq : Seq
  fetch : Fetch
  uart : Uart
  rx : RxFifo
  timer : Timer
  sync : Sync
  io : Io
  packet : Packet
  staging : Staging

namespace SysIn

/-- `io_read` -/
def ioRead (i : SysIn) : Bool := i.trapPrim == 1

/-- `io_write` -/
def ioWrite (i : SysIn) : Bool := i.trapPrim == 2

/-- `io_is_packet` -/
def ioIsPacket (i : SysIn) : Bool := i.trapArg0 < 0x1000

/-- `io_is_stage` -/
def ioIsStage (i : SysIn) : Bool := 0x10000 ≤ i.trapArg0 && i.trapArg0 < 0x20000

/-- `io_addr[1:0]` -/
def ioAddrLane (i : SysIn) : BitVec 2 := i.trapArg0.setWidth 2

end SysIn

namespace Core

/-- `vm_reset` -/
def vmReset (c : Core) (i : SysIn) : Bool := !i.resetn || c.seq.vmHold

/-- `io_new` -/
def ioNew (c : Core) (i : SysIn) : Bool :=
  i.trapValid && (i.ioRead || i.ioWrite) && decide (c.io.ioState = .idle) && !c.vmReset i

/-- `pa_en` -/
def paEn (c : Core) (i : SysIn) : Bool := c.ioNew i && i.ioIsPacket

/-- `pa_we` -/
def paWe (c : Core) (i : SysIn) : BitVec 4 :=
  if c.ioNew i && i.ioIsPacket && i.ioWrite then (1 : BitVec 4) <<< i.ioAddrLane.toNat else 0

/-- `pa_addr` -/
def paAddr (i : SysIn) : BitVec 10 := i.trapArg0.extractLsb' 2 10

/-- `pa_wdata` -/
def paWdata (i : SysIn) : BitVec 32 := (i.trapArg1.setWidth 8).replicate 4

/-- `uf_push` -/
def ufPush (c : Core) (i : SysIn) : Bool :=
  i.putcValid || decide (c.io.ioState = .uart) && !c.uart.ufFull

/-- `uf_din` -/
def ufDin (i : SysIn) : BitVec 8 := if i.putcValid then i.putcChar else i.trapArg1.setWidth 8

/-- `pa_rdata` -/
def paRdata (c : Core) : BitVec 32 := c.packet.aQ 3 ++ c.packet.aQ 2 ++ c.packet.aQ 1 ++ c.packet.aQ 0

/-- `io_read_word` -/
def ioReadWord (c : Core) : BitVec 32 :=
  if c.io.ioState = .pktRead then c.paRdata else c.staging.stageQ

/-- What `trap_result` becomes at an address that is no memory. -/
def register (p : Params) (c : Core) (i : SysIn) : BitVec 32 :=
  if i.trapArg0 = 0x1000 then
    (BitVec.ofBool i.rxTrunc ++ BitVec.ofBool i.txBusy ++ BitVec.ofBool i.rxValid).setWidth 32
  else if i.trapArg0 = 0x1001 then i.pcspmaStatus.setWidth 32
  else if i.trapArg0 = 0x1002 then i.rxLen.setWidth 32
  else if i.trapArg0 = 0x1004 then c.io.leds.setWidth 32
  else if i.trapArg0 = 0x1006 then c.timer.msCount.setWidth 32
  else if i.trapArg0 = 0x1009 then c.sync.dipSync1.setWidth 32
  else if i.trapArg0 = 0x100a then p.buildId
  else if i.trapArg0 = 0x100b then c.sync.btnSync1.setWidth 32
  else if i.trapArg0 = 0x1008 then
    if c.rx.rxfEmpty then 0xFFFFFFFF else (c.rx.rxFifo (Fifo.slot c.rx.rxfRp)).setWidth 32
  else 0

/-- The `case (io_addr)` of a write. -/
def writeRegister (i : SysIn) (s' : Io) : Io :=
  if i.trapArg0 = 0x1002 then { s' with rxAck := true }
  else if i.trapArg0 = 0x1003 then { s' with txLen := i.trapArg1.setWidth 11, txStart := true }
  else if i.trapArg0 = 0x1004 then { s' with leds := i.trapArg1.setWidth 8 }
  else if i.trapArg0 = 0x1007 then { s' with bootReq := true }
  else s'

/-- A new request in `IO_IDLE`. -/
def accept (p : Params) (c : Core) (i : SysIn) (s' : Io) : Io :=
  let s' := { s' with ioLane := i.ioAddrLane }
  if i.ioIsPacket || i.ioIsStage then
    if i.ioRead then { s' with ioState := if i.ioIsPacket then .pktRead else .stageRead }
    else { s' with trapReady := true, ioState := .done }
  else if i.ioWrite && i.trapArg0 == 0x1005 then { s' with ioState := .uart }
  else
    let s' :=
      { s' with
        trapResult := register p c i
        rxfPop := i.trapArg0 == 0x1008 && (i.ioRead && !c.rx.rxfEmpty) }
    let s' := if i.ioWrite then writeRegister i s' else s'
    { s' with trapReady := true, ioState := .done }

/-- The block that answers the trap port. -/
def clkIo (p : Params) (c : Core) (i : SysIn) : Io :=
  let s' := c.io.lowered
  if !i.resetn || c.vmReset i then
    let s' := { s' with ioState := .idle }
    if !i.resetn then { s' with leds := 0, txLen := 0 } else s'
  else
    match c.io.ioState with
    | .idle => if c.ioNew i then c.accept p i s' else s'
    | .pktRead | .stageRead =>
      { s' with
        trapResult := (lane c.ioReadWord c.io.ioLane.toNat).setWidth 32
        trapReady := true
        ioState := .done }
    | .uart => if !c.uart.ufFull then { s' with trapReady := true, ioState := .done } else s'
    | .done => if !i.trapValid then { s' with ioState := .idle } else s'
    | .unused => { s' with ioState := .idle }

/-- Port A of the packet RAM. -/
def clkPacket (c : Core) (i : SysIn) : Packet :=
  if c.paEn i then
    { c.packet with
      mem := fun l =>
        if (c.paWe i).getLsbD l.toNat then
          Function.update (c.packet.mem l) (paAddr i) (lane (paWdata i) l.toNat)
        else c.packet.mem l
      aQ := fun l =>
        if (c.paWe i).getLsbD l.toNat then c.packet.aQ l else c.packet.mem l (paAddr i) }
  else c.packet

/-- The program's side of the staging RAM. -/
def clkStaging (c : Core) (i : SysIn) : Staging :=
  if c.ioNew i && i.ioIsStage then
    let a : BitVec 15 := (i.trapArg0.extractLsb' 2 14).setWidth 15
    { stageRam :=
        if i.ioWrite then
          Function.update c.staging.stageRam a
            (setLane (c.staging.stageRam a) i.ioAddrLane.toNat (i.trapArg1.setWidth 8))
        else c.staging.stageRam
      stageQ := c.staging.stageRam a }
  else c.staging

/-- An edge of `clk_sys`. -/
def clkSys (p : Params) (i : SysIn) (c : Core) : Core where
  seq := c.seq.clk p c.staging.stageRam i.resetn c.io.bootReq
  fetch := c.fetch.clk p c.seq (c.vmReset i) i.pc
  uart := c.uart.clk i.resetn (c.ufPush i) (ufDin i) i.uartWait
  rx := c.rx.clk i.resetn c.io.rxfPop i.uartRxDo
  timer := c.timer.clk p i.resetn
  sync := c.sync.clk i
  io := c.clkIo p i
  packet := c.clkPacket i
  staging := c.clkStaging i

/-- An edge of `eth_clk`: port B of the packet RAM. -/
def ethClk (b : PortB) (c : Core) : Core :=
  if b.en then
    let a : BitVec 10 := b.addr.setWidth 10
    if b.we then
      { c with packet.mem := fun l => Function.update (c.packet.mem l) a (lane b.wdata l.toNat) }
    else { c with packet.bQ := fun l => c.packet.mem l a }
  else c

end Core

/-- An edge of either clock. -/
inductive Edge
  | sys (i : SysIn)
  | eth (b : PortB)
  deriving DecidableEq

/-- An edge of `clk_sys`. -/
def Edge.isSys : Edge → Bool
  | .sys _ => true
  | .eth _ => false

def Core.step (p : Params) (c : Core) : Edge → Core
  | .sys i => c.clkSys p i
  | .eth b => c.ethClk b

/-- A program of one word, without heap and globals, at 25 MHz. -/
def Params.blank : Params :=
  { buildId := 0, clkHz := 25000000, programWords := 1, heapWords := 0, globalsWords := 0
    codeRom := fun _ => 0, heapRom := fun _ => 0, globalsRom := fun _ => 0 }

/-- The module as it is configured. -/
def Core.powerUp : Core where
  seq := ⟨.resident, false, false, 0, 0, 0, 0, 0, 0, 0, 0, false, false, false, 0, 0, 0, 0, false, 0,
    fun _ => 0⟩
  fetch := ⟨0, 0, 0, false, false⟩
  uart := ⟨fun _ => 0, 0, 0, 0, false⟩
  rx := ⟨fun _ => 0, 0, 0⟩
  timer := ⟨0, 0⟩
  sync := ⟨0, 0, 0, 0⟩
  io := ⟨.idle, 0, 0, 0, false, false, false, false, false, 0⟩
  packet := ⟨fun _ _ => 0, fun _ => 0, fun _ => 0⟩
  staging := ⟨fun _ => 0, 0⟩

/-- A cycle in which nothing comes in. -/
def SysIn.rest : SysIn :=
  ⟨true, 0, 0, 0, false, false, 0, false, 0, false, 0, 0, 0, false, 0, false, 0xFFFFFFFF⟩

end EthminVm
end Xc7Tools
