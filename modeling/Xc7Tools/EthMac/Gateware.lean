/-
# eth_mac_1g: the gateware

`examples/vc707-ethmin/rtl/axis_gmii_tx.sv` and `axis_gmii_rx.sv`, the two
halves of `eth_mac_1g.sv`. A register is a field of the same name, without
its `_reg`. The combinational block of each module is a function from the
inputs and the registers to what it assigns, `Tx.Comb` and `Rx.Comb`, one
definition for each state; `clk` is the clocked block.

The board instantiates the MAC with padding to 64 bytes, with the clock enable
on and without MII (`Tx.board`, `Rx.board`).

Key definitions: `Tx.comb`, `Tx.clk`, `Rx.comb`, `Rx.clk`, `Tx.board`, `Rx.board`.
-/
import Xc7Tools.EthMac.Lfsr

namespace Xc7Tools
namespace EthMac

/-- ETH_PRE and ETH_SFD. -/
def ethPre : BitVec 8 := 0x55

def ethSfd : BitVec 8 := 0xD5

/-- Where `crc_state` is set. -/
def crcInit : BitVec 32 := 0xFFFFFFFF

/-- The signals of an AXI stream, but `tready`. -/
structure Axis where
  tdata : BitVec 8
  tvalid : Bool
  tlast : Bool
  tuser : Bool
  deriving DecidableEq

/-! ### axis_gmii_tx -/

namespace Tx

structure Config where
  enablePadding : Bool
  minFrameLength : BitVec 32
  ifgDelay : BitVec 8

inductive State where
  | idle
  | preamble
  | payload
  | last
  | pad
  | fcs
  | waitEnd
  | ifg
  deriving DecidableEq

/-- What an edge of the clock samples. -/
structure In where
  rst : Bool
  axis : Axis
  clkEnable : Bool
  miiSelect : Bool
  deriving DecidableEq

end Tx

structure Tx where
  state : Tx.State
  sTdata : BitVec 8
  ifg : BitVec 8
  miiOdd : Bool
  miiMsn : BitVec 4
  framePtr : BitVec 16
  gmiiTxd : BitVec 8
  gmiiTxEn : Bool
  gmiiTxEr : Bool
  sAxisTready : Bool
  crcState : BitVec 32
  fcs : BitVec 32
  deriving DecidableEq

namespace Tx

/-- What the combinational block assigns. -/
structure Comb where
  state : State
  resetCrc : Bool
  updateCrc : Bool
  miiOdd : Bool
  miiMsn : BitVec 4
  framePtr : BitVec 16
  fcs : BitVec 32
  ifg : BitVec 8
  sAxisTready : Bool
  sTdata : BitVec 8
  gmiiTxd : BitVec 8
  gmiiTxEn : Bool
  gmiiTxEr : Bool

/-- The assignments at the top of the block. -/
def Comb.default (s : Tx) : Comb where
  state := .idle
  resetCrc := false
  updateCrc := false
  miiOdd := s.miiOdd
  miiMsn := s.miiMsn
  framePtr := s.framePtr
  fcs := s.fcs
  ifg := s.ifg
  sAxisTready := false
  sTdata := s.sTdata
  gmiiTxd := 0
  gmiiTxEn := false
  gmiiTxEr := false

/-- STATE_IDLE -/
def idle (a : Axis) (c : Comb) : Comb :=
  let c := { c with resetCrc := true, miiOdd := false }
  if a.tvalid then
    { c with miiOdd := true, framePtr := 1, gmiiTxd := ethPre, gmiiTxEn := true, state := .preamble }
  else { c with state := .idle }

/-- STATE_PREAMBLE -/
def preamble (a : Axis) (s : Tx) (c : Comb) : Comb :=
  let c :=
    { c with
      resetCrc := true
      miiOdd := true
      framePtr := s.framePtr + 1
      gmiiTxd := ethPre
      gmiiTxEn := true }
  if s.framePtr = 6 then { c with sAxisTready := true, sTdata := a.tdata, state := .preamble }
  else if s.framePtr = 7 then
    let c := { c with framePtr := 0 }
    let c := if s.sAxisTready then { c with sAxisTready := true, sTdata := a.tdata } else c
    { c with gmiiTxd := ethSfd, state := .payload }
  else { c with state := .preamble }

/-- STATE_PAYLOAD -/
def payload (a : Axis) (s : Tx) (c : Comb) : Comb :=
  let c :=
    { c with
      updateCrc := true
      sAxisTready := true
      miiOdd := true
      framePtr := s.framePtr + 1
      gmiiTxd := s.sTdata
      gmiiTxEn := true
      sTdata := a.tdata }
  if a.tvalid then
    if a.tlast then
      let c := { c with sAxisTready := !s.sAxisTready }
      if a.tuser then { c with gmiiTxEr := true, framePtr := 0, state := .ifg }
      else { c with state := .last }
    else { c with state := .payload }
  else { c with gmiiTxEr := true, framePtr := 0, state := .waitEnd }

/-- `frame_ptr_reg < MIN_FRAME_LENGTH-5` -/
def short (cfg : Config) (s : Tx) : Bool := s.framePtr.setWidth 32 < cfg.minFrameLength - 5

/-- STATE_LAST -/
def last (cfg : Config) (s : Tx) (c : Comb) : Comb :=
  let c :=
    { c with
      updateCrc := true
      miiOdd := true
      framePtr := s.framePtr + 1
      gmiiTxd := s.sTdata
      gmiiTxEn := true }
  if cfg.enablePadding && s.short cfg then { c with sTdata := 0, state := .pad }
  else { c with framePtr := 0, state := .fcs }

/-- STATE_PAD -/
def pad (cfg : Config) (s : Tx) (c : Comb) : Comb :=
  let c :=
    { c with
      updateCrc := true
      miiOdd := true
      framePtr := s.framePtr + 1
      gmiiTxd := 0
      gmiiTxEn := true
      sTdata := 0 }
  if s.short cfg then { c with state := .pad } else { c with framePtr := 0, state := .fcs }

/-- Byte `k` of the inverted register. -/
def fcsByte (crcState : BitVec 32) (k : ℕ) : BitVec 8 := ~~~crcState.extractLsb' (8 * k) 8

/-- STATE_FCS -/
def sendFcs (s : Tx) (c : Comb) : Comb :=
  let c := { c with miiOdd := true, framePtr := s.framePtr + 1 }
  let c := if s.framePtr ≤ 3 then { c with gmiiTxd := fcsByte s.crcState s.framePtr.toNat } else c
  let c := { c with gmiiTxEn := true }
  if s.framePtr < 3 then { c with state := .fcs }
  else { c with framePtr := 0, fcs := s.crcState, state := .ifg }

/-- STATE_WAIT_END -/
def waitEnd (a : Axis) (s : Tx) (c : Comb) : Comb :=
  let c :=
    { c with resetCrc := true, miiOdd := true, framePtr := s.framePtr + 1, sAxisTready := true }
  if a.tvalid then
    if a.tlast then { c with sAxisTready := false, ifg := 0, state := .ifg }
    else { c with state := .waitEnd }
  else { c with state := .waitEnd }

/-- STATE_IFG. The difference is one of 32 bits. -/
def sendIfg (cfg : Config) (s : Tx) (c : Comb) : Comb :=
  let c := { c with resetCrc := true, miiOdd := true, framePtr := s.framePtr + 1 }
  if s.ifg.setWidth 32 < cfg.ifgDelay.setWidth 32 - (1 : BitVec 32) then
    { c with ifg := s.ifg + 1, state := .ifg }
  else { c with state := .idle }

/-- The `case` over the states. -/
def byState (cfg : Config) (a : Axis) (s : Tx) (c : Comb) : Comb :=
  match s.state with
  | .idle => idle a c
  | .preamble => preamble a s c
  | .payload => payload a s c
  | .last => last cfg s c
  | .pad => pad cfg s c
  | .fcs => sendFcs s c
  | .waitEnd => waitEnd a s c
  | .ifg => sendIfg cfg s c

/-- The combinational block. -/
def comb (cfg : Config) (i : In) (s : Tx) : Comb :=
  let c := Comb.default s
  if !i.clkEnable then
    { c with gmiiTxd := s.gmiiTxd, gmiiTxEn := s.gmiiTxEn, gmiiTxEr := s.gmiiTxEr, state := s.state }
  else if i.miiSelect && s.miiOdd then
    { c with
      miiOdd := false
      gmiiTxd := s.miiMsn.setWidth 8
      gmiiTxEn := s.gmiiTxEn
      gmiiTxEr := s.gmiiTxEr
      state := s.state }
  else
    let c := byState cfg i.axis s c
    if i.miiSelect then
      { c with
        miiMsn := c.gmiiTxd.extractLsb' 4 4
        gmiiTxd := (c.gmiiTxd.extractLsb' 0 4).setWidth 8 }
    else c

/-- The clocked block. -/
def clk (cfg : Config) (i : In) (s : Tx) : Tx :=
  let c := comb cfg i s
  let s' := { s with miiOdd := c.miiOdd, miiMsn := c.miiMsn, sTdata := c.sTdata, gmiiTxd := c.gmiiTxd }
  if i.rst then
    { s' with
      state := .idle
      framePtr := 0
      sAxisTready := false
      gmiiTxEn := false
      gmiiTxEr := false
      crcState := crcInit
      fcs := 0xFFFFFFFF }
  else
    { s' with
      state := c.state
      framePtr := c.framePtr
      sAxisTready := c.sAxisTready
      gmiiTxEn := c.gmiiTxEn
      gmiiTxEr := c.gmiiTxEr
      fcs := c.fcs
      ifg := c.ifg
      crcState :=
        if c.resetCrc then crcInit
        else if c.updateCrc then crcNext s.sTdata s.crcState
        else s.crcState }

/-- An edge of the board's clock: enabled, without MII. -/
def step (cfg : Config) (s : Tx) (a : Axis) : Tx := clk cfg ⟨false, a, true, false⟩ s

/-- The parameters of the board. -/
def board : Config := ⟨true, 64, 12⟩

end Tx

/-! ### axis_gmii_rx -/

namespace Rx

inductive State where
  | idle
  | payload
  | waitLast
  | crc
  deriving DecidableEq

/-- What an edge of the clock samples of the GMII. -/
structure Gmii where
  rxd : BitVec 8
  rxDv : Bool
  rxEr : Bool
  deriving DecidableEq

/-- What an edge of the clock samples. -/
structure In where
  rst : Bool
  gmii : Gmii
  clkEnable : Bool
  miiSelect : Bool
  deriving DecidableEq

end Rx

structure Rx where
  state : Rx.State
  miiOdd : Bool
  miiLocked : Bool
  rxdD0 : BitVec 8
  rxdD1 : BitVec 8
  rxdD2 : BitVec 8
  rxdD3 : BitVec 8
  rxdD4 : BitVec 8
  dvD0 : Bool
  dvD1 : Bool
  dvD2 : Bool
  dvD3 : Bool
  dvD4 : Bool
  erD0 : Bool
  erD1 : Bool
  erD2 : Bool
  erD3 : Bool
  erD4 : Bool
  mAxis : Axis
  errorBadFrame : Bool
  errorBadFcs : Bool
  fcs : BitVec 32
  crcState : BitVec 32
  crcCnt : BitVec 2
  deriving DecidableEq

namespace Rx

/-- What the combinational block assigns. -/
structure Comb where
  state : State
  resetCrc : Bool
  updateCrc : Bool
  mAxis : Axis
  errorBadFrame : Bool
  errorBadFcs : Bool
  fcs : BitVec 32
  crcCnt : BitVec 2

/-- The assignments at the top of the block. -/
def Comb.default (s : Rx) : Comb where
  state := .idle
  resetCrc := false
  updateCrc := false
  mAxis := ⟨0, false, false, false⟩
  errorBadFrame := false
  errorBadFcs := false
  fcs := s.fcs
  crcCnt := s.crcCnt

/-- `crc_next` -/
def crcNext (s : Rx) : BitVec 32 := EthMac.crcNext s.rxdD4 s.crcState

/-- STATE_IDLE -/
def idle (s : Rx) (c : Comb) : Comb :=
  let c := { c with resetCrc := true }
  if s.dvD4 && !s.erD4 && s.rxdD4 == ethSfd then { c with state := .payload }
  else { c with state := .idle }

/-- STATE_PAYLOAD -/
def payload (g : Gmii) (s : Rx) (c : Comb) : Comb :=
  let c := { c with updateCrc := true, mAxis.tdata := s.rxdD4, mAxis.tvalid := true }
  if s.dvD4 && s.erD4 then
    { c with
      mAxis.tlast := true
      mAxis.tuser := true
      errorBadFrame := true
      fcs := 0xDEADBEEF
      state := .waitLast }
  else if !g.rxDv then
    let c :=
      if s.erD0 || s.erD1 || s.erD2 || s.erD3 then
        { c with mAxis.tuser := true, errorBadFrame := true }
      else if s.rxdD0 ++ s.rxdD1 ++ s.rxdD2 ++ s.rxdD3 = ~~~s.crcNext then
        { c with mAxis.tuser := false }
      else { c with mAxis.tuser := true, errorBadFrame := true, errorBadFcs := true }
    { c with crcCnt := 0, state := .crc }
  else { c with state := .payload }

/-- STATE_CRC -/
def crc (s : Rx) (c : Comb) : Comb :=
  let c :=
    { c with updateCrc := true, mAxis.tdata := s.rxdD4, mAxis.tvalid := true, crcCnt := s.crcCnt + 1 }
  if s.crcCnt = 3 then { c with fcs := s.crcNext, mAxis.tlast := true, state := .idle }
  else { c with fcs := 0, state := .crc }

/-- STATE_WAIT_LAST -/
def waitLast (g : Gmii) (c : Comb) : Comb :=
  if !g.rxDv then { c with state := .idle } else { c with state := .waitLast }

/-- The `case` over the states. -/
def byState (g : Gmii) (s : Rx) (c : Comb) : Comb :=
  match s.state with
  | .idle => idle s c
  | .payload => payload g s c
  | .crc => crc s c
  | .waitLast => waitLast g c

/-- The combinational block. -/
def comb (i : In) (s : Rx) : Comb :=
  let c := Comb.default s
  if !i.clkEnable then { c with state := s.state }
  else if i.miiSelect && !s.miiOdd then { c with state := s.state }
  else byState i.gmii s c

/-- `{gmii_rxd[3:0], gmii_rxd_d0[7:4]}` -/
def nibbles (g : Gmii) (s : Rx) : BitVec 8 := g.rxd.extractLsb' 0 4 ++ s.rxdD0.extractLsb' 4 4

/-- The chain of `gmii_rx_dv`, behind the reset. -/
def shiftDv (i : In) (s s' : Rx) : Rx :=
  let dv := i.gmii.rxDv
  let chain (d0 : Bool) :=
    { s' with
      dvD0 := d0
      dvD1 := s.dvD0 && dv
      dvD2 := s.dvD1 && dv
      dvD3 := s.dvD2 && dv
      dvD4 := s.dvD3 && dv }
  if !i.clkEnable then s'
  else if i.miiSelect then if s.miiOdd then chain (dv && s.dvD0) else { s' with dvD0 := dv }
  else chain dv

/-- `mii_odd` and `mii_locked`. -/
def lockMii (i : In) (s s' : Rx) : Rx :=
  if i.clkEnable && i.miiSelect then
    if s.miiLocked then { s' with miiOdd := !s.miiOdd, miiLocked := i.gmii.rxDv }
    else if i.gmii.rxDv && nibbles i.gmii s == ethSfd then
      { s' with miiOdd := true, miiLocked := true }
    else { s' with miiOdd := !s.miiOdd }
  else s'

/-- "delay input": the chains of `gmii_rxd` and `gmii_rx_er`, which no reset stops. -/
def delay (i : In) (s s' : Rx) : Rx :=
  let chain (d0 : BitVec 8) (e0 : Bool) :=
    { s' with
      rxdD0 := d0
      rxdD1 := s.rxdD0
      rxdD2 := s.rxdD1
      rxdD3 := s.rxdD2
      rxdD4 := s.rxdD3
      erD0 := e0
      erD1 := s.erD0
      erD2 := s.erD1
      erD3 := s.erD2
      erD4 := s.erD3 }
  if !i.clkEnable then s'
  else if i.miiSelect then
    if s.miiOdd then chain (nibbles i.gmii s) (i.gmii.rxEr || s.erD0)
    else { s' with rxdD0 := nibbles i.gmii s, erD0 := i.gmii.rxEr }
  else chain i.gmii.rxd i.gmii.rxEr

/-- The clocked block. -/
def clk (i : In) (s : Rx) : Rx :=
  let c := comb i s
  let s' :=
    { s with mAxis := { c.mAxis with tvalid := s.mAxis.tvalid } }
  let s' :=
    if i.rst then
      { s' with
        state := .idle
        mAxis.tvalid := false
        errorBadFrame := false
        errorBadFcs := false
        fcs := 0xFFFFFFFF
        crcState := crcInit
        crcCnt := 0
        miiLocked := false
        miiOdd := false
        dvD0 := false
        dvD1 := false
        dvD2 := false
        dvD3 := false
        dvD4 := false }
    else
      let s' :=
        { s' with
          state := c.state
          mAxis.tvalid := c.mAxis.tvalid
          errorBadFrame := c.errorBadFrame
          errorBadFcs := c.errorBadFcs
          fcs := c.fcs
          crcCnt := c.crcCnt
          crcState :=
            if c.resetCrc then crcInit else if c.updateCrc then s.crcNext else s.crcState }
      shiftDv i s (lockMii i s s')
  delay i s s'

/-- An edge of the board's clock: enabled, without MII. -/
def step (s : Rx) (g : Gmii) : Rx := clk ⟨false, g, true, false⟩ s

end Rx

end EthMac
end Xc7Tools
