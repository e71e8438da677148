/-
# ethmin_vm_core: the trap port

What a VM may drive on the trap port: it raises `trap_valid` with IO_READ or
IO_WRITE, holds it with its arguments until it sees `trap_ready`, then drops
it for a cycle at least, and pulses `putc_valid` only while no request is
pending. `Phase` is where a VM is in this, `Play` the module with such a VM.

In a cycle the I/O block either lets the request wait (`Passed`) or answers it
and does what it asks for (`Answered`), and when it answers is known from the
request, how long it has been up and whether the UART's FIFO is full
(`Req.due`): this is `clkSys_cases`, which every result about requests rests
on.

Key definitions: `Req`, `Phase`, `Play.step`, `Play.Allows`, `Req.due`,
`Passed`, `Answered`.
Key theorems: `clkSys_cases`.
-/
import Xc7Tools.EthminVm.Gateware
import Xc7Tools.Lib.Run

namespace Xc7Tools
namespace EthminVm

open Lanes (lane setLane)

/-! ### Requests -/

/-- An address of the packet RAM. -/
def isPacket (a : BitVec 32) : Bool := a < 0x1000

/-- An address of the staging RAM. -/
def isStage (a : BitVec 32) : Bool := 0x10000 ≤ a && a < 0x20000

/-- An address of one of the memories. -/
def isRam (a : BitVec 32) : Bool := isPacket a || isStage a

/-- An IO_READ or IO_WRITE with its arguments. -/
structure Req where
  write : Bool
  addr : BitVec 32
  data : BitVec 32
  deriving DecidableEq

namespace Req

/-- A read of one of the memories, which takes a cycle more. -/
def isRamRead (q : Req) : Bool := !q.write && isRam q.addr

/-- A write of the register at `a`. -/
def writes (q : Req) (a : BitVec 32) : Bool := q.write && q.addr == a

/-- The byte a write brings. -/
def byte (q : Req) : BitVec 8 := q.data.setWidth 8

/-- The request is answered in a cycle before which it has been up for `age`. -/
def due (q : Req) (age : ℕ) (ufFull : Bool) : Bool :=
  if q.isRamRead then age == 1
  else if q.writes 0x1005 then decide (0 < age) && !ufFull
  else age == 0

theorem writes_iff {q : Req} {a : BitVec 32} :
    q.writes a = true ↔ q.write = true ∧ q.addr = a := by
  rw [writes, Bool.and_eq_true, beq_iff_eq]

/-- A memory is no register. -/
theorem writes_of_isRam {q : Req} {a : BitVec 32} (h : isRam q.addr = true)
    (ha : isRam a = false) : q.writes a = false := by
  rw [Bool.eq_false_iff]
  intro hw
  rw [(writes_iff.mp hw).2, ha] at h
  cases h

theorem writes_of_read {q : Req} {a : BitVec 32} (h : q.write = false) : q.writes a = false := by
  rw [writes, h, Bool.false_and]

end Req

/-- The request an edge samples. -/
def SysIn.req (i : SysIn) : Req := ⟨i.ioWrite, i.trapArg0, i.trapArg1⟩

theorem SysIn.ioWrite_eq (i : SysIn) : i.ioWrite = i.req.write := rfl

theorem SysIn.ioIsPacket_eq (i : SysIn) : i.ioIsPacket = isPacket i.req.addr := rfl

theorem SysIn.ioIsStage_eq (i : SysIn) : i.ioIsStage = isStage i.req.addr := rfl

/-- `trap_prim` names a request. -/
def SysIn.isIo (i : SysIn) : Bool := i.ioRead || i.ioWrite

theorem SysIn.ioRead_eq {i : SysIn} (h : i.isIo = true) : i.ioRead = !i.req.write := by
  unfold SysIn.isIo SysIn.ioRead SysIn.ioWrite at h
  unfold SysIn.req SysIn.ioRead SysIn.ioWrite
  rcases Bool.or_eq_true _ _ ▸ h with h | h <;> rw [beq_iff_eq] at h <;> rw [h] <;> rfl

/-! ### The VM -/

/-- Where a VM is in the protocol; `asking q age` has had `q` up for `age`
cycles out of reset, `told` is the cycle that shows `trap_ready`. -/
inductive Phase
  | idle
  | asking (q : Req) (age : ℕ)
  | told
  | dropped
  deriving DecidableEq

namespace Phase

/-- What the VM may drive. -/
def Allows (i : SysIn) : Phase → Prop
  | .idle => i.trapValid = true → i.isIo = true ∧ i.putcValid = false
  | .asking q _ => i.trapValid = true ∧ i.isIo = true ∧ i.req = q ∧ i.putcValid = false
  | .told => True
  | .dropped => i.trapValid = false

/-- The request that is up in a cycle, with the cycles it has been before. -/
def request (i : SysIn) : Phase → Option (Req × ℕ)
  | .idle => if i.trapValid then some (i.req, 0) else none
  | .asking q age => some (q, age)
  | _ => none

/-- The phase after a cycle. -/
def next (i : SysIn) (vmReset ready : Bool) (f : Phase) : Phase :=
  match f.request i with
  | some (q, age) => if ready then .told else .asking q (if vmReset then age else age + 1)
  | none => if f = .told ∧ i.trapValid = true then .dropped else .idle

/-- The request that is open. -/
def waiting : Phase → List Req
  | .asking q _ => [q]
  | _ => []

/-- The state of the I/O block in each phase. -/
def Fits (s : IoState) : Phase → Prop
  | .idle => s = .idle
  | .asking q age =>
    if age = 0 then s = .idle
    else if q.isRamRead then age = 1 ∧ s = if isPacket q.addr then .pktRead else .stageRead
    else q.writes 0x1005 = true ∧ s = .uart
  | .told => s = .done
  | .dropped => s = .done ∨ s = .idle

/-- A request that is up has just come up, or is open. -/
theorem request_cases {i : SysIn} {f : Phase} {q : Req} {age : ℕ}
    (h : f.request i = some (q, age)) :
    f = .idle ∧ i.trapValid = true ∧ i.req = q ∧ age = 0 ∨ f = .asking q age := by
  cases f with
  | idle =>
    change (if i.trapValid = true then some (i.req, 0) else none) = some (q, age) at h
    split at h
    · rename_i ht
      injection h with h
      injection h with hq hage
      exact Or.inl ⟨rfl, ht, hq, hage.symm⟩
    · cases h
  | asking r n =>
    injection h with h
    injection h with hq hage
    rw [hq, hage]
    exact Or.inr rfl
  | told => cases h
  | dropped => cases h

/-- What the I/O block does with a request that is up: it has not begun it, it
reads the memory, or it waits for room in the UART's FIFO. -/
theorem fits_cases {i : SysIn} {f : Phase} {s : IoState} (hF : f.Fits s) {q : Req} {age : ℕ}
    (h : f.request i = some (q, age)) :
    age = 0 ∧ s = .idle ∨
      f = .asking q age ∧ q.isRamRead = true ∧ age = 1 ∧
        s = (if isPacket q.addr then .pktRead else .stageRead) ∨
      f = .asking q age ∧ q.isRamRead = false ∧ 0 < age ∧ q.writes 0x1005 = true ∧ s = .uart := by
  rcases request_cases h with ⟨rfl, -, -, h0⟩ | rfl
  · exact Or.inl ⟨h0, hF⟩
  · by_cases h0 : age = 0
    · rw [Fits, if_pos h0] at hF
      exact Or.inl ⟨h0, hF⟩
    · rw [Fits, if_neg h0] at hF
      rcases Bool.eq_false_or_eq_true q.isRamRead with hrd | hrd
      · rw [if_pos hrd] at hF
        exact Or.inr (Or.inl ⟨rfl, hrd, hF⟩)
      · rw [if_neg (ne_true_of_eq_false hrd)] at hF
        exact Or.inr (Or.inr ⟨rfl, hrd, Nat.pos_of_ne_zero h0, hF⟩)

/-- The I/O block is not done with a request that is up. -/
theorem ne_done {i : SysIn} {f : Phase} {s : IoState} (hF : f.Fits s) {u : Req × ℕ}
    (h : f.request i = some u) : s ≠ .done := by
  rcases fits_cases hF h with ⟨-, rfl⟩ | ⟨-, -, -, rfl⟩ | ⟨-, -, -, -, rfl⟩
  · exact IoState.noConfusion
  · split <;> exact IoState.noConfusion
  · exact IoState.noConfusion

/-- A request the I/O block has not begun has just come up, or waits for the VM's reset to end. -/
theorem age_eq_zero {i : SysIn} {f : Phase} {s : IoState} (hF : f.Fits s)
    (hs : s = .idle ∨ s = .done) {q : Req} {age : ℕ} (h : f.request i = some (q, age)) :
    age = 0 := by
  have hs : s = .idle := hs.resolve_right (ne_done hF h)
  rcases fits_cases hF h with ⟨h0, -⟩ | ⟨-, -, -, h'⟩ | ⟨-, -, -, -, h'⟩
  · exact h0
  · rw [hs] at h'
    split at h' <;> cases h'
  · rw [hs] at h'
    cases h'

/-- A request that is up is the one on the port. -/
theorem request_eq {i : SysIn} {f : Phase} (hA : f.Allows i) {q : Req} {age : ℕ}
    (h : f.request i = some (q, age)) :
    i.trapValid = true ∧ i.isIo = true ∧ i.req = q ∧ i.putcValid = false := by
  rcases request_cases h with ⟨rfl, ht, hq, -⟩ | rfl
  · obtain ⟨hio, hputc⟩ := hA ht
    exact ⟨ht, hio, hq, hputc⟩
  · exact hA

end Phase

/-- The module with a VM at its trap port. -/
structure Play where
  core : Core
  phase : Phase

namespace Play

def step (p : Params) (x : Play) : Edge → Play
  | .sys i =>
    let c' := x.core.clkSys p i
    ⟨c', x.phase.next i (x.core.vmReset i) c'.io.trapReady⟩
  | .eth b => ⟨x.core.ethClk b, x.phase⟩

/-- An edge of a run since a reset, with the VM keeping the protocol. -/
def Allows (x : Play) : Edge → Prop
  | .sys i => i.resetn = true ∧ x.phase.Allows i
  | .eth _ => True

/-- After an edge with `resetn` low. -/
def reset (p : Params) (c : Core) (i : SysIn) : Play := ⟨c.clkSys p { i with resetn := false }, .idle⟩

end Play

/-! ### A cycle -/

/-- Nothing is answered, and nothing done: the FIFO of the UART has what `putc_valid` brings. -/
structure Passed (c c' : Core) (i : SysIn) : Prop where
  trapReady : c'.io.trapReady = false
  rxAck : c'.io.rxAck = false
  txStart : c'.io.txStart = false
  bootReq : c'.io.bootReq = false
  rxfPop : c'.io.rxfPop = false
  leds : c'.io.leds = c.io.leds
  mem : c'.packet.mem = c.packet.mem
  stageRam : c'.staging.stageRam = c.staging.stageRam
  ufPush : c.ufPush i = i.putcValid

/-- The request `q` is answered, with all it does. -/
structure Answered (p : Params) (q : Req) (c c' : Core) (i : SysIn) : Prop where
  trapReady : c'.io.trapReady = true
  ioState : c'.io.ioState = .done
  rxAck : c'.io.rxAck = q.writes 0x1002
  txStart : c'.io.txStart = q.writes 0x1003
  txLen : q.writes 0x1003 = true → c'.io.txLen = q.data.setWidth 11
  leds : c'.io.leds = if q.writes 0x1004 then q.byte else c.io.leds
  bootReq : c'.io.bootReq = q.writes 0x1007
  rxfPop : c'.io.rxfPop = (!q.write && q.addr == 0x1008 && !c.rx.rxfEmpty)
  mem : c'.packet.mem = if q.write && isPacket q.addr then
      Function.update c.packet.mem (q.addr.setWidth 2)
        (Function.update (c.packet.mem (q.addr.setWidth 2)) (q.addr.extractLsb' 2 10) q.byte)
    else c.packet.mem
  stageRam : c'.staging.stageRam = if q.write && isStage q.addr then
      Function.update c.staging.stageRam ((q.addr.extractLsb' 2 14).setWidth 15)
        (setLane (c.staging.stageRam ((q.addr.extractLsb' 2 14).setWidth 15))
          (q.addr.setWidth 2).toNat q.byte)
    else c.staging.stageRam
  ufPush : c.ufPush i = q.writes 0x1005
  room : q.writes 0x1005 = true → c.uart.ufFull = false
  ramRead : q.isRamRead = true →
    c.io.ioState = (if isPacket q.addr then .pktRead else .stageRead) ∧
      c'.io.trapResult = (lane c.ioReadWord c.io.ioLane.toNat).setWidth 32
  register : isRam q.addr = false → q.writes 0x1005 = false → c'.io.trapResult = c.register p i

section

variable {p : Params} {c : Core} {i : SysIn}

theorem clkPacket_mem : (c.clkPacket i).mem =
    if c.ioNew i && (i.req.write && isPacket i.req.addr) then
      Function.update c.packet.mem (i.req.addr.setWidth 2)
        (Function.update (c.packet.mem (i.req.addr.setWidth 2)) (i.req.addr.extractLsb' 2 10)
          i.req.byte)
    else c.packet.mem := by
  have hlane (k l : BitVec 2) : ((1 : BitVec 4) <<< k.toNat).getLsbD l.toNat = decide (l = k) := by
    revert k l
    decide
  have hbyte (l : BitVec 2) : lane (Core.paWdata i) l.toNat = i.req.byte := by
    apply BitVec.eq_of_getLsbD_eq
    intro j hj
    have hl := l.isLt
    rw [lane, BitVec.getLsbD_extractLsb', Core.paWdata, BitVec.getLsbD_replicate]
    have hlt : 8 * l.toNat + j < 8 * 4 := by omega
    have hmod : (8 * l.toNat + j) % 8 = j := by omega
    simp only [hj, hlt, hmod, decide_true, Bool.true_and]
    rfl
  unfold Core.clkPacket Core.paEn Core.paWe
  simp only [i.ioWrite_eq, i.ioIsPacket_eq]
  rcases Bool.eq_false_or_eq_true (c.ioNew i) with hnew | hnew
  · rcases Bool.eq_false_or_eq_true (isPacket i.req.addr) with hpkt | hpkt
    · rcases Bool.eq_false_or_eq_true i.req.write with hw | hw
      · simp only [hnew, hpkt, hw, Bool.and_self, if_true]
        funext l
        rw [hlane, hbyte]
        by_cases hl : l = i.ioAddrLane
        · have hl' : l = i.req.addr.setWidth 2 := hl
          rw [if_pos (decide_eq_true hl), ← hl', Function.update_self]
          rfl
        · have hl' : l ≠ i.req.addr.setWidth 2 := hl
          rw [if_neg (by simpa using hl), Function.update_of_ne hl']
      · simp [hnew, hpkt, hw]
    · simp [hpkt]
  · simp [hnew]

theorem clkStaging_stageRam : (c.clkStaging i).stageRam =
    if c.ioNew i && (i.req.write && isStage i.req.addr) then
      Function.update c.staging.stageRam ((i.req.addr.extractLsb' 2 14).setWidth 15)
        (setLane (c.staging.stageRam ((i.req.addr.extractLsb' 2 14).setWidth 15))
          (i.req.addr.setWidth 2).toNat i.req.byte)
    else c.staging.stageRam := by
  unfold Core.clkStaging
  simp only [i.ioWrite_eq, i.ioIsStage_eq]
  rcases Bool.eq_false_or_eq_true (c.ioNew i) with hnew | hnew
  · rcases Bool.eq_false_or_eq_true (isStage i.req.addr) with hst | hst
    · rcases Bool.eq_false_or_eq_true i.req.write with hw | hw
      · simp only [hnew, hst, hw, Bool.and_self, if_true]
        rfl
      · simp [hnew, hst, hw]
    · simp [hst]
  · simp [hnew]

/-- A cycle that only lowers the pulses and moves the state. -/
theorem passed_of_lowered {l : BitVec 2} {s : IoState}
    (hio : c.clkIo p i = { c.io.lowered with ioLane := l, ioState := s })
    (hram : c.ioNew i = false ∨ i.req.write = false ∨ isRam i.req.addr = false)
    (hpush : c.ufPush i = i.putcValid) : Passed c (c.clkSys p i) i := by
  have hnone : (c.ioNew i && (i.req.write && isPacket i.req.addr)) = false ∧
      (c.ioNew i && (i.req.write && isStage i.req.addr)) = false := by
    rcases hram with h | h | h
    · simp [h]
    · simp [h]
    · simp [(Bool.or_eq_false_iff.mp h).1, (Bool.or_eq_false_iff.mp h).2]
  constructor
  case mem =>
    change (c.clkPacket i).mem = _
    simp [clkPacket_mem, hnone.1]
  case stageRam =>
    change (c.clkStaging i).stageRam = _
    simp [clkStaging_stageRam, hnone.2]
  case ufPush => exact hpush
  all_goals
    simp only [Core.clkSys, hio]
    rfl

end

/-! ### The I/O block, state by state -/

section

variable {p : Params} {c : Core} {i : SysIn}

theorem clkIo_of_vmReset (hr : i.resetn = true) (hv : c.vmReset i = true) :
    c.clkIo p i = { c.io.lowered with ioState := .idle } := by
  simp [Core.clkIo, hr, hv]

theorem clkIo_of_idle (hr : i.resetn = true) (hv : c.vmReset i = false)
    (hs : c.io.ioState = .idle) :
    c.clkIo p i = if c.ioNew i then c.accept p i c.io.lowered else c.io.lowered := by
  simp [Core.clkIo, hr, hv, hs]

theorem clkIo_of_read (hr : i.resetn = true) (hv : c.vmReset i = false)
    (hs : c.io.ioState = .pktRead ∨ c.io.ioState = .stageRead) :
    c.clkIo p i =
      { c.io.lowered with
        trapResult := (lane c.ioReadWord c.io.ioLane.toNat).setWidth 32
        trapReady := true
        ioState := .done } := by
  rcases hs with hs | hs <;> simp [Core.clkIo, hr, hv, hs]

theorem clkIo_of_uart (hr : i.resetn = true) (hv : c.vmReset i = false)
    (hs : c.io.ioState = .uart) :
    c.clkIo p i =
      if c.uart.ufFull then c.io.lowered
      else { c.io.lowered with trapReady := true, ioState := .done } := by
  by_cases hf : c.uart.ufFull = true <;> simp [Core.clkIo, hr, hv, hs, hf]

theorem clkIo_of_done (hr : i.resetn = true) (hv : c.vmReset i = false)
    (hs : c.io.ioState = .done) :
    c.clkIo p i = if i.trapValid then c.io.lowered else { c.io.lowered with ioState := .idle } := by
  by_cases ht : i.trapValid = true <;> simp [Core.clkIo, hr, hv, hs, ht]

theorem ufPush_of_not_uart (hs : c.io.ioState ≠ .uart) : c.ufPush i = i.putcValid := by
  simp [Core.ufPush, hs]

/-! ### A request comes up -/

theorem accept_ramRead (hio : i.isIo = true) (hq : i.req.isRamRead = true) :
    c.accept p i c.io.lowered =
      { c.io.lowered with
        ioLane := i.ioAddrLane
        ioState := if isPacket i.req.addr then .pktRead else .stageRead } := by
  obtain ⟨hw, hram⟩ : i.req.write = false ∧ isRam i.req.addr = true := by
    simpa [Req.isRamRead] using hq
  have hram : (i.ioIsPacket || i.ioIsStage) = true := hram
  have hrd : i.ioRead = true := by rw [SysIn.ioRead_eq hio, hw, Bool.not_false]
  unfold Core.accept
  rw [if_pos hram, if_pos hrd]
  rfl

theorem accept_uart (hq : i.req.writes 0x1005 = true) :
    c.accept p i c.io.lowered =
      { c.io.lowered with ioLane := i.ioAddrLane, ioState := .uart } := by
  obtain ⟨hw, ha⟩ := Req.writes_iff.mp hq
  have hram : (i.ioIsPacket || i.ioIsStage) = false := by
    change isRam i.req.addr = false
    rw [ha]
    rfl
  have hu : (i.ioWrite && i.trapArg0 == 0x1005) = true := hq
  unfold Core.accept
  rw [if_neg (ne_true_of_eq_false hram), if_pos hu]

theorem accept_ramWrite (hio : i.isIo = true) (hw : i.req.write = true)
    (hram : isRam i.req.addr = true) :
    c.accept p i c.io.lowered =
      { c.io.lowered with ioLane := i.ioAddrLane, trapReady := true, ioState := .done } := by
  have hram : (i.ioIsPacket || i.ioIsStage) = true := hram
  have hrd : i.ioRead = false := by rw [SysIn.ioRead_eq hio, hw, Bool.not_true]
  unfold Core.accept
  rw [if_pos hram, if_neg (ne_true_of_eq_false hrd)]

theorem accept_register (hio : i.isIo = true) (hram : isRam i.req.addr = false)
    (hu : i.req.writes 0x1005 = false) :
    c.accept p i c.io.lowered =
      { c.io with
        ioState := .done
        ioLane := i.ioAddrLane
        leds := if i.req.writes 0x1004 then i.req.byte else c.io.leds
        txLen := if i.req.writes 0x1003 then i.req.data.setWidth 11 else c.io.txLen
        txStart := i.req.writes 0x1003
        rxAck := i.req.writes 0x1002
        bootReq := i.req.writes 0x1007
        rxfPop := !i.req.write && i.req.addr == 0x1008 && !c.rx.rxfEmpty
        trapReady := true
        trapResult := c.register p i } := by
  have hram : (i.ioIsPacket || i.ioIsStage) = false := hram
  have hu : (i.ioWrite && i.trapArg0 == 0x1005) = false := hu
  have hrd := SysIn.ioRead_eq hio
  unfold Core.accept
  rw [if_neg (ne_true_of_eq_false hram), if_neg (ne_true_of_eq_false hu)]
  simp only [hrd, SysIn.ioWrite_eq]
  rcases Bool.eq_false_or_eq_true i.req.write with hw | hw
  · -- at most one of the four addresses of `case (io_addr)`
    have hwrites (a : BitVec 32) : i.req.writes a = (i.trapArg0 == a) := by
      simp only [Req.writes, hw, Bool.true_and]
      rfl
    simp only [hw, hwrites, if_true, Core.writeRegister, beq_iff_eq]
    by_cases h2 : i.trapArg0 = 0x1002
    · simp [h2, Io.lowered]
    · by_cases h3 : i.trapArg0 = 0x1003
      · simp [h3, Io.lowered]
        rfl
      · by_cases h4 : i.trapArg0 = 0x1004
        · simp [h4, Io.lowered]
          rfl
        · by_cases h7 : i.trapArg0 = 0x1007
          · simp [h7, Io.lowered]
          · simp only [if_neg h2, if_neg h3, if_neg h4, if_neg h7, beq_eq_false_iff_ne.mpr h2,
              beq_eq_false_iff_ne.mpr h3, beq_eq_false_iff_ne.mpr h7, Bool.not_true, Bool.false_and,
              Bool.and_false]
            rfl
  · simp only [hw, Req.writes_of_read hw, Bool.not_false, Bool.true_and, if_false, Io.lowered,
      Bool.false_eq_true]
    rfl

end

/-! ### Whatever is up, passed or answered -/

section

variable {p : Params} {c : Core} {i : SysIn}

theorem ioNew_eq (hr : i.trapValid = true) (hio : i.isIo = true) (hs : c.io.ioState = .idle)
    (hv : c.vmReset i = false) : c.ioNew i = true := by
  have hio : (i.ioRead || i.ioWrite) = true := hio
  simp [Core.ioNew, hr, hio, hs, hv]

theorem ioNew_of_state (h : c.io.ioState ≠ .idle) : c.ioNew i = false := by
  simp [Core.ioNew, h]

/-- An answer that asks nothing of a register: the pulses end, and only the
memories can have changed. -/
theorem answered_of_lowered {l : BitVec 2} {v : BitVec 32}
    (hclk : c.clkIo p i =
      { c.io.lowered with ioLane := l, trapResult := v, trapReady := true, ioState := .done })
    (hno : ∀ a, isRam a = false → a ≠ 0x1005 → i.req.writes a = false)
    (hpop : (!i.req.write && i.req.addr == 0x1008) = false)
    (hram : c.ioNew i = true ∨ i.req.write = false ∨ isRam i.req.addr = false)
    (hpush : c.ufPush i = i.req.writes 0x1005)
    (hroom : i.req.writes 0x1005 = true → c.uart.ufFull = false)
    (hread : i.req.isRamRead = true →
      c.io.ioState = (if isPacket i.req.addr then .pktRead else .stageRead) ∧
        v = (lane c.ioReadWord c.io.ioLane.toNat).setWidth 32)
    (hregister : isRam i.req.addr = false → i.req.writes 0x1005 = true) :
    Answered p i.req c (c.clkSys p i) i := by
  have hio : (c.clkSys p i).io = _ := hclk
  have h2 := hno 0x1002 rfl (by decide)
  have h3 := hno 0x1003 rfl (by decide)
  have h4 := hno 0x1004 rfl (by decide)
  have h7 := hno 0x1007 rfl (by decide)
  have hwrite : (c.ioNew i && (i.req.write && isPacket i.req.addr)) =
        (i.req.write && isPacket i.req.addr) ∧
      (c.ioNew i && (i.req.write && isStage i.req.addr)) =
        (i.req.write && isStage i.req.addr) := by
    rcases hram with h | h | h
    · simp [h]
    · simp [h]
    · simp [(Bool.or_eq_false_iff.mp h).1, (Bool.or_eq_false_iff.mp h).2]
  constructor
  case mem =>
    refine clkPacket_mem.trans ?_
    rw [hwrite.1]
  case stageRam =>
    refine clkStaging_stageRam.trans ?_
    rw [hwrite.2]
  case ufPush => exact hpush
  case room => exact hroom
  case txLen => exact fun h => absurd h (ne_true_of_eq_false h3)
  case ramRead => exact fun h => ⟨(hread h).1, (congrArg Io.trapResult hio).trans (hread h).2⟩
  case register => exact fun h hu => absurd (hregister h) (ne_true_of_eq_false hu)
  case trapReady => exact congrArg Io.trapReady hio
  case ioState => exact congrArg Io.ioState hio
  case rxAck => exact (congrArg Io.rxAck hio).trans h2.symm
  case txStart => exact (congrArg Io.txStart hio).trans h3.symm
  case bootReq => exact (congrArg Io.bootReq hio).trans h7.symm
  case leds =>
    rw [hio, h4]
    rfl
  case rxfPop =>
    rw [hio, hpop]
    rfl

/-- A request that comes up, other than a RAM read and a UART write, is answered at once. -/
theorem answered_of_accept (hr : i.resetn = true) (hv : c.vmReset i = false)
    (hs : c.io.ioState = .idle) (ht : i.trapValid = true) (hio : i.isIo = true)
    (hputc : i.putcValid = false) (hrd : i.req.isRamRead = false)
    (hu : i.req.writes 0x1005 = false) : Answered p i.req c (c.clkSys p i) i := by
  have hnew := ioNew_eq ht hio hs hv
  have hclk : c.clkIo p i = c.accept p i c.io.lowered := by
    rw [clkIo_of_idle hr hv hs, if_pos hnew]
  have hpush : c.ufPush i = i.req.writes 0x1005 := by
    rw [ufPush_of_not_uart (by rw [hs]; exact IoState.noConfusion), hputc, hu]
  rcases Bool.eq_false_or_eq_true (isRam i.req.addr) with hram | hram
  · have hw : i.req.write = true := by
      simpa [Req.isRamRead, hram] using hrd
    rw [accept_ramWrite hio hw hram] at hclk
    apply answered_of_lowered (v := c.io.trapResult) hclk
    · exact fun a ha _ => Req.writes_of_isRam hram ha
    · rw [hw]
      rfl
    · exact Or.inl hnew
    · exact hpush
    · exact fun h => absurd h (ne_true_of_eq_false hu)
    · exact fun h => absurd h (ne_true_of_eq_false hrd)
    · exact fun h => absurd hram (ne_true_of_eq_false h)
  · have hclk : (c.clkSys p i).io = _ := hclk.trans (accept_register hio hram hu)
    have hmem : (c.clkSys p i).packet.mem = _ := clkPacket_mem
    have hstage : (c.clkSys p i).staging.stageRam = _ := clkStaging_stageRam
    rw [hnew, Bool.true_and] at hmem hstage
    constructor
    case mem => exact hmem
    case stageRam => exact hstage
    case ufPush => exact hpush
    case room => exact fun h => absurd h (ne_true_of_eq_false hu)
    case txLen => exact fun h => by rw [hclk, h, if_pos rfl]
    case ramRead => exact fun h => absurd h (ne_true_of_eq_false hrd)
    all_goals
      rw [hclk]
    exact fun _ _ => rfl

/-- A RAM read is answered in its second cycle. -/
theorem answered_of_read (hr : i.resetn = true) (hv : c.vmReset i = false)
    (hs : c.io.ioState = if isPacket i.req.addr then .pktRead else .stageRead)
    (hputc : i.putcValid = false) (hrd : i.req.isRamRead = true) :
    Answered p i.req c (c.clkSys p i) i := by
  obtain ⟨hw, hram⟩ : i.req.write = false ∧ isRam i.req.addr = true := by
    simpa [Req.isRamRead] using hrd
  have hstate : c.io.ioState = .pktRead ∨ c.io.ioState = .stageRead := by
    rw [hs]
    split
    · exact Or.inl rfl
    · exact Or.inr rfl
  have hno (a : BitVec 32) : i.req.writes a = false := Req.writes_of_read hw
  apply answered_of_lowered (l := c.io.ioLane) (clkIo_of_read hr hv hstate)
  · exact fun a _ _ => hno a
  · rw [hw, Bool.not_false, Bool.true_and, beq_eq_false_iff_ne]
    intro h
    rw [h] at hram
    cases hram
  · exact Or.inr (Or.inl hw)
  · rw [ufPush_of_not_uart (by rcases hstate with h | h <;> simp [h]), hputc, hno]
  · exact fun h => absurd h (ne_true_of_eq_false (hno _))
  · exact fun _ => ⟨hs, rfl⟩
  · exact fun h => absurd hram (ne_true_of_eq_false h)

/-- A UART write is answered when there is room. -/
theorem answered_of_uart (hr : i.resetn = true) (hv : c.vmReset i = false)
    (hs : c.io.ioState = .uart) (hputc : i.putcValid = false) (hu : i.req.writes 0x1005 = true)
    (hroom : c.uart.ufFull = false) : Answered p i.req c (c.clkSys p i) i := by
  obtain ⟨hw, ha⟩ := Req.writes_iff.mp hu
  have hclk : c.clkIo p i = _ := clkIo_of_uart hr hv hs
  rw [hroom, if_neg Bool.false_ne_true] at hclk
  apply answered_of_lowered (l := c.io.ioLane) (v := c.io.trapResult) hclk
  · intro a _ hne
    rw [Req.writes, hw, ha, Bool.true_and, beq_eq_false_iff_ne]
    exact hne.symm
  · rw [hw]
    rfl
  · refine Or.inr (Or.inr ?_)
    rw [ha]
    rfl
  · rw [hu, Core.ufPush, hputc, hs, hroom]
    rfl
  · exact fun _ => hroom
  · intro hrd
    rw [Req.isRamRead, hw] at hrd
    cases hrd
  · exact fun _ => hu

end

/-! ### What a cycle does -/

section

variable {p : Params} {c : Core} {i : SysIn}

/-- The invariant of the trap port. -/
structure Play.Inv (x : Play) : Prop where
  fits : x.phase.Fits x.core.io.ioState
  boot : x.core.io.bootReq = true → x.core.io.ioState = .done
  hold : x.core.seq.vmHold = true → x.core.io.ioState = .idle ∨ x.core.io.ioState = .done

/-- The first cycle of a request. -/
theorem up_cases (hr : i.resetn = true) (hv : c.vmReset i = false) (hs : c.io.ioState = .idle)
    (ht : i.trapValid = true) (hio : i.isIo = true) (hputc : i.putcValid = false) :
    Passed c (c.clkSys p i) i ∧ i.req.due 0 c.uart.ufFull = false ∧
        (Phase.asking i.req 1).Fits (c.clkSys p i).io.ioState ∨
      i.req.due 0 c.uart.ufFull = true ∧ Answered p i.req c (c.clkSys p i) i := by
  have hnew := ioNew_eq ht hio hs hv
  have hclk : c.clkIo p i = c.accept p i c.io.lowered := by
    rw [clkIo_of_idle hr hv hs, if_pos hnew]
  have hpush : c.ufPush i = i.putcValid := ufPush_of_not_uart (by simp [hs])
  rcases Bool.eq_false_or_eq_true i.req.isRamRead with hrd | hrd
  · have hw : i.req.write = false := by
      have := (Bool.and_eq_true _ _).mp hrd
      simpa using this.1
    rw [accept_ramRead hio hrd] at hclk
    refine Or.inl ⟨passed_of_lowered hclk (Or.inr (Or.inl hw)) hpush, ?_, ?_⟩
    · rw [Req.due, if_pos hrd]
      rfl
    · have hstate : (c.clkSys p i).io.ioState = _ := congrArg Io.ioState hclk
      rw [Phase.Fits, if_neg Nat.one_ne_zero, if_pos hrd]
      exact ⟨rfl, hstate⟩
  · rcases Bool.eq_false_or_eq_true (i.req.writes 0x1005) with hu | hu
    · rw [accept_uart hu] at hclk
      have hram : isRam i.req.addr = false := by
        rw [(Req.writes_iff.mp hu).2]
        rfl
      refine Or.inl ⟨passed_of_lowered hclk (Or.inr (Or.inr hram)) hpush, ?_, ?_⟩
      · rw [Req.due, if_neg (ne_true_of_eq_false hrd), if_pos hu]
        rfl
      · have hstate : (c.clkSys p i).io.ioState = _ := congrArg Io.ioState hclk
        rw [Phase.Fits, if_neg Nat.one_ne_zero, if_neg (ne_true_of_eq_false hrd)]
        exact ⟨hu, hstate⟩
    · refine Or.inr ⟨?_, answered_of_accept hr hv hs ht hio hputc hrd hu⟩
      rw [Req.due, if_neg (ne_true_of_eq_false hrd),
        if_neg (ne_true_of_eq_false hu)]
      rfl

/-- A cycle without a request on the port. -/
theorem quiet_cases {f : Phase} (hr : i.resetn = true) (hv : c.vmReset i = false)
    (hF : f.Fits c.io.ioState) (hA : f.Allows i) (hno : f.request i = none) :
    Passed c (c.clkSys p i) i ∧
      (if f = .told ∧ i.trapValid = true then Phase.dropped else .idle).Fits
        (c.clkSys p i).io.ioState := by
  have hpass {s : IoState} (hnew : c.ioNew i = false) (hu : c.io.ioState ≠ .uart)
      (h : c.clkIo p i = { c.io.lowered with ioState := s }) :
      Passed c (c.clkSys p i) i ∧ (c.clkSys p i).io.ioState = s :=
    ⟨passed_of_lowered h (Or.inl hnew) (ufPush_of_not_uart hu), congrArg Io.ioState h⟩
  have hdone (hs : c.io.ioState = .done) (ht : i.trapValid = false) :
      Passed c (c.clkSys p i) i ∧ (c.clkSys p i).io.ioState = .idle := by
    apply hpass (ioNew_of_state (by simp [hs])) (by simp [hs])
    rw [clkIo_of_done hr hv hs, ht, if_neg Bool.false_ne_true]
  have hidle (hs : c.io.ioState = .idle) (ht : i.trapValid = false) :
      Passed c (c.clkSys p i) i ∧ (c.clkSys p i).io.ioState = .idle := by
    have hnew : c.ioNew i = false := by simp [Core.ioNew, ht]
    apply hpass hnew (by simp [hs])
    rw [clkIo_of_idle hr hv hs, hnew, if_neg Bool.false_ne_true, ← hs]
    rfl
  cases f with
  | idle =>
    have ht : i.trapValid = false := by
      rw [Bool.eq_false_iff]
      intro ht
      rw [Phase.request, if_pos ht] at hno
      cases hno
    obtain ⟨h, hs⟩ := hidle hF ht
    rw [if_neg fun h => Phase.noConfusion h.1]
    exact ⟨h, hs⟩
  | asking q age => cases hno
  | told =>
    have hs : c.io.ioState = .done := hF
    rcases Bool.eq_false_or_eq_true i.trapValid with ht | ht
    · obtain ⟨h, hs'⟩ : Passed c (c.clkSys p i) i ∧ (c.clkSys p i).io.ioState = .done := by
        apply hpass (ioNew_of_state (by simp [hs])) (by simp [hs])
        rw [clkIo_of_done hr hv hs, ht, if_pos rfl, ← hs]
        rfl
      rw [if_pos ⟨rfl, ht⟩]
      exact ⟨h, Or.inl hs'⟩
    · obtain ⟨h, hs'⟩ := hdone hs ht
      rw [if_neg fun h => by rw [ht] at h; exact Bool.false_ne_true h.2]
      exact ⟨h, hs'⟩
  | dropped =>
    obtain ⟨h, hs'⟩ := hF.elim (fun hs => hdone hs hA) fun hs => hidle hs hA
    rw [if_neg fun h => Phase.noConfusion h.1]
    exact ⟨h, hs'⟩

/-- A cycle with a request on the port. -/
theorem served_cases {f : Phase} (hr : i.resetn = true) (hv : c.vmReset i = false)
    (hF : f.Fits c.io.ioState) (hA : f.Allows i) {age : ℕ}
    (hreq : f.request i = some (i.req, age)) :
    Passed c (c.clkSys p i) i ∧ i.req.due age c.uart.ufFull = false ∧
        (Phase.asking i.req (age + 1)).Fits (c.clkSys p i).io.ioState ∨
      i.req.due age c.uart.ufFull = true ∧ Answered p i.req c (c.clkSys p i) i := by
  obtain ⟨ht, hio, -, hputc⟩ := Phase.request_eq hA hreq
  rcases Phase.fits_cases hF hreq with ⟨rfl, hs⟩ | ⟨-, hrd, rfl, hs⟩ | ⟨-, hrd, hage, hu, hs⟩
  · exact up_cases hr hv hs ht hio hputc
  · refine Or.inr ⟨?_, answered_of_read hr hv hs hputc hrd⟩
    rw [Req.due, if_pos hrd]
    rfl
  · have hdue : i.req.due age c.uart.ufFull = !c.uart.ufFull := by
      rw [Req.due, if_neg (ne_true_of_eq_false hrd), if_pos hu, decide_eq_true hage, Bool.true_and]
    rcases Bool.eq_false_or_eq_true c.uart.ufFull with hfull | hfull
    · have hclk := clkIo_of_uart (p := p) hr hv hs
      rw [if_pos hfull] at hclk
      have hpush : c.ufPush i = i.putcValid := by simp [Core.ufPush, hfull]
      have hnew : c.ioNew i = false := ioNew_of_state (by rw [hs]; exact IoState.noConfusion)
      refine Or.inl ⟨passed_of_lowered (l := c.io.ioLane) (s := .uart) ?_ (Or.inl hnew) hpush,
        by rw [hdue, hfull]; rfl, ?_⟩
      · rw [hclk, ← hs]
        rfl
      · rw [Phase.Fits, if_neg (Nat.succ_ne_zero age), if_neg (ne_true_of_eq_false hrd)]
        exact ⟨hu, (congrArg Io.ioState hclk).trans hs⟩
    · exact Or.inr ⟨by rw [hdue, hfull]; rfl, answered_of_uart hr hv hs hputc hu hfull⟩

/-- **What a cycle does.** It passes, with no request due, or answers the
request that is up and due. -/
theorem clkSys_cases {x : Play} (hI : x.Inv) (hr : i.resetn = true) (hA : x.phase.Allows i) :
    (Passed x.core (x.core.clkSys p i) i ∧
        (∀ q age, x.phase.request i = some (q, age) → x.core.vmReset i = false →
          q.due age x.core.uart.ufFull = false) ∧
        (x.phase.next i (x.core.vmReset i) false).Fits (x.core.clkSys p i).io.ioState) ∨
      ∃ q age, x.phase.request i = some (q, age) ∧ x.core.vmReset i = false ∧
        q.due age x.core.uart.ufFull = true ∧ Answered p q x.core (x.core.clkSys p i) i := by
  obtain ⟨c, f⟩ := x
  obtain ⟨hF, hboot, hhold⟩ := hI
  dsimp only at hF hboot hhold hA ⊢
  rcases Bool.eq_false_or_eq_true (c.vmReset i) with hv | hv
  · -- the VM in reset: nothing is on its way
    have hs : c.io.ioState = .idle ∨ c.io.ioState = .done := by
      apply hhold
      simpa [Core.vmReset, hr] using hv
    have hclk := clkIo_of_vmReset (p := p) hr hv
    have hpass : Passed c (c.clkSys p i) i := by
      apply passed_of_lowered hclk
      · exact Or.inl (by simp [Core.ioNew, hv])
      · exact ufPush_of_not_uart (by rcases hs with hs | hs <;> simp [hs])
    have hstate : (c.clkSys p i).io.ioState = .idle := congrArg Io.ioState hclk
    refine Or.inl ⟨hpass, fun q age _ h => ?_, ?_⟩
    · rw [hv] at h
      cases h
    · rw [hstate, Phase.next]
      cases hreq : f.request i with
      | none =>
        dsimp only
        split
        · exact Or.inr rfl
        · exact rfl
      | some u =>
        obtain ⟨q, age⟩ := u
        dsimp only
        rw [hv, if_neg Bool.false_ne_true, if_pos rfl, Phase.age_eq_zero hF hs hreq]
        exact rfl
  · cases hreq : f.request i with
    | none =>
      obtain ⟨h, hs⟩ := quiet_cases (p := p) hr hv hF hA hreq
      refine Or.inl ⟨h, fun q age h => (by cases h), ?_⟩
      rw [Phase.next, hreq]
      exact hs
    | some u =>
      obtain ⟨q, age⟩ := u
      obtain ⟨ht, hio, rfl, hputc⟩ := Phase.request_eq hA hreq
      have hq (q : Req) (n : ℕ) (h : some (i.req, age) = some (q, n)) : q = i.req ∧ n = age := by
        injection h with h
        injection h with h1 h2
        exact ⟨h1.symm, h2.symm⟩
      rcases served_cases (p := p) hr hv hF hA hreq with ⟨h, hdue, hs⟩ | ⟨hdue, h⟩
      · refine Or.inl ⟨h, fun q n h _ => ?_, ?_⟩
        · rw [(hq q n h).1, (hq q n h).2]
          exact hdue
        · rw [Phase.next, hreq, hv]
          exact hs
      · exact Or.inr ⟨i.req, age, rfl, hv, hdue, h⟩

end

/-! ### Along a run -/

namespace Seq

variable (p : Params) (s s' : Seq)

@[simp] theorem latched_vmHold (ram : BitVec 15 → BitVec 32) :
    (s.latched p ram).vmHold = s.vmHold := rfl

@[simp] theorem header_vmHold : (s.header s').vmHold = s'.vmHold := by
  unfold header
  split_ifs <;> rfl

@[simp] theorem store_vmHold : (s.store s').vmHold = s'.vmHold := by
  unfold store
  split_ifs <;> rfl

@[simp] theorem advance_vmHold : (s.advance p s').vmHold = s'.vmHold := by
  unfold advance
  by_cases h : s.seqI < s.seqN
  · rw [if_pos h]
  · rw [if_neg h]
    cases s.seqState <;> rfl

/-- Nothing but BOOT takes a running VM. -/
theorem vmHold_clk (ram : BitVec 15 → BitVec 32) {bootReq : Bool} (hb : bootReq = false)
    (hv : s.vmHold = false) : (s.clk p ram true bootReq).vmHold = false := by
  subst hb
  unfold clk
  cases s.seqState <;> simp [hv] <;> split <;> simp [hv]

end Seq

namespace Core

variable (b : PortB) (c : Core)

/-- Port B touches nothing but the packet RAM. -/
theorem ethClk_frame : (c.ethClk b).seq = c.seq ∧ (c.ethClk b).fetch = c.fetch ∧
    (c.ethClk b).uart = c.uart ∧ (c.ethClk b).rx = c.rx ∧ (c.ethClk b).io = c.io ∧
      (c.ethClk b).staging = c.staging ∧ (c.ethClk b).packet.aQ = c.packet.aQ := by
  unfold ethClk
  split_ifs <;> exact ⟨rfl, rfl, rfl, rfl, rfl, rfl, rfl⟩

end Core

namespace Play

theorem inv_reset (p : Params) (c : Core) (i : SysIn) : (reset p c i).Inv := by
  refine ⟨?_, fun h => ?_, fun _ => Or.inl ?_⟩
  · rfl
  · have hb : (reset p c i).core.io.bootReq = false := rfl
    rw [hb] at h
    cases h
  · rfl

/-- The invariant is kept by every edge the VM may see. -/
theorem Inv.step {p : Params} {x : Play} (hI : x.Inv) {e : Edge} (hA : x.Allows e) :
    (x.step p e).Inv := by
  cases e with
  | eth b =>
    obtain ⟨hseq, -, -, -, hio, -⟩ := x.core.ethClk_frame b
    refine ⟨?_, ?_, ?_⟩
    · change x.phase.Fits (x.core.ethClk b).io.ioState
      rw [hio]
      exact hI.fits
    · change (x.core.ethClk b).io.bootReq = true → (x.core.ethClk b).io.ioState = .done
      rw [hio]
      exact hI.boot
    · change (x.core.ethClk b).seq.vmHold = true → (x.core.ethClk b).io.ioState = .idle ∨
        (x.core.ethClk b).io.ioState = .done
      rw [hseq, hio]
      exact hI.hold
  | sys i =>
    obtain ⟨hr, hA⟩ := hA
    -- the VM is held from the cycle after BOOT is answered on, and then nothing is under way
    have hhold (h : (x.core.clkSys p i).seq.vmHold = true) :
        (x.core.clkSys p i).io.ioState = .idle ∨ (x.core.clkSys p i).io.ioState = .done := by
      rcases Bool.eq_false_or_eq_true (x.core.vmReset i) with hv | hv
      · exact Or.inl (congrArg Io.ioState (clkIo_of_vmReset hr hv))
      · have hv' : x.core.seq.vmHold = false := (Bool.or_eq_false_iff.mp hv).2
        have hboot : x.core.io.bootReq = true := by
          by_contra hb
          have := Seq.vmHold_clk p x.core.seq x.core.staging.stageRam
            (Bool.eq_false_iff.mpr hb) hv'
          change (x.core.seq.clk p x.core.staging.stageRam i.resetn x.core.io.bootReq).vmHold = true at h
          rw [hr, this] at h
          cases h
        have hclk := congrArg Io.ioState (clkIo_of_done (p := p) hr hv (hI.boot hboot))
        rcases Bool.eq_false_or_eq_true i.trapValid with ht | ht
        · rw [if_pos ht] at hclk
          exact Or.inr (hclk.trans (hI.boot hboot))
        · rw [if_neg (ne_true_of_eq_false ht)] at hclk
          exact Or.inl hclk
    rcases clkSys_cases (p := p) hI hr hA with ⟨h, -, hfits⟩ | ⟨q, age, hreq, -, -, h⟩
    · refine ⟨?_, fun hb => ?_, hhold⟩
      · change (x.phase.next i (x.core.vmReset i) (x.core.clkSys p i).io.trapReady).Fits _
        rw [h.trapReady]
        exact hfits
      · exact absurd hb (by rw [Play.step, h.bootReq]; exact Bool.false_ne_true)
    · refine ⟨?_, fun _ => h.ioState, hhold⟩
      change (x.phase.next i (x.core.vmReset i) (x.core.clkSys p i).io.trapReady).Fits _
      rw [h.trapReady, Phase.next, hreq]
      exact h.ioState

end Play

end EthminVm
end Xc7Tools
