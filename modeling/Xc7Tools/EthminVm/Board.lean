/-
# ethmin_vm_core: the board a request acts on

To a program the module is a board: bytes it can write, LEDs, the characters
received and those output, and how often a frame was released, a frame sent
and an image booted. `Board.perform` is what a request does to it, as the
program means it; nothing of states, ports or pulses is in it.

`Core.board` reads the board off the registers and what has been seen on the
outputs. A cycle in which nothing is answered adds what comes in
(`board_passed`), one in which a request is answered performs it
(`board_answered`), and a write of the DMA is one of a word (`board_ethClk`).

Key definitions: `Board.perform`, `Board.dma`, `Core.board`.
Key theorems: `board_passed`, `board_answered`, `board_ethClk`.
-/
import Xc7Tools.EthminVm.Output

namespace Xc7Tools
namespace EthminVm

open Lanes (lane setLane)

/-- What a program can do to the board or see of it; `rx` are the characters
received and not yet read, `out` all those output. -/
@[ext] structure Board where
  pkt : BitVec 12 → BitVec 8
  stage : BitVec 16 → BitVec 8
  leds : BitVec 8
  rx : List (BitVec 8)
  out : List (BitVec 8)
  acks : ℕ
  starts : List (BitVec 11)
  boots : ℕ

namespace Board

/-- What a request does. -/
def perform (q : Req) (d : Board) : Board where
  pkt :=
    if q.write && isPacket q.addr then Function.update d.pkt (q.addr.setWidth 12) q.byte
    else d.pkt
  stage :=
    if q.write && isStage q.addr then Function.update d.stage (q.addr.setWidth 16) q.byte
    else d.stage
  leds := if q.writes 0x1004 then q.byte else d.leds
  rx := if !q.write && q.addr == 0x1008 then d.rx.tail else d.rx
  out := d.out ++ if q.writes 0x1005 then [q.byte] else []
  acks := d.acks + (q.writes 0x1002).toNat
  starts := d.starts ++ if q.writes 0x1003 then [q.data.setWidth 11] else []
  boots := d.boots + (q.writes 0x1007).toNat

/-- Characters come in, from outside and from `putc_valid`. -/
def meets (rx out : List (BitVec 8)) (d : Board) : Board :=
  { d with rx := d.rx ++ rx, out := d.out ++ out }

/-- The DMA writes a word of the packet RAM. -/
def dma (b : PortB) (d : Board) : Board :=
  if b.en && b.we then
    { d with
      pkt := fun a =>
        if a.extractLsb' 2 10 = b.addr.setWidth 10 then lane b.wdata (a.setWidth 2).toNat
        else d.pkt a }
  else d

end Board

/-- What the outputs have shown: releases, starts with their length, BOOTs
and the bytes `simpleuart` took. -/
structure Seen where
  acks : ℕ
  starts : List (BitVec 11)
  boots : ℕ
  taken : List (BitVec 8)

namespace Seen

def start : Seen := ⟨0, [], 0, []⟩

def note (c c' : Core) (i : SysIn) (s : Seen) : Seen where
  acks := s.acks + c'.io.rxAck.toNat
  starts := s.starts ++ if c'.io.txStart then [c'.io.txLen] else []
  boots := s.boots + c'.io.bootReq.toNat
  taken := s.taken ++ c.uart.taken i.uartWait

end Seen

/-! ### The received characters -/

namespace RxFifo

/-- The bytes in the FIFO, the oldest first. -/
def queued (s : RxFifo) : List (BitVec 8) := Fifo.contents s.rxFifo s.rxfWp s.rxfRp

/-- The byte taken from `simpleuart` in a cycle. -/
def received (s : RxFifo) (uartRxDo : BitVec 32) : List (BitVec 8) :=
  if s.uartRxTake uartRxDo then [uartRxDo.setWidth 8] else []

/-- The FIFO has not been overrun. -/
def Sound (s : RxFifo) : Prop := Fifo.count s.rxfWp s.rxfRp ≤ 2 ^ 8

variable {s : RxFifo}

theorem rxfEmpty_iff : s.rxfEmpty = true ↔ s.queued = [] := by
  rw [queued, ← List.length_eq_zero_iff, Fifo.length_contents]
  exact Fifo.isEmpty_iff

/-- The head of the FIFO, where there is one. -/
theorem queued_cons (h : s.rxfEmpty = false) :
    s.queued = s.rxFifo (Fifo.slot s.rxfRp) :: s.queued.tail := by
  have hpos : 0 < Fifo.count s.rxfWp s.rxfRp := by
    rw [Nat.pos_iff_ne_zero, Ne, ← Fifo.isEmpty_iff]
    exact Bool.eq_false_iff.mp h
  rw [queued, Fifo.contents_pop _ hpos]
  rfl

/-- A cycle puts the byte received at the end, and takes the head if it is popped. -/
theorem clk_queued (hs : s.Sound) {pop : Bool} (hpop : pop = true → s.rxfEmpty = false)
    (d : BitVec 32) : (s.clk true pop d).Sound ∧
      (s.clk true pop d).queued = (s.queued ++ s.received d).drop pop.toNat := by
  let t : RxFifo :=
    if s.uartRxTake d then
      { s with
        rxFifo := Function.update s.rxFifo (Fifo.slot s.rxfWp) (d.setWidth 8)
        rxfWp := s.rxfWp + 1 }
    else s
  have ht : t.Sound ∧ t.queued = s.queued ++ s.received d := by
    by_cases htake : s.uartRxTake d = true
    · have hroom : Fifo.count s.rxfWp s.rxfRp < 2 ^ 8 := by
        have hfull : s.rxfFull ≠ true := by
          intro hf
          rw [uartRxTake, hf, Bool.not_true, Bool.and_false] at htake
          cases htake
        apply lt_of_le_of_ne hs
        intro h
        exact hfull ((Fifo.isFull_iff hs).mpr h)
      have htdef : t = _ := if_pos htake
      rw [htdef, received, if_pos htake]
      constructor
      · change Fifo.count (s.rxfWp + 1) s.rxfRp ≤ 2 ^ 8
        rw [Fifo.count_push hroom]
        exact hroom
      · exact Fifo.contents_push _ _ hroom
    · have htdef : t = s := if_neg htake
      rw [htdef, received, if_neg htake, List.append_nil]
      exact ⟨hs, rfl⟩
  cases pop with
  | false => exact ht
  | true =>
    have hrp : t.rxfRp = s.rxfRp := by
      unfold t
      split <;> rfl
    have hclk : s.clk true true d = { t with rxfRp := t.rxfRp + 1 } := by
      rw [hrp]
      rfl
    have hcons := queued_cons (hpop rfl)
    have hpos : 0 < Fifo.count t.rxfWp t.rxfRp := by
      have hlen := congrArg List.length ht.2
      rw [queued, Fifo.length_contents, hcons] at hlen
      simp at hlen
      omega
    rw [hclk]
    constructor
    · have hle : Fifo.count t.rxfWp t.rxfRp ≤ 2 ^ 8 := ht.1
      have hcount := Fifo.count_pop hpos
      change Fifo.count t.rxfWp (t.rxfRp + 1) ≤ 2 ^ 8
      omega
    · rw [← ht.2]
      have hsplit : t.queued = _ := Fifo.contents_pop t.rxFifo hpos
      rw [hsplit]
      rfl

end RxFifo

/-! ### The addresses of the memories -/

/-- A byte address is a lane and a word. -/
theorem addr_eq_iff {n : ℕ} (a : BitVec (n + 2)) (v : BitVec 32) (hn : n + 2 ≤ 32) :
    a = v.setWidth (n + 2) ↔
      a.setWidth 2 = v.setWidth 2 ∧ a.extractLsb' 2 n = v.extractLsb' 2 n := by
  constructor
  · intro h
    rw [h]
    constructor
    · exact BitVec.setWidth_setWidth_of_le v (by omega)
    · apply BitVec.eq_of_getLsbD_eq
      intro j hj
      have hlt : 2 + j < n + 2 := by omega
      simp [hj, hlt]
  · rintro ⟨hlow, hhigh⟩
    apply BitVec.eq_of_getLsbD_eq
    intro j hj
    rw [BitVec.getLsbD_setWidth, decide_eq_true hj, Bool.true_and]
    by_cases h2 : j < 2
    · have h := congrArg (BitVec.getLsbD · j) hlow
      simpa [h2] using h
    · have h := congrArg (BitVec.getLsbD · (j - 2)) hhigh
      have hlt : j - 2 < n := by omega
      have hadd : 2 + (j - 2) = j := by omega
      simpa [hlt, hadd] using h

/-! ### The board in the registers -/

/-- The board, read off the registers; a byte whose removal is under way is
gone from the FIFO. -/
def Core.board (c : Core) (s : Seen) : Board where
  pkt a := c.packet.mem (a.setWidth 2) (a.extractLsb' 2 10)
  stage a :=
    lane (c.staging.stageRam ((a.extractLsb' 2 14).setWidth 15)) (a.setWidth 2).toNat
  leds := c.io.leds
  rx := c.rx.queued.drop c.io.rxfPop.toNat
  out := s.taken ++ c.uart.offered ++ c.uart.queued
  acks := s.acks
  starts := s.starts
  boots := s.boots

/-- The FIFOs have not been overrun, and no byte is removed from an empty one. -/
structure Core.Sound (c : Core) : Prop where
  uart : c.uart.Sound
  rx : c.rx.Sound
  pop : c.io.rxfPop = true → c.rx.rxfEmpty = false

section

variable {p : Params} {q : Req} {c : Core} {i : SysIn} {s : Seen}

/-- What both FIFOs hold after a cycle. -/
theorem queued_clkSys (hr : i.resetn = true) (hs : c.Sound) :
    (c.clkSys p i).uart.Sound ∧ (c.clkSys p i).rx.Sound ∧
      ((c.clkSys p i).board (s.note c (c.clkSys p i) i)).out =
        (c.board s).out ++
          (if c.ufPush i && !c.uart.ufFull then [Core.ufDin i] else []) ∧
      (c.clkSys p i).rx.queued = (c.board s).rx ++ c.rx.received i.uartRxDo := by
  obtain ⟨hu, hout⟩ := Uart.clk_conserves hs.uart (c.ufPush i) (Core.ufDin i) i.uartWait
  obtain ⟨hx, hrx⟩ := RxFifo.clk_queued hs.rx hs.pop i.uartRxDo
  have huart : (c.clkSys p i).uart =
      c.uart.clk true (c.ufPush i) (Core.ufDin i) i.uartWait := Core.clkSys_uart hr
  have hfifo : (c.clkSys p i).rx = c.rx.clk true c.io.rxfPop i.uartRxDo := by
    rw [← hr]
    rfl
  rw [← huart] at hu hout
  rw [← hfifo] at hx hrx
  refine ⟨hu, hx, ?_, hrx.trans ?_⟩
  · change s.taken ++ c.uart.taken i.uartWait ++ (c.clkSys p i).uart.offered ++
      (c.clkSys p i).uart.queued = s.taken ++ c.uart.offered ++ c.uart.queued ++ _
    rw [List.append_assoc s.taken, List.append_assoc s.taken, hout, List.append_assoc s.taken,
      List.append_assoc s.taken]
  · change _ = c.rx.queued.drop c.io.rxfPop.toNat ++ _
    cases hpop : c.io.rxfPop with
    | false => rfl
    | true =>
      rw [RxFifo.queued_cons (hs.pop hpop)]
      rfl

/-- **A cycle in which nothing is answered**: the characters that come in. -/
theorem board_passed (hr : i.resetn = true) (hs : c.Sound) (h : Passed c (c.clkSys p i) i) :
    (c.clkSys p i).Sound ∧ (c.clkSys p i).board (s.note c (c.clkSys p i) i) =
      (c.board s).meets (c.rx.received i.uartRxDo)
        (if i.putcValid && !c.uart.ufFull then [i.putcChar] else []) := by
  obtain ⟨hu, hx, hout, hrx⟩ := queued_clkSys (p := p) (s := s) hr hs
  refine ⟨⟨hu, hx, fun hp => ?_⟩, ?_⟩
  · rw [h.rxfPop] at hp
    cases hp
  · apply Board.ext
    case pkt => simp only [Core.board, Board.meets, h.mem]
    case stage => simp only [Core.board, Board.meets, h.stageRam]
    case leds => exact h.leds
    case rx =>
      change (c.clkSys p i).rx.queued.drop (c.clkSys p i).io.rxfPop.toNat = _
      rw [h.rxfPop, hrx]
      rfl
    case out =>
      rw [hout, h.ufPush, Core.ufDin]
      cases i.putcValid <;> rfl
    case acks => simp [Core.board, Board.meets, Seen.note, h.rxAck]
    case starts => simp [Core.board, Board.meets, Seen.note, h.txStart]
    case boots => simp [Core.board, Board.meets, Seen.note, h.bootReq]

/-- The packet RAM after the request: one byte, at its address. -/
theorem pkt_answered (h : Answered p q c (c.clkSys p i) i) (s' : Seen) :
    ((c.clkSys p i).board s').pkt = ((c.board s).perform q).pkt := by
  funext a
  by_cases hw : (q.write && isPacket q.addr) = true
  · simp only [Core.board, Board.perform, h.mem, if_pos hw]
    have hsplit := addr_eq_iff (n := 10) a q.addr (by omega)
    by_cases ha : a = q.addr.setWidth 12
    · obtain ⟨hlow, hhigh⟩ := hsplit.mp ha
      rw [hlow, hhigh, Function.update_self, Function.update_self, ha, Function.update_self]
    · rw [Function.update_of_ne ha]
      by_cases hlow : a.setWidth 2 = q.addr.setWidth 2
      · have hhigh : a.extractLsb' 2 10 ≠ q.addr.extractLsb' 2 10 :=
          fun hhigh => ha (hsplit.mpr ⟨hlow, hhigh⟩)
        rw [hlow, Function.update_self, Function.update_of_ne hhigh]
      · rw [Function.update_of_ne hlow]
  · simp only [Core.board, Board.perform, h.mem, if_neg hw]

/-- The staging RAM after the request: one byte, at its address. -/
theorem stage_answered (h : Answered p q c (c.clkSys p i) i) (s' : Seen) :
    ((c.clkSys p i).board s').stage = ((c.board s).perform q).stage := by
  funext a
  by_cases hw : (q.write && isStage q.addr) = true
  · simp only [Core.board, Board.perform, h.stageRam, if_pos hw]
    have hsplit := addr_eq_iff (n := 14) a q.addr (by omega)
    by_cases hhigh : a.extractLsb' 2 14 = q.addr.extractLsb' 2 14
    · rw [hhigh, Function.update_self]
      by_cases hlow : a.setWidth 2 = q.addr.setWidth 2
      · have hlane := (a.setWidth 2).isLt
        rw [hsplit.mpr ⟨hlow, hhigh⟩, Function.update_self, ← hsplit.mpr ⟨hlow, hhigh⟩, hlow,
          Lanes.lane_setLane_self _ _ (by omega)]
      · have ha : a ≠ q.addr.setWidth 16 := fun ha => hlow (hsplit.mp ha).1
        rw [Function.update_of_ne ha, hhigh,
          Lanes.lane_setLane_of_ne _ _ fun h => hlow (BitVec.eq_of_toNat_eq h)]
    · have ha : a ≠ q.addr.setWidth 16 := fun ha => hhigh (hsplit.mp ha).2
      have hword : (a.extractLsb' 2 14).setWidth 15 ≠ (q.addr.extractLsb' 2 14).setWidth 15 := by
        intro h
        have h := congrArg (BitVec.setWidth 14) h
        rw [BitVec.setWidth_setWidth_of_le _ (by omega),
          BitVec.setWidth_setWidth_of_le _ (by omega), BitVec.setWidth_eq, BitVec.setWidth_eq] at h
        exact hhigh h
      rw [Function.update_of_ne ha, Function.update_of_ne hword]
  · simp only [Core.board, Board.perform, h.stageRam, if_neg hw]

/-- **A cycle in which a request is answered** performs it, once. -/
theorem board_answered (hr : i.resetn = true) (hs : c.Sound) (hpop : c.io.rxfPop = false)
    (hputc : i.putcValid = false) (hreq : i.req = q) (h : Answered p q c (c.clkSys p i) i) :
    (c.clkSys p i).Sound ∧ (c.clkSys p i).board (s.note c (c.clkSys p i) i) =
      ((c.board s).perform q).meets (c.rx.received i.uartRxDo) [] := by
  obtain ⟨hu, hx, hout, hrx⟩ := queued_clkSys (p := p) (s := s) hr hs
  have hrx' : (c.clkSys p i).rx.queued = c.rx.queued ++ c.rx.received i.uartRxDo := by
    rw [hrx]
    change c.rx.queued.drop c.io.rxfPop.toNat ++ _ = _
    rw [hpop]
    rfl
  refine ⟨⟨hu, hx, fun hp => ?_⟩, ?_⟩
  · -- the byte to be removed is there
    rw [h.rxfPop, Bool.and_eq_true] at hp
    have hempty : c.rx.rxfEmpty = false := by simpa using hp.2
    rw [Bool.eq_false_iff, Ne, RxFifo.rxfEmpty_iff, hrx', RxFifo.queued_cons hempty]
    exact List.cons_ne_nil _ _
  · apply Board.ext
    case pkt => exact pkt_answered h _
    case stage => exact stage_answered h _
    case leds => exact h.leds
    case rx =>
      change (c.clkSys p i).rx.queued.drop (c.clkSys p i).io.rxfPop.toNat =
        (if !q.write && q.addr == 0x1008 then (c.rx.queued.drop c.io.rxfPop.toNat).tail
          else c.rx.queued.drop c.io.rxfPop.toNat) ++ c.rx.received i.uartRxDo
      rw [h.rxfPop, hrx', hpop]
      cases hq : !q.write && q.addr == 0x1008 with
      | false => rfl
      | true =>
        cases hempty : c.rx.rxfEmpty with
        | false =>
          rw [RxFifo.queued_cons hempty]
          rfl
        | true =>
          rw [RxFifo.rxfEmpty_iff.mp hempty]
          rfl
    case out =>
      rw [hout, h.ufPush]
      have hdin : Core.ufDin i = q.byte := by
        rw [Core.ufDin, hputc, ← hreq]
        rfl
      change _ = (c.board s).out ++ (if q.writes 0x1005 = true then [q.byte] else []) ++ []
      rw [hdin, List.append_nil]
      by_cases hw : q.writes 0x1005 = true
      · rw [h.room hw, hw]
        rfl
      · rw [Bool.eq_false_iff.mpr hw]
        rfl
    case acks => simp [Core.board, Board.meets, Board.perform, Seen.note, h.rxAck]
    case starts =>
      change s.starts ++ (if (c.clkSys p i).io.txStart = true then [(c.clkSys p i).io.txLen] else []) =
        s.starts ++ if q.writes 0x1003 = true then [q.data.setWidth 11] else []
      rw [h.txStart]
      by_cases hw : q.writes 0x1003 = true
      · rw [h.txLen hw]
      · rw [if_neg hw, if_neg hw]
    case boots => simp [Core.board, Board.meets, Board.perform, Seen.note, h.bootReq]

/-- **An edge of `eth_clk`** is the DMA's write, if there is one. -/
theorem board_ethClk (b : PortB) (hs : c.Sound) :
    (c.ethClk b).Sound ∧ (c.ethClk b).board s = (c.board s).dma b := by
  obtain ⟨-, -, hu, hrx, hio, hstage, -⟩ := c.ethClk_frame b
  refine ⟨⟨hu ▸ hs.uart, hrx ▸ hs.rx, by rw [hio, hrx]; exact hs.pop⟩, ?_⟩
  have hmem : (c.ethClk b).packet.mem = if b.en && b.we then
      fun l => Function.update (c.packet.mem l) (b.addr.setWidth 10) (lane b.wdata l.toNat)
      else c.packet.mem := by
    unfold Core.ethClk
    cases b.en <;> cases b.we <;> rfl
  have hfield (d : Board) : (d.dma b).stage = d.stage ∧ (d.dma b).leds = d.leds ∧
      (d.dma b).rx = d.rx ∧ (d.dma b).out = d.out ∧ (d.dma b).acks = d.acks ∧
        (d.dma b).starts = d.starts ∧ (d.dma b).boots = d.boots := by
    unfold Board.dma
    split <;> exact ⟨rfl, rfl, rfl, rfl, rfl, rfl, rfl⟩
  obtain ⟨h1, h2, h3, h4, h5, h6, h7⟩ := hfield (c.board s)
  apply Board.ext
  case pkt =>
    funext a
    change (c.ethClk b).packet.mem _ _ = _
    rw [hmem]
    unfold Board.dma
    by_cases hw : (b.en && b.we) = true
    · rw [if_pos hw, if_pos hw]
      by_cases ha : a.extractLsb' 2 10 = b.addr.setWidth 10
      · rw [ha, Function.update_self]
        exact (if_pos ha).symm
      · rw [Function.update_of_ne ha]
        exact (if_neg ha).symm
    · rw [if_neg hw, if_neg hw]
      rfl
  case stage => rw [h1]; simp only [Core.board, hstage]
  case leds => rw [h2]; simp only [Core.board, hio]
  case rx => rw [h3]; simp only [Core.board, hio, hrx]
  case out => rw [h4]; simp only [Core.board, hu]
  case acks => exact h5.symm
  case starts => exact h6.symm
  case boots => exact h7.symm

end

end EthminVm
end Xc7Tools
