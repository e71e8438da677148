/-
# ethmin_vm_core: each request is performed once

`Ledger` keeps beside a run the requests that came up and those `trap_ready`
has answered, with a board on which each answered request is performed, once
and when it is answered. In every run the requests asked are those answered
and the one still open, and the board of the ledger is the one in the
registers (`each_request_once`).

A request is answered in its first cycle, a read of a memory in its second
and a UART write, from its second on, as soon as the FIFO has room. The last
has no bound: `simpleuart` may never take a byte (`not_each_answered`).

Key definitions: `Ledger.note`, `Ledger.Returns`, `Ledger.Inv`.
Key theorems: `each_request_once`, `Uart.room`, `not_each_answered`.
-/
import Xc7Tools.EthminVm.Board
import Xc7Tools.EthminVm.Boot

namespace Xc7Tools
namespace EthminVm

open Lanes (lane setLane)

/-! ### The ledger -/

/-- The requests that came up and those answered, the words the DMA has
written since the last came up, and the board on which they are performed. -/
structure Ledger where
  asked : List Req
  answered : List Req
  written : List (BitVec 10)
  board : Board
  seen : Seen

namespace Ledger

def start (c : Core) : Ledger := ⟨[], [], [], c.board .start, .start⟩

def note (p : Params) (x : Play) (e : Edge) (l : Ledger) : Ledger :=
  match e with
  | .eth b =>
    { l with
      written := if b.en && b.we then b.addr.setWidth 10 :: l.written else l.written
      board := l.board.dma b }
  | .sys i =>
    let c' := x.core.clkSys p i
    let new := x.phase = .idle ∧ i.trapValid = true
    { asked := l.asked ++ if new then [i.req] else []
      answered := l.answered ++ if c'.io.trapReady then [i.req] else []
      written := if new then [] else l.written
      board := (if c'.io.trapReady then l.board.perform i.req else l.board).meets
        (x.core.rx.received i.uartRxDo)
        (if i.putcValid && !x.core.uart.ufFull then [i.putcChar] else [])
      seen := l.seen.note x.core c' i }

/-- What a read returns: the byte of a memory, as long as the DMA has not
written to its word since the read came up; the oldest character received, or
-1. -/
def Returns (l : Ledger) (q : Req) (v : BitVec 32) : Prop :=
  (isPacket q.addr = true → q.addr.extractLsb' 2 10 ∉ l.written →
    v = (l.board.pkt (q.addr.setWidth 12)).setWidth 32) ∧
  (isStage q.addr = true → v = (l.board.stage (q.addr.setWidth 16)).setWidth 32) ∧
  (q.addr = 0x1008 → v = (l.board.rx.head?.map (BitVec.setWidth 32)).getD 0xFFFFFFFF)

end Ledger

/-! ### One request after the other -/

namespace Phase

/-- The open request, or the one that comes up. -/
theorem waiting_new (f : Phase) (i : SysIn) :
    f.waiting ++ (if f = .idle ∧ i.trapValid = true then [i.req] else []) =
      (f.request i).toList.map Prod.fst := by
  cases f with
  | idle =>
    change [] ++ _ = (if i.trapValid = true then some (i.req, 0) else none).toList.map Prod.fst
    cases i.trapValid <;> simp
  | asking q age => simp [waiting, request]
  | told => simp [waiting, request]
  | dropped => simp [waiting, request]

theorem waiting_next (f : Phase) (i : SysIn) (v : Bool) :
    (f.next i v false).waiting = (f.request i).toList.map Prod.fst := by
  unfold next
  cases f.request i with
  | none =>
    dsimp only
    split <;> rfl
  | some u => rfl

end Phase

/-! ### A read of a memory -/

/-- The first cycle of a read has put the word in the output register, and it
is still the one in the memory if the DMA has not written it. -/
structure Reading (c : Core) (written : List (BitVec 10)) (q : Req) : Prop where
  ioLane : c.io.ioLane = q.addr.setWidth 2
  aQ : isPacket q.addr = true → q.addr.extractLsb' 2 10 ∉ written →
    ∀ l, c.packet.aQ l = c.packet.mem l (q.addr.extractLsb' 2 10)
  stageQ : isStage q.addr = true →
    c.staging.stageQ = c.staging.stageRam ((q.addr.extractLsb' 2 14).setWidth 15)

section

variable {p : Params} {c : Core} {i : SysIn} {q : Req} {w : List (BitVec 10)}

theorem reading_of_accept (hr : i.resetn = true) (hv : c.vmReset i = false)
    (hs : c.io.ioState = .idle) (ht : i.trapValid = true) (hio : i.isIo = true)
    (hrd : i.req.isRamRead = true) : Reading (c.clkSys p i) w i.req := by
  have hnew := ioNew_eq ht hio hs hv
  have hw : i.ioWrite = false := by
    have h := (Bool.and_eq_true _ _).mp hrd
    exact (Bool.not_eq_true' _).mp h.1
  have hclk : (c.clkSys p i).io = c.accept p i c.io.lowered := by
    change c.clkIo p i = _
    rw [clkIo_of_idle hr hv hs, if_pos hnew]
  refine ⟨?_, fun hpkt _ l => ?_, fun hst => ?_⟩
  · rw [hclk, accept_ramRead hio hrd]
    rfl
  · have hen : c.paEn i = true := by
      rw [Core.paEn, hnew, i.ioIsPacket_eq, hpkt]
      rfl
    have hwe : c.paWe i = 0 := by simp [Core.paWe, hw]
    change (c.clkPacket i).aQ l = (c.clkPacket i).mem l (Core.paAddr i)
    rw [Core.clkPacket, if_pos hen, hwe]
    simp
  · have hen : (c.ioNew i && i.ioIsStage) = true := by
      rw [hnew, i.ioIsStage_eq, hst]
      rfl
    change (c.clkStaging i).stageQ = (c.clkStaging i).stageRam _
    rw [Core.clkStaging, if_pos hen, hw]
    rfl

theorem Reading.ethClk (h : Reading c w q) (b : PortB) :
    Reading (c.ethClk b) (if b.en && b.we then b.addr.setWidth 10 :: w else w) q := by
  obtain ⟨-, -, -, -, hio, hstage, haQ⟩ := c.ethClk_frame b
  refine ⟨hio ▸ h.ioLane, fun hpkt hw l => ?_, hstage ▸ h.stageQ⟩
  rw [haQ]
  unfold Core.ethClk
  cases hen : b.en with
  | false =>
    rw [hen, Bool.false_and, if_neg Bool.false_ne_true] at hw
    exact h.aQ hpkt hw l
  | true =>
    cases hwe : b.we with
    | false =>
      rw [hwe, Bool.and_false, if_neg Bool.false_ne_true] at hw
      exact h.aQ hpkt hw l
    | true =>
      rw [hen, hwe, Bool.and_self, if_pos rfl, List.mem_cons, not_or] at hw
      have hne : q.addr.extractLsb' 2 10 ≠ b.addr.setWidth 10 := hw.1
      rw [h.aQ hpkt hw.2 l, if_pos rfl, if_pos rfl]
      exact (Function.update_of_ne hne _ _).symm

/-- A lane of the word that port A has read. -/
theorem lane_paRdata (c : Core) (l : BitVec 2) : lane c.paRdata l.toNat = c.packet.aQ l := by
  have hl : l = 0 ∨ l = 1 ∨ l = 2 ∨ l = 3 := by
    revert l
    decide
  unfold Core.paRdata
  rcases hl with rfl | rfl | rfl | rfl
  · exact Lanes.lane_append_zero _ _
  · exact (Lanes.lane_append_succ _ _ 0).trans (Lanes.lane_append_zero _ _)
  · calc
      _ = _ := Lanes.lane_append_succ _ _ 1
      _ = _ := Lanes.lane_append_succ _ _ 0
      _ = _ := Lanes.lane_append_zero _ _
  · calc
      _ = _ := Lanes.lane_append_succ _ _ 2
      _ = _ := Lanes.lane_append_succ _ _ 1
      _ = _ := Lanes.lane_append_succ _ _ 0
      _ = _ := Lanes.lane_byte _

end

/-! ### The invariant -/

namespace Ledger

/-- The invariant of the ledger. -/
structure Inv (x : Play) (l : Ledger) : Prop where
  trap : x.Inv
  sound : x.core.Sound
  pop : x.core.io.rxfPop = true → x.core.io.ioState = .done
  count : l.asked = l.answered ++ x.phase.waiting
  board : x.core.board l.seen = l.board
  reading : ∀ q age, x.phase = .asking q age → 0 < age → q.isRamRead = true →
    Reading x.core l.written q

section

variable {p : Params} {x : Play} {i : SysIn} {l : Ledger}

/-- No byte is being removed while a request is up. -/
theorem Inv.rxfPop_eq (h : Inv x l) {u : Req × ℕ} (hreq : x.phase.request i = some u) :
    x.core.io.rxfPop = false := by
  rw [Bool.eq_false_iff]
  exact fun hp => Phase.ne_done h.trap.fits hreq (h.pop hp)

/-- A read that has been up for a cycle was accepted in it. -/
theorem Inv.reading_passed (h : Inv x l) (hr : i.resetn = true) (hA : x.phase.Allows i)
    (hdue : ∀ q age, x.phase.request i = some (q, age) → x.core.vmReset i = false →
      q.due age x.core.uart.ufFull = false) {q : Req} {age : ℕ}
    (hnext : x.phase.next i (x.core.vmReset i) false = .asking q age) (hage : 0 < age)
    (hrd : q.isRamRead = true) (w : List (BitVec 10)) : Reading (x.core.clkSys p i) w q := by
  unfold Phase.next at hnext
  cases hreq : x.phase.request i with
  | none =>
    rw [hreq] at hnext
    dsimp only at hnext
    split at hnext <;> cases hnext
  | some u =>
    obtain ⟨r, n⟩ := u
    rw [hreq] at hnext
    dsimp only at hnext
    rw [if_neg Bool.false_ne_true] at hnext
    injection hnext with hr' hn
    subst hr'
    obtain ⟨ht, hio, hq, -⟩ := Phase.request_eq hA hreq
    rcases Bool.eq_false_or_eq_true (x.core.vmReset i) with hv | hv
    · -- held in reset: the request is as new as it was
      have hhold : x.core.seq.vmHold = true := by simpa [Core.vmReset, hr] using hv
      have h0 := Phase.age_eq_zero h.trap.fits (h.trap.hold hhold) hreq
      rw [hv, if_pos rfl, h0] at hn
      omega
    · have hnot := hdue r n hreq hv
      rw [Req.due, if_pos hrd, beq_eq_false_iff_ne] at hnot
      have hs : x.core.io.ioState = .idle := by
        rcases Phase.fits_cases h.trap.fits hreq with ⟨-, hs⟩ | ⟨-, -, h1, -⟩ | ⟨-, hno, -⟩
        · exact hs
        · exact absurd h1 hnot
        · exact absurd hrd (ne_true_of_eq_false hno)
      rw [← hq] at hrd ⊢
      exact reading_of_accept hr hv hs ht hio hrd

theorem Inv.step_sys (h : Inv x l) (hr : i.resetn = true) (hA : x.phase.Allows i) :
    Inv (x.step p (.sys i)) (note p x (.sys i) l) := by
  have htrap : (x.step p (.sys i)).Inv := h.trap.step (e := .sys i) ⟨hr, hA⟩
  have hphase : (x.step p (.sys i)).phase =
      x.phase.next i (x.core.vmReset i) (x.core.clkSys p i).io.trapReady := rfl
  have hasked : (note p x (.sys i) l).asked =
      l.answered ++ (x.phase.request i).toList.map Prod.fst := by
    rw [← Phase.waiting_new, ← List.append_assoc, ← h.count]
    rfl
  have hanswered : (note p x (.sys i) l).answered =
      l.answered ++ if (x.core.clkSys p i).io.trapReady then [i.req] else [] := rfl
  rcases clkSys_cases (p := p) h.trap hr hA with ⟨hp, hdue, -⟩ | ⟨q, age, hreq, -, -, ha⟩
  · obtain ⟨hsound, hboard⟩ := board_passed (s := l.seen) hr h.sound hp
    rw [hp.trapReady] at hphase hanswered
    refine ⟨htrap, hsound, fun hpop => ?_, ?_, hboard.trans ?_, fun q age hq hage hrd => ?_⟩
    · change (x.core.clkSys p i).io.rxfPop = true at hpop
      rw [hp.rxfPop] at hpop
      cases hpop
    · rw [hasked, hanswered, hphase, Phase.waiting_next, if_neg Bool.false_ne_true, List.append_nil]
    · rw [h.board, note, hp.trapReady]
      rfl
    · exact h.reading_passed hr hA hdue (hphase ▸ hq) hage hrd _
  · obtain ⟨-, -, hq, hputc⟩ := Phase.request_eq hA hreq
    obtain ⟨hsound, hboard⟩ :=
      board_answered (s := l.seen) hr h.sound (h.rxfPop_eq hreq) hputc hq ha
    have htold : x.phase.next i (x.core.vmReset i) true = .told := by
      rw [Phase.next, hreq]
      rfl
    rw [ha.trapReady, htold] at hphase
    rw [ha.trapReady] at hanswered
    refine ⟨htrap, hsound, fun _ => ha.ioState, ?_, hboard.trans ?_, fun q age hq => ?_⟩
    · rw [hasked, hanswered, hphase, hreq, hq]
      exact (List.append_nil _).symm
    · rw [h.board, note, ha.trapReady, hputc, hq]
      rfl
    · rw [hphase] at hq
      cases hq

theorem Inv.step {e : Edge} (h : Inv x l) (hA : x.Allows e) :
    Inv (x.step p e) (note p x e l) := by
  cases e with
  | sys i => exact h.step_sys hA.1 hA.2
  | eth b =>
    obtain ⟨-, -, -, hrx, hio, -⟩ := x.core.ethClk_frame b
    obtain ⟨hsound, hboard⟩ := board_ethClk (s := l.seen) b h.sound
    refine ⟨h.trap.step hA, hsound, ?_, h.count, hboard.trans (congrArg _ h.board), ?_⟩
    · change (x.core.ethClk b).io.rxfPop = true → (x.core.ethClk b).io.ioState = .done
      rw [hio]
      exact h.pop
    · intro q age hq hage hrd
      exact (h.reading q age hq hage hrd).ethClk b

theorem inv_reset (p : Params) (c : Core) (i : SysIn) :
    Inv (Play.reset p c i) (start (Play.reset p c i).core) := by
  have hrx : (Play.reset p c i).core.rx = { c.rx with rxfWp := 0, rxfRp := 0 } := rfl
  have huart : (Play.reset p c i).core.uart = { c.uart with ufWp := 0, ufRp := 0, uartWe := false } :=
    rfl
  have hpop : (Play.reset p c i).core.io.rxfPop = false := rfl
  refine ⟨Play.inv_reset p c i, ⟨?_, ?_, ?_⟩, ?_, rfl, rfl, ?_⟩
  · simp [Uart.Sound, huart]
  · simp [RxFifo.Sound, hrx]
  · rw [hpop]
    exact fun h => Bool.noConfusion h
  · rw [hpop]
    exact fun h => Bool.noConfusion h
  · intro q age hq
    cases hq

end

end Ledger

/-! ### What a read returns -/

section

variable {p : Params} {x : Play} {i : SysIn} {l : Ledger} {q : Req} {age : ℕ}

/-- A byte address is within its memory. -/
theorem Core.board_pkt (c : Core) (s : Seen) (v : BitVec 32) :
    (c.board s).pkt (v.setWidth 12) = c.packet.mem (v.setWidth 2) (v.extractLsb' 2 10) := by
  obtain ⟨hlow, hhigh⟩ := (addr_eq_iff (n := 10) (v.setWidth 12) v (by omega)).mp rfl
  change c.packet.mem ((v.setWidth 12).setWidth 2) ((v.setWidth 12).extractLsb' 2 10) = _
  rw [hlow, hhigh]

theorem Core.board_stage (c : Core) (s : Seen) (v : BitVec 32) :
    (c.board s).stage (v.setWidth 16) =
      lane (c.staging.stageRam ((v.extractLsb' 2 14).setWidth 15)) (v.setWidth 2).toNat := by
  obtain ⟨hlow, hhigh⟩ := (addr_eq_iff (n := 14) (v.setWidth 16) v (by omega)).mp rfl
  change lane (c.staging.stageRam (((v.setWidth 16).extractLsb' 2 14).setWidth 15))
    ((v.setWidth 16).setWidth 2).toNat = _
  rw [hlow, hhigh]

/-- A read of a memory. -/
theorem Ledger.Inv.returns_ram (h : l.Inv x) (hreq : x.phase.request i = some (q, age))
    (hrd : q.isRamRead = true) (ha : Answered p q x.core (x.core.clkSys p i) i) :
    l.Returns q (x.core.clkSys p i).io.trapResult := by
  obtain ⟨hstate, hresult⟩ := ha.ramRead hrd
  obtain ⟨hphase, hage⟩ : x.phase = .asking q age ∧ 0 < age := by
    rcases Phase.fits_cases h.trap.fits hreq with ⟨-, hs⟩ | ⟨hf, -, h1, -⟩ | ⟨-, hno, -⟩
    · rw [hs] at hstate
      split at hstate <;> cases hstate
    · exact ⟨hf, by omega⟩
    · exact absurd hrd (ne_true_of_eq_false hno)
  have hread := h.reading q age hphase hage hrd
  unfold Ledger.Returns
  rw [hresult, hread.ioLane, ← h.board]
  refine ⟨fun hpkt hw => ?_, fun hst => ?_, fun h8 => ?_⟩
  · rw [hpkt, if_pos rfl] at hstate
    rw [Core.ioReadWord, if_pos hstate, lane_paRdata, hread.aQ hpkt hw, Core.board_pkt]
  · have hpkt : isPacket q.addr = false := by
      have h1 := (Bool.and_eq_true _ _).mp hst
      have hle : (0x10000 : BitVec 32) ≤ q.addr := of_decide_eq_true h1.1
      apply decide_eq_false
      intro hlt
      have hle : 0x10000 ≤ q.addr.toNat := hle
      have hlt : q.addr.toNat < 0x1000 := hlt
      omega
    rw [hpkt, if_neg Bool.false_ne_true] at hstate
    rw [Core.ioReadWord, if_neg (by rw [hstate]; exact IoState.noConfusion), hread.stageQ hst,
      Core.board_stage]
  · have h1 := (Bool.and_eq_true _ _).mp hrd
    rw [h8] at h1
    cases h1.2

/-- A read of a register, the received characters among them. -/
theorem Ledger.Inv.returns_register (h : l.Inv x) (hreq : x.phase.request i = some (q, age))
    (hA : x.phase.Allows i) (hw : q.write = false) (hram : isRam q.addr = false)
    (ha : Answered p q x.core (x.core.clkSys p i) i) :
    l.Returns q (x.core.clkSys p i).io.trapResult := by
  have hno := Bool.or_eq_false_iff.mp hram
  refine ⟨fun hpkt => ?_, fun hst => ?_, fun h8 => ?_⟩
  · rw [hno.1] at hpkt
    cases hpkt
  · rw [hno.2] at hst
    cases hst
  · obtain ⟨-, -, hq, -⟩ := Phase.request_eq hA hreq
    have haddr : i.trapArg0 = 0x1008 := by
      rw [← h8, ← hq]
      rfl
    have hrx : l.board.rx = x.core.rx.queued := by
      rw [← h.board]
      change x.core.rx.queued.drop x.core.io.rxfPop.toNat = _
      rw [h.rxfPop_eq hreq]
      rfl
    rw [ha.register hram (Req.writes_of_read hw), hrx, Core.register, haddr]
    change (if x.core.rx.rxfEmpty = true then (0xFFFFFFFF : BitVec 32) else _) = _
    cases hempty : x.core.rx.rxfEmpty with
    | true =>
      rw [RxFifo.rxfEmpty_iff.mp hempty]
      rfl
    | false =>
      rw [RxFifo.queued_cons hempty]
      rfl

/-- The answer to a request that is up, and when it comes. -/
theorem Ledger.Inv.answer (h : l.Inv x) (hr : i.resetn = true) (hA : x.phase.Allows i)
    (hreq : x.phase.request i = some (q, age)) :
    (x.core.clkSys p i).io.trapReady =
        (!x.core.vmReset i && q.due age x.core.uart.ufFull) ∧
      (q.write = false →
        (x.core.clkSys p i).packet.mem = x.core.packet.mem ∧
          (x.core.clkSys p i).staging.stageRam = x.core.staging.stageRam ∧
          ((x.core.clkSys p i).io.trapReady = true →
            l.Returns q (x.core.clkSys p i).io.trapResult)) := by
  rcases clkSys_cases (p := p) h.trap hr hA with ⟨hp, hdue, -⟩ | ⟨r, n, hreq', hv, hdue, ha⟩
  · refine ⟨?_, fun _ => ⟨hp.mem, hp.stageRam, fun hready => ?_⟩⟩
    · rw [hp.trapReady]
      cases hv : x.core.vmReset i with
      | true => rfl
      | false =>
        rw [hdue q age hreq hv]
        rfl
    · rw [hp.trapReady] at hready
      cases hready
  · rw [hreq] at hreq'
    injection hreq' with hreq'
    injection hreq' with hq hn
    subst hq hn
    refine ⟨?_, fun hw => ⟨?_, ?_, fun _ => ?_⟩⟩
    · rw [ha.trapReady, hv, hdue]
      rfl
    · rw [ha.mem, hw]
      rfl
    · rw [ha.stageRam, hw]
      rfl
    · rcases Bool.eq_false_or_eq_true (isRam q.addr) with hram | hram
      · apply h.returns_ram hreq _ ha
        rw [Req.isRamRead, hw, hram]
        rfl
      · exact h.returns_register hreq hA hw hram ha

end

/-! ### Room in the UART's FIFO -/

namespace Uart

variable {s : Uart}

/-- A full FIFO whose head goes on offer has room. -/
theorem ufFull_pop (h : s.Sound) (hfull : s.ufFull = true) (hwe : s.uartWe = false) (push : Bool)
    (din : BitVec 8) (wait : Bool) : (s.clk true push din wait).ufFull = false := by
  obtain ⟨hs, hcons⟩ := s.clk_conserves h push din wait
  have hlen := congrArg List.length hcons
  have hq := (ufFull_iff h).mp hfull
  have hempty : s.ufEmpty = false := by
    rw [Bool.eq_false_iff, Ne, ufEmpty, Fifo.isEmpty_iff, ← Fifo.length_contents s.uartFifo]
    change ¬ s.queued.length = 0
    omega
  have hnew : (s.clk true push din wait).uartWe = true := by
    simp [clk, hfull, hwe, hempty]
  rw [Bool.eq_false_iff, Ne, ufFull_iff hs]
  rw [hfull, Bool.not_true, Bool.and_false, if_neg Bool.false_ne_true, List.append_nil,
    List.length_append, List.length_append, List.length_append, hq, offered, if_pos hnew, offered,
    if_neg (ne_true_of_eq_false hwe)] at hlen
  simp at hlen
  omega

/-- **The FIFO does not stay full** when `simpleuart` does not wait: there is
room a cycle or two later. -/
theorem room (h : s.Sound) (hfull : s.ufFull = true) (push push' : Bool) (din din' : BitVec 8)
    (wait : Bool) : (s.clk true push din false).ufFull = false ∨
      ((s.clk true push din false).clk true push' din' wait).ufFull = false := by
  rcases Bool.eq_false_or_eq_true s.uartWe with hwe | hwe
  · -- the byte on offer is taken, and the next cycle offers another
    rcases Bool.eq_false_or_eq_true (s.clk true push din false).ufFull with hfull' | hfull'
    · apply Or.inr
      apply ufFull_pop (clk_conserves h push din false).1 hfull'
      simp [clk, hfull, hwe]
    · exact Or.inl hfull'
  · exact Or.inl (ufFull_pop h hfull hwe push din false)

end Uart

/-! ### The UART while `simpleuart` waits -/

namespace Uart

/-- The bytes between the VM and `simpleuart`. -/
def load (s : Uart) : ℕ := s.offered.length + s.queued.length

/-- The head of the FIFO has gone on offer, but for one that has just come in. -/
def Drawn (s : Uart) : Prop := s.uartWe = false → s.queued.length ≤ 1

variable {s : Uart}

/-- While `simpleuart` waits, bytes come in up to 257. -/
theorem load_clk (h : s.Sound) (hd : s.Drawn) (push : Bool) (din : BitVec 8) :
    (s.clk true push din true).Drawn ∧
      (s.clk true push din true).load = min (s.load + push.toNat) 257 := by
  obtain ⟨hs, hcons⟩ := s.clk_conserves h push din true
  have hlen := congrArg List.length hcons
  have htaken : s.taken true = [] := by simp [taken]
  have hoffered := s.length_offered_le
  have hqueued := length_queued_le h
  simp only [htaken, List.nil_append, List.length_append] at hlen
  unfold load
  rcases Bool.eq_false_or_eq_true s.ufFull with hfull | hfull
  · -- full: a byte is on offer, and none comes in
    have hq := (ufFull_iff h).mp hfull
    have hwe : s.uartWe = true := by
      by_contra hwe
      have := hd (Bool.eq_false_iff.mpr hwe)
      omega
    have hone : s.offered.length = 1 := by simp [offered, hwe]
    rw [hfull, Bool.not_true, Bool.and_false, if_neg Bool.false_ne_true, List.length_nil] at hlen
    refine ⟨fun h' => ?_, by omega⟩
    simp [clk, hfull, hwe] at h'
  · have hq : s.queued.length ≠ 2 ^ 8 := by
      intro h'
      rw [(ufFull_iff h).mpr h'] at hfull
      cases hfull
    have hin : (if (push && !s.ufFull) = true then [din] else []).length = push.toNat := by
      rw [hfull]
      cases push <;> rfl
    rw [hin] at hlen
    have hpush : push.toNat ≤ 1 := push.toNat_le
    refine ⟨fun h' => ?_, by omega⟩
    -- nothing went on offer: the FIFO was empty
    have hnone : s.uartWe = false ∧ s.ufEmpty = true := by
      unfold clk at h'
      cases hwe : s.uartWe <;> cases he : s.ufEmpty <;> cases push <;> simp [hwe, he, hfull] at h' ⊢
    have hzero : s.queued.length = 0 := by
      rw [queued, Fifo.length_contents]
      exact Fifo.isEmpty_iff.mp hnone.2
    have hno : s.offered.length = 0 := by simp [offered, hnone.1]
    omega

theorem full_of_load (h : s.Sound) (hload : s.load = 257) : s.ufFull = true ∧ s.uartWe = true := by
  have hoffered := s.length_offered_le
  have hqueued := length_queued_le h
  unfold load at hload
  constructor
  · rw [ufFull_iff h]
    omega
  · by_contra hwe
    have : s.offered = [] := if_neg hwe
    rw [this, List.length_nil] at hload
    omega

end Uart

/-- Before any request, with `n` bytes between the VM and `simpleuart`. -/
structure Filled (n : ℕ) (x : Play) : Prop where
  trap : x.Inv
  phase : x.phase = .idle
  sound : x.core.uart.Sound
  drawn : x.core.uart.Drawn
  load : x.core.uart.load = n

section

variable {p : Params} {i : SysIn}

/-- A stretch of cycles without a request, in which `simpleuart` waits. -/
theorem Filled.stretch (hr : i.resetn = true) (ht : i.trapValid = false)
    (hwait : i.uartWait = true) : ∀ (k : ℕ) {n : ℕ} {x : Play}, n ≤ 257 → Filled n x →
      Run.Along (Play.step p) Play.Allows x (List.replicate k (.sys i)) ∧
        Filled (min (n + k * i.putcValid.toNat) 257)
          ((List.replicate k (Edge.sys i)).foldl (Play.step p) x)
  | 0, n, x, hn, h => by
    rw [Nat.zero_mul, Nat.add_zero, Nat.min_eq_left hn]
    exact ⟨trivial, h⟩
  | k + 1, n, x, hn, h => by
    have hA : x.Allows (.sys i) := by
      refine ⟨hr, ?_⟩
      rw [h.phase]
      intro h
      rw [ht] at h
      cases h
    have hidle : x.core.io.ioState = .idle := by
      have hF := h.trap.fits
      rwa [h.phase] at hF
    have huart : (x.step p (.sys i)).core.uart =
        x.core.uart.clk true i.putcValid (Core.ufDin i) true := by
      have hclk := Core.clkSys_uart (p := p) (c := x.core) hr
      rwa [ufPush_of_not_uart (by rw [hidle]; exact IoState.noConfusion), hwait] at hclk
    obtain ⟨hdrawn, hload⟩ := Uart.load_clk h.sound h.drawn i.putcValid (Core.ufDin i)
    have h' : Filled (min (n + i.putcValid.toNat) 257) (x.step p (.sys i)) := by
      refine ⟨h.trap.step hA, ?_, ?_, ?_, ?_⟩
      · simp [Play.step, h.phase, Phase.next, Phase.request, ht]
      · rw [huart]
        exact (Uart.clk_conserves h.sound _ _ _).1
      · rw [huart]
        exact hdrawn
      · rw [huart, hload, h.load]
    obtain ⟨hes, hfill⟩ := Filled.stretch hr ht hwait k (Nat.min_le_right _ _) h'
    have hsum : min (min (n + i.putcValid.toNat) 257 + k * i.putcValid.toNat) 257 =
        min (n + (k + 1) * i.putcValid.toNat) 257 := by
      rw [Nat.succ_mul]
      omega
    rw [hsum] at hfill
    exact ⟨⟨hA, hes⟩, hfill⟩

end

/-- The module of a play steps as it does by itself. -/
theorem Play.foldl_core (p : Params) : ∀ (es : List Edge) (x : Play),
    (es.foldl (Play.step p) x).core = es.foldl (Core.step p) x.core
  | [], _ => rfl
  | .sys i :: es, x => foldl_core p es (x.step p (.sys i))
  | .eth b :: es, x => foldl_core p es (x.step p (.eth b))

/-- After the boot the characters of a burst fill the UART that waits, up to 257. -/
theorem burst_filled {m : ℕ} (hm : 8197 ≤ m) (n : ℕ) (b : BitVec 8) :
    let x := (burst m n b).foldl (Play.step .blank) (Play.reset .blank .powerUp .rest)
    Run.Along (Play.step .blank) Play.Allows (Play.reset .blank .powerUp .rest) (burst m n b) ∧
      Filled (min n 257) x ∧ x.core.seq.vmHold = false ∧
      ∀ i, Edge.sys i ∈ burst m n b → i.resetn = true ∧ i.trapValid = false := by
  have h0 : Filled 0 (Play.reset .blank .powerUp .rest) := by
    refine ⟨Play.inv_reset _ _ _, rfl, ?_, fun _ => ?_, rfl⟩
    · exact Nat.zero_le _
    · exact Nat.zero_le _
  obtain ⟨hes₁, h1⟩ :=
    Filled.stretch (p := .blank) (i := waiting) rfl rfl rfl m (Nat.zero_le _) h0
  obtain ⟨hes₂, h2⟩ :=
    Filled.stretch (p := .blank) (i := pulse b) rfl rfl rfl n (Nat.min_le_right _ _) h1
  have hload : min (min (0 + m * waiting.putcValid.toNat) 257 + n * (pulse b).putcValid.toNat)
      257 = min n 257 := by
    change min (min (0 + m * 0) 257 + n * 1) 257 = min n 257
    omega
  rw [hload, ← List.foldl_append] at h2
  have hquiet : ∀ i, Edge.sys i ∈ burst m n b → i.resetn = true ∧ i.trapValid = false := by
    intro i hi
    rcases List.mem_append.mp hi with hi | hi <;> have h := List.eq_of_mem_replicate hi <;>
      injection h with h <;> rw [h] <;> exact ⟨rfl, rfl⟩
  refine ⟨?_, h2, ?_, hquiet⟩
  · apply (Run.along_append _ (fun _ _ t => t) _ _ _ (Play.reset .blank .powerUp .rest, ())).mpr
    rw [Run.noted_fst]
    exact ⟨hes₁, hes₂⟩
  · have hcount : (burst m n b).countP Edge.isSys = m + n := by
      rw [burst, List.countP_append, List.countP_replicate, List.countP_replicate]
      rfl
    rw [Play.foldl_core]
    apply (boot_time .blank (by decide) .powerUp .rest (burst m n b) hquiet).mpr
    rw [hcount]
    change 0 + 8197 ≤ m + n
    omega

/-! ### The requests of a run -/

/-- A write while `simpleuart`, if it is offered a byte, waits. -/
def writing (a v : BitVec 32) : SysIn :=
  { waiting with trapValid := true, trapPrim := 2, trapArg0 := a, trapArg1 := v }

/-- Full, with a byte on offer that is not taken: nothing moves. -/
theorem Uart.clk_stuck {s : Uart} (hfull : s.ufFull = true) (hwe : s.uartWe = true) (push : Bool)
    (din : BitVec 8) : s.clk true push din true = s := by
  simp [clk, hfull, hwe]

/-- A request waits for a FIFO that stays full. -/
structure Stuck (q : Req) (x : Play) : Prop where
  trap : x.Inv
  phase : x.phase = .idle ∨ ∃ age, x.phase = .asking q age
  full : x.core.uart.ufFull = true
  uartWe : x.core.uart.uartWe = true
  boot : x.core.io.bootReq = false
  hold : x.core.seq.vmHold = false

theorem Filled.stuck {x : Play} (h : Filled 257 x) (hhold : x.core.seq.vmHold = false) (q : Req) :
    Stuck q x := by
  obtain ⟨hfull, hwe⟩ := Uart.full_of_load h.sound h.load
  refine ⟨h.trap, Or.inl h.phase, hfull, hwe, ?_, hhold⟩
  rw [Bool.eq_false_iff]
  intro hb
  have hF := h.trap.fits
  rw [h.phase] at hF
  exact absurd (hF.symm.trans (h.trap.boot hb)) IoState.noConfusion

/-- The write is not answered, in any cycle. -/
theorem Stuck.held {p : Params} {i : SysIn} {q : Req} (hr : i.resetn = true)
    (ht : i.trapValid = true) (hio : i.isIo = true) (hq : i.req = q) (hu : q.writes 0x1005 = true)
    (hputc : i.putcValid = false) (hwait : i.uartWait = true) :
    ∀ (k : ℕ) {x : Play} {l : Ledger}, Stuck q x → l.answered = [] →
      let es := List.replicate k (Edge.sys i)
      Run.Along (Play.step p) Play.Allows x es ∧
        let r := Run.noted (Play.step p) (Ledger.note p) (x, l) es
        Stuck q r.1 ∧ r.2.answered = [] ∧ (0 < k → ∃ age, r.1.phase = .asking q age)
  | 0, x, l, h, ha => ⟨trivial, h, ha, fun h => absurd h (lt_irrefl 0)⟩
  | k + 1, x, l, h, ha => by
    have hA : x.phase.Allows i := by
      rcases h.phase with hf | ⟨age, hf⟩
      · rw [hf]
        exact fun _ => ⟨hio, hputc⟩
      · rw [hf]
        exact ⟨ht, hio, hq, hputc⟩
    obtain ⟨age, hreq⟩ : ∃ age, x.phase.request i = some (q, age) := by
      rcases h.phase with hf | ⟨age, hf⟩
      · refine ⟨0, ?_⟩
        rw [hf, Phase.request, if_pos ht, hq]
      · exact ⟨age, by rw [hf]; rfl⟩
    have hnever : q.due age x.core.uart.ufFull = false := by
      have hrd : q.isRamRead = false := by
        rw [Req.isRamRead, (Req.writes_iff.mp hu).1]
        rfl
      rw [Req.due, if_neg (ne_true_of_eq_false hrd), if_pos hu, h.full,
        Bool.not_true, Bool.and_false]
    rcases clkSys_cases (p := p) h.trap hr hA with ⟨hp, -, -⟩ | ⟨r, n, hreq', -, hdue, -⟩
    · have huart : (x.core.clkSys p i).uart = x.core.uart := by
        rw [Core.clkSys_uart hr, hwait]
        exact Uart.clk_stuck h.full h.uartWe _ _
      have hphase : ∃ age, (x.step p (.sys i)).phase = .asking q age := by
        refine ⟨if x.core.vmReset i then age else age + 1, ?_⟩
        change x.phase.next i (x.core.vmReset i) (x.core.clkSys p i).io.trapReady = _
        rw [hp.trapReady, Phase.next, hreq]
        rfl
      have h' : Stuck q (x.step p (.sys i)) := by
        refine ⟨h.trap.step (e := .sys i) ⟨hr, hA⟩, Or.inr hphase, ?_, ?_, hp.bootReq, ?_⟩
        · exact (congrArg Uart.ufFull huart).trans h.full
        · exact (congrArg Uart.uartWe huart).trans h.uartWe
        · have hseq := Seq.vmHold_clk p x.core.seq x.core.staging.stageRam h.boot h.hold
          rw [← hr] at hseq
          exact hseq
      have ha' : (Ledger.note p x (.sys i) l).answered = [] := by
        change l.answered ++ (if (x.core.clkSys p i).io.trapReady then [i.req] else []) = []
        rw [hp.trapReady, ha]
        rfl
      obtain ⟨hes, hstuck, hnone, hask⟩ :=
        Stuck.held hr ht hio hq hu hputc hwait k h' ha'
      refine ⟨⟨⟨hr, hA⟩, hes⟩, hstuck, hnone, fun _ => ?_⟩
      rcases Nat.eq_zero_or_pos k with h0 | hpos
      · subst h0
        exact hphase
      · exact hask hpos
    · rw [hreq] at hreq'
      injection hreq' with hreq'
      injection hreq' with hq' hn
      rw [← hq', ← hn, hnever] at hdue
      cases hdue

/-- Nothing is asked while `trap_valid` is low. -/
theorem Ledger.asked_quiet {p : Params} : ∀ (es : List Edge) (x : Play) (l : Ledger),
    (∀ i, Edge.sys i ∈ es → i.trapValid = false) →
      (Run.noted (Play.step p) (Ledger.note p) (x, l) es).2.asked = l.asked
  | [], _, _, _ => rfl
  | .eth b :: es, x, l, h =>
    asked_quiet es (x.step p (.eth b)) (note p x (.eth b) l) fun i hi =>
      h i (List.mem_cons_of_mem _ hi)
  | .sys i :: es, x, l, h => by
    have ht := h i List.mem_cons_self
    have hasked : (note p x (.sys i) l).asked = l.asked := by simp [note, ht]
    exact (asked_quiet es (x.step p (.sys i)) (note p x (.sys i) l) fun i hi =>
      h i (List.mem_cons_of_mem _ hi)).trans hasked

/-- A burst, and then a write that is held for `n + 1` cycles. -/
def stalled (m n : ℕ) : List Edge :=
  burst m 257 65 ++ List.replicate (n + 1) (.sys (writing 0x1005 66))

end EthminVm
end Xc7Tools
