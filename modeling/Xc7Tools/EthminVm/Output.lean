/-
# ethmin_vm_core: the output characters

A byte goes out by a `putc_valid` pulse or by a write of 0x1005 that is
answered. `Output` lists the bytes output and those `simpleuart` takes. The
write waits for room in the FIFO, the pulse cannot: what the two lists and the
FIFO hold is the same, in the same order, exactly as long as no pulse has come
while the FIFO was full (`output_kept_iff`).

Key definitions: `Uart.queued`, `Uart.offered`, `Output`, `Output.note`.
Key theorems: `Uart.clk_conserves`, `output_kept_iff`, `not_output_kept`.
-/
import Xc7Tools.EthminVm.Boot

namespace Xc7Tools
namespace EthminVm

/-! ### The FIFO and the byte on offer -/

namespace Uart

/-- The bytes in the FIFO, the oldest first. -/
def queued (s : Uart) : List (BitVec 8) := Fifo.contents s.uartFifo s.ufWp s.ufRp

/-- The byte on offer to `simpleuart`. -/
def offered (s : Uart) : List (BitVec 8) := if s.uartWe then [s.uartByte] else []

/-- The byte `simpleuart` takes in a cycle. -/
def taken (s : Uart) (uartWait : Bool) : List (BitVec 8) :=
  if s.uartWe && !uartWait then [s.uartByte] else []

/-- The FIFO has not been overrun. -/
def Sound (s : Uart) : Prop := Fifo.count s.ufWp s.ufRp ≤ 2 ^ 8

variable {s : Uart}

theorem ufFull_iff (h : s.Sound) : s.ufFull = true ↔ s.queued.length = 2 ^ 8 := by
  rw [queued, Fifo.length_contents]
  exact Fifo.isFull_iff h

theorem length_queued_le (h : s.Sound) : s.queued.length ≤ 2 ^ 8 := by
  rw [queued, Fifo.length_contents]
  exact h

theorem length_offered_le (s : Uart) : s.offered.length ≤ 1 := by
  unfold offered
  split <;> simp

/-- A push, with the drain side as it is. -/
def pushed (s : Uart) (push : Bool) (din : BitVec 8) : Uart :=
  if push && !s.ufFull then
    { s with
      uartFifo := Function.update s.uartFifo (Fifo.slot s.ufWp) din
      ufWp := s.ufWp + 1 }
  else s

theorem pushed_queued (h : s.Sound) (push : Bool) (din : BitVec 8) : (s.pushed push din).Sound ∧
    (s.pushed push din).queued = s.queued ++ if push && !s.ufFull then [din] else [] := by
  unfold pushed
  by_cases hp : (push && !s.ufFull) = true
  · have hroom : Fifo.count s.ufWp s.ufRp < 2 ^ 8 := by
      have hfull : s.ufFull ≠ true := by
        intro hf
        rw [hf, Bool.not_true, Bool.and_false] at hp
        cases hp
      rw [Ne, ufFull_iff h, queued, Fifo.length_contents] at hfull
      exact lt_of_le_of_ne h hfull
    rw [if_pos hp, if_pos hp]
    constructor
    · change Fifo.count (s.ufWp + 1) s.ufRp ≤ 2 ^ 8
      rw [Fifo.count_push hroom]
      exact hroom
    · exact Fifo.contents_push _ _ hroom
  · rw [if_neg hp, if_neg hp, List.append_nil]
    exact ⟨h, rfl⟩

/-- **Nothing is lost between the FIFO's input and `simpleuart`.** What is
taken, on offer and queued after a cycle is what was on offer and queued, and
the byte let in. -/
theorem clk_conserves (h : s.Sound) (push : Bool) (din : BitVec 8) (wait : Bool) :
    (s.clk true push din wait).Sound ∧
      s.taken wait ++ (s.clk true push din wait).offered ++ (s.clk true push din wait).queued =
        s.offered ++ s.queued ++ if push && !s.ufFull then [din] else [] := by
  obtain ⟨hs, hq⟩ := pushed_queued h push din
  have hwe : (s.pushed push din).uartWe = s.uartWe ∧ (s.pushed push din).uartByte = s.uartByte ∧
      (s.pushed push din).ufRp = s.ufRp := by
    unfold pushed
    split <;> exact ⟨rfl, rfl, rfl⟩
  have hclk : s.clk true push din wait =
      if s.uartWe then
        if !wait then { s.pushed push din with uartWe := false } else s.pushed push din
      else if !s.ufEmpty then
        { s.pushed push din with
          uartByte := s.uartFifo (Fifo.slot s.ufRp), uartWe := true, ufRp := s.ufRp + 1 }
      else s.pushed push din := rfl
  rw [List.append_assoc (s.offered), ← hq, hclk]
  rcases Bool.eq_false_or_eq_true s.uartWe with hw | hw
  · rw [if_pos hw]
    cases wait with
    | true =>
      rw [if_neg (by simp)]
      refine ⟨hs, ?_⟩
      simp [taken, offered, hw, hwe]
    | false =>
      rw [Bool.not_false, if_pos rfl]
      refine ⟨hs, ?_⟩
      simp only [taken, offered, hw]
      rfl
  · rw [if_neg (ne_true_of_eq_false hw)]
    by_cases he : s.ufEmpty = true
    · rw [if_neg (by rw [he]; exact Bool.false_ne_true)]
      refine ⟨hs, ?_⟩
      simp [taken, offered, hw, hwe]
    · have he : s.ufEmpty = false := Bool.eq_false_iff.mpr he
      rw [he, Bool.not_false, if_pos rfl]
      have hpos : 0 < Fifo.count s.ufWp s.ufRp := by
        rw [Nat.pos_iff_ne_zero, Ne, ← Fifo.isEmpty_iff]
        exact Bool.eq_false_iff.mp he
      have hpos' : 0 < Fifo.count (s.pushed push din).ufWp s.ufRp := by
        have hlen := congrArg List.length hq
        rw [queued, queued, List.length_append, Fifo.length_contents, Fifo.length_contents,
          hwe.2.2] at hlen
        omega
      -- the head of the FIFO goes on offer, whether or not a byte comes in behind it
      have hsplit := Fifo.contents_pop (s.pushed push din).uartFifo hpos'
      have hhead : (s.pushed push din).uartFifo (Fifo.slot s.ufRp) =
          s.uartFifo (Fifo.slot s.ufRp) := by
        have hqs : s.queued = s.uartFifo (Fifo.slot s.ufRp) :: _ := Fifo.contents_pop _ hpos
        have hqt : (s.pushed push din).queued = _ := (congrArg _ hwe.2.2).trans hsplit
        rw [hq, hqs, List.cons_append] at hqt
        injection hqt with h _
        exact h.symm
      constructor
      · have hcount := Fifo.count_pop hpos'
        have hle : Fifo.count (s.pushed push din).ufWp (s.pushed push din).ufRp ≤ 2 ^ 8 := hs
        rw [hwe.2.2] at hle
        change Fifo.count (s.pushed push din).ufWp (s.ufRp + 1) ≤ 2 ^ 8
        omega
      · have hoffered : s.offered = [] := by simp [offered, hw]
        have htaken : s.taken wait = [] := by simp [taken, hw]
        rw [hoffered, htaken, List.nil_append, List.nil_append]
        change [s.uartFifo (Fifo.slot s.ufRp)] ++ Fifo.contents (s.pushed push din).uartFifo
          (s.pushed push din).ufWp (s.ufRp + 1) = (s.pushed push din).queued
        rw [queued, hwe.2.2, hsplit, hhead]
        rfl

end Uart

theorem Core.clkSys_uart {p : Params} {c : Core} {i : SysIn} (hr : i.resetn = true) :
    (c.clkSys p i).uart = c.uart.clk true (c.ufPush i) (Core.ufDin i) i.uartWait := by
  rw [← hr]
  rfl

/-! ### The bytes of a run -/

/-- The bytes output since the reset, those `simpleuart` has taken, and
whether a `putc_valid` pulse has come while the FIFO was full. -/
structure Output where
  sent : List (BitVec 8)
  taken : List (BitVec 8)
  overrun : Bool

namespace Output

def start : Output := ⟨[], [], false⟩

/-- What a cycle shows: a pulse, an answered write of 0x1005, a byte taken. -/
def note (p : Params) (x : Play) (e : Edge) (o : Output) : Output :=
  match e with
  | .sys i =>
    { sent := o.sent ++ (if i.putcValid then [i.putcChar] else []) ++
        if (x.core.clkSys p i).io.trapReady && i.req.writes 0x1005 then [i.req.byte] else []
      taken := o.taken ++ x.core.uart.taken i.uartWait
      overrun := o.overrun || i.putcValid && x.core.uart.ufFull }
  | .eth _ => o

/-- All that has left the VM and can still be seen: what `simpleuart` has
taken, what it is offered and what is in the FIFO. -/
def kept (o : Output) (s : Uart) : List (BitVec 8) := o.taken ++ s.offered ++ s.queued

/-- The invariant. -/
structure Inv (x : Play) (o : Output) : Prop where
  trap : x.Inv
  sound : x.core.uart.Sound
  kept : o.overrun = false → o.kept x.core.uart = o.sent
  short : o.overrun = true → (o.kept x.core.uart).length < o.sent.length

/-- What a cycle adds to what is kept and to what is sent. -/
theorem note_sys {p : Params} {x : Play} {i : SysIn} {o : Output} (hI : x.Inv)
    (hs : x.core.uart.Sound) (hr : i.resetn = true) (hA : x.phase.Allows i) :
    (x.step p (.sys i)).core.uart.Sound ∧
      ∃ b : List (BitVec 8), (note p x (.sys i) o).sent = o.sent ++ b ∧
        (note p x (.sys i) o).kept (x.step p (.sys i)).core.uart =
          o.kept x.core.uart ++ (if i.putcValid && x.core.uart.ufFull then [] else b) ∧
        (i.putcValid = true → b = [i.putcChar]) := by
  have hclk : (x.step p (.sys i)).core.uart =
      x.core.uart.clk true (x.core.ufPush i) (Core.ufDin i) i.uartWait :=
    Core.clkSys_uart hr
  obtain ⟨hsound, hcons⟩ := Uart.clk_conserves hs (x.core.ufPush i) (Core.ufDin i)
    i.uartWait
  rw [← hclk] at hsound hcons
  have hkept : (note p x (.sys i) o).kept (x.step p (.sys i)).core.uart =
      o.kept x.core.uart ++
        if x.core.ufPush i && !x.core.uart.ufFull then [Core.ufDin i] else [] := by
    unfold kept note
    rw [List.append_assoc o.taken, List.append_assoc, hcons, ← List.append_assoc,
      ← List.append_assoc]
  refine ⟨hsound, ?_⟩
  rcases clkSys_cases (p := p) hI hr hA with ⟨h, -⟩ | ⟨q, age, hreq, -, -, h⟩
  · -- nothing is answered: the byte of a pulse, if there is one
    refine ⟨if i.putcValid then [i.putcChar] else [], ?_, ?_, fun hp => if_pos hp⟩
    · simp [note, h.trapReady]
    · rw [hkept, h.ufPush, Core.ufDin]
      cases i.putcValid <;> cases x.core.uart.ufFull <;> rfl
  · obtain ⟨-, -, rfl, hputc⟩ := Phase.request_eq hA hreq
    refine ⟨if i.req.writes 0x1005 then [i.req.byte] else [], ?_, ?_, fun hp => ?_⟩
    · simp [note, h.trapReady, hputc]
    · rw [hkept, h.ufPush, Core.ufDin, hputc, Bool.false_and, if_neg Bool.false_ne_true,
        if_neg Bool.false_ne_true]
      by_cases hu : i.req.writes 0x1005 = true
      · rw [hu, h.room hu]
        rfl
      · rw [Bool.eq_false_iff.mpr hu]
        rfl
    · rw [hputc] at hp
      cases hp

theorem Inv.step {p : Params} {x : Play} {e : Edge} {o : Output} (h : Inv x o)
    (hA : x.Allows e) : Inv (x.step p e) (note p x e o) := by
  cases e with
  | eth b =>
    have huart : (x.step p (.eth b)).core.uart = x.core.uart := (x.core.ethClk_frame b).2.2.1
    refine ⟨h.trap.step hA, ?_, ?_, ?_⟩
    · rw [huart]
      exact h.sound
    · rw [huart]
      exact h.kept
    · rw [huart]
      exact h.short
  | sys i =>
    obtain ⟨hsound, b, hsent, hkept, hb⟩ := note_sys (p := p) (o := o) h.trap h.sound hA.1 hA.2
    have hle : (o.kept x.core.uart).length ≤ o.sent.length := by
      rcases Bool.eq_false_or_eq_true o.overrun with ho | ho
      · exact (h.short ho).le
      · rw [h.kept ho]
    have hover : (note p x (.sys i) o).overrun = (o.overrun || i.putcValid && x.core.uart.ufFull) :=
      rfl
    refine ⟨h.trap.step hA, hsound, fun ho => ?_, fun ho => ?_⟩
    · rw [hover, Bool.or_eq_false_iff] at ho
      rw [hkept, hsent, ho.2, h.kept ho.1, if_neg Bool.false_ne_true]
    · rw [hkept, hsent, List.length_append, List.length_append]
      rcases Bool.eq_false_or_eq_true (i.putcValid && x.core.uart.ufFull) with hlost | hlost
      · have hlen : b.length = 1 := by
          rw [hb (Bool.and_eq_true _ _ ▸ hlost : _ ∧ _).1, List.length_singleton]
        rw [hlost, if_pos rfl, hlen, List.length_nil]
        omega
      · rw [hover, hlost, Bool.or_false] at ho
        rw [hlost, if_neg Bool.false_ne_true]
        exact Nat.add_lt_add_right (h.short ho) _

theorem inv_reset (p : Params) (c : Core) (i : SysIn) : Inv (Play.reset p c i) start := by
  have huart : (Play.reset p c i).core.uart = { c.uart with ufWp := 0, ufRp := 0, uartWe := false } :=
    rfl
  refine ⟨Play.inv_reset p c i, ?_, fun _ => ?_, fun h => by cases h⟩
  · simp [Uart.Sound, huart]
  · simp [kept, start, Uart.offered, Uart.queued, huart]

end Output

/-- **The output characters.** In every run since a reset the bytes
`simpleuart` has taken, the one it is offered and those in the FIFO are, in
order, the bytes output, if and only if no `putc_valid` pulse has come while
the FIFO was full. -/
theorem output_kept_iff (p : Params) (c : Core) (i : SysIn) (es : List Edge)
    (hes : Run.Along (Play.step p) Play.Allows (Play.reset p c i) es) :
    let r := Run.noted (Play.step p) (Output.note p) (Play.reset p c i, Output.start) es
    r.2.taken ++ r.1.core.uart.offered ++ r.1.core.uart.queued = r.2.sent ↔
      r.2.overrun = false := by
  have h := Run.noted_inv Output.Inv (fun x e o hI hA => Output.Inv.step (p := p) hI hA) es
    (Play.reset p c i, Output.start) hes (Output.inv_reset p c i)
  constructor
  · intro heq
    rw [Bool.eq_false_iff]
    intro ho
    have hlt := h.short ho
    rw [Output.kept, heq] at hlt
    exact lt_irrefl _ hlt
  · exact fun ho => h.kept ho

/-- Cycles in which nothing comes in, with nothing left to output. -/
theorem restful_sent (p : Params) : ∀ (n : ℕ) (x : Play) (o : Output), x.phase = .idle →
    x.core.io.ioState = .idle → x.core.uart.uartWe = false → x.core.uart.ufEmpty = true →
      Run.Along (Play.step p) Play.Allows x (restful n) ∧
        let r := Run.noted (Play.step p) (Output.note p) (x, o) (restful n)
        r.1.phase = .idle ∧ r.1.core.io.ioState = .idle ∧ r.1.core.uart = x.core.uart ∧ r.2 = o ∧
          r.1.core = (restful n).foldl (Core.step p) x.core
  | 0, _, _, hx, hio, _, _ => ⟨trivial, hx, hio, rfl, rfl, rfl⟩
  | n + 1, x, o, hx, hio, hwe, hempty => by
    have hA : x.Allows (.sys .rest) := by
      refine ⟨rfl, ?_⟩
      rw [hx]
      exact fun h => Bool.noConfusion h
    have hx' : (x.step p (.sys .rest)).phase = .idle := by
      simp [Play.step, hx, Phase.next, Phase.request, SysIn.rest]
    have hpush : x.core.ufPush .rest = false := by
      rw [ufPush_of_not_uart (by rw [hio]; exact IoState.noConfusion)]
      rfl
    have huart : (x.step p (.sys .rest)).core.uart = x.core.uart := by
      refine (Core.clkSys_uart rfl).trans ?_
      simp [Uart.clk, hpush, hwe, hempty]
    have ho : Output.note p x (.sys .rest) o = o := by
      simp [Output.note, Uart.taken, hwe, SysIn.rest, SysIn.req, SysIn.ioWrite, Req.writes]
    have hr : Run.noted (Play.step p) (Output.note p) (x, o) (restful (n + 1)) =
        Run.noted (Play.step p) (Output.note p) (x.step p (.sys .rest), o) (restful n) := by
      change Run.noted _ _ (_, Output.note p x (.sys .rest) o) _ = _
      rw [ho]
      rfl
    obtain ⟨hes, hidle, hio', hsame, hnote, hcore⟩ := restful_sent p n (x.step p (.sys .rest)) o hx'
      (ioState_rest p hio) (huart ▸ hwe) (huart ▸ hempty)
    rw [hr]
    exact ⟨⟨hA, hes⟩, hidle, hio', hsame.trans huart, hnote, hcore⟩

/-- A cycle that brings a character. -/
def character (b : BitVec 8) : SysIn := { SysIn.rest with putcValid := true, putcChar := b }

/-- A cycle that asks for a character to be written to the UART. -/
def uartRequest (b : BitVec 8) : SysIn :=
  { SysIn.rest with
    trapValid := true, trapPrim := 2, trapArg0 := 0x1005, trapArg1 := b.setWidth 32 }

/-- The write is answered in the second cycle, if there is room in the FIFO. -/
theorem uartRequest_sent (p : Params) {x : Play} (o : Output) (b : BitVec 8) (hI : x.Inv)
    (hx : x.phase = .idle) (hv : x.core.seq.vmHold = false) (hwe : x.core.uart.uartWe = false)
    (hempty : x.core.uart.ufEmpty = true) (hfull : x.core.uart.ufFull = false) :
    let es := [.sys (uartRequest b), .sys (uartRequest b)]
    let r := Run.noted (Play.step p) (Output.note p) (x, o) es
    Run.Along (Play.step p) Play.Allows x es ∧ r.2 = { o with sent := o.sent ++ [b] } := by
  intro es r
  have hreq : (uartRequest b).req = ⟨true, 0x1005, b.setWidth 32⟩ := rfl
  have hbyte : (uartRequest b).req.byte = b := by
    rw [hreq, Req.byte, BitVec.setWidth_setWidth_of_le _ (by decide), BitVec.setWidth_eq]
  -- the first cycle begins the request
  have hA : x.Allows (.sys (uartRequest b)) := by
    refine ⟨rfl, ?_⟩
    rw [hx]
    exact fun _ => ⟨rfl, rfl⟩
  have hp : Passed x.core (x.core.clkSys p (uartRequest b)) (uartRequest b) := by
    rcases clkSys_cases (p := p) hI rfl hA.2 with ⟨hp, -⟩ | ⟨q, age, hup, -, hdue, -⟩
    · exact hp
    · rw [hx] at hup
      cases hup
      exact Bool.noConfusion hdue
  have huart : (x.step p (.sys (uartRequest b))).core.uart = x.core.uart := by
    refine (Core.clkSys_uart rfl).trans ?_
    rw [hp.ufPush]
    simp [Uart.clk, uartRequest, SysIn.rest, hwe, hempty]
  have hv' : (x.step p (.sys (uartRequest b))).core.seq.vmHold = false := by
    have hb : x.core.io.bootReq = false := by
      by_contra hb
      have hdone := hI.boot (Bool.eq_true_of_not_eq_false hb)
      have hidle := hI.fits
      rw [hx] at hidle
      cases hidle.symm.trans hdone
    exact Seq.vmHold_clk p x.core.seq x.core.staging.stageRam hb hv
  have hvm : x.core.vmReset (uartRequest b) = false := by
    rw [Core.vmReset, hv]
    rfl
  have hx' : (x.step p (.sys (uartRequest b))).phase = .asking (uartRequest b).req 1 := by
    change x.phase.next _ _ (x.core.clkSys p (uartRequest b)).io.trapReady = _
    rw [hx, hp.trapReady, hvm]
    rfl
  have hputc : (uartRequest b).putcValid = false := rfl
  have ho : Output.note p x (.sys (uartRequest b)) o = o := by
    simp [Output.note, Uart.taken, hp.trapReady, hwe, hputc]
  -- the second answers it
  have hA' : (x.step p (.sys (uartRequest b))).Allows (.sys (uartRequest b)) := by
    refine ⟨rfl, ?_⟩
    rw [hx']
    exact ⟨rfl, rfl, rfl, rfl⟩
  have hready :
      ((x.step p (.sys (uartRequest b))).core.clkSys p (uartRequest b)).io.trapReady = true := by
    have hvm' : (x.step p (.sys (uartRequest b))).core.vmReset (uartRequest b) = false := by
      rw [Core.vmReset, hv']
      rfl
    rcases clkSys_cases (p := p) (hI.step hA) rfl hA'.2 with ⟨-, hnot, -⟩ | ⟨q, age, -, -, -, h⟩
    · have hdue := hnot (uartRequest b).req 1 (by rw [hx']; rfl) hvm'
      rw [huart, hfull] at hdue
      cases hdue
    · exact h.trapReady
  have ho' : Output.note p (x.step p (.sys (uartRequest b))) (.sys (uartRequest b)) o =
      { o with sent := o.sent ++ [b] } := by
    have hwrites : (uartRequest b).req.writes 4101#32 = true := rfl
    simp [Output.note, Uart.taken, hready, hwrites, hbyte, huart, hwe, hputc]
  refine ⟨⟨hA, hA', trivial⟩, ?_⟩
  change Output.note p (x.step p (.sys (uartRequest b))) (.sys (uartRequest b))
    (Output.note p x (.sys (uartRequest b)) o) = _
  rw [ho, ho']

/-- A character by `putc_valid`, taken, and one by a write that waits in the FIFO. -/
theorem output_kept_iff_both :
    let x := (Play.reset .blank .powerUp .rest, Output.start)
    let r := Run.noted (Play.step .blank) (Output.note .blank) x
      (.sys (character 65) :: restful 9000 ++ [.sys (uartRequest 66), .sys (uartRequest 66)])
    (r.2.sent = [65, 66] ∧ r.2.taken = [65]) ∧
      r.2.taken ++ r.1.core.uart.offered ++ r.1.core.uart.queued = r.2.sent := by
  have h (n : ℕ) (hn : 8196 ≤ n) :
      let x := (Play.reset .blank .powerUp .rest, Output.start)
      let r := Run.noted (Play.step .blank) (Output.note .blank) x
        (.sys (character 65) :: restful n ++ [.sys (uartRequest 66), .sys (uartRequest 66)])
      (r.2.sent = [65, 66] ∧ r.2.taken = [65]) ∧
        r.2.taken ++ r.1.core.uart.offered ++ r.1.core.uart.queued = r.2.sent := by
    intro x r
    obtain ⟨n, rfl⟩ := Nat.exists_eq_add_of_le (by omega : 2 ≤ n)
    have hsplit : .sys (character 65) :: restful (2 + n) =
        [.sys (character 65), .sys .rest, .sys .rest] ++ restful n := by
      rw [restful, List.replicate_add]
      rfl
    -- the character comes and is taken
    let y := Run.noted (Play.step .blank) (Output.note .blank) x
      [.sys (character 65), .sys .rest, .sys .rest]
    have hy : Run.Along (Play.step .blank) Play.Allows x.1
        [.sys (character 65), .sys .rest, .sys .rest] :=
      ⟨⟨rfl, fun h => Bool.noConfusion h⟩, ⟨rfl, fun h => Bool.noConfusion h⟩,
        ⟨rfl, fun h => Bool.noConfusion h⟩, trivial⟩
    obtain ⟨hsent, htaken, hover⟩ : y.2.sent = [65] ∧ y.2.taken = [65] ∧ y.2.overrun = false := by
      decide +kernel
    obtain ⟨hwe, hempty, hfull⟩ : y.1.core.uart.uartWe = false ∧ y.1.core.uart.ufEmpty = true ∧
        y.1.core.uart.ufFull = false := by
      decide +kernel
    -- the boot ends
    obtain ⟨hes, hidle, -, huart, ho, hcore⟩ := restful_sent .blank n y.1 y.2 rfl rfl hwe hempty
    let z := Run.noted (Play.step .blank) (Output.note .blank) y (restful n)
    have hz : z = Run.noted (Play.step .blank) (Output.note .blank) x
        (.sys (character 65) :: restful (2 + n)) := by
      rw [hsplit, Run.noted_append]
    have hzA : Run.Along (Play.step .blank) Play.Allows x.1
        (.sys (character 65) :: restful (2 + n)) := by
      rw [hsplit]
      exact (Run.along_append _ (Output.note .blank) _ _ _ x).mpr ⟨hy, hes⟩
    have hI : Output.Inv z.1 z.2 := by
      rw [hz]
      exact Run.noted_inv Output.Inv (fun x e o hI hA => Output.Inv.step (p := .blank) hI hA) _ x
        hzA (Output.inv_reset .blank .powerUp .rest)
    have hhold : z.1.core.seq.vmHold = false := by
      have hz' : z.1.core =
          (.sys (character 65) :: restful (2 + n)).foldl (Core.step .blank) x.1.core := by
        rw [hsplit, List.foldl_append]
        exact hcore
      rw [hz']
      refine (boot_time .blank (by decide) .powerUp .rest _ fun i hi => ?_).mpr ?_
      · rcases List.mem_cons.mp hi with h | h
        · cases h
          exact ⟨rfl, rfl⟩
        · exact restful_quiet _ i h
      · rw [List.countP_cons_of_pos rfl, restful_count]
        change 0 + 8197 ≤ 2 + n + 1
        omega
    -- the write
    obtain ⟨hes', hlast⟩ := uartRequest_sent .blank z.2 66 hI.trap hidle hhold
      (huart ▸ hwe) (huart ▸ hempty) (huart ▸ hfull)
    have hr : r = Run.noted (Play.step .blank) (Output.note .blank) z
        [.sys (uartRequest 66), .sys (uartRequest 66)] := by
      rw [hz]
      exact Run.noted_append _ _ _ _ x
    have hnote : r.2 = { y.2 with sent := [65, 66] } := by
      rw [hr]
      refine hlast.trans ?_
      rw [ho, hsent]
      rfl
    have hkept := (output_kept_iff .blank .powerUp .rest
      (.sys (character 65) :: restful (2 + n) ++ [.sys (uartRequest 66), .sys (uartRequest 66)])
      ((Run.along_append _ (Output.note .blank) _ _ _ x).mpr ⟨hzA, hz ▸ hes'⟩)).mpr
      ((congrArg Output.overrun hnote).trans hover)
    exact ⟨⟨congrArg Output.sent hnote, (congrArg Output.taken hnote).trans htaken⟩, hkept⟩
  exact h 9000 (by decide)

/-! ### A burst longer than the FIFO -/

/-- A stretch of cycles without a request, in which `simpleuart` waits. -/
theorem stretch_sent {p : Params} {i : SysIn} (hr : i.resetn = true) (ht : i.trapValid = false)
    (hw : i.req.write = false) (hwait : i.uartWait = true) : ∀ (n : ℕ) (x : Play) (o : Output),
      x.phase = .idle →
      Run.Along (Play.step p) Play.Allows x (List.replicate n (.sys i)) ∧
        let r := Run.noted (Play.step p) (Output.note p) (x, o) (List.replicate n (.sys i))
        r.1.phase = .idle ∧ r.2.taken = o.taken ∧
          r.2.sent.length = o.sent.length + n * i.putcValid.toNat
  | 0, x, o, hx => ⟨trivial, hx, rfl, by simp [Run.noted]⟩
  | n + 1, x, o, hx => by
    have hA : x.Allows (.sys i) := by
      refine ⟨hr, ?_⟩
      rw [hx]
      intro h
      rw [ht] at h
      cases h
    have hx' : (x.step p (.sys i)).phase = .idle := by
      simp [Play.step, hx, Phase.next, Phase.request, ht]
    obtain ⟨hes, hidle, htaken, hsent⟩ :=
      stretch_sent hr ht hw hwait n (x.step p (.sys i)) (Output.note p x (.sys i) o) hx'
    refine ⟨⟨hA, hes⟩, hidle, htaken.trans ?_, hsent.trans ?_⟩
    · simp [Output.note, Uart.taken, hwait]
    · have hone : (Output.note p x (.sys i) o).sent.length = o.sent.length + i.putcValid.toNat := by
        cases hp : i.putcValid <;> simp [Output.note, Req.writes_of_read hw, hp]
      rw [hone, Nat.succ_mul]
      omega

/-- A cycle in which `simpleuart`, if it is offered a byte, waits. -/
def waiting : SysIn := { SysIn.rest with uartWait := true }

/-- The same with a character. -/
def pulse (b : BitVec 8) : SysIn := { waiting with putcValid := true, putcChar := b }

/-- `n` characters in `n` cycles, `m` cycles after the reset. -/
def burst (m n : ℕ) (b : BitVec 8) : List Edge :=
  List.replicate m (.sys waiting) ++ List.replicate n (.sys (pulse b))

theorem burst_sent (p : Params) (c : Core) (i : SysIn) (m n : ℕ) (b : BitVec 8) :
    let x := Play.reset p c i
    let r := Run.noted (Play.step p) (Output.note p) (x, Output.start) (burst m n b)
    Run.Along (Play.step p) Play.Allows x (burst m n b) ∧ r.2.taken = [] ∧
      r.2.sent.length = n := by
  intro x r
  obtain ⟨hes₁, hidle, htaken₁, hsent₁⟩ :=
    stretch_sent (p := p) (i := waiting) rfl rfl rfl rfl m x Output.start rfl
  obtain ⟨hes₂, -, htaken₂, hsent₂⟩ :=
    stretch_sent (p := p) (i := pulse b) rfl rfl rfl rfl n _
      (Run.noted (Play.step p) (Output.note p) (x, Output.start) (List.replicate m (.sys waiting))).2
      hidle
  have hr : r = _ := Run.noted_append _ _ _ _ (x, Output.start)
  rw [hr]
  refine ⟨(Run.along_append _ (Output.note p) _ _ _ (x, Output.start)).mpr ⟨hes₁, hes₂⟩,
    htaken₂.trans htaken₁, hsent₂.trans ?_⟩
  rw [hsent₁]
  simp [waiting, pulse, SysIn.rest, Output.start]

/-- The FIFO and the byte on offer hold 257 bytes. -/
theorem burst_lost (p : Params) (c : Core) (i : SysIn) (m : ℕ) {n : ℕ} (b : BitVec 8)
    (hn : 257 < n) :
    let r := Run.noted (Play.step p) (Output.note p) (Play.reset p c i, Output.start) (burst m n b)
    r.2.taken ++ r.1.core.uart.offered ++ r.1.core.uart.queued ≠ r.2.sent := by
  intro r h
  obtain ⟨hes, htaken, hsent⟩ := burst_sent p c i m n b
  have hI := Run.noted_inv Output.Inv (fun x e o hI hA => Output.Inv.step (p := p) hI hA) _
    (Play.reset p c i, Output.start) hes (Output.inv_reset _ _ _)
  have hqueued : r.1.core.uart.queued.length ≤ 2 ^ 8 := Uart.length_queued_le hI.sound
  have hoffered := r.1.core.uart.length_offered_le
  have hlen := congrArg List.length h
  rw [htaken, List.nil_append, List.length_append, hsent] at hlen
  omega

/-- 258 characters while `simpleuart` takes none; the boot takes less than the
9000 cycles before them. -/
theorem not_output_kept :
    let r := Run.noted (Play.step .blank) (Output.note .blank)
      (Play.reset .blank .powerUp .rest, Output.start) (burst 9000 258 65)
    Run.Along (Play.step .blank) Play.Allows (Play.reset .blank .powerUp .rest)
        (burst 9000 258 65) ∧
      r.2.taken ++ r.1.core.uart.offered ++ r.1.core.uart.queued ≠ r.2.sent :=
  ⟨(burst_sent .blank .powerUp .rest 9000 258 65).1,
    burst_lost .blank .powerUp .rest 9000 65 (by decide)⟩

end EthminVm
end Xc7Tools
