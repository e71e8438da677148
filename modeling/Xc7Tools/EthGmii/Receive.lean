/-
# eth_gmii_retime256: frames from the PCS

The capture fills the buffer on `pcs_rx_clk` while the busy signal, which is
two flops behind, is low; at the end of a frame a toggle crosses to `mac_clk`,
and the replay reads the buffer out. Whether a byte is captured is asked anew
for every byte, so a frame may be captured from its middle, over another one,
or in part. In a run in which no capture begins so, and none meets a full
buffer, each burst on the MAC's side is a complete frame, and one that began
with nothing held.

`Ready` and `Replaying` are the replay process between two bursts and within
one. Nothing is asked of the busy signal: the invariant holds whatever it says.

Key definitions: `Heard`, `RxClear`, `RxRetimed`, `Published`, `Ready`,
`Replaying`.
Key theorems: `RxInv.mac`, `RxInv.pcs`, `rx_retimed`.
-/
import Mathlib.Data.List.Infix
import Xc7Tools.EthGmii.Buffer
import Xc7Tools.Lib.Bursts
import Xc7Tools.Lib.Toggle

namespace Xc7Tools
namespace EthGmii

/-! ### The frames of a run -/

/-- `pcs_rxd` under `pcs_rx_dv` -/
def GmiiIn.gmii (i : GmiiIn) : Option (BitVec 8) := if i.dv then some i.rxd else none

/-- A frame has been handed over, and its replay is not over. -/
def Rx.held (s : Rx) : Bool :=
  s.cap.rxTog != s.replay.rxTogS1 || s.replay.rxTogS1 != s.replay.rxTogS2 ||
    s.replay.rxTogS2 != s.replay.rxAckTog || s.replay.replaying || s.replay.replayingD

/-- What has been seen on `pcs_rxd` and on `mac_rxd`: of the frames received, `kept` are those that
may be replayed, and `free` says that the one in progress began with nothing held. -/
structure Heard where
  received : Bursts (BitVec 8)
  free : Bool
  kept : List (List (BitVec 8))
  out : Bursts (BitVec 8)
  deriving DecidableEq

namespace Heard

/-- Nothing yet. -/
def empty : Heard := ⟨.empty, false, [], .empty⟩

/-- The frame in progress began with nothing held, and fits the buffer. -/
def keeps (g : Heard) : Bool := g.free && decide (g.received.part.length ≤ 2047)

/-- An edge of `pcs_rx_clk` samples `pcs_rxd`; a frame that ends here is kept or is to be dropped. -/
def sample (held : Bool) (i : GmiiIn) (g : Heard) : Heard :=
  { g with
    received := g.received.next i.gmii
    free := if g.received.part = [] then !held else g.free
    kept :=
      if i.dv = false ∧ g.received.part ≠ [] ∧ g.keeps = true then g.kept ++ [g.received.part]
      else g.kept }

/-- An edge of `mac_clk` drives `mac_rxd`. -/
def drive (s : Rx) (g : Heard) : Heard := { g with out := g.out.next s.gmii }

def next (s : Retime) (g : Heard) (e : Edges) : Heard :=
  let g := match e.pcsRx with
    | some i => g.sample s.rx.held i
    | none => g
  if e.mac.isSome then g.drive (s.step e).rx else g

/-- What has been seen at the end of a run. -/
def watch : Retime → Heard → List Edges → Heard
  | _, g, [] => g
  | s, g, e :: es => watch (s.step e) (g.next s e) es

end Heard

/-- What an edge of `pcs_rx_clk` must not meet; `cur` is what the frame in progress has had. -/
def RxClear (s : Rx) (cur : List (BitVec 8)) (i : GmiiIn) : Prop :=
  -- a capture begins with its frame, and with nothing held
  (s.cap.start i = true → cur = [] ∧ s.held = false) ∧
  -- a byte that is captured has room
  (s.cap.inFrameNext i = true → s.buf.wrRoom (s.cap.start i) = true)

/-- The edges of a run are all clear. -/
def RxClearRun : Retime → Heard → List Edges → Prop
  | _, _, [] => True
  | s, g, e :: es =>
    (∀ i ∈ e.pcsRx, RxClear s.rx g.received.part i) ∧ RxClearRun (s.step e) (g.next s e) es

/-- Each burst on the MAC's side is a complete frame of those that may be replayed, in order and
none twice, and the burst in progress is the beginning of the next. -/
def RxRetimed (s : Retime) (es : List Edges) : Prop :=
  let g := Heard.watch s .empty es
  g.kept.Sublist g.received.whole ∧ g.out.whole.Sublist g.kept ∧
    (g.out.part ≠ [] → ∃ f, g.out.part <+: f ∧ (g.out.whole ++ [f]).Sublist g.kept)

/-! ### The two processes on one edge -/

variable {s : Rx} {g : Heard} {i : GmiiIn} {busy : Bool}

theorem mac_replay (s : Rx) : (s.macClk false).replay =
    s.replay.clk false s.cap.rxTog s.cap.rxLen := rfl

/-- Between two bursts. -/
theorem replay_rest (hr : s.replay.replaying = false) (hd : s.replay.replayingD = false) :
    (s.macClk false).replay =
      { s.replay with
        rxTogS1 := s.cap.rxTog
        rxTogS2 := s.replay.rxTogS1
        replaying := s.replay.rxTogS2 != s.replay.rxAckTog
        rxbRaddr := if s.replay.rxTogS2 = s.replay.rxAckTog then s.replay.rxbRaddr else 0
        replayN :=
          if s.replay.rxTogS2 = s.replay.rxAckTog then s.replay.replayN else s.cap.rxLen } := by
  by_cases h : s.replay.rxTogS2 = s.replay.rxAckTog <;> simp [mac_replay, RxReplay.clk, hr, hd, h]

/-- A byte of a burst is read. -/
theorem replay_read (hr : s.replay.replaying = true) : (s.macClk false).replay =
    { s.replay with
      rxTogS1 := s.cap.rxTog
      rxTogS2 := s.replay.rxTogS1
      rxbRaddr := s.replay.rxbRaddr + 1
      replaying := !decide (s.replay.rxbRaddr + 1 ≥ s.replay.replayN)
      replayingD := true } := by
  by_cases h : s.replay.rxbRaddr + 1 ≥ s.replay.replayN <;> simp_all [mac_replay, RxReplay.clk]

/-- The tail: the last byte has gone out, and the buffer is given back. -/
theorem replay_tail (hr : s.replay.replaying = false) (hd : s.replay.replayingD = true) :
    (s.macClk false).replay =
      { s.replay with
        rxTogS1 := s.cap.rxTog
        rxTogS2 := s.replay.rxTogS1
        rxbRaddr := s.replay.rxbRaddr + 1
        replayingD := false
        rxAckTog := s.replay.rxTogS2 } := by
  simp [mac_replay, RxReplay.clk, hr, hd]

/-- A byte is captured. -/
theorem pcs_capture (hn : s.cap.inFrameNext i = true) : s.pcsClk false busy i =
    { s with
      cap := { s.cap with rxInFrame := true, busyS1 := busy, busyS2 := s.cap.busyS1 }
      buf := s.buf.clk false (s.cap.start i) true i.rxd } := by
  have hdv : i.dv = true := (Bool.and_eq_true_iff.mp hn).1
  simp [Rx.pcsClk, RxCap.clk, hn, hdv]

/-- A frame that has been captured ends. -/
theorem pcs_publish (hin : s.cap.rxInFrame = true) (hdv : i.dv = false) : s.pcsClk false busy i =
    { s with
      cap := ⟨false, !s.cap.rxTog, s.buf.wrCount, busy, s.cap.busyS1⟩ } := by
  simp [Rx.pcsClk, RxCap.clk, RxCap.start, RxCap.inFrameNext, hin, hdv, PktBuf.clk_idle]

/-- Nothing is captured. -/
theorem pcs_skip (hn : s.cap.inFrameNext i = false) (hp : s.cap.rxInFrame = true → i.dv = true) :
    s.pcsClk false busy i =
      { s with
        cap := { s.cap with rxInFrame := false, busyS1 := busy, busyS2 := s.cap.busyS1 } } := by
  have hend : (s.cap.rxInFrame && !i.dv) = false := by
    cases hin : s.cap.rxInFrame with
    | false => rfl
    | true => rw [hp hin]; rfl
  simp [Rx.pcsClk, RxCap.clk, RxCap.start, hn, hend, PktBuf.clk_idle]

/-- With both edges at one time, the replay reads what was there before, and so do the flops of the
busy signal. -/
theorem rx_step_both (s : Rx) (i : GmiiIn) :
    s.step (some i) true = (s.macClk false).pcsClk false s.replay.busy i := by
  unfold Rx.step Rx.macClk
  rw [Rx.pcsClk, PktBuf.clk_rdClk]
  rfl

/-! ### The invariant -/

/-- The frame being captured is all there. -/
structure Capturing (s : Rx) (g : Heard) : Prop where
  ne_nil : g.received.part ≠ []
  free : g.free = true
  length : g.received.part.length ≤ 2047
  filled : s.buf.Filled g.received.part

/-- The frame that waits for its replay, if one does; `b` is the toggle of the replay before. -/
structure Published (s : Rx) (b : Bool) (w : Option (List (BitVec 8))) : Prop where
  toggle : Toggle.Crossing s.cap.rxTog s.replay.rxTogS1 s.replay.rxTogS2 b w.isSome
  frame : ∀ f, w = some f → s.cap.rxInFrame = false ∧ Handed s.cap.rxLen s.buf.mem f

/-- Between two bursts. -/
structure Ready (s : Rx) (g : Heard) (w : Option (List (BitVec 8))) : Prop where
  replaying : s.replay.replaying = false
  replayingD : s.replay.replayingD = false
  published : Published s s.replay.rxAckTog w
  frames : (g.out.whole ++ w.toList).Sublist g.kept
  out : g.out.part = []

/-- Within the burst of `f`: the address is `j`, and `j` bytes have gone out. -/
structure Replaying (s : Rx) (g : Heard) (f : List (BitVec 8)) (j : ℕ) : Prop where
  pos : 1 ≤ f.length
  length : f.length ≤ 2047
  le : j ≤ f.length
  replaying : s.replay.replaying = decide (j < f.length)
  replayingD : s.replay.replayingD = decide (1 ≤ j)
  raddr : s.replay.rxbRaddr = BitVec.ofNat 11 j
  replayN : s.replay.replayN = BitVec.ofNat 11 f.length
  tog : s.cap.rxTog = !s.replay.rxAckTog
  togS1 : s.replay.rxTogS1 = !s.replay.rxAckTog
  togS2 : s.replay.rxTogS2 = !s.replay.rxAckTog
  inFrame : s.cap.rxInFrame = false
  frames : (g.out.whole ++ [f]).Sublist g.kept
  out : g.out.part = f.take j
  holds : HoldsFrom s.buf.mem f j

structure RxInv (s : Rx) (g : Heard) : Prop where
  capture : s.cap.rxInFrame = true → Capturing s g
  phase : (∃ w, Ready s g w) ∨ ∃ f j, Replaying s g f j
  kept : g.kept.Sublist g.received.whole

/-! ### An edge of `mac_clk` -/

variable {w : Option (List (BitVec 8))} {f : List (BitVec 8)} {j : ℕ} {b : Bool}

theorem drive_none {s' : Rx} (h : s'.replay.replayingD = false) :
    (g.drive s').out = g.out.next none := by
  unfold Heard.drive Rx.gmii
  rw [h]
  rfl

theorem drive_some {s' : Rx} (h : s'.replay.replayingD = true) :
    (g.drive s').out = g.out.next (some s'.buf.rdData) := by
  unfold Heard.drive Rx.gmii
  rw [h]
  rfl

/-- Between two bursts: nothing goes out, and a burst starts when a toggle has come across. -/
theorem Ready.mac (h : Ready s g w) :
    Ready (s.macClk false) (g.drive (s.macClk false)) w ∨
      ∃ f, w = some f ∧ Replaying (s.macClk false) (g.drive (s.macClk false)) f 0 := by
  have hb := replay_rest h.replaying h.replayingD
  have hd : (s.macClk false).replay.replayingD = false := by rw [hb]; exact h.replayingD
  have hack : (s.macClk false).replay.rxAckTog = s.replay.rxAckTog := by rw [hb]
  have hout : (g.drive (s.macClk false)).out = g.out := by
    rw [drive_none hd, Bursts.next_none_of_nil h.out]
  by_cases hs2 : s.replay.rxTogS2 = s.replay.rxAckTog
  · refine Or.inl ⟨by rw [hb, hs2, bne_self_eq_false], hd, ?_, by rw [hout]; exact h.frames,
      by rw [hout]; exact h.out⟩
    have htog := h.published.toggle.move hs2
    rw [hack]
    exact ⟨by rw [hb]; exact htog, h.published.frame⟩
  · obtain ⟨hw, ht, ht1, -⟩ := h.published.toggle.across hs2
    obtain ⟨f, rfl⟩ := Option.isSome_iff_exists.mp hw
    obtain ⟨hin, hf⟩ := h.published.frame f rfl
    refine Or.inr ⟨f, rfl, ?_⟩
    exact
      { pos := hf.pos
        length := hf.length
        le := Nat.zero_le _
        replaying := by
          rw [hb, decide_eq_true (show 0 < f.length from hf.pos)]
          exact bne_iff_ne.mpr hs2
        replayingD := hd
        raddr := by rw [hb]; exact if_neg hs2
        replayN := by rw [hb]; exact (if_neg hs2).trans hf.len
        tog := by rw [hack]; exact ht
        togS1 := by rw [hack, hb]; exact ht
        togS2 := by rw [hack, hb]; exact ht1
        inFrame := hin
        frames := by rw [hout]; exact h.frames
        out := by rw [hout]; exact h.out
        holds := hf.holds }

/-- A byte of the burst is read, and goes out. -/
theorem Replaying.read (h : Replaying s g f j) (hj : j < f.length) :
    Replaying (s.macClk false) (g.drive (s.macClk false)) f (j + 1) := by
  have hb := replay_read (s := s) (by rw [h.replaying, decide_eq_true hj])
  have hack : (s.macClk false).replay.rxAckTog = s.replay.rxAckTog := by rw [hb]
  have hout : (g.drive (s.macClk false)).out = g.out.next (some (s.macClk false).buf.rdData) :=
    drive_some (by rw [hb])
  have hread : f[j + 1 - 1]? = some (s.macClk false).buf.rdData := by
    have := PktBuf.rdData_rdClk (s := s.buf) h.holds hj
    rwa [← h.raddr] at this
  exact
    { pos := h.pos
      length := h.length
      le := hj
      replaying := by
        rw [hb]
        exact still_reading h.raddr h.replayN hj h.length
      replayingD := by rw [hb]; exact (decide_eq_true (Nat.le_add_left 1 j)).symm
      raddr := by rw [hb, ← ofNat_succ, ← h.raddr]
      replayN := by rw [hb]; exact h.replayN
      tog := by rw [hack]; exact h.tog
      togS1 := by rw [hack, hb]; exact h.tog
      togS2 := by rw [hack, hb]; exact h.togS1
      inFrame := h.inFrame
      frames := by rw [hout]; exact h.frames
      out := by
        rw [hout, Bursts.part_some, h.out]
        exact take_concat (Nat.le_add_left 1 j) hread
      holds := h.holds.mono (Nat.le_succ j) }

/-- The burst ends. -/
theorem Replaying.tail (h : Replaying s g f f.length) :
    Ready (s.macClk false) (g.drive (s.macClk false)) none := by
  have hr : s.replay.replaying = false := by rw [h.replaying, decide_eq_false (lt_irrefl _)]
  have hb := replay_tail hr (by rw [h.replayingD, decide_eq_true h.pos])
  have hout : (g.drive (s.macClk false)).out = g.out.next none := drive_none (by rw [hb])
  have hpart : g.out.part = f := by rw [h.out, List.take_length]
  have hnil : g.out.part ≠ [] := by
    rw [hpart]
    exact List.ne_nil_of_length_pos h.pos
  refine ⟨by rw [hb]; exact hr, by rw [hb], ⟨?_, fun _ hf => nomatch hf⟩, ?_, by rw [hout]; rfl⟩
  · rw [hb]
    exact Toggle.Crossing.of_eq (h.tog.trans h.togS2.symm) (h.tog.trans h.togS2.symm)
      (h.togS1.trans h.togS2.symm)
  · rw [hout, Bursts.whole_none, Bursts.all_of_ne_nil hnil, hpart, Option.toList_none,
      List.append_nil]
    exact h.frames

/-- **An edge of `mac_clk`.** -/
theorem RxInv.mac (h : RxInv s g) : RxInv (s.macClk false) (g.drive (s.macClk false)) := by
  refine ⟨fun hin => ?_, ?_, h.kept⟩
  · obtain ⟨hnil, hfree, hlen, hfill⟩ := h.capture hin
    exact ⟨hnil, hfree, hlen, hfill.waddr, hfill.wrCount, hfill.holds⟩
  · rcases h.phase with ⟨w, hr⟩ | ⟨f, j, hs⟩
    · rcases hr.mac with hr' | ⟨f, -, hs'⟩
      · exact Or.inl ⟨w, hr'⟩
      · exact Or.inr ⟨f, 0, hs'⟩
    · by_cases hj : j < f.length
      · exact Or.inr ⟨f, j + 1, hs.read hj⟩
      · obtain rfl : j = f.length := le_antisymm hs.le (not_lt.mp hj)
        exact Or.inl ⟨none, hs.tail⟩

/-! ### An edge of `pcs_rx_clk` -/

variable {held : Bool}

theorem rx_gmii_on (hi : i.dv = true) : i.gmii = some i.rxd := if_pos hi

theorem rx_gmii_off (hi : i.dv = false) : i.gmii = none := by
  unfold GmiiIn.gmii
  rw [hi]
  rfl

/-- Nothing is held between two bursts behind which no frame waits. -/
theorem Ready.not_held (h : Ready s g none) : s.held = false := by
  obtain ⟨ht, ht1, ht2⟩ := h.published.toggle.settled
  unfold Rx.held
  rw [ht, ht1, ht2, h.replaying, h.replayingD]
  simp

/-- Nothing is held: no frame waits, and none is replayed. -/
theorem RxInv.ready_of_not_held (h : RxInv s g) (hh : s.held = false) : Ready s g none := by
  unfold Rx.held at hh
  simp only [Bool.or_eq_false_iff, bne_eq_false_iff_eq] at hh
  obtain ⟨⟨⟨⟨h1, h2⟩, h3⟩, hr⟩, hd⟩ := hh
  rcases h.phase with ⟨w, hready⟩ | ⟨f, j, hs⟩
  · have hw : w = none :=
      Option.not_isSome_iff_eq_none.mp (by
        rw [hready.published.toggle.eq_false h1 h2 h3]
        exact Bool.false_ne_true)
    exact hw ▸ hready
  · rw [hs.togS2] at h3
    exact absurd h3 (Bool.not_ne_self _)

/-- Nor where a frame is being captured. -/
theorem RxInv.ready_of_inFrame (h : RxInv s g) (hin : s.cap.rxInFrame = true) : Ready s g none := by
  rcases h.phase with ⟨_ | f, hr⟩ | ⟨f, j, hs⟩
  · exact hr
  · obtain ⟨hnot, -⟩ := hr.published.frame f rfl
    rw [hin] at hnot
    cases hnot
  · have hnot := hs.inFrame
    rw [hin] at hnot
    cases hnot

/-- What is kept is received. -/
theorem sample_kept (h : g.kept.Sublist g.received.whole) (held : Bool) (i : GmiiIn) :
    (g.sample held i).kept.Sublist (g.sample held i).received.whole := by
  unfold Heard.sample
  cases hdv : i.dv with
  | true =>
    rw [rx_gmii_on hdv]
    simpa using h
  | false =>
    rw [rx_gmii_off hdv]
    by_cases hcur : g.received.part = []
    · simpa [hcur, Bursts.all_of_nil hcur] using h
    · rw [Bursts.whole_none, Bursts.all_of_ne_nil hcur]
      by_cases hk : g.keeps = true
      · simpa [hcur, hk] using h.append_right [g.received.part]
      · simpa [hcur, hk] using h.trans (List.sublist_append_left _ _)

theorem kept_sample (held : Bool) (i : GmiiIn) : g.kept.Sublist (g.sample held i).kept := by
  change g.kept.Sublist (if _ then _ else _)
  split_ifs
  · exact List.sublist_append_left _ _
  · exact List.Sublist.refl _

/-- Where nothing is captured the replay process and its frame are as before. -/
theorem RxInv.skip (h : RxInv s g) (hn : s.cap.inFrameNext i = false)
    (hp : s.cap.rxInFrame = true → i.dv = true) :
    RxInv (s.pcsClk false busy i) (g.sample held i) := by
  have hs := @pcs_skip s i busy hn hp
  have hkept := kept_sample (g := g) held i
  refine ⟨fun hin => ?_, ?_, sample_kept h.kept held i⟩
  · rw [hs] at hin
    cases hin
  · rw [hs]
    rcases h.phase with ⟨w, hr⟩ | ⟨f, j, hr⟩
    · refine Or.inl ⟨w, hr.replaying, hr.replayingD, ⟨hr.published.toggle, fun f hf => ?_⟩,
        hr.frames.trans hkept, hr.out⟩
      exact ⟨rfl, (hr.published.frame f hf).2⟩
    · exact Or.inr ⟨f, j, hr.pos, hr.length, hr.le, hr.replaying, hr.replayingD, hr.raddr,
        hr.replayN, hr.tog, hr.togS1, hr.togS2, rfl, hr.frames.trans hkept, hr.out, hr.holds⟩

/-- A frame that has been captured ends: it waits, and it is kept. -/
theorem RxInv.publish (h : RxInv s g) (hin : s.cap.rxInFrame = true) (hdv : i.dv = false) :
    RxInv (s.pcsClk false busy i) (g.sample held i) := by
  have hs := @pcs_publish s i busy hin hdv
  have hr := h.ready_of_inFrame hin
  obtain ⟨hnil, hfree, hlen, hfill⟩ := h.capture hin
  have hkeeps : g.keeps = true := by
    unfold Heard.keeps
    rw [hfree, decide_eq_true hlen]
    rfl
  have hkept : (g.sample held i).kept = g.kept ++ [g.received.part] := if_pos ⟨hdv, hnil, hkeeps⟩
  refine ⟨fun hin' => ?_, Or.inl ⟨some g.received.part, ?_⟩, sample_kept h.kept held i⟩
  · rw [hs] at hin'
    cases hin'
  · rw [hs]
    refine ⟨hr.replaying, hr.replayingD, ⟨hr.published.toggle.flip, fun f hf => ⟨rfl, ?_⟩⟩, ?_,
      hr.out⟩
    · rw [← Option.some.inj hf]
      exact hfill.handed hnil hlen
    · have hframes := hr.frames
      rw [Option.toList_none, List.append_nil] at hframes
      rw [hkept]
      exact hframes.append_right [g.received.part]

/-- A byte is captured. -/
theorem RxInv.record (h : RxInv s g) (hn : s.cap.inFrameNext i = true)
    (hstart : s.cap.start i = true → g.received.part = [] ∧ s.held = false ∧ held = false)
    (hroom : s.buf.wrRoom (s.cap.start i) = true) :
    RxInv (s.pcsClk false busy i) (g.sample held i) := by
  have hs := @pcs_capture s i busy hn
  have hdv : i.dv = true := (Bool.and_eq_true_iff.mp hn).1
  -- the capture begins with the first byte of the frame, or it goes on
  have hcur : s.cap.start i = decide (g.received.part = []) ∧ Ready s g none ∧
      (g.received.part ≠ [] → s.buf.Filled g.received.part) ∧ g.received.part.length < 2047 ∧
      (g.sample held i).free = true := by
    unfold Heard.sample
    cases hin : s.cap.rxInFrame with
    | false =>
      have hst : s.cap.start i = true := by
        unfold RxCap.start
        rw [hn, hin]
        rfl
      obtain ⟨hnil, hnot, hheld⟩ := hstart hst
      exact ⟨by rw [hst, decide_eq_true hnil], h.ready_of_not_held hnot, fun hne => absurd hnil hne,
        by rw [hnil]; decide, by rw [if_pos hnil, hheld]; rfl⟩
    | true =>
      have hst : s.cap.start i = false := by
        unfold RxCap.start
        rw [hin, Bool.not_true, Bool.and_false]
      obtain ⟨hnil, hfree, hlen, hfill⟩ := h.capture hin
      refine ⟨by rw [hst, decide_eq_false hnil], h.ready_of_inFrame hin, fun _ => hfill, ?_,
        by rw [if_neg hnil, hfree]⟩
      refine lt_of_le_of_ne hlen fun hfull => ?_
      rw [hst, PktBuf.wrRoom, hfill.wrCount, hfull] at hroom
      exact absurd hroom (by decide)
  obtain ⟨hst, hr, hfill, hlt, hfree⟩ := hcur
  have hrec : (g.sample held i).received.part = g.received.part ++ [i.rxd] := by
    unfold Heard.sample
    rw [rx_gmii_on hdv]
    rfl
  have hbuf := PktBuf.Filled.fill hfill hlt i.rxd
  refine ⟨fun _ => ?_, Or.inl ⟨none, ?_⟩, sample_kept h.kept held i⟩
  · refine ⟨by rw [hrec]; exact List.concat_ne_nil _ _, hfree, ?_, ?_⟩
    · rw [hrec, List.length_append, List.length_singleton]
      exact hlt
    · rw [hrec, hs, hst]
      exact hbuf
  · rw [hs]
    exact ⟨hr.replaying, hr.replayingD, ⟨hr.published.toggle, fun _ hf => nomatch hf⟩,
      hr.frames.trans (kept_sample held i), hr.out⟩

/-- **An edge of `pcs_rx_clk`**, whatever the busy signal says. -/
theorem RxInv.pcs (h : RxInv s g)
    (hstart : s.cap.start i = true → g.received.part = [] ∧ s.held = false ∧ held = false)
    (hroom : s.cap.inFrameNext i = true → s.buf.wrRoom (s.cap.start i) = true) :
    RxInv (s.pcsClk false busy i) (g.sample held i) := by
  cases hn : s.cap.inFrameNext i with
  | true => exact h.record hn hstart (hroom hn)
  | false =>
    by_cases hend : s.cap.rxInFrame = true ∧ i.dv = false
    · exact h.publish hend.1 hend.2
    · exact h.skip hn fun hin => by simpa using fun hdv => hend ⟨hin, hdv⟩

/-! ### A run -/

/-- An edge of `mac_clk` lets go of what is held, and holds nothing new. -/
theorem RxInv.mac_not_held (h : RxInv s g) (hh : s.held = false) :
    (s.macClk false).held = false := by
  rcases (h.ready_of_not_held hh).mac with hr | ⟨f, hf, -⟩
  · exact hr.not_held
  · cases hf

/-- **The edges of one time.** -/
theorem RxInv.step {s : Retime} (h : RxInv s.rx g) {e : Edges}
    (hc : ∀ i ∈ e.pcsRx, RxClear s.rx g.received.part i) :
    RxInv (s.step e).rx (g.next s e) := by
  rcases e with ⟨_ | i, pcsTx, m⟩
  · cases m with
    | none => exact h
    | some j => exact h.mac
  · obtain ⟨hstart, hroom⟩ := hc i rfl
    cases m with
    | none => exact h.pcs (fun hst => ⟨(hstart hst).1, (hstart hst).2, (hstart hst).2⟩) hroom
    | some j =>
      have hrx : (s.step ⟨some i, pcsTx, some j⟩).rx =
          (s.rx.macClk false).pcsClk false s.rx.replay.busy i := rx_step_both s.rx i
      have hgmii : ((s.rx.macClk false).pcsClk false s.rx.replay.busy i).gmii =
          (s.rx.macClk false).gmii := by
        unfold Rx.gmii PktBuf.rdData
        rw [Rx.pcsClk, PktBuf.clk_rdQ]
      have hg : g.next s ⟨some i, pcsTx, some j⟩ =
          (g.drive (s.rx.macClk false)).sample s.rx.held i := by
        unfold Heard.next Heard.drive
        rw [hrx, hgmii]
        rfl
      rw [hrx, hg]
      exact h.mac.pcs
        (fun hst => ⟨(hstart hst).1, h.mac_not_held (hstart hst).2, (hstart hst).2⟩) hroom

theorem RxInv.reset {s : Retime} (h : s.Reset) : RxInv s.rx .empty := by
  refine ⟨fun hin => ?_, Or.inl ⟨none, ?_⟩, List.Sublist.refl _⟩
  · rw [h.rxInFrame] at hin
    cases hin
  · refine ⟨by rw [h.replay], by rw [h.replay], ⟨?_, fun _ hf => nomatch hf⟩,
      List.Sublist.refl _, rfl⟩
    rw [h.replay, h.rxTog]
    decide

theorem RxInv.run {es : List Edges} : ∀ {s : Retime} {g : Heard}, RxInv s.rx g →
    RxClearRun s g es → RxInv (s.run es).rx (Heard.watch s g es) := by
  induction es with
  | nil => exact fun h _ => h
  | cons e es ih => exact fun h hc => ih (h.step hc.1) hc.2

/-- **Frames are dropped whole or replayed whole** in a run whose edges are clear. -/
theorem rx_retimed {s : Retime} (h0 : s.Reset) {es : List Edges}
    (hclear : RxClearRun s .empty es) : RxRetimed s es := by
  have h : RxInv (s.run es).rx (Heard.watch s .empty es) := (RxInv.reset h0).run hclear
  refine ⟨h.kept, ?_⟩
  rcases h.phase with ⟨w, hr⟩ | ⟨f, j, hs⟩
  · exact ⟨(List.sublist_append_left _ _).trans hr.frames, fun hne => absurd hr.out hne⟩
  · refine ⟨(List.sublist_append_left _ _).trans hs.frames, fun _ => ⟨f, ?_, hs.frames⟩⟩
    rw [hs.out]
    exact List.take_prefix _ _

/-! ### Frames of the board -/

instance (s : Rx) (cur : List (BitVec 8)) (i : GmiiIn) : Decidable (RxClear s cur i) :=
  inferInstanceAs (Decidable (_ ∧ _))

instance decidableRxClearRun : ∀ s g es, Decidable (RxClearRun s g es)
  | _, _, [] => isTrue trivial
  | s, g, e :: es =>
    have := decidableRxClearRun (s.step e) (g.next s e) es
    inferInstanceAs (Decidable (_ ∧ _))

/-- An edge of `pcs_rx_clk` with a byte, and one without. -/
def rxByte (d : BitVec 8) : Edges := ⟨some ⟨d, true, false⟩, false, none⟩

def rxLow : Edges := ⟨some ⟨0, false, false⟩, false, none⟩

/-- An edge of `mac_clk`. -/
def macEdge : Edges := ⟨none, false, some ⟨0, false⟩⟩

/-- A frame of two bytes, and one that begins when the busy signal has risen and is dropped. -/
def twoFrames : List Edges :=
  [rxByte 1, rxByte 2, rxLow, macEdge, macEdge, rxLow, rxLow, rxByte 3, rxLow] ++
    List.replicate 4 macEdge

theorem rx_retimed_two :
    ((Heard.watch .afterReset .empty twoFrames).out.whole = [[1, 2]] ∧
        (Heard.watch .afterReset .empty twoFrames).received.whole = [[1, 2], [3]]) ∧
      RxRetimed .afterReset twoFrames :=
  ⟨by decide, rx_retimed Retime.reset_afterReset (by decide)⟩

/-- The next frame begins before the busy signal rises. -/
def merged : List Edges := [rxByte 1, rxByte 2, rxLow, rxByte 9] ++ List.replicate 6 macEdge

/-- The busy signal falls in the middle of a frame. -/
def cutFront : List Edges :=
  [rxByte 1, rxLow, macEdge, macEdge, rxLow, rxLow, rxByte 5] ++ List.replicate 3 macEdge ++
    [rxByte 6, rxByte 7, rxByte 8, rxLow] ++ List.replicate 5 macEdge

/-- A burst with a byte of the next frame, and one without the first bytes of its own. -/
theorem not_rx_retimed : ¬ RxRetimed .afterReset merged ∧ ¬ RxRetimed .afterReset cutFront := by
  refine ⟨fun h => ?_, fun h => ?_⟩
  · have hsub := h.2.1.trans h.1
    rw [show Heard.watch .afterReset .empty merged =
      ⟨⟨[[1, 2]], [9]⟩, false, [[1, 2]], ⟨[[9, 2]], []⟩⟩ by decide] at hsub
    revert hsub
    decide
  · have hsub := h.2.1.trans h.1
    rw [show Heard.watch .afterReset .empty cutFront =
      ⟨⟨[[1], [5, 6, 7, 8]], []⟩, false, [[1]], ⟨[[1], [8]], []⟩⟩ by decide] at hsub
    revert hsub
    decide

end EthGmii
end Xc7Tools
