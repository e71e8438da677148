/-
# eth_gmii_retime256: frames from the PCS with time between them

A frame of `n` bytes has been replayed `n + 4` edges of `mac_clk` after its end,
and two edges of `pcs_rx_clk` later the capture sees that the buffer is free. A
frame that leaves this much time to the one before it, and fits the buffer, is
captured whole; so in a run of such frames none is dropped, and each edge is
clear.

`Due` says in how many edges of `mac_clk` the replay is over, and which frames
are not yet out.

Key definitions: `Gap`, `Spaced`, `Due`, `Free`.
Key theorems: `Due.mac`, `Free.pcs`, `Free.step`, `rx_spaced`.
-/
import Xc7Tools.EthGmii.Receive
import Xc7Tools.Lib.Run

namespace Xc7Tools
namespace EthGmii

/-! ### The time between two frames -/

/-- The edges of `mac_clk` that the last frame needs, those since its end, and those of `pcs_rx_clk`
since there have been enough. -/
structure Gap where
  need : ℕ
  mac : ℕ
  pcs : ℕ
  deriving DecidableEq

/-- A frame ends. -/
def Heard.ends (g : Heard) (i : GmiiIn) : Bool := !i.dv && !g.received.part.isEmpty

def Gap.next (g : Heard) (t : Gap) (e : Edges) : Gap :=
  if e.pcsRx.any g.ends then ⟨g.received.part.length + 4, 0, 0⟩
  else
    { t with
      mac := if e.mac.isSome then t.mac + 1 else t.mac
      pcs := if e.pcsRx.isSome ∧ t.need ≤ t.mac then t.pcs + 1 else t.pcs }

/-- After the resets the capture may see a busy signal for two edges. -/
def Gap.start : Gap := ⟨0, 0, 0⟩

/-- The module with what has been seen of it. -/
def gapStep (y : Retime × Heard × Gap) (e : Edges) : Retime × Heard × Gap :=
  (y.1.step e, y.2.1.next y.1 e, y.2.2.next y.2.1 e)

/-- A byte leaves the frame before it its time, and has room. -/
def Spaced (y : Retime × Heard × Gap) (e : Edges) : Prop :=
  ∀ i ∈ e.pcsRx, i.dv = true →
    (y.2.1.received.part = [] → y.2.2.need ≤ y.2.2.mac ∧ 2 ≤ y.2.2.pcs) ∧
      y.2.1.received.part.length < 2047

instance (y : Retime × Heard × Gap) (e : Edges) : Decidable (Spaced y e) :=
  inferInstanceAs (Decidable (∀ _ ∈ e.pcsRx, _ → _))

variable {s : Rx} {g : Heard} {t : Gap} {i : GmiiIn} {n : ℕ} {busy held : Bool}
  {f : List (BitVec 8)}

/-! ### The replay -/

/-- The edges until the replay sees the toggle. -/
def Rx.onWay (s : Rx) : ℕ := Toggle.away s.cap.rxTog s.replay.rxTogS1 s.replay.rxTogS2

theorem onWay_le (s : Rx) : s.onWay ≤ 2 :=
  Nat.add_le_add (Bool.toNat_le _) (Bool.toNat_le _)

/-- The replay is over in `n` edges of `mac_clk`, and no frame is missing. -/
inductive Due (s : Rx) (g : Heard) (n : ℕ) : Prop
  | idle (ready : Ready s g none) (all : g.out.whole = g.kept)
  | waits (f : List (BitVec 8)) (ready : Ready s g (some f)) (all : g.out.whole ++ [f] = g.kept)
      (le : f.length + 2 + s.onWay ≤ n)
  | replays (f : List (BitVec 8)) (j : ℕ) (replaying : Replaying s g f j)
      (all : g.out.whole ++ [f] = g.kept) (le : f.length - j + 1 ≤ n)

theorem Due.over (h : Due s g 0) : Ready s g none ∧ g.out.whole = g.kept := by
  cases h with
  | idle ready all => exact ⟨ready, all⟩
  | waits f ready all le => omega
  | replays f j replaying all le => omega

/-- A frame waits: the toggle has come, or it comes nearer. -/
theorem onWay_mac (h : Ready s g (some f)) (hs2 : s.replay.rxTogS2 = s.replay.rxAckTog) :
    (s.macClk false).onWay + 1 = s.onWay := by
  rw [Rx.onWay, Rx.onWay, replay_rest h.replaying h.replayingD]
  exact h.published.toggle.nearer hs2

/-- **Each edge of `mac_clk` brings the end of the replay nearer.** -/
theorem Due.mac (h : Due s g n) : Due (s.macClk false) (g.drive (s.macClk false)) (n - 1) := by
  cases h with
  | idle ready all =>
    rcases ready.mac with hr | ⟨f, hf, -⟩
    · refine .idle hr ?_
      rw [drive_none hr.replayingD, Bursts.next_none_of_nil ready.out]
      exact all
    · cases hf
  | waits f ready all le =>
    have hout : (s.macClk false).replay.replayingD = false →
        (g.drive (s.macClk false)).out = g.out := fun hd => by
      rw [drive_none hd, Bursts.next_none_of_nil ready.out]
    rcases ready.mac with hr | ⟨f', hf, hs⟩
    · refine .waits f hr (by rw [hout hr.replayingD]; exact all) ?_
      have hstart := hr.replaying
      rw [replay_rest ready.replaying ready.replayingD, bne_eq_false_iff_eq] at hstart
      have := onWay_mac ready hstart
      omega
    · obtain rfl := Option.some.inj hf
      have hd : (s.macClk false).replay.replayingD = false := by
        rw [hs.replayingD]
        rfl
      exact .replays f 0 hs (by rw [hout hd]; exact all) (by omega)
  | replays f j replaying all le =>
    by_cases hj : j < f.length
    · have hr := replaying.read hj
      refine .replays f (j + 1) hr ?_ (by omega)
      have hd : (s.macClk false).replay.replayingD = true := by
        rw [hr.replayingD, decide_eq_true (Nat.le_add_left 1 j)]
      rw [drive_some hd, Bursts.whole_some]
      exact all
    · obtain rfl : j = f.length := le_antisymm replaying.le (not_lt.mp hj)
      have hr := replaying.tail
      have hpart : g.out.part = f := by rw [replaying.out, List.take_length]
      refine .idle hr ?_
      rw [drive_none hr.replayingD, Bursts.whole_none, Bursts.all_of_ne_nil, hpart]
      · exact all
      · rw [hpart]
        exact List.ne_nil_of_length_pos replaying.pos

/-! ### The capture -/

theorem Ready.not_busy (h : Ready s g none) : s.replay.busy = false := by
  obtain ⟨-, -, ht2⟩ := h.published.toggle.settled
  rw [RxReplay.busy, ht2, h.replaying, bne_self_eq_false, Bool.or_false]

/-- Nothing is missing, and the capture sees in time that the buffer is free. -/
structure Free (s : Rx) (g : Heard) (t : Gap) : Prop where
  inv : RxInv s g
  due : Due s g (t.need - t.mac)
  capture : g.received.part ≠ [] → s.cap.rxInFrame = true ∧ t.need ≤ t.mac ∧
    s.cap.busyS1 = false ∧ s.cap.busyS2 = false
  between : g.received.part = [] → s.cap.rxInFrame = false
  busyS1 : g.received.part = [] → 1 ≤ t.pcs → s.cap.busyS1 = false
  busyS2 : g.received.part = [] → 2 ≤ t.pcs → s.cap.busyS2 = false
  early : 1 ≤ t.pcs → t.need ≤ t.mac
  kept : g.kept = g.received.whole

theorem Free.over (h : Free s g t) (ht : t.need ≤ t.mac) : Ready s g none ∧ g.out.whole = g.kept := by
  have hdue := h.due
  rw [Nat.sub_eq_zero_of_le ht] at hdue
  exact hdue.over

theorem Free.mac (h : Free s g t) :
    Free (s.macClk false) (g.drive (s.macClk false)) { t with mac := t.mac + 1 } := by
  have hdue := h.due.mac
  rw [Nat.sub_sub] at hdue
  refine ⟨h.inv.mac, hdue, fun hpart => ?_, h.between, h.busyS1, h.busyS2,
    fun hpcs => (h.early hpcs).trans (Nat.le_succ _), h.kept⟩
  obtain ⟨hin, hle, hflags⟩ := h.capture hpart
  exact ⟨hin, hle.trans (Nat.le_succ _), hflags⟩

/-- What an edge of `pcs_rx_clk` finds; `c` says that the frame before has had its time. -/
structure Finds (s : Rx) (g : Heard) (t : Gap) (busy held c : Bool) : Prop where
  on : c = true → busy = false ∧ held = false ∧ t.need ≤ t.mac
  off : c = false → t.pcs = 0 ∧ g.received.part = []

/-- A byte that is in its time. -/
def InTime (g : Heard) (t : Gap) (c : Bool) (i : GmiiIn) : Prop :=
  i.dv = true → (g.received.part = [] → c = true ∧ 2 ≤ t.pcs) ∧ g.received.part.length < 2047

variable {c : Bool}

/-- **A byte in time is captured.** -/
theorem Free.inFrameNext (h : Free s g t) (hi : InTime g t c i) (hdv : i.dv = true) :
    s.cap.inFrameNext i = true ∧ s.cap.busyS1 = false := by
  obtain ⟨hstart, -⟩ := hi hdv
  have hflags : s.cap.busyS1 = false ∧ s.cap.busyS2 = false := by
    by_cases hpart : g.received.part = []
    · obtain ⟨-, hpcs⟩ := hstart hpart
      exact ⟨h.busyS1 hpart (by omega), h.busyS2 hpart hpcs⟩
    · exact (h.capture hpart).2.2
  exact ⟨by rw [RxCap.inFrameNext, hdv, hflags.2]; rfl, hflags.1⟩

/-- **An edge in time is clear.** -/
theorem Free.clear (h : Free s g t) (hf : Finds s g t busy held c) (hi : InTime g t c i) :
    (s.cap.start i = true → g.received.part = [] ∧ s.held = false ∧ held = false) ∧
      (s.cap.inFrameNext i = true → s.buf.wrRoom (s.cap.start i) = true) := by
  have hdv : s.cap.inFrameNext i = true → i.dv = true := fun hn => (Bool.and_eq_true_iff.mp hn).1
  refine ⟨fun hst => ?_, fun hn => ?_⟩
  · obtain ⟨hn, hnot⟩ := Bool.and_eq_true_iff.mp hst
    have hpart : g.received.part = [] := by
      by_contra hpart
      rw [(h.capture hpart).1] at hnot
      cases hnot
    obtain ⟨hc, -⟩ := (hi (hdv hn)).1 hpart
    obtain ⟨-, hheld, hle⟩ := hf.on hc
    exact ⟨hpart, (h.over hle).1.not_held, hheld⟩
  · have hlen := (hi (hdv hn)).2
    by_cases hpart : g.received.part = []
    · have hst : s.cap.start i = true := by
        rw [RxCap.start, hn, h.between hpart]
        rfl
      rw [hst]
      rfl
    · obtain ⟨-, -, -, hfill⟩ := h.inv.capture (h.capture hpart).1
      rw [PktBuf.wrRoom, hfill.wrCount, Bool.or_eq_true_iff, bne_iff_ne]
      refine Or.inr fun he => ?_
      have := ofNat_inj (show g.received.part.length < 2048 by omega)
        (show 2047 < 2048 by omega) he
      omega

/-- The time after an edge of `pcs_rx_clk`. -/
def Gap.sample (g : Heard) (t : Gap) (c : Bool) (i : GmiiIn) : Gap :=
  if g.ends i then ⟨g.received.part.length + 4, 0, 0⟩
  else { t with pcs := if c then t.pcs + 1 else t.pcs }

/-- A byte is captured. -/
theorem Free.record (h : Free s g t) (hf : Finds s g t busy held c) (hi : InTime g t c i)
    (hdv : i.dv = true) :
    Free (s.pcsClk false busy i) (g.sample held i) (t.sample g c i) := by
  obtain ⟨hn, hflag⟩ := h.inFrameNext hi hdv
  obtain ⟨hstart, hroom⟩ := h.clear hf hi
  have hinv : RxInv (s.pcsClk false busy i) (g.sample held i) := h.inv.pcs hstart hroom
  have hs := @pcs_capture s i busy hn
  have hin : (s.pcsClk false busy i).cap.rxInFrame = true := by rw [hs]
  have hc : c = true := by
    by_contra hc
    have hpart := (hf.off (by simpa using hc)).2
    exact hc ((hi hdv).1 hpart).1
  obtain ⟨hbusy, -, hle⟩ := hf.on hc
  have hreceived : (g.sample held i).received = g.received.next (some i.rxd) := by
    rw [Heard.sample, rx_gmii_on hdv]
  have hkept : (g.sample held i).kept = g.kept := if_neg (fun hend => by
    rw [hdv] at hend
    cases hend.1)
  have htime : t.sample g c i = { t with pcs := t.pcs + 1 } := by
    rw [Gap.sample, Heard.ends, hdv, hc]
    rfl
  have hpart : (g.sample held i).received.part ≠ [] := by
    rw [hreceived]
    exact List.concat_ne_nil _ _
  rw [htime]
  refine ⟨hinv, ?_, fun _ => ⟨hin, hle, by rw [hs]; exact hbusy, by rw [hs]; exact hflag⟩,
    fun hno => absurd hno hpart, fun hno => absurd hno hpart, fun hno => absurd hno hpart,
    fun _ => hle, ?_⟩
  · refine .idle (hinv.ready_of_inFrame hin) ?_
    rw [hkept]
    exact (h.over hle).2
  · rw [hkept, hreceived, h.kept]
    rfl

/-- A frame ends, and waits. -/
theorem Free.publish (h : Free s g t) (hf : Finds s g t busy held c) (hi : InTime g t c i)
    (hdv : i.dv = false) (hpart : g.received.part ≠ []) :
    Free (s.pcsClk false busy i) (g.sample held i) (t.sample g c i) := by
  obtain ⟨hin, hle, -⟩ := h.capture hpart
  obtain ⟨hready, hout⟩ := h.over hle
  obtain ⟨hstart, hroom⟩ := h.clear hf hi
  have hinv : RxInv (s.pcsClk false busy i) (g.sample held i) := h.inv.pcs hstart hroom
  have hs := @pcs_publish s i busy hin hdv
  obtain ⟨-, hfree, hlen, -⟩ := h.inv.capture hin
  have hkept : (g.sample held i).kept = g.kept ++ [g.received.part] :=
    if_pos ⟨hdv, hpart, by rw [Heard.keeps, hfree, decide_eq_true hlen]; rfl⟩
  have hreceived : (g.sample held i).received = g.received.next none := by
    rw [Heard.sample, rx_gmii_off hdv]
  have htime : t.sample g c i = ⟨g.received.part.length + 4, 0, 0⟩ := by
    rw [Gap.sample, Heard.ends, hdv, if_pos]
    simpa using hpart
  obtain ⟨ht, ht1, -⟩ := hready.published.toggle.settled
  have htog : (s.pcsClk false busy i).cap.rxTog = !s.replay.rxAckTog := by rw [hs, ← ht]
  have hreplay : (s.pcsClk false busy i).replay = s.replay := rfl
  rw [htime]
  refine ⟨hinv, ?_, fun hno => ?_, fun _ => by rw [hs], fun _ hno => absurd hno (Nat.not_succ_le_zero _),
    fun _ hno => absurd hno (Nat.not_succ_le_zero _), fun hno => absurd hno (Nat.not_succ_le_zero _), ?_⟩
  · -- the phase of the new state can only be that the frame waits
    rcases hinv.phase with ⟨w, hr⟩ | ⟨f, j, hr⟩
    · cases w with
      | none =>
        have hsame := hr.published.toggle.settled.1
        rw [htog, hreplay] at hsame
        exact absurd hsame (Bool.not_ne_self _)
      | some f =>
        have hframes : (g.out.whole ++ [f]).Sublist (g.out.whole ++ [g.received.part]) := by
          have hsub := hr.frames
          rw [hkept, ← hout] at hsub
          exact hsub
        have heq := hframes.eq_of_length (by simp)
        obtain rfl : f = g.received.part := by simpa using heq
        refine .waits _ hr ?_ ?_
        · rw [hkept, ← hout]
          rfl
        · have := onWay_le (s.pcsClk false busy i)
          simp only
          omega
    · have hsame := hr.togS1
      rw [hreplay, ht1] at hsame
      exact absurd hsame.symm (Bool.not_ne_self _)
  · rw [hreceived] at hno
    exact absurd rfl hno
  · rw [hkept, hreceived, h.kept, Bursts.whole_none, Bursts.all_of_ne_nil hpart]

/-- Between two frames the replay goes its own way. -/
theorem Due.skip (h : Due s g n) (hin : s.cap.rxInFrame = false) (hpart : g.received.part = [])
    (hn : s.cap.inFrameNext i = false) :
    Due (s.pcsClk false busy i) (g.sample held i) n := by
  have hs := @pcs_skip s i busy hn (fun hon => by rw [hin] at hon; cases hon)
  have hkept : (g.sample held i).kept = g.kept := if_neg (fun hend => hend.2.1 hpart)
  have hready : ∀ {w}, Ready s g w → Ready (s.pcsClk false busy i) (g.sample held i) w :=
    fun {w} hr => by
      rw [hs]
      exact ⟨hr.replaying, hr.replayingD, ⟨hr.published.toggle, fun f hf =>
        ⟨rfl, (hr.published.frame f hf).2⟩⟩, by rw [hkept]; exact hr.frames, hr.out⟩
  cases h with
  | idle ready all => exact .idle (hready ready) (by rw [hkept]; exact all)
  | waits f ready all le =>
    exact .waits f (hready ready) (by rw [hkept]; exact all) (by rw [hs]; exact le)
  | replays f j hr all le =>
    refine .replays f j ?_ (by rw [hkept]; exact all) le
    rw [hs]
    exact ⟨hr.pos, hr.length, hr.le, hr.replaying, hr.replayingD, hr.raddr, hr.replayN, hr.tog,
      hr.togS1, hr.togS2, rfl, by rw [hkept]; exact hr.frames, hr.out, hr.holds⟩

theorem Free.skip (h : Free s g t) (hf : Finds s g t busy held c) (hi : InTime g t c i)
    (hdv : i.dv = false) (hpart : g.received.part = []) :
    Free (s.pcsClk false busy i) (g.sample held i) (t.sample g c i) := by
  obtain ⟨hstart, hroom⟩ := h.clear hf hi
  have hin := h.between hpart
  have hn : s.cap.inFrameNext i = false := by rw [RxCap.inFrameNext, hdv]; rfl
  have hs := @pcs_skip s i busy hn (fun hon => by rw [hin] at hon; cases hon)
  have hreceived : (g.sample held i).received = g.received := by
    rw [Heard.sample, rx_gmii_off hdv]
    exact Bursts.next_none_of_nil hpart
  have hkept : (g.sample held i).kept = g.kept := if_neg (fun hend => hend.2.1 hpart)
  have htime : t.sample g c i = { t with pcs := if c then t.pcs + 1 else t.pcs } := by
    rw [Gap.sample, Heard.ends, hpart, if_neg (by simp)]
  rw [htime]
  refine ⟨h.inv.pcs hstart hroom, h.due.skip hin hpart hn, fun hno => ?_, fun _ => by rw [hs],
    fun _ hpcs => ?_, fun _ hpcs => ?_, fun hpcs => ?_, by rw [hkept, hreceived]; exact h.kept⟩
  · rw [hreceived] at hno
    exact absurd hpart hno
  · rw [hs]
    cases c with
    | true => exact (hf.on rfl).1
    | false => exact absurd hpcs (by simp [(hf.off rfl).1])
  · rw [hs]
    cases c with
    | true => exact h.busyS1 hpart (by simpa using hpcs)
    | false => exact absurd hpcs (by simp [(hf.off rfl).1])
  · cases c with
    | true => exact (hf.on rfl).2.2
    | false => exact absurd hpcs (by simp [(hf.off rfl).1])

/-- **An edge of `pcs_rx_clk`.** -/
theorem Free.pcs (h : Free s g t) (hf : Finds s g t busy held c) (hi : InTime g t c i) :
    Free (s.pcsClk false busy i) (g.sample held i) (t.sample g c i) := by
  cases hdv : i.dv with
  | true => exact h.record hf hi hdv
  | false =>
    by_cases hpart : g.received.part = []
    · exact h.skip hf hi hdv hpart
    · exact h.publish hf hi hdv hpart

/-! ### A run -/

theorem Free.finds (h : Free s g t) :
    Finds s g t s.replay.busy s.held (decide (t.need ≤ t.mac)) := by
  refine ⟨fun hc => ?_, fun hc => ⟨?_, ?_⟩⟩
  · have hle : t.need ≤ t.mac := of_decide_eq_true hc
    obtain ⟨hready, -⟩ := h.over hle
    exact ⟨hready.not_busy, hready.not_held, hle⟩
  · by_contra hpcs
    exact absurd (h.early (Nat.pos_of_ne_zero hpcs)) (of_decide_eq_false hc)
  · by_contra hpart
    exact absurd (h.capture hpart).2.1 (of_decide_eq_false hc)

theorem Spaced.inTime {s : Retime} {e : Edges} (he : Spaced (s, g, t) e) (hi : i ∈ e.pcsRx) :
    InTime g t (decide (t.need ≤ t.mac)) i := fun hdv => by
  obtain ⟨hstart, hlen⟩ := he i hi hdv
  exact ⟨fun hpart => ⟨decide_eq_true (hstart hpart).1, (hstart hpart).2⟩, hlen⟩

theorem sample_next (g : Heard) (t : Gap) (pcsTx : Bool) (i : GmiiIn) :
    t.next g ⟨some i, pcsTx, none⟩ = t.sample g (decide (t.need ≤ t.mac)) i := by
  simp [Gap.next, Gap.sample]

theorem sample_next_mac (g : Heard) (t : Gap) (s' : Rx) (pcsTx : Bool) (i : GmiiIn) (m : MacIn) :
    t.next g ⟨some i, pcsTx, some m⟩ =
      Gap.sample (g.drive s') { t with mac := t.mac + 1 } (decide (t.need ≤ t.mac)) i := by
  have hends : (g.drive s').ends i = g.ends i := rfl
  simp only [Gap.next, Gap.sample, hends]
  by_cases h : t.need ≤ t.mac <;> simp [h, Heard.drive]

/-- **The edges of one time.** -/
theorem Free.step {s : Retime} (h : Free s.rx g t) {e : Edges} (he : Spaced (s, g, t) e) :
    Free (s.step e).rx (g.next s e) (t.next g e) := by
  rcases e with ⟨_ | i, pcsTx, _ | m⟩
  · exact h
  · exact h.mac
  · rw [sample_next]
    exact h.pcs h.finds (he.inTime rfl)
  · have hrx : (s.step ⟨some i, pcsTx, some m⟩).rx =
        (s.rx.macClk false).pcsClk false s.rx.replay.busy i := rx_step_both s.rx i
    have hgmii : ((s.rx.macClk false).pcsClk false s.rx.replay.busy i).gmii =
        (s.rx.macClk false).gmii := by
      unfold Rx.gmii PktBuf.rdData
      rw [Rx.pcsClk, PktBuf.clk_rdQ]
    have hg : g.next s ⟨some i, pcsTx, some m⟩ =
        (g.drive (s.rx.macClk false)).sample s.rx.held i := by
      unfold Heard.next Heard.drive
      rw [hrx, hgmii]
      rfl
    rw [hrx, hg, sample_next_mac g t (s.rx.macClk false)]
    have hf := h.finds
    refine h.mac.pcs ⟨fun hc => ?_, hf.off⟩ (he.inTime rfl)
    obtain ⟨hbusy, hheld, hle⟩ := hf.on hc
    exact ⟨hbusy, hheld, hle.trans (Nat.le_succ _)⟩

theorem Free.reset {s : Retime} (h : s.Reset) : Free s.rx .empty .start := by
  have hinv := RxInv.reset h
  have hidle : Ready s.rx .empty none := hinv.ready_of_not_held (by
    rw [Rx.held, h.replay, h.rxTog]
    rfl)
  exact ⟨hinv, .idle hidle rfl, fun hno => absurd rfl hno, fun _ => h.rxInFrame,
    fun _ hno => absurd hno (by decide), fun _ hno => absurd hno (by decide), fun _ => Nat.le_refl 0,
    rfl⟩

/-- Frames that leave each other their time. -/
abbrev SpacedRun (s : Retime) (es : List Edges) : Prop :=
  Run.Along gapStep Spaced (s, .empty, .start) es

/-- The module with what has been seen of it, after a run. -/
def spaced (s : Retime) (es : List Edges) : Retime × Heard × Gap :=
  es.foldl gapStep (s, .empty, .start)

theorem Free.run {s : Retime} (hs : s.Reset) {es : List Edges} (hes : SpacedRun s es) :
    Free (spaced s es).1.rx (spaced s es).2.1 (spaced s es).2.2 :=
  Run.foldl_inv (fun y => Free y.1.rx y.2.1 y.2.2) (fun _ _ h he => h.step he) es (s, .empty, .start)
    hes (Free.reset hs)

theorem foldl_gapStep : ∀ (es : List Edges) (s : Retime) (g : Heard) (t : Gap),
    (es.foldl gapStep (s, g, t)).1 = s.run es ∧
      (es.foldl gapStep (s, g, t)).2.1 = Heard.watch s g es
  | [], _, _, _ => ⟨rfl, rfl⟩
  | e :: es, s, g, t => foldl_gapStep es (s.step e) (g.next s e) (t.next g e)

/-- Spaced frames meet the capture as it must be met. -/
theorem Free.clearRun : ∀ {es : List Edges} {s : Retime} {g : Heard} {t : Gap}, Free s.rx g t →
    Run.Along gapStep Spaced (s, g, t) es → RxClearRun s g es
  | [], _, _, _, _, _ => trivial
  | _ :: _, _, _, _, h, hes =>
    ⟨fun _ hi => ⟨fun hst =>
      have hclear := (h.clear h.finds (hes.1.inTime hi)).1 hst
      ⟨hclear.1, hclear.2.1⟩, (h.clear h.finds (hes.1.inTime hi)).2⟩,
      Free.clearRun (h.step hes.1) hes.2⟩

/-- **No frame that is in time is lost.** The bursts on the MAC's side are the frames of the PCS, in
order and whole; and when the last one has had its time they are all of them. -/
theorem rx_spaced {s : Retime} (hs : s.Reset) {es : List Edges} (hes : SpacedRun s es) :
    (spaced s es).2.1.out.whole <+: (spaced s es).2.1.received.whole ∧
      ((spaced s es).2.1.out.part ≠ [] → ∃ f, (spaced s es).2.1.out.part <+: f ∧
        (spaced s es).2.1.out.whole ++ [f] = (spaced s es).2.1.received.whole) ∧
      ((spaced s es).2.2.need ≤ (spaced s es).2.2.mac →
        (spaced s es).2.1.out = ⟨(spaced s es).2.1.received.whole, []⟩) := by
  have h := Free.run hs hes
  refine ⟨?_, fun hpart => ?_, fun hle => ?_⟩
  · rw [← h.kept]
    cases h.due with
    | idle _ all => rw [all]
    | waits f _ all => exact ⟨_, all⟩
    | replays f _ _ all => exact ⟨_, all⟩
  · rw [← h.kept]
    cases h.due with
    | idle ready => exact absurd ready.out hpart
    | waits f ready => exact absurd ready.out hpart
    | replays f j hr all =>
      refine ⟨f, ?_, all⟩
      rw [hr.out]
      exact List.take_prefix _ _
  · obtain ⟨hready, hout⟩ := h.over hle
    rw [← h.kept, ← hout, ← hready.out]

/-- Two frames, the second as soon as it may come. -/
def twoSpaced : List Edges :=
  [rxLow, rxLow, rxByte 1, rxByte 2, rxLow] ++ List.replicate 6 macEdge ++
    [rxLow, rxLow, rxByte 3, rxLow] ++ List.replicate 5 macEdge

theorem rx_spaced_two :
    (spaced .afterReset twoSpaced).2.1.out.whole <+:
        (spaced .afterReset twoSpaced).2.1.received.whole ∧
      ((spaced .afterReset twoSpaced).2.1.out.part ≠ [] →
        ∃ f, (spaced .afterReset twoSpaced).2.1.out.part <+: f ∧
          (spaced .afterReset twoSpaced).2.1.out.whole ++ [f] =
            (spaced .afterReset twoSpaced).2.1.received.whole) ∧
      ((spaced .afterReset twoSpaced).2.2.need ≤ (spaced .afterReset twoSpaced).2.2.mac →
        (spaced .afterReset twoSpaced).2.1.out =
          ⟨(spaced .afterReset twoSpaced).2.1.received.whole, []⟩) :=
  rx_spaced Retime.reset_afterReset (by decide)

end EthGmii
end Xc7Tools
