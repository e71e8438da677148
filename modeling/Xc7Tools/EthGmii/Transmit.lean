/-
# eth_gmii_retime256: frames to the PCS

The MAC's frames fill the buffer on `mac_clk`, a toggle crosses to
`pcs_tx_clk`, and the burst reads the buffer out. Nothing crosses back: the
capture rewinds the buffer and flips the toggle whether the burst is through or
not. In a run whose frames leave the burst the bytes it has still to read, and
none of which ends too early for the one before it, the frames on the PCS side
are the MAC's.

`Rest` and `Sending` are the burst process between two bursts and within one,
with the frame that waits behind it.

Key definitions: `Seen`, `Clear`, `Retimed`, `Waiting`, `Rest`, `Sending`.
Key theorems: `Inv.pcs`, `Inv.mac`, `Inv.todo_pcs`, `tx_retimed`.
-/
import Mathlib.Data.List.Induction
import Xc7Tools.EthGmii.Buffer
import Xc7Tools.Lib.Bursts
import Xc7Tools.Lib.Toggle

namespace Xc7Tools
namespace EthGmii

/-! ### The frames of a run -/

/-- `mac_txd` under `mac_tx_en` -/
def MacIn.gmii (i : MacIn) : Option (BitVec 8) := if i.txEn then some i.txd else none

/-- What has been seen on `mac_txd` and on `pcs_txd`. -/
structure Seen where
  sent : Bursts (BitVec 8)
  out : Bursts (BitVec 8)
  deriving DecidableEq

/-- Nothing yet. -/
def Seen.empty : Seen := ⟨.empty, .empty⟩

/-- Each `mac_clk` edge samples `mac_txd`, and each `pcs_tx_clk` edge drives `pcs_txd`. -/
def Seen.next (s : Retime) (g : Seen) (e : Edges) : Seen where
  sent := match e.mac with
    | some i => g.sent.next i.gmii
    | none => g.sent
  out := if e.pcsTx then g.out.next (s.step e).tx.gmii else g.out

/-- What has been seen at the end of a run. -/
def Seen.watch : Retime → Seen → List Edges → Seen
  | _, g, [] => g
  | s, g, e :: es => watch (s.step e) (g.next s e) es

/-- A complete frame has been handed over, and its burst has not begun. -/
def Tx.awaited (s : Tx) : Bool :=
  s.cap.txTog != s.burst.txTogS1 || s.burst.txTogS1 != s.burst.txTogS2 ||
    (s.burst.txTogS2 != s.burst.txDoneTog && !s.burst.sending && !s.burst.sendingD)

/-- What an edge of `mac_clk` must not meet. -/
def Clear (s : Tx) (i : MacIn) : Prop :=
  -- a byte is written behind the read address of the burst
  (i.txEn = true → s.awaited = false ∧
    (s.burst.sending = true → s.buf.waddrEff (s.cap.start i) < s.burst.txbRaddr)) ∧
  -- a frame ends when the burst has come to the last byte of the one before
  (i.txEn = false → s.cap.txEnQ = true → s.awaited = false ∧
    (s.burst.sending = true → s.burst.txbRaddr + 1 ≥ s.burst.sendN))

/-- The edges of a run are all clear. -/
def ClearRun : Retime → List Edges → Prop
  | _, [] => True
  | s, e :: es => (∀ i ∈ e.mac, Clear s.tx i) ∧ ClearRun (s.step e) es

/-- The MAC does not send. -/
def Edges.quiet (e : Edges) : Prop := ∀ i ∈ e.mac, i.txEn = false

/-- The edges of `pcs_tx_clk`. -/
def pcsTxEdges (es : List Edges) : ℕ := es.countP (·.pcsTx)

/-- The frames on the PCS side are the MAC's, in order; and they are all of them when enough edges
have passed since the last one ended. -/
def Retimed (s : Retime) (es : List Edges) : Prop :=
  let g := Seen.watch s .empty es
  g.out.whole <+: g.sent.whole ∧
    (g.out.part ≠ [] → ∃ f, g.sent.whole[g.out.whole.length]? = some f ∧ g.out.part <+: f) ∧
    ∀ es₁ es₂, es = es₁ ++ es₂ → (Seen.watch s .empty es₁).sent.part = [] →
      (∀ e ∈ es₂, e.quiet) → 2052 ≤ pcsTxEdges es₂ → g.out.whole = g.sent.whole

/-! ### The burst process on one edge -/

variable {s : Tx} {g : Seen} {i : MacIn}

theorem pcs_burst (s : Tx) : (s.pcsClk false).burst =
    s.burst.clk false s.cap.txTog s.cap.txLen s.buf.rdData := rfl

/-- Between two bursts. -/
theorem burst_rest (hs : s.burst.sending = false) (hd : s.burst.sendingD = false) :
    (s.pcsClk false).burst =
      { s.burst with
        txTogS1 := s.cap.txTog
        txTogS2 := s.burst.txTogS1
        pcsTxEn := false
        sending := s.burst.txTogS2 != s.burst.txDoneTog
        txbRaddr := if s.burst.txTogS2 = s.burst.txDoneTog then s.burst.txbRaddr else 0
        sendN := if s.burst.txTogS2 = s.burst.txDoneTog then s.burst.sendN else s.cap.txLen } := by
  by_cases h : s.burst.txTogS2 = s.burst.txDoneTog <;>
    simp [pcs_burst, TxBurst.clk, hs, hd, h]

/-- A byte of a burst is read. -/
theorem burst_read (hs : s.burst.sending = true) : (s.pcsClk false).burst =
    { s.burst with
      txTogS1 := s.cap.txTog
      txTogS2 := s.burst.txTogS1
      sendingD := true
      pcsTxd := s.buf.rdData
      pcsTxEn := s.burst.sendingD
      txbRaddr := s.burst.txbRaddr + 1
      sending := !decide (s.burst.txbRaddr + 1 ≥ s.burst.sendN) } := by
  by_cases h : s.burst.txbRaddr + 1 ≥ s.burst.sendN <;>
    simp_all [pcs_burst, TxBurst.clk]

/-- The last byte of a burst goes out. -/
theorem burst_last (hs : s.burst.sending = false) (hd : s.burst.sendingD = true) :
    (s.pcsClk false).burst =
      { s.burst with
        txTogS1 := s.cap.txTog
        txTogS2 := s.burst.txTogS1
        sendingD := false
        pcsTxd := s.buf.rdData
        pcsTxEn := true
        txDoneTog := s.burst.txTogS2
        fcount := s.burst.fcount + 1 } := by
  simp [pcs_burst, TxBurst.clk, hs, hd]

/-- With both edges at one time, the burst reads what was there before. -/
theorem step_both (s : Tx) (i : MacIn) :
    s.step (some i) true = (s.pcsClk false).macClk false i := by
  unfold Tx.step Tx.macClk
  rw [Tx.pcsClk, PktBuf.clk_rdClk]
  rfl

/-! ### The invariant -/

/-- The frame being captured. -/
structure Capture (s : Tx) (cur : List (BitVec 8)) : Prop where
  txEnQ : s.cap.txEnQ = !decide (cur = [])
  filled : cur ≠ [] → s.buf.Filled cur
  length : cur.length ≤ 2047

/-- The frame that waits for its burst, if one does; `b` is the toggle of the burst before. -/
structure Waiting (s : Tx) (cur : List (BitVec 8)) (b : Bool) (w : Option (List (BitVec 8))) :
    Prop where
  toggle : Toggle.Crossing s.cap.txTog s.burst.txTogS1 s.burst.txTogS2 b w.isSome
  frame : ∀ f, w = some f → cur = [] ∧ Handed s.cap.txLen s.buf.mem f

/-- Between two bursts. -/
structure Rest (s : Tx) (g : Seen) (w : Option (List (BitVec 8))) : Prop where
  sending : s.burst.sending = false
  sendingD : s.burst.sendingD = false
  waiting : Waiting s g.sent.part s.burst.txDoneTog w
  frames : g.sent.whole = g.out.all ++ w.toList

/-- Within the burst of `f`: the address is `j`, and byte `j - 1` has been read. -/
structure Sending (s : Tx) (g : Seen) (w : Option (List (BitVec 8))) (f : List (BitVec 8)) (j : ℕ) :
    Prop where
  pos : 1 ≤ f.length
  length : f.length ≤ 2047
  le : j ≤ f.length
  sending : s.burst.sending = decide (j < f.length)
  sendingD : s.burst.sendingD = decide (1 ≤ j)
  raddr : s.burst.txbRaddr = BitVec.ofNat 11 j
  sendN : s.burst.sendN = BitVec.ofNat 11 f.length
  waiting : Waiting s g.sent.part (!s.burst.txDoneTog) w
  late : w ≠ none → f.length ≤ j + 1
  togS2 : s.burst.txTogS2 = !s.burst.txDoneTog
  togS1 : j < f.length → s.burst.txTogS1 = !s.burst.txDoneTog
  frames : g.sent.whole = g.out.whole ++ f :: w.toList
  out : g.out.part = f.take (j - 1)
  data : 1 ≤ j → f[j - 1]? = some s.buf.rdData
  holds : HoldsFrom s.buf.mem f j

structure Inv (s : Tx) (g : Seen) : Prop where
  capture : Capture s g.sent.part
  phase : (∃ w, Rest s g w) ∨ ∃ w f j, Sending s g w f j

/-! ### The toggle -/

variable {cur : List (BitVec 8)} {w : Option (List (BitVec 8))} {f : List (BitVec 8)} {j : ℕ}
  {b : Bool}

theorem Waiting.of_eq (ht : s.cap.txTog = b) (ht1 : s.burst.txTogS1 = b)
    (ht2 : s.burst.txTogS2 = b) : Waiting s cur b none :=
  ⟨Toggle.Crossing.of_eq ht ht1 ht2, fun _ hf => nomatch hf⟩

/-- An edge of `pcs_tx_clk` that does not start a burst moves the toggle on. -/
theorem Waiting.move (h : Waiting s cur b w) (hs2 : s.burst.txTogS2 = b) {s' : Tx}
    (hcap : s'.cap = s.cap) (hmem : s'.buf.mem = s.buf.mem) (h1 : s'.burst.txTogS1 = s.cap.txTog)
    (h2 : s'.burst.txTogS2 = s.burst.txTogS1) : Waiting s' cur b w :=
  ⟨by rw [hcap, h1, h2]; exact h.toggle.move hs2, by rw [hcap, hmem]; exact h.frame⟩

/-- Nothing waits where the toggles agree. -/
theorem Waiting.eq_none (h : Waiting s cur b w) (h1 : s.cap.txTog = s.burst.txTogS1)
    (h2 : s.burst.txTogS1 = s.burst.txTogS2) (h3 : s.burst.txTogS2 = b) : w = none :=
  Option.not_isSome_iff_eq_none.mp (by rw [h.toggle.eq_false h1 h2 h3]; exact Bool.false_ne_true)

/-! ### An edge of `pcs_tx_clk` -/

/-- What an edge of `pcs_tx_clk` puts on the pins has been seen. -/
def Seen.drive (g : Seen) (s : Tx) : Seen := { g with out := g.out.next s.gmii }

theorem Capture.pcs (h : Capture s cur) : Capture (s.pcsClk false) cur :=
  ⟨h.txEnQ, fun hc => ⟨(h.filled hc).waddr, (h.filled hc).wrCount, (h.filled hc).holds⟩, h.length⟩

/-- Between two bursts: nothing goes out, and a burst starts when a toggle has come across. -/
theorem Rest.pcs (h : Rest s g w) :
    Rest (s.pcsClk false) (g.drive (s.pcsClk false)) w ∨
      ∃ f, w = some f ∧ Sending (s.pcsClk false) (g.drive (s.pcsClk false)) none f 0 := by
  have hb := burst_rest h.sending h.sendingD
  have hout : (g.drive (s.pcsClk false)).out = g.out.next none := by
    unfold Seen.drive Tx.gmii
    rw [hb]
    rfl
  by_cases hs2 : s.burst.txTogS2 = s.burst.txDoneTog
  · refine Or.inl ⟨by rw [hb, hs2, bne_self_eq_false], by rw [hb]; exact h.sendingD, ?_, ?_⟩
    · rw [show (s.pcsClk false).burst.txDoneTog = s.burst.txDoneTog by rw [hb]]
      exact h.waiting.move hs2 rfl rfl (by rw [hb]) (by rw [hb])
    · rw [hout, Bursts.all_none]
      exact h.frames
  · obtain ⟨hw, ht, ht1, -⟩ := h.waiting.toggle.across hs2
    obtain ⟨f, rfl⟩ := Option.isSome_iff_exists.mp hw
    obtain ⟨-, hf⟩ := h.waiting.frame f rfl
    have hdone : (s.pcsClk false).burst.txDoneTog = s.burst.txDoneTog := by rw [hb]
    refine Or.inr ⟨f, rfl, ?_⟩
    exact
      { pos := hf.pos
        length := hf.length
        le := Nat.zero_le _
        sending := by
          rw [hb, decide_eq_true (show 0 < f.length from hf.pos)]
          exact bne_iff_ne.mpr hs2
        sendingD := by rw [hb]; exact h.sendingD
        raddr := by rw [hb]; exact if_neg hs2
        sendN := by rw [hb]; exact (if_neg hs2).trans hf.len
        waiting := by
          rw [hdone]
          exact Waiting.of_eq ht (by rw [hb]; exact ht) (by rw [hb]; exact ht1)
        late := fun hw => absurd rfl hw
        togS2 := by rw [hdone, hb]; exact ht1
        togS1 := fun _ => by rw [hdone, hb]; exact ht
        frames := by
          rw [hout, Bursts.whole_none]
          exact h.frames
        out := by rw [hout]; rfl
        data := fun h0 => absurd h0 (by omega)
        holds := hf.holds }

/-- A byte of the burst is read, and the one before goes out. -/
theorem Sending.read (h : Sending s g w f j) (hj : j < f.length) :
    Sending (s.pcsClk false) (g.drive (s.pcsClk false)) w f (j + 1) := by
  have hsend : s.burst.sending = true := by rw [h.sending, decide_eq_true hj]
  have hb := burst_read hsend
  have hdone : (s.pcsClk false).burst.txDoneTog = s.burst.txDoneTog := by rw [hb]
  have hout : (g.drive (s.pcsClk false)).out =
      if 1 ≤ j then g.out.next (some s.buf.rdData) else g.out.next none := by
    unfold Seen.drive Tx.gmii
    rw [hb, h.sendingD]
    by_cases h1 : 1 ≤ j
    · rw [if_pos h1, decide_eq_true h1]
      rfl
    · rw [if_neg h1, decide_eq_false h1]
      rfl
  have hpart : g.out.part = f.take (j - 1) := h.out
  exact
    { pos := h.pos
      length := h.length
      le := hj
      sending := by
        rw [hb]
        exact still_reading h.raddr h.sendN hj h.length
      sendingD := by rw [hb]; exact (decide_eq_true (Nat.le_add_left 1 j)).symm
      raddr := by rw [hb, ← ofNat_succ, ← h.raddr]
      sendN := by rw [hb]; exact h.sendN
      waiting := by
        rw [hdone]
        exact h.waiting.move h.togS2 rfl rfl (by rw [hb]) (by rw [hb])
      late := fun hw => (h.late hw).trans (Nat.le_succ _)
      togS2 := by rw [hdone, hb]; exact h.togS1 hj
      togS1 := fun hj' => by
        -- no frame waits before the last byte is being read
        have hw : w = none := by
          by_contra hw
          have := h.late hw
          omega
        subst hw
        rw [hdone, hb]
        exact h.waiting.toggle.settled.1
      frames := by
        rw [hout]
        by_cases h1 : 1 ≤ j
        · rw [if_pos h1]
          exact h.frames
        · have hnil : g.out.part = [] := by
            rw [hpart, show j - 1 = 0 by omega, List.take_zero]
          rw [if_neg h1, Bursts.whole_none, Bursts.all_of_nil hnil]
          exact h.frames
      out := by
        rw [hout, Nat.add_sub_cancel]
        by_cases h1 : 1 ≤ j
        · rw [if_pos h1, Bursts.part_some, hpart]
          exact take_concat h1 (h.data h1)
        · rw [if_neg h1, show j = 0 by omega]
          rfl
      data := fun _ => by
        have hread := PktBuf.rdData_rdClk (s := s.buf) h.holds hj
        rw [← h.raddr] at hread
        exact hread
      holds := h.holds.mono (Nat.le_succ j) }

/-- The last byte goes out. -/
theorem Sending.last (h : Sending s g w f f.length) :
    Rest (s.pcsClk false) (g.drive (s.pcsClk false)) w := by
  have hpos := h.pos
  have hsend : s.burst.sending = false := by rw [h.sending, decide_eq_false (lt_irrefl _)]
  have hb := burst_last hsend (by rw [h.sendingD, decide_eq_true hpos])
  have hout : (g.drive (s.pcsClk false)).out = g.out.next (some s.buf.rdData) := by
    unfold Seen.drive Tx.gmii
    rw [hb]
    rfl
  have hdone : (s.pcsClk false).burst.txDoneTog = !s.burst.txDoneTog := by rw [hb]; exact h.togS2
  refine ⟨by rw [hb]; exact hsend, by rw [hb], ?_, ?_⟩
  · rw [hdone]
    exact h.waiting.move h.togS2 rfl rfl (by rw [hb]) (by rw [hb])
  · have hfull : g.out.part ++ [s.buf.rdData] = f := by
      rw [h.out, take_concat hpos (h.data hpos), List.take_length]
    rw [hout, Bursts.all_some, hfull, List.append_assoc]
    exact h.frames

/-- **An edge of `pcs_tx_clk`.** -/
theorem Inv.pcs (h : Inv s g) : Inv (s.pcsClk false) (g.drive (s.pcsClk false)) := by
  refine ⟨h.capture.pcs, ?_⟩
  rcases h.phase with ⟨w, hr⟩ | ⟨w, f, j, hs⟩
  · rcases hr.pcs with hr' | ⟨f, -, hs'⟩
    · exact Or.inl ⟨w, hr'⟩
    · exact Or.inr ⟨none, f, 0, hs'⟩
  · by_cases hj : j < f.length
    · exact Or.inr ⟨w, f, j + 1, hs.read hj⟩
    · obtain rfl : j = f.length := le_antisymm hs.le (not_lt.mp hj)
      exact Or.inl ⟨w, hs.last⟩

/-! ### An edge of `mac_clk` -/

/-- What an edge of `mac_clk` samples has been seen. -/
def Seen.sample (g : Seen) (i : MacIn) : Seen := { g with sent := g.sent.next i.gmii }

theorem gmii_on (hi : i.txEn = true) : i.gmii = some i.txd := if_pos hi

theorem gmii_off (hi : i.txEn = false) : i.gmii = none := by
  unfold MacIn.gmii
  rw [hi]
  rfl

/-- A byte is written. -/
theorem mac_write (h : Capture s cur) (hi : i.txEn = true) :
    s.macClk false i =
      { s with
        cap := { s.cap with txEnQ := true }
        buf := s.buf.clk false (decide (cur = [])) true i.txd } := by
  unfold Tx.macClk TxCap.clk TxCap.start
  rw [hi, h.txEnQ]
  simp

/-- A frame ends. -/
theorem mac_end (h : Capture s cur) (hi : i.txEn = false) (hcur : cur ≠ []) :
    s.macClk false i =
      { s with
        cap := ⟨!s.cap.txTog, false, s.buf.wrCount⟩ } := by
  unfold Tx.macClk TxCap.clk TxCap.start
  rw [hi, h.txEnQ, decide_eq_false hcur]
  rfl

/-- Between two frames nothing happens. -/
theorem mac_idle (h : Capture s []) (hi : i.txEn = false) : s.macClk false i = s := by
  have hq : s.cap.txEnQ = false := h.txEnQ
  unfold Tx.macClk TxCap.clk TxCap.start
  rw [hi, hq]
  rcases s with ⟨⟨tog, q, len⟩, burst, buf⟩
  obtain rfl : q = false := hq
  rfl

/-- The address of a byte. -/
theorem waddrEff_eq (h : Capture s cur) (hi : i.txEn = true) :
    s.buf.waddrEff (s.cap.start i) = BitVec.ofNat 11 cur.length := by
  unfold PktBuf.waddrEff TxCap.start
  rw [hi, h.txEnQ]
  by_cases hcur : cur = []
  · subst hcur
    rfl
  · rw [decide_eq_false hcur]
    exact (h.filled hcur).waddr

theorem Capture.write (h : Capture s cur) (hi : i.txEn = true)
    (hlen : (cur ++ [i.txd]).length ≤ 2047) : Capture (s.macClk false i) (cur ++ [i.txd]) := by
  rw [mac_write h hi]
  have hlt : cur.length < 2047 := by
    rw [List.length_append, List.length_singleton] at hlen
    omega
  exact ⟨by simp, fun _ => PktBuf.Filled.fill h.filled hlt i.txd, hlen⟩

/-- Not awaited: no frame waits. -/
theorem Rest.eq_none (h : Rest s g w) (ha : s.awaited = false) : w = none := by
  unfold Tx.awaited at ha
  rw [h.sending, h.sendingD] at ha
  simp only [Bool.or_eq_false_iff, Bool.not_false, Bool.and_true, bne_eq_false_iff_eq] at ha
  exact h.waiting.eq_none ha.1.1 ha.1.2 ha.2

theorem Sending.eq_none (h : Sending s g w f j) (ha : s.awaited = false) : w = none := by
  unfold Tx.awaited at ha
  simp only [Bool.or_eq_false_iff, bne_eq_false_iff_eq] at ha
  exact h.waiting.eq_none ha.1.1 ha.1.2 h.togS2

/-- The frame that has ended waits. -/
theorem Waiting.handOver (h : Waiting s cur b none) (hcap : Capture s cur) (hcur : cur ≠ [])
    (hi : i.txEn = false) : Waiting (s.macClk false i) [] b (some cur) := by
  rw [mac_end hcap hi hcur]
  refine ⟨h.toggle.flip, fun f hf => ⟨rfl, ?_⟩⟩
  rw [← Option.some.inj hf]
  exact (hcap.filled hcur).handed hcur hcap.length

/-- A byte is written between two bursts. -/
theorem Rest.write (h : Rest s g w) (hcap : Capture s g.sent.part) (hi : i.txEn = true)
    (hw : w = none) : Rest (s.macClk false i) (g.sample i) w := by
  subst hw
  rw [mac_write hcap hi]
  refine ⟨h.sending, h.sendingD, ⟨h.waiting.toggle, fun _ hf => nomatch hf⟩, ?_⟩
  unfold Seen.sample
  rw [gmii_on hi]
  exact h.frames

/-- A frame ends between two bursts. -/
theorem Rest.finish (h : Rest s g none) (hcap : Capture s g.sent.part) (hi : i.txEn = false)
    (hcur : g.sent.part ≠ []) : Rest (s.macClk false i) (g.sample i) (some g.sent.part) := by
  have hsent : (g.sample i).sent = g.sent.next none := by
    unfold Seen.sample
    rw [gmii_off hi]
  refine ⟨h.sending, h.sendingD, ?_, ?_⟩
  · rw [hsent]
    exact h.waiting.handOver hcap hcur hi
  · rw [hsent, Bursts.whole_none, Bursts.all_of_ne_nil hcur, h.frames]
    simp [Seen.sample]

/-- A byte is written during a burst, behind its read address. -/
theorem Sending.write (h : Sending s g w f j) (hcap : Capture s g.sent.part) (hi : i.txEn = true)
    (hw : w = none) (hlen : g.sent.part.length < 2047)
    (hlt : j < f.length → g.sent.part.length < j) :
    Sending (s.macClk false i) (g.sample i) w f j := by
  subst hw
  have hsent : (g.sample i).sent.whole = g.sent.whole := by
    unfold Seen.sample
    rw [gmii_on hi]
    rfl
  have hfill := PktBuf.clk_fill hcap.filled hlen i.txd
  rw [mac_write hcap hi]
  exact
    { pos := h.pos
      length := h.length
      le := h.le
      sending := h.sending
      sendingD := h.sendingD
      raddr := h.raddr
      sendN := h.sendN
      waiting := ⟨h.waiting.toggle, fun _ hf => nomatch hf⟩
      late := h.late
      togS2 := h.togS2
      togS1 := h.togS1
      frames := by rw [hsent]; exact h.frames
      out := h.out
      data := fun hj => by
        rw [hfill]
        exact h.data hj
      holds := by
        rw [hfill]
        by_cases hj : j < f.length
        · exact h.holds.write h.length (hlt hj) _
        · exact fun k hk hkf => absurd (hk.trans_lt hkf) hj }

/-- A frame ends during a burst, when that has come to its last byte. -/
theorem Sending.finish (h : Sending s g none f j) (hcap : Capture s g.sent.part)
    (hi : i.txEn = false) (hcur : g.sent.part ≠ []) (hj : f.length ≤ j + 1) :
    Sending (s.macClk false i) (g.sample i) (some g.sent.part) f j := by
  have hsent : (g.sample i).sent = g.sent.next none := by
    unfold Seen.sample
    rw [gmii_off hi]
  exact
    { pos := h.pos
      length := h.length
      le := h.le
      sending := h.sending
      sendingD := h.sendingD
      raddr := h.raddr
      sendN := h.sendN
      waiting := by
        rw [hsent]
        exact h.waiting.handOver hcap hcur hi
      late := fun _ => hj
      togS2 := h.togS2
      togS1 := h.togS1
      frames := by
        rw [hsent, Bursts.whole_none, Bursts.all_of_ne_nil hcur, h.frames]
        simp [Seen.sample]
      out := h.out
      data := by
        rw [mac_end hcap hi hcur]
        exact h.data
      holds := by
        rw [mac_end hcap hi hcur]
        exact h.holds }

/-- **An edge of `mac_clk`.** -/
theorem Inv.mac (h : Inv s g) (hc : Clear s i) (hlen : (g.sample i).sent.part.length ≤ 2047) :
    Inv (s.macClk false i) (g.sample i) := by
  have hcap := h.capture
  cases hi : i.txEn with
  | true =>
    obtain ⟨ha, hbehind⟩ := hc.1 hi
    rw [Seen.sample, gmii_on hi, Bursts.part_some] at hlen
    have hcap' := hcap.write hi hlen
    rw [List.length_append, List.length_singleton] at hlen
    refine ⟨by rw [Seen.sample, gmii_on hi]; exact hcap', ?_⟩
    rcases h.phase with ⟨w, hr⟩ | ⟨w, f, j, hs⟩
    · exact Or.inl ⟨w, hr.write hcap hi (hr.eq_none ha)⟩
    · refine Or.inr ⟨w, f, j, hs.write hcap hi (hs.eq_none ha) (by omega) fun hj => ?_⟩
      have hlt := hbehind (by rw [hs.sending, decide_eq_true hj])
      have hflen := hs.length
      rw [waddrEff_eq hcap hi, hs.raddr, BitVec.lt_def, BitVec.toNat_ofNat, BitVec.toNat_ofNat] at hlt
      omega
  | false =>
    by_cases hcur : g.sent.part = []
    · have hsame : g.sample i = g := by
        rw [Seen.sample, gmii_off hi, Bursts.next_none_of_nil hcur]
      rw [mac_idle (hcur ▸ hcap) hi, hsame]
      exact h
    · have hq : s.cap.txEnQ = true := by rw [hcap.txEnQ, decide_eq_false hcur]; rfl
      obtain ⟨ha, hlast⟩ := hc.2 hi hq
      refine ⟨?_, ?_⟩
      · rw [mac_end hcap hi hcur, Seen.sample, gmii_off hi, Bursts.part_none]
        exact ⟨rfl, fun h0 => absurd rfl h0, Nat.zero_le _⟩
      · rcases h.phase with ⟨w, hr⟩ | ⟨w, f, j, hs⟩
        · obtain rfl := hr.eq_none ha
          exact Or.inl ⟨_, hr.finish hcap hi hcur⟩
        · obtain rfl := hs.eq_none ha
          refine Or.inr ⟨_, f, j, hs.finish hcap hi hcur ?_⟩
          by_cases hj : j < f.length
          · have hge := hlast (by rw [hs.sending, decide_eq_true hj])
            rw [hs.raddr, hs.sendN] at hge
            exact (succ_ge_iff hj hs.length).mp hge
          · omega

/-! ### Edges of both clocks at one time -/

theorem Rest.not_awaited (h : Rest s g none) : s.awaited = false := by
  obtain ⟨ht, ht1, ht2⟩ := h.waiting.toggle.settled
  unfold Tx.awaited
  rw [ht, ht1, ht2]
  simp

theorem Sending.not_awaited (h : Sending s g none f j) : s.awaited = false := by
  obtain ⟨ht, ht1, ht2⟩ := h.waiting.toggle.settled
  have hpos := h.pos
  unfold Tx.awaited
  rw [ht, ht1, ht2, h.sending, h.sendingD]
  by_cases hj : j < f.length
  · simp [hj]
  · simp [show 1 ≤ j by omega]

/-- A clear edge of `mac_clk` stays clear over an edge of `pcs_tx_clk`. -/
theorem Clear.pcs (h : Inv s g) (hc : Clear s i) : Clear (s.pcsClk false) i := by
  have key : s.awaited = false → (s.pcsClk false).awaited = false ∧
      ((s.pcsClk false).burst.sending = true → s.burst.sending = true ∧
        s.burst.txbRaddr < (s.pcsClk false).burst.txbRaddr ∧
        ¬ s.burst.txbRaddr + 1 ≥ s.burst.sendN) := by
    intro ha
    rcases h.phase with ⟨w, hr⟩ | ⟨w, f, j, hs⟩
    · obtain rfl := hr.eq_none ha
      rcases hr.pcs with hr' | ⟨f, hf, -⟩
      · refine ⟨hr'.not_awaited, fun hsend => ?_⟩
        rw [hr'.sending] at hsend
        cases hsend
      · cases hf
    · obtain rfl := hs.eq_none ha
      by_cases hj : j < f.length
      · have hs' := hs.read hj
        have hlen := hs.length
        refine ⟨hs'.not_awaited, fun hsend => ⟨by rw [hs.sending, decide_eq_true hj], ?_, ?_⟩⟩
        · rw [hs.raddr, hs'.raddr, BitVec.lt_def, BitVec.toNat_ofNat, BitVec.toNat_ofNat]
          omega
        · rw [hs'.sending, decide_eq_true_iff] at hsend
          rw [hs.raddr, hs.sendN, succ_ge_iff hj hlen]
          omega
      · obtain rfl : j = f.length := le_antisymm hs.le (not_lt.mp hj)
        have hr' := hs.last
        refine ⟨hr'.not_awaited, fun hsend => ?_⟩
        rw [hr'.sending] at hsend
        cases hsend
  refine ⟨fun hi => ?_, fun hi hq => ?_⟩
  · obtain ⟨ha, hbehind⟩ := hc.1 hi
    obtain ⟨ha', hnext⟩ := key ha
    refine ⟨ha', fun hsend => ?_⟩
    obtain ⟨hsend₀, hlt, -⟩ := hnext hsend
    exact BitVec.lt_trans (hbehind hsend₀) hlt
  · obtain ⟨ha, hlast⟩ := hc.2 hi hq
    obtain ⟨ha', hnext⟩ := key ha
    refine ⟨ha', fun hsend => ?_⟩
    obtain ⟨hsend₀, -, hnot⟩ := hnext hsend
    exact absurd (hlast hsend₀) hnot

/-- **The edges of one time.** -/
theorem Inv.step {s : Retime} (h : Inv s.tx g) {e : Edges} (hc : ∀ i ∈ e.mac, Clear s.tx i)
    (hlen : (g.next s e).sent.part.length ≤ 2047) : Inv (s.step e).tx (g.next s e) := by
  rcases e with ⟨rxIn, pcsTx, _ | i⟩
  · cases pcsTx with
    | false => exact h
    | true => exact h.pcs
  · cases pcsTx with
    | false => exact h.mac (hc i rfl) hlen
    | true =>
      have htx : (s.step ⟨rxIn, true, some i⟩).tx = (s.tx.pcsClk false).macClk false i :=
        step_both s.tx i
      have hg : g.next s ⟨rxIn, true, some i⟩ = (g.drive (s.tx.pcsClk false)).sample i := by
        unfold Seen.next
        rw [htx]
        rfl
      rw [hg] at hlen ⊢
      rw [htx]
      exact h.pcs.mac ((hc i rfl).pcs h) hlen

/-! ### A run -/

theorem watch_append (fs : List Edges) : ∀ (s : Retime) (g : Seen) (es : List Edges),
    Seen.watch s g (es ++ fs) = Seen.watch (s.run es) (Seen.watch s g es) fs
  | _, _, [] => rfl
  | s, g, e :: es => watch_append fs (s.step e) (g.next s e) es

theorem watch_concat (s : Retime) (g : Seen) (es : List Edges) (e : Edges) :
    Seen.watch s g (es ++ [e]) = (Seen.watch s g es).next (s.run es) e := watch_append [e] s g es

theorem ClearRun.left {fs : List Edges} : ∀ {s : Retime} {es : List Edges},
    ClearRun s (es ++ fs) → ClearRun s es
  | _, [], _ => trivial
  | _, _ :: _, h => ⟨h.1, h.2.left⟩

/-- A frame of the MAC only grows. -/
theorem prefix_sent_watch : ∀ (es : List Edges) (s : Retime) (g : Seen), ∀ f ∈ g.sent.all,
    ∃ f' ∈ (Seen.watch s g es).sent.all, f <+: f'
  | [], _, _, f, hf => ⟨f, hf, List.prefix_refl f⟩
  | e :: es, s, g, f, hf => by
    obtain ⟨f₁, hf₁, hpre₁⟩ : ∃ f₁ ∈ (g.next s e).sent.all, f <+: f₁ := by
      unfold Seen.next
      rcases e.mac with _ | i
      · exact ⟨f, hf, List.prefix_refl f⟩
      · exact Bursts.prefix_all_next hf _
    obtain ⟨f₂, hf₂, hpre₂⟩ := prefix_sent_watch es (s.step e) (g.next s e) f₁ hf₁
    exact ⟨f₂, hf₂, hpre₁.trans hpre₂⟩

/-- The MAC's frames are of at most 2047 bytes. -/
def Fits (g : Seen) : Prop := ∀ f ∈ g.sent.all, f.length ≤ 2047

theorem Fits.before {s : Retime} {es : List Edges} (h : Fits (Seen.watch s g es)) : Fits g := by
  intro f hf
  obtain ⟨f', hf', hpre⟩ := prefix_sent_watch es s g f hf
  exact hpre.length_le.trans (h f' hf')

theorem Fits.part (h : Fits g) : g.sent.part.length ≤ 2047 := by
  by_cases hp : g.sent.part = []
  · rw [hp]
    exact Nat.zero_le _
  · apply h
    rw [Bursts.all_of_ne_nil hp]
    exact List.mem_append_right _ (List.mem_singleton_self _)

theorem Inv.reset {s : Retime} (h : s.Reset) : Inv s.tx .empty := by
  refine ⟨⟨by rw [h.txCap]; rfl, fun h0 => absurd rfl h0, Nat.zero_le _⟩, Or.inl ⟨none, ?_⟩⟩
  refine ⟨h.sending, h.sendingD, ?_, rfl⟩
  rw [h.txDoneTog]
  exact Waiting.of_eq (by rw [h.txCap]) h.txTogS1 h.txTogS2

theorem Inv.run {es : List Edges} : ∀ {s : Retime} {g : Seen}, Inv s.tx g → ClearRun s es →
    Fits (Seen.watch s g es) → Inv (s.run es).tx (Seen.watch s g es) := by
  induction es with
  | nil => exact fun h _ _ => h
  | cons e es ih =>
    intro s g h hc hfit
    have hlen : (g.next s e).sent.part.length ≤ 2047 :=
      Fits.part (@Fits.before _ (s.step e) es hfit)
    exact ih (h.step hc.1 hlen) hc.2 hfit

/-- The frames that have gone out are the first ones that were sent. -/
theorem Inv.out_prefix (h : Inv s g) : g.out.whole <+: g.sent.whole ∧
    (g.out.part ≠ [] → ∃ f, g.sent.whole[g.out.whole.length]? = some f ∧ g.out.part <+: f) := by
  rcases h.phase with ⟨w, hr⟩ | ⟨w, f, j, hs⟩
  · rw [hr.frames]
    by_cases hp : g.out.part = []
    · rw [Bursts.all_of_nil hp]
      exact ⟨List.prefix_append _ _, fun h0 => absurd hp h0⟩
    · rw [Bursts.all_of_ne_nil hp, List.append_assoc]
      refine ⟨List.prefix_append _ _, fun _ => ⟨_, ?_, List.prefix_refl _⟩⟩
      rw [List.getElem?_append_right (Nat.le_refl _), Nat.sub_self]
      rfl
  · rw [hs.frames]
    refine ⟨List.prefix_append _ _, fun _ => ⟨f, ?_, ?_⟩⟩
    · rw [List.getElem?_append_right (Nat.le_refl _), Nat.sub_self]
      rfl
    · rw [hs.out]
      exact List.take_prefix _ _

/-! ### Enough edges -/

/-- How many edges of `pcs_tx_clk` it takes, if nothing is sent, until the last byte is out. -/
def Tx.todo (s : Tx) : ℕ :=
  if s.cap.txTog ≠ s.burst.txTogS1 then s.cap.txLen.toNat + 4
  else if s.burst.txTogS1 ≠ s.burst.txTogS2 then s.cap.txLen.toNat + 3
  else if s.burst.sending = true ∨ s.burst.sendingD = true then
    s.burst.sendN.toNat - s.burst.txbRaddr.toNat + 1
  else if s.burst.txTogS2 ≠ s.burst.txDoneTog then s.cap.txLen.toNat + 2
  else 0

theorem todo_le (s : Tx) : s.todo ≤ 2051 := by
  have hlen := s.cap.txLen.isLt
  have hn := s.burst.sendN.isLt
  unfold Tx.todo
  split_ifs <;> omega

theorem Rest.todo_none (h : Rest s g none) : s.todo = 0 := by
  obtain ⟨ht, ht1, ht2⟩ := h.waiting.toggle.settled
  unfold Tx.todo
  rw [ht, ht1, ht2, h.sending, h.sendingD]
  simp

theorem Sending.todo_none (h : Sending s g none f j) : s.todo = f.length - j + 1 := by
  obtain ⟨ht, ht1, ht2⟩ := h.waiting.toggle.settled
  have hpos := h.pos
  have hle := h.le
  have hlen := h.length
  have hbusy : s.burst.sending = true ∨ s.burst.sendingD = true := by
    rw [h.sending, h.sendingD, decide_eq_true_iff, decide_eq_true_iff]
    omega
  unfold Tx.todo
  rw [ht, ht1, ht2, if_neg (not_not.mpr rfl), if_neg (not_not.mpr rfl), if_pos hbusy, h.sendN,
    h.raddr, BitVec.toNat_ofNat, BitVec.toNat_ofNat, Nat.mod_eq_of_lt (by omega),
    Nat.mod_eq_of_lt (by omega)]

theorem Waiting.length (h : Waiting s cur b (some f)) : s.cap.txLen.toNat = f.length :=
  (h.frame f rfl).2.len_toNat

/-- The toggle is two flops away, -/
theorem todo_far (h1 : s.cap.txTog ≠ s.burst.txTogS1) : s.todo = s.cap.txLen.toNat + 4 := if_pos h1

/-- or one, -/
theorem todo_near (h1 : s.cap.txTog = s.burst.txTogS1) (h2 : s.burst.txTogS1 ≠ s.burst.txTogS2) :
    s.todo = s.cap.txLen.toNat + 3 := by
  unfold Tx.todo
  rw [if_neg (not_not.mpr h1), if_pos h2]

/-- or it has come across. -/
theorem Rest.todo_across (h : Rest s g (some f)) (h1 : s.cap.txTog = s.burst.txTogS1)
    (h2 : s.burst.txTogS1 = s.burst.txTogS2) : s.todo = f.length + 2 := by
  have h3 : s.burst.txTogS2 ≠ s.burst.txDoneTog := by
    intro h3
    cases h.waiting.eq_none h1 h2 h3
  unfold Tx.todo
  rw [if_neg (not_not.mpr h1), if_neg (not_not.mpr h2), h.sending, h.sendingD, if_neg (by simp),
    if_pos h3, h.waiting.length]

theorem Rest.todo_pcs (h : Rest s g w) : (s.pcsClk false).todo = s.todo - 1 := by
  have hb := burst_rest h.sending h.sendingD
  have ht1 : (s.pcsClk false).burst.txTogS1 = s.cap.txTog := by rw [hb]
  have ht2 : (s.pcsClk false).burst.txTogS2 = s.burst.txTogS1 := by rw [hb]
  by_cases h1 : s.cap.txTog = s.burst.txTogS1
  · have h12 := ht1.trans (h1.trans ht2.symm)
    rcases h.pcs with hr' | ⟨f, rfl, hs'⟩
    · rcases w with _ | f
      · rw [h.todo_none, hr'.todo_none]
      · have h2 : s.burst.txTogS1 ≠ s.burst.txTogS2 := by
          -- else the burst would have started
          intro h2
          have hstart := hr'.sending
          rw [hb, bne_eq_false_iff_eq] at hstart
          cases h.waiting.eq_none h1 h2 hstart
        rw [hr'.todo_across ht1.symm h12, todo_near h1 h2, h.waiting.length]
        rfl
    · have h2 : s.burst.txTogS1 = s.burst.txTogS2 := by
        have hsend := hs'.sending
        rw [decide_eq_true (show 0 < f.length from hs'.pos), hb] at hsend
        obtain ⟨-, -, ht1, ht2⟩ := h.waiting.toggle.across (bne_iff_ne.mp hsend)
        rw [ht1, ht2]
      rw [h.todo_across h1 h2, hs'.todo_none]
      rfl
  · rw [todo_far h1, todo_near ht1.symm (by rw [ht1, ht2]; exact h1)]
    rfl

theorem Sending.todo_pcs (h : Sending s g w f j) : (s.pcsClk false).todo = s.todo - 1 := by
  obtain ⟨ht1, ht2⟩ : (s.pcsClk false).burst.txTogS1 = s.cap.txTog ∧
      (s.pcsClk false).burst.txTogS2 = s.burst.txTogS1 := by
    by_cases hj : j < f.length
    · rw [burst_read (by rw [h.sending, decide_eq_true hj])]
      exact ⟨rfl, rfl⟩
    · rw [burst_last (by rw [h.sending, decide_eq_false hj])
        (by rw [h.sendingD, decide_eq_true (by have := h.pos; omega)])]
      exact ⟨rfl, rfl⟩
  by_cases hj : j < f.length
  · have hs' := h.read hj
    rcases w with _ | f'
    · rw [h.todo_none, hs'.todo_none]
      omega
    · have h1 : s.cap.txTog ≠ s.burst.txTogS1 := by
        intro h1
        cases h.waiting.eq_none h1 ((h.togS1 hj).trans h.togS2.symm) h.togS2
      rw [todo_far h1, todo_near ht1.symm (by rw [ht1, ht2]; exact h1)]
      rfl
  · obtain rfl : j = f.length := le_antisymm h.le (not_lt.mp hj)
    have hr' := h.last
    rcases w with _ | f'
    · rw [h.todo_none, hr'.todo_none, Nat.sub_self]
    · by_cases h1 : s.cap.txTog = s.burst.txTogS1
      · have h2 : s.burst.txTogS1 ≠ s.burst.txTogS2 := by
          intro h2
          cases h.waiting.eq_none h1 h2 h.togS2
        rw [hr'.todo_across ht1.symm (ht1.trans (h1.trans ht2.symm)), todo_near h1 h2,
          h.waiting.length]
        rfl
      · rw [todo_far h1, todo_near ht1.symm (by rw [ht1, ht2]; exact h1)]
        rfl

/-- **Each edge of `pcs_tx_clk` is one less to do.** -/
theorem Inv.todo_pcs (h : Inv s g) : (s.pcsClk false).todo = s.todo - 1 := by
  rcases h.phase with ⟨w, hr⟩ | ⟨w, f, j, hs⟩
  · exact hr.todo_pcs
  · exact hs.todo_pcs

/-- Nothing to do: with the next edge the last frame has ended. -/
theorem Inv.flushed (h : Inv s g) (htodo : s.todo = 0) :
    (g.drive (s.pcsClk false)).out.whole = g.sent.whole := by
  rcases h.phase with ⟨w, hr⟩ | ⟨w, f, j, hs⟩
  · rcases w with _ | f
    · rcases hr.pcs with hr' | ⟨f, hf, -⟩
      · have hb := burst_rest hr.sending hr.sendingD
        rw [hr.frames]
        unfold Seen.drive Tx.gmii
        rw [hb]
        simp
      · cases hf
    · exfalso
      by_cases h1 : s.cap.txTog = s.burst.txTogS1
      · by_cases h2 : s.burst.txTogS1 = s.burst.txTogS2
        · rw [hr.todo_across h1 h2] at htodo
          omega
        · rw [todo_near h1 h2] at htodo
          omega
      · rw [todo_far h1] at htodo
        omega
  · exfalso
    rcases w with _ | f'
    · rw [hs.todo_none] at htodo
      omega
    · by_cases h1 : s.cap.txTog = s.burst.txTogS1
      · have h2 : s.burst.txTogS1 ≠ s.burst.txTogS2 := by
          intro h2
          cases hs.waiting.eq_none h1 h2 hs.togS2
        rw [todo_near h1 h2] at htodo
        omega
      · rw [todo_far h1] at htodo
        omega

/-- An edge on which the MAC does not send. -/
theorem quiet_step {s : Retime} {e : Edges} (h : Capture s.tx []) (hq : e.quiet) :
    (s.step e).tx = if e.pcsTx then s.tx.pcsClk false else s.tx := by
  rcases e with ⟨rxIn, pcsTx, _ | i⟩
  · cases pcsTx <;> rfl
  · cases pcsTx with
    | false => exact mac_idle h (hq i rfl)
    | true => exact (step_both s.tx i).trans (mac_idle h.pcs (hq i rfl))

theorem quiet_next {s : Retime} {e : Edges} (h : Capture s.tx []) (hcur : g.sent.part = [])
    (hq : e.quiet) : g.next s e = if e.pcsTx then g.drive (s.tx.pcsClk false) else g := by
  have htx := quiet_step h hq
  have hsent : (g.next s e).sent = g.sent := by
    unfold Seen.next
    rcases hm : e.mac with _ | i
    · rfl
    · change g.sent.next i.gmii = g.sent
      rw [gmii_off (hq i hm), Bursts.next_none_of_nil hcur]
  have hout : (g.next s e).out = if e.pcsTx then (g.drive (s.tx.pcsClk false)).out else g.out := by
    unfold Seen.next
    rw [htx]
    cases e.pcsTx <;> rfl
  rw [show g.next s e = ⟨(g.next s e).sent, (g.next s e).out⟩ from rfl, hsent, hout]
  cases e.pcsTx <;> rfl

/-- What a run does in which the MAC does not send. -/
structure Settling (s : Retime) (g : Seen) (es : List Edges) : Prop where
  inv : Inv (s.run es).tx (Seen.watch s g es)
  sent : (Seen.watch s g es).sent = g.sent
  todo : (s.run es).tx.todo = s.tx.todo - pcsTxEdges es
  out : s.tx.todo < pcsTxEdges es → (Seen.watch s g es).out.whole = g.sent.whole

theorem settling {s : Retime} (h : Inv s.tx g) (hcur : g.sent.part = []) (es : List Edges)
    (hq : ∀ e ∈ es, e.quiet) : Settling s g es := by
  induction es using List.reverseRecOn with
  | nil => exact ⟨h, rfl, rfl, fun h0 => absurd h0 (Nat.not_lt_zero _)⟩
  | append_singleton es e ih =>
    have ih := ih fun e he => hq e (List.mem_append_left _ he)
    have hqe := hq e (List.mem_append_right _ (List.mem_singleton_self e))
    have hcur' : (Seen.watch s g es).sent.part = [] := by rw [ih.sent, hcur]
    have hcap : Capture (s.run es).tx [] := hcur' ▸ ih.inv.capture
    have hstep : (s.run (es ++ [e])).tx =
        if e.pcsTx then (s.run es).tx.pcsClk false else (s.run es).tx := by
      rw [Retime.run_concat, quiet_step hcap hqe]
    have hnext : Seen.watch s g (es ++ [e]) =
        if e.pcsTx then (Seen.watch s g es).drive ((s.run es).tx.pcsClk false)
        else Seen.watch s g es := by
      rw [watch_concat, quiet_next hcap hcur' hqe]
    have hcount : pcsTxEdges (es ++ [e]) = pcsTxEdges es + if e.pcsTx then 1 else 0 := by
      unfold pcsTxEdges
      rw [List.countP_append, List.countP_singleton]
    cases hp : e.pcsTx with
    | false =>
      rw [hp] at hstep hnext hcount
      simp only [Bool.false_eq_true, if_false, Nat.add_zero] at hstep hnext hcount
      exact ⟨by rw [hstep, hnext]; exact ih.inv, by rw [hnext, ih.sent],
        by rw [hstep, hcount, ih.todo], by rw [hnext, hcount]; exact ih.out⟩
    | true =>
      rw [hp] at hstep hnext hcount
      simp only [if_true] at hstep hnext hcount
      refine ⟨by rw [hstep, hnext]; exact ih.inv.pcs, ?_, ?_, fun hlt => ?_⟩
      · rw [hnext]
        exact ih.sent
      · rw [hstep, hcount, ih.inv.todo_pcs, ih.todo, Nat.sub_sub]
      · have hzero : (s.run es).tx.todo = 0 := by
          rw [ih.todo]
          omega
        rw [hnext, ih.inv.flushed hzero, ih.sent]

/-- **Nothing is lost or corrupted on transmit** in a run whose edges are clear. -/
theorem tx_retimed {s : Retime} (h0 : s.Reset) {es : List Edges} (hfit : Fits (Seen.watch s .empty es))
    (hclear : ClearRun s es) : Retimed s es := by
  have h : Inv (s.run es).tx (Seen.watch s .empty es) := (Inv.reset h0).run hclear hfit
  refine ⟨h.out_prefix.1, h.out_prefix.2, ?_⟩
  rintro es₁ es₂ rfl hcur hq hedges
  rw [watch_append] at hfit ⊢
  have h₁ : Inv (s.run es₁).tx (Seen.watch s .empty es₁) :=
    (Inv.reset h0).run hclear.left hfit.before
  have hset := settling h₁ hcur es₂ hq
  have htodo := todo_le (s.run es₁).tx
  rw [hset.sent]
  exact hset.out (by omega)

/-! ### Frames of the board -/

instance (g : Seen) : Decidable (Fits g) := inferInstanceAs (Decidable (∀ f ∈ g.sent.all, _))

instance (s : Tx) (i : MacIn) : Decidable (Clear s i) := inferInstanceAs (Decidable (_ ∧ _))

instance decidableClearRun : ∀ s es, Decidable (ClearRun s es)
  | _, [] => isTrue trivial
  | s, e :: es =>
    have := decidableClearRun (s.step e) es
    inferInstanceAs (Decidable (_ ∧ _))

/-- An edge of `mac_clk` with a byte, and one without. -/
def macByte (d : BitVec 8) : Edges := ⟨none, false, some ⟨d, true⟩⟩

def macLow : Edges := ⟨none, false, some ⟨0, false⟩⟩

/-- An edge of `pcs_tx_clk`. -/
def pcsTxEdge : Edges := ⟨none, true, none⟩

/-- A frame of four bytes, and one of three that is written behind the burst of the first. -/
def behindBurst : List Edges :=
  [macByte 1, macByte 2, macByte 3, macByte 4, macLow] ++ List.replicate 4 pcsTxEdge ++
    [macByte 5, pcsTxEdge, ⟨none, true, some ⟨6, true⟩⟩, ⟨none, true, some ⟨7, true⟩⟩, macLow] ++
    List.replicate 8 pcsTxEdge

theorem tx_retimed_two :
    (Seen.watch .afterReset .empty behindBurst).out.whole = [[1, 2, 3, 4], [5, 6, 7]] ∧
      Retimed .afterReset behindBurst :=
  ⟨by decide, tx_retimed Retime.reset_afterReset (by decide) (by decide)⟩

/-- A second frame begins when the burst of the first has just begun. -/
def overtaken : List Edges :=
  [macByte 1, macByte 2, macLow] ++ List.replicate 3 pcsTxEdge ++ [macByte 9] ++
    List.replicate 4 pcsTxEdge

/-- Three frames before the first edge of `pcs_tx_clk`. -/
def overrun : List Edges :=
  [macByte 1, macLow, macByte 2, macLow, macByte 3, macLow] ++ List.replicate 6 pcsTxEdge

/-- One goes out with a byte of the next, the other two are lost. -/
theorem not_tx_retimed : ¬ Retimed .afterReset overtaken ∧ ¬ Retimed .afterReset overrun := by
  refine ⟨fun h => ?_, fun h => ?_⟩
  · have hpre := h.1
    rw [show Seen.watch .afterReset .empty overtaken =
      ⟨⟨[[1, 2]], [9]⟩, ⟨[[9, 2]], []⟩⟩ by decide] at hpre
    revert hpre
    decide
  · have hpre := h.1
    rw [show Seen.watch .afterReset .empty overrun =
      ⟨⟨[[1], [2], [3]], []⟩, ⟨[[3]], []⟩⟩ by decide] at hpre
    revert hpre
    decide

end EthGmii
end Xc7Tools
