/-
# ethmin: how long a request takes

Every edge of `clk_mac` brings the station nearer to silence while no request
is taken: the MAC puts a byte out, or counts its gap, or the DMA brings the
first byte of the next frame forward. `Owes` is what the MAC still has to do
for its source, in edges, and `latency` what the DMA needs until it offers a
byte. At most one frame is in the MAC and two in the DMA, so the sum is
bounded.

A gap of no edges would never end, since ETH_IFG - 1 wraps.

Key definitions: `Owes`, `latency`, `Left`, `deadline`.
Key theorems: `Owes.step`, `latency_eth`, `Left.step`, `requests_complete`.
-/
import Mathlib.Algebra.Order.BigOperators.Group.List
import Xc7Tools.Ethmin.Transmit

namespace Xc7Tools
namespace Ethmin

open EthDma (Dma Mem Params CpuIn EthIn Pipe Holds TxRing)
open EthMac (Axis Source Sent Fed Stage Between fedStep encode)

variable {cfg : EthMac.Tx.Config} {p : Params} {s : Dma} {q : Source} {n : ℕ}
  {B : ℕ → BitVec 8} {frames : List (List (BitVec 8))}

/-! ### The MAC -/

/-- The edges of a gap that are left. -/
def gapLeft (cfg : EthMac.Tx.Config) (t : EthMac.Tx) : ℕ :=
  if t.state = .ifg then cfg.ifgDelay.toNat - 1 - t.ifg.toNat + 1 else 0

/-- A frame with the gap behind it, in edges. -/
def cost (cfg : EthMac.Tx.Config) (f : List (BitVec 8)) : ℕ :=
  (encode cfg f).length + cfg.ifgDelay.toNat

/-- What the MAC has still to do for its source. -/
inductive Owes (cfg : EthMac.Tx.Config) (x : Fed) : ℕ → Prop
  | between (mac : Between x.1) :
      Owes cfg x (gapLeft cfg x.1 + (x.2.queue.map (cost cfg)).sum)
  | sending (f : List (BitVec 8)) (rest : List (List (BitVec 8))) (m : ℕ) (two_le : 2 ≤ f.length)
      (mac : Stage cfg f rest m x.1 x.2) (lt : m < (encode cfg f).length) :
      Owes cfg x ((encode cfg f).length - m + cfg.ifgDelay.toNat + (rest.map (cost cfg)).sum)

theorem gapLeft_le (hifg : cfg.ifgDelay ≠ 0) (t : EthMac.Tx) :
    gapLeft cfg t ≤ cfg.ifgDelay.toNat := by
  have hpos : 0 < cfg.ifgDelay.toNat := Nat.pos_of_ne_zero fun h => hifg (BitVec.eq_of_toNat_eq h)
  unfold gapLeft
  split_ifs <;> omega

/-- A gap gets shorter on each of its edges. -/
theorem gapLeft_step (hifg : cfg.ifgDelay ≠ 0) {t : EthMac.Tx} (hs : t.state = .ifg) (a : Axis) :
    gapLeft cfg (t.step cfg a) + 1 = gapLeft cfg t := by
  have hpos : 0 < cfg.ifgDelay.toNat := Nat.pos_of_ne_zero fun h => hifg (BitVec.eq_of_toNat_eq h)
  have hlt := cfg.ifgDelay.isLt
  have hcond : t.ifg.setWidth 32 < cfg.ifgDelay.setWidth 32 - (1 : BitVec 32) ↔
      t.ifg.toNat < cfg.ifgDelay.toNat - 1 := by
    have hsub : (cfg.ifgDelay.setWidth 32 - (1 : BitVec 32)).toNat = cfg.ifgDelay.toNat - 1 := by
      rw [BitVec.toNat_sub, BitVec.toNat_setWidth]
      change (2 ^ 32 - 1 + cfg.ifgDelay.toNat % 2 ^ 32) % 2 ^ 32 = _
      omega
    rw [BitVec.lt_def, hsub, BitVec.toNat_setWidth]
    have := t.ifg.isLt
    omega
  by_cases h : t.ifg.setWidth 32 < cfg.ifgDelay.setWidth 32 - (1 : BitVec 32)
  · have hless := hcond.mp h
    have hstep : (t.step cfg a).state = .ifg ∧ (t.step cfg a).ifg = t.ifg + 1 := by
      simp only [EthMac.Tx.step, EthMac.Tx.clk, EthMac.Tx.comb, EthMac.Tx.byState, EthMac.Tx.sendIfg,
        hs, h, EthMac.Tx.Comb.default]
      simp
    have hnat : (t.ifg + 1).toNat = t.ifg.toNat + 1 := by
      rw [BitVec.toNat_add]
      change (t.ifg.toNat + 1) % 256 = _
      omega
    rw [gapLeft, gapLeft, if_pos hstep.1, if_pos hs, hstep.2, hnat]
    omega
  · have hmore := mt hcond.mpr h
    have hstep : (t.step cfg a).state = .idle := by
      simp only [EthMac.Tx.step, EthMac.Tx.clk, EthMac.Tx.comb, EthMac.Tx.byState, EthMac.Tx.sendIfg,
        hs, h, EthMac.Tx.Comb.default]
      simp
    rw [gapLeft, gapLeft, if_neg (by rw [hstep]; decide), if_pos hs]
    omega

theorem idle_step {t : EthMac.Tx} {a : Axis} (hs : t.state = .idle) (ha : a.tvalid = false) :
    (t.step cfg a).state = .idle := by
  simp [EthMac.Tx.step, EthMac.Tx.clk, EthMac.Tx.comb, EthMac.Tx.byState, EthMac.Tx.idle, hs, ha,
    EthMac.Tx.Comb.default]

/-- **Every edge is one less**, but for an idle MAC that is shown nothing. -/
theorem Owes.step (hmin : (cfg.minFrameLength - 5).toNat < 65536) (hifg : cfg.ifgDelay ≠ 0) {x : Fed}
    {a : Axis} (hlen : ∀ f ∈ x.2.queue, x.1.state = .idle → 2 ≤ f.length) (h : Owes cfg x n)
    (ha : x.2.Shows a) : ∃ n', Owes cfg (fedStep cfg x a) n' ∧
      (n' < n ∨ n' = n ∧ x.1.state = .idle ∧ a.tvalid = false) := by
  cases h with
  | between mac =>
    by_cases hbegin : x.1.state = .idle ∧ a.tvalid = true
    case pos =>
      obtain ⟨f, rest, hq⟩ : ∃ f rest, x.2.queue = f :: rest := by
        refine List.exists_cons_of_ne_nil fun hnil => ?_
        unfold Source.Shows at ha
        rw [hnil] at ha
        exact Bool.noConfusion (ha.1.symm.trans hbegin.2)
      obtain ⟨-, hstage⟩ := mac.begins cfg hbegin.1 hq hbegin.2
      have hlong : 12 ≤ (encode cfg f).length := by
        rw [EthMac.length_encode]
        omega
      refine ⟨_, .sending f rest 1 (hlen f (by rw [hq]; simp) hbegin.1) hstage (by omega), Or.inl ?_⟩
      rw [gapLeft, if_neg (by rw [hbegin.1]; decide), hq, List.map_cons, List.sum_cons, cost]
      omega
    case neg =>
      have hwait : x.1.state = .ifg ∨ a.tvalid = false := by
        rcases mac.state with hidle | hifg
        · exact Or.inr (Bool.eq_false_iff.mpr fun hv => hbegin ⟨hidle, hv⟩)
        · exact Or.inl hifg
      obtain ⟨hmac, -⟩ := mac.waits cfg hwait
      have hqueue : (fedStep cfg x a).2.queue = x.2.queue := by
        rw [fedStep, mac.tready, Source.queue_next]
      refine ⟨_, .between hmac, ?_⟩
      rw [hqueue]
      rcases mac.state with hidle | hgap
      · have hvalid := hwait.resolve_left (by rw [hidle]; decide)
        refine Or.inr ⟨?_, hidle, hvalid⟩
        rw [gapLeft, gapLeft, fedStep, if_neg (by rw [idle_step hidle hvalid]; decide),
          if_neg (by rw [hidle]; decide)]
      · have hless := gapLeft_step hifg hgap a
        exact Or.inl (by simp only [fedStep]; omega)
  | sending f rest m two_le mac lt =>
    obtain ⟨-, hafter⟩ := mac.after hmin two_le ha
    unfold EthMac.After at hafter
    by_cases hend : m + 1 < (encode cfg f).length
    · rw [if_pos hend] at hafter
      refine ⟨_, .sending (x := fedStep cfg x a) f rest (m + 1) two_le hafter hend, Or.inl ?_⟩
      omega
    · rw [if_neg hend] at hafter
      have hgap := gapLeft_le hifg (x.1.step cfg a)
      refine ⟨_, .between (x := fedStep cfg x a) hafter.1, Or.inl ?_⟩
      simp only [fedStep, hafter.2.2]
      omega

/-! ### The DMA -/

/-- The edges until the DMA offers a byte. -/
def latency (s : Dma) : ℕ :=
  if s.tx.txRun then
    if s.tx.tvalid then 0 else if s.tx.v2 then 1 else if s.tx.v1 then 2 else 3
  else if s.cpu.txTog = s.tx.txDoneTog then 0
  else if s.tx.txGoS2 ≠ s.tx.txDoneTog then 4
  else if s.tx.txGoS1 ≠ s.tx.txDoneTog then 5
  else 6

theorem latency_pipe {e : ℕ} (h : Pipe p n B e s) (hn : 2 ≤ n) : latency s = 3 - e := by
  rw [latency, if_pos h.run, h.tvalid, h.v2, h.v1]
  simp only [decide_eq_true_eq]
  split_ifs <;> omega

theorem latency_le (s : Dma) : latency s ≤ 6 := by
  unfold latency
  split_ifs <;> omega

/-- A process that does not run. -/
theorem latency_idle (hring : TxRing s) (hrun : s.tx.txRun = false) (i : EthIn) :
    latency (s.step p (.eth i)) ≤ latency s - 1 := by
  have htx := EthDma.tx_idle (p := p) hrun i
  have hcpu : (s.step p (.eth i)).cpu = s.cpu := rfl
  by_cases hsame : s.cpu.txTog = s.tx.txDoneTog
  · obtain ⟨-, hgo⟩ := hring.agreed hsame
    have hzero : latency (s.step p (.eth i)) = 0 := by
      simp [latency, htx, hcpu, hgo, hsame]
    rw [hzero]
    exact Nat.zero_le _
  · have hnow : latency s = if s.tx.txGoS2 ≠ s.tx.txDoneTog then 4
        else if s.tx.txGoS1 ≠ s.tx.txDoneTog then 5 else 6 := by
      rw [latency, hrun, if_neg Bool.false_ne_true, if_neg hsame]
    rw [hnow, latency, hcpu, htx]
    by_cases hgo2 : s.tx.txGoS2 = s.tx.txDoneTog
    · by_cases hgo1 : s.tx.txGoS1 = s.tx.txDoneTog <;> simp [hgo1, hgo2, hsame]
    · simp [hgo2]

/-- **Every edge of `clk_mac` brings the byte nearer.** -/
theorem latency_eth (h : Feeds p frames s q) (i : EthIn) :
    latency (s.step p (.eth i)) ≤ latency s - 1 := by
  obtain ⟨own, asked, -, hown, -⟩ := h.queue
  cases hown with
  | rest txRun => exact latency_idle h.ring txRun i
  | last txRun => exact latency_idle h.ring txRun i
  | running n B e two_le lt pipe holds served =>
    rw [latency_pipe pipe two_le]
    by_cases hadv : s.tx.adv i.txTready = true
    case pos =>
      rcases Nat.lt_or_eq_of_le pipe.le with he | he
      · rw [latency_pipe (pipe.advance (by omega) lt (by omega) holds hadv) two_le]
        omega
      · subst he
        obtain ⟨hb, hc, hd, he, hf⟩ := h.ring.arrived served
        obtain ⟨hret, -⟩ := pipe.last (p := p) ⟨rfl, hb, hc, hd, he, hf⟩ (by omega) hadv
        rw [latency, hret.txRun, if_neg Bool.false_ne_true, if_pos (hret.txTog.trans
          hret.txDoneTog.symm)]
        exact Nat.zero_le _
    case neg =>
      have hvalid : s.tx.tvalid = true := by
        have hno : s.tx.tvalid = true ∧ i.txTready = false := by simpa [EthDma.Tx.adv] using hadv
        exact hno.1
      have htx : (s.step p (.eth i)).tx.txRun = true ∧ (s.step p (.eth i)).tx.tvalid = true := by
        simp [EthDma.eth_tx, EthDma.Tx.clk, pipe.run, hadv, hvalid]
      rw [latency, if_pos htx.1, if_pos htx.2]
      exact Nat.zero_le _

/-- Nothing is on its way: the source is empty, if no byte is offered. -/
theorem queue_of_latency (h : Feeds p frames s q) (hvalid : s.tx.tvalid = false)
    (hzero : latency s = 0) : q.queue = [] := by
  obtain ⟨own, asked, hqueue, hown, hasked⟩ := h.queue
  cases hown with
  | rest txRun =>
    cases hasked with
    | none => exact hqueue
    | asked _ _ _ _ _ waits =>
      rw [latency, txRun, if_neg Bool.false_ne_true, if_neg waits] at hzero
      split_ifs at hzero
  | running n B e two_le lt pipe =>
    have he : ¬ 3 ≤ e := of_decide_eq_false (pipe.tvalid.symm.trans hvalid)
    rw [latency_pipe pipe two_le] at hzero
    omega
  | last _ tvalid => exact Bool.noConfusion (hvalid.symm.trans tvalid)

/-! ### The station -/

/-- A station that is silent after `n` edges of `clk_mac`, if no request is taken. -/
def Left (cfg : EthMac.Tx.Config) (p : Params) (x : Station) (l : Ledger) (n : ℕ) : Prop :=
  (∀ f ∈ l.asked, 2 ≤ f.length ∧ f.length < 2048) ∧
    ∃ q, Feeds p l.asked x.dma q ∧ Sent cfg l.asked (x.tx, q) l.gmii ∧
      ∃ m, Owes cfg (x.tx, q) m ∧ m + latency x.dma ≤ n

variable {x : Station} {l : Ledger}

/-- The source of an idle MAC has whole frames. -/
theorem mem_asked_of_idle {b : Bursts (BitVec 8)} {y : Fed} (h : Sent cfg frames y b)
    (hidle : y.1.state = .idle) : ∀ f ∈ y.2.queue, f ∈ frames := by
  obtain ⟨done, hall, -⟩ := h.of_idle hidle
  intro f hf
  rw [hall]
  exact List.mem_append_right _ hf

theorem Left.mac (hmin : (cfg.minFrameLength - 5).toNat < 65536) (hifg : cfg.ifgDelay ≠ 0)
    (hapart : Apart p) (h : Left cfg p x l n) (g : EthMac.Rx.Gmii) :
    Left cfg p (x.step cfg p (.mac g)) (watch cfg p x (.mac g) l) (n - 1) := by
  obtain ⟨hlen, q, hfeeds, hsent, m, howes, hm⟩ := h
  obtain ⟨m', howes', hless⟩ := howes.step hmin hifg (a := offered x.dma)
    (fun f hf hidle => (hlen f (mem_asked_of_idle hsent hidle f hf)).1) hfeeds.shows
  have hlat := latency_eth (p := p) hfeeds x.ethIn
  refine ⟨hlen, q.next x.tx.sAxisTready (offered x.dma),
    hfeeds.mac hapart (fun f hf => (hlen f hf).1) (i := x.ethIn) hsent.queue_suffix,
    hsent.step hmin (fun f hf => (hlen f hf).1) hfeeds.shows, m', howes', ?_⟩
  change m' + latency (x.dma.step p (.eth x.ethIn)) ≤ n - 1
  rcases hless with hlt | ⟨heq, hidle, hvalid⟩
  · omega
  · -- the MAC waits for a byte: either one is on its way, or there is none
    by_cases hzero : latency x.dma = 0
    · have hqueue : q.queue = [] := queue_of_latency hfeeds hvalid hzero
      have hnone : m = 0 := by
        cases howes with
        | between => rw [gapLeft, if_neg (by rw [hidle]; decide), hqueue]; rfl
        | sending _ _ _ _ mac => exact absurd hidle mac.busy.1
      omega
    · omega

theorem latency_sys {i : CpuIn} (hno : (i.txStart && !s.cpu.txBusy) = false) (st : Store) :
    latency (sysDma p i st s) = latency s := by
  have htog : (sysDma p i st s).cpu.txTog = s.cpu.txTog := by
    simp [sysDma, Dma.step, Dma.cpuClk, EthDma.Cpu.clk, hno]
  rw [latency, htog]
  rfl

/-- An edge of `clk_sys` that takes no request. -/
theorem Left.sys (h : Left cfg p x l n) {i : Bus} {st : Store} (hno : x.takes = false)
    (he : Careful p x (.sys i st)) :
    Left cfg p (x.step cfg p (.sys i st)) (watch cfg p x (.sys i st) l) n := by
  obtain ⟨hlen, q, hfeeds, hsent, m, howes, hm⟩ := h
  have hasked : watch cfg p x (.sys i st) l = l := if_neg (by rw [hno]; decide)
  rw [hasked]
  refine ⟨hlen, q, hfeeds.sys (i := x.core.pulses) hno he.2, hsent, m, howes, ?_⟩
  change m + latency (sysDma p x.core.pulses st x.dma) ≤ n
  rw [latency_sys (i := x.core.pulses) hno]
  exact hm

theorem cost_pos (f : List (BitVec 8)) : 0 < cost cfg f := by
  rw [cost, EthMac.length_encode]
  omega

/-- A MAC that owes nothing. -/
theorem Owes.idle {y : Fed} (h : Owes cfg y 0) :
    Between y.1 ∧ y.1.state = .idle ∧ y.2.queue = [] := by
  generalize hz : 0 = z at h
  cases h with
  | between mac =>
    have hsum : (y.2.queue.map (cost cfg)).sum = 0 := by omega
    refine ⟨mac, mac.state.resolve_right fun hgap => ?_, ?_⟩
    · rw [gapLeft, if_pos hgap] at hz
      omega
    · refine List.eq_nil_iff_forall_not_mem.mpr fun f hf => ?_
      have hmem : cost cfg f ∈ y.2.queue.map (cost cfg) := List.mem_map_of_mem hf
      have hle := List.single_le_sum (fun _ _ => Nat.zero_le _) _ hmem
      have hpos : 0 < cost cfg f := cost_pos f
      omega
  | sending f rest k _ _ lt => omega

/-- Nothing is left: all that was asked for is out. -/
theorem Left.none (h : Left cfg p x l 0) :
    l.gmii.whole = l.asked.map (encode cfg) ∧ l.gmii.part = [] := by
  obtain ⟨-, q, hfeeds, hsent, m, howes, hm⟩ := h
  obtain ⟨rfl, -⟩ : m = 0 ∧ latency x.dma = 0 := by omega
  obtain ⟨-, hidle, hqueue⟩ := howes.idle
  obtain ⟨done, hall, -, hwhole, hpart⟩ := hsent.of_idle hidle
  refine ⟨?_, hpart⟩
  rw [hwhole, hall, hqueue, List.append_nil]

/-- The longest frame, with its gap. -/
def longest (cfg : EthMac.Tx.Config) : ℕ :=
  12 + max 2047 (EthMac.padding cfg 1 + 1) + cfg.ifgDelay.toNat

/-- Three frames and the DMA's start. -/
def deadline (cfg : EthMac.Tx.Config) : ℕ := 3 * longest cfg + 6

theorem cost_le {f : List (BitVec 8)} (hf : f.length < 2048) : cost cfg f ≤ longest cfg := by
  rw [cost, longest, EthMac.length_encode, EthMac.length_padded, EthMac.padding, EthMac.padding]
  split_ifs <;> omega

theorem sum_cost_le {fs : List (List (BitVec 8))} (hfs : ∀ f ∈ fs, f.length < 2048) :
    (fs.map (cost cfg)).sum ≤ fs.length * longest cfg := by
  have h := List.sum_le_card_nsmul (fs.map (cost cfg)) (longest cfg) fun c hc => by
    obtain ⟨f, hf, rfl⟩ := List.mem_map.mp hc
    exact cost_le (hfs f hf)
  rwa [List.length_map] at h

/-- The DMA has two frames at most. -/
theorem length_queue (h : Feeds p frames s q) : q.queue.length ≤ 2 := by
  obtain ⟨own, asked, hqueue, hown, hasked⟩ := h.queue
  have h1 : own.length ≤ 1 := by cases hown <;> simp
  have h2 : asked.length ≤ 1 := by cases hasked <;> simp
  rw [hqueue, List.length_append]
  omega

theorem length_rest {f : List (BitVec 8)} {rest : List (List (BitVec 8))} {t : EthMac.Tx}
    (h : Stage cfg f rest n t q) : rest.length ≤ q.queue.length := by
  cases h with
  | preamble _ _ _ _ _ _ _ source => simp [source]
  | data j _ _ _ _ _ _ source =>
    unfold EthMac.Ahead at source
    split_ifs at source <;> simp [source]
  | fcs _ _ _ _ _ _ source => rw [source]

/-- **What is left is bounded** in every state a careful CPU reaches. -/
theorem Carried.left (hifg : cfg.ifgDelay ≠ 0) (h : Carried cfg p x l) :
    Left cfg p x l (deadline cfg) := by
  obtain ⟨hlen, q, hfeeds, hsent⟩ := h
  have hqueue := length_queue hfeeds
  have hlat := latency_le x.dma
  have hfew : ∀ (fs : List (List (BitVec 8))), (∀ f ∈ fs, f ∈ l.asked) → fs.length ≤ 2 →
      (fs.map (cost cfg)).sum ≤ 2 * longest cfg := fun _ hfs hle =>
    (sum_cost_le fun f hf => (hlen f (hfs f hf)).2).trans (Nat.mul_le_mul_right _ hle)
  refine ⟨hlen, q, hfeeds, hsent, ?_⟩
  cases hsent with
  | between done all mac =>
    have hsum := hfew q.queue (fun f hf => by rw [all]; exact List.mem_append_right _ hf) hqueue
    have hgap := gapLeft_le hifg x.tx
    refine ⟨_, .between (x := (x.tx, q)) mac, ?_⟩
    simp only [deadline, longest] at hsum ⊢
    omega
  | sending done f rest m all mac pos lt =>
    have hsum := hfew rest (fun g hg => by rw [all]; simp [hg])
      ((length_rest mac).trans hqueue)
    have hf := hlen f (by rw [all]; simp)
    have hcost : cost cfg f ≤ longest cfg := cost_le hf.2
    refine ⟨_, .sending f rest m hf.1 mac lt, ?_⟩
    rw [cost] at hcost
    simp only [deadline] at hsum ⊢
    omega

/-! ### A run -/

/-- The edges of `clk_mac`. -/
def macEdges (es : List Edge) : ℕ := es.countP fun
  | .mac _ => true
  | .sys _ _ => false

/-- The edge takes no request. -/
def Rests (x : Station) : Edge → Prop
  | .mac _ => True
  | .sys _ _ => x.takes = false

theorem Left.run (hmin : (cfg.minFrameLength - 5).toNat < 65536) (hifg : cfg.ifgDelay ≠ 0)
    (hapart : Apart p) : ∀ {es : List Edge} {x : Station} {l : Ledger} {n : ℕ}, Left cfg p x l n →
      CarefulRun cfg p x es → Run.Along (Station.step cfg p) Rests x es →
        Left cfg p (Run.noted (Station.step cfg p) (watch cfg p) (x, l) es).1
          (Run.noted (Station.step cfg p) (watch cfg p) (x, l) es).2 (n - macEdges es) ∧
        (Run.noted (Station.step cfg p) (watch cfg p) (x, l) es).2.asked = l.asked
  | [], _, _, _, h, _, _ => ⟨h, rfl⟩
  | .mac g :: es, x, l, n, h, hes, hrest => by
    have hstep := h.mac hmin hifg hapart g
    obtain ⟨hrun, hasked⟩ := Left.run hmin hifg hapart hstep hes.2 hrest.2
    refine ⟨?_, hasked⟩
    have hcount : n - macEdges (.mac g :: es) = n - 1 - macEdges es := by
      rw [macEdges, List.countP_cons_of_pos rfl, Nat.sub_sub, Nat.add_comm 1]
      rfl
    rw [hcount]
    exact hrun
  | .sys i st :: es, x, l, n, h, hes, hrest => by
    have hno : x.takes = false := hrest.1
    have hstep := h.sys hno hes.1
    have hsame : watch cfg p x (.sys i st) l = l := if_neg (by rw [hno]; decide)
    obtain ⟨hrun, hasked⟩ := Left.run hmin hifg hapart hstep hes.2 hrest.2
    have hcount : macEdges (.sys i st :: es) = macEdges es :=
      List.countP_cons_of_neg Bool.false_ne_true
    rw [hcount]
    exact ⟨hrun, hasked.trans (by rw [hsame])⟩

/-- **No request is lost, and none takes for ever**: when no request has been taken for `deadline`
edges of `clk_mac`, the bursts of the GMII are all frames that were asked for. -/
theorem requests_complete (hmin : (cfg.minFrameLength - 5).toNat < 65536) (hifg : cfg.ifgDelay ≠ 0)
    (hapart : Apart p) (hx : x.Reset) {es fs : List Edge} (hrun : CarefulRun cfg p x (es ++ fs))
    (hrest : Run.Along (Station.step cfg p) Rests (seen cfg p x es).1 fs)
    (hlong : deadline cfg ≤ macEdges fs) :
    (seen cfg p x (es ++ fs)).2.gmii.whole = (seen cfg p x es).2.asked.map (encode cfg) ∧
      (seen cfg p x (es ++ fs)).2.gmii.part = [] := by
  obtain ⟨hes, hfs⟩ := (Run.along_append _ (watch cfg p) _ es fs (x, Ledger.empty)).mp hrun
  have hleft := (carried_run hmin hapart hx hes).left hifg
  obtain ⟨hdone, hasked⟩ := Left.run hmin hifg hapart hleft hfs hrest
  rw [Nat.sub_eq_zero_of_le hlong] at hdone
  have happ : seen cfg p x (es ++ fs) =
      Run.noted (Station.step cfg p) (watch cfg p) (seen cfg p x es) fs :=
    Run.noted_append (Station.step cfg p) (watch cfg p) es fs (x, Ledger.empty)
  rw [happ, ← hasked]
  exact hdone.none

theorem macEdges_quiet (k : ℕ) : macEdges (macQuiet k) = k := by
  rw [macEdges, macQuiet, List.countP_replicate, if_pos rfl]

/-- The two bytes of a request, and as many edges as it may take. -/
theorem requests_complete_two :
    (seen ⟨false, 64, 2⟩ board .afterReset (asks ++ macQuiet 6189)).2.gmii.whole =
        (seen ⟨false, 64, 2⟩ board .afterReset asks).2.asked.map (encode ⟨false, 64, 2⟩) ∧
      (seen ⟨false, 64, 2⟩ board .afterReset (asks ++ macQuiet 6189)).2.gmii.part = [] := by
  have hmac : ∀ e ∈ macQuiet 6189, e = .mac ⟨0, false, false⟩ := fun e he =>
    List.eq_of_mem_replicate he
  have hrun : CarefulRun ⟨false, 64, 2⟩ board .afterReset (asks ++ macQuiet 6189) := by
    refine (Run.along_append _ (watch ⟨false, 64, 2⟩ board) _ asks _ (_, .empty)).mpr
      ⟨by decide +kernel, ?_⟩
    exact Run.along_of_forall_mem _ _ (fun e he x => by rw [hmac e he]; trivial) _
  have hrest : Run.Along (Station.step ⟨false, 64, 2⟩ board) Rests
      (seen ⟨false, 64, 2⟩ board .afterReset asks).1 (macQuiet 6189) :=
    Run.along_of_forall_mem _ _ (fun e he x => by rw [hmac e he]; trivial) _
  exact requests_complete (by decide) (by decide) apart_board Station.reset_afterReset hrun hrest
    (by rw [macEdges_quiet]; decide)

end Ethmin
end Xc7Tools
