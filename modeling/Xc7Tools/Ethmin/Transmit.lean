/-
# ethmin: what the CPU asks for is on the GMII

The DMA is the source of the MAC. The two share `clk_mac`, the MAC does not
take the first byte before its preamble is out, and takes one on every edge
from then on: the pipeline of the DMA, which a stall may corrupt, is held on
the first byte only. `Feeds` says which `Source` the DMA is, with the frame the
process hands over and the request behind it, and with it the MAC's invariant
`Sent` carries over.

A frame is what the TX window holds on the edge that takes the request, and
the window is the CPU's own only while `tx_busy` is low.

Key definitions: `Careful`, `Process`, `Pending`, `Feeds`, `Carried`.
Key theorems: `Feeds.mac`, `Feeds.sys`, `Feeds.request`, `Carried.step`, `requests_transmitted`.
-/
import Xc7Tools.EthDma.Receive
import Xc7Tools.EthDma.Transmit
import Xc7Tools.Ethmin.Gateware

namespace Xc7Tools
namespace Ethmin

open EthDma (Dma Mem Params CpuIn EthIn Pipe Holds TxRing)
open EthMac (Axis Source Sent encode)

/-! ### Requests -/

/-- A frame of `n` bytes. -/
def frameOf (n : ℕ) (B : ℕ → BitVec 8) : List (BitVec 8) := (List.range n).map B

/-- An edge of `clk_sys` takes a request. -/
def Station.takes (x : Station) : Bool := x.core.txStart && !x.dma.cpu.txBusy

/-- The frames the CPU has asked for, and the bursts of the GMII. -/
structure Ledger where
  asked : List (List (BitVec 8))
  gmii : Bursts (BitVec 8)
  deriving DecidableEq

def Ledger.empty : Ledger := ⟨[], .empty⟩

/-- The frame of a request is what the window holds after the edge that takes it. -/
def watch (cfg : EthMac.Tx.Config) (p : Params) (x : Station) (e : Edge) (l : Ledger) : Ledger :=
  match e with
  | .mac g => { l with gmii := l.gmii.next (x.macClk cfg p g).tx.gmii }
  | .sys _ st =>
    if x.takes then
      { l with asked := l.asked ++
          [frameOf x.core.txLen.toNat (EthDma.txByte p (stored st x.dma.mem))] }
    else l

/-- The CPU asks for two bytes at least, and while `tx_busy` is high it stores nothing in the TX
window. -/
def Careful (p : Params) (x : Station) : Edge → Prop
  | .mac _ => True
  | .sys _ st => (x.takes = true → 2 ≤ x.core.txLen.toNat) ∧
      (x.dma.cpu.txBusy = true →
        st.wen = 0 ∨ ∀ k < 512, EthDma.ab (p.txWordBase + BitVec.ofNat 14 k) ≠ st.word)

instance (p : Params) (x : Station) : ∀ e : Edge, Decidable (Careful p x e)
  | .mac _ => isTrue trivial
  | .sys _ _ => inferInstanceAs (Decidable (_ ∧ _))

/-- The two windows share no word. -/
def Apart (p : Params) : Prop :=
  ∀ w < p.windowWords, ∀ k < 512,
    EthDma.ab (p.txWordBase + BitVec.ofNat 14 k) ≠ EthDma.ab (p.rxWordBase + BitVec.ofNat 14 w)

variable {cfg : EthMac.Tx.Config} {p : Params} {s : Dma} {q : Source} {n : ℕ}
  {B : ℕ → BitVec 8} {frames : List (List (BitVec 8))}

theorem length_frameOf (n : ℕ) (B : ℕ → BitVec 8) : (frameOf n B).length = n := by
  simp [frameOf]

theorem drop_frameOf {j : ℕ} (hj : j < n) :
    (frameOf n B).drop j = B j :: (frameOf n B).drop (j + 1) := by
  have hlen : j < (frameOf n B).length := by rwa [length_frameOf]
  rw [List.drop_eq_getElem_cons hlen]
  simp [frameOf]

/-! ### The memory -/

/-- A word that waits to be written goes to the RX window. -/
def Aimed (p : Params) (s : Dma) : Prop :=
  s.rx.rxMwe = true → ∃ w < p.windowWords, s.rx.rxMaddr = p.rxWordBase + BitVec.ofNat 14 w

/-- Where a word is committed there is room for it. -/
theorem aimed_room (h : s.rx.room p = true) : ∃ w < p.windowWords,
    p.rxWordBase + s.rx.rxWord.setWidth 14 = p.rxWordBase + BitVec.ofNat 14 w :=
  ⟨s.rx.rxWord.toNat, by simpa [EthDma.Rx.room] using h, by rw [BitVec.ofNat_toNat]⟩

theorem aimed_eth (p : Params) (s : Dma) (i : EthIn) : Aimed p (s.step p (.eth i)) := by
  intro hwe
  cases hv : i.rxTvalid with
  | false =>
    rw [EthDma.rx_rest hv] at hwe
    cases hwe
  | true =>
    cases ht : s.rx.taking s.tx.txRun with
    | false =>
      rw [EthDma.rx_skip hv ht] at hwe
      cases hwe
    | true =>
      cases hl : i.rxTlast with
      | false =>
        rw [EthDma.rx_mid hv ht hl] at hwe ⊢
        obtain ⟨h3, hroom⟩ : s.rx.rxByte = 3 ∧ s.rx.room p = true := by simpa using hwe
        simpa only [h3, hroom, and_self, if_true] using aimed_room hroom
      | true =>
        rw [EthDma.rx_end hv ht hl] at hwe ⊢
        have hroom : s.rx.room p = true := hwe
        simpa only [hroom, if_true] using aimed_room hroom

/-- The TX window keeps its bytes on an edge of `clk_mac`. -/
theorem holds_eth (hapart : Apart p) (ha : Aimed p s) (h : Holds p B s) (i : EthIn) :
    Holds p B (s.step p (.eth i)) := by
  intro k hk
  have hmem : (s.step p (.eth i)).mem (EthDma.ab (p.txWordBase + BitVec.ofNat 14 (k / 4))) =
      s.mem (EthDma.ab (p.txWordBase + BitVec.ofNat 14 (k / 4))) := by
    rw [EthDma.mem_eth, Dma.settled]
    split_ifs with _ hpend
    · rfl
    · obtain ⟨w, hw, haddr⟩ := ha (Bool.and_eq_true_iff.mp hpend).2
      rw [haddr, Function.update_of_ne (hapart w hw (k / 4) (by omega))]
    · rfl
  rw [EthDma.txByte, hmem]
  exact h k hk

/-- And under a store that is not in it. -/
theorem holds_stored (h : Holds p B s) {st : Store}
    (hst : st.wen = 0 ∨ ∀ k < 512, EthDma.ab (p.txWordBase + BitVec.ofNat 14 k) ≠ st.word) {s' : Dma}
    (hmem : s'.mem = stored st s.mem) : Holds p B s' := by
  intro k hk
  have hword : s'.mem (EthDma.ab (p.txWordBase + BitVec.ofNat 14 (k / 4))) =
      s.mem (EthDma.ab (p.txWordBase + BitVec.ofNat 14 (k / 4))) := by
    rw [hmem]
    rcases hst with hwen | hne
    · rw [stored_of_wen hwen]
    · exact stored_of_ne (hne (k / 4) (by omega))
  rw [EthDma.txByte, hword]
  exact h k hk

/-! ### The DMA as a source -/

/-- The frame the TX process hands over, without the bytes that are taken. -/
inductive Process (p : Params) (frames : List (List (BitVec 8))) (s : Dma) :
    List (List (BitVec 8)) → Prop
  | rest (txRun : s.tx.txRun = false) (tvalid : s.tx.tvalid = false) : Process p frames s []
  | running (n : ℕ) (B : ℕ → BitVec 8) (e : ℕ) (two_le : 2 ≤ n) (lt : n < 2048)
      (pipe : Pipe p n B e s) (holds : Holds p B s) (served : s.tx.txGoS2 ≠ s.tx.txDoneTog)
      (asked : frames.getLast? = some (frameOf n B)) :
      Process p frames s [(frameOf n B).drop (e - 3)]
  | last (txRun : s.tx.txRun = false) (tvalid : s.tx.tvalid = true) (tlast : s.tx.tlast = true) :
      Process p frames s [[s.tx.tdata]]

/-- The request the process has not seen. -/
inductive Pending (p : Params) (frames : List (List (BitVec 8))) (s : Dma) :
    List (List (BitVec 8)) → Prop
  | none (taken : s.tx.txRun = false → s.cpu.txTog = s.tx.txDoneTog) : Pending p frames s []
  | asked (n : ℕ) (B : ℕ → BitVec 8) (two_le : 2 ≤ n) (lt : n < 2048) (txRun : s.tx.txRun = false)
      (waits : s.cpu.txTog ≠ s.tx.txDoneTog) (txLenQ : s.cpu.txLenQ = BitVec.ofNat 11 n)
      (holds : Holds p B s) (asked : frames.getLast? = some (frameOf n B)) :
      Pending p frames s [frameOf n B]

/-- The DMA is this source of the MAC. -/
structure Feeds (p : Params) (frames : List (List (BitVec 8))) (s : Dma) (q : Source) : Prop where
  ring : TxRing s
  aimed : Aimed p s
  queue : ∃ own asked, q.queue = own ++ asked ∧ Process p frames s own ∧ Pending p frames s asked
  begun : q.begun = true → s.tx.tvalid = true

/-- **The DMA shows what the source may.** -/
theorem Feeds.shows (h : Feeds p frames s q) : q.Shows (offered s) := by
  obtain ⟨own, asked, hqueue, hown, hasked⟩ := h.queue
  have hbegun : s.tx.tvalid = false → q.begun = false := fun hv => by
    by_contra hb
    exact Bool.noConfusion (hv.symm.trans (h.begun (by simpa using hb)))
  unfold Source.Shows
  rw [hqueue]
  cases hown with
  | rest txRun tvalid =>
    cases hasked with
    | none => exact ⟨tvalid, hbegun tvalid⟩
    | asked n B two_le =>
      rw [List.nil_append, ← List.drop_zero (l := frameOf n B), drop_frameOf (by omega)]
      exact Or.inl ⟨tvalid, hbegun tvalid⟩
  | running n B e two_le lt pipe =>
    have hle := pipe.le
    rw [drop_frameOf (show e - 3 < n by omega)]
    by_cases he : 3 ≤ e
    · refine Or.inr ?_
      rw [drop_frameOf (show e - 3 + 1 < n by omega), offered, pipe.tdata he, pipe.tvalid,
        pipe.tlast, decide_eq_true he]
      rfl
    · have hvalid : s.tx.tvalid = false := by rw [pipe.tvalid, decide_eq_false he]
      exact Or.inl ⟨hvalid, hbegun hvalid⟩
  | last txRun tvalid tlast =>
    refine Or.inr ?_
    rw [offered, tvalid, tlast]
    rfl

/-! ### An edge of `clk_mac` -/

/-- A request in the second flop starts the process. -/
theorem pipe_start (hrun : s.tx.txRun = false) (hgo : s.tx.txGoS2 ≠ s.tx.txDoneTog) (hn : 1 ≤ n)
    (hlen : s.cpu.txLenQ = BitVec.ofNat 11 n) (i : EthIn) : Pipe p n B 0 (s.step p (.eth i)) := by
  have htx := EthDma.tx_idle (p := p) hrun i
  simp only [if_neg hgo, bne_iff_ne.mpr hgo] at htx
  exact
    { le := by omega
      run := by rw [htx]
      nbyte := by rw [htx]; exact hlen
      idx := by rw [htx, Nat.zero_min]; rfl
      men := by rw [htx]; rfl
      maddr := fun h => absurd h (by decide)
      sel1 := fun h => absurd h (by decide)
      v1 := by rw [htx]; rfl
      l1 := by rw [htx]; exact (decide_eq_false (by omega)).symm
      v2 := by rw [htx]; rfl
      sel2 := fun h => absurd h (by decide)
      l2 := by rw [htx]; exact (decide_eq_false (by omega)).symm
      data := fun h => absurd h (by decide)
      tvalid := by rw [htx]; rfl
      tdata := fun h => absurd h (by decide)
      tlast := by rw [htx] }

/-- A request the process has seen stays with it until it is answered. -/
theorem served_eth (hring : TxRing s) (hgo : s.tx.txGoS2 ≠ s.tx.txDoneTog) {i : EthIn}
    (hdone : (s.step p (.eth i)).tx.txDoneTog = s.tx.txDoneTog) :
    (s.step p (.eth i)).tx.txGoS2 ≠ (s.step p (.eth i)).tx.txDoneTog := by
  obtain ⟨hb, hc, -⟩ := hring.arrived hgo
  rw [(EthDma.eth_go p s i).2, hdone, hb, ← hc]
  exact hgo

/-- A process that does not run: it takes the request when it sees it. -/
theorem Pending.eth (hapart : Apart p) (hring : TxRing s) (haimed : Aimed p s)
    (hrun : s.tx.txRun = false) {asked : List (List (BitVec 8))} (h : Pending p frames s asked)
    (i : EthIn) : ∃ own' asked', asked = own' ++ asked' ∧
      Process p frames (s.step p (.eth i)) own' ∧ Pending p frames (s.step p (.eth i)) asked' := by
  have htx := EthDma.tx_idle (p := p) hrun i
  by_cases hgo : s.tx.txGoS2 = s.tx.txDoneTog
  case pos =>
    have hrun' : (s.step p (.eth i)).tx.txRun = false := by rw [htx, hgo, bne_self_eq_false]
    have hdone : (s.step p (.eth i)).tx.txDoneTog = s.tx.txDoneTog := by rw [htx]
    refine ⟨[], asked, rfl, .rest hrun' (by rw [htx]), ?_⟩
    cases h with
    | none taken => exact .none fun _ => (taken hrun).trans hdone.symm
    | asked n B two_le lt txRun waits txLenQ holds asked =>
      exact .asked n B two_le lt hrun' (by rw [hdone]; exact waits) txLenQ
        (holds_eth hapart haimed holds i) asked
  case neg =>
    cases h with
    | none taken => exact absurd ((hring.agreed (taken hrun)).2.trans (taken hrun)) hgo
    | asked n B two_le lt txRun waits txLenQ holds asked =>
      have hrun' : (s.step p (.eth i)).tx.txRun = true := by rw [htx, bne_iff_ne.mpr hgo]
      have hdone : (s.step p (.eth i)).tx.txDoneTog = s.tx.txDoneTog := by rw [htx]
      refine ⟨[frameOf n B], [], rfl, ?_, .none fun hno => Bool.noConfusion (hno.symm.trans hrun')⟩
      exact .running n B 0 two_le lt (pipe_start hrun hgo (by omega) txLenQ i)
        (holds_eth hapart haimed holds i) (served_eth hring hgo hdone) asked

/-- The last element of a list is the one of its suffix of one element. -/
theorem eq_of_suffix {f g : List (BitVec 8)} (hlast : frames.getLast? = some f)
    (hsuffix : [g] <:+ frames) : g = f := by
  obtain ⟨l, rfl⟩ := hsuffix
  simpa using hlast

/-- What the source does on an edge of the DMA that shows nothing. -/
theorem next_quiet (hvalid : s.tx.tvalid = false) (r : Bool) : q.next r (offered s) = q := by
  simp [Source.next, offered, hvalid]

/-- On an edge that takes nothing. -/
theorem next_held (hvalid : s.tx.tvalid = true) : q.next false (offered s) = ⟨q.queue, true⟩ := by
  simp [Source.next, offered, hvalid]

/-- On an edge that takes a byte. -/
theorem next_taken (hvalid : s.tx.tvalid = true) :
    q.next true (offered s) = ⟨Source.taken q.queue, !s.tx.tlast⟩ := by
  simp [Source.next, offered, hvalid]

/-- What the running process leaves of its frame on an advance. -/
theorem next_advance {e : ℕ} (pipe : Pipe p n B e s) (hbegun : q.begun = true → s.tx.tvalid = true)
    (hqueue : q.queue = [(frameOf n B).drop (e - 3)]) {r : Bool} (hadv : s.tx.adv r = true) :
    q.next r (offered s) = ⟨[(frameOf n B).drop (e + 1 - 3)], decide (3 ≤ e)⟩ := by
  have hle := pipe.le
  by_cases he : 3 ≤ e
  · have hvalid : s.tx.tvalid = true := by rw [pipe.tvalid, decide_eq_true he]
    obtain rfl : r = true := by simpa [EthDma.Tx.adv, hvalid] using hadv
    rw [next_taken hvalid, hqueue, pipe.tlast, drop_frameOf (show e - 3 < n by omega),
      drop_frameOf (show e - 3 + 1 < n by omega), Source.taken, ← drop_frameOf (by omega),
      decide_eq_true he, show e - 3 + 1 = e + 1 - 3 by omega]
    rfl
  · have hvalid : s.tx.tvalid = false := by rw [pipe.tvalid, decide_eq_false he]
    have hq : q.begun = false := by
      by_contra hb
      exact Bool.noConfusion (hvalid.symm.trans (hbegun (by simpa using hb)))
    rw [next_quiet hvalid, decide_eq_false he, ← hq, show e + 1 - 3 = e - 3 by omega, ← hqueue]

/-- **An edge of `clk_mac`.** The MAC holds a byte back only when it has taken none of its frame. -/
theorem Feeds.mac (hapart : Apart p) (hlen : ∀ f ∈ frames, 2 ≤ f.length) (h : Feeds p frames s q)
    {i : EthIn} (hwhole : i.txTready = false → q.queue <:+ frames) :
    Feeds p frames (s.step p (.eth i)) (q.next i.txTready (offered s)) := by
  have hring := h.ring.step (p := p) (.eth i)
  have haimed := aimed_eth p s i
  obtain ⟨own, asked, hqueue, hown, hasked⟩ := h.queue
  cases hown with
  | rest txRun tvalid =>
    obtain ⟨own', asked', heq, hown', hasked'⟩ := hasked.eth hapart h.ring h.aimed txRun i
    rw [next_quiet tvalid]
    refine ⟨hring, haimed, ⟨own', asked', by rw [hqueue, List.nil_append, heq], hown', hasked'⟩, ?_⟩
    exact fun hb => Bool.noConfusion (tvalid.symm.trans (h.begun hb))
  | last txRun tvalid tlast =>
    have hready : i.txTready = true := by
      by_contra hno
      have hmem : [s.tx.tdata] ∈ frames := (hwhole (by simpa using hno)).subset (by simp [hqueue])
      exact absurd (hlen _ hmem) (by simp)
    obtain ⟨own', asked', heq, hown', hasked'⟩ := hasked.eth hapart h.ring h.aimed txRun i
    rw [hready, next_taken tvalid, hqueue, tlast]
    exact ⟨hring, haimed, ⟨own', asked', heq, hown', hasked'⟩, fun hb => Bool.noConfusion hb⟩
  | running n B e two_le lt pipe holds served last =>
    obtain rfl : asked = [] := by
      cases hasked with
      | none => rfl
      | asked _ _ _ _ txRun => exact Bool.noConfusion (txRun.symm.trans pipe.run)
    rw [List.append_nil] at hqueue
    have hholds := holds_eth hapart h.aimed holds i
    by_cases hadv : s.tx.adv i.txTready = true
    case pos =>
      rw [next_advance pipe h.begun hqueue hadv]
      rcases Nat.lt_or_eq_of_le pipe.le with he | he
      · -- the frame goes on
        have hpipe := pipe.advance (by omega) lt (by omega) holds hadv
        have hdone : (s.step p (.eth i)).tx.txDoneTog = s.tx.txDoneTog := by
          rw [pipe.tx_advance (by omega) lt (by omega) i hadv]
        refine ⟨hring, haimed, ⟨_, [], (List.append_nil _).symm,
          .running n B (e + 1) two_le lt hpipe hholds (served_eth h.ring served hdone) last,
          .none fun hno => Bool.noConfusion (hno.symm.trans hpipe.run)⟩, fun hb => ?_⟩
        rw [hpipe.tvalid, decide_eq_true (Nat.le_succ_of_le (of_decide_eq_true hb))]
      · -- the last byte is offered, and the window is given back
        subst he
        obtain ⟨hb, hc, hd, he, hf⟩ := h.ring.arrived served
        obtain ⟨hret, hvalid, hdata, hlast⟩ :=
          pipe.last (p := p) ⟨rfl, hb, hc, hd, he, hf⟩ (by omega) hadv
        refine ⟨hring, haimed, ⟨[[(s.step p (.eth i)).tx.tdata]], [], ?_,
          .last hret.txRun hvalid hlast, .none fun _ => hret.txTog.trans hret.txDoneTog.symm⟩,
          fun _ => hvalid⟩
        rw [List.append_nil, hdata, show n + 1 + 1 - 3 = n - 1 by omega,
          drop_frameOf (by omega), List.drop_eq_nil_of_le (by rw [length_frameOf]; omega)]
    case neg =>
      obtain ⟨hvalid, hready⟩ : s.tx.tvalid = true ∧ i.txTready = false := by
        simpa [EthDma.Tx.adv] using hadv
      have he : 3 ≤ e := of_decide_eq_true (pipe.tvalid.symm.trans hvalid)
      have hzero : e - 3 = 0 := by
        have hwhole := eq_of_suffix last (by rw [← hqueue]; exact hwhole hready)
        have := congrArg List.length hwhole
        rw [List.length_drop, length_frameOf] at this
        omega
      have hpipe := pipe.stall lt holds (by simpa using hadv) (i := i) fun h => by omega
      have hdone : (s.step p (.eth i)).tx.txDoneTog = s.tx.txDoneTog := by
        simp [EthDma.eth_tx, EthDma.Tx.clk, pipe.run, hadv]
      rw [hready, next_held hvalid, hqueue]
      exact ⟨hring, haimed, ⟨_, [], (List.append_nil _).symm,
        .running n B e two_le lt hpipe hholds (served_eth h.ring served hdone) last,
        .none fun hno => Bool.noConfusion (hno.symm.trans hpipe.run)⟩,
        fun _ => by rw [hpipe.tvalid, decide_eq_true he]⟩

/-! ### An edge of `clk_sys` -/

/-- The DMA after an edge of `clk_sys`. -/
def sysDma (p : Params) (i : CpuIn) (st : Store) (s : Dma) : Dma :=
  { s.step p (.cpu i) with mem := stored st s.mem }

/-- A request that is not answered keeps `tx_busy` high. -/
theorem busy_of_waits (hring : TxRing s) (hwaits : s.cpu.txTog ≠ s.tx.txDoneTog) :
    s.cpu.txBusy = true := by
  obtain ⟨-, hback⟩ := hring.unanswered hwaits
  rw [EthDma.Cpu.txBusy, hback]
  exact bne_iff_ne.mpr hwaits

theorem waits_of_served (hring : TxRing s) (hgo : s.tx.txGoS2 ≠ s.tx.txDoneTog) :
    s.cpu.txTog ≠ s.tx.txDoneTog := by
  obtain ⟨-, hc, -⟩ := hring.arrived hgo
  rw [← hc]
  exact hgo

theorem txRing_sys (h : TxRing s) (i : CpuIn) (st : Store) : TxRing (sysDma p i st s) :=
  h.step (p := p) (.cpu i)

/-- The pipeline is not the CPU's. -/
theorem pipe_sys {e : ℕ} (h : Pipe p n B e s) (i : CpuIn) (st : Store) :
    Pipe p n B e (sysDma p i st s) :=
  ⟨h.le, h.run, h.nbyte, h.idx, h.men, h.maddr, h.sel1, h.v1, h.l1, h.v2, h.sel2, h.l2, h.data,
    h.tvalid, h.tdata, h.tlast⟩

/-- **An edge of `clk_sys` that takes no request.** -/
theorem Feeds.sys (h : Feeds p frames s q) {i : CpuIn} (hno : (i.txStart && !s.cpu.txBusy) = false)
    {st : Store} (hst : s.cpu.txBusy = true →
      st.wen = 0 ∨ ∀ k < 512, EthDma.ab (p.txWordBase + BitVec.ofNat 14 k) ≠ st.word) :
    Feeds p frames (sysDma p i st s) q := by
  have hholds : ∀ {B : ℕ → BitVec 8}, s.cpu.txTog ≠ s.tx.txDoneTog → Holds p B s →
      Holds p B (sysDma p i st s) := fun hwaits hB =>
    holds_stored hB (hst (busy_of_waits h.ring hwaits)) rfl
  have htog : (sysDma p i st s).cpu.txTog = s.cpu.txTog := by
    simp [sysDma, Dma.step, Dma.cpuClk, EthDma.Cpu.clk, hno]
  have hlenq : (sysDma p i st s).cpu.txLenQ = s.cpu.txLenQ := by
    simp [sysDma, Dma.step, Dma.cpuClk, EthDma.Cpu.clk, hno]
  obtain ⟨own, asked, hqueue, hown, hasked⟩ := h.queue
  refine ⟨txRing_sys h.ring i st, h.aimed, ⟨own, asked, hqueue, ?_, ?_⟩, h.begun⟩
  · cases hown with
    | rest txRun tvalid => exact .rest txRun tvalid
    | running n B e two_le lt pipe holds served last =>
      exact .running n B e two_le lt (pipe_sys pipe i st)
        (hholds (waits_of_served h.ring served) holds) served last
    | last txRun tvalid tlast => exact Process.last (s := sysDma p i st s) txRun tvalid tlast
  · cases hasked with
    | none taken => exact .none fun hrun => htog.trans (taken hrun)
    | asked n B two_le lt txRun waits txLenQ holds last =>
      exact .asked n B two_le lt txRun (by rw [htog]; exact waits) (hlenq.trans txLenQ)
        (hholds waits holds) last

/-- **An edge of `clk_sys` that takes a request.** The process has answered the one before, but may
still offer its last byte. -/
theorem Feeds.request (h : Feeds p frames s q) {i : CpuIn} (hi : i.txStart = true)
    (hbusy : s.cpu.txBusy = false) (hn : 2 ≤ i.txLen.toNat) (st : Store) :
    Feeds p (frames ++ [frameOf i.txLen.toNat (EthDma.txByte p (stored st s.mem))])
      (sysDma p i st s) (q.queued (frameOf i.txLen.toNat (EthDma.txByte p (stored st s.mem)))) := by
  have hsame : s.cpu.txTog = s.cpu.txDoneS2 := by simpa [EthDma.Cpu.txBusy] using hbusy
  obtain ⟨-, hgo, hdone, -⟩ := h.ring.settled hsame
  have hflip : (sysDma p i st s).cpu.txTog = (!s.cpu.txTog) ∧
      (sysDma p i st s).cpu.txLenQ = i.txLen := by
    simp [sysDma, Dma.step, Dma.cpuClk, EthDma.Cpu.clk, hi, hbusy]
  obtain ⟨own, asked, hqueue, hown, hasked⟩ := h.queue
  obtain rfl : asked = [] := by
    cases hasked with
    | none => rfl
    | asked _ _ _ _ _ waits => exact absurd hdone.symm waits
  have hrun : s.tx.txRun = false ∧ Process p
      (frames ++ [frameOf i.txLen.toNat (EthDma.txByte p (stored st s.mem))])
      (sysDma p i st s) own := by
    cases hown with
    | rest txRun tvalid => exact ⟨txRun, .rest txRun tvalid⟩
    | running _ _ _ _ _ _ _ served => exact absurd (hgo.trans hdone.symm) served
    | last txRun tvalid tlast =>
      exact ⟨txRun, Process.last (s := sysDma p i st s) txRun tvalid tlast⟩
  refine ⟨txRing_sys h.ring i st, h.aimed, ⟨own, _, ?_, hrun.2, .asked i.txLen.toNat
    (EthDma.txByte p (stored st s.mem)) hn i.txLen.isLt hrun.1 ?_ ?_ (fun _ _ => rfl)
    List.getLast?_concat⟩, h.begun⟩
  · rw [Source.queued, hqueue, List.append_nil]
  · rw [hflip.1]
    change (!s.cpu.txTog) ≠ s.tx.txDoneTog
    rw [hdone]
    cases s.cpu.txTog <;> decide
  · rw [hflip.2, BitVec.ofNat_toNat, BitVec.setWidth_eq]

/-! ### A run -/

/-- The DMA is a source of the frames asked for, and the MAC has sent what that source has not in
its queue. -/
def Carried (cfg : EthMac.Tx.Config) (p : Params) (x : Station) (l : Ledger) : Prop :=
  (∀ f ∈ l.asked, 2 ≤ f.length ∧ f.length < 2048) ∧
    ∃ q, Feeds p l.asked x.dma q ∧ Sent cfg l.asked (x.tx, q) l.gmii

variable {x : Station} {l : Ledger}

theorem Carried.step (hmin : (cfg.minFrameLength - 5).toNat < 65536) (hapart : Apart p)
    (h : Carried cfg p x l) {e : Edge} (he : Careful p x e) :
    Carried cfg p (x.step cfg p e) (watch cfg p x e l) := by
  obtain ⟨hlen, q, hfeeds, hsent⟩ := h
  cases e with
  | mac g =>
    refine ⟨hlen, q.next x.tx.sAxisTready (offered x.dma), ?_, ?_⟩
    · exact hfeeds.mac hapart (fun f hf => (hlen f hf).1) (i := x.ethIn) hsent.queue_suffix
    · exact hsent.step hmin (fun f hf => (hlen f hf).1) hfeeds.shows
  | sys i st =>
    by_cases htakes : x.takes = true
    · obtain ⟨hstart, hbusy⟩ : x.core.txStart = true ∧ x.dma.cpu.txBusy = false := by
        simpa [Station.takes] using htakes
      have hn := he.1 htakes
      have hasked : watch cfg p x (.sys i st) l = { l with asked := l.asked ++
          [frameOf x.core.txLen.toNat (EthDma.txByte p (stored st x.dma.mem))] } := if_pos htakes
      rw [hasked]
      refine ⟨fun f hf => ?_, _, hfeeds.request (i := x.core.pulses) hstart hbusy hn st,
        hsent.queued _⟩
      rcases List.mem_append.mp hf with hf | hf
      · exact hlen f hf
      · rw [List.mem_singleton.mp hf, length_frameOf]
        exact ⟨hn, x.core.txLen.isLt⟩
    · have hasked : watch cfg p x (.sys i st) l = l := if_neg htakes
      rw [hasked]
      exact ⟨hlen, q, hfeeds.sys (i := x.core.pulses) (Bool.eq_false_iff.mpr htakes) he.2, hsent⟩

theorem Carried.reset (hx : x.Reset) : Carried cfg p x .empty := by
  obtain ⟨hgo1, hgo2⟩ := hx.dma.txGo
  have hring : TxRing x.dma := by
    rw [TxRing, hx.dma.cpu, hgo1, hgo2, hx.dma.txDoneTog]
    decide
  refine ⟨fun f hf => absurd hf (List.not_mem_nil), ⟨[], false⟩, ⟨hring, fun hwe => ?_, ?_, ?_⟩, ?_⟩
  · exact Bool.noConfusion (hx.dma.rxMwe.symm.trans hwe)
  · refine ⟨[], [], rfl, .rest hx.dma.txRun hx.dma.tvalid, .none fun _ => ?_⟩
    rw [hx.dma.cpu, hx.dma.txDoneTog]
  · exact fun hb => Bool.noConfusion hb
  · exact .between [] rfl ⟨Or.inl hx.tx.state, hx.tx.tready, hx.tx.txEr⟩ rfl fun _ => rfl

/-- The edges of a run are those of a CPU that keeps to its windows. -/
abbrev CarefulRun (cfg : EthMac.Tx.Config) (p : Params) (x : Station) (es : List Edge) : Prop :=
  Run.Along (Station.step cfg p) (Careful p) x es

/-- The station with its ledger, after a run. -/
def seen (cfg : EthMac.Tx.Config) (p : Params) (x : Station) (es : List Edge) : Station × Ledger :=
  Run.noted (Station.step cfg p) (watch cfg p) (x, Ledger.empty) es

theorem carried_run (hmin : (cfg.minFrameLength - 5).toNat < 65536) (hapart : Apart p)
    (hx : x.Reset) {es : List Edge} (hes : CarefulRun cfg p x es) :
    Carried cfg p (seen cfg p x es).1 (seen cfg p x es).2 :=
  Run.noted_inv (Carried cfg p) (fun _ _ _ h he => h.step hmin hapart he) es (x, Ledger.empty) hes
    (Carried.reset hx)

/-- Nothing is left to send: `tx_busy` is low, no byte is offered, and the MAC is idle. -/
structure Station.Silent (x : Station) : Prop where
  txBusy : x.dma.cpu.txBusy = false
  tvalid : x.dma.tx.tvalid = false
  idle : x.tx.state = .idle

/-- A silent station has sent all that was asked for. -/
theorem Carried.silent (h : Carried cfg p x l) (hs : x.Silent) :
    l.gmii.whole = l.asked.map (encode cfg) ∧ l.gmii.part = [] := by
  obtain ⟨-, q, hfeeds, hsent⟩ := h
  obtain ⟨done, hall, -, hwhole, hpart⟩ := hsent.of_idle hs.idle
  obtain ⟨own, asked, hqueue, hown, hasked⟩ := hfeeds.queue
  have hsame : x.dma.cpu.txTog = x.dma.cpu.txDoneS2 := by simpa [EthDma.Cpu.txBusy] using hs.txBusy
  obtain ⟨-, hgo, hdone, -⟩ := hfeeds.ring.settled hsame
  have hnil : q.queue = [] := by
    cases hown with
    | rest =>
      cases hasked with
      | none => exact hqueue
      | asked _ _ _ _ _ waits => exact absurd hdone.symm waits
    | running _ _ _ _ _ _ _ served => exact absurd (hgo.trans hdone.symm) served
    | last _ tvalid => exact Bool.noConfusion (hs.tvalid.symm.trans tvalid)
  refine ⟨?_, hpart⟩
  rw [hwhole, hall, hnil, List.append_nil]

/-- **What the CPU asks for is what goes out.** The bursts of the GMII are the frames of the
requests, as the window held them, each with preamble, padding and check, in order and without an
error; and a silent station has sent them all. -/
theorem requests_transmitted (hmin : (cfg.minFrameLength - 5).toNat < 65536) (hapart : Apart p)
    (hx : x.Reset) {es : List Edge} (hes : CarefulRun cfg p x es) :
    EthMac.Transmitted cfg (seen cfg p x es).2.asked (seen cfg p x es).2.gmii ∧
      (seen cfg p x es).1.tx.gmiiTxEr = false ∧
      ((seen cfg p x es).1.Silent →
        (seen cfg p x es).2.gmii.whole = (seen cfg p x es).2.asked.map (encode cfg) ∧
          (seen cfg p x es).2.gmii.part = []) := by
  have hsilent := (carried_run hmin hapart hx hes).silent
  obtain ⟨-, q, -, hsent⟩ := carried_run hmin hapart hx hes
  exact ⟨hsent.transmitted, hsent.noError, hsilent⟩

theorem apart_board : Apart board := by
  intro w hw k hk heq
  have hw' : w < 512 := hw
  have hnat : (1536 + k % 16384) % 16384 % 8192 = (1024 + w % 16384) % 16384 % 8192 :=
    congrArg BitVec.toNat heq
  omega

/-- The CPU stores two bytes in the TX window and asks for them. -/
def asks : List Edge :=
  [.sys .idle ⟨0xF, 1536, 0x0201⟩, .sys (.write 0x04000008 2) .none, .sys .idle .none]

/-- Edges of `clk_mac` with nothing on the GMII. -/
def macQuiet (k : ℕ) : List Edge := List.replicate k (.mac ⟨0, false, false⟩)

def twoBytes : List Edge := asks ++ macQuiet 22

/-- Without padding, a frame of two bytes is out after 22 edges of `clk_mac`. -/
theorem requests_transmitted_two :
    EthMac.Transmitted ⟨false, 64, 2⟩ (seen ⟨false, 64, 2⟩ board .afterReset twoBytes).2.asked
        (seen ⟨false, 64, 2⟩ board .afterReset twoBytes).2.gmii ∧
      (seen ⟨false, 64, 2⟩ board .afterReset twoBytes).1.tx.gmiiTxEr = false ∧
      ((seen ⟨false, 64, 2⟩ board .afterReset twoBytes).1.Silent →
        (seen ⟨false, 64, 2⟩ board .afterReset twoBytes).2.gmii.whole =
            (seen ⟨false, 64, 2⟩ board .afterReset twoBytes).2.asked.map (encode ⟨false, 64, 2⟩) ∧
          (seen ⟨false, 64, 2⟩ board .afterReset twoBytes).2.gmii.part = []) :=
  requests_transmitted (by decide) apart_board Station.reset_afterReset (by decide +kernel)

end Ethmin
end Xc7Tools
