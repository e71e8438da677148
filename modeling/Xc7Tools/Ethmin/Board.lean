/-
# ethmin: the station behind its retimer

`sgmii_soc_liteeth.sv` puts `eth_gmii_retime256` between the MAC and the PCS:
the MAC's frames fill a buffer on `clk_mac` and leave it on `pcs_tx_clk`, and
nothing comes back when one is overwritten. `tx_busy` falls when the DMA has
handed its last byte over, long before the frame is out, so what the CPU may
do is a matter of time. `Pace` counts the edges since the last request, and a
CPU that leaves a frame enough of them loses none.

`Board.Sends` is the invariant: what the MAC still owes is `Left`, and while a
frame is on its way to the buffer the burst process rests.

Key definitions: `Board.step`, `Pace`, `Paced`, `Board.Sends`.
Key theorems: `Left.request`, `Board.Sends.net`, `Board.Sends.step`, `board_transmits`.
-/
import Xc7Tools.EthGmii.Transmit
import Xc7Tools.Ethmin.Progress

namespace Xc7Tools
namespace Ethmin

open EthDma (Params TxRing)
open EthGmii (Retime MacIn GmiiIn Seen)
open EthMac (Source Sent Transmitted encode)
open EthMac.Rx (Gmii)

/-! ### The gateware -/

structure Board where
  station : Station
  retime : Retime

/-- The edges of one time: of the PCS's clocks and `clk_mac`, or of `clk_sys`. -/
inductive Tick where
  | net (pcsRx : Option GmiiIn) (pcsTx : Bool) (mac : Bool)
  | sys (i : Bus) (st : Store)
  deriving DecidableEq

/-- What the retimer samples of the MAC; `gmii_tx_er` is not connected. -/
def macIn (t : EthMac.Tx) : MacIn := ⟨t.gmiiTxd, t.gmiiTxEn⟩

/-- What the MAC samples of the retimer; `mac_rx_er` is low. -/
def macGmii (r : EthGmii.Rx) : Gmii := ⟨r.buf.rdData, r.replay.replayingD, false⟩

namespace Board

/-- The edges of the retimer. -/
def edges (x : Board) (pcsRx : Option GmiiIn) (pcsTx mac : Bool) : EthGmii.Edges :=
  ⟨pcsRx, pcsTx, if mac then some (macIn x.station.tx) else none⟩

def step (cfg : EthMac.Tx.Config) (p : Params) (x : Board) : Tick → Board
  | .net pcsRx pcsTx mac =>
    { station := if mac then x.station.step cfg p (.mac (macGmii x.retime.rx)) else x.station
      retime := x.retime.step (x.edges pcsRx pcsTx mac) }
  | .sys i st => { x with station := x.station.step cfg p (.sys i st) }

structure Reset (x : Board) : Prop where
  station : x.station.Reset
  retime : x.retime.Reset

def afterReset : Board := ⟨.afterReset, .afterReset⟩

theorem reset_afterReset : afterReset.Reset :=
  ⟨Station.reset_afterReset, Retime.reset_afterReset⟩

end Board

/-! ### Requests and their time -/

/-- The edges of `clk_mac` after which a frame is in the retimer's buffer. -/
def settle (cfg : EthMac.Tx.Config) : ℕ := longest cfg + 7

/-- The edges of `pcs_tx_clk` after which it has left it. -/
def drain : ℕ := 2051

/-- The edges of `clk_mac` since the last request, and those of `pcs_tx_clk` since the former were
enough. -/
structure Pace where
  mac : ℕ
  pcs : ℕ
  deriving DecidableEq

/-- The last frame is out. -/
def Pace.Done (cfg : EthMac.Tx.Config) (t : Pace) : Prop := settle cfg ≤ t.mac ∧ drain ≤ t.pcs

instance (cfg : EthMac.Tx.Config) (t : Pace) : Decidable (t.Done cfg) :=
  inferInstanceAs (Decidable (_ ∧ _))

def Pace.next (cfg : EthMac.Tx.Config) (pcsTx mac : Bool) (t : Pace) : Pace where
  mac := if mac then t.mac + 1 else t.mac
  pcs := if pcsTx ∧ settle cfg ≤ t.mac then t.pcs + 1 else t.pcs

/-- The frames asked for, the GMII of the MAC, both sides of the retimer, and the time. -/
structure Journal where
  ledger : Ledger
  seen : Seen
  pace : Pace
  deriving DecidableEq

/-- Nothing has been asked for. -/
def Journal.empty (cfg : EthMac.Tx.Config) : Journal := ⟨.empty, .empty, ⟨settle cfg, drain⟩⟩

def Journal.next (cfg : EthMac.Tx.Config) (p : Params) (x : Board) (j : Journal) : Tick → Journal
  | .net pcsRx pcsTx mac =>
    { ledger :=
        if mac then watch cfg p x.station (.mac (macGmii x.retime.rx)) j.ledger else j.ledger
      seen := j.seen.next x.retime (x.edges pcsRx pcsTx mac)
      pace := j.pace.next cfg pcsTx mac }
  | .sys i st =>
    { j with
      ledger := watch cfg p x.station (.sys i st) j.ledger
      pace := if x.station.takes then ⟨0, 0⟩ else j.pace }

/-- The board with its journal. -/
def journalStep (cfg : EthMac.Tx.Config) (p : Params) (y : Board × Journal) (t : Tick) :
    Board × Journal := (y.1.step cfg p t, y.2.next cfg p y.1 t)

/-- The CPU keeps to its windows, asks for what the retimer's buffer holds with preamble and check,
and not before the last frame is out. -/
def Paced (cfg : EthMac.Tx.Config) (p : Params) (y : Board × Journal) : Tick → Prop
  | .net _ _ _ => True
  | .sys i st => Careful p y.1.station (.sys i st) ∧ (y.1.station.takes = true →
      y.1.station.core.txLen.toNat ≤ 2035 ∧ y.2.pace.Done cfg)

instance (cfg : EthMac.Tx.Config) (p : Params) (y : Board × Journal) : ∀ t, Decidable (Paced cfg p y t)
  | .net _ _ _ => isTrue trivial
  | .sys _ _ => inferInstanceAs (Decidable (_ ∧ _))

variable {cfg : EthMac.Tx.Config} {p : Params} {x : Board} {j : Journal} {l : Ledger}
  {frames : List (List (BitVec 8))}

/-! ### One request at a time -/

theorem latency_reset {s : EthDma.Dma} (h : s.Reset) : latency s = 0 := by
  rw [latency, h.txRun, if_neg Bool.false_ne_true, h.cpu, h.txDoneTog]
  rfl

/-- After the resets nothing is left to do. -/
theorem Left.reset {s : Station} (h : s.Reset) : Left cfg p s .empty 0 := by
  have hcarried : Carried cfg p s .empty := Carried.reset h
  obtain ⟨hlen, q, hfeeds, hsent⟩ := hcarried
  obtain ⟨done, hall, hmac, -⟩ := hsent.of_idle h.tx.state
  have hqueue : q.queue = [] := (List.append_eq_nil_iff.mp hall.symm).2
  refine ⟨hlen, q, hfeeds, hsent, _, .between (x := (s.tx, q)) hmac, ?_⟩
  rw [latency_reset h.dma, gapLeft, if_neg (by rw [h.tx.state]; decide), hqueue]
  exact Nat.le_refl 0

/-- **A request adds a frame** to what is left. -/
theorem Left.request {s : Station} (h : Left cfg p s l 0) {i : Bus} {st : Store}
    (htakes : s.takes = true) (he : Careful p s (.sys i st)) :
    Left cfg p (s.step cfg p (.sys i st)) (watch cfg p s (.sys i st) l) (longest cfg + 6) := by
  obtain ⟨hlen, q, hfeeds, hsent, m, howes, hm⟩ := h
  obtain ⟨rfl, -⟩ : m = 0 ∧ latency s.dma = 0 := by omega
  obtain ⟨hmac, hidle, hqueue⟩ := howes.idle
  obtain ⟨hstart, hbusy⟩ : s.core.txStart = true ∧ s.dma.cpu.txBusy = false := by
    simpa [Station.takes] using htakes
  have hn := he.1 htakes
  have hnew : (frameOf s.core.txLen.toNat (EthDma.txByte p (stored st s.dma.mem))).length < 2048 := by
    rw [length_frameOf]
    exact s.core.txLen.isLt
  have hasked : watch cfg p s (.sys i st) l = { l with asked := l.asked ++
      [frameOf s.core.txLen.toNat (EthDma.txByte p (stored st s.dma.mem))] } := if_pos htakes
  rw [hasked]
  refine ⟨fun f hf => ?_, _, hfeeds.request (i := s.core.pulses) hstart hbusy hn st,
    hsent.queued _, _, .between hmac, ?_⟩
  · rcases List.mem_append.mp hf with hf | hf
    · exact hlen f hf
    · rw [List.mem_singleton.mp hf]
      exact ⟨by rwa [length_frameOf], hnew⟩
  · have hlat := latency_le (s.step cfg p (.sys i st)).dma
    have hcost : cost cfg (frameOf s.core.txLen.toNat (EthDma.txByte p (stored st s.dma.mem))) ≤
        longest cfg := cost_le hnew
    change gapLeft cfg s.tx + ((q.queued (frameOf s.core.txLen.toNat
      (EthDma.txByte p (stored st s.dma.mem)))).queue.map (cost cfg)).sum + _ ≤ _
    rw [gapLeft, if_neg (by rw [hidle]; decide), Source.queued, hqueue, List.nil_append,
      List.map_singleton, List.sum_singleton]
    omega

/-! ### The retimer -/

variable {s : EthGmii.Tx} {g : Seen}

/-- A burst process with nothing to do rests, and no frame waits for it. -/
theorem rest_of_todo (h : EthGmii.Inv s g) (htodo : s.todo = 0) : EthGmii.Rest s g none := by
  unfold EthGmii.Tx.todo at htodo
  split_ifs at htodo with htog htog1 hbusy htog2
  rcases h.phase with ⟨w, hr⟩ | ⟨w, f, k, hs⟩
  · obtain rfl := hr.waiting.eq_none (not_not.mp htog) (not_not.mp htog1) (not_not.mp htog2)
    exact hr
  · refine absurd ?_ hbusy
    rw [hs.sending, hs.sendingD, decide_eq_true_iff, decide_eq_true_iff]
    have := hs.pos
    omega

/-- While it rests, an edge of `clk_mac` is clear. -/
theorem clear_of_rest (h : EthGmii.Rest s g none) (i : MacIn) : EthGmii.Clear s i :=
  ⟨fun _ => ⟨h.not_awaited, fun hs => Bool.noConfusion (h.sending.symm.trans hs)⟩,
    fun _ _ => ⟨h.not_awaited, fun hs => Bool.noConfusion (h.sending.symm.trans hs)⟩⟩

/-- And so is one between two frames. -/
theorem clear_of_quiet (h : EthGmii.Capture s []) {i : MacIn} (hi : i.txEn = false) :
    EthGmii.Clear s i := by
  refine ⟨fun hon => Bool.noConfusion (hi.symm.trans hon), fun _ hq => ?_⟩
  exact Bool.noConfusion ((show s.cap.txEnQ = false from h.txEnQ).symm.trans hq)

theorem concat_beginning {α : Type*} {l m : List α} {a : α} (h : l <+: m)
    (ha : m[l.length]? = some a) : l ++ [a] <+: m := by
  obtain ⟨t, rfl⟩ := h
  rw [List.getElem?_append_right (Nat.le_refl _), Nat.sub_self] at ha
  match t, ha with
  | b :: t, ha =>
    obtain rfl : b = a := Option.some.inj ha
    exact ⟨t, by simp⟩

/-- What is out at the PCS are frames that were sent. -/
theorem transmitted_out (h : EthGmii.Inv s g) (hsent : Transmitted cfg frames g.sent) :
    Transmitted cfg frames g.out := by
  obtain ⟨hwhole, hpart⟩ := h.out_prefix
  refine ⟨hwhole.trans hsent.whole, ?_⟩
  by_cases hnil : g.out.part = []
  · exact Or.inl hnil
  · obtain ⟨f, hf, hbeginning⟩ := hpart hnil
    have hnext := concat_beginning hwhole hf
    obtain ⟨f', -, rfl⟩ : ∃ f' ∈ frames, encode cfg f' = f :=
      List.mem_map.mp ((hnext.trans hsent.whole).subset (by simp))
    exact Or.inr ⟨f', hbeginning, hnext.trans hsent.whole⟩

/-- The frames that are through. -/
theorem transmitted_before {b : Bursts (BitVec 8)} {o : Option (BitVec 8)}
    (h : Transmitted cfg frames (b.next o)) : Transmitted cfg frames b := by
  cases o with
  | some d =>
    refine ⟨h.whole, ?_⟩
    rcases h.part with hnil | ⟨f, hf, hnext⟩
    · exact absurd hnil (List.concat_ne_nil d b.part)
    · exact Or.inr ⟨f, (List.prefix_append _ _).trans hf, hnext⟩
  | none =>
    have hall : b.all <+: frames.map (encode cfg) := h.whole
    by_cases hnil : b.part = []
    · exact ⟨Bursts.all_of_nil hnil ▸ hall, Or.inl hnil⟩
    · rw [Bursts.all_of_ne_nil hnil] at hall
      obtain ⟨f, -, hf⟩ : ∃ f ∈ frames, encode cfg f = b.part :=
        List.mem_map.mp (hall.subset (by simp))
      refine ⟨(List.prefix_append _ _).trans hall, Or.inr ⟨f, ?_, ?_⟩⟩
      · rw [hf]
      · rw [hf]
        exact hall

/-- A frame that has begun, or has just ended, is one of those asked for. -/
theorem length_lt_of_begun {b : Bursts (BitVec 8)} {o : Option (BitVec 8)}
    (h : Transmitted cfg frames (b.next o)) (hbegun : b.part ≠ [] ∨ o ≠ none) :
    b.whole.length < frames.length := by
  cases o with
  | some d =>
    obtain ⟨f, -, hnext⟩ := h.part.resolve_left (List.concat_ne_nil d b.part)
    have hle := hnext.length_le
    rw [List.length_append, List.length_singleton, List.length_map] at hle
    exact hle
  | none =>
    have hle := h.whole.length_le
    rw [Bursts.whole_none, Bursts.all_of_ne_nil (hbegun.resolve_right (not_not.mpr rfl)),
      List.length_append, List.length_singleton, List.length_map] at hle
    exact hle

theorem length_part_le {b : Bursts (BitVec 8)} (h : Transmitted cfg frames b)
    (hfits : ∀ f ∈ frames, (encode cfg f).length ≤ 2047) : b.part.length ≤ 2047 := by
  rcases h.part with hnil | ⟨f, hf, hnext⟩
  · rw [hnil]
    exact Nat.zero_le _
  · obtain ⟨f', hf', hsame⟩ : ∃ f' ∈ frames, encode cfg f' = encode cfg f :=
      List.mem_map.mp (hnext.subset (by simp))
    exact hf.length_le.trans (hsame ▸ hfits f' hf')

theorem length_whole_next (b : Bursts (BitVec 8)) (o : Option (BitVec 8)) :
    b.whole.length ≤ (b.next o).whole.length := by
  cases o with
  | some d => exact Nat.le_refl _
  | none =>
    rw [Bursts.whole_none, Bursts.all, List.length_append]
    exact Nat.le_add_right _ _

/-- A resting burst process on an edge of `clk_mac` that ends no frame. -/
theorem rest_mac (h : EthGmii.Rest s g none) (hcap : EthGmii.Capture s g.sent.part) {i : MacIn}
    (hgoes : i.txEn = false → g.sent.part = []) :
    EthGmii.Rest (s.macClk false i) (g.sample i) none := by
  cases hi : i.txEn with
  | true => exact h.write hcap hi rfl
  | false =>
    have hnil := hgoes hi
    have hsame : g.sample i = g := by
      rw [Seen.sample, EthGmii.gmii_off hi, Bursts.next_none_of_nil hnil]
    rw [EthGmii.mac_idle (hnil ▸ hcap) hi, hsame]
    exact h

theorem rest_pcs (h : EthGmii.Rest s g none) :
    EthGmii.Rest (s.pcsClk false) (g.drive (s.pcsClk false)) none := by
  rcases h.pcs with hr | ⟨f, hf, -⟩
  · exact hr
  · cases hf

/-- And on the edges of one time. -/
theorem rest_step {s : Retime} (h : EthGmii.Inv s.tx g) (hr : EthGmii.Rest s.tx g none)
    {e : EthGmii.Edges} (hgoes : ∀ i ∈ e.mac, i.txEn = false → g.sent.part = []) :
    EthGmii.Rest (s.step e).tx (g.next s e) none := by
  rcases e with ⟨pcsRx, pcsTx, _ | i⟩
  · cases pcsTx with
    | false => exact hr
    | true => exact rest_pcs hr
  · cases pcsTx with
    | false => exact rest_mac hr h.capture (hgoes i rfl)
    | true =>
      have htx : (s.step ⟨pcsRx, true, some i⟩).tx = (s.tx.pcsClk false).macClk false i :=
        EthGmii.step_both s.tx i
      have hg : g.next s ⟨pcsRx, true, some i⟩ = (g.drive (s.tx.pcsClk false)).sample i := by
        unfold Seen.next
        rw [htx]
        rfl
      rw [htx, hg]
      exact rest_mac (rest_pcs hr) h.capture.pcs (hgoes i rfl)

/-! ### The invariant -/

/-- What the MAC has not sent is `Left`, at most one frame is not in the buffer, and then the burst
process rests; `pace` says how long all that may still last. -/
structure Board.Sends (cfg : EthMac.Tx.Config) (p : Params) (x : Board) (j : Journal) : Prop where
  left : Left cfg p x.station j.ledger (longest cfg + 6 - j.pace.mac)
  fits : ∀ f ∈ j.ledger.asked, (encode cfg f).length ≤ 2047
  wire : j.ledger.gmii = j.seen.sent.next x.station.tx.gmii
  inv : EthGmii.Inv x.retime.tx j.seen
  near : j.ledger.asked.length ≤ j.seen.sent.whole.length + 1
  rest : j.seen.sent.whole.length < j.ledger.asked.length → EthGmii.Rest x.retime.tx j.seen none
  late : settle cfg ≤ j.pace.mac → j.seen.sent = ⟨j.ledger.asked.map (encode cfg), []⟩
  early : j.pace.mac < settle cfg → j.pace.pcs = 0
  todo : settle cfg ≤ j.pace.mac → x.retime.tx.todo ≤ drain - j.pace.pcs

namespace Board

theorem Sends.ledger (h : Sends cfg p x j) : Transmitted cfg j.ledger.asked j.ledger.gmii := by
  obtain ⟨-, q, -, hsent, -⟩ := h.left
  exact hsent.transmitted

theorem Sends.sent (h : Sends cfg p x j) : Transmitted cfg j.ledger.asked j.seen.sent :=
  transmitted_before (h.wire ▸ h.ledger)

/-- A frame that is not in the buffer has not ended at the MAC either. -/
theorem Sends.begun (h : Sends cfg p x j)
    (hbegun : j.seen.sent.part ≠ [] ∨ x.station.tx.gmii ≠ none) :
    j.seen.sent.whole.length < j.ledger.asked.length :=
  length_lt_of_begun (h.wire ▸ h.ledger) hbegun

theorem gmii_of_off {t : EthMac.Tx} (h : t.gmiiTxEn = false) : t.gmii = none := by
  simp [EthMac.Tx.gmii, h]

/-- **No byte of the MAC meets a burst.** -/
theorem Sends.clear (h : Sends cfg p x j) : EthGmii.Clear x.retime.tx (macIn x.station.tx) := by
  by_cases hbegun : j.seen.sent.part ≠ [] ∨ x.station.tx.gmii ≠ none
  · exact clear_of_rest (h.rest (h.begun hbegun)) _
  · obtain ⟨hpart, hgmii⟩ := not_or.mp hbegun
    have hcap := h.inv.capture
    rw [not_not.mp hpart] at hcap
    refine clear_of_quiet hcap ?_
    change x.station.tx.gmiiTxEn = false
    by_contra hon
    refine hgmii ?_
    rw [EthMac.Tx.gmii, if_pos (by simpa using hon)]
    exact Option.some_ne_none _

theorem mem_edges {pcsRx : Option GmiiIn} {pcsTx mac : Bool} {i : MacIn}
    (hi : i ∈ (x.edges pcsRx pcsTx mac).mac) : mac = true ∧ i = macIn x.station.tx := by
  cases mac with
  | false => cases hi
  | true => exact ⟨rfl, (Option.some.inj hi).symm⟩

/-- What the buffer has seen after an edge of `clk_mac`. -/
theorem sent_next (g : Seen) {r : Retime} (e : EthGmii.Edges) {i : MacIn} (hi : e.mac = some i) :
    (g.next r e).sent = g.sent.next i.gmii := by
  rw [Seen.next, hi]

theorem Sends.sent_mac (h : Sends cfg p x j) (pcsRx : Option GmiiIn) (pcsTx : Bool) :
    (j.seen.next x.retime (x.edges pcsRx pcsTx true)).sent = j.ledger.gmii := by
  rw [sent_next j.seen _ rfl, h.wire]
  rfl

/-- The MAC is quiet once the last frame is in the buffer. -/
theorem Sends.quiet (h : Sends cfg p x j) (hlate : settle cfg ≤ j.pace.mac) :
    j.seen.sent.part = [] ∧ x.station.tx.gmii = none := by
  have hsent := h.late hlate
  by_contra hbegun
  have hlt := h.begun (by
    by_contra hno
    exact hbegun (by simpa [not_or] using hno))
  rw [hsent, List.length_map] at hlt
  exact Nat.lt_irrefl _ hlt

theorem Sends.sent_mono (j : Journal) (pcsRx : Option GmiiIn) (pcsTx mac : Bool) :
    j.seen.sent.whole.length ≤
      (j.seen.next x.retime (x.edges pcsRx pcsTx mac)).sent.whole.length := by
  cases mac with
  | false => exact Nat.le_refl _
  | true =>
    rw [sent_next j.seen _ rfl]
    exact length_whole_next _ _

/-- While a frame is not in the buffer the burst process goes on resting. -/
theorem Sends.rest_net (h : Sends cfg p x j) (pcsRx : Option GmiiIn) (pcsTx mac : Bool)
    (hlt : (j.seen.next x.retime (x.edges pcsRx pcsTx mac)).sent.whole.length <
      j.ledger.asked.length) :
    EthGmii.Rest (x.retime.step (x.edges pcsRx pcsTx mac)).tx
      (j.seen.next x.retime (x.edges pcsRx pcsTx mac)) none := by
  have hrest := h.rest ((sent_mono j pcsRx pcsTx mac).trans_lt hlt)
  refine rest_step h.inv hrest fun i hi hoff => ?_
  obtain ⟨rfl, rfl⟩ := mem_edges hi
  by_contra hpart
  -- the frame that ends would be the last one
  have hends : (j.seen.next x.retime (x.edges pcsRx pcsTx true)).sent.whole =
      j.seen.sent.whole ++ [j.seen.sent.part] := by
    rw [sent_next j.seen _ rfl, EthGmii.gmii_off hoff, Bursts.whole_none, Bursts.all_of_ne_nil hpart]
  have hnear := h.near
  rw [hends, List.length_append, List.length_singleton] at hlt
  omega

theorem gmii_of_on {t : EthMac.Tx} (h : t.gmii = none) : t.gmiiTxEn = false := by
  by_contra hon
  rw [EthMac.Tx.gmii, if_pos (by simpa using hon)] at h
  cases h

/-- Once the last frame is in the buffer each edge of `pcs_tx_clk` is one less. -/
theorem Sends.todo_net (h : Sends cfg p x j) (hlate : settle cfg ≤ j.pace.mac)
    (pcsRx : Option GmiiIn) (pcsTx mac : Bool) :
    (x.retime.step (x.edges pcsRx pcsTx mac)).tx.todo ≤
      drain - (j.pace.next cfg pcsTx mac).pcs := by
  obtain ⟨hpart, hgmii⟩ := h.quiet hlate
  have hcap := h.inv.capture
  rw [hpart] at hcap
  have hquiet : (x.edges pcsRx pcsTx mac).quiet := fun i hi => by
    obtain ⟨-, rfl⟩ := mem_edges hi
    exact gmii_of_on hgmii
  have htodo := h.todo hlate
  rw [EthGmii.quiet_step hcap hquiet]
  cases pcsTx with
  | false => simpa [edges, Pace.next] using htodo
  | true =>
    simp only [edges, Pace.next, if_true, hlate, and_self, h.inv.todo_pcs]
    omega

/-- **The edges of one time.** -/
theorem Sends.net (hmin : (cfg.minFrameLength - 5).toNat < 65536) (hifg : cfg.ifgDelay ≠ 0)
    (hapart : Apart p) (h : Sends cfg p x j) (pcsRx : Option GmiiIn) (pcsTx mac : Bool) :
    Sends cfg p (x.step cfg p (.net pcsRx pcsTx mac))
      (j.next cfg p x (.net pcsRx pcsTx mac)) := by
  have hasked : (j.next cfg p x (.net pcsRx pcsTx mac)).ledger.asked = j.ledger.asked := by
    cases mac <;> rfl
  have hearly : j.pace.mac < settle cfg → (j.pace.next cfg pcsTx mac).pcs = 0 := fun hbefore => by
    change (if pcsTx ∧ settle cfg ≤ j.pace.mac then _ else j.pace.pcs) = 0
    rw [if_neg (fun hno => absurd hno.2 (Nat.not_le.mpr hbefore))]
    exact h.early hbefore
  have hsent : Transmitted cfg j.ledger.asked
      (j.seen.next x.retime (x.edges pcsRx pcsTx mac)).sent := by
    cases mac with
    | false => exact h.sent
    | true =>
      rw [h.sent_mac]
      exact h.ledger
  refine ⟨?_, by rw [hasked]; exact h.fits, ?_, ?_, ?_, ?_, fun hlate => ?_, fun hbefore => ?_,
    fun hlate => ?_⟩
  · cases mac with
    | false => exact h.left
    | true => exact h.left.mac hmin hifg hapart (macGmii x.retime.rx)
  · cases mac with
    | false => exact h.wire
    | true =>
      change j.ledger.gmii.next _ = _
      rw [← h.sent_mac pcsRx pcsTx]
      rfl
  · refine h.inv.step (fun i hi => ?_) (length_part_le hsent h.fits)
    obtain ⟨-, rfl⟩ := mem_edges hi
    exact h.clear
  · rw [hasked]
    exact h.near.trans (Nat.add_le_add_right (sent_mono j pcsRx pcsTx mac) 1)
  · rw [hasked]
    exact h.rest_net pcsRx pcsTx mac
  · rw [hasked]
    cases mac with
    | false => exact h.late hlate
    | true =>
      -- nothing is left, and the last edge has sampled that
      have hnone : longest cfg + 6 - j.pace.mac = 0 := by
        simp only [Journal.next, Pace.next, settle, if_true] at hlate
        omega
      have hleft := h.left
      rw [hnone] at hleft
      obtain ⟨hdone, hpart⟩ := hleft.none
      change (j.seen.next x.retime (x.edges pcsRx pcsTx true)).sent = _
      rw [h.sent_mac, ← hdone, ← hpart]
  · refine hearly (lt_of_le_of_lt ?_ hbefore)
    simp only [Journal.next, Pace.next]
    split_ifs <;> omega
  · by_cases hbefore : settle cfg ≤ j.pace.mac
    · exact h.todo_net hbefore pcsRx pcsTx mac
    · change _ ≤ drain - (j.pace.next cfg pcsTx mac).pcs
      rw [hearly (by omega)]
      exact EthGmii.todo_le _

/-- **An edge of `clk_sys`.** -/
theorem Sends.sys (hpad : EthMac.padding cfg 1 < 2035) (h : Sends cfg p x j) {i : Bus} {st : Store}
    (he : Paced cfg p (x, j) (.sys i st)) :
    Sends cfg p (x.step cfg p (.sys i st)) (j.next cfg p x (.sys i st)) := by
  obtain ⟨hcareful, hpaced⟩ := he
  cases htakes : x.station.takes with
  | false =>
    have hledger : watch cfg p x.station (.sys i st) j.ledger = j.ledger :=
      if_neg (by rw [htakes]; decide)
    have hnext : j.next cfg p x (.sys i st) = j := by
      rw [Journal.next, hledger, if_neg (by rw [htakes]; decide)]
    have hleft := h.left.sys htakes hcareful
    rw [hledger] at hleft
    rw [hnext]
    exact ⟨hleft, h.fits, h.wire, h.inv, h.near, h.rest, h.late, h.early, h.todo⟩
  | true =>
    obtain ⟨hlen, hmac, hpcs⟩ : x.station.core.txLen.toNat ≤ 2035 ∧ settle cfg ≤ j.pace.mac ∧
      drain ≤ j.pace.pcs := hpaced htakes
    have hsent := h.late hmac
    have hrest : EthGmii.Rest x.retime.tx j.seen none := rest_of_todo h.inv (by
      have := h.todo hmac
      omega)
    have hleft := h.left
    rw [Nat.sub_eq_zero_of_le (by unfold settle at hmac; omega)] at hleft
    have hasked : watch cfg p x.station (.sys i st) j.ledger = { j.ledger with asked :=
        j.ledger.asked ++ [frameOf x.station.core.txLen.toNat
          (EthDma.txByte p (stored st x.station.dma.mem))] } := if_pos htakes
    have hnext : j.next cfg p x (.sys i st) =
        ⟨watch cfg p x.station (.sys i st) j.ledger, j.seen, ⟨0, 0⟩⟩ := by
      rw [Journal.next, if_pos htakes]
    rw [hnext]
    refine ⟨hleft.request htakes hcareful, ?_, ?_, h.inv, ?_, fun _ => hrest, fun hlate => ?_,
      fun _ => rfl, fun hlate => ?_⟩
    · rw [hasked]
      intro f hf
      rcases List.mem_append.mp hf with hf | hf
      · exact h.fits f hf
      · rw [List.mem_singleton.mp hf, EthMac.length_encode, EthMac.length_padded, length_frameOf]
        unfold EthMac.padding at hpad ⊢
        split_ifs at hpad ⊢ <;> omega
    · rw [hasked]
      exact h.wire
    · rw [hasked, hsent]
      simp
    · exact absurd hlate (Nat.not_succ_le_zero _)
    · exact absurd hlate (Nat.not_succ_le_zero _)

theorem Sends.step (hmin : (cfg.minFrameLength - 5).toNat < 65536) (hifg : cfg.ifgDelay ≠ 0)
    (hapart : Apart p) (hpad : EthMac.padding cfg 1 < 2035) (h : Sends cfg p x j) {t : Tick}
    (ht : Paced cfg p (x, j) t) : Sends cfg p (x.step cfg p t) (j.next cfg p x t) := by
  cases t with
  | net pcsRx pcsTx mac => exact h.net hmin hifg hapart pcsRx pcsTx mac
  | sys i st => exact h.sys hpad ht

theorem Sends.reset (hx : x.Reset) : Sends cfg p x (.empty cfg) := by
  have hleft : Left cfg p x.station .empty 0 := Left.reset hx.station
  have hgmii : x.station.tx.gmii = none := gmii_of_off hx.station.tx.txEn
  refine ⟨?_, fun f hf => absurd hf List.not_mem_nil, ?_, EthGmii.Inv.reset hx.retime, Nat.zero_le _,
    fun hlt => absurd hlt (Nat.lt_irrefl 0), fun _ => rfl, fun hlt => absurd hlt (Nat.lt_irrefl _),
    fun _ => ?_⟩
  · rw [Journal.empty, Nat.sub_eq_zero_of_le (show longest cfg + 6 ≤ settle cfg from Nat.le_succ _)]
    exact hleft
  · rw [hgmii]
    rfl
  · have hzero : x.retime.tx.todo = 0 := by
      have hr := hx.retime
      simp [EthGmii.Tx.todo, hr.txCap, hr.txTogS1, hr.txTogS2, hr.txDoneTog, hr.sending, hr.sendingD]
    rw [hzero]
    exact Nat.zero_le _

theorem Sends.run (hmin : (cfg.minFrameLength - 5).toNat < 65536) (hifg : cfg.ifgDelay ≠ 0)
    (hapart : Apart p) (hpad : EthMac.padding cfg 1 < 2035) (hx : x.Reset) {ts : List Tick}
    (hts : Run.Along (journalStep cfg p) (Paced cfg p) (x, .empty cfg) ts) :
    Sends cfg p (ts.foldl (journalStep cfg p) (x, .empty cfg)).1
      (ts.foldl (journalStep cfg p) (x, .empty cfg)).2 :=
  Run.foldl_inv (fun y => Sends cfg p y.1 y.2) (fun _ _ h ht => h.step hmin hifg hapart hpad ht) ts
    (x, .empty cfg) hts (Sends.reset hx)

end Board

/-- The board with its journal, after a run. -/
def journal (cfg : EthMac.Tx.Config) (p : Params) (x : Board) (ts : List Tick) : Board × Journal :=
  ts.foldl (journalStep cfg p) (x, .empty cfg)

/-- **What a patient CPU asks for is what the PCS gets.** In a run from reset in which each request
leaves the one before its time, the bursts on `pcs_txd` are the frames of the requests, each with
preamble, padding and check, in order and whole; and when the last request has had its time they are
all of them. -/
theorem board_transmits (hmin : (cfg.minFrameLength - 5).toNat < 65536) (hifg : cfg.ifgDelay ≠ 0)
    (hapart : Apart p) (hpad : EthMac.padding cfg 1 < 2035) (hx : x.Reset) {ts : List Tick}
    (hts : Run.Along (journalStep cfg p) (Paced cfg p) (x, .empty cfg) ts) :
    Transmitted cfg (journal cfg p x ts).2.ledger.asked (journal cfg p x ts).2.seen.out ∧
      ((journal cfg p x ts).2.pace.Done cfg → (journal cfg p x ts).2.seen.out.all =
        (journal cfg p x ts).2.ledger.asked.map (encode cfg)) := by
  have h : Board.Sends cfg p (journal cfg p x ts).1 (journal cfg p x ts).2 :=
    Board.Sends.run hmin hifg hapart hpad hx hts
  refine ⟨transmitted_out h.inv h.sent, fun hdone => ?_⟩
  have hrest := rest_of_todo h.inv (by
    have := h.todo hdone.1
    have := hdone.2
    omega)
  have hframes := hrest.frames
  rw [h.late hdone.1] at hframes
  simpa using hframes.symm

/-- Edges of the PCS and of `clk_mac`, both at one time. -/
def bothQuiet (k : ℕ) : List Tick := List.replicate k (.net none true true)

/-- A request of two bytes, until the last byte is on `pcs_txd`. -/
def twoBytesOut : List Tick :=
  [.sys .idle ⟨0xF, 1536, 0x0201⟩, .sys (.write 0x04000008 2) .none, .sys .idle .none] ++
    bothQuiet 45

theorem board_transmits_two :
    (journal ⟨false, 64, 2⟩ board .afterReset twoBytesOut).2.seen.out.whole =
        [encode ⟨false, 64, 2⟩ [1, 2]] ∧
      Transmitted ⟨false, 64, 2⟩ (journal ⟨false, 64, 2⟩ board .afterReset twoBytesOut).2.ledger.asked
        (journal ⟨false, 64, 2⟩ board .afterReset twoBytesOut).2.seen.out :=
  ⟨by decide +kernel, (board_transmits (by decide) (by decide) apart_board (by decide)
    Board.reset_afterReset (by decide +kernel)).1⟩

end Ethmin
end Xc7Tools
