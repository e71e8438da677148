/-
# ethmin: from the PCS to the DMA

A frame on `pcs_rxd` is captured by the retimer, replayed to the MAC, taken
apart by it and accepted by the DMA, from behind the delimiter on. `rx_er` is
lost on the way, since the retimer does not keep it, and so is the MAC's verdict
on the check.

The run of the board is one of the retimer and one of the station, on the edges
each of them sees (`retimeEdges`, `stationEdges`).

Frames that leave each other their time (`EthGmii.Spaced`) all arrive, if the
window is kept open.

Key definitions: `stationEdges`, `retimeEdges`, `wire`, `handed`.
Key theorems: `run_station`, `run_retime`, `watch_wire`, `board_receives`, `board_delivers`.
-/
import Xc7Tools.EthGmii.Spaced
import Xc7Tools.Ethmin.Board
import Xc7Tools.Ethmin.Receive

namespace Xc7Tools
namespace Ethmin

open EthDma (Params)
open EthGmii (Retime GmiiIn Heard Gap Free gapStep Spaced SpacedRun spaced)
open EthMac (Segment bytes byteOf behindSfd Formed Carries)
open EthMac.Rx (Gmii)

variable {cfg : EthMac.Tx.Config} {p : Params} {x : Board}

/-! ### The two halves of a run -/

/-- What an edge of the board is for the station. -/
def Board.fed (x : Board) : Tick → List Edge
  | .net _ _ mac => if mac then [.mac (macGmii x.retime.rx)] else []
  | .sys i st => [.sys i st]

/-- And for the retimer. -/
def Board.passed (x : Board) : Tick → List EthGmii.Edges
  | .net pcsRx pcsTx mac => [x.edges pcsRx pcsTx mac]
  | .sys _ _ => []

def stationEdges (cfg : EthMac.Tx.Config) (p : Params) : Board → List Tick → List Edge
  | _, [] => []
  | x, t :: ts => x.fed t ++ stationEdges cfg p (x.step cfg p t) ts

def retimeEdges (cfg : EthMac.Tx.Config) (p : Params) : Board → List Tick → List EthGmii.Edges
  | _, [] => []
  | x, t :: ts => x.passed t ++ retimeEdges cfg p (x.step cfg p t) ts

/-- The board after a run. -/
def Board.run (cfg : EthMac.Tx.Config) (p : Params) (x : Board) (ts : List Tick) : Board :=
  ts.foldl (Board.step cfg p) x

theorem fed_step (t : Tick) : (x.fed t).foldl (Station.step cfg p) x.station =
    (x.step cfg p t).station := by
  rcases t with ⟨pcsRx, pcsTx, mac⟩ | ⟨i, st⟩
  · cases mac <;> rfl
  · rfl

theorem passed_step (t : Tick) : x.retime.run (x.passed t) = (x.step cfg p t).retime := by
  rcases t with ⟨pcsRx, pcsTx, mac⟩ | ⟨i, st⟩ <;> rfl

/-- **The station runs on its edges alone**, -/
theorem run_station : ∀ (ts : List Tick) (x : Board),
    (x.run cfg p ts).station = (stationEdges cfg p x ts).foldl (Station.step cfg p) x.station
  | [], _ => rfl
  | t :: ts, x => by
    rw [stationEdges, List.foldl_append, fed_step]
    exact run_station ts (x.step cfg p t)

/-- and so does the retimer. -/
theorem run_retime : ∀ (ts : List Tick) (x : Board),
    (x.run cfg p ts).retime = x.retime.run (retimeEdges cfg p x ts)
  | [], _ => rfl
  | t :: ts, x => by
    rw [retimeEdges, Retime.run, List.foldl_append]
    change _ = Retime.run (x.retime.run (x.passed t)) _
    rw [passed_step]
    exact run_retime ts (x.step cfg p t)

/-! ### The GMII between them -/

/-- What the MAC has sampled, and what it samples next. -/
def wire (cfg : EthMac.Tx.Config) (p : Params) (x : Board) (ts : List Tick) : List Gmii :=
  macSymbols (stationEdges cfg p x ts) ++ [macGmii (x.run cfg p ts).retime.rx]

theorem byteOf_macGmii (r : EthGmii.Rx) : byteOf (macGmii r) = r.gmii := rfl

/-- Without an edge of `clk_mac` the retimer drives what it has driven. -/
theorem macGmii_still (r : Retime) (pcsRx : Option GmiiIn) (pcsTx : Bool) :
    macGmii (r.step ⟨pcsRx, pcsTx, none⟩).rx = macGmii r.rx := by
  cases pcsRx with
  | none => rfl
  | some i =>
    change macGmii (r.rx.pcsClk false r.rx.replay.busy i) = macGmii r.rx
    unfold macGmii EthGmii.PktBuf.rdData
    rw [EthGmii.Rx.pcsClk, EthGmii.PktBuf.clk_rdQ]

/-- The bursts that the retimer drives are those of the MAC's symbols. -/
theorem foldl_wire : ∀ (ts : List Tick) (x : Board) (b : Bursts (BitVec 8)) (g : Heard),
    g.out = b.next x.retime.rx.gmii →
      (wire cfg p x ts).foldl (fun b y => b.next (byteOf y)) b =
        (Heard.watch x.retime g (retimeEdges cfg p x ts)).out
  | [], x, b, g, hg => hg.symm
  | .sys i st :: ts, x, b, g, hg => foldl_wire ts (x.step cfg p (.sys i st)) b g hg
  | .net pcsRx pcsTx true :: ts, x, b, g, hg => by
    have ih := foldl_wire ts (x.step cfg p (.net pcsRx pcsTx true)) g.out
      (g.next x.retime (x.edges pcsRx pcsTx true)) (by cases pcsRx <;> rfl)
    rw [hg] at ih
    exact ih
  | .net pcsRx pcsTx false :: ts, x, b, g, hg => by
    refine foldl_wire ts (x.step cfg p (.net pcsRx pcsTx false)) b
      (g.next x.retime (x.edges pcsRx pcsTx false)) ?_
    have hsame : (x.step cfg p (.net pcsRx pcsTx false)).retime.rx.gmii = x.retime.rx.gmii :=
      congrArg byteOf (macGmii_still x.retime pcsRx pcsTx)
    rw [hsame, ← hg]
    cases pcsRx <;> rfl

/-- What has been seen of the retimer in a run. -/
def heard (cfg : EthMac.Tx.Config) (p : Params) (x : Board) (ts : List Tick) : Heard :=
  Heard.watch x.retime .empty (retimeEdges cfg p x ts)

/-- What the station has been handed. -/
def handed (cfg : EthMac.Tx.Config) (p : Params) (x : Board) (ts : List Tick) :
    List (List (BitVec 8)) :=
  (received cfg p x.station (stationEdges cfg p x ts)).2.handed

theorem watch_wire (hx : x.Reset) (ts : List Tick) :
    Bursts.watch byteOf (wire cfg p x ts) = (heard cfg p x ts).out := by
  have hgmii : x.retime.rx.gmii = none := by
    rw [EthGmii.Rx.gmii, hx.retime.replay]
    rfl
  exact foldl_wire ts x .empty .empty (by rw [hgmii]; rfl)

theorem macSymbols_noError : ∀ (ts : List Tick) (x : Board),
    ∀ g ∈ macSymbols (stationEdges cfg p x ts), g.rxEr = false
  | [], _, g, hg => absurd hg List.not_mem_nil
  | .sys i st :: ts, x, g, hg => macSymbols_noError ts (x.step cfg p (.sys i st)) g hg
  | .net pcsRx pcsTx false :: ts, x, g, hg =>
    macSymbols_noError ts (x.step cfg p (.net pcsRx pcsTx false)) g hg
  | .net pcsRx pcsTx true :: ts, x, g, hg => by
    rcases List.mem_cons.mp hg with rfl | hg
    · rfl
    · exact macSymbols_noError ts (x.step cfg p (.net pcsRx pcsTx true)) g hg

theorem wire_noError (ts : List Tick) (x : Board) : ∀ g ∈ wire cfg p x ts, g.rxEr = false :=
  fun g hg => by
    rcases List.mem_append.mp hg with hg | hg
    · exact macSymbols_noError ts x g hg
    · rw [List.mem_singleton.mp hg]
      rfl

/-! ### The frames the DMA accepts -/

theorem whole_carries {us : List Segment} {fs : List (List (BitVec 8))} (h : Carries us fs) :
    whole us = fs.map behindSfd := by
  induction h with
  | nil => rfl
  | @cons u f us fs hhead _ ih =>
    obtain ⟨hf, gap, low, rfl, -⟩ := hhead
    rw [List.map_cons, ← ih, whole, whole, List.filter_cons_of_pos (by rw [EthMac.rest_segment]; rfl),
      List.map_cons, EthMac.body_segment hf, EthMac.bytes_symbolOf]

/-- **What the DMA accepts are frames of the PCS**, in order and none twice, each from behind its
delimiter on: in a run in which the retimer's captures are clear, and if the frames of the PCS have
a delimiter and five bytes behind it. -/
theorem board_receives (hx : x.Reset) {ts : List Tick}
    (hclear : EthGmii.RxClearRun x.retime .empty (retimeEdges cfg p x ts))
    (hformed : ∀ f ∈ (heard cfg p x ts).received.whole, Formed f) :
    (handed cfg p x ts).Sublist ((heard cfg p x ts).received.whole.map behindSfd) := by
  obtain ⟨hkept, hout, hpart⟩ : EthGmii.RxRetimed x.retime (retimeEdges cfg p x ts) :=
    EthGmii.rx_retimed hx.retime hclear
  -- the bursts that are over and the one in progress, as far as it will go
  obtain ⟨fs, hfs, hsub⟩ : ∃ fs, ((heard cfg p x ts).out.part = [] ∧
      fs = (heard cfg p x ts).out.whole ∨ ∃ f, (heard cfg p x ts).out.part <+: f ∧
        fs = (heard cfg p x ts).out.whole ++ [f]) ∧ fs.Sublist (heard cfg p x ts).kept := by
    by_cases hnil : (heard cfg p x ts).out.part = []
    · exact ⟨_, Or.inl ⟨hnil, rfl⟩, hout⟩
    · obtain ⟨f, hf, hsub⟩ := hpart hnil
      exact ⟨_, Or.inr ⟨f, hf, rfl⟩, hsub⟩
  have hreceived := hsub.trans hkept
  rw [← watch_wire hx] at hfs
  obtain ⟨us, noise, hstream, hcarries, hnoise, hlong⟩ :=
    EthMac.completed (wire_noError ts x) (fun f hf => hformed f (hreceived.subset hf)) hfs
  have hbeginning := (List.prefix_append _ _).trans hstream
  have hsublist : (handed cfg p x ts).Sublist (whole us) := handed_sublist hx.station hcarries.ok
    (fun g hg => EthMac.not_isSfd (hnoise g hg)) hlong hbeginning
  rw [whole_carries hcarries] at hsublist
  exact hsublist.trans (hreceived.map behindSfd)

/-- An edge of `pcs_rx_clk` with a byte, one without, and edges of `clk_mac`. -/
def pcsByte (d : BitVec 8) : Tick := .net (some ⟨d, true, false⟩) false false

def pcsLow : Tick := .net (some ⟨0, false, false⟩) false false

def macOnly (k : ℕ) : List Tick := List.replicate k (.net none false true)

/-- A frame of one byte with a check. -/
def shortFrame : List Tick :=
  [pcsLow, pcsLow] ++ [EthMac.ethSfd, 1, 2, 3, 4, 5].map pcsByte ++ [pcsLow] ++ macOnly 18

theorem board_receives_short :
    handed EthMac.Tx.board board .afterReset shortFrame = [[1, 2, 3, 4, 5]] ∧
      (handed EthMac.Tx.board board .afterReset shortFrame).Sublist
        ((heard EthMac.Tx.board board .afterReset shortFrame).received.whole.map behindSfd) :=
  ⟨by decide +kernel, board_receives Board.reset_afterReset (by decide +kernel) (by decide +kernel)⟩

/-! ### Frames with time between them -/

/-- The next symbol is what the retimer drives. -/
theorem wire_eq : ∀ (ts : List Tick) (x : Board),
    wire cfg p x ts = macGmii x.retime.rx :: (wire cfg p x ts).tail
  | [], _ => rfl
  | .sys i st :: ts, x => wire_eq ts (x.step cfg p (.sys i st))
  | .net _ _ true :: _, _ => rfl
  | .net pcsRx pcsTx false :: ts, x => by
    have ih := wire_eq ts (x.step cfg p (.net pcsRx pcsTx false))
    have hsame : macGmii (x.step cfg p (.net pcsRx pcsTx false)).retime.rx = macGmii x.retime.rx :=
      macGmii_still x.retime pcsRx pcsTx
    rw [hsame] at ih
    exact ih

theorem gap_next_none {g : Heard} {t : Gap} {e : EthGmii.Edges} (he : e.mac = none) {k : ℕ}
    (h : t.mac ≤ t.need + k) : (t.next g e).mac ≤ (t.next g e).need + k := by
  rw [Gap.next, he]
  by_cases hends : e.pcsRx.any g.ends = true
  · rw [if_pos hends]
    exact Nat.zero_le _
  · rw [if_neg hends]
    exact h

theorem gmii_ready {r : EthGmii.Rx} {g : Heard} {w : Option (List (BitVec 8))}
    (h : EthGmii.Ready r g w) : byteOf (macGmii r) = none := by
  rw [byteOf_macGmii, EthGmii.Rx.gmii, h.replayingD]
  rfl

/-- Past the time a frame needs, what the MAC samples is quiet. -/
theorem exists_quiet : ∀ (ts : List Tick) (x : Board) (g : Heard) (t : Gap) (pre quiet : List Gmii),
    Free x.retime.rx g t → Run.Along gapStep Spaced (x.retime, g, t) (retimeEdges cfg p x ts) →
      (∀ y ∈ quiet, byteOf y = none) → t.mac ≤ t.need + quiet.length →
        ∃ pre' quiet', pre ++ quiet ++ (wire cfg p x ts).tail = pre' ++ quiet' ∧
          (∀ y ∈ quiet', byteOf y = none) ∧
          ((retimeEdges cfg p x ts).foldl gapStep (x.retime, g, t)).2.2.mac ≤
            ((retimeEdges cfg p x ts).foldl gapStep (x.retime, g, t)).2.2.need + quiet'.length
  | [], x, g, t, pre, quiet, _, _, hquiet, hle => ⟨pre, quiet, List.append_nil _, hquiet, hle⟩
  | .sys i st :: ts, x, g, t, pre, quiet, hfree, hes, hquiet, hle =>
    exists_quiet ts (x.step cfg p (.sys i st)) g t pre quiet hfree hes hquiet hle
  | .net pcsRx pcsTx false :: ts, x, g, t, pre, quiet, hfree, hes, hquiet, hle =>
    exists_quiet ts (x.step cfg p (.net pcsRx pcsTx false)) _ _ pre quiet (hfree.step hes.1) hes.2
      hquiet (gap_next_none rfl hle)
  | .net pcsRx pcsTx true :: ts, x, g, t, pre, quiet, hfree, hes, hquiet, hle => by
    have hfree' := hfree.step hes.1
    have hwire : (wire cfg p x (.net pcsRx pcsTx true :: ts)).tail =
        macGmii (x.step cfg p (.net pcsRx pcsTx true)).retime.rx ::
          (wire cfg p (x.step cfg p (.net pcsRx pcsTx true)) ts).tail := by
      rw [← wire_eq]
      rfl
    rw [hwire]
    by_cases htime : t.need ≤ t.mac ∧ (x.edges pcsRx pcsTx true).pcsRx.any g.ends = false
    · -- the replay is over, and the symbol is quiet
      have hnext : (t.next g (x.edges pcsRx pcsTx true)).mac = t.mac + 1 ∧
          (t.next g (x.edges pcsRx pcsTx true)).need = t.need := by
        rw [Gap.next, htime.2, if_neg Bool.false_ne_true]
        exact ⟨rfl, rfl⟩
      have hready := (hfree'.over (by rw [hnext.1, hnext.2]; exact htime.1.trans (Nat.le_succ _))).1
      obtain ⟨pre', quiet', hsplit, hrest⟩ := exists_quiet ts
        (x.step cfg p (.net pcsRx pcsTx true)) _ _ pre
        (quiet ++ [macGmii (x.step cfg p (.net pcsRx pcsTx true)).retime.rx]) hfree' hes.2
        (fun y hy => (List.mem_append.mp hy).elim (hquiet y) fun hy => by
          rw [List.mem_singleton.mp hy]
          exact gmii_ready hready)
        (by rw [hnext.1, hnext.2, List.length_append, List.length_singleton]; omega)
      exact ⟨pre', quiet', by rw [← hsplit]; simp, hrest⟩
    · -- the time is not over yet, or begins anew
      have hnext : (t.next g (x.edges pcsRx pcsTx true)).mac ≤
          (t.next g (x.edges pcsRx pcsTx true)).need := by
        rw [Gap.next]
        by_cases hends : (x.edges pcsRx pcsTx true).pcsRx.any g.ends = true
        · rw [if_pos hends]
          exact Nat.zero_le _
        · rw [if_neg hends]
          exact Nat.not_le.mp fun hno => htime ⟨hno, by simpa using hends⟩
      obtain ⟨pre', quiet', hsplit, hrest⟩ := exists_quiet ts
        (x.step cfg p (.net pcsRx pcsTx true)) _ _
        (pre ++ quiet ++ [macGmii (x.step cfg p (.net pcsRx pcsTx true)).retime.rx]) [] hfree' hes.2
        (fun y hy => absurd hy List.not_mem_nil) hnext
      exact ⟨pre', quiet', by rw [← hsplit]; simp, hrest⟩

/-- **No frame that is in time is lost on its way to the DMA**: when the frames of the PCS leave each
other their time, each has a delimiter and five bytes behind it, and each byte finds the window free
and no transmission, the DMA accepts all of them, in order, some edges after the last one. -/
theorem board_delivers (hx : x.Reset) {ts : List Tick}
    (hspaced : SpacedRun x.retime (retimeEdges cfg p x ts))
    (hformed : ∀ f ∈ (heard cfg p x ts).received.whole, Formed f)
    (hopen : OpenRun cfg p x.station (stationEdges cfg p x ts))
    (hlong : (spaced x.retime (retimeEdges cfg p x ts)).2.2.need + 8 ≤
      (spaced x.retime (retimeEdges cfg p x ts)).2.2.mac) :
    handed cfg p x ts = (heard cfg p x ts).received.whole.map behindSfd := by
  obtain ⟨-, -, hall⟩ := EthGmii.rx_spaced hx.retime hspaced
  have hheard : (spaced x.retime (retimeEdges cfg p x ts)).2.1 = heard cfg p x ts :=
    (EthGmii.foldl_gapStep _ _ _ _).2
  have hout := hall (by omega)
  rw [hheard] at hout
  have hidle : byteOf (macGmii x.retime.rx) = none := by
    rw [byteOf_macGmii, EthGmii.Rx.gmii, hx.retime.replay]
    rfl
  obtain ⟨pre, quiet, hsplit, hquiet, hle⟩ := exists_quiet ts x .empty .start []
    [macGmii x.retime.rx] (Free.reset hx.retime) hspaced
    (fun y hy => by rw [List.mem_singleton.mp hy]; exact hidle) (Nat.zero_le _)
  rw [List.nil_append, List.singleton_append, ← wire_eq] at hsplit
  have height : 8 ≤ quiet.length := by
    change (spaced x.retime (retimeEdges cfg p x ts)).2.2.mac ≤
      (spaced x.retime (retimeEdges cfg p x ts)).2.2.need + _ at hle
    omega
  obtain ⟨q, quiet, rfl⟩ := List.exists_cons_of_ne_nil
    (List.ne_nil_of_length_pos (l := quiet) (by omega))
  have hq : byteOf q = none := hquiet q (List.mem_cons_self ..)
  have hquiet' : ∀ y ∈ quiet, byteOf y = none := fun y hy => hquiet y (List.mem_cons_of_mem q hy)
  rw [← List.singleton_append, ← List.append_assoc] at hsplit
  -- up to the first quiet symbol all bursts are over
  have hpart : (Bursts.watch byteOf (pre ++ [q])).part = [] := by
    rw [Bursts.watch_concat, hq]
    rfl
  have hwhole : (Bursts.watch byteOf (pre ++ [q])).whole = (heard cfg p x ts).received.whole := by
    rw [← Bursts.watch_quiet byteOf hpart hquiet', ← hsplit, watch_wire hx, hout]
  obtain ⟨segs, gap, cur, hlist, hsegs, hgap, hcur⟩ := Bursts.exists_stretches byteOf (pre ++ [q])
  have hcur' : cur = [] := by simpa [hpart] using hcur
  rw [hwhole] at hsegs
  rw [hcur', List.append_nil] at hlist
  obtain ⟨us, hsymbols, hcarries⟩ := EthMac.exists_segments hsegs hformed fun y hy =>
    wire_noError ts x y (by rw [hsplit, hlist]; simp [hy])
  have hmac : macSymbols (stationEdges cfg p x ts) =
      us.flatMap Segment.symbols ++ (gap ++ quiet.dropLast) := by
    have hdrop := congrArg List.dropLast hsplit
    rw [wire, List.dropLast_concat, hlist, hsymbols] at hdrop
    rw [hdrop, List.dropLast_append_of_ne_nil, List.append_assoc]
    exact List.ne_nil_of_length_pos (by rw [List.length_cons] at height; omega)
  have hnoise : ∀ y ∈ gap ++ quiet.dropLast, y.isSfd = false := fun y hy =>
    EthMac.not_isSfd ((List.mem_append.mp hy).elim (hgap y)
      fun hy => hquiet' y (List.mem_of_mem_dropLast hy))
  rw [handed, (frames_handed hx.station hcarries.ok hnoise (by
    rw [List.length_append, List.length_dropLast]
    rw [List.length_cons] at height
    omega) (by rw [hmac])).2 hmac hopen, whole_carries hcarries]

theorem board_delivers_short :
    handed EthMac.Tx.board board .afterReset shortFrame =
      (heard EthMac.Tx.board board .afterReset shortFrame).received.whole.map behindSfd :=
  board_delivers Board.reset_afterReset (by decide +kernel) (by decide +kernel) (by decide +kernel)
    (by decide +kernel)

end Ethmin
end Xc7Tools
