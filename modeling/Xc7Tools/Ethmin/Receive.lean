/-
# ethmin: what the DMA takes of the GMII

The MAC's receiver puts its verdict on a frame, `tuser`, on the last byte
before the check, four beats before `tlast`; the DMA reads `tuser` with `tlast`
only. So the frames the DMA hands over are those without an error signalled
before the check, with a right check or a wrong one. Of these it misses the
ones that find the window taken or a transmission running, and no others.
What the window holds of a frame is another matter (`frame_shown`).

`Inbox` watches the run of a station for the beats the DMA has seen and the
frames it has handed over, and `packed` says which frames some beats are.

Key definitions: `packed`, `Inbox`, `Open`, `RxClear`.
Key theorems: `packed_deliver`, `taken_beats`, `frames_handed`, `Inbox.Kept.step`, `frame_shown`.
-/
import Xc7Tools.EthMac.Link
import Xc7Tools.Ethmin.Transmit

namespace Xc7Tools
namespace Ethmin

open EthDma (Dma Mem Params CpuIn EthIn Seen)
open EthMac (Beat Rx Segment bytes deliver heard plain)
open EthMac.Rx (Gmii)

/-! ### The frames of a stream of beats -/

/-- The frames that are over, but for those whose last beat has `tuser`, and the one in progress. -/
structure Packed where
  frames : List (List (BitVec 8))
  cur : List (BitVec 8)
  deriving DecidableEq

/-- A beat, as the DMA reads it. -/
def Packed.next (k : Packed) (b : Beat) : Packed :=
  if b.tlast then
    ⟨if b.tuser then k.frames else k.frames ++ [k.cur ++ [b.tdata]], []⟩
  else { k with cur := k.cur ++ [b.tdata] }

def packed (bs : List Beat) : Packed := bs.foldl Packed.next ⟨[], []⟩

theorem packed_append (bs cs : List Beat) : packed (bs ++ cs) = cs.foldl Packed.next (packed bs) :=
  List.foldl_append

theorem packed_concat (bs : List Beat) (b : Beat) : packed (bs ++ [b]) = (packed bs).next b := by
  rw [packed_append]
  rfl

/-- Frames that are over stay so. -/
theorem frames_next (k : Packed) (b : Beat) : k.frames <+: (k.next b).frames := by
  unfold Packed.next
  split_ifs
  · exact List.prefix_refl _
  · exact List.prefix_append _ _
  · exact List.prefix_refl _

theorem frames_mono {bs cs : List Beat} (h : bs <+: cs) :
    (packed bs).frames <+: (packed cs).frames := by
  obtain ⟨ds, rfl⟩ := h
  induction ds using List.reverseRecOn with
  | nil => rw [List.append_nil]
  | append_singleton ds d ih =>
    rw [← List.append_assoc, packed_concat]
    exact ih.trans (frames_next _ d)

/-- Beats that end no frame. -/
theorem foldl_next_mid : ∀ {bs : List Beat} (k : Packed), (∀ b ∈ bs, b.tlast = false) →
    bs.foldl Packed.next k = { k with cur := k.cur ++ bs.map (·.tdata) }
  | [], k, _ => by simp
  | b :: bs, k, h => by
    have hb : k.next b = { k with cur := k.cur ++ [b.tdata] } := by
      simp [Packed.next, h b (List.mem_cons_self ..)]
    rw [List.foldl_cons, hb, foldl_next_mid _ fun c hc => h c (List.mem_cons_of_mem b hc)]
    simp

/-- The frames without an error before their checks. -/
def whole (ts : List Segment) : List (List (BitVec 8)) :=
  (ts.filter fun t => t.rest.isEmpty).map fun t => bytes t.body

/-- **A frame of the GMII is one frame of the DMA**, whatever its check. -/
theorem foldl_deliver {t : Segment} (ht : t.payload ≠ []) (fs : List (List (BitVec 8))) :
    (deliver t).foldl Packed.next ⟨fs, []⟩ = ⟨fs ++ whole [t], []⟩ := by
  cases hrest : t.rest with
  | cons x zs =>
    have hmid : ∀ b ∈ t.clean.map plain, b.tlast = false := fun b hb => by
      obtain ⟨g, -, rfl⟩ := List.mem_map.mp hb
      rfl
    rw [deliver, hrest]
    simp only [List.foldl_append, foldl_next_mid _ hmid]
    simp [Packed.next, whole, hrest]
  | nil =>
    obtain ⟨ps, y, hps⟩ := (List.eq_nil_or_concat t.payload).resolve_left ht
    rw [List.concat_eq_append] at hps
    rw [EthMac.deliver_whole hrest hps]
    have hmid : ∀ b ∈ ps.map plain ++ [⟨y.rxd, false, t.bad, none⟩] ++
        [t.check.1, t.check.2.1, t.check.2.2.1].map plain, b.tlast = false := by
      intro b hb
      simp only [List.mem_append, List.mem_map, List.mem_singleton] at hb
      rcases hb with (⟨g, -, rfl⟩ | rfl) | ⟨g, -, rfl⟩ <;> rfl
    rw [List.foldl_append, foldl_next_mid _ hmid]
    simp [Packed.next, whole, hrest, Segment.body, Segment.fcs, hps, bytes, plain]

theorem packed_deliver {ts : List Segment} (hts : ∀ t ∈ ts, t.payload ≠ []) :
    packed (ts.flatMap deliver) = ⟨whole ts, []⟩ := by
  induction ts using List.reverseRecOn with
  | nil => rfl
  | append_singleton ts t ih =>
    rw [List.flatMap_append, packed_append, ih fun u hu => hts u (List.mem_append_left _ hu),
      List.flatMap_singleton, foldl_deliver (hts t (by simp))]
    simp only [whole, ← List.map_append, ← List.filter_append]

/-! ### What the DMA has seen -/

/-- The beats the DMA has seen, the frames it has handed over, and its view of the stream. -/
structure Inbox where
  beats : List Beat
  handed : List (List (BitVec 8))
  seen : Seen

def Inbox.empty : Inbox := ⟨[], [], ⟨[], none, false⟩⟩

variable {cfg : EthMac.Tx.Config} {p : Params} {x : Station} {b : Inbox}

/-- The edges of `clk_mac` see the receiver's registers. -/
def receive (p : Params) (x : Station) (e : Edge) (b : Inbox) : Inbox :=
  match e with
  | .mac _ =>
    { beats := b.beats ++ x.rx.beat
      handed := if x.dma.rx.handsOver x.dma.tx.txRun x.ethIn then
          b.handed ++ [b.seen.cur ++ [x.rx.mAxis.tdata]]
        else b.handed
      seen := b.seen.next p x.dma (.eth x.ethIn) }
  | .sys _ _ => b

/-- A beat finds the window free, and no transmission. -/
def Open (x : Station) : Edge → Prop
  | .mac _ => x.rx.mAxis.tvalid = true → x.dma.rx.windowFree = true ∧ x.dma.tx.txRun = false
  | .sys _ _ => True

instance (x : Station) : ∀ e : Edge, Decidable (Open x e)
  | .mac _ => inferInstanceAs (Decidable (_ → _))
  | .sys _ _ => isTrue trivial

/-- What has been handed over are frames of the beats, in order. -/
structure Inbox.Sound (b : Inbox) : Prop where
  cur : b.seen.cur = (packed b.beats).cur
  handed : b.handed.Sublist (packed b.beats).frames

/-- And, if the window has been open, all of them. -/
structure Inbox.Full (x : Station) (b : Inbox) : Prop where
  clean : x.dma.rx.rxPoison = false
  handed : b.handed = (packed b.beats).frames

theorem beat_rest (hv : x.rx.mAxis.tvalid = false) : x.rx.beat = [] := by
  simp [EthMac.Rx.beat, hv]

/-- The beat of the registers. -/
def beatOf (r : Rx) : Beat :=
  ⟨r.mAxis.tdata, r.mAxis.tlast, r.mAxis.tuser, if r.mAxis.tlast then some r.fcs else none⟩

theorem beat_valid (hv : x.rx.mAxis.tvalid = true) : x.rx.beat = [beatOf x.rx] := by
  simp [EthMac.Rx.beat, hv, beatOf]

theorem not_handsOver {i : EthIn} {r : Bool} {s : EthDma.Rx}
    (h : i.rxTvalid = false ∨ i.rxTlast = false ∨ i.rxTuser = true) : s.handsOver r i = false := by
  rcases h with h | h | h <;> simp [EthDma.Rx.handsOver, h]

theorem Inbox.Sound.step (h : b.Sound) (e : Edge) : (receive p x e b).Sound := by
  cases e with
  | sys i st => exact h
  | mac g =>
    cases hv : x.rx.mAxis.tvalid with
    | false =>
      have hno : x.dma.rx.handsOver x.dma.tx.txRun x.ethIn = false := not_handsOver (Or.inl hv)
      have hseen : b.seen.next p x.dma (.eth x.ethIn) = b.seen := by
        simp [Seen.next, Station.ethIn, hv]
      simp only [receive, beat_rest hv, List.append_nil, hno, Bool.false_eq_true, if_false, hseen]
      exact h
    | true =>
      simp only [receive, beat_valid hv]
      cases hl : x.rx.mAxis.tlast with
      | false =>
        have hno : x.dma.rx.handsOver x.dma.tx.txRun x.ethIn = false :=
          not_handsOver (Or.inr (Or.inl hl))
        refine ⟨?_, ?_⟩
        · simp [Seen.next, Station.ethIn, hv, hl, packed_concat, Packed.next, beatOf, h.cur]
        · simpa [hno, packed_concat, Packed.next, beatOf, hl] using h.handed
      | true =>
        refine ⟨?_, ?_⟩
        · simp [Seen.next, Station.ethIn, hv, hl, packed_concat, Packed.next, beatOf]
        · rw [packed_concat, Packed.next, h.cur]
          simp only [beatOf, hl, if_true]
          cases hu : x.rx.mAxis.tuser with
          | true =>
            have hno : x.dma.rx.handsOver x.dma.tx.txRun x.ethIn = false :=
              not_handsOver (Or.inr (Or.inr hu))
            simpa [hno] using h.handed
          | false =>
            rw [if_neg Bool.false_ne_true]
            split_ifs with hh
            · exact h.handed.append (List.Sublist.refl _)
            · exact h.handed.trans (List.sublist_append_left _ _)

theorem Inbox.Full.step (hs : b.Sound) (h : b.Full x) {e : Edge} (he : Open x e) :
    (receive p x e b).Full (x.step cfg p e) := by
  cases e with
  | sys i st => exact ⟨h.clean, h.handed⟩
  | mac g =>
    cases hv : x.rx.mAxis.tvalid with
    | false =>
      have hno : x.dma.rx.handsOver x.dma.tx.txRun x.ethIn = false := not_handsOver (Or.inl hv)
      refine ⟨?_, ?_⟩
      · change (x.dma.step p (.eth x.ethIn)).rx.rxPoison = false
        rw [EthDma.rx_rest (i := x.ethIn) hv]
        exact h.clean
      · simpa only [receive, beat_rest hv, List.append_nil, hno, Bool.false_eq_true, if_false] using
          h.handed
    | true =>
      obtain ⟨hfree, hrun⟩ := he hv
      have ht : x.dma.rx.taking x.dma.tx.txRun = true := by simp [EthDma.Rx.taking, hfree, hrun]
      have hclean : (x.dma.step p (.eth x.ethIn)).rx.rxPoison = false := by
        cases hl : x.rx.mAxis.tlast with
        | false =>
          rw [EthDma.rx_mid (i := x.ethIn) hv ht hl]
          exact h.clean
        | true => rw [EthDma.rx_end (i := x.ethIn) hv ht hl]
      have hover : x.dma.rx.handsOver x.dma.tx.txRun x.ethIn =
          (x.rx.mAxis.tlast && !x.rx.mAxis.tuser) := by
        simp [EthDma.Rx.handsOver, Station.ethIn, hv, h.clean, hfree, hrun]
      refine ⟨hclean, ?_⟩
      simp only [receive, beat_valid hv, hover, packed_concat, hs.cur]
      cases hl : x.rx.mAxis.tlast <;> cases hu : x.rx.mAxis.tuser <;>
        simp [Packed.next, beatOf, hl, hu, h.handed]

/-! ### A run -/

/-- What the GMII receives in a run. -/
def macSymbols : List Edge → List Gmii
  | [] => []
  | .mac g :: es => g :: macSymbols es
  | .sys _ _ :: es => macSymbols es

/-- Each byte of a run finds the window free, and no transmission. -/
abbrev OpenRun (cfg : EthMac.Tx.Config) (p : Params) (x : Station) (es : List Edge) : Prop :=
  Run.Along (Station.step cfg p) Open x es

/-- The station with its inbox, after a run. -/
def received (cfg : EthMac.Tx.Config) (p : Params) (x : Station) (es : List Edge) : Station × Inbox :=
  Run.noted (Station.step cfg p) (receive p) (x, Inbox.empty) es

variable (cfg p) in
/-- The DMA sees the beats of the receiver, one edge later. -/
theorem taken_beats : ∀ (es : List Edge) (x : Station) (b : Inbox),
    (Run.noted (Station.step cfg p) (receive p) (x, b) es).2.beats ++
        (Run.noted (Station.step cfg p) (receive p) (x, b) es).1.rx.beat =
      b.beats ++ x.rx.beat ++ heard x.rx (macSymbols es)
  | [], x, b => by simp [Run.noted, macSymbols, heard]
  | .mac g :: es, x, b => by
    rw [Run.noted, taken_beats es, macSymbols, heard, List.append_assoc, List.append_assoc]
    simp [receive, Station.step, Station.macClk]
  | .sys i st :: es, x, b => taken_beats es (x.step cfg p (.sys i st)) b

/-- The receiver runs on the GMII alone. -/
theorem rx_run : ∀ (es : List Edge) (x : Station) (b : Inbox),
    (Run.noted (Station.step cfg p) (receive p) (x, b) es).1.rx = (macSymbols es).foldl Rx.step x.rx
  | [], _, _ => rfl
  | .mac _ :: es, _, _ => rx_run es _ _
  | .sys _ _ :: es, _, _ => rx_run es _ _

variable (cfg p) in
theorem sound_run (x : Station) (es : List Edge) : (received cfg p x es).2.Sound :=
  have hes : Run.Along (Station.step cfg p) (fun _ _ => True) x es :=
    Run.along_of_forall _ _ (fun _ _ => trivial) _ _
  Run.noted_inv (fun _ b => b.Sound) (fun _ e _ h _ => h.step e) es (x, Inbox.empty) hes
    ⟨rfl, List.Sublist.refl _⟩

theorem full_run (hx : x.dma.rx.rxPoison = false) {es : List Edge}
    (hes : OpenRun cfg p x es) :
    (received cfg p x es).2.Full (received cfg p x es).1 :=
  (Run.noted_inv (fun y b => b.Sound ∧ b.Full y) (fun _ e _ h he => ⟨h.1.step e, h.2.step h.1 he⟩) es
    (x, Inbox.empty) hes ⟨⟨rfl, List.Sublist.refl _⟩, ⟨hx, rfl⟩⟩).2

/-- At any time the beats the DMA has seen are a beginning of the stream's. -/
theorem beats_beginning (hx : x.Reset) {es : List Edge} {ts : List Segment} (hts : ∀ t ∈ ts, t.Ok)
    {noise : List Gmii} (hnoise : ∀ g ∈ noise, g.isSfd = false) (hlong : 5 ≤ noise.length)
    (hes : macSymbols es <+: ts.flatMap Segment.symbols ++ noise) :
    (received cfg p x es).2.beats <+: ts.flatMap deliver := by
  have hseen : (received cfg p x es).2.beats ++ (received cfg p x es).1.rx.beat =
      Inbox.empty.beats ++ x.rx.beat ++ heard x.rx (macSymbols es) :=
    taken_beats cfg p es x Inbox.empty
  rw [beat_rest hx.rxAxis, List.append_nil] at hseen
  have hheard : heard x.rx (macSymbols es) <+: ts.flatMap deliver := by
    rw [← EthMac.heard_segments hx.rx hts hnoise hlong]
    exact EthMac.heard_mono hes x.rx
  exact (List.prefix_append _ _).trans (hseen.trans (List.nil_append _) ▸ hheard)

/-- When the stream has come to its end they are all of them. -/
theorem beats_stream (hx : x.Reset) {es : List Edge} {ts : List Segment} (hts : ∀ t ∈ ts, t.Ok)
    {noise : List Gmii} (hnoise : ∀ g ∈ noise, g.isSfd = false) (hlong : 6 ≤ noise.length)
    (hes : macSymbols es = ts.flatMap Segment.symbols ++ noise) :
    (received cfg p x es).2.beats = ts.flatMap deliver := by
  obtain ⟨ns, z, rfl⟩ := (List.eq_nil_or_concat noise).resolve_left
    (List.ne_nil_of_length_pos (by omega))
  rw [List.concat_eq_append] at hes hnoise hlong
  have hall : heard x.rx (macSymbols es) = ts.flatMap deliver := by
    rw [hes]
    exact EthMac.heard_segments hx.rx hts hnoise (by omega)
  have hbefore : heard x.rx (ts.flatMap Segment.symbols ++ ns) = ts.flatMap deliver :=
    EthMac.heard_segments hx.rx hts (fun g hg => hnoise g (List.mem_append_left _ hg))
      (by rw [List.length_append, List.length_singleton] at hlong; omega)
  -- the last symbol brings no beat
  have hlast : (received cfg p x es).1.rx.beat = [] := by
    have hsplit := hall
    rw [hes, ← List.append_assoc, EthMac.heard_append, hbefore, List.append_right_eq_self] at hsplit
    rw [received, rx_run, hes, ← List.append_assoc, List.foldl_append]
    simpa [heard] using hsplit
  have hseen : (received cfg p x es).2.beats ++ (received cfg p x es).1.rx.beat =
      Inbox.empty.beats ++ x.rx.beat ++ heard x.rx (macSymbols es) :=
    taken_beats cfg p es x Inbox.empty
  rw [hlast, hall, beat_rest hx.rxAxis, List.append_nil] at hseen
  exact hseen

/-- What has been handed over at any time. -/
theorem handed_sublist (hx : x.Reset) {es : List Edge} {ts : List Segment} (hts : ∀ t ∈ ts, t.Ok)
    {noise : List Gmii} (hnoise : ∀ g ∈ noise, g.isSfd = false) (hlong : 5 ≤ noise.length)
    (hes : macSymbols es <+: ts.flatMap Segment.symbols ++ noise) :
    (received cfg p x es).2.handed.Sublist (whole ts) := by
  have hbeats : (received cfg p x es).2.beats <+: ts.flatMap deliver :=
    beats_beginning hx hts hnoise hlong hes
  have hframes := frames_mono hbeats
  rw [packed_deliver fun t ht => (hts t ht).nonempty] at hframes
  exact (sound_run cfg p x es).handed.trans hframes.sublist

/-- **The frames the DMA accepts.** Of the frames of the GMII those without an error before their
checks are handed over, in order, with right checks and with wrong ones; and all of them, once the
stream is at its end, if every byte has found the window free and no transmission. -/
theorem frames_handed (hx : x.Reset) {es : List Edge} {ts : List Segment} (hts : ∀ t ∈ ts, t.Ok)
    {noise : List Gmii} (hnoise : ∀ g ∈ noise, g.isSfd = false) (hlong : 6 ≤ noise.length)
    (hes : macSymbols es <+: ts.flatMap Segment.symbols ++ noise) :
    (received cfg p x es).2.handed.Sublist (whole ts) ∧
      (macSymbols es = ts.flatMap Segment.symbols ++ noise →
        OpenRun cfg p x es → (received cfg p x es).2.handed = whole ts) := by
  refine ⟨handed_sublist hx hts hnoise (by omega) hes, fun hend hopen => ?_⟩
  rw [(full_run (p := p) hx.dma.rxPoison hopen).handed, beats_stream hx hts hnoise hlong hend,
    packed_deliver fun t ht => (hts t ht).nonempty]

/-- A stream of one frame, whose check is wrong. -/
def wrongCheck : List Edge :=
  ([EthMac.badCheck].flatMap Segment.symbols ++ List.replicate 6 EthMac.lowSymbol).map Edge.mac

theorem badCheck_ok : ∀ t ∈ [EthMac.badCheck], t.Ok := fun t ht => by
  obtain rfl := List.mem_singleton.mp ht
  exact ⟨by decide, by decide, by decide, by decide, by decide, by decide, by decide⟩

/-- The frame is handed over. -/
theorem frames_handed_wrong :
    EthMac.badCheck.bad = true ∧
      (received EthMac.Tx.board board .afterReset wrongCheck).2.handed = whole [EthMac.badCheck] := by
  have hes : macSymbols wrongCheck <+:
      [EthMac.badCheck].flatMap Segment.symbols ++ List.replicate 6 EthMac.lowSymbol := by decide
  exact ⟨by decide +kernel, (frames_handed Station.reset_afterReset badCheck_ok (by decide) (by decide)
    hes).2 (by decide) (by decide +kernel)⟩

/-! ### What the CPU sees -/

/-- What an edge must not meet: `EthDma.Clear`, and a store in the RX window. -/
def RxClear (p : Params) (y : Station × Inbox) : Edge → Prop
  | .mac _ => EthDma.Clear p y.1.dma y.2.seen (.eth y.1.ethIn)
  | .sys _ st => EthDma.Clear p y.1.dma y.2.seen (.cpu y.1.core.pulses) ∧
      (st.wen = 0 ∨ ∀ w < p.windowWords, EthDma.ab (p.rxWordBase + BitVec.ofNat 14 w) ≠ st.word)

/-- The station with its inbox, on an edge. -/
def inboxStep (cfg : EthMac.Tx.Config) (p : Params) (y : Station × Inbox) (e : Edge) :
    Station × Inbox := (y.1.step cfg p e, receive p y.1 e y.2)

variable {s : Dma} {k : Seen} {st : Store}

/-- A byte of the RX window under a store elsewhere. -/
theorem rxByteAt_stored
    (hst : st.wen = 0 ∨ ∀ w < p.windowWords, EthDma.ab (p.rxWordBase + BitVec.ofNat 14 w) ≠ st.word) {j : ℕ}
    (hj : j < 4 * p.windowWords) :
    EthDma.rxByteAt p { s with mem := stored st s.mem }.settled j =
      EthDma.rxByteAt p s.settled j := by
  have hword : { s with mem := stored st s.mem }.settled (EthDma.ab (p.rxWordBase + BitVec.ofNat 14 (j / 4))) =
      s.settled (EthDma.ab (p.rxWordBase + BitVec.ofNat 14 (j / 4))) := by
    have hmem : stored st s.mem (EthDma.ab (p.rxWordBase + BitVec.ofNat 14 (j / 4))) =
        s.mem (EthDma.ab (p.rxWordBase + BitVec.ofNat 14 (j / 4))) := by
      rcases hst with hwen | hne
      · rw [stored_of_wen hwen]
      · exact stored_of_ne (hne (j / 4) (by omega))
    have hpend : { s with mem := stored st s.mem }.pending = s.pending := rfl
    rw [Dma.settled, Dma.settled, hpend]
    split_ifs with h
    · by_cases haddr : EthDma.ab (p.rxWordBase + BitVec.ofNat 14 (j / 4)) = EthDma.ab s.rx.rxMaddr
      · rw [haddr, Function.update_self, Function.update_self]
      · rw [Function.update_of_ne haddr, Function.update_of_ne haddr]
        exact hmem
    · exact hmem
  rw [EthDma.rxByteAt, hword]
  rfl

theorem stored_bytes
    (hst : st.wen = 0 ∨ ∀ w < p.windowWords, EthDma.ab (p.rxWordBase + BitVec.ofNat 14 w) ≠ st.word)
    {f : List (BitVec 8)} {m : ℕ} (h : EthDma.Stored p s.settled f m) :
    EthDma.Stored p { s with mem := stored st s.mem }.settled f m := by
  intro j hj hj4
  rw [rxByteAt_stored hst hj4]
  exact h j hj hj4

/-- The DMA's invariant does not mind such a store. -/
theorem inv_store (h : EthDma.Inv p s k)
    (hst : st.wen = 0 ∨ ∀ w < p.windowWords, EthDma.ab (p.rxWordBase + BitVec.ofNat 14 w) ≠ st.word) :
    EthDma.Inv p { s with mem := stored st s.mem } k := by
  refine ⟨h.ring, fun hclean => ?_, fun hheld => ?_⟩
  · obtain ⟨hc, hfree, hs, hp⟩ := h.mid hclean
    exact ⟨hc, hfree, fun hne hstart => stored_bytes hst (hs hne hstart), hp⟩
  · obtain ⟨f, hf⟩ := h.held hheld
    exact ⟨f, hf.last, hf.good, stored_bytes hst hf.stored, hf.length, hf.trunc, hf.pending⟩

/-- The DMA holds the frame that was handed over last. -/
structure Inbox.Kept (p : Params) (y : Station × Inbox) : Prop where
  inv : EthDma.Inv p y.1.dma y.2.seen
  last : y.2.seen.last.map (·.bytes) = y.2.handed.getLast?

theorem Inbox.Kept.step {y : Station × Inbox} (h : Inbox.Kept p y) {e : Edge}
    (he : RxClear p y e) : Inbox.Kept p (inboxStep cfg p y e) := by
  cases e with
  | sys i st => exact ⟨inv_store (h.inv.cpu he.1) he.2, h.last⟩
  | mac g =>
    refine ⟨h.inv.eth he, ?_⟩
    simp only [inboxStep, receive]
    cases hh : y.1.dma.rx.handsOver y.1.dma.tx.txRun y.1.ethIn with
    | true =>
      obtain ⟨hv, hl, -⟩ := EthDma.taking_of_handsOver hh
      simp only [Seen.next, hv, hl, hh, if_true, List.getLast?_concat]
      rfl
    | false =>
      rw [EthDma.last_eth _ hh]
      exact h.last

theorem foldl_inboxStep : ∀ (es : List Edge) (y : Station × Inbox),
    es.foldl (inboxStep cfg p) y = Run.noted (Station.step cfg p) (receive p) y es
  | [], _ => rfl
  | _ :: es, _ => foldl_inboxStep es _

theorem kept_run {y : Station × Inbox} (h : Inbox.Kept p y) {es : List Edge}
    (hes : Run.Along (inboxStep cfg p) (RxClear p) y es) :
    Inbox.Kept p (Run.noted (Station.step cfg p) (receive p) y es) := by
  rw [← foldl_inboxStep]
  exact Run.foldl_inv (Inbox.Kept p) (fun _ _ h he => h.step he) es y hes h

/-- **What the CPU sees is a frame of the GMII**: while `rx_valid` is high the window holds, as far
as it goes, the bytes of a frame without an error before its check, the length and the flag are that
frame's, and it is the one handed over last. -/
theorem frame_shown (hx : x.Reset) {es : List Edge} {ts : List Segment} (hts : ∀ t ∈ ts, t.Ok)
    {noise : List Gmii} (hnoise : ∀ g ∈ noise, g.isSfd = false) (hlong : 5 ≤ noise.length)
    (hes : macSymbols es <+: ts.flatMap Segment.symbols ++ noise)
    (hclear : Run.Along (inboxStep cfg p) (RxClear p) (x, Inbox.empty) es)
    (hvalid : (received cfg p x es).1.dma.cpu.rxValid = true) :
    ∃ t ∈ ts, t.rest = [] ∧ (received cfg p x es).2.handed.getLast? = some (bytes t.body) ∧
      (∀ j < t.body.length, j < 4 * p.windowWords →
        (bytes t.body)[j]? = some (EthDma.rxByteAt p (received cfg p x es).1.dma.mem j)) ∧
      (t.body.length ≤ 4 * p.windowWords →
        (received cfg p x es).1.dma.rx.rxLenQ.toNat = t.body.length) ∧
      ((received cfg p x es).1.dma.rx.rxTruncQ = true ↔ 4 * p.windowWords < t.body.length) := by
  have hkept : Inbox.Kept p (received cfg p x es) :=
    kept_run (y := (x, Inbox.empty)) ⟨EthDma.Inv.reset hx.dma, rfl⟩ hclear
  obtain ⟨f, hlast, -, hbytes, hlen, htrunc, -⟩ := hkept.inv.shown hvalid
  have hhanded : (received cfg p x es).2.handed.getLast? = some f.bytes := by
    rw [← hkept.last, hlast]
    rfl
  obtain ⟨t, ht, hf⟩ : ∃ t ∈ ts.filter (fun t => t.rest.isEmpty), bytes t.body = f.bytes := by
    have hmem := (handed_sublist hx hts hnoise hlong hes).subset (List.mem_of_getLast? hhanded)
    exact List.mem_map.mp hmem
  obtain ⟨hmem, hrest⟩ := List.mem_filter.mp ht
  have hlength : f.bytes.length = t.body.length := by rw [← hf, bytes, List.length_map]
  rw [← hf] at hhanded hbytes
  rw [hlength] at hlen htrunc
  rw [bytes, List.length_map] at hbytes
  exact ⟨t, hmem, by simpa using hrest, hhanded, hbytes, hlen, htrunc⟩

/-- The frame is over, and the CPU has seen its toggle. -/
def wrongShown : List Edge := wrongCheck ++ [.sys .idle .none, .sys .idle .none]

instance (p : Params) (y : Station × Inbox) : ∀ e : Edge, Decidable (RxClear p y e)
  | .mac _ => EthDma.decidableClear p y.1.dma y.2.seen (.eth y.1.ethIn)
  | .sys _ _ => inferInstanceAs (Decidable (_ ∧ _))

/-- The frame with the wrong check is in the CPU's window. -/
theorem frame_shown_wrong :
    ∃ t ∈ [EthMac.badCheck], t.rest = [] ∧
      (received EthMac.Tx.board board .afterReset wrongShown).2.handed.getLast? =
        some (bytes t.body) ∧
      (∀ j < t.body.length, j < 4 * board.windowWords → (bytes t.body)[j]? = some (EthDma.rxByteAt board
        (received EthMac.Tx.board board .afterReset wrongShown).1.dma.mem j)) ∧
      (t.body.length ≤ 4 * board.windowWords →
        (received EthMac.Tx.board board .afterReset wrongShown).1.dma.rx.rxLenQ.toNat =
          t.body.length) ∧
      ((received EthMac.Tx.board board .afterReset wrongShown).1.dma.rx.rxTruncQ = true ↔
        4 * board.windowWords < t.body.length) := by
  have hes : macSymbols wrongShown <+:
      [EthMac.badCheck].flatMap Segment.symbols ++ List.replicate 6 EthMac.lowSymbol := by decide
  exact frame_shown Station.reset_afterReset badCheck_ok (by decide) (by decide) hes
    (by decide +kernel) (by decide +kernel)

end Ethmin
end Xc7Tools
