/-
# eth_mac_1g: from one MAC to another

The transmitter of a MAC, with a source of frames, drives the GMII of a
receiver on the same clock. What the receiver has delivered at any time is a
beginning of what the source has sent, each frame with its padding and its
check, `fcs_reg` at the residue, and no `tuser`; and it is all of it six edges
after the last frame (`link_delivers`).

The symbols of a stream without errors are its bursts with their gaps, and a
burst with a delimiter is a segment (`exists_segments`); one that is cut off is
first completed (`completed`).

Key definitions: `Tx.symbol`, `linked`, `expectedBeats`, `Formed`, `segment`.
Key theorems: `deliver_segment`, `completed`, `link_delivers`.
-/
import Xc7Tools.EthMac.Receive
import Xc7Tools.EthMac.Transmit

namespace Xc7Tools
namespace EthMac

open Rx (Gmii)

/-- The GMII of the receiver. -/
def Tx.symbol (s : Tx) : Gmii := ⟨s.gmiiTxd, s.gmiiTxEn, s.gmiiTxEr⟩

/-- The beats of a receiver on the GMII of a MAC. -/
def linked (cfg : Tx.Config) : Fed → Rx → List Axis → List Beat
  | _, _, [] => []
  | x, r, a :: as => (r.step x.1.symbol).beat ++ linked cfg (fedStep cfg x a) (r.step x.1.symbol) as

/-- What is delivered of a frame. -/
def expectedBeats (cfg : Tx.Config) (f : List (BitVec 8)) : List Beat :=
  let bs := padded cfg f ++ checkOf (padded cfg f)
  bs.dropLast.map (fun b => ⟨b, false, false, none⟩) ++
    bs.getLast?.toList.map fun b => ⟨b, true, false, some residue⟩

variable {cfg : Tx.Config} {x : Fed} {f : List (BitVec 8)}

/-! ### The symbols of a run -/

/-- The GMII before the first edge and after each. -/
def wire (cfg : Tx.Config) : Fed → List Axis → List Gmii
  | x, [] => [x.1.symbol]
  | x, a :: as => x.1.symbol :: wire cfg (fedStep cfg x a) as

/-- The receiver is one edge behind. -/
theorem linked_eq : ∀ (as : List Axis) (x : Fed) (r : Rx),
    linked cfg x r as = heard r (wire cfg x as).dropLast
  | [], _, _ => rfl
  | [a], x, r => by simp [linked, wire, heard]
  | a :: b :: as, x, r => by
    rw [linked, linked_eq (b :: as)]
    simp [wire, heard]

theorem heard_append : ∀ (gs hs : List Gmii) (r : Rx),
    heard r (gs ++ hs) = heard r gs ++ heard (gs.foldl Rx.step r) hs
  | [], _, _ => rfl
  | g :: gs, hs, r => by
    rw [List.cons_append, heard, heard, heard_append gs hs, List.append_assoc]
    rfl

theorem heard_mono {gs hs : List Gmii} (h : gs <+: hs) (r : Rx) : heard r gs <+: heard r hs := by
  obtain ⟨t, rfl⟩ := h
  rw [heard_append]
  exact List.prefix_append _ _

/-- A symbol's byte, if it has one. -/
def byteOf (g : Gmii) : Option (BitVec 8) := if g.rxDv then some g.rxd else none

theorem foldl_wire : ∀ (as : List Axis) (x : Fed) (b : Bursts (BitVec 8)),
    (wire cfg x as).foldl (fun b g => b.next (byteOf g)) b =
      (Run.noted (fedStep cfg) (watchGmii cfg) (x, b.next x.1.gmii) as).2
  | [], _, _ => rfl
  | a :: as, x, b => by
    rw [wire, List.foldl_cons, foldl_wire as]
    rfl

/-- The bursts of the symbols are those of the run. -/
theorem watch_wire (hx : x.1.gmiiTxEn = false) (as : List Axis) :
    Bursts.watch byteOf (wire cfg x as) = (seen cfg x as).2 := by
  have hgmii : x.1.gmii = none := by simp [Tx.gmii, hx]
  rw [Bursts.watch, foldl_wire, hgmii]
  rfl

theorem wire_rxEr {frames : List (List (BitVec 8))}
    (hmin : (cfg.minFrameLength - 5).toNat < 65536) (hlen : ∀ f ∈ frames, 2 ≤ f.length) :
    ∀ {as : List Axis} {x : Fed} {b : Bursts (BitVec 8)}, Fair cfg x as → Sent cfg frames x b →
      ∀ g ∈ wire cfg x as, g.rxEr = false
  | [], x, b, _, hx => by simpa [wire, Tx.symbol] using hx.noError
  | a :: as, x, b, has, hx => by
    have ih := wire_rxEr hmin hlen (x := fedStep cfg x a) has.2 (hx.step hmin hlen has.1)
    intro g hg
    rcases List.mem_cons.mp hg with rfl | hg
    · exact hx.noError
    · exact ih g hg

/-! ### The segments of a stream -/

/-- A byte of a frame. -/
def symbolOf (d : BitVec 8) : Gmii := ⟨d, true, false⟩

theorem eq_symbolOf {g : Gmii} {d : BitVec 8} (her : g.rxEr = false) (h : byteOf g = some d) :
    g = symbolOf d := by
  rcases g with ⟨rxd, dv, er⟩
  cases dv
  · cases h
  · cases h
    cases her
    rfl

theorem eq_map_symbolOf : ∀ {gs : List Gmii} {ds : List (BitVec 8)}, (∀ g ∈ gs, g.rxEr = false) →
    gs.map byteOf = ds.map some → gs = ds.map symbolOf
  | [], [], _, _ => rfl
  | g :: gs, d :: ds, her, h => by
    rw [List.map_cons, List.map_cons, List.cons.injEq] at h
    rw [List.map_cons, ← eq_symbolOf (her g (List.mem_cons_self ..)) h.1,
      ← eq_map_symbolOf (fun g hg => her g (List.mem_cons_of_mem _ hg)) h.2]

/-- What is behind the delimiter of a burst. -/
def behindSfd (f : List (BitVec 8)) : List (BitVec 8) := (f.dropWhile (· != ethSfd)).tail

/-- A burst with a delimiter, and behind it at least one byte and a check. -/
def Formed (f : List (BitVec 8)) : Prop := 5 ≤ (behindSfd f).length

instance (f : List (BitVec 8)) : Decidable (Formed f) := inferInstanceAs (Decidable (_ ≤ _))

/-- A burst with its gap, as the receiver sees it. -/
def segment (gap : List Gmii) (f : List (BitVec 8)) (low : Gmii) : Segment where
  noise := gap ++ (f.takeWhile (· != ethSfd)).map symbolOf
  sfd := symbolOf ethSfd
  payload := ((behindSfd f).take ((behindSfd f).length - 4)).map symbolOf
  check :=
    let c := (behindSfd f).drop ((behindSfd f).length - 4)
    (symbolOf (c.getD 0 0), symbolOf (c.getD 1 0), symbolOf (c.getD 2 0), symbolOf (c.getD 3 0))
  low := [low]

theorem Formed.eq {f : List (BitVec 8)} (h : Formed f) :
    f = f.takeWhile (· != ethSfd) ++ ethSfd :: behindSfd f := by
  unfold Formed behindSfd at *
  have hhead := List.head?_dropWhile_not (· != ethSfd) f
  cases hd : f.dropWhile (· != ethSfd) with
  | nil => simp [hd] at h
  | cons b bs =>
    obtain rfl : b = ethSfd := by simpa [hd] using hhead
    rw [List.tail_cons, ← hd, List.takeWhile_append_dropWhile]

theorem fcs_segment {f : List (BitVec 8)} (h : Formed f) (gap : List Gmii) (low : Gmii) :
    (segment gap f low).fcs =
      ((behindSfd f).drop ((behindSfd f).length - 4)).map symbolOf := by
  unfold Formed at h
  have hlen : ((behindSfd f).drop ((behindSfd f).length - 4)).length = 4 := by
    rw [List.length_drop]
    omega
  obtain ⟨c0, c1, c2, c3, hl⟩ := List.length_eq_four.mp hlen
  rw [Segment.fcs, segment, hl]
  rfl

theorem body_segment {f : List (BitVec 8)} (h : Formed f) (gap : List Gmii) (low : Gmii) :
    (segment gap f low).body = (behindSfd f).map symbolOf := by
  rw [Segment.body, fcs_segment h]
  change ((behindSfd f).take _).map symbolOf ++ _ = _
  rw [← List.map_append, List.take_append_drop]

theorem symbols_segment {f : List (BitVec 8)} (h : Formed f) (gap : List Gmii) (low : Gmii) :
    (segment gap f low).symbols = gap ++ (f.map symbolOf ++ [low]) := by
  calc (segment gap f low).symbols
      = gap ++ ((f.takeWhile (· != ethSfd) ++ ethSfd :: behindSfd f).map symbolOf ++ [low]) := by
        rw [Segment.symbols, body_segment h]
        simp [segment]
    _ = gap ++ (f.map symbolOf ++ [low]) := by rw [← h.eq]

/-- No error is in it. -/
theorem rest_segment (gap : List Gmii) (f : List (BitVec 8)) (low : Gmii) :
    (segment gap f low).rest = [] := by
  rw [Segment.rest, List.dropWhile_eq_nil_iff]
  intro g hg
  obtain ⟨d, -, rfl⟩ := List.mem_map.mp hg
  rfl

theorem bytes_symbolOf (ds : List (BitVec 8)) : bytes (ds.map symbolOf) = ds := by
  rw [bytes, List.map_map]
  exact List.map_id ds

theorem not_isSfd {g : Gmii} (h : byteOf g = none) : g.isSfd = false := by
  unfold byteOf at h
  split_ifs at h with hdv
  simp [Rx.Gmii.isSfd, hdv]

theorem segment_ok {f : List (BitVec 8)} (h : Formed f) {gap : List Gmii} {low : Gmii}
    (hgap : ∀ g ∈ gap, byteOf g = none) (hlow : byteOf low = none) : (segment gap f low).Ok := by
  refine ⟨fun g hg => ?_, rfl, fun g hg => ?_, ?_, fun g hg => ?_, Nat.le_refl 1, fun hone => ?_⟩
  · rcases List.mem_append.mp hg with hg | hg
    · exact not_isSfd (hgap g hg)
    · obtain ⟨d, hd, rfl⟩ := List.mem_map.mp hg
      have hne := List.mem_takeWhile_imp hd
      simpa [symbolOf, Rx.Gmii.isSfd] using hne
  · rw [body_segment h] at hg
    obtain ⟨d, -, rfl⟩ := List.mem_map.mp hg
    rfl
  · have hlen : (segment gap f low).payload.length = (behindSfd f).length - 4 := by
      simp [segment]
    unfold Formed at h
    exact List.ne_nil_of_length_pos (by omega)
  · rw [List.mem_singleton.mp hg]
    unfold byteOf at hlow
    split_ifs at hlow with hdv
    simpa using hdv
  · rw [rest_segment] at hone
    cases hone

/-- Segments that are these bursts. -/
def Carries (us : List Segment) (fs : List (List (BitVec 8))) : Prop :=
  List.Forall₂ (fun u f => Formed f ∧ ∃ gap low, u = segment gap f low ∧
    (∀ g ∈ gap, byteOf g = none) ∧ byteOf low = none) us fs

theorem Carries.ok {us : List Segment} {fs : List (List (BitVec 8))} (h : Carries us fs) :
    ∀ u ∈ us, u.Ok := by
  induction h with
  | nil => exact fun u hu => absurd hu List.not_mem_nil
  | @cons u f us fs hhead _ ih =>
    intro v hv
    obtain ⟨hf, gap, low, rfl, hgap, hlow⟩ := hhead
    rcases List.mem_cons.mp hv with rfl | hv
    · exact segment_ok hf hgap hlow
    · exact ih v hv

/-- The stretches of a stream without errors are segments, if its bursts are formed. -/
theorem exists_segments {ts : List (Bursts.Stretch Gmii)} {fs : List (List (BitVec 8))}
    (h : List.Forall₂ (Bursts.Stretch.Of byteOf) ts fs) : (∀ f ∈ fs, Formed f) →
      (∀ g ∈ ts.flatMap Bursts.Stretch.symbols, g.rxEr = false) → ∃ us : List Segment,
        ts.flatMap Bursts.Stretch.symbols = us.flatMap Segment.symbols ∧ Carries us fs := by
  induction h with
  | nil => exact fun _ _ => ⟨[], rfl, .nil⟩
  | @cons t f ts fs hhead _ ih =>
    intro hformed her
    rw [List.flatMap_cons] at her
    have hf := hformed f (List.mem_cons_self ..)
    obtain ⟨us, hsymbols, hcarries⟩ := ih (fun g hg => hformed g (List.mem_cons_of_mem f hg))
      fun g hg => her g (List.mem_append_right _ hg)
    have hburst : t.burst = f.map symbolOf := eq_map_symbolOf (fun g hg =>
      her g (List.mem_append_left _ (by simp [Bursts.Stretch.symbols, hg]))) hhead.burst
    refine ⟨segment t.gap f t.stop :: us, ?_,
      .cons ⟨hf, _, _, rfl, hhead.gap, hhead.stop⟩ hcarries⟩
    rw [List.flatMap_cons, List.flatMap_cons, hsymbols, symbols_segment hf, ← hburst,
      Bursts.Stretch.symbols]

theorem map_byteOf_symbolOf (ds : List (BitVec 8)) : (ds.map symbolOf).map byteOf = ds.map some := by
  rw [List.map_map]
  rfl

/-- A symbol between two frames. -/
def lowSymbol : Gmii := ⟨0, false, false⟩

theorem byteOf_low : ∀ g ∈ List.replicate 5 lowSymbol, byteOf g = none := fun g hg => by
  rw [List.eq_of_mem_replicate hg]
  rfl

/-- **A stream that may be cut off in a burst** is a beginning of one that is not. -/
theorem completed {w : List Gmii} {fs : List (List (BitVec 8))} (her : ∀ g ∈ w, g.rxEr = false)
    (hformed : ∀ f ∈ fs, Formed f)
    (hfs : (Bursts.watch byteOf w).part = [] ∧ fs = (Bursts.watch byteOf w).whole ∨
      ∃ f, (Bursts.watch byteOf w).part <+: f ∧ fs = (Bursts.watch byteOf w).whole ++ [f]) :
    ∃ us noise, w <+: us.flatMap Segment.symbols ++ noise ∧ Carries us fs ∧
      (∀ g ∈ noise, byteOf g = none) ∧ 5 ≤ noise.length := by
  obtain ⟨ts, gap, cur, hlist, hts, hgap, hcur⟩ := Bursts.exists_stretches byteOf w
  have herts : ∀ g ∈ ts.flatMap Bursts.Stretch.symbols, g.rxEr = false := fun g hg =>
    her g (by rw [hlist]; exact List.mem_append_left _ hg)
  rcases hfs with ⟨hnone, rfl⟩ | ⟨f, ⟨q, hq⟩, rfl⟩
  · have hcur' : cur = [] := by simpa [hnone] using hcur
    obtain ⟨us, hsymbols, hcarries⟩ := exists_segments hts hformed herts
    refine ⟨us, gap ++ List.replicate 5 lowSymbol, ?_, hcarries, fun g hg => ?_, by simp⟩
    · rw [hlist, hcur', List.append_nil, hsymbols, ← List.append_assoc]
      exact List.prefix_append _ _
    · exact (List.mem_append.mp hg).elim (hgap g) (byteOf_low g)
  · let t : Bursts.Stretch Gmii := ⟨gap, f.map symbolOf, lowSymbol⟩
    have hcur' : cur = (Bursts.watch byteOf w).part.map symbolOf := eq_map_symbolOf
      (fun g hg => her g (by rw [hlist]; simp [hg])) hcur
    have hstretch : (ts ++ [t]).flatMap Bursts.Stretch.symbols = w ++ (q.map symbolOf ++ [lowSymbol]) := by
      simp only [List.flatMap_append, List.flatMap_singleton, t, ← hq, Bursts.Stretch.symbols]
      nth_rewrite 2 [hlist]
      simp [hcur']
    have hts' : List.Forall₂ (Bursts.Stretch.Of byteOf) (ts ++ [t])
        ((Bursts.watch byteOf w).whole ++ [f]) :=
      List.rel_append hts (.cons ⟨hgap, map_byteOf_symbolOf _, rfl⟩ .nil)
    obtain ⟨us, hsymbols, hcarries⟩ := exists_segments hts' hformed fun g hg => by
      rw [hstretch] at hg
      rcases List.mem_append.mp hg with hg | hg
      · exact her g hg
      · have hmem : g ∈ q.map symbolOf ∨ g = lowSymbol := by simpa using hg
        rcases hmem with hg | rfl
        · obtain ⟨d, -, rfl⟩ := List.mem_map.mp hg
          rfl
        · rfl
    refine ⟨us, List.replicate 5 lowSymbol, ?_, hcarries, byteOf_low, by simp⟩
    rw [← hsymbols, hstretch, List.append_assoc]
    exact List.prefix_append _ _

/-! ### The segments of a run -/

theorem behindSfd_encode : behindSfd (encode cfg f) = padded cfg f ++ checkOf (padded cfg f) := by
  rw [encode, List.append_assoc]
  rfl

theorem padded_ne_nil (hf : f ≠ []) : padded cfg f ≠ [] := by
  simp [padded, hf]

theorem formed_encode (hf : f ≠ []) : Formed (encode cfg f) := by
  have hne : padded cfg f ≠ [] := padded_ne_nil hf
  have hpos := List.length_pos_of_ne_nil hne
  rw [Formed, behindSfd_encode, List.length_append, length_checkOf]
  omega

/-- **What the receiver makes of a burst with a right check.** -/
theorem deliver_segment {f : List (BitVec 8)} (h : Formed f)
    (hcrc : crcBytes crcInit (behindSfd f) = residue) (gap : List Gmii) (low : Gmii) :
    deliver (segment gap f low) =
      (behindSfd f).dropLast.map (fun b => ⟨b, false, false, none⟩) ++
        (behindSfd f).getLast?.toList.map fun b => ⟨b, true, false, some residue⟩ := by
  have hbody := body_segment h gap low
  have hcheck : (segment gap f low).bad = false := by
    rw [Segment.bad, hbody, bytes_symbolOf, hcrc, bne_self_eq_false, Bool.or_false,
      fcs_segment h, List.any_map]
    simp [symbolOf]
  obtain ⟨ps, p, c0, c1, c2, c3, hbs⟩ : ∃ ps p c0 c1 c2 c3,
      behindSfd f = ps ++ [p, c0, c1, c2, c3] := by
    unfold Formed at h
    have hlen : ((behindSfd f).drop ((behindSfd f).length - 5)).length = 5 := by
      rw [List.length_drop]
      omega
    obtain ⟨p, t, hp⟩ := List.exists_cons_of_length_eq_add_one hlen
    obtain ⟨c0, c1, c2, c3, rfl⟩ := List.length_eq_four.mp (Nat.succ.inj (hp ▸ hlen))
    exact ⟨_, p, c0, c1, c2, c3, by rw [← hp, List.take_append_drop]⟩
  have hpayload : (segment gap f low).payload = ps.map symbolOf ++ [symbolOf p] := by
    simp [segment, hbs, List.take_append]
  have hfour : (segment gap f low).check =
      (symbolOf c0, symbolOf c1, symbolOf c2, symbolOf c3) := by
    simp [segment, hbs]
  rw [deliver_whole (rest_segment gap f low) hpayload, hcheck, hbody, bytes_symbolOf, hcrc, hfour, hbs]
  simp [plain, symbolOf, List.dropLast_append_of_ne_nil]

theorem deliver_encode (hf : f ≠ []) (gap : List Gmii) (low : Gmii) :
    deliver (segment gap (encode cfg f) low) = expectedBeats cfg f := by
  rw [deliver_segment (formed_encode hf) (by rw [behindSfd_encode, crcBytes_checkOf]),
    behindSfd_encode]
  rfl

theorem Carries.deliver {us : List Segment} {done : List (List (BitVec 8))}
    (h : Carries us (done.map (encode cfg))) (hne : ∀ f ∈ done, f ≠ []) :
    us.flatMap EthMac.deliver = done.flatMap (expectedBeats cfg) := by
  unfold Carries at h
  rw [List.forall₂_map_right_iff] at h
  induction h with
  | nil => rfl
  | @cons u f us done hhead _ ih =>
    obtain ⟨-, gap, low, rfl, -⟩ := hhead
    rw [List.flatMap_cons, List.flatMap_cons, ih fun g hg => hne g (List.mem_cons_of_mem f hg),
      deliver_encode (hne f (List.mem_cons_self ..))]

theorem formed_map {done : List (List (BitVec 8))} (hne : ∀ f ∈ done, f ≠ []) :
    ∀ f ∈ done.map (encode cfg), Formed f := fun f hf => by
  obtain ⟨g, hg, rfl⟩ := List.mem_map.mp hf
  exact formed_encode (hne g hg)

theorem heard_stretches {ts : List (Bursts.Stretch Gmii)} {done : List (List (BitVec 8))} {r : Rx}
    (hr : r.Reset) (hts : List.Forall₂ (Bursts.Stretch.Of byteOf) ts (done.map (encode cfg)))
    (hne : ∀ f ∈ done, f ≠ []) (her : ∀ g ∈ ts.flatMap Bursts.Stretch.symbols, g.rxEr = false)
    {noise : List Gmii} (hnoise : ∀ g ∈ noise, byteOf g = none) (hlong : 5 ≤ noise.length) :
    heard r (ts.flatMap Bursts.Stretch.symbols ++ noise) = done.flatMap (expectedBeats cfg) := by
  obtain ⟨us, hsymbols, hcarries⟩ := exists_segments hts (formed_map hne) her
  rw [hsymbols, heard_segments hr hcarries.ok (fun g hg => not_isSfd (hnoise g hg)) hlong,
    hcarries.deliver hne]

theorem eq_take_map {α β : Type*} {e : α → β} {l : List β} {xs : List α} (h : l <+: xs.map e) :
    l = (xs.take l.length).map e := by
  rw [List.map_take]
  exact List.prefix_iff_eq_take.mp h

theorem flatMap_take_beginning {α β : Type*} (e : α → List β) (xs : List α) (k : ℕ) :
    (xs.take k).flatMap e <+: xs.flatMap e := by
  nth_rewrite 2 [← List.take_append_drop k xs]
  rw [List.flatMap_append]
  exact List.prefix_append _ _

section

variable {s : Tx} {r : Rx} {frames : List (List (BitVec 8))} {as bs : List Axis}

theorem symbols_noError (hmin : (cfg.minFrameLength - 5).toNat < 65536)
    (hlen : ∀ f ∈ frames, 2 ≤ f.length) (hs : Reset s) (has : Fair cfg (start s frames) as) :
    ∀ g ∈ wire cfg (start s frames) as, g.rxEr = false :=
  wire_rxEr hmin hlen (b := Bursts.empty) has
    (.between [] rfl ⟨Or.inl hs.state, hs.tready, hs.txEr⟩ rfl fun _ => rfl)

theorem frames_ne_nil (hlen : ∀ f ∈ frames, 2 ≤ f.length) (k : ℕ) : ∀ f ∈ frames.take k, f ≠ [] :=
  fun f hf => List.ne_nil_of_length_pos (by have := hlen f (List.mem_of_mem_take hf); omega)

/-- The bursts of a list, with the rest of the last one, are the first frames. -/
theorem Transmitted.exists_take {b : Bursts (BitVec 8)} (h : Transmitted cfg frames b) :
    ∃ k, b.part = [] ∧ (frames.take k).map (encode cfg) = b.whole ∨
      ∃ f, b.part <+: f ∧ (frames.take k).map (encode cfg) = b.whole ++ [f] := by
  rcases h.part with hnone | ⟨f, hf, hnext⟩
  · exact ⟨_, Or.inl ⟨hnone, (eq_take_map h.whole).symm⟩⟩
  · exact ⟨_, Or.inr ⟨_, hf, (eq_take_map hnext).symm⟩⟩

/-- What is delivered at any time is a beginning of what the frames make. -/
theorem linked_beginning (hmin : (cfg.minFrameLength - 5).toNat < 65536)
    (hlen : ∀ f ∈ frames, 2 ≤ f.length) (hs : Reset s) (hr : r.Reset)
    (has : Fair cfg (start s frames) as) :
    linked cfg (start s frames) r as <+: frames.flatMap (expectedBeats cfg) := by
  have hsent := (sent_run hmin hlen hs has).transmitted
  rw [← watch_wire hs.txEn] at hsent
  obtain ⟨k, hfs⟩ := hsent.exists_take
  have hne := frames_ne_nil hlen k
  have hformed : ∀ f ∈ (frames.take k).map (encode cfg), Formed f := formed_map hne
  obtain ⟨us, noise, hstream, hcarries, hnoise, hlong⟩ :=
    completed (symbols_noError hmin hlen hs has) hformed hfs
  rw [linked_eq]
  calc heard r (wire cfg (start s frames) as).dropLast
      <+: heard r (us.flatMap Segment.symbols ++ noise) :=
        heard_mono (( List.dropLast_prefix _).trans hstream) r
    _ = (frames.take k).flatMap (expectedBeats cfg) := by
        rw [heard_segments hr hcarries.ok (fun g hg => not_isSfd (hnoise g hg)) hlong,
          hcarries.deliver hne]
    _ <+: frames.flatMap (expectedBeats cfg) := flatMap_take_beginning _ _ _

/-- Nothing is on the GMII when there is nothing to send. -/
theorem wire_quiet : ∀ {bs : List Axis} {a : Axis} {x : Fed}, Fair cfg x (a :: bs) → Between x.1 →
    x.1.state = .idle → x.2.queue = [] → ∀ g ∈ wire cfg (fedStep cfg x a) bs, byteOf g = none
  | bs, a, x, hbs, hbetween, hidle, hqueue => by
    have hvalid : a.tvalid = false := by
      have hshows : x.2.Shows a := hbs.1
      unfold Source.Shows at hshows
      rw [hqueue] at hshows
      exact hshows.1
    obtain ⟨hnext, hgmii⟩ := hbetween.waits cfg (a := a) (Or.inr hvalid)
    have hsymbol : byteOf (fedStep cfg x a).1.symbol = none := hgmii
    match bs with
    | [] =>
      intro g hg
      rw [List.mem_singleton.mp hg, hsymbol]
    | b :: bs =>
      have hidle' : (fedStep cfg x a).1.state = .idle := by
        simp [fedStep, Tx.step, Tx.clk, Tx.comb, Tx.byState, Tx.idle, hidle, hvalid, Tx.Comb.default]
      have hqueue' : (fedStep cfg x a).2.queue = [] := by
        rw [fedStep, hbetween.tready, Source.queue_next, hqueue]
      have ih := wire_quiet (x := fedStep cfg x a) hbs.2 hnext hidle' hqueue'
      intro g hg
      rcases List.mem_cons.mp hg with rfl | hg
      · exact hsymbol
      · exact ih g hg

theorem wire_append (b : Axis) (bs : List Axis) : ∀ (as : List Axis) (x : Fed),
    wire cfg x (as ++ b :: bs) =
      wire cfg x as ++ wire cfg (fedStep cfg (as.foldl (fedStep cfg) x) b) bs
  | [], _ => rfl
  | a :: as, x => by
    rw [List.cons_append, wire, wire_append b bs as, wire]
    rfl

theorem length_wire : ∀ (as : List Axis) (x : Fed), (wire cfg x as).length = as.length + 1
  | [], _ => rfl
  | _ :: as, x => by rw [wire, List.length_cons, length_wire as, List.length_cons]

/-- All frames are out, and five symbols more. -/
theorem linked_complete (hmin : (cfg.minFrameLength - 5).toNat < 65536)
    (hlen : ∀ f ∈ frames, 2 ≤ f.length) (hs : Reset s) (hr : r.Reset)
    (hrun : Fair cfg (start s frames) (as ++ bs))
    (hidle : (seen cfg (start s frames) as).1.1.state = .idle)
    (hqueue : (seen cfg (start s frames) as).1.2.queue = []) (hlong : 6 ≤ bs.length) :
    linked cfg (start s frames) r (as ++ bs) = frames.flatMap (expectedBeats cfg) := by
  obtain ⟨has, hbs⟩ := (Run.along_append _ (watchGmii cfg) _ as bs
    (start s frames, Bursts.empty)).mp hrun
  obtain ⟨done, hall, hmac, hwhole, hpart⟩ := (sent_run hmin hlen hs has).of_idle hidle
  rw [hqueue, List.append_nil] at hall
  obtain ⟨b, bs, rfl⟩ := List.exists_cons_of_ne_nil (List.ne_nil_of_length_pos (l := bs) (by omega))
  have hquiet := wire_quiet hbs hmac hidle hqueue
  have hfst : (seen cfg (start s frames) as).1 = as.foldl (fedStep cfg) (start s frames) :=
    Run.noted_fst (fedStep cfg) (watchGmii cfg) as (start s frames, Bursts.empty)
  rw [← watch_wire hs.txEn] at hwhole hpart
  obtain ⟨ts, gap, cur, hlist, hts, hgap, hcur⟩ :=
    Bursts.exists_stretches byteOf (wire cfg (start s frames) as)
  have hcur' : cur = [] := by simpa [hpart] using hcur
  rw [hwhole, ← hall] at hts
  have her := symbols_noError hmin hlen hs has
  have hwire : (wire cfg (start s frames) (as ++ b :: bs)).dropLast =
      ts.flatMap Bursts.Stretch.symbols ++
        (gap ++ (wire cfg (fedStep cfg (seen cfg (start s frames) as).1 b) bs).dropLast) := by
    rw [wire_append, ← hfst, List.dropLast_append_of_ne_nil, hlist, hcur', List.append_nil,
      List.append_assoc]
    exact List.ne_nil_of_length_pos (by rw [length_wire]; omega)
  rw [linked_eq, hwire]
  refine heard_stretches hr hts (fun f hf => ?_)
    (fun g hg => her g (by rw [hlist]; exact List.mem_append_left _ hg)) (fun g hg => ?_) ?_
  · exact List.ne_nil_of_length_pos (by have := hlen f hf; omega)
  · exact (List.mem_append.mp hg).elim (hgap g) fun hg => hquiet g (List.mem_of_mem_dropLast hg)
  · rw [List.length_append, List.length_dropLast, length_wire]
    rw [List.length_cons] at hlong
    omega

end

end EthMac
end Xc7Tools
