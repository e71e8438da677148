/-
# eth_mac_1g: what is received

The receiver delays the GMII by five edges, so that it knows at a byte whether
the four after it and the symbol on the GMII belong to the same frame.
`look` is that machine without the delay: it reads a list and looks five
symbols ahead. The pipeline does the same (`heard_eq`).

A stream is noise, the delimiter, the body of a frame and at least one symbol
without `gmii_rx_dv`, again and again (`Segment`). Of every body of five bytes
or more the receiver delivers all bytes, with the check (`deliver`): `tlast`
is on the last byte of the check, `tuser` on the last byte before it, if the
check is wrong. So `tuser` and `tlast` are never on one beat, but `fcs_reg` is
at the residue when the check was right, and only then. An `gmii_rx_er` before
the check cuts the frame off, with `tuser` and `tlast` on the byte it came
with.

Key definitions: `Beat`, `heard`, `look`, `Sees`, `Segment`, `deliver`.
Key theorems: `heard_eq`, `look_segment`, `heard_segments`,
`frames_received`.
-/
import Mathlib.Data.List.TakeWhile
import Xc7Tools.EthMac.Frame

namespace Xc7Tools
namespace EthMac

open Rx (Gmii)

/-- A beat of the AXI stream, with `fcs_reg` if it is a last one. -/
structure Beat where
  tdata : BitVec 8
  tlast : Bool
  tuser : Bool
  fcs : Option (BitVec 32)
  deriving DecidableEq

/-- The beat the registers show. -/
def Rx.beat (s : Rx) : List Beat :=
  if s.mAxis.tvalid then
    [⟨s.mAxis.tdata, s.mAxis.tlast, s.mAxis.tuser, if s.mAxis.tlast then some s.fcs else none⟩]
  else []

/-- The beats of a run. -/
def heard : Rx → List Gmii → List Beat
  | _, [] => []
  | s, g :: gs => (s.step g).beat ++ heard (s.step g) gs

/-! ### Five symbols ahead -/

/-- The states, with the register of the CRC. -/
inductive Phase where
  | idle
  | payload (c : BitVec 32)
  | crc (n : BitVec 2) (c : BitVec 32)
  | waitLast
  deriving DecidableEq

/-- The delimiter. -/
def Rx.Gmii.isSfd (g : Gmii) : Bool := g.rxDv && !g.rxEr && g.rxd == ethSfd

/-- A byte and its beat: an error cuts the frame off, and the end of the frame is five symbols
ahead. -/
def onPayload (c : BitVec 32) (x0 x1 x2 x3 x4 y : Gmii) : List Beat × Phase :=
  let c' := crcNext x0.rxd c
  if x0.rxEr && x0.rxDv && x1.rxDv && x2.rxDv && x3.rxDv && x4.rxDv then
    ([⟨x0.rxd, true, true, some 0xDEADBEEF⟩], .waitLast)
  else if !y.rxDv then
    ([⟨x0.rxd, false, x1.rxEr || x2.rxEr || x3.rxEr || x4.rxEr ||
      crcBytes c' [x1.rxd, x2.rxd, x3.rxd, x4.rxd] != residue, none⟩], .crc 0 c')
  else ([⟨x0.rxd, false, false, none⟩], .payload c')

/-- What the receiver makes of the symbol `x0`, with the next five. -/
def on : Phase → (x0 x1 x2 x3 x4 y : Gmii) → List Beat × Phase
  | .idle, x0, x1, x2, x3, x4, _ =>
    ([], if x0.isSfd && x1.rxDv && x2.rxDv && x3.rxDv && x4.rxDv then .payload crcInit else .idle)
  | .payload c, x0, x1, x2, x3, x4, y => onPayload c x0 x1 x2 x3 x4 y
  | .crc n c, x0, _, _, _, _, _ =>
    let c' := crcNext x0.rxd c
    if n = 3 then ([⟨x0.rxd, true, false, some c'⟩], .idle)
    else ([⟨x0.rxd, false, false, none⟩], .crc (n + 1) c')
  | .waitLast, _, _, _, _, _, y => ([], if y.rxDv then .waitLast else .idle)

/-- The receiver on a list of symbols. -/
def look : Phase → List Gmii → List Beat
  | ph, x0 :: x1 :: x2 :: x3 :: x4 :: y :: gs =>
    (on ph x0 x1 x2 x3 x4 y).1 ++ look (on ph x0 x1 x2 x3 x4 y).2 (x1 :: x2 :: x3 :: x4 :: y :: gs)
  | _, _ => []

/-! ### The pipeline -/

/-- The state, and the register of the CRC where it counts. -/
def Phase.Of (ph : Phase) (s : Rx) : Prop :=
  match ph with
  | .idle => s.state = .idle
  | .payload c => s.state = .payload ∧ s.crcState = c
  | .crc n c => s.state = .crc ∧ s.crcCnt = n ∧ s.crcState = c
  | .waitLast => s.state = .waitLast

/-- The pipeline holds five symbols; `gmii_rx_dv` is held back where a later one is low. -/
structure Sees (s : Rx) (x0 x1 x2 x3 x4 : Gmii) : Prop where
  rxd : (s.rxdD4, s.rxdD3, s.rxdD2, s.rxdD1, s.rxdD0) = (x0.rxd, x1.rxd, x2.rxd, x3.rxd, x4.rxd)
  er : (s.erD4, s.erD3, s.erD2, s.erD1, s.erD0) = (x0.rxEr, x1.rxEr, x2.rxEr, x3.rxEr, x4.rxEr)
  dv0 : s.dvD0 = x4.rxDv
  dv1 : s.dvD1 = (x3.rxDv && x4.rxDv)
  dv2 : s.dvD2 = (x2.rxDv && x3.rxDv && x4.rxDv)
  dv3 : s.dvD3 = (x1.rxDv && x2.rxDv && x3.rxDv && x4.rxDv)
  dv4 : s.dvD4 = (x0.rxDv && x1.rxDv && x2.rxDv && x3.rxDv && x4.rxDv)

variable {s : Rx} {ph : Phase} {x0 x1 x2 x3 x4 g : Gmii}

/-- What the combinational block assigns on the board. -/
def Rx.assigns (s : Rx) (g : Gmii) : Rx.Comb := Rx.byState g s (Rx.Comb.default s)

theorem step_pipeline : (s.step g).rxdD0 = g.rxd ∧ (s.step g).rxdD1 = s.rxdD0 ∧
    (s.step g).rxdD2 = s.rxdD1 ∧ (s.step g).rxdD3 = s.rxdD2 ∧ (s.step g).rxdD4 = s.rxdD3 ∧
    (s.step g).erD0 = g.rxEr ∧ (s.step g).erD1 = s.erD0 ∧ (s.step g).erD2 = s.erD1 ∧
    (s.step g).erD3 = s.erD2 ∧ (s.step g).erD4 = s.erD3 :=
  ⟨rfl, rfl, rfl, rfl, rfl, rfl, rfl, rfl, rfl, rfl⟩

theorem step_dv : (s.step g).dvD0 = g.rxDv ∧ (s.step g).dvD1 = (s.dvD0 && g.rxDv) ∧
    (s.step g).dvD2 = (s.dvD1 && g.rxDv) ∧ (s.step g).dvD3 = (s.dvD2 && g.rxDv) ∧
    (s.step g).dvD4 = (s.dvD3 && g.rxDv) :=
  ⟨rfl, rfl, rfl, rfl, rfl⟩

theorem step_assigns : (s.step g).state = (s.assigns g).state ∧
    (s.step g).mAxis = (s.assigns g).mAxis ∧ (s.step g).fcs = (s.assigns g).fcs ∧
    (s.step g).crcCnt = (s.assigns g).crcCnt ∧
    (s.step g).crcState = (if (s.assigns g).resetCrc then crcInit
      else if (s.assigns g).updateCrc then s.crcNext else s.crcState) :=
  ⟨rfl, rfl, rfl, rfl, rfl⟩

/-- The symbols move on. -/
theorem Sees.step (h : Sees s x0 x1 x2 x3 x4) : Sees (s.step g) x1 x2 x3 x4 g := by
  obtain ⟨hd0, hd1, hd2, hd3, hd4, he0, he1, he2, he3, he4⟩ := step_pipeline (s := s) (g := g)
  obtain ⟨hv0, hv1, hv2, hv3, hv4⟩ := step_dv (s := s) (g := g)
  have hrxd := h.rxd
  have her := h.er
  simp only [Prod.mk.injEq] at hrxd her
  refine ⟨?_, ?_, hv0, ?_, ?_, ?_, ?_⟩
  · rw [hd4, hd3, hd2, hd1, hd0, hrxd.2.1, hrxd.2.2.1, hrxd.2.2.2.1, hrxd.2.2.2.2]
  · rw [he4, he3, he2, he1, he0, her.2.1, her.2.2.1, her.2.2.2.1, her.2.2.2.2]
  · rw [hv1, h.dv0]
  · rw [hv2, h.dv1]
  · rw [hv3, h.dv2]
  · rw [hv4, h.dv3]

theorem Sees.crcNext (h : Sees s x0 x1 x2 x3 x4) : s.crcNext = EthMac.crcNext x0.rxd s.crcState := by
  rw [Rx.crcNext, (Prod.mk.inj h.rxd).1]

theorem Sees.go_iff (h : Sees s x0 x1 x2 x3 x4) : (s.dvD4 && !s.erD4 && s.rxdD4 == ethSfd) =
    (x0.isSfd && x1.rxDv && x2.rxDv && x3.rxDv && x4.rxDv) := by
  rw [h.dv4, (Prod.mk.inj h.er).1, (Prod.mk.inj h.rxd).1, Rx.Gmii.isSfd]
  cases x0.rxDv <;> cases x0.rxEr <;> cases x0.rxd == ethSfd <;> simp

/-- An edge in STATE_IDLE. -/
theorem Sees.on_idle (h : Sees s x0 x1 x2 x3 x4) (hph : Phase.idle.Of s) :
    (s.step g).beat = [] ∧ (on .idle x0 x1 x2 x3 x4 g).2.Of (s.step g) := by
  have hidle : s.state = .idle := hph
  have hgo := h.go_iff
  obtain ⟨hstate, haxis, -, -, hcrc⟩ := step_assigns (s := s) (g := g)
  simp only [on, ← hgo]
  cases hcase : s.dvD4 && !s.erD4 && s.rxdD4 == ethSfd <;>
    simp only [Rx.assigns, Rx.byState, hidle, Rx.idle, hcase, Bool.false_eq_true, if_true, if_false,
      Rx.Comb.default] at hstate haxis hcrc
  · exact ⟨by simp [Rx.beat, haxis], hstate⟩
  · exact ⟨by simp [Rx.beat, haxis], hstate, hcrc⟩

/-- An edge in STATE_CRC. -/
theorem Sees.on_crc {n : BitVec 2} {c : BitVec 32} (h : Sees s x0 x1 x2 x3 x4)
    (hph : (Phase.crc n c).Of s) :
    (s.step g).beat = (on (.crc n c) x0 x1 x2 x3 x4 g).1 ∧
      (on (.crc n c) x0 x1 x2 x3 x4 g).2.Of (s.step g) := by
  obtain ⟨hs, hcnt, rfl⟩ := hph
  have hnext := h.crcNext
  obtain ⟨hstate, haxis, hfcs, hcnt', hcrc⟩ := step_assigns (s := s) (g := g)
  simp only [on]
  by_cases h3 : n = 3
  · simp only [Rx.assigns, Rx.byState, hs, Rx.crc, hcnt, h3, if_true, Rx.Comb.default, hnext,
      (Prod.mk.inj h.rxd).1] at hstate haxis hfcs
    rw [if_pos h3]
    exact ⟨by simp [Rx.beat, haxis, hfcs], hstate⟩
  · simp only [Rx.assigns, Rx.byState, hs, Rx.crc, hcnt, h3, if_true, if_false, Rx.Comb.default,
      Bool.false_eq_true, hnext, (Prod.mk.inj h.rxd).1] at hstate haxis hcnt' hcrc
    rw [if_neg h3]
    exact ⟨by simp [Rx.beat, haxis], hstate, hcnt', hcrc⟩

/-- An edge in STATE_WAIT_LAST. -/
theorem on_waitLast (hph : Phase.waitLast.Of s) :
    (s.step g).beat = [] ∧ (on .waitLast x0 x1 x2 x3 x4 g).2.Of (s.step g) := by
  have hwait : s.state = .waitLast := hph
  obtain ⟨hstate, haxis, -⟩ := step_assigns (s := s) (g := g)
  simp only [on]
  cases hdv : g.rxDv <;>
    simp only [Rx.assigns, Rx.byState, hwait, Rx.waitLast, hdv, Bool.not_true, Bool.not_false,
      Bool.false_eq_true, if_true, if_false, Rx.Comb.default] at hstate haxis <;>
    exact ⟨by simp [Rx.beat, haxis], hstate⟩

/-- An edge in STATE_PAYLOAD. -/
theorem Sees.on_payload {c : BitVec 32} (h : Sees s x0 x1 x2 x3 x4) (hph : (Phase.payload c).Of s) :
    (s.step g).beat = (on (.payload c) x0 x1 x2 x3 x4 g).1 ∧
      (on (.payload c) x0 x1 x2 x3 x4 g).2.Of (s.step g) := by
  obtain ⟨hs, rfl⟩ := hph
  have hnext := h.crcNext
  have hrxd := h.rxd
  have her := h.er
  simp only [Prod.mk.injEq] at hrxd her
  obtain ⟨hd4, hd3, hd2, hd1, hd0⟩ := hrxd
  obtain ⟨he4, he3, he2, he1, he0⟩ := her
  have hcut : (s.dvD4 && s.erD4) =
      (x0.rxEr && x0.rxDv && x1.rxDv && x2.rxDv && x3.rxDv && x4.rxDv) := by
    rw [h.dv4, he4]
    cases x0.rxEr <;> simp
  have hcheck : s.rxdD0 ++ s.rxdD1 ++ s.rxdD2 ++ s.rxdD3 = ~~~EthMac.crcNext x0.rxd s.crcState ↔
      crcBytes (EthMac.crcNext x0.rxd s.crcState) [x1.rxd, x2.rxd, x3.rxd, x4.rxd] = residue := by
    rw [crcBytes_check, hd0, hd1, hd2, hd3]
  have herr : (s.erD0 || s.erD1 || s.erD2 || s.erD3) =
      (x1.rxEr || x2.rxEr || x3.rxEr || x4.rxEr) := by
    rw [he0, he1, he2, he3]
    cases x1.rxEr <;> cases x2.rxEr <;> cases x3.rxEr <;> simp
  obtain ⟨hstate, haxis, hfcs, hcnt, hcrc⟩ := step_assigns (s := s) (g := g)
  simp only [on, onPayload]
  simp only [Rx.assigns, Rx.byState, hs, Rx.payload, hcut, hcheck, herr, Rx.Comb.default, hnext, hd4]
    at hstate haxis hfcs hcnt hcrc
  by_cases hx : (x0.rxEr && x0.rxDv && x1.rxDv && x2.rxDv && x3.rxDv && x4.rxDv) = true
  · simp only [hx, if_true] at hstate haxis hfcs hcnt hcrc ⊢
    exact ⟨by simp [Rx.beat, haxis, hfcs], hstate⟩
  · by_cases hend : g.rxDv = true
    · simp only [hx, hend, Bool.not_true, Bool.false_eq_true, if_true, if_false] at hstate haxis hcrc ⊢
      exact ⟨by simp [Rx.beat, haxis], hstate, hcrc⟩
    · simp only [hx, hend, Bool.not_false, Bool.false_eq_true, if_true, if_false] at hstate haxis hcnt hcrc ⊢
      by_cases he : (x1.rxEr || x2.rxEr || x3.rxEr || x4.rxEr) = true
      · simp only [he, if_true] at hstate haxis hcnt hcrc
        exact ⟨by simp [Rx.beat, haxis, he], hstate, hcnt, hcrc⟩
      · simp only [he] at hstate haxis hcnt hcrc
        by_cases hr : crcBytes (EthMac.crcNext x0.rxd s.crcState)
            [x1.rxd, x2.rxd, x3.rxd, x4.rxd] = residue
        · simp only [hr, if_true] at hstate haxis hcnt hcrc
          exact ⟨by simp [Rx.beat, haxis, he, hr], hstate, hcnt, hcrc⟩
        · simp only [hr, if_false] at hstate haxis hcnt hcrc
          exact ⟨by simp [Rx.beat, haxis, he, hr], hstate, hcnt, hcrc⟩

theorem Sees.edge (h : Sees s x0 x1 x2 x3 x4) (hph : ph.Of s) :
    (s.step g).beat = (on ph x0 x1 x2 x3 x4 g).1 ∧ (on ph x0 x1 x2 x3 x4 g).2.Of (s.step g) := by
  cases ph with
  | idle => exact h.on_idle hph
  | payload c => exact h.on_payload hph
  | crc n c => exact h.on_crc hph
  | waitLast => exact on_waitLast hph

/-- **The pipeline reads the list five symbols behind.** -/
theorem heard_eq : ∀ (gs : List Gmii) {s : Rx} {ph : Phase} {x0 x1 x2 x3 x4 : Gmii},
    Sees s x0 x1 x2 x3 x4 → ph.Of s → heard s gs = look ph (x0 :: x1 :: x2 :: x3 :: x4 :: gs)
  | [], _, _, _, _, _, _, _, _, _ => rfl
  | g :: gs, s, ph, x0, x1, x2, x3, x4, h, hph => by
    obtain ⟨hbeat, hph'⟩ := h.edge (g := g) hph
    rw [heard, hbeat, heard_eq gs h.step hph', look]

/-! ### Streams of frames -/

/-- Noise, the delimiter, the body of a frame and what is behind it. -/
structure Segment where
  noise : List Gmii
  sfd : Gmii
  payload : List Gmii
  check : Gmii × Gmii × Gmii × Gmii
  low : List Gmii

namespace Segment

/-- The four bytes behind the payload. -/
def fcs (t : Segment) : List Gmii := [t.check.1, t.check.2.1, t.check.2.2.1, t.check.2.2.2]

def body (t : Segment) : List Gmii := t.payload ++ t.fcs

/-- The payload up to the first error. -/
def clean (t : Segment) : List Gmii := t.payload.takeWhile (!·.rxEr)

/-- The payload from the first error on. -/
def rest (t : Segment) : List Gmii := t.payload.dropWhile (!·.rxEr)

def symbols (t : Segment) : List Gmii := t.noise ++ t.sfd :: (t.body ++ t.low)

/-- Noise has no delimiter in it, the frame is not interrupted, and there is a symbol behind it that
is not of a frame; two, after an error on the last byte of the payload. -/
structure Ok (t : Segment) : Prop where
  noise : ∀ x ∈ t.noise, x.isSfd = false
  sfd : t.sfd.isSfd = true
  body : ∀ x ∈ t.body, x.rxDv = true
  nonempty : t.payload ≠ []
  low : ∀ x ∈ t.low, x.rxDv = false
  one_le : 1 ≤ t.low.length
  two_le : t.rest.length = 1 → 2 ≤ t.low.length

end Segment

/-- A byte with nothing to say about the frame. -/
def plain (x : Gmii) : Beat := ⟨x.rxd, false, false, none⟩

/-- The bytes of some symbols. -/
def bytes (xs : List Gmii) : List (BitVec 8) := xs.map (·.rxd)

/-- The frame is bad: an error came with its check, or the check is wrong. -/
def Segment.bad (t : Segment) : Bool :=
  t.fcs.any (·.rxEr) || crcBytes crcInit (bytes t.body) != residue

/-- The beats of a frame. -/
def deliver (t : Segment) : List Beat :=
  match t.rest with
  | x :: _ => t.clean.map plain ++ [⟨x.rxd, true, true, some 0xDEADBEEF⟩]
  | [] =>
    t.payload.dropLast.map plain ++
      t.payload.getLast?.toList.map (fun x => ⟨x.rxd, false, t.bad, none⟩) ++
      t.fcs.dropLast.map plain ++
      [⟨t.check.2.2.2.rxd, true, false, some (crcBytes crcInit (bytes t.body))⟩]

/-! ### The frame on the list -/

theorem exists_five {l : List Gmii} (h : 5 ≤ l.length) :
    ∃ x1 x2 x3 x4 y gs, l = x1 :: x2 :: x3 :: x4 :: y :: gs := by
  match l, h with
  | x1 :: x2 :: x3 :: x4 :: y :: gs, _ => exact ⟨x1, x2, x3, x4, y, gs, rfl⟩

/-- A symbol that is not the start of a frame. -/
theorem look_idle_cons {l : List Gmii} (hl : 5 ≤ l.length)
    (h : x0.isSfd = false ∨ ∃ x ∈ l.take 4, x.rxDv = false) :
    look .idle (x0 :: l) = look .idle l := by
  obtain ⟨x1, x2, x3, x4, y, gs, rfl⟩ := exists_five hl
  have hstay : (x0.isSfd && x1.rxDv && x2.rxDv && x3.rxDv && x4.rxDv) = false := by
    rcases h with h | ⟨x, hx, h⟩
    · simp [h]
    · simp only [List.take_succ_cons, List.take_zero, List.mem_cons, List.not_mem_nil, or_false] at hx
      rcases hx with rfl | rfl | rfl | rfl <;> simp [h]
  rw [look, on, hstay]
  rfl

theorem look_noise {l : List Gmii} (hl : 5 ≤ l.length) : ∀ {ns : List Gmii},
    (∀ x ∈ ns, x.isSfd = false) → look .idle (ns ++ l) = look .idle l
  | [], _ => rfl
  | n :: ns, h => by
    rw [List.cons_append, look_idle_cons (by rw [List.length_append]; omega)
      (Or.inl (h n (List.mem_cons_self ..))), look_noise hl fun x hx => h x (List.mem_cons_of_mem n hx)]

/-- Noise to the end. -/
theorem look_noise_end : ∀ {ns : List Gmii}, (∀ x ∈ ns, x.isSfd = false) → look .idle ns = []
  | [], _ => rfl
  | n :: ns, h => by
    by_cases hl : 5 ≤ ns.length
    · rw [look_idle_cons hl (Or.inl (h n (List.mem_cons_self ..)))]
      exact look_noise_end fun x hx => h x (List.mem_cons_of_mem n hx)
    · match ns, hl with
      | [], _ | [_], _ | [_, _], _ | [_, _, _], _ | [_, _, _, _], _ => rfl
      | _ :: _ :: _ :: _ :: _ :: _, hl => exact absurd (by simp) hl

/-- A frame that is over is not taken for the start of one. -/
theorem look_rest {l : List Gmii} (hl : 5 ≤ l.length) {y : Gmii} (hy : y.rxDv = false) :
    ∀ {zs : List Gmii}, zs.length ≤ 4 → look .idle (zs ++ y :: l) = look .idle (y :: l)
  | [], _ => rfl
  | z :: zs, h => by
    rw [List.length_cons] at h
    have hmem : ∃ x ∈ (zs ++ y :: l).take 4, x.rxDv = false := by
      refine ⟨y, ?_, hy⟩
      rw [List.take_append]
      refine List.mem_append_right _ ?_
      rw [show 4 - zs.length = (3 - zs.length) + 1 by omega, List.take_succ_cons]
      exact List.mem_cons_self ..
    rw [List.cons_append, look_idle_cons (by simp; omega) (Or.inr hmem), look_rest hl hy (by omega)]

/-- After an error the receiver waits for the end of the frame. -/
theorem look_waitLast {l : List Gmii} (hl : 5 ≤ l.length) {y : Gmii} (hy : y.rxDv = false) :
    ∀ {zs : List Gmii}, (∀ z ∈ zs, z.rxDv = true) → 5 ≤ zs.length →
      look .waitLast (zs ++ y :: l) = look .idle (y :: l)
  | z0 :: z1 :: z2 :: z3 :: z4 :: z5 :: zs, h, _ => by
    have h5 : z5.rxDv = true := h z5 (by simp)
    have htail : ∀ z ∈ z1 :: z2 :: z3 :: z4 :: z5 :: zs, z.rxDv = true := fun z hz =>
      h z (List.mem_cons_of_mem z0 hz)
    have ih := look_waitLast hl hy htail (by simp)
    simpa only [List.cons_append, look, on, h5, if_true, List.nil_append] using ih
  | [z0, z1, z2, z3, z4], h, _ => by
    have ih := look_rest hl hy (show [z1, z2, z3, z4].length ≤ 4 by simp)
    simpa only [List.cons_append, look, on, hy, Bool.false_eq_true, if_false, List.nil_append] using ih

/-- The bytes of the payload, while five more of the frame follow. -/
theorem look_payload {t : List Gmii} (ht : 5 ≤ t.length) (hdv : ∀ x ∈ t.take 5, x.rxDv = true) :
    ∀ {ps : List Gmii} {c : BitVec 32}, (∀ x ∈ ps, x.rxDv = true) → (∀ x ∈ ps, x.rxEr = false) →
      look (.payload c) (ps ++ t) = ps.map plain ++ look (.payload (crcBytes c (bytes ps))) t
  | [], _, _, _ => rfl
  | p :: ps, c, hps, her => by
    have htail : ∀ x ∈ ps, x.rxDv = true := fun x hx => hps x (List.mem_cons_of_mem p hx)
    have ih := look_payload ht hdv (c := crcNext p.rxd c) htail fun x hx =>
      her x (List.mem_cons_of_mem p hx)
    have hfive : ∀ x ∈ (ps ++ t).take 5, x.rxDv = true := by
      intro x hx
      rw [List.take_append, List.mem_append] at hx
      rcases hx with hx | hx
      · exact hps x (List.mem_cons_of_mem p (List.mem_of_mem_take hx))
      · exact hdv x (List.take_subset_take_left t (Nat.sub_le 5 _) hx)
    obtain ⟨x1, x2, x3, x4, y, gs, hl⟩ := exists_five (l := ps ++ t) (by simp; omega)
    have hy : y.rxDv = true := hfive y (by simp [hl])
    have hp : p.rxEr = false := her p (List.mem_cons_self ..)
    rw [hl] at ih
    rw [List.cons_append, hl, look]
    simp only [on, onPayload, hp, hy, Bool.false_and, Bool.false_eq_true, if_false, Bool.not_true]
    rw [ih]
    rfl

theorem bytes_append (xs ys : List Gmii) : bytes (xs ++ ys) = bytes xs ++ bytes ys :=
  List.map_append

/-- The four bytes of the check. -/
theorem look_crc {l : List Gmii} (hl : 4 ≤ l.length) {c0 c1 c2 c3 y : Gmii} {c : BitVec 32} :
    look (.crc 0 c) (c0 :: c1 :: c2 :: c3 :: y :: l) =
      [plain c0, plain c1, plain c2,
        ⟨c3.rxd, true, false, some (crcBytes c (bytes [c0, c1, c2, c3]))⟩] ++
          look .idle (y :: l) := by
  match l, hl with
  | y1 :: y2 :: y3 :: y4 :: l, _ =>
    simp only [look, on, show (0 : BitVec 2) ≠ 3 by decide, show (0 + 1 : BitVec 2) ≠ 3 by decide,
      show (0 + 1 + 1 : BitVec 2) ≠ 3 by decide, show (0 + 1 + 1 + 1 : BitVec 2) = 3 by decide,
      if_true, if_false]
    simp only [List.cons_append, List.nil_append]
    rfl

/-- The last byte of the payload, and the check. -/
theorem look_check {l : List Gmii} (hl : 4 ≤ l.length) {p c0 c1 c2 c3 y : Gmii} {c : BitVec 32}
    (hp : p.rxEr = false) (hy : y.rxDv = false) :
    look (.payload c) (p :: c0 :: c1 :: c2 :: c3 :: y :: l) =
      [⟨p.rxd, false, [c0, c1, c2, c3].any (·.rxEr) ||
        crcBytes c (bytes [p, c0, c1, c2, c3]) != residue, none⟩, plain c0, plain c1, plain c2,
        ⟨c3.rxd, true, false, some (crcBytes c (bytes [p, c0, c1, c2, c3]))⟩] ++
          look .idle (y :: l) := by
  have hcrc : crcBytes c (bytes [p, c0, c1, c2, c3]) =
      crcBytes (crcNext p.rxd c) [c0.rxd, c1.rxd, c2.rxd, c3.rxd] := by
    simp only [bytes, List.map_cons, List.map_nil, crcBytes_cons]
  rw [look, hcrc]
  simp only [on, onPayload, hp, hy, Bool.false_and, Bool.false_eq_true, if_false, Bool.not_false,
    if_true, look_crc hl, List.any_cons, List.any_nil, Bool.or_false, Bool.or_assoc, bytes,
    List.map_cons, List.map_nil, List.cons_append, List.nil_append]

/-- An error before the check. -/
theorem look_error {x : Gmii} {c : BitVec 32} {l : List Gmii} (hl : 5 ≤ l.length)
    (hdv : ∀ z ∈ x :: l.take 4, z.rxDv = true) (hx : x.rxEr = true) :
    look (.payload c) (x :: l) = ⟨x.rxd, true, true, some 0xDEADBEEF⟩ :: look .waitLast l := by
  obtain ⟨x1, x2, x3, x4, y, gs, rfl⟩ := exists_five hl
  simp only [List.take_succ_cons, List.take_zero] at hdv
  rw [look]
  simp only [on, onPayload, hx, hdv x (by simp), hdv x1 (by simp), hdv x2 (by simp),
    hdv x3 (by simp), hdv x4 (by simp), Bool.and_self, if_true, List.cons_append, List.nil_append]

/-- If the error comes with the last byte of the payload the end is already over, and a second
symbol that is not of a frame is waited for. -/
theorem look_waitLast_late {c0 c1 c2 c3 y y' : Gmii} {l : List Gmii} (hl : 4 ≤ l.length)
    (hy : y.rxDv = false) (hy' : y'.rxDv = false) :
    look .waitLast (c0 :: c1 :: c2 :: c3 :: y :: y' :: l) = look .idle (y :: y' :: l) := by
  have hrest := look_rest (l := y' :: l) (by simp; omega) hy
    (show [c1, c2, c3].length ≤ 4 by simp)
  simpa only [List.cons_append, look, on, hy', Bool.false_eq_true, if_false, List.nil_append] using
    hrest

/-- A payload without an error, and the check. -/
theorem look_good {ps l : List Gmii} {p c0 c1 c2 c3 y : Gmii} {c : BitVec 32} (hl : 4 ≤ l.length)
    (hdv : ∀ x ∈ ps ++ [p, c0, c1, c2, c3], x.rxDv = true) (her : ∀ x ∈ ps ++ [p], x.rxEr = false)
    (hy : y.rxDv = false) :
    look (.payload c) (ps ++ p :: c0 :: c1 :: c2 :: c3 :: y :: l) =
      ps.map plain ++ ([⟨p.rxd, false, [c0, c1, c2, c3].any (·.rxEr) ||
        crcBytes c (bytes (ps ++ [p, c0, c1, c2, c3])) != residue, none⟩, plain c0, plain c1,
        plain c2, ⟨c3.rxd, true, false, some (crcBytes c (bytes (ps ++ [p, c0, c1, c2, c3])))⟩] ++
          look .idle (y :: l)) := by
  rw [look_payload (t := p :: c0 :: c1 :: c2 :: c3 :: y :: l) (by simp)
    (fun x hx => hdv x (List.mem_append_right ps hx))
    (fun x hx => hdv x (List.mem_append_left _ hx)) fun x hx => her x (List.mem_append_left _ hx),
    look_check hl (her p (by simp)) hy, bytes_append, crcBytes_append]

/-- A payload with an error in it. -/
theorem look_bad {ps zs l : List Gmii} {x y : Gmii} {c : BitVec 32} (hl : 5 ≤ l.length)
    (hdv : ∀ z ∈ ps ++ x :: zs, z.rxDv = true) (her : ∀ z ∈ ps, z.rxEr = false) (hx : x.rxEr = true)
    (hzs : 4 ≤ zs.length) (hy : y.rxDv = false)
    (hlate : zs.length = 4 → ∃ y' l', l = y' :: l' ∧ y'.rxDv = false) :
    look (.payload c) (ps ++ x :: (zs ++ y :: l)) =
      ps.map plain ++ (⟨x.rxd, true, true, some 0xDEADBEEF⟩ :: look .idle (y :: l)) := by
  have hfour : ∀ z ∈ x :: (zs ++ y :: l).take 4, z.rxDv = true := by
    intro z hz
    rw [List.take_append_of_le_length hzs] at hz
    rcases List.mem_cons.mp hz with rfl | hz
    · exact hdv z (by simp)
    · exact hdv z (List.mem_append_right _ (List.mem_cons_of_mem x (List.mem_of_mem_take hz)))
  have hwait : look .waitLast (zs ++ y :: l) = look .idle (y :: l) := by
    rcases hzs.eq_or_lt with h4 | h5
    · obtain ⟨y', l', rfl, hy'⟩ := hlate h4.symm
      match zs, h4 with
      | [c0, c1, c2, c3], _ =>
        exact look_waitLast_late (by simpa using hl) hy hy'
    · exact look_waitLast hl hy (fun z hz => hdv z (by simp [hz])) h5
  rw [look_payload (by simp; omega) (fun z hz => hfour z (by simpa using hz))
    (fun z hz => hdv z (List.mem_append_left _ hz)) her,
    look_error (by simp; omega) hfour hx, hwait]

theorem Segment.payload_eq (t : Segment) : t.clean ++ t.rest = t.payload :=
  List.takeWhile_append_dropWhile

theorem Segment.clean_rxEr (t : Segment) : ∀ x ∈ t.clean, x.rxEr = false := fun x hx => by
  have h := List.mem_takeWhile_imp hx
  simpa using h

theorem Segment.rest_rxEr (t : Segment) {x : Gmii} {zs : List Gmii} (h : t.rest = x :: zs) :
    x.rxEr = true := by
  have hdrop : t.payload.dropWhile (fun x : Gmii => !x.rxEr) = x :: zs := h
  have hnot := List.head?_dropWhile_not (fun x : Gmii => !x.rxEr) t.payload
  rw [hdrop, List.head?_cons] at hnot
  simpa using hnot

/-- The delimiter: four bytes of the frame are behind it. -/
theorem look_start {t : Segment} (ht : t.Ok) {l : List Gmii} (hl : 5 ≤ l.length) :
    look .idle (t.symbols ++ l) = look (.payload crcInit) (t.body ++ (t.low ++ l)) := by
  have hlong : 5 ≤ t.body.length := by
    have := List.length_pos_of_ne_nil ht.nonempty
    simp only [Segment.body, Segment.fcs, List.length_append, List.length_cons, List.length_nil]
    omega
  have hsym : t.symbols ++ l = t.noise ++ t.sfd :: (t.body ++ (t.low ++ l)) := by
    simp [Segment.symbols]
  rw [hsym, look_noise (by simp; omega) ht.noise]
  obtain ⟨x1, x2, x3, x4, x5, gs, hb⟩ := exists_five hlong
  have hfour : ∀ x ∈ [x1, x2, x3, x4], x.rxDv = true := fun x hx => ht.body x (by
    rw [hb]
    simp only [List.mem_cons, List.not_mem_nil, or_false] at hx ⊢
    tauto)
  rw [hb]
  simp only [List.cons_append, look, on, ht.sfd, hfour x1 (by simp), hfour x2 (by simp),
    hfour x3 (by simp), hfour x4 (by simp), Bool.and_self, if_true, List.nil_append]

/-- **A frame on the list.** -/
theorem look_segment {t : Segment} (ht : t.Ok) {l : List Gmii} (hl : 5 ≤ l.length) :
    look .idle (t.symbols ++ l) = deliver t ++ look .idle l := by
  obtain ⟨y, low, hlow⟩ := List.exists_cons_of_ne_nil (List.ne_nil_of_length_pos ht.one_le)
  have hy : y.rxDv = false := ht.low y (by simp [hlow])
  have hend : look .idle (y :: (low ++ l)) = look .idle l := by
    rw [← List.cons_append, ← hlow]
    exact look_noise hl fun x hx => by simp [Rx.Gmii.isSfd, ht.low x hx]
  rw [look_start ht hl, deliver]
  cases hrest : t.rest with
  | nil =>
    have hclean : t.clean = t.payload := by rw [← t.payload_eq, hrest, List.append_nil]
    obtain ⟨ps, p, hps⟩ := (List.eq_nil_or_concat t.payload).resolve_left ht.nonempty
    rw [List.concat_eq_append] at hps
    have hbody : t.body = ps ++ p :: t.fcs := by simp [Segment.body, hps]
    have hlist : t.body ++ (t.low ++ l) = ps ++ p :: t.check.1 :: t.check.2.1 :: t.check.2.2.1 ::
        t.check.2.2.2 :: y :: (low ++ l) := by
      simp [hbody, Segment.fcs, hlow]
    rw [hlist, look_good (by simp; omega) (fun x hx => ht.body x (by rwa [hbody]))
      (fun x hx => t.clean_rxEr x (by rwa [hclean, hps])) hy, hend, hps, Segment.bad, hbody]
    simp [Segment.fcs, List.append_assoc]
  | cons x zs =>
    have hpay : t.payload = t.clean ++ x :: zs := by rw [← t.payload_eq, hrest]
    have hbody : t.body = t.clean ++ x :: (zs ++ t.fcs) := by simp [Segment.body, hpay]
    have hlist : t.body ++ (t.low ++ l) = t.clean ++ x :: ((zs ++ t.fcs) ++ y :: (low ++ l)) := by
      simp [hbody, hlow]
    rw [hlist, look_bad (by simp; omega) (fun z hz => ht.body z (by rwa [hbody])) t.clean_rxEr ?_
      (by simp [Segment.fcs]) hy ?_, hend]
    · simp
    · exact t.rest_rxEr hrest
    · intro hfour
      have hzs : zs.length = 0 := by simpa [Segment.fcs] using hfour
      have htwo := ht.two_le (by rw [hrest, List.length_cons, hzs])
      rw [hlow, List.length_cons] at htwo
      obtain ⟨y', low', hl'⟩ := List.exists_cons_of_ne_nil (List.ne_nil_of_length_pos (l := low)
        (by omega))
      exact ⟨y', low' ++ l, by rw [hl']; rfl, ht.low y' (by simp [hlow, hl'])⟩

/-! ### A run -/

/-- After reset no symbol of a frame is in the pipeline. -/
structure Rx.Reset (s : Rx) : Prop where
  state : s.state = .idle
  dv : s.dvD0 = false ∧ s.dvD1 = false ∧ s.dvD2 = false ∧ s.dvD3 = false ∧ s.dvD4 = false

theorem Rx.reset_reached (i : Rx.In) (hi : i.rst = true) (s : Rx) : (s.clk i).Reset := by
  cases hc : i.clkEnable <;> cases hm : i.miiSelect <;> cases ho : s.miiOdd <;>
    exact ⟨by simp [Rx.clk, Rx.delay, hi, hc, hm, ho], by simp [Rx.clk, Rx.delay, hi, hc, hm, ho]⟩

theorem look_segments {l : List Gmii} (hl : 5 ≤ l.length) : ∀ {ts : List Segment},
    (∀ t ∈ ts, t.Ok) → look .idle (ts.flatMap Segment.symbols ++ l) = ts.flatMap deliver ++ look .idle l
  | [], _ => rfl
  | t :: ts, h => by
    have htail : ∀ u ∈ ts, u.Ok := fun u hu => h u (List.mem_cons_of_mem t hu)
    have ih := look_segments hl htail
    rw [List.flatMap_cons, List.append_assoc, look_segment (h t (List.mem_cons_self ..)) (by simp; omega),
      ih, List.flatMap_cons, List.append_assoc]

/-- The frames of a stream are delivered, and nothing else is. -/
theorem heard_segments {s : Rx} (hs : s.Reset) {ts : List Segment} (hts : ∀ t ∈ ts, t.Ok)
    {noise : List Gmii} (hnoise : ∀ x ∈ noise, x.isSfd = false) (hlong : 5 ≤ noise.length) :
    heard s (ts.flatMap Segment.symbols ++ noise) = ts.flatMap deliver := by
  have hsees : Sees s ⟨s.rxdD4, false, s.erD4⟩ ⟨s.rxdD3, false, s.erD3⟩ ⟨s.rxdD2, false, s.erD2⟩
      ⟨s.rxdD1, false, s.erD1⟩ ⟨s.rxdD0, false, s.erD0⟩ :=
    ⟨rfl, rfl, hs.dv.1, hs.dv.2.1, hs.dv.2.2.1, hs.dv.2.2.2.1, hs.dv.2.2.2.2⟩
  have hstart : ∀ x ∈ [(⟨s.rxdD4, false, s.erD4⟩ : Gmii), ⟨s.rxdD3, false, s.erD3⟩,
      ⟨s.rxdD2, false, s.erD2⟩, ⟨s.rxdD1, false, s.erD1⟩, ⟨s.rxdD0, false, s.erD0⟩],
      x.isSfd = false := by
    simp [Rx.Gmii.isSfd]
  have hidle : Phase.idle.Of s := hs.state
  rw [heard_eq _ hsees hidle]
  exact (look_noise (by simp; omega) hstart).trans
    ((look_segments hlong hts).trans (by rw [look_noise_end hnoise, List.append_nil]))

/-- A frame without an error before its check. -/
theorem deliver_whole {t : Segment} {ps : List Gmii} {p : Gmii} (hrest : t.rest = [])
    (hps : t.payload = ps ++ [p]) :
    deliver t = ps.map plain ++ [⟨p.rxd, false, t.bad, none⟩] ++ [t.check.1, t.check.2.1,
      t.check.2.2.1].map plain ++
        [⟨t.check.2.2.2.rxd, true, false, some (crcBytes crcInit (bytes t.body))⟩] := by
  rw [deliver, hrest, hps]
  simp [Segment.fcs]

/-- **The frames of a stream are delivered, with their checks**, and nothing else is; of a frame
without an error before its check all bytes are, and it is a good one if `fcs_reg` is at the residue
when its last byte is delivered and no error came with its check. -/
theorem frames_received {s : Rx} (hs : s.Reset) {ts : List Segment} (hts : ∀ t ∈ ts, t.Ok)
    {noise : List Gmii} (hnoise : ∀ x ∈ noise, x.isSfd = false) (hlong : 5 ≤ noise.length) :
    heard s (ts.flatMap Segment.symbols ++ noise) = ts.flatMap deliver ∧
      ∀ t ∈ ts, t.rest = [] →
        (deliver t).map (·.tdata) = bytes t.body ∧
        (deliver t).map (·.tlast) = List.replicate (t.body.length - 1) false ++ [true] ∧
        ((deliver t).any (·.tuser) = false ↔
          (deliver t).getLast?.bind (·.fcs) = some residue ∧ t.fcs.any (·.rxEr) = false) := by
  refine ⟨heard_segments hs hts hnoise hlong, fun t ht hrest => ?_⟩
  obtain ⟨ps, p, hps⟩ := (List.eq_nil_or_concat t.payload).resolve_left (hts t ht).nonempty
  rw [List.concat_eq_append] at hps
  have hbody : t.body = ps ++ [p] ++ t.fcs := by rw [Segment.body, hps]
  rw [deliver_whole hrest hps]
  refine ⟨?_, ?_, ?_⟩
  · rw [hbody, bytes_append, bytes_append]
    simp [Segment.fcs, plain, bytes]
  · have hlen : t.body.length - 1 = ps.length + 4 := by simp [hbody, Segment.fcs]
    rw [hlen, List.replicate_add]
    simp only [List.map_append, List.map_map, List.map_cons, List.map_nil, List.append_assoc]
    exact congrArg₂ (· ++ ·) (List.map_const' (l := ps) (b := false)) rfl
  · have hplain : (ps.map plain).any (·.tuser) = false := by simp [plain]
    simp only [List.any_append, hplain, List.getLast?_append, List.getLast?_singleton]
    simp [plain, Segment.bad, and_comm]

/-- A frame of two bytes with a check of zeros, which is wrong, and an error on neither. -/
def badCheck : Segment where
  noise := List.replicate 7 ⟨ethPre, true, false⟩
  sfd := ⟨ethSfd, true, false⟩
  payload := [⟨1, true, false⟩, ⟨2, true, false⟩]
  check := (⟨0, true, false⟩, ⟨0, true, false⟩, ⟨0, true, false⟩, ⟨0, true, false⟩)
  low := [⟨0, false, false⟩]

/-- A receiver out of reset. -/
def Rx.afterReset : Rx :=
  ⟨.idle, false, false, 0, 0, 0, 0, 0, false, false, false, false, false, false, false, false, false,
    false, ⟨0, false, false, false⟩, false, false, 0xFFFFFFFF, crcInit, 0⟩

theorem frames_received_one :
    heard .afterReset ([badCheck].flatMap Segment.symbols ++ List.replicate 5 ⟨0, false, false⟩) =
        [badCheck].flatMap deliver ∧
      ∀ t ∈ [badCheck], t.rest = [] →
        (deliver t).map (·.tdata) = bytes t.body ∧
        (deliver t).map (·.tlast) = List.replicate (t.body.length - 1) false ++ [true] ∧
        ((deliver t).any (·.tuser) = false ↔
          (deliver t).getLast?.bind (·.fcs) = some residue ∧ t.fcs.any (·.rxEr) = false) := by
  refine frames_received ⟨rfl, rfl, rfl, rfl, rfl, rfl⟩ (fun t ht => ?_) (by decide) (by decide)
  obtain rfl := List.mem_singleton.mp ht
  exact ⟨by decide, by decide, by decide, by decide, by decide, by decide, by decide⟩

end EthMac
end Xc7Tools
