/-
# jtag_clkctl: exactly N pulses

A keyed UPDATE with FREE = 0 and count `N`, from an idle controller and with
no other keyed UPDATE too soon after it, makes `ce` 1 on exactly `N`
consecutive cycles of `clk_free`, wherever the TAP's other events fall.

Events other than a `clk_free` edge and a keyed UPDATE leave the gate alone,
so a run is a power of `Gate.tick` (`run_gate`) and its trace of `ce` is read
off these powers (`ceTrace_eq`). After a request they are: three edges through
the synchroniser, then `Gate.releasing`, whose `left` runs down to 0.

Idle means that the synchroniser is empty, `req_t` included. With `req_s`
alone (`Gate.Quiet`) this is not so: a request still under way is called off
by the next one (`quiet_not_enough`).

Key definitions: `Unkeyed`, `ceTrace`, `Gate.Idle`, `Gate.releasing`.
Key theorems: `run_gate`, `ceTrace_eq`, `Gate.tick_releasing`, `exactly_n_pulses`.
-/
import Mathlib.Logic.Function.Iterate
import Xc7Tools.Clkctl.Gateware

namespace Xc7Tools
namespace Clkctl

/-! ### Runs without a keyed UPDATE -/

/-- No UPDATE among the events is keyed. -/
def Unkeyed : State → List Event → Prop
  | _, [] => True
  | s, e :: es => (e = .update true → s.keyed = false) ∧ Unkeyed (s.step e) es

instance decidableUnkeyed : ∀ s es, Decidable (Unkeyed s es)
  | _, [] => isTrue trivial
  | s, e :: es =>
    have := decidableUnkeyed (s.step e) es
    inferInstanceAs (Decidable (_ ∧ _))

/-- The `clk_free` edges among the events. -/
def edges (es : List Event) : ℕ := es.count .clkFree

/-- `ce` in the cycle before each `clk_free` edge, which is whether the clock
gate passes that edge. -/
def ceTrace : State → List Event → List Bool
  | _, [] => []
  | s, e :: es => (if e = .clkFree then [s.gate.ce] else []) ++ ceTrace (s.step e) es

theorem ceTrace_append : ∀ (s : State) (es fs : List Event),
    ceTrace s (es ++ fs) = ceTrace s es ++ ceTrace (s.run es) fs
  | _, [], _ => rfl
  | s, e :: es, fs => by
    simp only [List.cons_append, ceTrace, ceTrace_append _ es fs, State.run_cons, List.append_assoc]

/-- An event that is neither a clock edge nor a keyed UPDATE leaves the gate. -/
theorem step_gate {s : State} {e : Event} (hk : e = .update true → s.keyed = false)
    (hc : e ≠ .clkFree) : (s.step e).gate = s.gate := by
  cases e with
  | drck sel cap shift tdi status => simp only [State.step]; split_ifs <;> rfl
  | update sel =>
    cases sel with
    | false => rfl
    | true => simp [State.step, hk rfl]
  | clkFree => exact absurd rfl hc

theorem run_gate : ∀ (es : List Event) (s : State), Unkeyed s es →
    (s.run es).gate = Gate.tick^[edges es] s.gate
  | [], _, _ => rfl
  | e :: es, s, h => by
    rw [State.run_cons, run_gate es _ h.2]
    by_cases hc : e = .clkFree
    · subst hc
      rw [edges, edges, List.count_cons_self, Function.iterate_succ_apply]
      rfl
    · rw [step_gate h.1 hc, edges, edges, List.count_cons_of_ne hc]

theorem ceTrace_eq : ∀ (es : List Event) (s : State), Unkeyed s es →
    ceTrace s es = (List.range (edges es)).map fun i => (Gate.tick^[i] s.gate).ce
  | [], _, _ => rfl
  | e :: es, s, h => by
    rw [ceTrace, ceTrace_eq es _ h.2]
    by_cases hc : e = .clkFree
    · subst hc
      rw [if_pos rfl, edges, edges, List.count_cons_self, List.range_succ_eq_map, List.map_cons,
        List.map_map]
      rfl
    · rw [if_neg hc, step_gate h.1 hc, edges, edges, List.count_cons_of_ne hc, List.nil_append]

/-! ### The gate between requests -/

namespace Gate

/-- `req_s` all equal, `left = 0`, `ce = 0` and FREE off. -/
structure Quiet (g : Gate) : Prop where
  reqS : g.reqS = 0#3 ∨ g.reqS = 7#3
  left : g.left = 0
  ce : g.ce = false
  free : g.free = false

/-- Idle: quiet, and no request on its way into the synchroniser. -/
structure Idle (g : Gate) : Prop extends Quiet g where
  reqT : g.reqS = if g.reqT then 7#3 else 0#3

instance (g : Gate) : Decidable g.Quiet :=
  decidable_of_iff (_ ∧ _ ∧ _ ∧ _)
    ⟨fun ⟨a, b, c, d⟩ => Quiet.mk a b c d, fun h => ⟨h.reqS, h.left, h.ce, h.free⟩⟩

/-- A gate at rest only looks at its synchroniser. -/
theorem tick_rest {g : Gate} (hl : g.left = 0) (hce : g.ce = false) (hf : g.free = false) :
    g.tick =
      { g with
        reqS := g.reqS.extractLsb' 0 2 ++ BitVec.ofBool g.reqT
        left := if g.fresh then g.count else 0
        ce := g.fresh && decide (g.count ≠ 0) } := by
  cases h : g.fresh <;> simp [Gate.tick, h, hl, hce, hf]

theorem Idle.tick {g : Gate} (h : g.Idle) : g.tick = g := by
  have hr := h.reqT
  rw [tick_rest h.left h.ce h.free]
  obtain ⟨ctrl, reqT, reqS, left, ce⟩ := g
  have hl : left = 0 := h.left
  have hce : ce = false := h.ce
  cases reqT <;> simp only [Bool.false_eq_true, ↓reduceIte] at hr <;> subst hr hl hce <;>
    simp [fresh]

theorem Idle.ticks {g : Gate} (h : g.Idle) (n : ℕ) : Gate.tick^[n] g = g :=
  Function.iterate_fixed h.tick n

/-- `j` cycles after a request for `sr` came through: `req_t` and `req_s` are
`r`, and the counter is `j` below `N`. -/
def releasing (sr : BitVec 32) (r : Bool) (j : ℕ) : Gate where
  ctrl := sr
  reqT := r
  reqS := if r then 7#3 else 0#3
  left := BitVec.ofNat 24 ((sr.extractLsb' 0 24).toNat - j)
  ce := decide (j < (sr.extractLsb' 0 24).toNat)

/-- Once `N` cycles are released the controller is idle. -/
theorem releasing_idle {sr : BitVec 32} (hf : sr.getLsbD 31 = false) (r : Bool) {j : ℕ}
    (hj : (sr.extractLsb' 0 24).toNat ≤ j) : (releasing sr r j).Idle where
  reqS := by cases r <;> simp [releasing]
  left := by simp only [releasing, Nat.sub_eq_zero_of_le hj]; rfl
  ce := by simp only [releasing, decide_eq_false_iff_not]; omega
  free := hf
  reqT := rfl

theorem tick_releasing {sr : BitVec 32} (hf : sr.getLsbD 31 = false) (r : Bool) (j : ℕ) :
    (releasing sr r j).tick = releasing sr r (j + 1) := by
  set N := (sr.extractLsb' 0 24).toNat with hN
  have hlt : N < 2 ^ 24 := (sr.extractLsb' 0 24).isLt
  have hfresh : (releasing sr r j).fresh = false := by
    cases r <;> simp [releasing, fresh]
  have hfree : (releasing sr r j).free = false := hf
  rcases Nat.lt_or_ge j N with hj | hj
  · -- `ce` is 1 and `left` is `N - j`
    have hne : BitVec.ofNat 24 (N - j) ≠ 0 := by
      intro h0
      have := congrArg BitVec.toNat h0
      rw [BitVec.toNat_ofNat, Nat.mod_eq_of_lt (by omega)] at this
      simp at this
      omega
    have hleft : BitVec.ofNat 24 (N - j) - 1 = BitVec.ofNat 24 (N - (j + 1)) := by
      rw [show N - j = N - (j + 1) + 1 by omega, BitVec.ofNat_add]
      exact BitVec.add_sub_cancel _ _
    have hult : (1#24).ult (BitVec.ofNat 24 (N - j)) = decide (j + 1 < N) := by
      rw [BitVec.ult_eq_decide, BitVec.toNat_ofNat, BitVec.toNat_ofNat,
        Nat.mod_eq_of_lt (by omega : N - j < 2 ^ 24)]
      simp only [decide_eq_decide]
      omega
    have hce : (releasing sr r j).ce = true := by simp [releasing, ← hN, hj]
    have hl : (releasing sr r j).left = BitVec.ofNat 24 (N - j) := rfl
    simp only [tick, hfresh, hfree, hce, hl, Bool.false_eq_true, ↓reduceIte, Bool.false_or]
    rw [if_pos ⟨hne, trivial⟩, hleft, hult]
    cases r <;> simp [releasing, ← hN]
  · have hidle := releasing_idle hf r hj
    rw [hidle.tick]
    simp only [releasing, ← hN, show N - j = 0 by omega, show N - (j + 1) = 0 by omega,
      show ¬ j < N by omega, show ¬ j + 1 < N by omega]

/-- A request takes three edges through the synchroniser. -/
theorem tick_request {g : Gate} (h : g.Idle) {sr : BitVec 32} (hf : sr.getLsbD 31 = false) :
    (g.request sr).tick.ce = false ∧ (g.request sr).tick.tick.ce = false ∧
      (g.request sr).tick.tick.tick = releasing sr (!g.reqT) 0 := by
  have hreq : g.request sr = ⟨sr, !g.reqT, if !g.reqT then 0#3 else 7#3, 0, false⟩ := by
    rw [request, h.reqT, h.left, h.ce]
    cases g.reqT <;> rfl
  have hrest : ∀ t x, (Gate.mk sr t x 0 false).tick =
      ⟨sr, t, x.extractLsb' 0 2 ++ BitVec.ofBool t,
        if (Gate.mk sr t x 0 false).fresh then sr.extractLsb' 0 24 else 0,
        (Gate.mk sr t x 0 false).fresh && decide (sr.extractLsb' 0 24 ≠ 0)⟩ :=
    fun t x => tick_rest rfl rfl hf
  have hpos : decide (0 < (sr.extractLsb' 0 24).toNat) = decide (sr.extractLsb' 0 24 ≠ 0) := by
    rw [decide_eq_decide, ne_eq, ← BitVec.toNat_inj]
    exact Nat.pos_iff_ne_zero
  have hcount : BitVec.ofNat 24 (sr.extractLsb' 0 24).toNat = sr.extractLsb' 0 24 := by
    rw [BitVec.ofNat_toNat, BitVec.setWidth_eq]
  have h1 : ∀ t : Bool, (Gate.mk sr t (if t then 0#3 else 7#3) 0 false).tick =
      ⟨sr, t, if t then 1#3 else 6#3, 0, false⟩ := by
    intro t
    rw [hrest]
    cases t <;> simp [fresh]
  have h2 : ∀ t : Bool, (Gate.mk sr t (if t then 1#3 else 6#3) 0 false).tick =
      ⟨sr, t, if t then 3#3 else 4#3, 0, false⟩ := by
    intro t
    rw [hrest]
    cases t <;> simp [fresh]
  have h3 : ∀ t : Bool,
      (Gate.mk sr t (if t then 3#3 else 4#3) 0 false).tick = releasing sr t 0 := by
    intro t
    rw [hrest, releasing, hpos, Nat.sub_zero, hcount]
    cases t <;> simp [fresh]
  rw [hreq, h1, h2, h3]
  exact ⟨rfl, rfl, rfl⟩

/-- The gate `i` edges after a request. -/
theorem ticks_request {g : Gate} (h : g.Idle) {sr : BitVec 32} (hf : sr.getLsbD 31 = false) :
    ∀ j, Gate.tick^[3 + j] (g.request sr) = releasing sr (!g.reqT) j
  | 0 => (tick_request h hf).2.2
  | j + 1 => by
    rw [← Nat.add_assoc, Function.iterate_succ_apply', ticks_request h hf j, tick_releasing hf]

/-- `ce` is 1 from the third edge after the request, for `N` cycles. -/
theorem ce_request {g : Gate} (h : g.Idle) {sr : BitVec 32} (hf : sr.getLsbD 31 = false) (i : ℕ) :
    (Gate.tick^[i] (g.request sr)).ce =
      decide (3 ≤ i ∧ i < (sr.extractLsb' 0 24).toNat + 3) := by
  obtain ⟨h1, h2, -⟩ := tick_request h hf
  match i with
  | 0 => exact h.ce
  | 1 => simpa using h1
  | 2 => simpa using h2
  | j + 3 =>
    rw [Nat.add_comm j 3, ticks_request h hf j]
    simp only [releasing, decide_eq_decide]
    omega

end Gate

/-! ### The pulses -/

/-- The trace of a pulse train: `a` zeros, `n` ones and zeros again. -/
theorem map_range_decide (a n m : ℕ) (h : a + n ≤ m) :
    ((List.range m).map fun i => decide (a ≤ i ∧ i < n + a)) =
      List.replicate a false ++ List.replicate n true ++ List.replicate (m - (n + a)) false := by
  apply List.ext_getElem
  · simp; omega
  · intro i h1 h2
    simp only [List.getElem_map, List.getElem_range, List.getElem_append, List.length_append,
      List.length_replicate, List.getElem_replicate]
    split_ifs <;> simp <;> omega

/-- **Exactly N pulses.** From an idle controller, whatever else the TAP does:
a keyed UPDATE with FREE = 0 and count `N`, followed by `N + 4` or more
`clk_free` edges without another keyed UPDATE, lets exactly `N` consecutive
cycles through, starting three edges later, and the controller is idle again. -/
theorem exactly_n_pulses (s : State) (pre post : List Event) (N : ℕ)
    (hidle : s.gate.Idle) (hpre : Unkeyed s pre)
    (hkey : (s.run pre).keyed = true) (hfree : (s.run pre).sr.getLsbD 31 = false)
    (hN : N = ((s.run pre).sr.extractLsb' 0 24).toNat)
    (hpost : Unkeyed ((s.run pre).step (.update true)) post) (hedges : N + 4 ≤ edges post) :
    ceTrace s (pre ++ .update true :: post) =
        List.replicate (edges pre + 3) false ++ List.replicate N true ++
          List.replicate (edges post - (N + 3)) false ∧
      (s.run (pre ++ .update true :: post)).gate.Idle := by
  have hg : (s.run pre).gate = s.gate := by rw [run_gate pre s hpre, hidle.ticks]
  have hreq : ((s.run pre).step (.update true)).gate = s.gate.request (s.run pre).sr := by
    simp [State.step, hkey, hg]
  have hbefore : ceTrace s pre = List.replicate (edges pre) false := by
    rw [ceTrace_eq pre s hpre, List.map_congr_left fun i _ => by rw [hidle.ticks, hidle.ce]]
    simp
  constructor
  · rw [ceTrace_append, ceTrace, if_neg (by decide), List.nil_append, ceTrace_eq post _ hpost,
      hreq, hbefore, List.map_congr_left fun i _ => Gate.ce_request hidle hfree i, ← hN,
      map_range_decide 3 N _ (by omega)]
    simp only [List.replicate_add, List.append_assoc]
  · rw [State.run_append, State.run_cons, run_gate post _ hpost, hreq,
      show edges post = 3 + (edges post - 3) by omega, Gate.ticks_request hidle hfree]
    exact Gate.releasing_idle hfree _ (by omega)

/-- Two pulses asked for at power-up, with the status captured again while
they are released. -/
theorem exactly_two_pulses :
    ceTrace powerUp ([.capture 0x2A000002] ++ .update true ::
        [.clkFree, .clkFree, .capture 0, .clkFree, .clkFree, .clkFree, .clkFree]) =
      [false, false, false, true, true, false] :=
  (exactly_n_pulses powerUp [.capture 0x2A000002] _ 2 ⟨by decide, by decide⟩ (by decide) (by decide)
    (by decide) (by decide) (by decide) (by decide)).1

/-- Idleness of `req_s` alone is not enough. After a keyed UPDATE that no
`clk_free` edge has seen, a second one takes the request back: the controller
is quiet, and releases none of the cycles asked for. -/
theorem quiet_not_enough :
    let s := powerUp.run [.capture 0x2A000001, .update true]
    let post := List.replicate 5 Event.clkFree
    s.gate.Quiet ∧ s.keyed = true ∧ s.sr.getLsbD 31 = false ∧ (s.sr.extractLsb' 0 24).toNat = 1 ∧
      Unkeyed (s.step (.update true)) post ∧ edges post = 1 + 4 ∧
      (ceTrace s (.update true :: post)).count true = 0 := by
  decide

end Clkctl
end Xc7Tools
