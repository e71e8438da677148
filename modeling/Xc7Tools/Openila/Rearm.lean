/-
# openila: arming again

`arm` of the host scans the control register twice, with the arm level low and
then high. The level crosses into `clk` through `arm_s`, and only an edge of
`clk` that finds it low there drops a finished capture. An edge between the
two updates is what puts a low into the synchroniser, and three more carry it
through: with a slow or a stopped `clk` a status read afterwards shows the
DONE of the capture before.

`heard` is the levels the FSM finds at the edges of a run, and `Since` watches
a run for the capture under way. `armed_since` keeps the invariant from a low
on, `still_done` is its absence.

Key definitions: `heard`, `Since`, `Rearm`.
Key theorems: `armed_since`, `still_done`, `Rearm.fresh_iff`.
-/
import Xc7Tools.Openila.Capture
import Xc7Tools.Openila.Gui

namespace Xc7Tools
namespace Openila

variable {W AW : ℕ}

/-! ### Runs -/

namespace Ila

/-- The state after some events. -/
def run (s : Ila W AW) (es : List (Event W)) : Ila W AW := es.foldl step s

theorem run_cons (s : Ila W AW) (e : Event W) (es : List (Event W)) :
    s.run (e :: es) = (s.step e).run es := rfl

theorem run_append (s : Ila W AW) (es fs : List (Event W)) :
    s.run (es ++ fs) = (s.run es).run fs := List.foldl_append

/-- The registers at power-up; the block RAM and its output register hold anything. -/
def powerUp (mem : BitVec AW → BitVec W) (rdata : BitVec W) : Ila W AW where
  csr := 0
  csrN := 0
  ctl := ⟨0, 0, 0, false⟩
  cap := ⟨0, 0, false, false, false, 0, 0, mem⟩
  dat := ⟨0, 0, rdata, 0, 0, 0, 0⟩

end Ila

/-- No UPDATE among the events is keyed. -/
def Unkeyed : Ila W AW → List (Event W) → Prop
  | _, [] => True
  | s, e :: es => (e = .ctlUpdate true → s.keyed = false) ∧ Unkeyed (s.step e) es

/-- The edges of `clk` among the events. -/
def edges (es : List (Event W)) : ℕ := es.countP fun e => e matches .clk _

/-- Without a keyed UPDATE the TAP's registers stay. -/
theorem step_ctl {s : Ila W AW} {e : Event W} (h : e = .ctlUpdate true → s.keyed = false) :
    (s.step e).ctl = s.ctl := by
  cases e with
  | ctlUpdate sel =>
    cases sel with
    | false => rfl
    | true => simp [Ila.step, h rfl]
  | ctlRise sel cap shift tdi => simp only [Ila.step]; split_ifs <;> rfl
  | clk | ctlFall | datRise | datFall => rfl

/-! ### The levels in the synchroniser -/

/-- The levels in `arm_s`, the oldest first. -/
def Cap.levels (s : Cap W AW) : List Bool :=
  [s.armS.getLsbD 2, s.armS.getLsbD 1, s.armS.getLsbD 0]

/-- An edge takes the oldest level out and the TAP's in. -/
theorem levels_clk (c : Ctl W AW) (p : BitVec W) (s : Cap W AW) :
    s.levels ++ [c.armT] = s.arm :: (s.clk c p).levels := by
  simp only [Cap.levels, Cap.arm, Cap.clk_armS, BitVec.getLsbD_append, BitVec.getLsbD_extractLsb',
    BitVec.getLsbD_ofBool]
  simp

/-- The level at the TAP at each edge of `clk`. -/
def sent : Ila W AW → List (Event W) → List Bool
  | _, [] => []
  | s, .clk p :: es => s.ctl.armT :: sent (s.step (.clk p)) es
  | s, e :: es => sent (s.step e) es

/-- The level the FSM finds at each edge of `clk`. -/
def heard : Ila W AW → List (Event W) → List Bool
  | _, [] => []
  | s, .clk p :: es => s.cap.arm :: heard (s.step (.clk p)) es
  | s, e :: es => heard (s.step e) es

theorem sent_append : ∀ (s : Ila W AW) (es fs : List (Event W)),
    sent s (es ++ fs) = sent s es ++ sent (s.run es) fs
  | _, [], _ => rfl
  | s, e :: es, fs => by
    cases e <;> simp only [List.cons_append, sent, Ila.run_cons, sent_append _ es fs]

/-- The level does not change without a keyed UPDATE. -/
theorem sent_eq_replicate : ∀ {s : Ila W AW} {es : List (Event W)}, Unkeyed s es →
    sent s es = List.replicate (edges es) s.ctl.armT
  | _, [], _ => rfl
  | s, e :: es, h => by
    have ih := sent_eq_replicate h.2
    rw [step_ctl h.1] at ih
    cases e <;> simp [sent, ih, edges, List.replicate_succ]

/-- What is heard is what the synchroniser held, and then what was sent. -/
theorem heard_eq : ∀ (s : Ila W AW) (es : List (Event W)),
    heard s es = (s.cap.levels ++ sent s es).take (edges es)
  | _, [] => rfl
  | s, e :: es => by
    have ih := heard_eq (s.step e) es
    cases e with
    | clk p =>
      have hlevels : s.cap.levels ++ (s.ctl.armT :: sent (s.step (.clk p)) es) =
          s.cap.arm :: ((s.step (.clk p)).cap.levels ++ sent (s.step (.clk p)) es) := by
        have h := levels_clk s.ctl p s.cap
        rw [← List.singleton_append, ← List.append_assoc, h]
        rfl
      have hedges : edges (.clk p :: es) = edges es + 1 := by simp [edges]
      rw [heard, sent, hlevels, hedges, List.take_succ_cons, ih]
    | ctlRise | ctlFall | ctlUpdate | datRise | datFall =>
      simp only [heard, sent, ih, Ila.step_cap, edges, List.countP_cons_of_neg, Bool.false_eq_true,
        not_false_eq_true]

/-! ### The capture under way -/

/-- What has happened of the capture under way since a moment: its post count was loaded, its
trigger was evaluated and found. -/
structure Since where
  loaded : Bool
  triggered : Bool
  deriving DecidableEq

@[ext] theorem Since.ext {g h : Since} (hl : g.loaded = h.loaded)
    (ht : g.triggered = h.triggered) : g = h := by
  cases g; cases h; simp_all

/-- One event of the module in state `s`. -/
def Since.next (s : Ila W AW) (g : Since) : Event W → Since
  | .clk _ =>
    if !s.cap.arm then ⟨false, false⟩
    else if !s.cap.armed then ⟨true, false⟩
    else if !s.cap.done && !s.cap.trig && s.cap.hit s.ctl then { g with triggered := true }
    else g
  | _ => g

/-- What has happened at the end of a run. -/
def Since.watch : Ila W AW → Since → List (Event W) → Since
  | _, g, [] => g
  | s, g, e :: es => watch (s.step e) (g.next s e) es

/-- The capture under way, if there is one, is of since. -/
def FromSince (s : Cap W AW) (g : Since) : Prop :=
  s.armed = true → g.loaded = true ∧ (s.trig = true → g.triggered = true)

/-- Nothing is under way after a low. -/
theorem fromSince_of_low {s : Ila W AW} (h : s.cap.arm = false) (g : Since) (p : BitVec W) :
    FromSince (s.step (.clk p)).cap g := by
  intro harmed
  exact absurd ((Cap.clk_low s.ctl p h).1.symm.trans harmed) Bool.false_ne_true

/-- An armed FSM finds its trigger in a cycle with a hit, until it is done. -/
theorem Cap.clk_trig (c : Ctl W AW) (p : BitVec W) {s : Cap W AW} (ha : s.arm = true)
    (hi : s.armed = true) : (s.clk c p).trig = (s.trig || (!s.done && s.hit c)) := by
  cases hd : s.done with
  | true => simp [Cap.clk, ha, hi, hd]
  | false =>
    cases ht : s.trig with
    | true => rw [(Cap.clk_count c p ha hi hd ht).1, Bool.true_or]
    | false =>
      cases hh : s.hit c with
      | true => rw [(Cap.clk_hit c p ha hi hd ht hh).1, Bool.not_false, Bool.true_and, Bool.or_true]
      | false => rw [(Cap.clk_wait c p ha hi hd ht hh).1, Bool.and_false, Bool.or_false]

theorem FromSince.step {s : Ila W AW} {g : Since} (h : FromSince s.cap g) (e : Event W) :
    FromSince (s.step e).cap (g.next s e) := by
  cases e with
  | clk p =>
    cases harm : s.cap.arm with
    | false => exact fromSince_of_low harm _ p
    | true =>
      cases hi : s.cap.armed with
      | false =>
        have htrig : (s.step (.clk p)).cap.trig = false := (Cap.clk_arm s.ctl p harm hi).2.1
        have hnext : g.next s (.clk p) = ⟨true, false⟩ := by
          unfold Since.next
          rw [harm, hi]
          rfl
        rw [hnext]
        refine fun _ => ⟨rfl, fun ht => ?_⟩
        rw [htrig] at ht
        cases ht
      | true =>
        obtain ⟨hloaded, htriggered⟩ := h hi
        have htrig : (s.step (.clk p)).cap.trig =
            (s.cap.trig || (!s.cap.done && s.cap.hit s.ctl)) := Cap.clk_trig s.ctl p harm hi
        have hnext : g.next s (.clk p) =
            if !s.cap.done && !s.cap.trig && s.cap.hit s.ctl then { g with triggered := true }
            else g := by
          unfold Since.next
          rw [harm, hi]
          rfl
        rw [hnext]
        refine fun _ => ⟨by split_ifs <;> exact hloaded, fun ht => ?_⟩
        split_ifs with hit
        · rfl
        · -- no trigger in this cycle: it was found before
          apply htriggered
          rw [htrig] at ht
          by_contra hno
          rw [Bool.not_eq_true] at hno
          rw [hno, Bool.false_or] at ht
          rw [hno, Bool.not_false, Bool.and_true] at hit
          exact hit ht
  | ctlRise | ctlFall | ctlUpdate | datRise | datFall =>
    rw [Ila.step_cap]
    exact h

/-- **A low that the FSM hears makes the capture one of since.** -/
theorem armed_since : ∀ {s : Ila W AW} {g : Since} {es : List (Event W)},
    FromSince s.cap g ∨ false ∈ heard s es → FromSince (s.run es).cap (g.watch s es)
  | s, g, [], h => h.elim id fun hmem => by cases hmem
  | s, g, e :: es, h => by
    rw [Ila.run_cons, Since.watch]
    rcases h with h | h
    · exact armed_since (Or.inl (h.step e))
    · cases e with
      | clk p =>
        rcases List.mem_cons.mp h with h | h
        · exact armed_since (Or.inl (fromSince_of_low h.symm _ p))
        · exact armed_since (Or.inr h)
      | ctlRise | ctlFall | ctlUpdate | datRise | datFall => exact armed_since (Or.inr h)

/-- **Without a low a finished capture stays**, and no post count is loaded. -/
theorem still_done : ∀ {s : Ila W AW} {g : Since} {es : List (Event W)},
    false ∉ heard s es → s.cap.armed = true → s.cap.done = true →
      (s.run es).cap.done = true ∧ (g.watch s es).loaded = g.loaded
  | s, g, [], _, _, hd => ⟨hd, rfl⟩
  | s, g, e :: es, h, ha, hd => by
    rw [Ila.run_cons, Since.watch]
    cases e with
    | clk p =>
      obtain ⟨harm, h⟩ := not_or.mp (mt List.mem_cons.mpr h)
      have harm : s.cap.arm = true := by simpa using harm
      obtain ⟨ha', hd', -, -⟩ := Cap.clk_hold s.ctl p harm ha hd
      have hnext : g.next s (.clk p) = g := by simp [Since.next, harm, ha, hd]
      rw [hnext]
      exact still_done h ha' hd'
    | ctlRise | ctlFall | ctlUpdate | datRise | datFall =>
      refine still_done h ?_ ?_ <;> rw [Ila.step_cap] <;> assumption

/-! ### Every reachable state -/

/-- Only an armed FSM has found its trigger, and only one that has is done. -/
structure Cap.Coherent (s : Cap W AW) : Prop where
  trig : s.done = true → s.trig = true
  armed : s.trig = true → s.armed = true

theorem Cap.Coherent.clk {s : Cap W AW} (h : s.Coherent) (c : Ctl W AW) (p : BitVec W) :
    (s.clk c p).Coherent := by
  cases ha : s.arm with
  | false =>
    obtain ⟨-, h2, h3⟩ := Cap.clk_low c p ha
    exact ⟨fun hd => absurd (h3.symm.trans hd) Bool.false_ne_true,
      fun ht => absurd (h2.symm.trans ht) Bool.false_ne_true⟩
  | true =>
    cases hi : s.armed with
    | false =>
      obtain ⟨h1, -, h3, -⟩ := Cap.clk_arm c p ha hi
      exact ⟨fun hd => absurd (h3.symm.trans hd) Bool.false_ne_true, fun _ => h1⟩
    | true =>
      have htrig := Cap.clk_trig c p ha hi
      cases hd : s.done with
      | true =>
        rw [h.trig hd, Bool.true_or] at htrig
        exact ⟨fun _ => htrig, fun _ => (Cap.clk_hold c p ha hi hd).1⟩
      | false =>
        refine ⟨fun hd' => ?_, fun _ => (Cap.clk_run c p ha hi hd).1⟩
        by_contra hno
        rw [hd, Bool.not_false, Bool.true_and] at htrig
        rw [htrig, Bool.or_eq_true, not_or, Bool.not_eq_true, Bool.not_eq_true] at hno
        have hwait := (Cap.clk_wait c p ha hi hd hno.1 hno.2).2.1
        exact absurd (hwait.symm.trans hd') Bool.false_ne_true

theorem coherent_run (mem : BitVec AW → BitVec W) (rdata : BitVec W) (es : List (Event W)) :
    ((Ila.powerUp mem rdata).run es).cap.Coherent := by
  induction es using List.reverseRecOn with
  | nil => exact ⟨nofun, nofun⟩
  | append_singleton es e ih =>
    rw [Ila.run_append]
    change (((Ila.powerUp mem rdata).run es).step e).cap.Coherent
    rw [Ila.step_cap]
    cases e with
    | clk p => exact ih.clk _ p
    | ctlRise | ctlFall | ctlUpdate | datRise | datFall => exact ih

/-! ### The two scans -/

/-- The word the host scans in, as the control register holds it. -/
def word (W AW mask value post : ℕ) (arm : Bool) : BitVec (CW W AW) :=
  BitVec.ofNat _ ((Host.mk W (2 ^ AW)).ctlWord mask value post arm.toNat)

theorem getLsbD_word (haw : 1 ≤ AW) (mask value post : ℕ) (arm : Bool) {i : ℕ}
    (hi : i < CW W AW) : (word W AW mask value post arm).getLsbD i =
      if i < W then mask.testBit i
      else if i < 2 * W then value.testBit (i - W)
      else if i < 2 * W + AW then post.testBit (i - 2 * W)
      else if i = 2 * W + AW then arm
      else Nat.testBit 0x5A (i - (2 * W + AW + 1)) := by
  rw [word, BitVec.getLsbD_ofNat, testBit_ctlWord, Host.AW_two_pow haw]
  simp only [hi, decide_true, Bool.true_and]
  split_ifs
  all_goals rfl

/-- The word carries the key. -/
theorem word_keyed {s : Ila W AW} (haw : 1 ≤ AW) {mask value post : ℕ} {arm : Bool}
    (h : s.csr = word W AW mask value post arm) : s.keyed = true := by
  have hkey : s.csr.extractLsb' (2 * W + AW + 1) 8 = 0x5A#8 := by
    refine BitVec.eq_of_getLsbD_eq fun i hi => ?_
    rw [BitVec.getLsbD_extractLsb', h, getLsbD_word haw _ _ _ _ (by simp only [CW]; omega),
      if_neg (by omega), if_neg (by omega), if_neg (by omega), if_neg (by omega),
      Nat.add_sub_cancel_left, BitVec.getLsbD_ofNat, decide_eq_true hi, Bool.true_and]
  rw [Ila.keyed, hkey, beq_self_eq_true]

/-- What the word asks for. -/
theorem word_requested {s : Ila W AW} (haw : 1 ≤ AW) {mask value post : ℕ} {arm : Bool}
    (h : s.csr = word W AW mask value post arm) :
    s.requested = ⟨BitVec.ofNat W mask, BitVec.ofNat W value, BitVec.ofNat AW post, arm⟩ := by
  have hmask : s.csr.extractLsb' 0 W = BitVec.ofNat W mask := by
    refine BitVec.eq_of_getLsbD_eq fun i hi => ?_
    rw [BitVec.getLsbD_extractLsb', h, getLsbD_word haw _ _ _ _ (by simp only [CW]; omega),
      if_pos (by omega), BitVec.getLsbD_ofNat, Nat.zero_add]
  have hvalue : s.csr.extractLsb' W W = BitVec.ofNat W value := by
    refine BitVec.eq_of_getLsbD_eq fun i hi => ?_
    rw [BitVec.getLsbD_extractLsb', h, getLsbD_word haw _ _ _ _ (by simp only [CW]; omega),
      if_neg (by omega), if_pos (by omega), BitVec.getLsbD_ofNat, Nat.add_sub_cancel_left]
  have hpost : s.csr.extractLsb' (2 * W) AW = BitVec.ofNat AW post := by
    refine BitVec.eq_of_getLsbD_eq fun i hi => ?_
    rw [BitVec.getLsbD_extractLsb', h, getLsbD_word haw _ _ _ _ (by simp only [CW]; omega),
      if_neg (by omega), if_neg (by omega), if_pos (by omega), BitVec.getLsbD_ofNat,
      Nat.add_sub_cancel_left]
  have harm : s.csr.getLsbD (2 * W + AW) = arm := by
    rw [h, getLsbD_word haw _ _ _ _ (by simp only [CW]; omega), if_neg (by omega),
      if_neg (by omega), if_neg (by omega), if_pos rfl]
  rw [Ila.requested, hmask, hvalue, hpost, harm]

theorem step_update {s : Ila W AW} (haw : 1 ≤ AW) {mask value post : ℕ} {arm : Bool}
    (h : s.csr = word W AW mask value post arm) :
    (s.step (.ctlUpdate true)).ctl =
        ⟨BitVec.ofNat W mask, BitVec.ofNat W value, BitVec.ofNat AW post, arm⟩ ∧
      (s.step (.ctlUpdate true)).cap = s.cap := by
  refine ⟨?_, Ila.step_cap s _⟩
  simp only [Ila.step, word_keyed haw h, Bool.true_and, if_true]
  exact word_requested haw h

/-- The events of a run from power-up: up to the first update of `arm`, between its updates, and
up to a CAPTURE. -/
structure Scans (W AW : ℕ) where
  mem : BitVec AW → BitVec W
  rdata : BitVec W
  pre : List (Event W)
  mid : List (Event W)
  rest : List (Event W)

namespace Scans

/-- The state the first update finds. -/
def first (R : Scans W AW) : Ila W AW := (Ila.powerUp R.mem R.rdata).run R.pre

/-- The state the second update finds. -/
def second (R : Scans W AW) : Ila W AW := (R.first.step (.ctlUpdate true)).run R.mid

/-- The events from the first update on. -/
def events (R : Scans W AW) : List (Event W) :=
  .ctlUpdate true :: R.mid ++ .ctlUpdate true :: R.rest

/-- A CAPTURE at the end of the run loads a status that shows DONE. -/
def ReadsDone (R : Scans W AW) : Prop :=
  ∀ shift tdi, ((R.first.run R.events).step (.ctlRise true true shift tdi)).csr.getLsbD (AW + 2) =
    true

/-- The capture the status is of was loaded and triggered after the first update. -/
def Fresh (R : Scans W AW) : Prop := Since.watch R.first ⟨false, false⟩ R.events = ⟨true, true⟩

/-- The FSM was not armed at the first update, or an edge of `clk` after it finds a low: one of the
levels `arm_s` held then, or a low of the time between the updates. -/
def Drops (R : Scans W AW) : Prop :=
  R.first.cap.armed = false ∨
    false ∈ (R.first.cap.levels ++ List.replicate (edges R.mid) false ++
      List.replicate (edges R.rest) true).take (edges R.mid + edges R.rest)

end Scans

/-- A run with the two scans of `arm(mask, value, post)` and no other keyed write after the
first. -/
structure Rearm (W AW : ℕ) extends Scans W AW where
  one_le : 1 ≤ AW
  mask : ℕ
  value : ℕ
  post : ℕ
  low : toScans.first.csr = word W AW mask value post false
  quiet : Unkeyed (toScans.first.step (.ctlUpdate true)) mid
  high : toScans.second.csr = word W AW mask value post true
  quiet_rest : Unkeyed (toScans.second.step (.ctlUpdate true)) rest

theorem Rearm.heard_events (R : Rearm W AW) : heard R.first R.events =
    (R.first.cap.levels ++ List.replicate (edges R.mid) false ++
      List.replicate (edges R.rest) true).take (edges R.mid + edges R.rest) := by
  have hsent : sent R.first R.events =
      List.replicate (edges R.mid) false ++ List.replicate (edges R.rest) true := by
    have hmid := sent_eq_replicate R.quiet
    have hrest := sent_eq_replicate R.quiet_rest
    rw [(step_update R.one_le R.low).1] at hmid
    rw [(step_update R.one_le R.high).1] at hrest
    calc sent R.first R.events
        = sent (R.first.step (.ctlUpdate true)) R.mid ++
            sent (R.second.step (.ctlUpdate true)) R.rest := sent_append _ R.mid _
      _ = _ := by rw [hmid, hrest]
  have hedges : edges R.events = edges R.mid + edges R.rest := by
    simp [Scans.events, edges]
  rw [heard_eq, hsent, hedges, List.append_assoc]

/-- The status CAPTURE loads shows the FSM's `done`. -/
theorem Scans.readsDone_iff (R : Scans W AW) :
    R.ReadsDone ↔ (R.first.run R.events).cap.done = true := by
  have hbit : ∀ s : Cap W AW, (s.status.setWidth (CW W AW)).getLsbD (AW + 2) = s.done := by
    intro s
    simp only [Cap.status, BitVec.getLsbD_setWidth, BitVec.getLsbD_cast, BitVec.getLsbD_append]
    simp [CW]
    omega
  refine ⟨fun h => ?_, fun h shift tdi => ?_⟩
  · rw [← hbit]
    exact h false false
  · exact (hbit _).trans h

/-- An edge between the updates, and three more before the CAPTURE. -/
theorem Scans.drops_of_edges (R : Scans W AW) (h1 : 1 ≤ edges R.mid)
    (h4 : 4 ≤ edges R.mid + edges R.rest) : R.Drops := by
  obtain ⟨n, hn⟩ : ∃ n, edges R.mid = n + 1 := ⟨_, (Nat.sub_add_cancel h1).symm⟩
  obtain ⟨m, hm⟩ : ∃ m, edges R.mid + edges R.rest = m + 4 := ⟨_, (Nat.sub_add_cancel h4).symm⟩
  right
  rw [hm, hn]
  simp [Cap.levels, List.replicate_succ]

/-- A finished capture that no low drops is what the status shows. -/
theorem Rearm.stale (R : Rearm W AW) (hdone : R.first.cap.done = true) (hdrops : ¬ R.Drops) :
    R.ReadsDone ∧ ¬ R.Fresh := by
  have hcoh := coherent_run R.mem R.rdata R.pre
  obtain ⟨-, hlow⟩ := not_or.mp hdrops
  rw [← R.heard_events] at hlow
  obtain ⟨hd, hloaded⟩ := still_done (g := ⟨false, false⟩) hlow (hcoh.armed (hcoh.trig hdone)) hdone
  refine ⟨R.readsDone_iff.mpr hd, fun hfresh => ?_⟩
  rw [Scans.Fresh] at hfresh
  rw [hfresh] at hloaded
  cases hloaded

/-- **DONE is fresh exactly when a low reaches the FSM.** -/
theorem Rearm.fresh_iff (R : Rearm W AW) :
    (R.Drops → R.ReadsDone → R.Fresh) ∧
      (R.first.cap.done = true → (R.ReadsDone → R.Fresh) → R.Drops) := by
  refine ⟨fun hdrops hdone => ?_, fun hdone h => ?_⟩
  · have hdone := R.readsDone_iff.mp hdone
    have hdrops : FromSince R.first.cap ⟨false, false⟩ ∨ false ∈ heard R.first R.events := by
      rw [R.heard_events]
      exact hdrops.imp (fun h harmed => absurd (h.symm.trans harmed) Bool.false_ne_true) id
    have hend : (R.first.run R.events).cap.Coherent := by
      have h := coherent_run R.mem R.rdata (R.pre ++ R.events)
      rwa [Ila.run_append] at h
    have htrig := hend.trig hdone
    obtain ⟨hloaded, htriggered⟩ := armed_since hdrops (hend.armed htrig)
    exact Since.ext hloaded (htriggered htrig)
  · by_contra hdrops
    obtain ⟨hreads, hstale⟩ := R.stale hdone hdrops
    exact hstale (h hreads)

/-! ### A stopped clock -/

/-- A scan of the control register: CAPTURE, and a shift for each bit of the word. -/
def ctlScan (w : BitVec (CW W AW)) : List (Event W) :=
  .ctlRise true true false false :: .ctlFall :: (List.range (CW W AW)).flatMap fun i =>
    [.ctlRise true false true (w.getLsbD i), .ctlFall]

/-- One bit shifted in, and the copy taken. -/
theorem run_shift (s : Ila W AW) (hs : s.csrN = s.csr) (b : Bool) :
    s.run [.ctlRise true false true b, .ctlFall] =
      { s with csr := shiftIn b s.csr, csrN := shiftIn b s.csr } := by
  simp [Ila.run, Ila.step, hs]

theorem run_shifts : ∀ (bits : List Bool) (s : Ila W AW), s.csrN = s.csr →
    s.run (bits.flatMap fun b => [.ctlRise true false true b, .ctlFall]) =
      { s with csr := shiftAll s.csr bits, csrN := shiftAll s.csr bits }
  | [], ⟨csr, csrN, ctl, cap, dat⟩, hs => by
    obtain rfl : csrN = csr := hs
    rfl
  | b :: bits, s, hs => by
    rw [List.flatMap_cons, Ila.run_append, run_shift s hs, run_shifts bits _ rfl]
    rfl

/-- The register holds the word that was scanned in. -/
theorem run_scan (w : BitVec (CW W AW)) (s : Ila W AW) :
    (s.run (ctlScan w)).csr = w ∧ (s.run (ctlScan w)).cap = s.cap ∧
      (s.run (ctlScan w)).ctl = s.ctl := by
  have hcap : ∃ x, s.run (ctlScan w) = ({ s with csr := x, csrN := x } : Ila W AW).run
      ((List.range (CW W AW)).flatMap fun i => [.ctlRise true false true (w.getLsbD i), .ctlFall]) :=
    ⟨s.cap.status.setWidth (CW W AW), rfl⟩
  obtain ⟨x, hx⟩ := hcap
  rw [hx, ← List.flatMap_map (f := w.getLsbD)
    (g := fun b => [Event.ctlRise true false true b, .ctlFall]), run_shifts _ _ rfl]
  refine ⟨BitVec.eq_of_getLsbD_eq fun i hi => ?_, rfl, rfl⟩
  rw [shiftAll_getLsbD _ _ i hi, List.length_map, List.length_range, if_neg (by omega),
    Nat.add_sub_cancel, List.getD_eq_getElem _ _ (by simpa using hi)]
  simp

theorem unkeyed_of_forall : ∀ {es : List (Event W)} (s : Ila W AW),
    (∀ e ∈ es, e ≠ .ctlUpdate true) → Unkeyed s es
  | [], _, _ => trivial
  | e :: _, _, h => ⟨fun he => absurd he (h e List.mem_cons_self),
      unkeyed_of_forall _ fun e he => h e (List.mem_cons_of_mem _ he)⟩

theorem ne_update_of_mem_scan {w : BitVec (CW W AW)} {e : Event W} (h : e ∈ ctlScan w) :
    e ≠ .ctlUpdate true := by
  rintro rfl
  simp [ctlScan] at h

theorem edges_scan (w : BitVec (CW W AW)) : edges (ctlScan w) = 0 := by
  rw [edges, List.countP_eq_zero]
  intro e he
  simp only [ctlScan, List.mem_cons, List.mem_flatMap, List.not_mem_nil, or_false] at he
  rcases he with rfl | rfl | ⟨i, -, rfl | rfl⟩ <;> exact Bool.false_ne_true

theorem run_replicate_clk (p : BitVec W) : ∀ (n : ℕ) (s : Ila W AW),
    (s.run (List.replicate n (.clk p))).cap = (Cap.clk s.ctl p)^[n] s.cap
  | 0, _ => rfl
  | n + 1, s => by
    rw [List.replicate_succ, Ila.run_cons, run_replicate_clk p n, Function.iterate_succ_apply]
    rfl

/-- A capture that triggers at once is armed again, with `n` edges between the updates and `m`
after them. -/
def again (n m : ℕ) : Scans 12 1 where
  mem := fun _ => 0
  rdata := 0
  pre := ctlScan (word 12 1 0 0 0 true) ++ .ctlUpdate true :: (List.replicate 5 (.clk 0) ++
    ctlScan (word 12 1 0 0 0 false))
  mid := List.replicate n (.clk 0) ++ ctlScan (word 12 1 0 0 0 true)
  rest := List.replicate m (.clk 0)

/-- The FSM after some edges of `clk` with the TAP's level at `arm`. -/
def clocked (arm : Bool) (n : ℕ) (s : Cap 12 1) : Cap 12 1 := (Cap.clk ⟨0, 0, 0, arm⟩ 0)^[n] s

/-- The FSM of the finished capture. -/
def finished : Cap 12 1 := clocked true 5 (Ila.powerUp (fun _ => 0) 0).cap

/-- What the first update finds. -/
theorem again_first (n m : ℕ) :
    (again n m).first.csr = word 12 1 0 0 0 false ∧ (again n m).first.cap = finished := by
  set s := ((Ila.powerUp (fun _ => 0) 0).run (ctlScan (word 12 1 0 0 0 true))).step (.ctlUpdate true)
    with hs
  obtain ⟨hcsr, hcap, -⟩ := run_scan (word 12 1 0 0 0 true) (Ila.powerUp (fun _ => 0) 0)
  obtain ⟨hctl, hcap'⟩ := step_update le_rfl hcsr
  rw [← hs] at hctl hcap'
  obtain ⟨hcsr₂, hcap₂, -⟩ := run_scan (word 12 1 0 0 0 false) (s.run (List.replicate 5 (.clk 0)))
  have hfirst : (again n m).first = (s.run (List.replicate 5 (.clk 0))).run
      (ctlScan (word 12 1 0 0 0 false)) := by
    rw [Scans.first, again, Ila.run_append, Ila.run_cons, Ila.run_append]
  rw [hfirst, hcap₂, run_replicate_clk, hctl, hcap', hcap]
  exact ⟨hcsr₂, rfl⟩

/-- The two scans of `arm(0, 0, 0)` after it. -/
def Rearm.again (n m : ℕ) : Rearm 12 1 where
  toScans := Openila.again n m
  one_le := le_rfl
  mask := 0
  value := 0
  post := 0
  low := (again_first n m).1
  quiet := unkeyed_of_forall _ fun e he => by
    rcases List.mem_append.mp he with he | he
    · rw [List.eq_of_mem_replicate he]
      exact nofun
    · exact ne_update_of_mem_scan he
  high := by
    rw [Scans.second, Openila.again, Ila.run_append]
    exact (run_scan _ _).1
  quiet_rest := unkeyed_of_forall _ fun e he => by
    rw [List.eq_of_mem_replicate he]
    exact nofun

theorem edges_again (n m : ℕ) : edges (Rearm.again n m).mid = n ∧ edges (Rearm.again n m).rest = m := by
  have hclk : ∀ k, edges (List.replicate k (.clk 0) : List (Event 12)) = k := fun k => by
    simp [edges, List.countP_replicate]
  refine ⟨?_, hclk m⟩
  change edges (List.replicate n (.clk 0) ++ ctlScan (word 12 1 0 0 0 true)) = n
  rw [edges, List.countP_append]
  exact congrArg₂ _ (hclk n) (edges_scan _)

/-- The FSM at the end of the run. -/
theorem again_last (n m : ℕ) : ((Rearm.again n m).first.run (Rearm.again n m).events).cap =
    clocked true m (clocked false n finished) := by
  obtain ⟨hctl, hcap⟩ := step_update (Rearm.again n m).one_le (Rearm.again n m).low
  obtain ⟨hctl₂, hcap₂⟩ := step_update (Rearm.again n m).one_le (Rearm.again n m).high
  have hsecond : (Rearm.again n m).second.cap = clocked false n finished := by
    change (((Rearm.again n m).first.step (.ctlUpdate true)).run
      (List.replicate n (.clk 0) ++ ctlScan (word 12 1 0 0 0 true))).cap = _
    rw [Ila.run_append, (run_scan _ _).2.1, run_replicate_clk, hctl, hcap,
      show (Rearm.again n m).first.cap = finished from (again_first n m).2]
    rfl
  calc ((Rearm.again n m).first.run (Rearm.again n m).events).cap
      = (((Rearm.again n m).second.step (.ctlUpdate true)).run
          (List.replicate m (.clk 0))).cap := by
        rw [Scans.events, Ila.run_append]
        rfl
    _ = clocked true m (clocked false n finished) := by
        rw [run_replicate_clk, hctl₂, hcap₂, hsecond]
        rfl

/-- An edge between the updates and five after them: the status shows DONE, and
it is the new capture's. -/
theorem again_fresh : (Rearm.again 1 5).ReadsDone ∧ (Rearm.again 1 5).Fresh := by
  have hdone : (Rearm.again 1 5).ReadsDone := by
    rw [Scans.readsDone_iff, again_last]
    decide
  obtain ⟨hmid, hrest⟩ := edges_again 1 5
  exact ⟨hdone, (Rearm.again 1 5).fresh_iff.1
    (Scans.drops_of_edges _ (by rw [hmid]) (by rw [hmid, hrest]; decide)) hdone⟩

/-- With `clk` stopped the finished capture is still shown as DONE. -/
theorem stopped_not_fresh : ¬ ((Rearm.again 0 0).ReadsDone → (Rearm.again 0 0).Fresh) := by
  intro h
  have hcap : (Rearm.again 0 0).first.cap = finished := (again_first 0 0).2
  have harmed : (Rearm.again 0 0).first.cap.armed = true := by rw [hcap]; decide
  have hdone : (Rearm.again 0 0).first.cap.done = true := by rw [hcap]; decide
  have hdrops : ¬ (Rearm.again 0 0).Drops := by
    obtain ⟨hmid, hrest⟩ := edges_again 0 0
    rw [Scans.Drops, hmid, hrest, not_or]
    refine ⟨fun h => ?_, List.not_mem_nil⟩
    exact absurd (h.symm.trans harmed) Bool.false_ne_true
  obtain ⟨hreads, hstale⟩ := (Rearm.again 0 0).stale hdone hdrops
  exact hstale (h hreads)

end Openila
end Xc7Tools
