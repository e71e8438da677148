/-
# openila GUI: the scans

The queue of `class Ila` in `examples/openila/gui/ila.cpp`: a scan is a child
process, and the next is started from the handler of the one before. A handler
ends in the signal `error` or in `next()`, and what stands behind them changes
nothing more, so the event loop a message box runs inside a handler is the event
loop itself and each handler is one step. The result callback may enqueue on its
way; no slot of a result opens a message box.

A process that failed to start reports an error only, and one that did start
reports that it finished. The handler of an error takes the first for granted:
where a process that started reports an error, of its pipes or because it
crashed, the queue goes on without it and it is heard of once more.
`oneScan_iff` says that this is all that goes wrong.

Key definitions: `JobQueue.next`, `JobQueue.enqueue`, `JobQueue.onFinished`, `JobQueue.onError`,
`JobQueue.step`, `OneScan`, `Fine`.
Key theorems: `Inv.step`, `Inv.oneScan`, `oneScan_iff`.
-/
import Mathlib.Data.List.Infix
import Mathlib.Data.List.Nodup
import Xc7Tools.Lib.Run
import Xc7Tools.Openila.Bits
import Xc7Tools.Openila.ProbeMap

namespace Xc7Tools
namespace Openila

open Str

/-! ### The code -/

/-- What `enqueue` is called with, the callback aside. -/
structure Request where
  chain : ℕ
  nbits : ℕ
  tx : Str

/-- A `Job`, with its number in the order of the calls of `enqueue`. -/
structure Job where
  number : ℕ
  chain : ℕ
  nbits : ℕ
  hex : Str
  deriving DecidableEq

/-- How a job ends: its callback is called, or the signal `error` is emitted. -/
inductive Outcome where
  | result (rx : Bits)
  | error (what : Str)

/-- `Bits::fromHex`: a character that is no digit leaves its four bits out. -/
def Bits.fromHex (h : Str) (nbits : ℕ) : Bits :=
  h.reverse.zipIdx.foldl (fun r p =>
    if 4 * p.2 < r.size then
      match hex? p.1 with
      | some v => r.setAll (4 * p.2) (min 4 (r.size - 4 * p.2)) v.testBit
      | none => r
    else r) (Bits.zeros nbits)

/-- `QRegularExpression(key + "([0-9a-fA-F]+)").match(out)`, its group -/
def capture (key : Str) : Str → Option Str
  | [] => none
  | c :: out =>
    let digits := ((c :: out).drop key.length).takeWhile fun c => (hex? c).isSome
    if key.isPrefixOf (c :: out) ∧ digits ≠ [] then some digits else capture key out

/-- The queue, the flag and the processes that will be heard of: `live` are those that are starting
or running, `crashed` those that died and whose `finished` is still to come. The rest is a ledger. -/
structure JobQueue where
  queue : List Job
  running : Bool
  live : List Job
  crashed : List Job
  /-- The number of calls of `enqueue`. -/
  enqueued : ℕ
  /-- The jobs a process was started for. -/
  started : List Job
  outcomes : List (Job × Outcome)
  /-- The jobs that were queued when an error was reported. -/
  dropped : List Job

namespace JobQueue

/-- Before the first scan. -/
def init : JobQueue := ⟨[], false, [], [], 0, [], [], []⟩

/-- `next()` -/
def next (s : JobQueue) : JobQueue :=
  match s.queue with
  | [] => { s with running := false }
  | job :: queue =>
    { s with running := true, queue := queue, live := s.live ++ [job], started := s.started ++ [job] }

/-- `queue_.push(...)` -/
def push (s : JobQueue) (r : Request) : JobQueue :=
  { s with queue := s.queue ++ [⟨s.enqueued, r.chain, r.nbits, r.tx⟩], enqueued := s.enqueued + 1 }

/-- `enqueue(chain, nbits, tx, done)` -/
def enqueue (s : JobQueue) (r : Request) : JobQueue :=
  if (s.push r).running then s.push r else (s.push r).next

/-- `while (!queue_.empty()) queue_.pop(); running_ = false;` -/
def clear (s : JobQueue) : JobQueue :=
  { s with queue := [], running := false, dropped := s.dropped ++ s.queue }

/-- A job ends. -/
def note (s : JobQueue) (p : Job) (o : Outcome) : JobQueue :=
  { s with outcomes := s.outcomes ++ [(p, o)] }

/-- The handler of `finished`: `out` is what the process printed, `calls` what the callback
enqueues. -/
def onFinished (s : JobQueue) (p : Job) (out : Str) (calls : List Request) : JobQueue :=
  match capture ("USER".toList ++ Nat.toDigits 10 p.chain ++ " out ".toList) out with
  | none => s.clear.note p (.error ("openFPGALoader gave no USER".toList ++ Nat.toDigits 10 p.chain ++
      " data:\n".toList ++ out.drop (out.length - 600)))
  | some digits => (calls.foldl enqueue (s.note p (.result (Bits.fromHex digits p.nbits)))).next

/-- The handler of `errorOccurred`: `what` is `"cannot run " + cfg.ofl + ": " + p->errorString()`. -/
def onError (s : JobQueue) (p : Job) (what : Str) : JobQueue := s.clear.note p (.error what)

end JobQueue

/-! ### Runs -/

/-- What the event loop delivers: a call of `enqueue`, or a signal of the process of a job. -/
inductive ScanEvent where
  | enqueue (r : Request)
  | finished (p : Job) (out : Str) (calls : List Request)
  /-- `errorOccurred`, of a process that failed to start -/
  | failedToStart (p : Job) (what : Str)
  /-- `errorOccurred`, of a process that died; its `finished` follows -/
  | crashed (p : Job) (what : Str)
  /-- `errorOccurred`, of the pipes of a process that runs on -/
  | pipeError (p : Job) (what : Str)

/-- One event. A signal that no process can send is none. -/
def JobQueue.step (s : JobQueue) : ScanEvent → JobQueue
  | .enqueue r => s.enqueue r
  | .finished p out calls =>
    if s.live.contains p then { s with live := s.live.erase p }.onFinished p out calls
    else if s.crashed.contains p then { s with crashed := s.crashed.erase p }.onFinished p out calls
    else s
  | .failedToStart p what =>
    if s.live.contains p then { s with live := s.live.erase p }.onError p what else s
  | .crashed p what =>
    if s.live.contains p then
      { s with live := s.live.erase p, crashed := s.crashed ++ [p] }.onError p what
    else s
  | .pipeError p what => if s.live.contains p then s.onError p what else s

/-- One scan at a time, and one outcome for each. -/
structure OneScan (s : JobQueue) : Prop where
  one : s.live.length ≤ 1
  order : (s.started.map Job.number).Pairwise (· < ·)
  outcome : ∀ j ∈ s.started, (s.outcomes.map Prod.fst).count j = if j ∈ s.live then 0 else 1
  dropped : ∀ j ∈ s.dropped, j ∉ s.started
  running : s.running = true ↔ s.live ≠ []

/-- The event is no error of a process that started, nor the end of one after its error. -/
def Fine (s : JobQueue) : ScanEvent → Prop
  | .pipeError p _ => p ∉ s.live
  | .finished p _ _ => p ∉ s.live → p ∉ s.crashed
  | _ => True

namespace JobQueue

variable {s : JobQueue}

theorem next_nil (h : s.queue = []) : s.next = { s with running := false } := by
  cases s
  subst h
  rfl

theorem next_cons {j : Job} {q : List Job} (h : s.queue = j :: q) :
    s.next = { s with running := true, queue := q, live := s.live ++ [j], started := s.started ++ [j] } := by
  cases s
  subst h
  rfl

end JobQueue

/-! ### The ledger -/

/-- What the ledger and the queue have in common. -/
structure Ledger (s : JobQueue) : Prop where
  started : s.started = s.outcomes.map Prod.fst ++ s.live
  order : ((s.started ++ s.queue).map Job.number).Pairwise (· < ·)
  lt : ∀ j ∈ s.started ++ s.queue ++ s.dropped, j.number < s.enqueued
  dropped : ∀ j ∈ s.dropped, j ∉ s.started ++ s.queue
  crashed : ∀ p ∈ s.crashed, p ∈ s.outcomes.map Prod.fst

namespace Ledger

variable {s : JobQueue}

theorem push (h : Ledger s) (r : Request) : Ledger (s.push r) := by
  set j : Job := ⟨s.enqueued, r.chain, r.nbits, r.tx⟩ with hj
  have happend : s.started ++ (s.queue ++ [j]) = s.started ++ s.queue ++ [j] :=
    (List.append_assoc _ _ _).symm
  constructor
  · exact h.started
  · show ((s.started ++ (s.queue ++ [j])).map Job.number).Pairwise (· < ·)
    rw [happend, List.map_append, List.pairwise_append]
    refine ⟨h.order, List.pairwise_singleton _ _, fun a ha b hb => ?_⟩
    obtain ⟨i, hi, rfl⟩ := List.mem_map.mp ha
    rw [List.mem_singleton.mp hb]
    exact h.lt i (List.mem_append_left _ hi)
  · intro i hi
    show i.number < s.enqueued + 1
    have hi : i ∈ s.started ++ (s.queue ++ [j]) ++ s.dropped := hi
    rw [happend] at hi
    rcases List.mem_append.mp hi with hi | hi
    · rcases List.mem_append.mp hi with hi | hi
      · exact Nat.lt_succ_of_lt (h.lt i (List.mem_append_left _ hi))
      · rw [List.mem_singleton.mp hi]
        exact Nat.lt_succ_self _
    · exact Nat.lt_succ_of_lt (h.lt i (List.mem_append_right _ hi))
  · intro i hi
    show i ∉ s.started ++ (s.queue ++ [j])
    rw [happend, List.mem_append, List.mem_singleton]
    rintro (hold | rfl)
    · exact h.dropped i hi hold
    · exact absurd (h.lt j (List.mem_append_right _ hi)) (Nat.lt_irrefl _)
  · exact h.crashed

theorem next (h : Ledger s) : Ledger s.next := by
  cases hqueue : s.queue with
  | nil =>
    rw [JobQueue.next_nil hqueue]
    exact ⟨h.started, h.order, h.lt, h.dropped, h.crashed⟩
  | cons j q =>
    rw [JobQueue.next_cons hqueue]
    have happend : s.started ++ [j] ++ q = s.started ++ s.queue := by
      rw [hqueue, List.append_assoc]
      rfl
    constructor
    · show s.started ++ [j] = s.outcomes.map Prod.fst ++ (s.live ++ [j])
      rw [h.started, List.append_assoc]
    · show ((s.started ++ [j] ++ q).map Job.number).Pairwise (· < ·)
      rw [happend]
      exact h.order
    · show ∀ i ∈ s.started ++ [j] ++ q ++ s.dropped, i.number < s.enqueued
      rw [happend]
      exact h.lt
    · show ∀ i ∈ s.dropped, i ∉ s.started ++ [j] ++ q
      rw [happend]
      exact h.dropped
    · exact h.crashed

theorem enqueue (h : Ledger s) (r : Request) : Ledger (s.enqueue r) := by
  unfold JobQueue.enqueue
  split_ifs
  · exact h.push r
  · exact (h.push r).next

/-- No job is in two places. -/
theorem nodup (h : Ledger s) : (s.started ++ s.queue).Nodup := by
  have hnumbers : ((s.started ++ s.queue).map Job.number).Nodup := h.order.imp Nat.ne_of_lt
  exact hnumbers.of_map _

theorem clear (h : Ledger s) : Ledger s.clear := by
  have hsub : (s.started ++ []).Sublist (s.started ++ s.queue) :=
    (List.Sublist.refl _).append (List.nil_sublist _)
  constructor
  · exact h.started
  · exact h.order.sublist (hsub.map _)
  · intro i hi
    have hi : i ∈ s.started ++ [] ++ (s.dropped ++ s.queue) := hi
    apply h.lt
    simp only [List.append_nil, List.mem_append] at hi ⊢
    tauto
  · intro i hi
    show i ∉ s.started ++ []
    rcases List.mem_append.mp hi with hi | hi
    · exact fun hold => h.dropped i hi (hsub.subset hold)
    · rw [List.append_nil]
      exact fun hold => (List.nodup_append.mp h.nodup).2.2 i hold i hi rfl
  · exact h.crashed

/-- The only process ends, and its job with it. -/
theorem ended (h : Ledger s) {p : Job} (hlive : s.live = [p]) (crashed : List Job)
    (hcrashed : ∀ q ∈ crashed, q = p ∨ q ∈ s.crashed) (o : Outcome) :
    Ledger ({ s with live := s.live.erase p, crashed := crashed }.note p o) := by
  constructor
  · show s.started = (s.outcomes ++ [(p, o)]).map Prod.fst ++ s.live.erase p
    rw [h.started, hlive]
    simp
  · exact h.order
  · exact h.lt
  · exact h.dropped
  · intro q hq
    show q ∈ (s.outcomes ++ [(p, o)]).map Prod.fst
    rw [List.map_append, List.mem_append]
    rcases hcrashed q hq with rfl | hq
    · exact Or.inr (List.mem_singleton_self _)
    · exact Or.inl (h.crashed q hq)

end Ledger

/-! ### The invariant -/

/-- Between two events: nothing runs and nothing waits, or one process runs. -/
structure Inv (s : JobQueue) : Prop where
  ledger : Ledger s
  idle_or_busy : (s.live = [] ∧ s.running = false ∧ s.queue = []) ∨
    (∃ p, s.live = [p]) ∧ s.running = true

namespace Inv

variable {s : JobQueue}

theorem init : Inv JobQueue.init := by
  constructor
  · constructor
    · rfl
    · exact List.Pairwise.nil
    · exact fun j hj => absurd hj List.not_mem_nil
    · exact fun j hj => absurd hj List.not_mem_nil
    · exact fun j hj => absurd hj List.not_mem_nil
  · exact Or.inl ⟨rfl, rfl, rfl⟩

/-- The live process is the only one. -/
theorem live_eq (h : Inv s) {p : Job} (hp : p ∈ s.live) : s.live = [p] := by
  rcases h.idle_or_busy with ⟨hlive, _, _⟩ | ⟨⟨q, hlive⟩, _⟩
  · rw [hlive] at hp
    cases hp
  · rw [hlive] at hp ⊢
    rw [List.mem_singleton.mp hp]

/-- The next job is started, or the flag cleared. -/
theorem next_of_none (h : Ledger s) (hlive : s.live = []) : Inv s.next := by
  refine ⟨h.next, ?_⟩
  cases hqueue : s.queue with
  | nil =>
    rw [JobQueue.next_nil hqueue]
    exact Or.inl ⟨hlive, rfl, hqueue⟩
  | cons j q =>
    rw [JobQueue.next_cons hqueue]
    exact Or.inr ⟨⟨j, by rw [hlive, List.nil_append]⟩, rfl⟩

theorem enqueue (h : Inv s) (r : Request) : Inv (s.enqueue r) := by
  unfold JobQueue.enqueue
  rcases h.idle_or_busy with ⟨hlive, hrun, _⟩ | ⟨hlive, hrun⟩
  · rw [if_neg (by simp [JobQueue.push, hrun])]
    exact next_of_none (h.ledger.push r) hlive
  · have hpush : (s.push r).running = true := hrun
    rw [if_pos hpush]
    exact ⟨h.ledger.push r, Or.inr ⟨hlive, hrun⟩⟩

/-- While the flag is set, calls of `enqueue` only queue. -/
theorem foldl_enqueue (calls : List Request) : ∀ {s : JobQueue}, Ledger s → s.running = true →
    Ledger (calls.foldl JobQueue.enqueue s) ∧ (calls.foldl JobQueue.enqueue s).live = s.live := by
  induction calls with
  | nil => exact fun h _ => ⟨h, rfl⟩
  | cons r calls ih =>
    intro s h hrun
    have hpush : s.enqueue r = s.push r := if_pos hrun
    rw [List.foldl_cons, hpush]
    exact ih (h.push r) hrun

/-- The handler of `finished`, of the process that runs. -/
theorem onFinished (h : Inv s) {p : Job} (hp : p ∈ s.live) (out : Str) (calls : List Request) :
    Inv ({ s with live := s.live.erase p }.onFinished p out calls) := by
  have hlive := h.live_eq hp
  have hempty : s.live.erase p = [] := by
    rw [hlive]
    exact List.erase_cons_head ..
  have hrun : s.running = true := by
    rcases h.idle_or_busy with ⟨hnil, _, _⟩ | ⟨_, hrun⟩
    · rw [hnil] at hp
      cases hp
    · exact hrun
  have hended := fun o => h.ledger.ended hlive s.crashed (fun q hq => Or.inr hq) o
  unfold JobQueue.onFinished
  split
  · exact ⟨(hended _).clear, Or.inl ⟨hempty, rfl, rfl⟩⟩
  · obtain ⟨hledger, hkept⟩ := foldl_enqueue calls (hended (.result _)) hrun
    exact next_of_none hledger (hkept.trans hempty)

/-- The handler of `errorOccurred`, of a process that is gone. -/
theorem onError (h : Inv s) {p : Job} (hp : p ∈ s.live) {crashed : List Job}
    (hcrashed : ∀ q ∈ crashed, q = p ∨ q ∈ s.crashed) (what : Str) :
    Inv ({ s with live := s.live.erase p, crashed := crashed }.onError p what) := by
  have hlive := h.live_eq hp
  have hempty : s.live.erase p = [] := by
    rw [hlive]
    exact List.erase_cons_head ..
  exact ⟨(h.ledger.ended hlive crashed hcrashed (.error what)).clear, Or.inl ⟨hempty, rfl, rfl⟩⟩

/-- Every event but the errors of a process that started keeps the invariant. -/
theorem step (h : Inv s) {e : ScanEvent} (he : Fine s e) : Inv (s.step e) := by
  cases e with
  | enqueue r => exact h.enqueue r
  | finished p out calls =>
    unfold JobQueue.step
    simp only [List.contains_iff_mem]
    by_cases hp : p ∈ s.live
    · rw [if_pos hp]
      exact h.onFinished hp out calls
    · rw [if_neg hp, if_neg (he hp)]
      exact h
  | failedToStart p what =>
    unfold JobQueue.step
    simp only [List.contains_iff_mem]
    split_ifs with hp
    · exact h.onError hp (fun q hq => Or.inr hq) what
    · exact h
  | crashed p what =>
    unfold JobQueue.step
    simp only [List.contains_iff_mem]
    split_ifs with hp
    · refine h.onError hp (fun q hq => ?_) what
      rcases List.mem_append.mp hq with hq | hq
      · exact Or.inr hq
      · exact Or.inl (List.mem_singleton.mp hq)
    · exact h
  | pipeError p what =>
    unfold JobQueue.step
    simp only [List.contains_iff_mem]
    rw [if_neg he]
    exact h

/-- What the invariant is for. -/
theorem oneScan (h : Inv s) : OneScan s := by
  have hnodup : s.started.Nodup := (List.nodup_append.mp h.ledger.nodup).1
  constructor
  · rcases h.idle_or_busy with ⟨hlive, _, _⟩ | ⟨⟨p, hlive⟩, _⟩
    · simp [hlive]
    · simp [hlive]
  · have horder := h.ledger.order
    rw [List.map_append] at horder
    exact (List.pairwise_append.mp horder).1
  · intro j hj
    have hcount := List.count_eq_one_of_mem hnodup hj
    rw [h.ledger.started, List.count_append] at hcount
    split_ifs with hlive
    · have hpos := List.count_pos_iff.mpr hlive
      omega
    · have hzero := List.count_eq_zero.mpr hlive
      omega
  · exact fun j hj hstarted => h.ledger.dropped j hj (List.mem_append_left _ hstarted)
  · rcases h.idle_or_busy with ⟨hlive, hrun, _⟩ | ⟨⟨p, hlive⟩, hrun⟩
    · simp [hlive, hrun]
    · simp [hlive, hrun]

end Inv

/-! ### What goes wrong -/

/-- A job that has ended stays ended, and started. -/
structure Keeps (s s' : JobQueue) : Prop where
  outcomes : s.outcomes = s'.outcomes
  started : s.started <+: s'.started

namespace Keeps

variable {s : JobQueue}

theorem next (s : JobQueue) : Keeps s s.next := by
  cases hqueue : s.queue with
  | nil =>
    rw [JobQueue.next_nil hqueue]
    exact ⟨rfl, List.prefix_refl _⟩
  | cons j q =>
    rw [JobQueue.next_cons hqueue]
    exact ⟨rfl, List.prefix_append _ _⟩

theorem enqueue (s : JobQueue) (r : Request) : Keeps s (s.enqueue r) := by
  unfold JobQueue.enqueue
  split_ifs
  · exact ⟨rfl, List.prefix_refl _⟩
  · exact ⟨(next (s.push r)).outcomes, (next (s.push r)).started⟩

theorem foldl_enqueue : ∀ (calls : List Request) (s : JobQueue),
    Keeps s (calls.foldl JobQueue.enqueue s)
  | [], _ => ⟨rfl, List.prefix_refl _⟩
  | r :: calls, s => by
    have ih := foldl_enqueue calls (s.enqueue r)
    exact ⟨(enqueue s r).outcomes.trans ih.outcomes, (enqueue s r).started.trans ih.started⟩

/-- The handler of `finished` gives the job one more outcome. -/
theorem onFinished (s : JobQueue) (p : Job) (out : Str) (calls : List Request) :
    (s.onFinished p out calls).outcomes.map Prod.fst = s.outcomes.map Prod.fst ++ [p] ∧
      s.started <+: (s.onFinished p out calls).started := by
  unfold JobQueue.onFinished
  split
  · exact ⟨List.map_append, List.prefix_refl _⟩
  · rename_i digits _
    set s₁ := s.note p (.result (Bits.fromHex digits p.nbits)) with hs₁
    have hcalls := foldl_enqueue calls s₁
    have hnext := next (calls.foldl JobQueue.enqueue s₁)
    constructor
    · rw [← hnext.outcomes, ← hcalls.outcomes, hs₁]
      exact List.map_append
    · exact hcalls.started.trans hnext.started

end Keeps

theorem OneScan.count_le {s : JobQueue} (h : OneScan s) {j : Job} (hj : j ∈ s.started) :
    (s.outcomes.map Prod.fst).count j ≤ 1 := by
  rw [h.outcome j hj]
  split_ifs
  · exact Nat.zero_le 1
  · exact le_rfl

/-- An error of a process that started, or the end of one after its error, is one signal too
many. -/
theorem Inv.not_oneScan {s : JobQueue} (h : Inv s) {e : ScanEvent} (he : ¬ Fine s e) :
    ¬ OneScan (s.step e) := by
  intro hone
  cases e with
  | enqueue | failedToStart | crashed => exact he trivial
  | pipeError p what =>
    -- the flag is down while the process runs
    have hp : p ∈ s.live := not_not.mp he
    unfold JobQueue.step at hone
    simp only [List.contains_iff_mem, if_pos hp] at hone
    have hrun := hone.running.mpr (List.ne_nil_of_mem hp)
    exact Bool.false_ne_true hrun
  | finished p out calls =>
    -- the job has ended before
    obtain ⟨hlive, hcrashed⟩ : p ∉ s.live ∧ p ∈ s.crashed := by
      unfold Fine at he
      tauto
    unfold JobQueue.step at hone
    simp only [List.contains_iff_mem, if_neg hlive, if_pos hcrashed] at hone
    have hended := h.ledger.crashed p hcrashed
    have hstarted : p ∈ s.started := by
      rw [h.ledger.started]
      exact List.mem_append_left _ hended
    obtain ⟨houtcomes, hbegun⟩ := Keeps.onFinished { s with crashed := s.crashed.erase p } p out calls
    have hcount := hone.count_le (hbegun.subset hstarted)
    rw [houtcomes, List.count_append, List.count_singleton_self] at hcount
    have hfirst := List.count_pos_iff.mpr hended
    exact absurd hfirst (Nat.not_lt.mpr (Nat.le_of_succ_le_succ hcount))

/-- **One scan runs at a time and has one outcome, up to the first error of a process that started:
where it goes on, or where it is heard of again.** -/
theorem oneScan_iff (es : List ScanEvent) :
    (∀ es', es' <+: es → OneScan (es'.foldl JobQueue.step JobQueue.init)) ↔
      Run.Along JobQueue.step Fine JobQueue.init es := by
  have hrun : ∀ (es : List ScanEvent) (s : JobQueue), Inv s →
      ((∀ es', es' <+: es → OneScan (es'.foldl JobQueue.step s)) ↔
        Run.Along JobQueue.step Fine s es) := by
    intro es
    induction es with
    | nil =>
      intro s hs
      refine iff_of_true (fun es' h => ?_) trivial
      rw [List.prefix_nil.mp h]
      exact hs.oneScan
    | cons e es ih =>
      intro s hs
      constructor
      · intro h
        have he : Fine s e := by
          by_contra he
          exact hs.not_oneScan he (h [e] (List.prefix_append [e] es))
        refine ⟨he, (ih _ (hs.step he)).mp fun es' hes' => ?_⟩
        exact h (e :: es') (List.cons_prefix_cons.mpr ⟨rfl, hes'⟩)
      · rintro ⟨he, hes⟩ es' hes'
        rcases List.prefix_cons_iff.mp hes' with rfl | ⟨es'', rfl, hes''⟩
        · exact hs.oneScan
        · exact (ih _ (hs.step he)).mpr hes es'' hes''
  exact hrun es JobQueue.init Inv.init

/-- A read error of the first scan, and a second one is started beside it. -/
theorem not_oneScan : ¬ ∀ es', es' <+: [.enqueue ⟨2, 8, ['0']⟩,
      .pipeError ⟨0, 2, 8, ['0']⟩ "cannot run openFPGALoader: Process operation timed out".toList,
      .enqueue ⟨2, 8, ['0']⟩] → OneScan (es'.foldl JobQueue.step JobQueue.init) := by
  intro h
  have hone := (h _ (List.prefix_refl _)).one
  revert hone
  decide

end Openila
end Xc7Tools
