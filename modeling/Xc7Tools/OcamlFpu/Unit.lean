/-
# fpu_hardfloat.v: requests

The registers of `fpu_hardfloat` and what an edge of `clk` does with them. The
cores of HardFloat are not modelled: what they put out is an input of each edge.
A request is taken on an edge with `start` while the unit is idle, and is held
until it is answered (`Serving.step`). The operations that need no core are
answered by the second edge behind it, whatever the inputs are meanwhile
(`answered`); for the others the answer is what a core put out, in IEEE's format.

Key definitions: `Fpu`, `Fpu.step`, `direct`, `Serving`, `Answer`.
Key theorems: `serving_of_start`, `Serving.step`, `Serving.run`, `answered`.
-/
import Xc7Tools.OcamlFpu.Integers
import Xc7Tools.OcamlFpu.Recode

namespace Xc7Tools
namespace OcamlFpu

def opDiv : BitVec 4 := 3

def opSqrt : BitVec 4 := 4

def opLt : BitVec 4 := 5

def opLe : BitVec 4 := 6

def opEq : BitVec 4 := 7

def opNeg : BitVec 4 := 8

def opAbs : BitVec 4 := 9

def opOfInt : BitVec 4 := 10

def opToInt : BitVec 4 := 11

inductive State where
  | idle
  | recode
  | issue
  | wait
  | back
  deriving DecidableEq

/-- The registers. -/
structure Fpu where
  state : State
  done : Bool
  result : BitVec 64
  flag : Bool
  fmaValid : Bool
  divValid : Bool
  divSqrt : Bool
  aR : BitVec 64
  bR : BitVec 64
  opR : BitVec 4
  aRec : BitVec 65
  bRec : BitVec 65
  resRec : BitVec 65
  deriving DecidableEq

/-- What an edge samples: the inputs, and the outputs of the cores. -/
structure Edge where
  resetn : Bool
  start : Bool
  op : BitVec 4
  a : BitVec 64
  b : BitVec 64
  fmaOut : BitVec 65
  fmaValidout : Bool
  divReady : Bool
  divOutDiv : Bool
  divOutSqrt : Bool
  divOut : BitVec 65
  cmpLt : Bool
  cmpEq : Bool

/-- The operations whose result needs no core: the sign bit, or a conversion. -/
def direct (op : BitVec 4) (a : BitVec 64) : Option (BitVec 64) :=
  if op = opNeg then some ((~~~ a.extractLsb' 63 1) ++ a.extractLsb' 0 63)
  else if op = opAbs then some (0#1 ++ a.extractLsb' 0 63)
  else if op = opOfInt then some (ofInt a)
  else if op = opToInt then some (0#32 ++ toInt a)
  else none

/-- The comparisons, with the outputs of their core. -/
def compared (op : BitVec 4) (e : Edge) : Option Bool :=
  if op = opLt then some e.cmpLt
  else if op = opLe then some (e.cmpLt || e.cmpEq)
  else if op = opEq then some e.cmpEq
  else none

namespace Fpu

/-- While `resetn` is low. -/
def reset : Fpu where
  state := .idle
  done := false
  result := 0
  flag := false
  fmaValid := false
  divValid := false
  divSqrt := false
  aR := 0
  bR := 0
  opR := 0
  aRec := 0
  bRec := 0
  resRec := 0

/-- `ISSUE` -/
def issue (s : Fpu) (e : Edge) : Fpu :=
  match direct s.opR s.aR, compared s.opR e with
  | some r, _ => { s with result := r, done := true, state := .idle }
  | none, some c => { s with flag := c, done := true, state := .idle }
  | none, none =>
    if s.opR = opDiv ∨ s.opR = opSqrt then
      { s with divValid := true, divSqrt := s.opR = opSqrt, state := .wait }
    else { s with fmaValid := true, state := .wait }

/-- `WAIT` -/
def wait (s : Fpu) (e : Edge) : Fpu :=
  let s := if s.divValid && e.divReady then { s with divValid := false } else s
  if e.fmaValidout || e.divOutDiv || e.divOutSqrt then
    { s with resRec := if s.opR = opDiv ∨ s.opR = opSqrt then e.divOut else e.fmaOut, state := .back }
  else s

/-- `done <= 1'b0; fma_valid <= 1'b0;` -/
def cleared (s : Fpu) : Fpu := { s with done := false, fmaValid := false }

/-- `IDLE` -/
def take (s : Fpu) (e : Edge) : Fpu :=
  if e.start then { s with aR := e.a, bR := e.b, opR := e.op, state := .recode } else s

/-- `RECODE` -/
def recode (s : Fpu) : Fpu :=
  { s with aRec := recode64 s.aR, bRec := recode64 s.bR, state := .issue }

/-- `BACK` -/
def back (s : Fpu) : Fpu :=
  { s with result := derecode64 s.resRec, done := true, state := .idle }

/-- An edge of `clk`. -/
def step (s : Fpu) (e : Edge) : Fpu :=
  if !e.resetn then reset
  else
    match s.state with
    | .idle => s.cleared.take e
    | .recode => s.cleared.recode
    | .issue => s.cleared.issue e
    | .wait => s.cleared.wait e
    | .back => s.cleared.back

def run (s : Fpu) (es : List Edge) : Fpu := es.foldl step s

end Fpu

/-! ### Requests -/

/-- A request is being served; the cores are given its operands. -/
structure Serving (op : BitVec 4) (a b : BitVec 64) (s : Fpu) : Prop where
  busy : s.state ≠ .idle
  opR : s.opR = op
  aR : s.aR = a
  bR : s.bR = b
  recoded : s.state ≠ .recode → s.aRec = recode64 a ∧ s.bRec = recode64 b
  core : s.state = .wait ∨ s.state = .back → direct op a = none ∧ ∀ e, compared op e = none

/-- The unit is done, and idle again: the edge `e` was that of `ISSUE`, or a core's output is back. -/
structure Answer (op : BitVec 4) (a : BitVec 64) (s : Fpu) (e : Edge) (s' : Fpu) : Prop where
  done : s'.done = true
  idle : s'.state = .idle
  result : ∀ r, direct op a = some r → s'.result = r
  flag : direct op a = none → ∀ c, compared op e = some c → s'.flag = c
  core : direct op a = none → compared op e = none → s'.result = derecode64 s.resRec

section Requests

variable {op : BitVec 4} {a b : BitVec 64} {s : Fpu} {e : Edge}

theorem serving_of_start (hidle : s.state = .idle) (hreset : e.resetn = true)
    (hstart : e.start = true) : Serving e.op e.a e.b (s.step e) ∧ (s.step e).state = .recode := by
  have hstep : s.step e = s.cleared.take e := by simp [Fpu.step, hidle, hreset]
  rw [hstep, Fpu.take, if_pos hstart]
  exact ⟨⟨by simp, rfl, rfl, rfl, fun h => absurd rfl h, by simp⟩, rfl⟩

theorem Serving.recode (h : Serving op a b s) : Serving op a b s.recode := by
  refine ⟨by simp [Fpu.recode], h.opR, h.aR, h.bR, fun _ => ?_, by simp [Fpu.recode]⟩
  simp only [Fpu.recode, h.aR, h.bR, and_self]

theorem compared_eq_none (h : compared op e = none) (e' : Edge) : compared op e' = none := by
  unfold compared at h ⊢
  split_ifs at h ⊢
  rfl

/-- `ISSUE` answers at once, or leaves the request to a core. -/
theorem Serving.issue (h : Serving op a b s) (hstate : s.state = .issue) :
    Serving op a b (s.issue e) ∨ Answer op a s e (s.issue e) := by
  obtain ⟨hrecA, hrecB⟩ := h.recoded (by simp [hstate])
  unfold Fpu.issue
  rw [h.opR, h.aR]
  cases hdirect : direct op a with
  | some r =>
    refine .inr ⟨rfl, rfl, fun r' hr' => ?_, fun hnone => ?_, fun hnone => ?_⟩
    · exact Option.some.inj (hdirect.symm.trans hr')
    · exact absurd (hdirect.symm.trans hnone) (by simp)
    · exact absurd (hdirect.symm.trans hnone) (by simp)
  | none =>
    cases hcompared : compared op e with
    | some c =>
      refine .inr ⟨rfl, rfl, fun r' hr' => ?_, fun _ c' hc' => ?_, fun _ hnone => ?_⟩
      · exact absurd (hdirect.symm.trans hr') (by simp)
      · exact Option.some.inj (hcompared.symm.trans hc')
      · exact absurd (hcompared.symm.trans hnone) (by simp)
    | none =>
      left
      simp only
      split_ifs
      · exact ⟨by simp, rfl, rfl, h.bR, fun _ => ⟨hrecA, hrecB⟩,
          fun _ => ⟨hdirect, compared_eq_none hcompared⟩⟩
      · exact ⟨by simp, rfl, rfl, h.bR, fun _ => ⟨hrecA, hrecB⟩,
          fun _ => ⟨hdirect, compared_eq_none hcompared⟩⟩

theorem Serving.wait (h : Serving op a b s) (hstate : s.state = .wait) :
    Serving op a b (s.wait e) := by
  obtain ⟨hrecA, hrecB⟩ := h.recoded (by simp [hstate])
  have hcore := h.core (.inl hstate)
  unfold Fpu.wait
  split_ifs
  · exact ⟨by simp, h.opR, h.aR, h.bR, fun _ => ⟨hrecA, hrecB⟩, fun _ => hcore⟩
  · exact ⟨by simp [hstate], h.opR, h.aR, h.bR, fun _ => ⟨hrecA, hrecB⟩, fun _ => hcore⟩
  · exact ⟨by simp, h.opR, h.aR, h.bR, fun _ => ⟨hrecA, hrecB⟩, fun _ => hcore⟩
  · exact h

theorem Serving.back (h : Serving op a b s) (hstate : s.state = .back) :
    Answer op a s e s.back := by
  obtain ⟨hdirect, hcompared⟩ := h.core (.inr hstate)
  refine ⟨rfl, rfl, fun r hr => ?_, fun _ c hc => ?_, fun _ _ => rfl⟩
  · exact absurd (hdirect.symm.trans hr) (by simp)
  · exact absurd ((hcompared e).symm.trans hc) (by simp)

/-- **An edge without reset keeps the request, or answers it.** -/
theorem Serving.step (h : Serving op a b s) (hreset : e.resetn = true) :
    Serving op a b (s.step e) ∨ Answer op a s e (s.step e) := by
  have hcleared : Serving op a b s.cleared := ⟨h.busy, h.opR, h.aR, h.bR, h.recoded, h.core⟩
  cases hstate : s.state with
  | idle => exact absurd hstate h.busy
  | recode =>
    have hstep : s.step e = s.cleared.recode := by simp [Fpu.step, hstate, hreset]
    rw [hstep]
    exact .inl hcleared.recode
  | issue =>
    have hstep : s.step e = s.cleared.issue e := by simp [Fpu.step, hstate, hreset]
    rw [hstep]
    refine (hcleared.issue (e := e) hstate).imp id fun hanswer => ?_
    exact ⟨hanswer.done, hanswer.idle, hanswer.result, hanswer.flag, hanswer.core⟩
  | wait =>
    have hstep : s.step e = s.cleared.wait e := by simp [Fpu.step, hstate, hreset]
    rw [hstep]
    exact .inl (hcleared.wait hstate)
  | back =>
    have hstep : s.step e = s.cleared.back := by simp [Fpu.step, hstate, hreset]
    rw [hstep]
    have hanswer := hcleared.back (e := e) hstate
    exact .inr ⟨hanswer.done, hanswer.idle, hanswer.result, hanswer.flag, hanswer.core⟩

/-- **In a run without reset a request is held until it is answered.** -/
theorem Serving.run : ∀ {es : List Edge} {s : Fpu}, Serving op a b s →
    (∀ e ∈ es, e.resetn = true) →
    Serving op a b (s.run es) ∨
      ∃ front e back, es = front ++ e :: back ∧ Serving op a b (s.run front) ∧
        Answer op a (s.run front) e (s.run (front ++ [e]))
  | [], s, h, _ => .inl h
  | e :: es, s, h, hreset => by
    rcases h.step (hreset e List.mem_cons_self) with hserving | hanswer
    · have ih := hserving.run fun e' he' => hreset e' (List.mem_cons_of_mem _ he')
      refine ih.imp id ?_
      rintro ⟨front, e', back, rfl, hfront, hanswer⟩
      exact ⟨e :: front, e', back, rfl, hfront, hanswer⟩
    · exact .inr ⟨[], e, es, rfl, h, hanswer⟩

/-- **The operations that need no core are answered by the second edge behind the start.** -/
theorem answered {e₁ e₂ : Edge} {r : BitVec 64} (hidle : s.state = .idle) (hstart : e.start = true)
    (hreset : e.resetn = true) (hreset₁ : e₁.resetn = true) (hreset₂ : e₂.resetn = true)
    (hdirect : direct e.op e.a = some r) :
    (((s.step e).step e₁).step e₂).done = true ∧ (((s.step e).step e₁).step e₂).result = r := by
  obtain ⟨h, hrecode⟩ := serving_of_start hidle hreset hstart
  have hissue : ((s.step e).step e₁).state = .issue := by
    have hstep : (s.step e).step e₁ = (s.step e).cleared.recode := by
      rw [Fpu.step, hreset₁]
      simp [hrecode]
    rw [hstep]
    rfl
  have hserving : Serving e.op e.a e.b ((s.step e).step e₁) := by
    rcases h.step hreset₁ with hserving | hanswer
    · exact hserving
    · exact absurd (hissue.symm.trans hanswer.idle) (by simp)
  rcases hserving.step hreset₂ with hnext | hanswer
  · refine absurd ?_ hnext.busy
    generalize (s.step e).step e₁ = t at *
    have hstep : t.step e₂ = t.cleared.issue e₂ := by simp [Fpu.step, hissue, hreset₂]
    have hdirect' : direct t.cleared.opR t.cleared.aR = some r := by
      rw [show t.cleared.opR = e.op from hserving.opR, show t.cleared.aR = e.a from hserving.aR]
      exact hdirect
    rw [hstep, Fpu.issue, hdirect']
  · exact ⟨hanswer.done, hanswer.result r hdirect⟩

end Requests

end OcamlFpu
end Xc7Tools
