/-
# jtag_clkctl: the gateware

`examples/jtag-clkctl/jtag_clkctl.v`: a 32-bit USER register that, on a keyed
UPDATE, releases a clock for a number of cycles. `Gate` is what the `update`
and `clk_free` blocks write, `Gate.tick` an edge of `clk_free` and
`Gate.request` what a keyed UPDATE does; `Clkctl` adds the shift register.

Key definitions: `Gate.tick`, `Clkctl.step`, `Clkctl.run`.
-/
import Xc7Tools.Lib.ShiftReg

namespace Xc7Tools
namespace Clkctl

/-- `ctrl`, `req_t`, and the registers on `clk_free`. -/
structure Gate where
  ctrl : BitVec 32
  reqT : Bool
  reqS : BitVec 3
  left : BitVec 24
  ce : Bool
  deriving DecidableEq

namespace Gate

/-- `ctrl[23:0]`, the cycles to release. -/
def count (g : Gate) : BitVec 24 := g.ctrl.extractLsb' 0 24

/-- `ctrl[31]`, FREE. -/
def free (g : Gate) : Bool := g.ctrl.getLsbD 31

/-- `req_s[2] != req_s[1]`: a request has come through the synchroniser. -/
def fresh (g : Gate) : Bool := g.reqS.getLsbD 2 != g.reqS.getLsbD 1

/-- `always @(posedge clk_free)`. -/
def tick (g : Gate) : Gate :=
  { g with
    reqS := g.reqS.extractLsb' 0 2 ++ BitVec.ofBool g.reqT
    left :=
      if g.fresh then g.count
      else if g.left ≠ 0 ∧ g.ce = true then g.left - 1
      else g.left
    ce := g.free ||
      (if g.fresh then decide (g.count ≠ 0)
       else (if g.ce then 1#24 else 0#24).ult g.left) }

/-- The keyed branch of `always @(posedge update)`. -/
def request (g : Gate) (sr : BitVec 32) : Gate :=
  { g with ctrl := sr, reqT := !g.reqT }

end Gate

/-- Every register of the module. -/
structure State where
  sr : BitVec 32
  gate : Gate
  deriving DecidableEq

/-- The registers' initial values. -/
def powerUp : State := ⟨0, ⟨0, false, 0, 0, false⟩⟩

/-- The module's clock edges, with the signals they sample. -/
inductive Event where
  | drck (sel cap shift tdi : Bool) (status : BitVec 32)
  | update (sel : Bool)
  | clkFree
  deriving DecidableEq

/-- A CAPTURE on the module's own chain. -/
abbrev Event.capture (status : BitVec 32) : Event := .drck true true false false status

namespace State

/-- `sr[30:24] == 7'h2A`. -/
def keyed (s : State) : Bool := s.sr.extractLsb' 24 7 == 0x2A#7

def step (s : State) : Event → State
  | .drck sel cap shift tdi status =>
    if sel then
      if cap then { s with sr := status }
      else if shift then { s with sr := shiftIn tdi s.sr }
      else s
    else s
  | .update sel => if sel && s.keyed then { s with gate := s.gate.request s.sr } else s
  | .clkFree => { s with gate := s.gate.tick }

/-- The state after the events `es`. -/
def run (s : State) (es : List Event) : State := es.foldl step s

@[simp] theorem run_nil (s : State) : s.run [] = s := rfl

@[simp] theorem run_cons (s : State) (e : Event) (es : List Event) :
    s.run (e :: es) = (s.step e).run es := rfl

theorem run_append (s : State) (es fs : List Event) : s.run (es ++ fs) = (s.run es).run fs :=
  List.foldl_append

end State

end Clkctl
end Xc7Tools
