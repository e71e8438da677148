/-
# eth_lutram_fifo: the gateware

`examples/vc707-ethmin/rtl/eth_lutram_fifo.sv` for DEPTH = `2 ^ AW`: one Lean
definition for each `always` block, a register is a field of the same name.
The two sides share the memory and see of each other a gray pointer only. What
the first flop of a synchroniser receives is an argument of the edge.

`Fifo.step` gives it: an edge samples the other side's pointer as it is, or,
where that has moved since this side's last edge, bit by bit as it is or as it
was. Edges of both clocks at one time sample the pointers before and after
them. A run has no reset in it, and begins where `Reset` says a reset of both
sides leaves the module.

Key definitions: `WSide.clk`, `RSide.clk`, `Fifo.step`, `Fifo.Reset`.
-/
import Mathlib.Logic.Function.Basic
import Xc7Tools.Lib.Gray

namespace Xc7Tools
namespace LutramFifo

/-! ### The write side -/

/-- The registers of `wclk`. -/
structure WSide (AW : ℕ) where
  wbin : BitVec (AW + 1)
  wgray : BitVec (AW + 1)
  wfullQ : Bool
  wq1Rgray : BitVec (AW + 1)
  wq2Rgray : BitVec (AW + 1)
  deriving DecidableEq

namespace WSide

variable {AW : ℕ}

/-- A word is accepted: `wr_en && !wfull_q`. -/
def accepts (s : WSide AW) (wrEn : Bool) : Bool := wrEn && !s.wfullQ

/-- `wbin_nxt` -/
def wbinNxt (s : WSide AW) (wrEn : Bool) : BitVec (AW + 1) :=
  s.wbin + (BitVec.ofBool (s.accepts wrEn)).setWidth (AW + 1)

/-- `wgray_nxt` -/
def wgrayNxt (s : WSide AW) (wrEn : Bool) : BitVec (AW + 1) := gray (s.wbinNxt wrEn)

/-- `wfull_nxt` -/
def wfullNxt (s : WSide AW) (wrEn : Bool) : Bool := s.wgrayNxt wrEn == flipTop s.wq2Rgray

/-- The registers after an edge of `wclk`; `rgray` is what the synchroniser receives. -/
def clk (rst wrEn : Bool) (rgray : BitVec (AW + 1)) (s : WSide AW) : WSide AW :=
  if rst then ⟨0, 0, false, 0, 0⟩
  else
    { wbin := s.wbinNxt wrEn
      wgray := s.wgrayNxt wrEn
      wfullQ := s.wfullNxt wrEn
      wq1Rgray := rgray
      wq2Rgray := s.wq1Rgray }

end WSide

/-! ### The read side -/

/-- The registers of `rclk`. -/
structure RSide (AW : ℕ) where
  rbin : BitVec (AW + 1)
  rgray : BitVec (AW + 1)
  remptyQ : Bool
  rq1Wgray : BitVec (AW + 1)
  rq2Wgray : BitVec (AW + 1)
  deriving DecidableEq

namespace RSide

variable {AW : ℕ}

/-- A word is taken: `rd_en && !rempty_q`. -/
def takes (s : RSide AW) (rdEn : Bool) : Bool := rdEn && !s.remptyQ

/-- `rbin_nxt` -/
def rbinNxt (s : RSide AW) (rdEn : Bool) : BitVec (AW + 1) :=
  s.rbin + (BitVec.ofBool (s.takes rdEn)).setWidth (AW + 1)

/-- `rgray_nxt` -/
def rgrayNxt (s : RSide AW) (rdEn : Bool) : BitVec (AW + 1) := gray (s.rbinNxt rdEn)

/-- `rempty_nxt` -/
def remptyNxt (s : RSide AW) (rdEn : Bool) : Bool := s.rgrayNxt rdEn == s.rq2Wgray

/-- The registers after an edge of `rclk`; `wgray` is what the synchroniser receives. -/
def clk (rst rdEn : Bool) (wgray : BitVec (AW + 1)) (s : RSide AW) : RSide AW :=
  if rst then ⟨0, 0, true, 0, 0⟩
  else
    { rbin := s.rbinNxt rdEn
      rgray := s.rgrayNxt rdEn
      remptyQ := s.remptyNxt rdEn
      rq1Wgray := wgray
      rq2Wgray := s.rq1Wgray }

end RSide

/-! ### The module -/

/-- What an edge of `wclk` samples; `late` are the bits of the read pointer it finds moved. -/
structure WEdge (WIDTH AW : ℕ) where
  wrEn : Bool
  wrData : BitVec WIDTH
  late : BitVec (AW + 1)
  deriving DecidableEq

/-- What an edge of `rclk` samples; `late` are the bits of the write pointer it finds moved. -/
structure REdge (AW : ℕ) where
  rdEn : Bool
  late : BitVec (AW + 1)
  deriving DecidableEq

inductive Event (WIDTH AW : ℕ) where
  | w (e : WEdge WIDTH AW)
  | r (f : REdge AW)
  | both (e : WEdge WIDTH AW) (f : REdge AW)
  deriving DecidableEq

/-- The module, and the pointers as the other side's last edge found them. -/
structure Fifo (WIDTH AW : ℕ) where
  w : WSide AW
  r : RSide AW
  mem : BitVec AW → BitVec WIDTH
  wgrayD : BitVec (AW + 1)
  rgrayD : BitVec (AW + 1)

namespace Fifo

variable {WIDTH AW : ℕ}

/-- `rd_data` -/
def rdData (s : Fifo WIDTH AW) : BitVec WIDTH := s.mem (s.r.rbin.setWidth AW)

/-- The memory after an edge of `wclk`. -/
def write (s : Fifo WIDTH AW) (e : WEdge WIDTH AW) : BitVec AW → BitVec WIDTH :=
  if s.w.accepts e.wrEn then Function.update s.mem (s.w.wbin.setWidth AW) e.wrData else s.mem

def step (s : Fifo WIDTH AW) : Event WIDTH AW → Fifo WIDTH AW
  | .w e =>
    { s with
      w := s.w.clk false e.wrEn (mix e.late s.r.rgray s.rgrayD)
      mem := s.write e
      wgrayD := s.w.wgray
      rgrayD := s.r.rgray }
  | .r f =>
    { s with
      r := s.r.clk false f.rdEn (mix f.late s.w.wgray s.wgrayD)
      wgrayD := s.w.wgray
      rgrayD := s.r.rgray }
  | .both e f =>
    { w := s.w.clk false e.wrEn (mix e.late (s.r.rgrayNxt f.rdEn) s.r.rgray)
      r := s.r.clk false f.rdEn (mix f.late (s.w.wgrayNxt e.wrEn) s.w.wgray)
      mem := s.write e
      wgrayD := s.w.wgrayNxt e.wrEn
      rgrayD := s.r.rgrayNxt f.rdEn }

def run (s : Fifo WIDTH AW) (es : List (Event WIDTH AW)) : Fifo WIDTH AW := es.foldl step s

/-- What a reset of both sides leaves; the memory holds anything. -/
structure Reset (s : Fifo WIDTH AW) : Prop where
  w : s.w = ⟨0, 0, false, 0, 0⟩
  r : s.r = ⟨0, 0, true, 0, 0⟩
  wgrayD : s.wgrayD = 0
  rgrayD : s.rgrayD = 0

/-- The state after a reset, with a memory of zeros. -/
def afterReset (WIDTH AW : ℕ) : Fifo WIDTH AW where
  w := ⟨0, 0, false, 0, 0⟩
  r := ⟨0, 0, true, 0, 0⟩
  mem := fun _ => 0
  wgrayD := 0
  rgrayD := 0

theorem reset_afterReset : Reset (afterReset WIDTH AW) := ⟨rfl, rfl, rfl, rfl⟩

theorem run_concat (s : Fifo WIDTH AW) (es : List (Event WIDTH AW)) (e : Event WIDTH AW) :
    s.run (es ++ [e]) = (s.run es).step e := by
  rw [run, List.foldl_append]
  rfl

end Fifo

end LutramFifo
end Xc7Tools
