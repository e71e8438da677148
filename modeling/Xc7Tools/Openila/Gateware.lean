/-
# openila: the gateware

`examples/openila/openila.v`, one Lean definition for each `always` block.
An instance has WIDTH = `W` and DEPTH = `2 ^ AW`; the header comment asks for
a power of two, and AW = 0 (DEPTH = 1) is left out of account because
Verilog's `[AW-1:0]` is then two bits wide. A register is a field of the
same name, a clock edge a function on the fields it writes, and a
nonblocking assignment reads the old record.

* `Cap` is the capture FSM and its memory, `Cap.clk` the edge of the probed
  clock. It sees the TAP side only through the registers `Ctl`.
* `Dat` is the USER<DAT> shift register with its half-cycle shadow copies;
  `Dat.rise` and `Dat.fall` are the two edges of DRCK.
* `Ila` is the whole module, `Ila.step` one event of any of its clocks.

The memory is uninitialised in the source, so no definition fixes what it
holds at first.

Key definitions: `Cap.clk`, `Cap.status`, `Dat.rise`, `Dat.fall`, `Ila.step`.
-/
import Mathlib.Data.BitVec
import Mathlib.Logic.Function.Basic
import Xc7Tools.Lib.ShiftReg

namespace Xc7Tools
namespace Openila

/-! ### The capture FSM -/

/-- The registers USER<CTL> writes: `mask`, `value`, `post` and `arm_t`. -/
structure Ctl (W AW : ℕ) where
  mask : BitVec W
  value : BitVec W
  post : BitVec AW
  armT : Bool
  deriving DecidableEq

/-- The registers on `clk` and the block RAM. -/
structure Cap (W AW : ℕ) where
  sample : BitVec W
  armS : BitVec 3
  armed : Bool
  trig : Bool
  done : Bool
  waddr : BitVec AW
  left : BitVec AW
  mem : BitVec AW → BitVec W

namespace Cap

variable {W AW : ℕ}

/-- `arm = arm_s[2]`, the synchronised arm level. -/
def arm (s : Cap W AW) : Bool := s.armS.getLsbD 2

/-- `hit = ((sample & mask) == (value & mask))`. -/
def hit (c : Ctl W AW) (s : Cap W AW) : Bool := s.sample &&& c.mask == c.value &&& c.mask

/-- `we = armed && !done`: the cycle stores a sample. -/
def we (s : Cap W AW) : Bool := s.armed && !s.done

/-- `SW = AW + 11`, the width of the status word. -/
abbrev SW (AW : ℕ) : ℕ := AW + 11

/-- `status = {8'h1A, done, trig, armed, waddr}`. -/
def status (s : Cap W AW) : BitVec (SW AW) :=
  ((0x1A#8 ++ BitVec.ofBool s.done ++ BitVec.ofBool s.trig ++ BitVec.ofBool s.armed) ++
    s.waddr).cast (by simp only [SW]; omega)

/-- The two `always @(posedge clk)` blocks. -/
def clk (c : Ctl W AW) (probe : BitVec W) (s : Cap W AW) : Cap W AW :=
  let s' : Cap W AW :=
    { s with
      sample := probe
      armS := s.armS.extractLsb' 0 2 ++ BitVec.ofBool c.armT
      mem := if s.we then Function.update s.mem s.waddr s.sample else s.mem }
  if !s.arm then
    { s' with armed := false, trig := false, done := false }
  else if !s.armed then
    { s' with armed := true, trig := false, done := false, left := c.post }
  else if !s.done then
    let s'' := { s' with waddr := s.waddr + 1 }
    if !s.trig then
      if s.hit c then { s'' with trig := true, done := if c.post = 0 then true else s.done }
      else s''
    else if s.left.toNat = 1 then { s'' with done := true }
    else { s'' with left := s.left - 1 }
  else s'

end Cap

/-! ### The USER<DAT> register -/

/-- The registers on the data chain's DRCK; the fields in `N` are copies
taken on its falling edge. -/
structure Dat (W AW : ℕ) where
  raddr : BitVec AW
  raddrN : BitVec AW
  rdata : BitVec W
  dsr : BitVec W
  dsrN : BitVec W
  bitn : BitVec 16
  bitnN : BitVec 16

namespace Dat

variable {W AW : ℕ}

/-- `always @(negedge d_drck)`. -/
def fall (d : Dat W AW) : Dat W AW :=
  { d with dsrN := d.dsr, raddrN := d.raddr, bitnN := d.bitn }

/-- `always @(posedge d_drck)`, with the memory and the status it reads. -/
def rise (mem : BitVec AW → BitVec W) (status : BitVec (Cap.SW AW)) (sel cap shift tdi : Bool)
    (d : Dat W AW) : Dat W AW :=
  let d' := { d with rdata := mem d.raddrN }
  if sel then
    if cap then { d' with dsr := status.setWidth W, raddr := 0, bitn := 0 }
    else if shift then
      if d.bitnN.toNat = W - 1 then
        { d' with dsr := d.rdata, raddr := d.raddrN + 1, bitn := 0 }
      else { d' with dsr := shiftIn tdi d.dsrN, bitn := d.bitnN + 1 }
    else d'
  else d'

/-- `d_tdo = dsr[0]`. -/
def tdo (d : Dat W AW) : Bool := d.dsr.getLsbD 0

end Dat

/-! ### The module -/

/-- `CW = 2*WIDTH + AW + 9`, the length of the control register. -/
abbrev CW (W AW : ℕ) : ℕ := 2 * W + AW + 9

/-- Every register of the module. -/
structure Ila (W AW : ℕ) where
  csr : BitVec (CW W AW)
  csrN : BitVec (CW W AW)
  ctl : Ctl W AW
  cap : Cap W AW
  dat : Dat W AW

/-- The clock edges of the module's five clocks, with the signals they
sample. -/
inductive Event (W : ℕ) where
  | clk (probe : BitVec W)
  | ctlRise (sel cap shift tdi : Bool)
  | ctlFall
  | ctlUpdate (sel : Bool)
  | datRise (sel cap shift tdi : Bool)
  | datFall
  deriving DecidableEq

namespace Ila

variable {W AW : ℕ}

/-- `csr[2*WIDTH+AW+8 -: 8] == 8'h5A`: the control register carries the key. -/
def keyed (s : Ila W AW) : Bool := s.csr.extractLsb' (2 * W + AW + 1) 8 == 0x5A#8

/-- What a keyed UPDATE loads from the control register. -/
def requested (s : Ila W AW) : Ctl W AW where
  mask := s.csr.extractLsb' 0 W
  value := s.csr.extractLsb' W W
  post := s.csr.extractLsb' (2 * W) AW
  armT := s.csr.getLsbD (2 * W + AW)

/-- One edge of one clock. -/
def step (s : Ila W AW) : Event W → Ila W AW
  | .clk probe => { s with cap := s.cap.clk s.ctl probe }
  | .ctlRise sel cap shift tdi =>
    if sel then
      if cap then { s with csr := s.cap.status.setWidth (CW W AW) }
      else if shift then { s with csr := shiftIn tdi s.csrN }
      else s
    else s
  | .ctlFall => { s with csrN := s.csr }
  | .ctlUpdate sel => if sel && s.keyed then { s with ctl := s.requested } else s
  | .datRise sel cap shift tdi =>
    { s with dat := s.dat.rise s.cap.mem s.cap.status sel cap shift tdi }
  | .datFall => { s with dat := s.dat.fall }

/-- Only `clk` writes the FSM and its memory. -/
theorem step_cap (s : Ila W AW) (e : Event W) :
    (s.step e).cap = match e with
      | .clk probe => s.cap.clk s.ctl probe
      | _ => s.cap := by
  cases e <;> simp only [step] <;> split_ifs <;> rfl

end Ila

end Openila
end Xc7Tools
