/-
# jtag_ctl_merge: the design under test

What the merge leaves of the design, in four parts: the ids it makes up
(`IdsApart`), the cells (`CellsKept`), the buffer (`BufferKept`) and the status
word (`StatusShown`). Each holds on a condition the script does not check;
`undisturbed_iff` says that together they hold exactly when all four conditions
(`Safe`) do.

A BUFGCE is a `ClockGate`, of which only what its data sheet says is known: the
clock passes while CE is constantly 1, and the output is low while CE is
constantly 0 or the clock low.

Key definitions: `ClockGate`, `drive`, `Undisturbed`, `Safe`.
Key theorems: `idsApart_iff`, `drive_gateBuffer_iff`, `statusShown_iff`,
`undisturbed_iff`.
-/
import Xc7Tools.Netlist.JtagCtlMerge

namespace Xc7Tools
namespace JtagCtlMerge

open Yosys Checked

/-! ### Clock buffers -/

/-- A signal over time. -/
abbrev Wave := ℕ → Bool

def high : Wave := fun _ => true

def low : Wave := fun _ => false

/-- A BUFGCE: its output from CE and I. -/
structure ClockGate where
  out : Wave → Wave → Wave
  enabled : ∀ i, out high i = i
  disabled : ∀ i, out low i = low
  idle : ∀ ce, out ce low = low

/-- The signals on the nets, constants included. -/
structure Signals where
  wave : Bit → Wave
  zero : wave (.const ['0']) = low
  one : wave (.const ['1']) = high

/-- The bit on a pin of one bit, undefined when nothing is connected. -/
def pinBit (c : Cell) (pin : Str) : Bit :=
  ((c.connections.get? pin).bind List.head?).getD (.const ['x'])

/-- What a clock buffer drives its output with. -/
def drive (g : ClockGate) (v : Signals) (c : Cell) : Option Wave :=
  if c.type = bufg then some (v.wave (pinBit c "I".toList))
  else if c.type = bufgce then
    some (g.out (v.wave (pinBit c "CE".toList)) (v.wave (pinBit c "I".toList)))
  else none

theorem SameCell.drive {c c' : Cell} (h : SameCell c c') (g : ClockGate) (v : Signals) :
    drive g v c' = JtagCtlMerge.drive g v c := by
  obtain ⟨ht, hc⟩ := h
  simp only [JtagCtlMerge.drive, pinBit, ht, hc]

/-- A gate that takes CE at instant 1. -/
def latchingGate : ClockGate where
  out ce i := fun t => ce 1 && i t
  enabled i := funext fun t => by simp [high]
  disabled i := funext fun t => by simp [low]
  idle ce := funext fun t => by simp [low]

/-- CE of the gate is 1, and there is a pulse at instant 0 on every other
net. -/
def pulsing (ce : ℕ) : Signals where
  wave
    | .net i => if i = ce then high else fun t => t = 0
    | .const s => if s = ['0'] then low else if s = ['1'] then high else fun t => t = 0
  zero := rfl
  one := rfl

theorem pulsing_one {ce : ℕ} {b : Bit} (h1 : b ≠ .const ['1']) (hce : b ≠ .net ce) :
    (pulsing ce).wave b 1 = false := by
  cases b with
  | net i =>
    have : i ≠ ce := fun e => hce (e ▸ rfl)
    simp [pulsing, this]
  | const s =>
    have : s ≠ ['1'] := fun e => h1 (e ▸ rfl)
    by_cases h0 : s = ['0'] <;> simp [pulsing, this, h0, low]

theorem pulsing_zero {ce : ℕ} {b : Bit} (h0 : b ≠ .const ['0']) :
    (pulsing ce).wave b 0 = true := by
  cases b with
  | net i => by_cases hi : i = ce <;> simp [pulsing, hi, high]
  | const s =>
    have : s ≠ ['0'] := fun e => h0 (e ▸ rfl)
    by_cases h1 : s = ['1'] <;> simp [pulsing, this, h1, high]

/-- The buffer passes its clock whatever its own CE does. -/
def Transparent (c : Cell) : Prop :=
  c.type = bufg ∨ pinBit c "CE".toList = .const ['1'] ∨ pinBit c "I".toList = .const ['0']

/-- While the new CE is 1 the gated buffer drives what the buffer drove, for
every gate and all signals, exactly when the buffer was transparent. -/
theorem drive_gateBuffer_iff {c : Cell} {ce : ℕ} (htype : c.type = bufg ∨ c.type = bufgce)
    (hce : pinBit c "CE".toList ≠ .net ce) :
    (∀ (g : ClockGate) (v : Signals), v.wave (.net ce) = high →
      drive g v (gateBuffer (.net ce) c) = drive g v c) ↔ Transparent c := by
  have hne : bufgce ≠ bufg := by decide
  have hpin : pinBit (gateBuffer (.net ce) c) "CE".toList = .net ce := by
    rw [pinBit, gateBuffer, Dict.get?_set_self]
    rfl
  have hclk : pinBit (gateBuffer (.net ce) c) "I".toList = pinBit c "I".toList := by
    rw [pinBit, gateBuffer, Dict.get?_set_of_ne _ _ (by decide)]
    rfl
  have hgated : ∀ (g : ClockGate) (v : Signals), v.wave (.net ce) = high →
      drive g v (gateBuffer (.net ce) c) = some (v.wave (pinBit c "I".toList)) := by
    intro g v hv
    have htype' : (gateBuffer (.net ce) c).type = bufgce := rfl
    rw [drive, htype', if_neg hne, if_pos rfl, hpin, hclk, hv, g.enabled]
  rcases htype with ht | ht
  · refine iff_of_true (fun g v hv => ?_) (Or.inl ht)
    rw [hgated g v hv, drive, ht, if_pos rfl]
  have hbefore : ∀ g v, drive g v c =
      some (g.out (v.wave (pinBit c "CE".toList)) (v.wave (pinBit c "I".toList))) := by
    intro g v
    rw [drive, ht, if_neg hne, if_pos rfl]
  constructor
  · intro h
    by_contra hopen
    simp only [Transparent, ht, hne, false_or, not_or] at hopen
    have hv : (pulsing ce).wave (.net ce) = high := if_pos rfl
    have heq := h latchingGate (pulsing ce) hv
    rw [hgated _ _ hv, hbefore, Option.some.injEq] at heq
    have hzero : (pulsing ce).wave (pinBit c "I".toList) 0 =
        ((pulsing ce).wave (pinBit c "CE".toList) 1 && (pulsing ce).wave (pinBit c "I".toList) 0) :=
      congrFun heq 0
    rw [pulsing_one hopen.1 hce, pulsing_zero hopen.2] at hzero
    cases hzero
  · rintro (h | h | h) g v hv
    · exact absurd (ht.symm.trans h) hne
    · rw [hgated g v hv, hbefore, h, v.one, g.enabled]
    · rw [hgated g v hv, hbefore, h, v.zero, g.idle]

/-! ### What the merge leaves of the design -/

variable {a : Args} {design ctl : Modules} {p : Plan}

/-- A net of the controller's own: an id in its cells or netnames that is not
on `clk_free`, `ce` or `status`. -/
def Own (a : Args) (p : Plan) (i : ℕ) : Prop :=
  .net i ∈ p.ctl.bits ∧ ∀ c, ¬ Attached a p (.net i) c

/-- The two nets made up and the controller's own are different from each other
and occur nowhere in the design. -/
structure IdsApart (a : Args) (design : Modules) (p : Plan) : Prop where
  free : ¬ Occurs design (p.base + 10 ^ 7)
  ce : ¬ Occurs design (p.base + 10 ^ 7 + 1)
  own : ∀ i, Own a p i → ∃ j, p.ctlBit (.net i) = .net j ∧ ¬ Occurs design j
  free_ne_ce : freeNet p.base ≠ ceNet p.base
  own_ne : ∀ i, Own a p i → p.ctlBit (.net i) ≠ freeNet p.base ∧ p.ctlBit (.net i) ≠ ceNet p.base
  own_inj : ∀ i j, Own a p i → Own a p j → p.ctlBit (.net i) = p.ctlBit (.net j) → i = j

/-- Every cell of the design but the buffer keeps its type and connections. -/
structure CellsKept (a : Args) (design : Modules) (p : Plan) (out : Modules) : Prop where
  modules : ∀ k m, k ≠ p.topName → design.get? k = some m → out.get? k = some m
  top : ∃ top, out.get? p.topName = some top ∧ ∀ n c, n ≠ a.bufgName →
    p.top.cells.get? n = some c → ∃ c', top.cells.get? n = some c' ∧ SameCell c c'

/-- The buffer keeps its connections but CE, and while `ce` is 1 it drives what
it drove before. -/
def BufferKept (a : Args) (p : Plan) (out : Modules) : Prop :=
  ∃ top c', out.get? p.topName = some top ∧ top.cells.get? a.bufgName = some c' ∧
    (∀ pin, pin ≠ "CE".toList → c'.connections.get? pin = p.buffer.connections.get? pin) ∧
    ∀ (g : ClockGate) (v : Signals), v.wave (ceNet p.base) = high →
      drive g v c' = drive g v p.buffer

/-- Status bit `k` is bit `k` of the status nets in order, `'0'` beyond them,
and all the nets are in the design. -/
structure StatusShown (a : Args) (p : Plan) : Prop where
  known : ∀ n ∈ a.statusNets, n ∈ p.top.netnames
  shown : ∀ (k : ℕ) b, (p.ctl.pinBits statusPin)[k]? = some b →
    p.ctlBit b = ((statusBits p.top a.statusNets)[k]?).getD .zero

structure Undisturbed (a : Args) (design : Modules) (p : Plan) (out : Modules) : Prop where
  ids : IdsApart a design p
  cells : CellsKept a design p out
  buffer : BufferKept a p out
  status : StatusShown a p

/-- What the merge takes for granted. -/
structure Safe (a : Args) (p : Plan) : Prop where
  ids : ∀ i, Own a p i → i ≠ 10 ^ 7 ∧ i ≠ 10 ^ 7 + 1
  bufgFree : pfx ++ "bufg_free".toList ∉ p.top.cells
  names : ∀ n ∈ p.ctl.cells, pfx ++ n ∉ p.top.cells
  buffer : Transparent p.buffer
  status : ∀ n ∈ a.statusNets, n ∈ p.top.netnames

/-- A controller as yosys writes it: its ports have nets of their own, and
every cell drives a net, which is none of the status inputs and not on a clock
enable. -/
structure Controller extends Component pins where
  drives : ∀ k m, top? modules = some (k, m) → ∀ n c, m.cells.get? n = some c →
    ∃ pin bs i, pin ≠ "CE".toList ∧ c.connections.get? pin = some bs ∧ .net i ∈ bs ∧
      .net i ∉ m.pinBits statusPin

/-! ### Ids -/

theorem Found.ctlBit_attached (f : Found a design ctl p) (hp : DistinctPorts pins p.ctl) {b c : Bit}
    (h : Attached a p b c) : p.ctlBit b = c := by
  obtain ⟨pin, hpin, hb⟩ := h.mem_pinBits
  obtain ⟨i, rfl⟩ := Bit.exists_of_isNet (hp.nets pin hpin b hb)
  exact portBit_of_get? ((f.get?_portMap hp).mpr h)

theorem Found.ctlBit_other (f : Found a design ctl p) {i : ℕ} (h : ∀ c, ¬ Attached a p (.net i) c) :
    p.ctlBit (.net i) = .net (p.base + i) :=
  portBit_of_not_mem fun hm => (f.mem_portMap.mp hm).elim h

theorem idsApart_iff (design : Netlist) (f : Found a design.modules ctl p) :
    IdsApart a design.modules p ↔ ∀ i, Own a p i → i ≠ 10 ^ 7 ∧ i ≠ 10 ^ 7 + 1 := by
  have hfresh := f.not_occurs design
  constructor
  · intro h i hi
    have hne := h.own_ne i hi
    rw [f.ctlBit_other hi.2, freeNet, ceNet, Ne, Ne, Bit.net.injEq, Bit.net.injEq] at hne
    omega
  · intro h
    constructor
    case free => exact hfresh _
    case ce => exact hfresh (10 ^ 7 + 1)
    case own => exact fun i hi => ⟨_, f.ctlBit_other hi.2, hfresh i⟩
    case free_ne_ce =>
      rw [freeNet, ceNet, Ne, Bit.net.injEq]
      omega
    case own_ne =>
      intro i hi
      have := h i hi
      rw [f.ctlBit_other hi.2, freeNet, ceNet, Ne, Ne, Bit.net.injEq, Bit.net.injEq]
      omega
    case own_inj =>
      intro i j hi hj e
      rw [f.ctlBit_other hi.2, f.ctlBit_other hj.2, Bit.net.injEq] at e
      omega

/-! ### Status -/

theorem statusShown_iff (f : Found a design ctl p) (hp : DistinctPorts pins p.ctl) :
    StatusShown a p ↔ ∀ n ∈ a.statusNets, n ∈ p.top.netnames := by
  refine ⟨fun h => h.known, fun h => ⟨h, fun k b hb => ?_⟩⟩
  cases hport : p.ctl.ports.get? statusPin with
  | none =>
    rw [Module.pinBits, hport] at hb
    cases hb
  | some port =>
    rw [Module.pinBits_of_get? hport] at hb
    exact f.ctlBit_attached hp (.status hport (mem_fillPort.mpr ⟨k, hb, rfl⟩))

/-! ### Cells -/

/-- A name the script does not assign keeps its cell, the buffer is gated. -/
theorem spliced_get?_of_ne {n : Str} {c : Cell} (hfree : pfx ++ "bufg_free".toList ≠ n)
    (hctl : ∀ cn ∈ p.ctl.cells, pfx ++ cn ≠ n) (hc : p.top.cells.get? n = some c) :
    (p.spliced a.bufgName).cells.get? n =
      some (if a.bufgName = n then gateBuffer (ceNet p.base) p.buffer else c) := by
  refine (get?_spliceCells_of_ne pfx p.ctlBit (p.gated a.bufgName) hctl).trans ?_
  simp only [Plan.gated, Dict.get?_set_of_ne _ _ hfree, Dict.get?_set]
  split_ifs
  · rfl
  · exact hc

/-- The free buffer's name, when it is not a cell of the controller. -/
theorem spliced_get?_bufgFree (h : "bufg_free".toList ∉ p.ctl.cells) :
    (p.spliced a.bufgName).cells.get? (pfx ++ "bufg_free".toList) =
      some (freeBuffer p.clkIn (freeNet p.base)) := by
  refine (get?_spliceCells_of_ne pfx p.ctlBit (p.gated a.bufgName) fun cn hcn e => ?_).trans
    (Dict.get?_set_self _ _ _)
  exact h (List.append_cancel_left e ▸ hcn)

/-- The cell has the pins of `c`, CE apart. -/
def KeepsPins (c c' : Cell) : Prop :=
  ∀ pin, pin ≠ "CE".toList → c'.connections.get? pin = c.connections.get? pin

/-- Either way a cell of the design keeps its pins but CE. -/
theorem keepsPins (f : Found a design ctl p) {out : Modules} (hcells : CellsKept a design p out)
    (hbuffer : BufferKept a p out) : ∃ top, out.get? p.topName = some top ∧
      ∀ n c, p.top.cells.get? n = some c → ∃ c', top.cells.get? n = some c' ∧ KeepsPins c c' := by
  obtain ⟨-, top, htop, hkept⟩ := hcells
  obtain ⟨top', c', htop', hc', hpins, -⟩ := hbuffer
  obtain rfl := Option.some.inj (htop.symm.trans htop')
  refine ⟨top, htop, fun n c hc => ?_⟩
  by_cases hn : n = a.bufgName
  · subst hn
    obtain rfl := Option.some.inj (f.buffer.symm.trans hc)
    exact ⟨c', hc', hpins⟩
  · obtain ⟨c'', hc'', hsame⟩ := hkept n c hn hc
    exact ⟨c'', hc'', fun pin _ => by rw [hsame.2]⟩

/-- A pin of a cell of the design has no id that does not occur in it. -/
theorem Found.not_fresh (f : Found a design ctl p) {n pin : Str} {c : Cell} {bs : List Bit} {j : ℕ}
    (hc : p.top.cells.get? n = some c) (hpin : c.connections.get? pin = some bs)
    (hj : .net j ∈ bs) : Occurs design j :=
  ⟨p.top, Dict.mem_values.mpr ⟨_, top?_mem f.top⟩, Or.inl (Module.mem_bits_of_cell hc hpin hj)⟩

/-- A cell of the controller has an id the design has not, on a pin that is not
CE. -/
theorem exists_fresh (design : Netlist) (ctl : Controller)
    (f : Found a design.modules ctl.modules p) {n : Str} {c : Cell}
    (hc : p.ctl.cells.get? n = some c) :
    ∃ pin bs j, pin ≠ "CE".toList ∧ (c.mapBits p.ctlBit).connections.get? pin = some bs ∧
      .net j ∈ bs ∧ ¬ Occurs design.modules j := by
  obtain ⟨k, hk⟩ := f.ctl
  have hp := ctl.distinct k p.ctl hk
  obtain ⟨pin, bs, i, hne, hpin, hi, hstatus⟩ := ctl.drives k p.ctl hk n c hc
  have hfresh := f.not_occurs design
  obtain ⟨j, hj, hnot⟩ : ∃ j, p.ctlBit (.net i) = .net j ∧ ¬ Occurs design.modules j := by
    by_cases hatt : ∃ d, Attached a p (.net i) d
    · obtain ⟨d, hd⟩ := hatt
      rw [f.ctlBit_attached hp hd]
      cases hd with
      | free => exact ⟨_, rfl, hfresh _⟩
      | ce => exact ⟨_, rfl, hfresh (10 ^ 7 + 1)⟩
      | status hport hb => exact absurd (mem_pinBits_of_fillPort hport hb) hstatus
    · exact ⟨_, f.ctlBit_other (not_exists.mp hatt), hfresh i⟩
  refine ⟨pin, bs.map p.ctlBit, j, hne, ?_, ?_, hnot⟩
  · rw [Cell.mapBits, Dict.get?_map, hpin, Option.map_some]
  · exact List.mem_map.mpr ⟨_, hi, hj⟩

/-- A name whose new cell has such an id is no name of the design's, when the
design's cells keep their pins. -/
theorem not_mem_of_fresh (f : Found a design ctl p) {place : Placement} {cells : Dict Str Cell}
    (hfreeze : freeze place (p.spliced a.bufgName).cells = .ok cells)
    (hkept : ∀ n c, p.top.cells.get? n = some c → ∃ c', cells.get? n = some c' ∧ KeepsPins c c')
    {n : Str} {c : Cell} (hc : (p.spliced a.bufgName).cells.get? n = some c)
    (hfresh : ∃ pin bs j, pin ≠ "CE".toList ∧ c.connections.get? pin = some bs ∧ .net j ∈ bs ∧
      ¬ Occurs design j) : n ∉ p.top.cells := by
  intro hn
  obtain ⟨pin, bs, j, hne, hpin, hj, hnot⟩ := hfresh
  obtain ⟨c₀, hc₀⟩ := Dict.mem_iff.mp hn
  obtain ⟨c₁, hc₁, hpins⟩ := hkept n c₀ hc₀
  obtain ⟨c₂, hc₂, hsame⟩ := freeze_get? hfreeze hc
  obtain rfl := Option.some.inj (hc₁.symm.trans hc₂)
  have hpin₀ : c₀.connections.get? pin = some bs := by rw [← hpins pin hne, hsame.2, hpin]
  exact hnot (f.not_fresh hc₀ hpin₀ hj)

theorem Found.pinBit_ne_ceNet (design : Netlist) (f : Found a design.modules ctl p) (pin : Str) :
    pinBit p.buffer pin ≠ ceNet p.base := by
  intro h
  cases hconn : p.buffer.connections.get? pin with
  | none => rw [pinBit, hconn] at h; cases h
  | some bs =>
    cases hbs : bs with
    | nil => rw [pinBit, hconn, hbs] at h; cases h
    | cons b bs' =>
      have hb : b = ceNet p.base := by simpa [pinBit, hconn, hbs] using h
      have hmem : .net (p.base + 10 ^ 7 + 1) ∈ bs := by
        rw [hbs, hb]
        exact List.mem_cons_self
      exact f.not_occurs design (10 ^ 7 + 1) (f.not_fresh f.buffer hconn hmem)

/-- When no name clashes the buffer is gated in the output. -/
theorem Found.gated_buffer (f : Found a design ctl p) {place : Placement} {cells : Dict Str Cell}
    (hfreeze : freeze place (p.spliced a.bufgName).cells = .ok cells)
    (hfree : pfx ++ "bufg_free".toList ∉ p.top.cells)
    (hnames : ∀ n ∈ p.ctl.cells, pfx ++ n ∉ p.top.cells) :
    ∃ c', cells.get? a.bufgName = some c' ∧ SameCell (gateBuffer (ceNet p.base) p.buffer) c' := by
  have hmem : a.bufgName ∈ p.top.cells := Dict.mem_iff.mpr ⟨_, f.buffer⟩
  have hget := spliced_get?_of_ne (fun e => hfree (e ▸ hmem))
    (fun cn hcn e => hnames cn hcn (e ▸ hmem)) f.buffer (a := a)
  rw [if_pos rfl] at hget
  exact freeze_get? hfreeze hget

/-- The design is kept exactly when the names of the added cells are new to it
and the buffer is transparent. -/
theorem kept_iff (design : Netlist) (ctl : Controller) (f : Found a design.modules ctl.modules p)
    {place : Placement} {cells : Dict Str Cell}
    (hfreeze : freeze place (p.spliced a.bufgName).cells = .ok cells) {out : Modules}
    (hout : out = design.modules.set p.topName { p.spliced a.bufgName with cells }) :
    CellsKept a design.modules p out ∧ BufferKept a p out ↔
      pfx ++ "bufg_free".toList ∉ p.top.cells ∧ (∀ n ∈ p.ctl.cells, pfx ++ n ∉ p.top.cells) ∧
        Transparent p.buffer := by
  have htop : out.get? p.topName = some { p.spliced a.bufgName with cells } :=
    hout ▸ Dict.get?_set_self _ _ _
  have htransparent := drive_gateBuffer_iff f.type (f.pinBit_ne_ceNet design "CE".toList)
  constructor
  · rintro ⟨hcells, hbuffer⟩
    obtain ⟨top, htop', hkept⟩ := keepsPins f hcells hbuffer
    obtain rfl := Option.some.inj (htop.symm.trans htop')
    have hlost {n c} := not_mem_of_fresh f hfreeze hkept (n := n) (c := c)
    have hnames : ∀ n ∈ p.ctl.cells, pfx ++ n ∉ p.top.cells := by
      intro n hn
      obtain ⟨c, hc⟩ := Dict.mem_iff.mp hn
      exact hlost (get?_spliceCells pfx p.ctlBit (p.gated a.bufgName) hc)
        (exists_fresh design ctl f hc)
    have hfree : pfx ++ "bufg_free".toList ∉ p.top.cells := by
      by_cases hn : "bufg_free".toList ∈ p.ctl.cells
      · exact hnames _ hn
      · refine hlost (spliced_get?_bufgFree hn) ⟨"O".toList, [freeNet p.base], p.base + 10 ^ 7,
          by decide, Dict.get?_set_self _ _ _, List.mem_singleton_self _, f.not_occurs design _⟩
    refine ⟨hfree, hnames, htransparent.mp fun g v hv => ?_⟩
    obtain ⟨c₁, hc₁, hsame⟩ := f.gated_buffer hfreeze hfree hnames
    obtain ⟨top, c₂, htop', hc₂, -, hdrive⟩ := hbuffer
    obtain rfl := Option.some.inj (htop.symm.trans htop')
    obtain rfl := Option.some.inj (hc₁.symm.trans hc₂)
    rw [← hdrive g v hv]
    exact (hsame.drive g v).symm
  · rintro ⟨hfree, hnames, hopen⟩
    refine ⟨⟨fun k m hk hm => ?_, _, htop, fun n c hn hc => ?_⟩, ?_⟩
    · rw [hout, Dict.get?_set_of_ne _ _ (Ne.symm hk), hm]
    · have hmem : n ∈ p.top.cells := Dict.mem_iff.mpr ⟨c, hc⟩
      have hget := spliced_get?_of_ne (fun e => hfree (e ▸ hmem))
        (fun cn hcn e => hnames cn hcn (e ▸ hmem)) hc (a := a)
      rw [if_neg (Ne.symm hn)] at hget
      exact freeze_get? hfreeze hget
    · obtain ⟨c', hc', hsame⟩ := f.gated_buffer hfreeze hfree hnames
      refine ⟨_, c', htop, hc', fun pin hpin => ?_, fun g v hv => ?_⟩
      · rw [hsame.2]
        exact Dict.get?_set_of_ne _ _ (Ne.symm hpin)
      · exact (hsame.drive g v).trans (htransparent.mpr hopen g v hv)

/-- **The design under test is undisturbed exactly when** no net of the
controller has one of the two ids made up, no added cell has the name of a
cell of the design, the buffer was transparent and every status net is in the
design. -/
theorem undisturbed_iff (a : Args) (design : Netlist) (ctl : Controller) (place : Placement)
    {out : Modules} (h : merge a design.modules ctl.modules place = .ok out) :
    ∃ p, plan a design.modules ctl.modules = .ok p ∧
      (Undisturbed a design.modules p out ↔ Safe a p) := by
  simp only [merge, bind_eq_ok, pure_eq_ok] at h
  obtain ⟨p, hplan, cells, hfreeze, hout⟩ := h
  have f := plan_eq_ok hplan
  obtain ⟨k, hk⟩ := f.ctl
  have hids := idsApart_iff design f
  have hkept := kept_iff design ctl f hfreeze hout.symm
  have hstatus := statusShown_iff f (ctl.distinct k p.ctl hk)
  refine ⟨p, hplan, fun h => ?_, fun h => ?_⟩
  · obtain ⟨hfree, hnames, hbuffer⟩ := hkept.mp ⟨h.cells, h.buffer⟩
    exact ⟨hids.mp h.ids, hfree, hnames, hbuffer, hstatus.mp h.status⟩
  · obtain ⟨hcells, hbuffer⟩ := hkept.mpr ⟨h.bufgFree, h.names, h.buffer⟩
    exact ⟨hids.mpr h.ids, hcells, hbuffer, hstatus.mpr h.status⟩

/-- The small controller, whose register drives `ce`. -/
def gateController : Controller where
  toComponent := gateNetlist
  drives := by
    intro k m h n c hc
    obtain ⟨rfl, rfl⟩ :=
      Prod.mk.inj (Option.some.inj (h : some ("jtag_clkctl".toList, gateModule) = _))
    obtain ⟨rfl, rfl⟩ := Prod.mk.inj (List.mem_singleton.mp (Dict.get?_eq_some.mp hc))
    exact ⟨"Q".toList, [.net 3], 3, by decide, by decide, by decide, by decide⟩

theorem safe_clocked {p : Plan}
    (f : Found ⟨"buf".toList, ["q".toList]⟩ clocked.modules gateNetlist.modules p) :
    Safe ⟨"buf".toList, ["q".toList]⟩ p := by
  have htop : clockedModule = p.top :=
    (Prod.mk.inj (Option.some.inj (f.top : some ("clocked".toList, clockedModule) = _))).2
  obtain ⟨k, hk⟩ := f.ctl
  have hctl : gateModule = p.ctl :=
    (Prod.mk.inj (Option.some.inj (hk : some ("jtag_clkctl".toList, gateModule) = _))).2
  have hids : ∀ b ∈ gateModule.bits, b ≠ .net (10 ^ 7) ∧ b ≠ .net (10 ^ 7 + 1) := by decide
  have hnames : ∀ n ∈ gateModule.cells.keys, pfx ++ n ∉ clockedModule.cells := by decide
  have hbuffer : some (cellOf bufg ⟨[("I".toList, [.net 2]), ("O".toList, [.net 3])], by decide⟩) =
      some p.buffer := by
    rw [← f.buffer, ← htop]
    decide
  constructor
  case ids =>
    intro i hi
    obtain ⟨h1, h2⟩ := hids _ (hctl ▸ hi.1)
    exact ⟨fun e => h1 (e ▸ rfl), fun e => h2 (e ▸ rfl)⟩
  case bufgFree =>
    rw [← htop]
    decide
  case names =>
    rw [← htop, ← hctl]
    exact hnames
  case buffer => exact Or.inl (Option.some.inj hbuffer ▸ rfl)
  case status =>
    rw [← htop]
    decide

theorem undisturbed_clocked : ∃ p out,
    merge ⟨"buf".toList, ["q".toList]⟩ clocked.modules gateController.modules .empty = .ok out ∧
      Undisturbed ⟨"buf".toList, ["q".toList]⟩ clocked.modules p out := by
  obtain ⟨out, h⟩ := exists_of_isOk
    (x := merge ⟨"buf".toList, ["q".toList]⟩ clocked.modules gateController.modules .empty)
    (by decide)
  obtain ⟨p, hplan, hp⟩ :=
    undisturbed_iff ⟨"buf".toList, ["q".toList]⟩ clocked gateController .empty h
  exact ⟨p, out, h, hp.mpr (safe_clocked (plan_eq_ok hplan))⟩

/-- A status net that is not in the design is not refused: `q` moves into its
place. -/
theorem status_net_missing : ∃ p out,
    plan ⟨"buf".toList, ["gone".toList, "q".toList]⟩ clocked.modules gateNetlist.modules = .ok p ∧
    merge ⟨"buf".toList, ["gone".toList, "q".toList]⟩ clocked.modules gateNetlist.modules .empty =
      .ok out ∧ p.ctlBit (.net 4) = .net 4 ∧
    ¬ Undisturbed ⟨"buf".toList, ["gone".toList, "q".toList]⟩ clocked.modules p out := by
  obtain ⟨out, h⟩ := exists_of_isOk (x := merge ⟨"buf".toList, ["gone".toList, "q".toList]⟩
    clocked.modules gateNetlist.modules .empty) (by decide)
  obtain ⟨p, hplan⟩ := exists_of_isOk (x := plan ⟨"buf".toList, ["gone".toList, "q".toList]⟩
    clocked.modules gateNetlist.modules) (by decide)
  refine ⟨p, out, hplan, h, ?_, fun hu => ?_⟩
  · have hbit : (plan ⟨"buf".toList, ["gone".toList, "q".toList]⟩ clocked.modules
        gateNetlist.modules).toOption.map (fun p => p.ctlBit (.net 4)) = some (.net 4) := by decide
    rw [hplan] at hbit
    exact Option.some.inj hbit
  · have htop : clockedModule = p.top := (Prod.mk.inj (Option.some.inj
      ((plan_eq_ok hplan).top : some ("clocked".toList, clockedModule) = _))).2
    have hgone := hu.status.known "gone".toList (by decide)
    rw [← htop] at hgone
    exact absurd hgone (by decide)

end JtagCtlMerge
end Xc7Tools
