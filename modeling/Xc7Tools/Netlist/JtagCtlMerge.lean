/-
# jtag_ctl_merge: the clock controller in a placed design

`scripts/jtag_ctl_merge.py`. `plan` is the script up to the port map, `spliced`
the top module with the clock buffer gated and the controller in it, `merge`
the whole script with the frozen placement. What it prints and the file names
are left out.

The names the script makes up are all under `tctl.`, and its net ids above the
design's: `base + 10^7` for the ungated clock, `base + 10^7 + 1` for `ce`, and
`base + i` for the controller's own net `i`.

Key definitions: `plan`, `Plan.spliced`, `freeze`, `merge`, `mapPort`.
Key theorems: `plan_eq_ok`, `Found.get?_portMap`, `Found.mem_portMap`, `freeze_get?`.
-/
import Xc7Tools.Lib.Checked
import Xc7Tools.Netlist.Splice

namespace Xc7Tools
namespace JtagCtlMerge

open Yosys Checked

/-! ### The script -/

/-- The arguments that are not files. -/
structure Args where
  bufgName : Str
  statusNets : List Str

/-- The placement: the `nextpnr_bel` of each cell, if its entry has one. -/
abbrev Placement := Dict Str (Option Str)

inductive Error where
  /-- No module has the attribute `top`. -/
  | noTop
  | keyError (key : Str)
  /-- "{bufg_name} is a {bufg["type"]}" -/
  | notABuffer (name type : Str)
  | indexError
  /-- "the placement has no nextpnr_bel entries: ..." -/
  | noNextpnrBel
  deriving DecidableEq

/-- `tctl.` before the names of the controller. -/
def pfx : Str := "tctl.".toList

def clkFreePin : Str := "clk_free".toList

def cePin : Str := "ce".toList

def statusPin : Str := "status".toList

theorem cePin_ne : cePin ≠ clkFreePin := by decide

theorem statusPin_ne : statusPin ≠ clkFreePin ∧ statusPin ≠ cePin := by decide

def bufg : Str := "BUFG".toList

def bufgce : Str := "BUFGCE".toList

/-- The buffer with `ce` on its CE. -/
def gateBuffer (ce : Bit) (c : Cell) : Cell :=
  { c with
    type := bufgce
    connections := c.connections.set "CE".toList [ce]
    portDirections := c.portDirections.set "CE".toList "input".toList }

/-- `top['cells']['tctl.bufg_free']` -/
def freeBuffer (clkIn : List Bit) (free : Bit) : Cell where
  hideName := 0
  type := bufg
  parameters := .empty
  attributes := .empty
  portDirections := (Dict.empty.set "I".toList "input".toList).set "O".toList "output".toList
  connections := (Dict.empty.set "I".toList clkIn).set "O".toList [free]

/-- `status_bits`: a name that is not in the design gives none. -/
def statusBits (top : Module) (nets : List Str) : List Bit :=
  nets.flatMap fun n => (top.bitsOf n).getD []

/-- What one port adds to the port map. -/
def mapPort (free ce : Bit) (status : List Bit) (q : Str × Port) :
    Except Error (List (Bit × Bit)) :=
  if q.1 = clkFreePin then do return [(← orRaise .indexError q.2.bits.head?, free)]
  else if q.1 = cePin then do return [(← orRaise .indexError q.2.bits.head?, ce)]
  else if q.1 = statusPin then .ok (fillPort status q.2.bits)
  else .ok []

/-- What the script knows before it writes to the design. -/
structure Plan where
  topName : Str
  top : Module
  ctl : Module
  base : ℕ
  buffer : Cell
  clkIn : List Bit
  portMap : Dict Bit Bit

/-- `free_net` -/
def freeNet (base : ℕ) : Bit := .net (base + 10 ^ 7)

/-- `ce_net` -/
def ceNet (base : ℕ) : Bit := .net (base + 10 ^ 7 + 1)

/-- The script up to the port map. -/
def plan (a : Args) (design ctl : Modules) : Except Error Plan := do
  let (topName, top) ← orRaise .noTop (top? design)
  let (_, ctl) ← orRaise .noTop (top? ctl)
  let buffer ← orRaise (.keyError a.bufgName) (top.cells.get? a.bufgName)
  if buffer.type ≠ bufg ∧ buffer.type ≠ bufgce then
    throw (.notABuffer a.bufgName buffer.type)
  let clkIn ← orRaise (.keyError "I".toList) (buffer.connections.get? "I".toList)
  let pairs ← ctl.ports.items.mapM (mapPort (freeNet (base design)) (ceNet (base design))
    (statusBits top a.statusNets))
  return {
    topName, top, ctl, buffer, clkIn
    base := base design
    portMap := Dict.empty.update pairs.flatten }

/-- `ctl_bit` -/
def Plan.ctlBit (p : Plan) : Bit → Bit := portBit p.portMap p.base

/-- The top module with the buffer gated and the free buffer beside it. -/
def Plan.gated (bufgName : Str) (p : Plan) : Module :=
  { p.top with
    cells := (p.top.cells.set bufgName (gateBuffer (ceNet p.base) p.buffer)).set
      (pfx ++ "bufg_free".toList) (freeBuffer p.clkIn (freeNet p.base))
    netnames := (p.top.netnames.set (pfx ++ "clk_free".toList) ⟨0, .empty, [freeNet p.base]⟩).set
      (pfx ++ "ce".toList) ⟨0, .empty, [ceNet p.base]⟩ }

/-- The controller spliced into it. -/
def Plan.spliced (bufgName : Str) (p : Plan) : Module :=
  spliceNames pfx p.ctlBit p.portMap p.ctl.netnames
    (spliceCells pfx p.ctlBit p.ctl.cells (p.gated bufgName))

/-- `c['attributes']['BEL'] = bel` -/
def Cell.pin (bel : Str) (c : Cell) : Cell :=
  { c with attributes := c.attributes.set "BEL".toList (.str bel) }

/-- One entry of the placement. -/
def freezeCell (cells : Dict Str Cell) (q : Str × Option Str) : Except Error (Dict Str Cell) :=
  match cells.get? q.1 with
  | none => .ok cells
  | some c => do return cells.set q.1 (Cell.pin (← orRaise .noNextpnrBel q.2) c)

/-- The loop that freezes the placement. -/
def freeze (place : Placement) (cells : Dict Str Cell) : Except Error (Dict Str Cell) :=
  place.items.foldlM freezeCell cells

/-- The script: the netlist it writes. -/
def merge (a : Args) (design ctl : Modules) (place : Placement) : Except Error Modules := do
  let p ← plan a design ctl
  let cells ← freeze place (p.spliced a.bufgName).cells
  return design.set p.topName { p.spliced a.bufgName with cells }

/-! ### What an accepted run knows -/

/-- What the script found before it wrote to the design. -/
structure Found (a : Args) (design ctl : Modules) (p : Plan) : Prop where
  top : top? design = some (p.topName, p.top)
  ctl : ∃ k, top? ctl = some (k, p.ctl)
  buffer : p.top.cells.get? a.bufgName = some p.buffer
  type : p.buffer.type = bufg ∨ p.buffer.type = bufgce
  clkIn : p.buffer.connections.get? "I".toList = some p.clkIn
  base : p.base = Yosys.base design
  portMap : ∃ pairs, p.ctl.ports.items.mapM (mapPort (freeNet p.base) (ceNet p.base)
    (statusBits p.top a.statusNets)) = .ok pairs ∧ p.portMap = Dict.empty.update pairs.flatten

theorem plan_eq_ok {a : Args} {design ctl : Modules} {p : Plan} (h : plan a design ctl = .ok p) :
    Found a design ctl p := by
  simp only [plan, bind_eq_ok, orRaise_eq_ok] at h
  obtain ⟨⟨topName, top⟩, htop, ⟨k, m⟩, hctl, buffer, hbuffer, h⟩ := h
  split_ifs at h with htype
  · simp [throw, throwThe, MonadExceptOf.throw, bind, Except.bind] at h
  simp only [bind_eq_ok, orRaise_eq_ok, pure_eq_ok] at h
  obtain ⟨clkIn, hclkIn, pairs, hpairs, rfl⟩ := h
  exact ⟨htop, ⟨k, hctl⟩, hbuffer, by tauto, hclkIn, rfl, pairs, hpairs, rfl⟩

/-- The ids made up occur nowhere in the design. -/
theorem Found.not_occurs {a : Args} {ctl : Modules} {p : Plan} (design : Netlist)
    (f : Found a design.modules ctl p) (k : ℕ) : ¬ Occurs design.modules (p.base + k) := by
  rw [f.base]
  exact design.not_occurs k

/-! ### Where the ports lead -/

/-- The bit of the controller is attached, through one of its ports, to this
bit: `clk_free` to the free clock, `ce` to the gate's CE, `status` to the bits
of the status nets, `'0'` beyond them. -/
inductive Attached (a : Args) (p : Plan) : Bit → Bit → Prop where
  | free {port : Port} {pin : Bit} (hport : p.ctl.ports.get? clkFreePin = some port)
      (hpin : port.bits.head? = some pin) : Attached a p pin (freeNet p.base)
  | ce {port : Port} {pin : Bit} (hport : p.ctl.ports.get? cePin = some port)
      (hpin : port.bits.head? = some pin) : Attached a p pin (ceNet p.base)
  | status {port : Port} {b c : Bit} (hport : p.ctl.ports.get? statusPin = some port)
      (hb : (b, c) ∈ fillPort (statusBits p.top a.statusNets) port.bits) : Attached a p b c

/-- The names of the controller's ports. -/
abbrev pins : List Str := [clkFreePin, cePin, statusPin]

variable {a : Args} {design ctl : Modules} {p : Plan}

/-- What one port adds is attached. -/
theorem attached_of_mapPort {q : Str × Port} {ps : List (Bit × Bit)} {b c : Bit}
    (hq : p.ctl.ports.get? q.1 = some q.2)
    (h : mapPort (freeNet p.base) (ceNet p.base) (statusBits p.top a.statusNets) q = .ok ps)
    (hb : (b, c) ∈ ps) : Attached a p b c := by
  unfold mapPort at h
  split_ifs at h with hfree hce hstatus
  · simp only [bind_eq_ok, orRaise_eq_ok, pure_eq_ok] at h
    obtain ⟨pin, hpin, rfl⟩ := h
    obtain ⟨rfl, rfl⟩ := Prod.mk.inj (List.mem_singleton.mp hb)
    exact .free (hfree ▸ hq) hpin
  · simp only [bind_eq_ok, orRaise_eq_ok, pure_eq_ok] at h
    obtain ⟨pin, hpin, rfl⟩ := h
    obtain ⟨rfl, rfl⟩ := Prod.mk.inj (List.mem_singleton.mp hb)
    exact .ce (hce ▸ hq) hpin
  · exact .status (hstatus ▸ hq) (Except.ok.inj h ▸ hb)
  · cases Except.ok.inj h ▸ hb

/-- A port of one bit adds that bit. -/
theorem mem_mapPort_pin {free ce c : Bit} {status : List Bit} {name : Str} {port : Port} {pin : Bit}
    (hname : name = clkFreePin ∧ c = free ∨ name = cePin ∧ c = ce)
    (hpin : port.bits.head? = some pin) {ps : List (Bit × Bit)}
    (h : mapPort free ce status (name, port) = .ok ps) : (pin, c) ∈ ps := by
  have hps : (do return [(← orRaise Error.indexError port.bits.head?, c)]) = Except.ok ps := by
    rcases hname with ⟨rfl, rfl⟩ | ⟨rfl, rfl⟩
    · rwa [mapPort, if_pos rfl] at h
    · rwa [mapPort, if_neg cePin_ne, if_pos rfl] at h
  simp only [bind_eq_ok, orRaise_eq_ok, pure_eq_ok] at hps
  obtain ⟨pin', hpin', rfl⟩ := hps
  rw [Option.some.inj (hpin.symm.trans hpin')]
  exact List.mem_singleton_self _

/-- What is attached is added by its port. -/
theorem Attached.exists_port {b c : Bit} (h : Attached a p b c) :
    ∃ q ∈ p.ctl.ports.items, ∀ ps,
      mapPort (freeNet p.base) (ceNet p.base) (statusBits p.top a.statusNets) q = .ok ps →
        (b, c) ∈ ps := by
  cases h with
  | free hport hpin =>
    exact ⟨_, Dict.get?_eq_some.mp hport, fun _ => mem_mapPort_pin (Or.inl ⟨rfl, rfl⟩) hpin⟩
  | ce hport hpin =>
    exact ⟨_, Dict.get?_eq_some.mp hport, fun _ => mem_mapPort_pin (Or.inr ⟨rfl, rfl⟩) hpin⟩
  | status hport hb =>
    refine ⟨_, Dict.get?_eq_some.mp hport, fun ps hps => ?_⟩
    rw [mapPort, if_neg statusPin_ne.1, if_neg statusPin_ne.2, if_pos rfl] at hps
    exact Except.ok.inj hps ▸ hb

theorem mem_pairs {pairs : List (List (Bit × Bit))}
    (h : p.ctl.ports.items.mapM (mapPort (freeNet p.base) (ceNet p.base)
      (statusBits p.top a.statusNets)) = .ok pairs) {b c : Bit} :
    (b, c) ∈ pairs.flatten ↔ Attached a p b c := by
  constructor
  · intro hb
    obtain ⟨ps, hps, hb⟩ := List.mem_flatten.mp hb
    obtain ⟨q, hq, hok⟩ := exists_of_mem_mapM h hps
    exact attached_of_mapPort (Dict.get?_eq_some.mpr hq) hok hb
  · intro hb
    obtain ⟨q, hq, hmem⟩ := hb.exists_port
    obtain ⟨ps, hps, hok⟩ := exists_of_mem_of_mapM h hq
    exact List.mem_flatten.mpr ⟨ps, hps, hmem ps hok⟩

theorem mem_pinBits_of_fillPort {m : Module} {pin : Str} {port : Port} {word : List Bit} {b c : Bit}
    (hport : m.ports.get? pin = some port) (h : (b, c) ∈ fillPort word port.bits) :
    b ∈ m.pinBits pin := by
  obtain ⟨k, hk, -⟩ := mem_fillPort.mp h
  exact Module.pinBits_of_get? hport ▸ List.mem_of_getElem? hk

/-- An attached bit is one of the bits of a port. -/
theorem Attached.mem_pinBits {b c : Bit} (h : Attached a p b c) :
    ∃ pin ∈ pins, b ∈ p.ctl.pinBits pin := by
  cases h with
  | free hport hpin => exact ⟨clkFreePin, by simp, Module.mem_pinBits_of_head? hport hpin⟩
  | ce hport hpin => exact ⟨cePin, by simp, Module.mem_pinBits_of_head? hport hpin⟩
  | status hport hb => exact ⟨statusPin, by simp, mem_pinBits_of_fillPort hport hb⟩

/-- No bit is attached to two. -/
theorem Attached.unique (hp : DistinctPorts pins p.ctl) {b c c' : Bit} (h : Attached a p b c)
    (h' : Attached a p b c') : c' = c := by
  have clash : ∀ {pin pin'}, pin ∈ pins → pin' ∈ pins → pin ≠ pin' → b ∈ p.ctl.pinBits pin →
      b ∈ p.ctl.pinBits pin' → c' = c := fun h₁ h₂ hne hb hb' =>
    absurd hb' (hp.disjoint _ h₁ _ h₂ hne b hb)
  have hfree : clkFreePin ∈ pins := by simp
  have hce : cePin ∈ pins := by simp
  have hst : statusPin ∈ pins := by simp
  cases h with
  | free hport hpin =>
    have hb := Module.mem_pinBits_of_head? hport hpin
    cases h' with
    | free => rfl
    | ce hport' hpin' =>
      exact clash hfree hce cePin_ne.symm hb (Module.mem_pinBits_of_head? hport' hpin')
    | status hport' hb' =>
      exact clash hfree hst statusPin_ne.1.symm hb (mem_pinBits_of_fillPort hport' hb')
  | ce hport hpin =>
    have hb := Module.mem_pinBits_of_head? hport hpin
    cases h' with
    | free hport' hpin' =>
      exact clash hce hfree cePin_ne hb (Module.mem_pinBits_of_head? hport' hpin')
    | ce => rfl
    | status hport' hb' =>
      exact clash hce hst statusPin_ne.2.symm hb (mem_pinBits_of_fillPort hport' hb')
  | status hport hfill =>
    have hb := mem_pinBits_of_fillPort hport hfill
    cases h' with
    | free hport' hpin' =>
      exact clash hst hfree statusPin_ne.1 hb (Module.mem_pinBits_of_head? hport' hpin')
    | ce hport' hpin' =>
      exact clash hst hce statusPin_ne.2 hb (Module.mem_pinBits_of_head? hport' hpin')
    | status hport' hfill' =>
      obtain rfl := Option.some.inj (hport.symm.trans hport')
      exact fillPort_unique (Module.pinBits_of_get? hport ▸ hp.nodup _ hst) hfill hfill'

/-- The port map is the relation `Attached`. -/
theorem Found.get?_portMap (f : Found a design ctl p) (hp : DistinctPorts pins p.ctl) {b c : Bit} :
    p.portMap.get? b = some c ↔ Attached a p b c := by
  obtain ⟨pairs, hpairs, he⟩ := f.portMap
  rw [he, Dict.get?_update_empty fun v' h h' => ?_, mem_pairs hpairs]
  exact Attached.unique hp ((mem_pairs hpairs).mp h) ((mem_pairs hpairs).mp h')

theorem Found.mem_portMap (f : Found a design ctl p) {b : Bit} :
    b ∈ p.portMap ↔ ∃ c, Attached a p b c := by
  obtain ⟨pairs, hpairs, he⟩ := f.portMap
  rw [he, Dict.mem_update]
  simp only [List.mem_map, Prod.exists, exists_and_right, exists_eq_right, mem_pairs hpairs]
  exact or_iff_left (Dict.not_mem_empty b)

/-! ### Freezing changes attributes only -/

/-- The cells but for the attributes. -/
def SameCell (c c' : Cell) : Prop := c'.type = c.type ∧ c'.connections = c.connections

theorem freezeCell_get? {cells cells' : Dict Str Cell} {q : Str × Option Str}
    (h : freezeCell cells q = .ok cells') {n : Str} {c : Cell} (hc : cells.get? n = some c) :
    ∃ c', cells'.get? n = some c' ∧ SameCell c c' := by
  unfold freezeCell at h
  split at h
  case h_1 => exact ⟨c, Except.ok.inj h ▸ hc, rfl, rfl⟩
  case h_2 c₀ hc₀ =>
    simp only [bind_eq_ok, pure_eq_ok] at h
    obtain ⟨bel, -, rfl⟩ := h
    by_cases hn : q.1 = n
    · subst hn
      obtain rfl := Option.some.inj (hc.symm.trans hc₀)
      exact ⟨Cell.pin bel c, Dict.get?_set_self _ _ _, rfl, rfl⟩
    · exact ⟨c, (Dict.get?_set_of_ne _ _ hn).trans hc, rfl, rfl⟩

theorem foldlM_freezeCell_get? : ∀ {place : List (Str × Option Str)} {cells cells' : Dict Str Cell},
    place.foldlM freezeCell cells = .ok cells' → ∀ {n c}, cells.get? n = some c →
      ∃ c', cells'.get? n = some c' ∧ SameCell c c'
  | [], cells, cells', h, n, c, hc => by
    rw [List.foldlM_nil, pure_eq_ok] at h
    exact ⟨c, h ▸ hc, rfl, rfl⟩
  | q :: place, cells, cells', h, n, c, hc => by
    rw [List.foldlM_cons, bind_eq_ok] at h
    obtain ⟨cells₁, h₁, h⟩ := h
    obtain ⟨c₁, hc₁, ht, hconn⟩ := freezeCell_get? h₁ hc
    obtain ⟨c', hc', ht', hconn'⟩ := foldlM_freezeCell_get? h hc₁
    exact ⟨c', hc', ht'.trans ht, hconn'.trans hconn⟩

theorem freeze_get? {place : Placement} {cells cells' : Dict Str Cell}
    (h : freeze place cells = .ok cells') {n : Str} {c : Cell} (hc : cells.get? n = some c) :
    ∃ c', cells'.get? n = some c' ∧ SameCell c c' := foldlM_freezeCell_get? h hc

/-! ### A small instance -/

/-- A cell with these connections and nothing else. -/
def cellOf (type : Str) (connections : Dict Str (List Bit)) : Cell :=
  ⟨0, type, .empty, .empty, .empty, connections⟩

/-- A register on a buffered clock. -/
def clockedModule : Module where
  attributes := topAttr
  ports := ⟨[("clk".toList, ⟨"input".toList, [.net 2]⟩)], by decide⟩
  cells := ⟨[("buf".toList, cellOf bufg ⟨[("I".toList, [.net 2]), ("O".toList, [.net 3])],
      by decide⟩),
    ("ff".toList, cellOf "FDRE".toList ⟨[("C".toList, [.net 3]), ("Q".toList, [.net 4])],
      by decide⟩)], by decide⟩
  netnames := ⟨[("clk".toList, ⟨0, .empty, [.net 2]⟩), ("clk_g".toList, ⟨0, .empty, [.net 3]⟩),
    ("q".toList, ⟨0, .empty, [.net 4]⟩)], by decide⟩

def clocked : Netlist where
  modules := ⟨[("clocked".toList, clockedModule)], by decide⟩
  named := by decide

/-- A controller of one register. -/
def gateModule : Module where
  attributes := topAttr
  ports := ⟨[(clkFreePin, ⟨"input".toList, [.net 2]⟩), (cePin, ⟨"output".toList, [.net 3]⟩),
    (statusPin, ⟨"input".toList, [.net 4, .net 5]⟩)], by decide⟩
  cells := ⟨[("ff".toList, cellOf "FDRE".toList ⟨[("C".toList, [.net 2]), ("D".toList, [.net 4]),
    ("Q".toList, [.net 3])], by decide⟩)], by decide⟩
  netnames := ⟨[(clkFreePin, ⟨0, .empty, [.net 2]⟩), (cePin, ⟨0, .empty, [.net 3]⟩),
    (statusPin, ⟨0, .empty, [.net 4, .net 5]⟩)], by decide⟩

def gateNetlist : Component pins where
  modules := ⟨[("jtag_clkctl".toList, gateModule)], by decide⟩
  distinct := by
    intro k m h
    obtain ⟨rfl, rfl⟩ :=
      Prod.mk.inj (Option.some.inj (h : some ("jtag_clkctl".toList, gateModule) = _))
    exact ⟨by decide, by decide, by decide⟩

end JtagCtlMerge
end Xc7Tools
