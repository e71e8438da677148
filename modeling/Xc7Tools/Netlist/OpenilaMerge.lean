/-
# openila_merge: the ILA in the design

`scripts/openila_merge.py`. `plan` is the script up to the port map, with
every way it stops; `Plan.output` is the netlist it writes. What it prints and
the file names are left out.

A run that is accepted embeds the ILA: its bits keep apart from the design's
and from each other, but for those of `clk` and `probe`, which are joined to
the nets asked for (`embeds`).

Key definitions: `find`, `plan`, `Plan.output`, `Joined`, `Embeds`.
Key theorems: `plan_eq_ok`, `word_bits`, `Found.get?_portMap`, `embeds`.
-/
import Xc7Tools.Lib.Checked
import Xc7Tools.Netlist.Splice

namespace Xc7Tools
namespace OpenilaMerge

open Yosys Checked

/-! ### The script -/

/-- The options. -/
structure Args where
  clk : Option Str
  probes : List Str
  pfx : Str := "ila.".toList

inductive Error where
  /-- "--clk is required" -/
  | clkRequired
  /-- No module has the attribute `top`. -/
  | noTop
  /-- "no net {n!r} in {top_name}" -/
  | noNet (n topName : Str)
  /-- "{len(probe_bits)} probe bits for a {width}-bit ILA" -/
  | probeBits (n width : ℕ)
  | keyError (key : Str)
  | indexError
  /-- `int` refuses the text after the `/`, or the digits of an index. -/
  | valueError (text : Str)
  deriving DecidableEq

/-- `re.fullmatch(r'(.*)\[(\d+)\]', n)`: the name and the digits of the index. -/
def matchIndexed (n : Str) : Option (Str × Str) :=
  match n.reverse with
  | ']' :: r =>
    match r.takeWhile Str.isDigit, r.dropWhile Str.isDigit with
    | d :: ds, '[' :: name =>
      if '\n' ∈ name then none else some (name.reverse, (d :: ds).reverse)
    | _, _ => none
  | _ => none

/-- `find` -/
def find (topName : Str) (top : Module) (n : Str) : Except Error (List Bit) :=
  match top.bitsOf n with
  | some bs => .ok bs
  | none =>
    match matchIndexed n with
    | some (name, ds) =>
      match top.bitsOf name with
      | some bs => do
        let k ← orRaise (.valueError ds) (Str.intOf ds)
        return [← orRaise .indexError bs[k]?]
      | none => .error (.noNet n topName)
    | none => .error (.noNet n topName)

/-- `bits[:k]` -/
def sliceTo (bs : List Bit) (k : ℤ) : List Bit :=
  if 0 ≤ k then bs.take k.toNat else bs.take (bs.length - k.natAbs)

/-- The design bits one `--probe NET[/N]` asks for. -/
def probed (topName : Str) (top : Module) (p : Str) : Except Error (List Bit) := do
  let (name, n) := Str.partition '/' p
  let bits ← find topName top name
  if n = [] then return bits
  return sliceTo bits (← orRaise (.valueError n) (Str.int? n))

/-- A bit without a driver is probed as 0. -/
def defined (b : Bit) : Bit := if b = .const ['x'] then .zero else b

/-- `probe_bits` and `probe_map`. -/
structure Word where
  bits : List Bit
  names : List Str

/-- One turn of the loop over the probes. -/
def addProbe (topName : Str) (top : Module) (w : Word) (p : Str) : Except Error Word := do
  let name := (Str.partition '/' p).1
  let bits ← probed topName top p
  return {
    bits := w.bits ++ bits.map defined
    names := w.names ++ (List.range bits.length).map fun k =>
      if 1 < bits.length then Str.indexed name k else name }

/-- What the script knows before it splices. -/
structure Plan where
  topName : Str
  top : Module
  ila : Module
  base : ℕ
  word : Word
  portMap : Dict Bit Bit

/-- The script up to the port map. -/
def plan (a : Args) (design ila : Modules) : Except Error Plan := do
  let clk ← orRaise .clkRequired a.clk
  let (topName, top) ← orRaise .noTop (top? design)
  let (_, ila) ← orRaise .noTop (top? ila)
  let word ← a.probes.foldlM (addProbe topName top) ⟨[], []⟩
  let probe ← orRaise (.keyError "probe".toList) (ila.ports.get? "probe".toList)
  if probe.bits.length < word.bits.length then
    throw (.probeBits word.bits.length probe.bits.length)
  let net ← orRaise .indexError (← find topName top clk).head?
  let clkPort ← orRaise (.keyError "clk".toList) (ila.ports.get? "clk".toList)
  let pin ← orRaise .indexError clkPort.bits.head?
  return {
    topName, top, ila, word
    base := base design
    portMap := (Dict.empty.update (fillPort word.bits probe.bits)).set pin net }

/-- `ila_bit` -/
def Plan.ilaBit (p : Plan) : Bit → Bit := portBit p.portMap p.base

/-- The top module with the ILA spliced in. -/
def Plan.spliced (pfx : Str) (p : Plan) : Module :=
  spliceNames pfx p.ilaBit p.portMap p.ila.netnames (spliceCells pfx p.ilaBit p.ila.cells p.top)

/-- The netlist written. -/
def Plan.output (pfx : Str) (p : Plan) (design : Modules) : Modules :=
  design.set p.topName (p.spliced pfx)

/-- The script: the netlist and the probe map it writes. -/
def merge (a : Args) (design ila : Modules) : Except Error (Modules × List Str) := do
  let p ← plan a design ila
  return (p.output a.pfx design, p.word.names)

/-! ### The probe word -/

/-- The bits all the probes ask for, in order. -/
def requested (topName : Str) (top : Module) (probes : List Str) : Except Error (List Bit) := do
  return (← probes.mapM (probed topName top)).flatten

theorem foldlM_addProbe_cons {topName p : Str} {top : Module} {probes : List Str} {w w' : Word}
    (h : (p :: probes).foldlM (addProbe topName top) w = .ok w') :
    ∃ bits, probed topName top p = .ok bits ∧ probes.foldlM (addProbe topName top)
      ⟨w.bits ++ bits.map defined, w.names ++ (List.range bits.length).map fun k =>
        if 1 < bits.length then Str.indexed (Str.partition '/' p).1 k else (Str.partition '/' p).1⟩ =
          .ok w' := by
  rw [List.foldlM_cons, bind_eq_ok] at h
  obtain ⟨w₁, h₁, h⟩ := h
  obtain ⟨bits, hbits, rfl⟩ : ∃ bits, probed topName top p = .ok bits ∧ _ = w₁ := by
    simpa only [addProbe, bind_eq_ok, pure_eq_ok] using h₁
  exact ⟨bits, hbits, h⟩

/-- The loop collects the bits asked for, undriven ones as 0. -/
theorem word_bits {topName : Str} {top : Module} : ∀ {probes : List Str} {w w' : Word},
    probes.foldlM (addProbe topName top) w = .ok w' →
      ∃ r, requested topName top probes = .ok r ∧ w'.bits = w.bits ++ r.map defined
  | [], w, w', h => by
    rw [List.foldlM_nil, pure_eq_ok] at h
    exact ⟨[], rfl, by rw [← h]; simp⟩
  | p :: probes, w, w', h => by
    obtain ⟨bits, hbits, h⟩ := foldlM_addProbe_cons h
    obtain ⟨r, hr, hw⟩ := word_bits h
    simp only [requested, bind_eq_ok, pure_eq_ok] at hr
    obtain ⟨rs, hrs, rfl⟩ := hr
    refine ⟨bits ++ rs.flatten, ?_, ?_⟩
    · simp only [requested, List.mapM_cons, bind_eq_ok, pure_eq_ok]
      exact ⟨bits :: rs, ⟨bits, hbits, rs, hrs, rfl⟩, rfl⟩
    · rw [hw, List.map_append, List.append_assoc]

/-! ### What an accepted run knows -/

/-- What the script found before it spliced. -/
structure Found (a : Args) (design ila : Modules) (p : Plan) where
  clk : Str
  nets : List Bit
  net : Bit
  requested : List Bit
  clkPort : Port
  pin : Bit
  probe : Port
  hclk : a.clk = some clk
  htop : top? design = some (p.topName, p.top)
  hila : ∃ k, top? ila = some (k, p.ila)
  hnets : find p.topName p.top clk = .ok nets
  hnet : nets.head? = some net
  hrequested : OpenilaMerge.requested p.topName p.top a.probes = .ok requested
  hclkPort : p.ila.ports.get? "clk".toList = some clkPort
  hpin : clkPort.bits.head? = some pin
  hprobe : p.ila.ports.get? "probe".toList = some probe
  hbase : p.base = base design
  hportMap : p.portMap =
    (Dict.empty.update (fillPort (requested.map defined) probe.bits)).set pin net

theorem plan_eq_ok {a : Args} {design ila : Modules} {p : Plan} (h : plan a design ila = .ok p) :
    Nonempty (Found a design ila p) := by
  simp only [plan, bind_eq_ok, orRaise_eq_ok] at h
  obtain ⟨clk, hclk, ⟨topName, top⟩, htop, ⟨k, m⟩, hila, word, hword, probe, hprobe, h⟩ := h
  split_ifs at h with hwidth
  · simp [throw, throwThe, MonadExceptOf.throw, bind, Except.bind] at h
  simp only [bind_eq_ok, orRaise_eq_ok, pure_eq_ok] at h
  obtain ⟨nets, hnets, net, hnet, clkPort, hclkPort, pin, hpin, rfl⟩ := h
  obtain ⟨r, hr, hbits⟩ := word_bits hword
  exact ⟨{
    clk, nets, net, requested := r, clkPort, pin, probe, hclk, htop, hnets, hnet, hclkPort
    hpin, hprobe
    hila := ⟨k, hila⟩
    hrequested := hr
    hbase := rfl
    hportMap := by rw [hbits, List.nil_append] }⟩

/-- The ids made up occur nowhere in the design. -/
theorem Found.not_occurs {a : Args} {ila : Modules} {p : Plan} (design : Netlist)
    (f : Found a design.modules ila p) (k : ℕ) : ¬ Occurs design.modules (p.base + k) := by
  rw [f.hbase]
  exact design.not_occurs k

/-! ### Where the ports lead -/

/-- The bit of the ILA is joined, through one of its ports, to this bit of the
design: the first bit of the clock net, or the bit the probes ask for at the
place of the probe bit, `'0'` if there is none or it has no driver. -/
inductive Joined (a : Args) (p : Plan) : Bit → Bit → Prop where
  | clk {n : Str} {nets : List Bit} {net pin : Bit} {port : Port} (hn : a.clk = some n)
      (hnets : find p.topName p.top n = .ok nets) (hnet : nets.head? = some net)
      (hport : p.ila.ports.get? "clk".toList = some port) (hpin : port.bits.head? = some pin) :
      Joined a p pin net
  | probe {r : List Bit} {b : Bit} {k : ℕ} {port : Port}
      (hr : requested p.topName p.top a.probes = .ok r)
      (hport : p.ila.ports.get? "probe".toList = some port) (hb : port.bits[k]? = some b) :
      Joined a p b ((r[k]?).elim .zero defined)

/-- The names of the ILA's ports. -/
abbrev pins : List Str := ["clk".toList, "probe".toList]

variable {a : Args} {design ila : Modules} {p : Plan}

theorem Found.probeBits (f : Found a design ila p) :
    p.ila.pinBits "probe".toList = f.probe.bits := Module.pinBits_of_get? f.hprobe

/-- The port map is the relation `Joined`. -/
theorem Found.get?_portMap (f : Found a design ila p) (hp : DistinctPorts pins p.ila) {b c : Bit} :
    p.portMap.get? b = some c ↔ Joined a p b c := by
  have hunique : ∀ {b c c'}, (b, c) ∈ fillPort (f.requested.map defined) f.probe.bits →
      (b, c') ∈ fillPort (f.requested.map defined) f.probe.bits → c' = c :=
    fillPort_unique (f.probeBits ▸ hp.nodup _ (by simp))
  rw [f.hportMap, Dict.get?_set]
  constructor
  · intro h
    split_ifs at h with hb
    · cases h
      subst hb
      exact .clk f.hclk f.hnets f.hnet f.hclkPort f.hpin
    · obtain ⟨k, hk, rfl⟩ := mem_fillPort.mp ((Dict.get?_update_empty fun _ => hunique).mp h)
      have := Joined.probe f.hrequested f.hprobe hk
      rw [List.getElem?_map]
      cases hr : f.requested[k]? with
      | none => rw [hr] at this; exact this
      | some r => rw [hr] at this; exact this
  · rintro (⟨hn, hnets, hnet, hport, hpin⟩ | ⟨hr, hport, hb⟩)
    · obtain rfl := Option.some.inj (f.hclk.symm.trans hn)
      obtain rfl := Except.ok.inj (f.hnets.symm.trans hnets)
      obtain rfl := Option.some.inj (f.hclkPort.symm.trans hport)
      rw [if_pos (Option.some.inj (f.hpin.symm.trans hpin)), ← f.hnet, hnet]
    · rename_i r k port
      obtain rfl := Except.ok.inj (f.hrequested.symm.trans hr)
      obtain rfl := Option.some.inj (f.hprobe.symm.trans hport)
      have hne : f.pin ≠ b := by
        rintro rfl
        refine hp.disjoint "clk".toList (by simp) "probe".toList (by simp) (by decide) f.pin ?_ ?_
        · exact Module.pinBits_of_get? f.hclkPort ▸ List.mem_of_mem_head? f.hpin
        · exact f.probeBits ▸ List.mem_of_getElem? hb
      rw [if_neg hne, Dict.get?_update_empty fun _ => hunique, mem_fillPort]
      refine ⟨k, hb, ?_⟩
      rw [List.getElem?_map]
      cases f.requested[k]? <;> rfl

/-! ### The design's bits -/

theorem mem_bits_of_find {topName n : Str} {top : Module} {bs : List Bit}
    (h : find topName top n = .ok bs) {b : Bit} (hb : b ∈ bs) : b ∈ top.bits := by
  unfold find at h
  split at h
  case h_1 hn => exact Module.mem_bits_of_bitsOf (Except.ok.inj h ▸ hn) hb
  case h_2 =>
    split at h
    case h_2 => cases h
    case h_1 name ds _ =>
      split at h
      case h_2 => cases h
      case h_1 cs hcs =>
        simp only [bind_eq_ok, orRaise_eq_ok, pure_eq_ok] at h
        obtain ⟨k, -, c, hc, rfl⟩ := h
        rw [List.mem_singleton.mp hb]
        exact Module.mem_bits_of_bitsOf hcs (List.mem_of_getElem? hc)

theorem mem_bits_of_probed {topName p : Str} {top : Module} {bs : List Bit}
    (h : probed topName top p = .ok bs) {b : Bit} (hb : b ∈ bs) : b ∈ top.bits := by
  simp only [probed, bind_eq_ok] at h
  obtain ⟨cs, hcs, h⟩ := h
  refine mem_bits_of_find hcs ?_
  split_ifs at h with hn
  · rw [pure_eq_ok] at h
    exact h ▸ hb
  · simp only [bind_eq_ok, pure_eq_ok] at h
    obtain ⟨k, -, rfl⟩ := h
    unfold sliceTo at hb
    split_ifs at hb <;> exact List.mem_of_mem_take hb

theorem mem_bits_of_requested {topName : Str} {top : Module} {probes : List Str} {r : List Bit}
    (h : requested topName top probes = .ok r) {b : Bit} (hb : b ∈ r) : b ∈ top.bits := by
  simp only [requested, bind_eq_ok, pure_eq_ok] at h
  obtain ⟨rs, hrs, rfl⟩ := h
  obtain ⟨bs, hbs, hb⟩ := List.mem_flatten.mp hb
  obtain ⟨p, -, hp⟩ := exists_of_mem_mapM hrs hbs
  exact mem_bits_of_probed hp hb

/-- Ports are joined to constants and to bits of the design's top module. -/
theorem Joined.mem_bits {b c : Bit} (h : Joined a p b c) : c ∈ p.top.bits ∨ ∃ s, c = .const s := by
  cases h with
  | clk _ hnets hnet => exact Or.inl (mem_bits_of_find hnets (List.mem_of_mem_head? hnet))
  | @probe r b k port hr hport hb =>
    cases hk : r[k]? with
    | none => exact Or.inr ⟨_, rfl⟩
    | some d =>
      rw [Option.elim_some, defined]
      split_ifs
      · exact Or.inr ⟨_, rfl⟩
      · exact Or.inl (mem_bits_of_requested hr (List.mem_of_getElem? hk))

theorem Found.joined_lt (f : Found a design ila p) {b : Bit} {i : ℕ}
    (h : Joined a p b (.net i)) : i < p.base := by
  rw [f.hbase, base, Nat.lt_succ_iff]
  rcases h.mem_bits with hi | ⟨s, hs⟩
  · exact le_maxid (Dict.mem_values.mpr ⟨_, top?_mem f.htop⟩) hi
  · cases hs

/-! ### The embedding -/

/-- What a bit of the ILA is given in the design: a constant is itself. -/
def Given (a : Args) (p : Plan) (b c : Bit) : Prop := Joined a p b c ∨ b = c ∧ ∃ s, b = .const s

/-- The output `out` is the design with the ILA embedded by `p.ilaBit`. -/
structure Embeds (a : Args) (design : Modules) (p : Plan) (out : Modules) : Prop where
  consts : ∀ s, p.ilaBit (.const s) = .const s
  /-- The `clk` bit goes to the first bit of the clock net. -/
  clk : ∃ n nets net port pin, a.clk = some n ∧ find p.topName p.top n = .ok nets ∧
    nets.head? = some net ∧ p.ila.ports.get? "clk".toList = some port ∧
    port.bits.head? = some pin ∧ p.ilaBit pin = net
  /-- Probe bit `k` goes to the bit asked for in place `k`, to `'0'` when that
  is `'x'` or there is none. -/
  probe : ∃ r port, requested p.topName p.top a.probes = .ok r ∧
    p.ila.ports.get? "probe".toList = some port ∧
    ∀ (k : ℕ) b, port.bits[k]? = some b → p.ilaBit b = (r[k]?).elim .zero defined
  /-- Every other id goes to one that occurs nowhere in the design. -/
  fresh : ∀ i, (∀ c, ¬ Joined a p (.net i) c) → ∃ j, p.ilaBit (.net i) = .net j ∧ ¬ Occurs design j
  injective : ∀ i j, (∀ c, ¬ Joined a p (.net i) c) → (∀ c, ¬ Joined a p (.net j) c) →
    p.ilaBit (.net i) = p.ilaBit (.net j) → i = j
  /-- The cells of the ILA are there, with their bits mapped. -/
  cells : ∃ top, out.get? p.topName = some top ∧ ∀ n c, p.ila.cells.get? n = some c →
    top.cells.get? (a.pfx ++ n) = some (c.mapBits p.ilaBit)
  /-- Two bits meet only if they were one in the ILA or meet in the design. -/
  connected : ∀ b b', p.ilaBit b = p.ilaBit b' ↔ b = b' ∨ ∃ c, Given a p b c ∧ Given a p b' c

theorem Joined.isNet {b c : Bit} (h : Joined a p b c) (hp : DistinctPorts pins p.ila) :
    ∃ i, b = .net i := by
  cases h with
  | clk _ _ _ hport hpin =>
    refine Bit.exists_of_isNet (hp.nets "clk".toList (by simp) b ?_)
    exact Module.pinBits_of_get? hport ▸ List.mem_of_mem_head? hpin
  | probe _ hport hb =>
    refine Bit.exists_of_isNet (hp.nets "probe".toList (by simp) b ?_)
    exact Module.pinBits_of_get? hport ▸ List.mem_of_getElem? hb

theorem Found.outer_eq (f : Found a design ila p) (hp : DistinctPorts pins p.ila) (b c : Bit) :
    outer p.portMap b = some c ↔ Given a p b c := by
  cases b with
  | net i => simp [outer, Given, f.get?_portMap hp]
  | const s =>
    simp only [outer, Given, Option.some.injEq]
    constructor
    · exact fun h => Or.inr ⟨h, s, rfl⟩
    · rintro (h | ⟨h, -⟩)
      · obtain ⟨i, hi⟩ := h.isNet hp
        cases hi
      · exact h

/-- A joined bit goes where it is joined to. -/
theorem Found.ilaBit_joined (f : Found a design ila p) (hp : DistinctPorts pins p.ila) {b c : Bit}
    (h : Joined a p b c) : p.ilaBit b = c := by
  obtain ⟨i, rfl⟩ := h.isNet hp
  exact portBit_of_get? ((f.get?_portMap hp).mpr h)

/-- Any other id goes to itself plus the base. -/
theorem Found.ilaBit_other (f : Found a design ila p) (hp : DistinctPorts pins p.ila) {i : ℕ}
    (h : ∀ c, ¬ Joined a p (.net i) c) : p.ilaBit (.net i) = .net (base design + i) := by
  rw [Plan.ilaBit, portBit_of_not_mem, f.hbase]
  intro hm
  obtain ⟨c, hc⟩ := Dict.mem_iff.mp hm
  exact h c ((f.get?_portMap hp).mp hc)

/-- **The ILA is embedded without a short.** Every accepted run writes the
design with a copy of the ILA in which the bits of `clk` and `probe` are those
asked for, every other net is a new one, and two bits meet exactly when they
were one bit in the ILA or are given the same bit through the ports. -/
theorem embeds (a : Args) (design : Netlist) (ila : Component pins) {out : Modules}
    {names : List Str} (h : merge a design.modules ila.modules = .ok (out, names)) :
    ∃ p, plan a design.modules ila.modules = .ok p ∧ Embeds a design.modules p out := by
  simp only [merge, bind_eq_ok, pure_eq_ok, Prod.mk.injEq] at h
  obtain ⟨p, hplan, rfl, -⟩ := h
  obtain ⟨f⟩ := plan_eq_ok hplan
  obtain ⟨k, hk⟩ := f.hila
  have hp := ila.distinct k p.ila hk
  refine ⟨p, hplan, ?_⟩
  constructor
  case consts => exact fun s => rfl
  case clk =>
    exact ⟨f.clk, f.nets, f.net, f.clkPort, f.pin, f.hclk, f.hnets, f.hnet, f.hclkPort, f.hpin,
      f.ilaBit_joined hp (.clk f.hclk f.hnets f.hnet f.hclkPort f.hpin)⟩
  case probe =>
    exact ⟨f.requested, f.probe, f.hrequested, f.hprobe,
      fun k b hb => f.ilaBit_joined hp (.probe f.hrequested f.hprobe hb)⟩
  case fresh =>
    exact fun i hi => ⟨_, f.ilaBit_other hp hi, design.not_occurs i⟩
  case injective =>
    intro i j hi hj e
    rw [f.ilaBit_other hp hi, f.ilaBit_other hp hj, Bit.net.injEq] at e
    omega
  case cells =>
    refine ⟨p.spliced a.pfx, Dict.get?_set_self _ _ _, fun n c hc => ?_⟩
    exact get?_spliceCells a.pfx p.ilaBit p.top hc
  case connected =>
    intro b b'
    rw [Plan.ilaBit, portBit_eq_iff fun c i hc => f.joined_lt ((f.get?_portMap hp).mp hc)]
    simp only [f.outer_eq hp]

/-! ### A small instance -/

/-- A register on the clock net 2, whose output `q` has a second bit without a
driver. -/
def register : Netlist where
  modules := ⟨[("register".toList, {
    attributes := topAttr
    ports := ⟨[("clk".toList, ⟨"input".toList, [.net 2]⟩),
      ("q".toList, ⟨"output".toList, [.net 3]⟩)], by decide⟩
    cells := ⟨[("ff".toList, {
      hideName := 0
      type := "FDRE".toList
      parameters := .empty
      attributes := .empty
      portDirections := .empty
      connections := ⟨[("C".toList, [.net 2]), ("Q".toList, [.net 3])], by decide⟩ })], by decide⟩
    netnames := ⟨[("clk".toList, ⟨0, .empty, [.net 2]⟩),
      ("q".toList, ⟨0, .empty, [.net 3, .const ['x']]⟩)], by decide⟩ })], by decide⟩
  named := by decide

/-- An ILA of two probe bits and one register. -/
def sampler : Module where
  attributes := topAttr
  ports := ⟨[("clk".toList, ⟨"input".toList, [.net 2]⟩),
    ("probe".toList, ⟨"input".toList, [.net 3, .net 4]⟩)], by decide⟩
  cells := ⟨[("ff".toList, {
    hideName := 0
    type := "FDRE".toList
    parameters := .empty
    attributes := .empty
    portDirections := .empty
    connections := ⟨[("C".toList, [.net 2]), ("D".toList, [.net 3]), ("Q".toList, [.net 5])],
      by decide⟩ })], by decide⟩
  netnames := ⟨[("clk".toList, ⟨0, .empty, [.net 2]⟩),
    ("probe".toList, ⟨0, .empty, [.net 3, .net 4]⟩), ("s".toList, ⟨0, .empty, [.net 5]⟩)],
    by decide⟩

/-- The sampler as a netlist. -/
def samplerNetlist : Component pins where
  modules := ⟨[("openila".toList, sampler)], by decide⟩
  distinct := by
    intro k m h
    obtain ⟨rfl, rfl⟩ := Prod.mk.inj (Option.some.inj (h : some ("openila".toList, sampler) = _))
    exact ⟨by decide, by decide, by decide⟩

/-- The options for the sampler on the register's output. -/
def probeQ : Args := { clk := some "clk".toList, probes := ["q".toList] }

theorem embeds_sampler : ∃ p out, Embeds probeQ register.modules p out := by
  obtain ⟨⟨out, names⟩, h⟩ := exists_of_isOk
    (x := merge probeQ register.modules samplerNetlist.modules) (by decide)
  obtain ⟨p, -, hp⟩ := embeds probeQ register samplerNetlist h
  exact ⟨p, out, hp⟩

end OpenilaMerge
end Xc7Tools
