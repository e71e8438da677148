/-
# linux_payload: the places in the tree

The text of a device tree in which three places are marked: the first cell of
the serial node's reg, the unit address wherever the name of the node stands,
and the cell of the initrd's end. The script is to write the UART and the size
of the rootfs there and nowhere else (`Edits`). It goes by the shape of the
text. In a tree without another text of that shape, and with digits in the
shape looked for (`Tree.Plain`), each of its passes writes its places and leaves
the rest as it is (`edits_of_plain`). The size is not looked at: beyond 8 MiB
the archive lies over the device tree blob (`apart_iff`).

Key definitions: `Part`, `Tree`, `Tree.Valid`, `Tree.Plain`, `Edits`, `Apart`, `OnlyPlaces`.
Key theorems: `writeNames_parts`, `writeEnds_parts`, `retarget_parts`, `edits_of_plain`, `apart_iff`.
-/
import Mathlib.Data.List.Infix
import Xc7Tools.LinuxPayload.Node

namespace Xc7Tools
namespace LinuxPayload

open Str Checked Pattern

/-! ### Device trees -/

/-- Part of the text of a tree: some text, the name of the serial node, and the property with the
end of the initrd, with what stands in front of the equals sign, the bracket and the cell. -/
inductive Part where
  | text (s : Str)
  | name
  | initrdEnd (w₁ w₂ w₃ cell : Str)

namespace Part

def isText : Part → Bool
  | text _ => true
  | _ => false

def isInitrdEnd : Part → Bool
  | initrdEnd .. => true
  | _ => false

/-- The text of a part, with a unit address for the name and a change of the cells. -/
def render (unit : Str) (last : Str → Str) : Part → Str
  | text s => s
  | name => "serial@".toList ++ unit
  | initrdEnd w₁ w₂ w₃ cell => cellFront "linux,initrd-end".toList w₁ w₂ w₃ ++ last cell

end Part

/-- A device tree with a node `serial@{unit}`, which has a property `reg`. -/
structure Tree where
  front : List Part
  unit : Str
  gap : Str
  /-- The properties in front of reg. -/
  before : List Part
  /-- What stands in front of the equals sign, the bracket and the first cell. -/
  w₁ : Str
  w₂ : Str
  w₃ : Str
  /-- The digits of the first cell. -/
  cell : Str
  /-- The other cells, and the properties behind reg. -/
  after : List Part
  back : List Part

/-- A numeral in C, without a suffix. -/
def IsCell (cell : Str) : Prop := ∀ c ∈ cell, (hexDigit? c).isSome = true ∨ c = 'x' ∨ c = 'X'

/-- The texts go as far as they can, and the property of the initrd's end has a numeral. -/
structure Marked (ps : List Part) : Prop where
  joined : ps.IsChain fun p q => p.isText = true → q.isText = false
  ends : ∀ w₁ w₂ w₃ cell, .initrdEnd w₁ w₂ w₃ cell ∈ ps →
    (∀ c ∈ w₁ ++ (w₂ ++ w₃), isSpace c = true) ∧ IsCell cell

namespace Tree

/-- The text of a tree, with a unit address, digits of the first cell and a change of the others. -/
def render (t : Tree) (unit cell : Str) (last : Str → Str) : Str :=
  t.front.flatMap (Part.render unit last) ++ ("serial@".toList ++ (unit ++ (t.gap ++ '{' ::
    (t.before.flatMap (Part.render unit last) ++ (cellFront "reg".toList t.w₁ t.w₂ t.w₃ ++
      ("0x".toList ++ (cell ++ (t.after.flatMap (Part.render unit last) ++ '}' ::
        t.back.flatMap (Part.render unit last)))))))))

/-- The text of the tree. -/
def old (t : Tree) : Str := t.render t.unit t.cell id

/-- The text that it is to have. -/
def new (t : Tree) (uart size : ℕ) : Str :=
  t.render (hex uart) (hex08 uart) fun _ => "0x".toList ++ hex08 (rootfsAddr + size)

def lists (t : Tree) : List (List Part) := [t.front, t.before, t.after, t.back]

/-- One node `serial@{unit}`, without nodes in it; its reg starts with an address of 32 bits, and
there is a cell with the end of the initrd. -/
structure Valid (t : Tree) : Prop where
  unit : t.unit ≠ [] ∧ ∀ c ∈ t.unit, (hexDigit? c).isSome = true
  gap : ∀ c ∈ t.gap, isSpace c = true
  blank : ∀ c ∈ t.w₁ ++ (t.w₂ ++ t.w₃), isSpace c = true
  childless : ∀ s, .text s ∈ t.before ++ t.after → '{' ∉ s ∧ '}' ∉ s
  /-- Elsewhere the name does not stand in front of a bracket. -/
  one : ∀ ps ∈ [t.front, t.back], ∀ qs, .name :: qs <:+ ps →
    ∀ w x, qs.flatMap (Part.render t.unit id) = w ++ '{' :: x → ∃ c ∈ w, isSpace c = false
  cell : t.cell.length = 8 ∧ ∀ c ∈ t.cell, (hexDigit? c).isSome = true
  marked : ∀ ps ∈ t.lists, Marked ps
  initrd : ∃ ps ∈ t.lists, ∃ p ∈ ps, p.isInitrdEnd = true

end Tree

/-- The name stands where it is marked and nowhere else, and no digit stands behind it. -/
structure Named (ps : List Part) : Prop where
  text : ∀ s, .text s ∈ ps → serialName.search s = none
  behind : ∀ s qs, .name :: .text s :: qs <:+ ps → ∀ c ∈ s.head?, isHex c = false

/-- The cells of the initrd's end stand where they are marked and nowhere else, with digits in lower
case and between their brackets. -/
structure Ended (ps : List Part) : Prop where
  text : ∀ s, .text s ∈ ps → initrdEnd.search s = none
  cells : ∀ w₁ w₂ w₃ cell qs, .initrdEnd w₁ w₂ w₃ cell :: qs <:+ ps → w₃ = [] ∧
    (∃ ds, cell = "0x".toList ++ ds ∧ ds ≠ [] ∧ ∀ c ∈ ds, isHex c = true) ∧
      ∃ s rs, qs = .text ('>' :: s) :: rs

/-- The digits are in lower case, no value stands in front of reg, and nothing else looks like a
place. -/
structure Tree.Plain (t : Tree) : Prop where
  unit : ∀ c ∈ t.unit, isHex c = true
  cell : ∀ c ∈ t.cell, isHex c = true
  first : value.search (t.before.flatMap (Part.render t.unit id)) = none
  named : ∀ ps ∈ t.lists, Named ps
  ended : ∀ ps ∈ t.lists, Ended ps

/-! ### What the script is for -/

/-- The places are written, and nothing else is. -/
def Edits (t : Tree) : Prop :=
  ∀ (o : Options) (uart size : ℕ), tree o [] uart (some size) t.old = .ok (t.new uart size)

/-- The archive lies apart from the other images. -/
def Apart (dtc : Str → Bool) (o : Options) (uart size : ℕ) (dts : Str) : Prop :=
  ∀ out, run dtc o [] uart (some size) dts = .ok out →
    ∀ e ∈ out.2, e.1 ≠ "rootfs.cpio".toList → ¬ (rootfsAddr ≤ e.2 ∧ e.2 < rootfsAddr + size)

/-- What is promised for a tree and an archive. -/
def OnlyPlaces (t : Tree) (size : ℕ) : Prop :=
  Edits t ∧ ∀ dtc o uart, Apart dtc o uart size t.old

theorem apart_iff (uart size : ℕ) (dts : Str) :
    (∀ dtc o, Apart dtc o uart size dts) ↔ size ≤ 0x800000 := by
  have hboot : (∀ e ∈ boot [], e.1 ≠ "rootfs.cpio".toList →
      ¬ (rootfsAddr ≤ e.2 ∧ e.2 < rootfsAddr + size)) ↔ size ≤ 0x800000 := by
    simp [boot, kernelAddr, rootfsAddr, dtbAddr, emulatorAddr]
    omega
  rw [← hboot]
  constructor
  · exact fun h => h (fun _ => true) { } _ (run_eq_ok.mpr ⟨_, tree_of_rootfs _ _ _ _, rfl, rfl⟩)
  · rintro h dtc o out hout
    obtain ⟨t, -, -, rfl⟩ := run_eq_ok.mp hout
    exact h

/-! ### Where a text ends -/

/-- No match of the script goes on with the text. -/
structure Fence (y : Str) : Prop where
  name : serialName.Cuts y
  ends : initrdEnd.Cuts y
  hex : ∀ c ∈ y.head?, isHex c = false

theorem Fence.nil : Fence [] := ⟨cuts_nil _, cuts_nil _, fun c hc => by cases hc⟩

theorem Fence.cons {c : Char} (y : Str) (hname : serialName.Cuts (c :: y))
    (hends : initrdEnd.Cuts (c :: y)) (hc : isHex c = false) : Fence (c :: y) :=
  ⟨hname, hends, fun _ hd => Option.some.inj hd ▸ hc⟩

theorem Fence.closing (y : Str) : Fence ('}' :: y) :=
  .cons y (cuts_cons_of_avoids rfl y) (cuts_cons_of_avoids rfl y) rfl

theorem Fence.serial (y : Str) : Fence ("serial@".toList ++ y) :=
  .cons _ (begins_serialName.cuts _) (cuts_cons_of_avoids rfl _) rfl

/-- No end of the text goes on so. -/
theorem notPrefix_of_all {w x y : Str} (h : w.tail.tails.all fun v => v.isEmpty || !v.isPrefixOf (x ++ y)) :
    ∀ v, v ≠ [] → v <:+ w.tail → ¬ v <+: x ++ y := by
  intro v hv hsuffix hprefix
  have hv' := List.all_eq_true.mp h v ((List.mem_tails _ _).mpr hsuffix)
  rw [List.isPrefixOf_iff_prefix.mpr hprefix, List.isEmpty_eq_false_iff.mpr hv] at hv'
  cases hv'

theorem Fence.initrd (y : Str) : Fence ("linux,initrd-end".toList ++ y) :=
  .cons _ (cuts_of_lit (w := "serial@".toList) rfl (notPrefix_of_all (x := "li".toList) rfl))
    (begins_initrdEnd.cuts _) rfl

theorem Fence.reg (y : Str) : Fence ("reg".toList ++ y) :=
  .cons _ (cuts_of_lit (w := "serial@".toList) rfl (notPrefix_of_all (x := "re".toList) rfl))
    (cuts_of_lit (w := "linux,initrd-end".toList) rfl (notPrefix_of_all (x := "re".toList) rfl)) rfl

theorem Fence.front_reg (w₁ w₂ w₃ y : Str) : Fence (cellFront "reg".toList w₁ w₂ w₃ ++ y) := by
  unfold cellFront
  rw [List.append_assoc]
  exact .reg _

/-! ### The passes, part by part -/

section Parts

variable {ps : List Part} {p : Part} {y : Str}

theorem Marked.tail (h : Marked (p :: ps)) : Marked ps :=
  ⟨h.joined.of_cons, fun w₁ w₂ w₃ cell hmem => h.ends w₁ w₂ w₃ cell (List.mem_cons_of_mem p hmem)⟩

theorem Named.tail (h : Named (p :: ps)) : Named ps :=
  ⟨fun s hs => h.text s (List.mem_cons_of_mem p hs),
    fun s qs hs => h.behind s qs (hs.trans (List.suffix_cons p ps))⟩

theorem Ended.tail (h : Ended (p :: ps)) : Ended ps :=
  ⟨fun s hs => h.text s (List.mem_cons_of_mem p hs),
    fun w₁ w₂ w₃ cell qs hs => h.cells w₁ w₂ w₃ cell qs (hs.trans (List.suffix_cons p ps))⟩

theorem flatMap_cons_append (f : Part → Str) (p : Part) (ps : List Part) (y : Str) :
    (p :: ps).flatMap f ++ y = f p ++ (ps.flatMap f ++ y) := by
  rw [List.flatMap_cons, List.append_assoc]

theorem Marked.next (h : Marked (p :: ps)) (hp : p.isText = true) : ∀ q ∈ ps.head?, q.isText = false := by
  intro q hq
  cases ps with
  | nil => cases hq
  | cons r ps => exact Option.some.inj hq ▸ (List.isChain_cons_cons.mp h.joined).1 hp

/-- Parts that do not begin with a text. -/
theorem Fence.parts (hy : Fence y) (unit : Str) (last : Str → Str)
    (hps : ∀ q ∈ ps.head?, q.isText = false) : Fence (ps.flatMap (Part.render unit last) ++ y) := by
  cases ps with
  | nil => exact hy
  | cons p ps =>
    rw [List.flatMap_cons, List.append_assoc]
    cases p with
    | text s => cases hps _ rfl
    | name =>
      unfold Part.render
      rw [List.append_assoc]
      exact .serial _
    | initrdEnd w₁ w₂ w₃ cell =>
      unfold Part.render cellFront
      rw [List.append_assoc, List.append_assoc]
      exact .initrd _

/-- No digit stands behind a name. -/
theorem head?_behind_name (hy : Fence y) (unit : Str) (last : Str → Str) (hm : Marked (.name :: ps))
    (hn : Named (.name :: ps)) :
    ∀ c ∈ (ps.flatMap (Part.render unit last) ++ y).head?, isHex c = false := by
  cases ps with
  | nil => exact hy.hex
  | cons p ps =>
    cases p with
    | text s =>
      have hrest := (hy.parts unit last (hm.tail.next rfl)).hex
      rw [List.flatMap_cons, List.append_assoc]
      cases s with
      | nil => exact hrest
      | cons d s => exact fun c hc => hn.behind _ ps (List.suffix_refl _) c hc
    | name =>
      have hnext : ∀ q ∈ (Part.name :: ps).head?, q.isText = false := fun q hq => Option.some.inj hq ▸ rfl
      exact (hy.parts unit last hnext).hex
    | initrdEnd w₁ w₂ w₃ cell =>
      have hnext : ∀ q ∈ (Part.initrdEnd w₁ w₂ w₃ cell :: ps).head?, q.isText = false :=
        fun q hq => Option.some.inj hq ▸ rfl
      exact (hy.parts unit last hnext).hex

theorem IsCell.not_mem {cell : Str} (h : IsCell cell) {d : Char} (hd : hexDigit? d = none)
    (hx : d ≠ 'x' ∧ d ≠ 'X') : d ∉ cell := by
  intro hmem
  rcases h d hmem with h | h | h
  · rw [hd] at h
    cases h
  · exact hx.1 h
  · exact hx.2 h

/-- No property of the initrd's end has the first letter of a name. -/
theorem not_mem_initrdEnd {w₁ w₂ w₃ cell : Str} (hw : ∀ c ∈ w₁ ++ (w₂ ++ w₃), isSpace c = true)
    (hcell : IsCell cell) : 's' ∉ cellFront "linux,initrd-end".toList w₁ w₂ w₃ ++ cell := by
  rw [List.mem_append, not_or]
  exact ⟨not_mem_cellFront hw (by decide) (by decide), hcell.not_mem (by decide) (by decide)⟩

/-- **The pass over the names.** -/
theorem writeNames_parts {unit : Str} (hunit : unit ≠ [] ∧ ∀ c ∈ unit, isHex c = true) (hy : Fence y)
    (unit' : Str) : ∀ {ps : List Part}, Marked ps → Named ps →
      writeNames unit' (ps.flatMap (Part.render unit id) ++ y) =
        ps.flatMap (Part.render unit' id) ++ writeNames unit' y
  | [], _, _ => rfl
  | .text s :: ps, hm, hp => by
    have ih := writeNames_parts hunit hy unit' hm.tail hp.tail
    rw [flatMap_cons_append, flatMap_cons_append, ← ih]
    exact sub_append_of_search (hp.text s List.mem_cons_self) (hy.parts unit id (hm.next rfl)).name
  | .name :: ps, hm, hp => by
    have ih := writeNames_parts hunit hy unit' hm.tail hp.tail
    have hrest := rest_serialName hunit (head?_behind_name hy unit id hm hp)
    rw [flatMap_cons_append, flatMap_cons_append, ← ih]
    unfold Part.render
    rw [← List.append_assoc] at hrest
    exact sub_of_rest consumes_serialName hrest
  | .initrdEnd w₁ w₂ w₃ cell :: ps, hm, hp => by
    have ih := writeNames_parts hunit hy unit' hm.tail hp.tail
    obtain ⟨hw, hcell⟩ := hm.ends w₁ w₂ w₃ cell List.mem_cons_self
    rw [flatMap_cons_append, flatMap_cons_append, ← ih]
    exact begins_serialName.sub_append (not_mem_initrdEnd hw hcell) _

/-- A name is no property of the initrd's end. -/
theorem writeEnds_name {unit : Str} (hunit : ∀ c ∈ unit, isHex c = true) (last y : Str) :
    writeEnds last ("serial@".toList ++ (unit ++ y)) = "serial@".toList ++ (unit ++ writeEnds last y) := by
  have hfront := begins_initrdEnd.sub_append (f := endWith last) (u := "seria".toList) (by decide)
    ('l' :: ("@".toList ++ (unit ++ y)))
  have hl : initrdEnd.rest ('l' :: ("@".toList ++ (unit ++ y))) = none := rfl
  have hunit' : 'l' ∉ "@".toList ++ unit := by
    rw [List.mem_append, not_or]
    exact ⟨by decide, not_mem_of_isHex hunit (by decide)⟩
  have hback := begins_initrdEnd.sub_append (f := endWith last) hunit' y
  refine hfront.trans ?_
  rw [sub_cons_of_none hl, ← List.append_assoc "@".toList, hback]
  rfl

/-- **The pass over the cells of the initrd's end.** -/
theorem writeEnds_parts {unit : Str} (hunit : ∀ c ∈ unit, isHex c = true) (hy : Fence y) (last : Str) :
    ∀ {ps : List Part}, Marked ps → Ended ps →
      writeEnds last (ps.flatMap (Part.render unit id) ++ y) =
        ps.flatMap (Part.render unit fun _ => "0x".toList ++ last) ++ writeEnds last y
  | [], _, _ => rfl
  | .text s :: ps, hm, hp => by
    have ih := writeEnds_parts hunit hy last hm.tail hp.tail
    rw [flatMap_cons_append, flatMap_cons_append, ← ih]
    exact sub_append_of_search (hp.text s List.mem_cons_self) (hy.parts unit id (hm.next rfl)).ends
  | .name :: ps, hm, hp => by
    have ih := writeEnds_parts hunit hy last hm.tail hp.tail
    rw [flatMap_cons_append, flatMap_cons_append, ← ih]
    unfold Part.render
    rw [List.append_assoc, List.append_assoc]
    exact writeEnds_name hunit last _
  | .initrdEnd w₁ w₂ w₃ cell :: ps, hm, hp => by
    have ih := writeEnds_parts hunit hy last hm.tail hp.tail
    obtain ⟨hw, -⟩ := hm.ends w₁ w₂ w₃ cell List.mem_cons_self
    obtain ⟨rfl, ⟨ds, rfl, hds⟩, s, rs, rfl⟩ := hp.cells w₁ w₂ w₃ cell ps (List.suffix_refl _)
    rw [List.append_nil] at hw
    generalize hz : s ++ (rs.flatMap (Part.render unit id) ++ y) = z
    have htail : (Part.text ('>' :: s) :: rs).flatMap (Part.render unit id) ++ y = '>' :: z := by
      rw [← hz, List.flatMap_cons, List.append_assoc]
      rfl
    have hkept : writeEnds last ('>' :: z) = '>' :: writeEnds last z :=
      sub_cons_of_none (begins_initrdEnd.first _ _ (by decide))
    have hassoc : ∀ x : Str, cellFront "linux,initrd-end".toList w₁ w₂ [] ++ ("0x".toList ++ (x ++ ['>'])) ++ z =
        cellFront "linux,initrd-end".toList w₁ w₂ [] ++ ("0x".toList ++ (x ++ '>' :: z)) := fun x => by
      rw [List.append_assoc, List.append_assoc, List.append_assoc, List.singleton_append]
    have hrest := rest_initrdEnd (t := z) hw hds
    rw [← hassoc] at hrest
    have hsub := sub_of_rest (f := endWith last) consumes_initrdEnd hrest
    rw [endWith_eq hw, hassoc] at hsub
    rw [htail, hkept] at ih
    rw [flatMap_cons_append, htail, flatMap_cons_append, ← ih]
    unfold Part.render
    rw [List.append_assoc, id_eq, List.append_assoc, List.append_assoc, List.append_assoc]
    refine hsub.trans ?_
    rw [List.append_assoc, List.append_assoc, List.append_assoc]
    rfl

/-- No bracket stands behind blanks. -/
def Unopened (s : Str) : Prop := ∀ w x, s = w ++ '{' :: x → ∃ c ∈ w, isSpace c = false

theorem Unopened.serial (s : Str) : Unopened ("serial@".toList ++ s) := by
  intro w x h
  cases w with
  | nil => exact absurd (List.cons.inj h).1 (by decide)
  | cons c w =>
    obtain rfl : 's' = c := (List.cons.inj h).1
    exact ⟨'s', List.mem_cons_self, by decide⟩

theorem Unopened.append {s : Str} (hs : Unopened s) (hy : Unopened y) : Unopened (s ++ y) := by
  intro w x h
  rcases List.append_eq_append_iff.mp h with ⟨z, hw, hz⟩ | ⟨z, hs', hz⟩
  · obtain ⟨c, hc, hspace⟩ := hy z x hz
    exact ⟨c, hw ▸ List.mem_append_right s hc, hspace⟩
  · cases z with
    | nil =>
      rw [List.append_nil] at hs'
      obtain ⟨c, hc, hspace⟩ := hy [] x hz.symm
      cases hc
    | cons d z =>
      obtain ⟨rfl, -⟩ := List.cons.inj hz
      exact hs w z hs'

theorem rest_serialNode_of_unopened {s t : Str} (hs : serialName.rest s = some t) (ht : Unopened t) :
    serialNode.rest s = none := by
  rw [serialNode, all, List.foldr_cons, rest, hs, Option.bind_some, List.foldr_cons, rest, rest,
    Option.bind_some, List.foldr_cons]
  cases h : t.dropWhile isSpace with
  | nil => rfl
  | cons c x =>
    have hsplit := List.takeWhile_append_dropWhile (p := isSpace) (l := t)
    rw [h] at hsplit
    refine rest_seq_lit_of_ne ?_ [] x _
    rintro rfl
    obtain ⟨c, hc, hspace⟩ := ht _ x hsplit.symm
    rw [List.mem_takeWhile_imp hc] at hspace
    cases hspace

/-- **The pass over the nodes**, where there is none. -/
theorem retarget_parts {unit : Str} (hunit : unit ≠ [] ∧ ∀ c ∈ unit, isHex c = true) (hy : Fence y)
    (hy' : Unopened y) (uart : ℕ) : ∀ {ps : List Part}, Marked ps → Named ps →
      (∀ qs, .name :: qs <:+ ps → Unopened (qs.flatMap (Part.render unit id))) →
        sub (retarget uart) serialNode (ps.flatMap (Part.render unit id) ++ y) =
          ps.flatMap (Part.render unit id) ++ sub (retarget uart) serialNode y
  | [], _, _, _ => rfl
  | p :: ps, hm, hn, hone => by
    have ih := retarget_parts hunit hy hy' uart hm.tail hn.tail fun qs hqs =>
      hone qs (hqs.trans (List.suffix_cons p ps))
    have hfirst : ∀ d s, d ≠ 's' → serialNode.rest (d :: s) = none := fun d s hd =>
      rest_serialNode_of_none (begins_serialName.first d s hd)
    rw [flatMap_cons_append, flatMap_cons_append, ← ih]
    cases p with
    | text s =>
      refine sub_append_of_none fun u v huv hv => rest_serialNode_of_none ?_
      have hnone := search_eq_none (hn.text s List.mem_cons_self) v hv ⟨u, huv.symm⟩
      rw [(hy.parts unit id (hm.next rfl)).name v hv, hnone]
      rfl
    | name =>
      have hrest := rest_serialNode_of_unopened
        (rest_serialName hunit (head?_behind_name hy unit id hm hn))
        ((hone ps (List.suffix_refl _)).append hy')
      have hunit' : 's' ∉ "erial@".toList ++ unit := by
        rw [List.mem_append, not_or]
        exact ⟨by decide, not_mem_of_isHex hunit.2 (by decide)⟩
      have hback := sub_append_of_first (f := retarget uart) hfirst hunit'
        (ps.flatMap (Part.render unit id) ++ y)
      rw [← List.append_assoc] at hrest
      refine (sub_cons_of_none hrest).trans ?_
      exact congrArg ('s' :: ·) hback
    | initrdEnd w₁ w₂ w₃ cell =>
      obtain ⟨hw, hcell⟩ := hm.ends w₁ w₂ w₃ cell List.mem_cons_self
      exact sub_append_of_first hfirst (not_mem_initrdEnd hw hcell) _

end Parts

/-! ### A plain tree -/

/-- A character that a part has in its text only. -/
theorem not_mem_parts {unit : Str} (hunit : ∀ c ∈ unit, isHex c = true) {d : Char}
    (hspace : isSpace d = false) (hhex : isHex d = false) (hdigit : hexDigit? d = none)
    (hx : d ≠ 'x' ∧ d ≠ 'X')
    (hlit : d ∉ "serial@".toList ∧ d ∉ "linux,initrd-end".toList ∧ d ≠ '=' ∧ d ≠ '<') {ps : List Part}
    (hm : Marked ps) (htext : ∀ s, .text s ∈ ps → d ∉ s) : d ∉ ps.flatMap (Part.render unit id) := by
  intro hmem
  obtain ⟨p, hp, hmem⟩ := List.mem_flatMap.mp hmem
  cases p with
  | text s => exact htext s hp hmem
  | name =>
    rcases List.mem_append.mp hmem with hmem | hmem
    · exact hlit.1 hmem
    · exact not_mem_of_isHex hunit hhex hmem
  | initrdEnd w₁ w₂ w₃ cell =>
    obtain ⟨hw, hcell⟩ := hm.ends w₁ w₂ w₃ cell hp
    rcases List.mem_append.mp hmem with hmem | hmem
    · exact not_mem_cellFront hw hspace hlit.2 hmem
    · exact hcell.not_mem hdigit hx hmem

theorem writeNames_kept {u : Str} (hu : 's' ∉ u) (unit y : Str) :
    writeNames unit (u ++ y) = u ++ writeNames unit y := begins_serialName.sub_append hu y

theorem writeEnds_kept {u : Str} (hu : 'l' ∉ u) (last y : Str) :
    writeEnds last (u ++ y) = u ++ writeEnds last y := begins_initrdEnd.sub_append hu y

theorem writeNames_append {y : Str} (hy : Fence y) (unit u : Str) :
    writeNames unit (u ++ y) = writeNames unit u ++ writeNames unit y :=
  sub_append consumes_serialName hy.name u

theorem writeEnds_append {y : Str} (hy : Fence y) (last u : Str) :
    writeEnds last (u ++ y) = writeEnds last u ++ writeEnds last y :=
  sub_append consumes_initrdEnd hy.ends u

namespace Tree

variable {t : Tree}

theorem Valid.front (h : t.Valid) : Marked t.front := h.marked _ (by simp [lists])

theorem Valid.before (h : t.Valid) : Marked t.before := h.marked _ (by simp [lists])

theorem Valid.after (h : t.Valid) : Marked t.after := h.marked _ (by simp [lists])

theorem Valid.back (h : t.Valid) : Marked t.back := h.marked _ (by simp [lists])

/-- The front of reg has no character but those of its shape. -/
theorem Valid.not_mem_reg (h : t.Valid) {cell : Str} (hcell : ∀ c ∈ cell, isHex c = true) {d : Char}
    (hspace : isSpace d = false) (hhex : isHex d = false)
    (hlit : d ∉ "reg".toList ∧ d ≠ '=' ∧ d ≠ '<' ∧ d ∉ "0x".toList) :
    d ∉ cellFront "reg".toList t.w₁ t.w₂ t.w₃ ++ ("0x".toList ++ cell) := by
  rw [List.mem_append, List.mem_append]
  rintro (hmem | hmem | hmem)
  · exact not_mem_cellFront h.blank hspace ⟨hlit.1, hlit.2.1, hlit.2.2.1⟩ hmem
  · exact hlit.2.2.2 hmem
  · exact not_mem_of_isHex hcell hhex hmem

/-- What the first pass makes of a tree in which the name stands where it is marked. -/
theorem retarget_old (h : t.Valid) (hunit : ∀ c ∈ t.unit, isHex c = true)
    (hcell : ∀ c ∈ t.cell, isHex c = true) (hnamed : ∀ ps ∈ t.lists, Named ps) (uart : ℕ) :
    sub (retarget uart) serialNode t.old =
      t.front.flatMap (Part.render t.unit id) ++ ("serial@".toList ++ (t.unit ++ (t.gap ++ '{' ::
        (writeValue uart (t.before.flatMap (Part.render t.unit id) ++
          (cellFront "reg".toList t.w₁ t.w₂ t.w₃ ++ ("0x".toList ++ (t.cell ++
            (t.after.flatMap (Part.render t.unit id) ++ ['}']))))) ++
          t.back.flatMap (Part.render t.unit id))))) := by
  have hunit' : t.unit ≠ [] ∧ ∀ c ∈ t.unit, isHex c = true := ⟨h.unit.1, hunit⟩
  generalize hbody : t.before.flatMap (Part.render t.unit id) ++
    (cellFront "reg".toList t.w₁ t.w₂ t.w₃ ++ ("0x".toList ++ (t.cell ++
      t.after.flatMap (Part.render t.unit id)))) = body
  have hbrace : ∀ d, isSpace d = false → isHex d = false → hexDigit? d = none → d ≠ 'x' ∧ d ≠ 'X' →
      (d ∉ "serial@".toList ∧ d ∉ "linux,initrd-end".toList ∧ d ≠ '=' ∧ d ≠ '<') →
      (d ∉ "reg".toList ∧ d ≠ '=' ∧ d ≠ '<' ∧ d ∉ "0x".toList) →
      (∀ s, .text s ∈ t.before ++ t.after → d ∉ s) → d ∉ body := by
    intro d hspace hhex hdigit hx hlit hreg htext hmem
    rw [← hbody, ← List.append_assoc "0x".toList, ← List.append_assoc (cellFront _ _ _ _),
      List.mem_append, List.mem_append] at hmem
    rcases hmem with hmem | hmem | hmem
    · exact not_mem_parts hunit hspace hhex hdigit hx hlit h.before
        (fun s hs => htext s (List.mem_append_left _ hs)) hmem
    · exact h.not_mem_reg hcell hspace hhex hreg hmem
    · exact not_mem_parts hunit hspace hhex hdigit hx hlit h.after
        (fun s hs => htext s (List.mem_append_right _ hs)) hmem
  have hbraces : '{' ∉ body ∧ '}' ∉ body :=
    ⟨hbrace _ (by decide) (by decide) (by decide) (by decide) (by decide) (by decide)
      fun s hs => (h.childless s hs).1,
    hbrace _ (by decide) (by decide) (by decide) (by decide) (by decide) (by decide)
      fun s hs => (h.childless s hs).2⟩
  have hold : t.old = t.front.flatMap (Part.render t.unit id) ++ (node t.unit t.gap body ++
      (t.back.flatMap (Part.render t.unit id) ++ [])) := by
    unfold old render node
    rw [← hbody]
    generalize "serial@".toList = name
    generalize "0x".toList = value
    simp only [List.append_assoc, List.cons_append, List.nil_append, List.append_nil]
  have hfront := retarget_parts hunit' (y := node t.unit t.gap body ++
      (t.back.flatMap (Part.render t.unit id) ++ [])) ?_ ?_ uart h.front
    (hnamed _ List.mem_cons_self) (h.one _ List.mem_cons_self)
  rotate_left
  · unfold node
    rw [List.append_assoc]
    exact .serial _
  · unfold node
    rw [List.append_assoc]
    exact .serial _
  have hback := retarget_parts hunit' Fence.nil (fun w x hw => by simp at hw) uart h.back
    (hnamed _ (by simp [lists])) (h.one _ (by simp))
  rw [hold, hfront, sub_of_rest consumes_serialNode (rest_serialNode hunit' h.gap hbraces _),
    retarget_node hunit' h.gap, hback]
  have hnil : sub (retarget uart) serialNode [] = [] := rfl
  rw [hnil, ← hbody]
  generalize "serial@".toList = name
  generalize "0x".toList = value
  simp only [List.append_assoc, List.cons_append, List.append_nil]

/-- A pass goes over the bracket of the node. -/
theorem Valid.pass_gap (h : t.Valid) {g : Str → Str}
    (hkept : ∀ u y, 's' ∉ u → 'l' ∉ u → g (u ++ y) = u ++ g y) (y : Str) :
    g (t.gap ++ '{' :: y) = t.gap ++ '{' :: g y := by
  have hopen := hkept (t.gap ++ ['{']) y
  simp only [List.append_assoc, List.singleton_append] at hopen
  exact hopen (by simpa using not_mem_of_isSpace h.gap (by decide))
    (by simpa using not_mem_of_isSpace h.gap (by decide))

/-- A pass goes over the first cell. -/
theorem Valid.pass_reg (h : t.Valid) {g : Str → Str} {cell : Str} (hcell : ∀ c ∈ cell, isHex c = true)
    (hkept : ∀ u y, 's' ∉ u → 'l' ∉ u → g (u ++ y) = u ++ g y) (y : Str) :
    g (cellFront "reg".toList t.w₁ t.w₂ t.w₃ ++ ("0x".toList ++ (cell ++ y))) =
      cellFront "reg".toList t.w₁ t.w₂ t.w₃ ++ ("0x".toList ++ (cell ++ g y)) := by
  have hfront := hkept (cellFront "reg".toList t.w₁ t.w₂ t.w₃ ++ ("0x".toList ++ cell)) y
    (h.not_mem_reg hcell (by decide) (by decide) (by decide))
    (h.not_mem_reg hcell (by decide) (by decide) (by decide))
  simp only [List.append_assoc] at hfront
  exact hfront

/-- A pass goes through the tree list by list, and over the node. -/
theorem Valid.pass (h : t.Valid) {g : Str → Str} {unit unit' cell : Str} {last last' : Str → Str}
    (hcell : ∀ c ∈ cell, isHex c = true) (hnil : g [] = [])
    (hkept : ∀ u y, 's' ∉ u → 'l' ∉ u → g (u ++ y) = u ++ g y)
    (hname : ∀ y, (∀ c ∈ y.head?, isHex c = false) →
      g ("serial@".toList ++ (unit ++ y)) = "serial@".toList ++ (unit' ++ g y))
    (hparts : ∀ ps ∈ t.lists, ∀ y, Fence y →
      g (ps.flatMap (Part.render unit last) ++ y) = ps.flatMap (Part.render unit' last') ++ g y) :
    g (t.render unit cell last) = t.render unit' cell last' := by
  have hclose : ∀ y, g ('}' :: y) = '}' :: g y := fun y => hkept ['}'] y (by decide) (by decide)
  have hback := hparts t.back (by simp [lists]) [] .nil
  rw [List.append_nil, hnil, List.append_nil] at hback
  unfold render
  rw [hparts t.front (by simp [lists]) _ (.serial _), hname _ (head?_gap h.gap _), h.pass_gap hkept,
    hparts t.before (by simp [lists]) _ (.front_reg _ _ _ _), h.pass_reg hcell hkept,
    hparts t.after (by simp [lists]) _ (.closing _), hclose, hback]

/-- The second pass, over a tree in which the name stands where it is marked. -/
theorem writeNames_render (h : t.Valid) {unit cell : Str} (hunit : unit ≠ [] ∧ ∀ c ∈ unit, isHex c = true)
    (hcell : ∀ c ∈ cell, isHex c = true) (hnamed : ∀ ps ∈ t.lists, Named ps) (unit' : Str) :
    writeNames unit' (t.render unit cell id) = t.render unit' cell id := by
  refine h.pass hcell rfl (fun u y hs _ => writeNames_kept hs unit' y) (fun y hy => ?_)
    fun ps hps _ hy => writeNames_parts hunit hy unit' (h.marked ps hps) (hnamed ps hps)
  have hrest := rest_serialName hunit hy
  rw [← List.append_assoc] at hrest ⊢
  rw [← List.append_assoc]
  exact sub_of_rest consumes_serialName hrest

/-- The third pass, over a tree in which the initrd's end stands where it is marked. -/
theorem writeEnds_render (h : t.Valid) {unit cell : Str} (hunit : ∀ c ∈ unit, isHex c = true)
    (hcell : ∀ c ∈ cell, isHex c = true) (hended : ∀ ps ∈ t.lists, Ended ps) (last : Str) :
    writeEnds last (t.render unit cell id) = t.render unit cell fun _ => "0x".toList ++ last :=
  h.pass hcell rfl (fun _ y _ hl => writeEnds_kept hl last y) (fun y _ => writeEnds_name hunit last y)
    fun ps hps _ hy => writeEnds_parts hunit hy last (h.marked ps hps) (hended ps hps)

/-- The first two passes, if no value stands in front of reg. -/
theorem tree_old (h : t.Valid) (hunit : ∀ c ∈ t.unit, isHex c = true)
    (hcell : ∀ c ∈ t.cell, isHex c = true) (hnamed : ∀ ps ∈ t.lists, Named ps)
    (hfirst : value.search (t.before.flatMap (Part.render t.unit id)) = none) (o : Options)
    (uart size : ℕ) : tree o [] uart (some size) t.old =
      .ok (writeEnds (hex08 (rootfsAddr + size)) (t.render (hex uart) (hex08 uart) id)) := by
  have hsearch := search_value h.blank h.cell.1 hcell (t.before.flatMap (Part.render t.unit id))
    (t.after.flatMap (Part.render t.unit id) ++ ['}'])
  rw [hfirst, Option.map_none, Option.none_or] at hsearch
  have hvalue : sub (retarget uart) serialNode t.old = t.render t.unit (hex08 uart) id := by
    rw [retarget_old h hunit hcell hnamed, writeValue_of_some hsearch, render]
    simp only [List.append_assoc, List.singleton_append]
  rw [tree_eq, hvalue, writeNames_render h ⟨h.unit.1, hunit⟩ (hex08_spec uart).2 hnamed]

end Tree

/-- **In a plain tree the script writes the places and nothing else.** -/
theorem edits_of_plain {t : Tree} (h : t.Valid) (hp : t.Plain) : Edits t := by
  intro o uart size
  rw [Tree.tree_old h hp.unit hp.cell hp.named hp.first,
    Tree.writeEnds_render h (hex_spec uart).2 (hex08_spec uart).2 hp.ended]
  rfl

end LinuxPayload
end Xc7Tools
