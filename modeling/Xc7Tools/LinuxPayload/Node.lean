/-
# linux_payload: the patterns

What the patterns of the script find in a node and in a property. Each begins
with a character that it does not have further on, so that its matches are known
by that character, and what each pass writes differs from what it finds in
digits only. Of a node without child nodes the first value is written
(`retarget_node`), which is that of reg if none is in front (`search_value`).

Key definitions: `node`, `cellFront`.
Key theorems: `begins_serialName`, `begins_initrdEnd`, `rest_serialNode`, `search_value`,
`retarget_node`.
-/
import Xc7Tools.LinuxPayload.Script

namespace Xc7Tools
namespace LinuxPayload

open Str Pattern

/-- The text of a node. -/
def node (unit gap body : Str) : Str := "serial@".toList ++ (unit ++ (gap ++ '{' :: (body ++ ['}'])))

/-- The front of a property, up to its first cell, with what may stand in between. -/
def cellFront (name w₁ w₂ w₃ : Str) : Str := name ++ (w₁ ++ '=' :: (w₂ ++ '<' :: w₃))

theorem mem_cellFront {name w₁ w₂ w₃ : Str} {d : Char} : d ∈ cellFront name w₁ w₂ w₃ ↔
    d ∈ name ∨ d ∈ w₁ ++ (w₂ ++ w₃) ∨ d = '=' ∨ d = '<' := by
  unfold cellFront
  simp only [List.mem_append, List.mem_cons]
  tauto

/-! ### Digits -/

theorem isHex_of_isHexNumeral {ds : Str} (h : IsHexNumeral ds) : ds ≠ [] ∧ ∀ c ∈ ds, isHex c = true := by
  have hdigit : ∀ d < 16, isHex d.digitChar = true := by decide
  refine ⟨h.1, fun c hc => ?_⟩
  obtain ⟨d, hd, rfl⟩ := h.2 c hc
  exact hdigit d hd

theorem hex_spec (n : ℕ) : hex n ≠ [] ∧ ∀ c ∈ hex n, isHex c = true :=
  isHex_of_isHexNumeral (isHexNumeral_toDigits n)

theorem hex08_spec (n : ℕ) : hex08 n ≠ [] ∧ ∀ c ∈ hex08 n, isHex c = true :=
  isHex_of_isHexNumeral ((isHexNumeral_toDigits n).zfill 8)

theorem ne_of_isHex {c d : Char} (hc : isHex c = true) (hd : isHex d = false) : c ≠ d := by
  rintro rfl
  rw [hc] at hd
  cases hd

theorem not_mem_of_isHex {ds : Str} (h : ∀ c ∈ ds, isHex c = true) {d : Char} (hd : isHex d = false) :
    d ∉ ds := fun hmem => ne_of_isHex (h d hmem) hd rfl

theorem isSpace_of_isHex {c : Char} (h : isHex c = true) : isSpace c = false := by
  have hrange : ('0'.toNat ≤ c.toNat ∧ c.toNat ≤ '9'.toNat) ∨
      ('a'.toNat ≤ c.toNat ∧ c.toNat ≤ 'f'.toNat) := of_decide_eq_true h
  have hvalues : '0'.toNat = 48 ∧ '9'.toNat = 57 ∧ 'a'.toNat = 97 ∧ 'f'.toNat = 102 := by decide
  simp only [isSpace, Bool.or_eq_false_iff, Bool.and_eq_false_iff, decide_eq_false_iff_not,
    beq_eq_false_iff_ne]
  omega

theorem not_mem_of_isSpace {w : Str} (h : ∀ c ∈ w, isSpace c = true) {d : Char}
    (hd : isSpace d = false) : d ∉ w := fun hmem => Bool.false_ne_true (hd.symm.trans (h d hmem))

/-- The front of a property has no character but those of its shape. -/
theorem not_mem_cellFront {name w₁ w₂ w₃ : Str} (hw : ∀ c ∈ w₁ ++ (w₂ ++ w₃), isSpace c = true)
    {d : Char} (hd : isSpace d = false) (hlit : d ∉ name ∧ d ≠ '=' ∧ d ≠ '<') :
    d ∉ cellFront name w₁ w₂ w₃ := by
  rw [mem_cellFront]
  rintro (hmem | hmem | hmem | hmem)
  · exact hlit.1 hmem
  · exact not_mem_of_isSpace hw hd hmem
  · exact hlit.2.1 hmem
  · exact hlit.2.2 hmem

/-! ### The patterns -/

theorem consumes_serialName : serialName.consumes = true := rfl

theorem consumes_initrdEnd : initrdEnd.consumes = true := rfl

theorem consumes_serialNode : serialNode.consumes = true := rfl

theorem begins_serialName : Begins 's' serialName := begins_of_lit (w := "erial@".toList) (by decide) rfl

theorem begins_initrdEnd : Begins 'l' initrdEnd :=
  begins_of_lit (w := "inux,initrd-end".toList) (by decide) rfl

theorem rest_serialNode_of_none {s : Str} (h : serialName.rest s = none) : serialNode.rest s = none := by
  rw [serialNode, all, List.foldr_cons, rest, h, Option.bind_none]

/-- The name of a node, as far as its digits go. -/
theorem rest_serialName {unit t : Str} (hunit : unit ≠ [] ∧ ∀ c ∈ unit, isHex c = true)
    (ht : ∀ c ∈ t.head?, isHex c = false) :
    serialName.rest ("serial@".toList ++ (unit ++ t)) = some t := by
  rw [serialName, rest_seq_lit]
  exact rest_plus_append hunit.1 hunit.2 ht

theorem lang_serialName {w : Str} (h : serialName.Lang w) :
    ∃ ds, w = "serial@".toList ++ ds ∧ ds ≠ [] ∧ ∀ c ∈ ds, isHex c = true := by
  obtain ⟨u, ds, rfl, hu, c, ds', rfl, hc, hds⟩ := h
  obtain rfl := eq_of_lang_lit hu
  obtain ⟨d, rfl, hd⟩ := hc
  refine ⟨_, rfl, List.cons_ne_nil _ _, fun e he => ?_⟩
  rcases List.mem_cons.mp he with rfl | he
  · exact hd
  · exact hds e he

theorem lang_initrdEnd {w : Str} (h : initrdEnd.Lang w) :
    ∃ b₁ b₂ ds, w = cellFront "linux,initrd-end".toList b₁ b₂ [] ++ ("0x".toList ++ (ds ++ ['>'])) ∧
      (∀ c ∈ b₁ ++ b₂, isSpace c = true) ∧ ds ≠ [] ∧ ∀ c ∈ ds, isHex c = true := by
  obtain ⟨u₁, v₁, rfl, h₁, b₁, v₂, rfl, hb₁, u₂, v₃, rfl, h₂, b₂, v₄, rfl, hb₂, u₃, v₅, rfl, h₃,
    ds, v₆, rfl, ⟨u₄, ds', rfl, ⟨c, rfl, hc⟩, hds⟩, u₅, v₇, rfl, h₅, h₆⟩ := h
  obtain rfl := eq_of_lang_lit h₁
  obtain rfl := eq_of_lang_lit h₂
  obtain rfl := eq_of_lang_lit h₃
  obtain rfl := eq_of_lang_lit h₅
  obtain rfl : v₇ = [] := h₆
  refine ⟨b₁, b₂, c :: ds', ?_, fun d hd => (List.mem_append.mp hd).elim (hb₁ d) (hb₂ d),
    List.cons_ne_nil _ _, fun d hd => ?_⟩
  · simp [cellFront]
  · rcases List.mem_cons.mp hd with rfl | hd
    · exact hc
    · exact hds d hd

theorem lang_serialNode {w : Str} (h : serialNode.Lang w) : '{' ∈ w := by
  obtain ⟨u₁, v₁, rfl, -, u₂, v₂, rfl, -, u₃, v₃, rfl, h₃, -⟩ := h
  obtain rfl := eq_of_lang_lit h₃
  simp

/-- The digits of the end of the initrd, with their bracket. -/
theorem rest_initrdEnd {w₁ w₂ ds t : Str} (hw : ∀ c ∈ w₁ ++ w₂, isSpace c = true)
    (hds : ds ≠ [] ∧ ∀ c ∈ ds, isHex c = true) :
    initrdEnd.rest (cellFront "linux,initrd-end".toList w₁ w₂ [] ++
      ("0x".toList ++ (ds ++ '>' :: t))) = some t := by
  have hspace : ∀ w t : Str, (∀ c ∈ w, isSpace c = true) → (∀ c ∈ t.head?, isSpace c = false) →
      (star isSpace).rest (w ++ t) = some t := fun w t hw ht => rest_star_append hw ht
  have hassoc : cellFront "linux,initrd-end".toList w₁ w₂ [] ++ ("0x".toList ++ (ds ++ '>' :: t)) =
      "linux,initrd-end".toList ++ (w₁ ++ ("=".toList ++ (w₂ ++ ("<0x".toList ++ (ds ++ (">".toList ++ t)))))) := by
    simp [cellFront]
  have hdigits : (plus isHex).rest (ds ++ (">".toList ++ t)) = some (">".toList ++ t) :=
    rest_plus_append hds.1 hds.2 fun c hc => Option.some.inj hc ▸ by decide
  have hgap₁ : (star isSpace).rest (w₁ ++ ("=".toList ++ (w₂ ++ ("<0x".toList ++ (ds ++ (">".toList ++ t)))))) =
      some ("=".toList ++ (w₂ ++ ("<0x".toList ++ (ds ++ (">".toList ++ t))))) :=
    hspace _ _ (fun c hc => hw c (List.mem_append_left _ hc)) fun c hc => Option.some.inj hc ▸ by decide
  have hgap₂ : (star isSpace).rest (w₂ ++ ("<0x".toList ++ (ds ++ (">".toList ++ t)))) =
      some ("<0x".toList ++ (ds ++ (">".toList ++ t))) :=
    hspace _ _ (fun c hc => hw c (List.mem_append_right _ hc)) fun c hc => Option.some.inj hc ▸ by decide
  rw [hassoc, initrdEnd, all, List.foldr_cons, rest_seq_lit, List.foldr_cons, rest, hgap₁,
    Option.bind_some, List.foldr_cons, rest_seq_lit, List.foldr_cons, rest, hgap₂, Option.bind_some,
    List.foldr_cons, rest_seq_lit, List.foldr_cons, rest, hdigits, Option.bind_some,
    List.foldr_cons, rest_seq_lit]
  rfl

/-! ### What is written -/

/-- The pass over the names. -/
def writeNames (unit : Str) : Str → Str := sub (fun _ => "serial@".toList ++ unit) serialName

/-- What is written for a cell of the initrd's end. -/
def endWith (last w : Str) : Str := w.takeWhile (· != '<') ++ "<0x".toList ++ last ++ ['>']

/-- The pass over the cells of the initrd's end. -/
def writeEnds (last : Str) : Str → Str := sub (endWith last) initrdEnd

theorem tree_eq (o : Options) (uart size : ℕ) (dts : Str) : tree o [] uart (some size) dts =
    .ok (writeEnds (hex08 (rootfsAddr + size))
      (writeNames (hex uart) (sub (retarget uart) serialNode dts))) := rfl

theorem endWith_eq {w₁ w₂ : Str} (hw : ∀ c ∈ w₁ ++ w₂, isSpace c = true) (last x : Str) :
    endWith last (cellFront "linux,initrd-end".toList w₁ w₂ [] ++ x) =
      cellFront "linux,initrd-end".toList w₁ w₂ [] ++ ("0x".toList ++ (last ++ ['>'])) := by
  have hfront : ∀ c ∈ "linux,initrd-end".toList ++ (w₁ ++ '=' :: w₂), (c != '<') = true := by
    intro c hc
    rw [bne_iff_ne]
    rintro rfl
    rw [List.mem_append, List.mem_append, List.mem_cons] at hc
    rcases hc with hc | hc | hc | hc
    · exact absurd hc (by decide)
    · exact absurd (hw _ (List.mem_append_left _ hc)) (by decide)
    · exact absurd hc (by decide)
    · exact absurd (hw _ (List.mem_append_right _ hc)) (by decide)
  have hassoc : cellFront "linux,initrd-end".toList w₁ w₂ [] ++ x =
      ("linux,initrd-end".toList ++ (w₁ ++ '=' :: w₂)) ++ '<' :: x := by
    simp [cellFront]
  rw [endWith, hassoc, List.takeWhile_append_of_pos hfront, List.takeWhile_cons_of_neg (by decide)]
  simp [cellFront]

/-- Neither a digit nor the x of a value. -/
def rough (c : Char) : Bool := !isHex c && c != 'x'

theorem filter_rough_of_isHex {ds : Str} (h : ∀ c ∈ ds, isHex c = true) : ds.filter rough = [] :=
  List.filter_eq_nil_iff.mpr fun c hc => by simp [rough, h c hc]

theorem filter_writeNames {unit : Str} (hunit : ∀ c ∈ unit, isHex c = true) (s : Str) :
    (writeNames unit s).filter rough = s.filter rough := by
  refine filter_sub consumes_serialName (fun w hw => ?_) s
  obtain ⟨ds, rfl, -, hds⟩ := lang_serialName hw
  rw [List.filter_append, List.filter_append, filter_rough_of_isHex hunit, filter_rough_of_isHex hds]

theorem filter_writeEnds {last : Str} (hlast : ∀ c ∈ last, isHex c = true) (s : Str) :
    (writeEnds last s).filter rough = s.filter rough := by
  refine filter_sub consumes_initrdEnd (fun w hw => ?_) s
  obtain ⟨b₁, b₂, ds, rfl, hb, -, hds⟩ := lang_initrdEnd hw
  rw [endWith_eq hb]
  simp only [List.filter_append, filter_rough_of_isHex hlast, filter_rough_of_isHex hds]

theorem rest_value {s r : Str} (h : value.rest s = some r) :
    ∃ ds, s = "0x".toList ++ (ds ++ r) ∧ ds.length = 8 ∧ ∀ c ∈ ds, isHex c = true := by
  obtain ⟨w, rfl, u, ds, rfl, hu, hds⟩ := exists_word h
  obtain rfl := eq_of_lang_lit hu
  exact ⟨ds, List.append_assoc _ _ _, lang_times hds⟩

/-- The pass over the first value of a text. -/
def writeValue (uart : ℕ) : Str → Str := subOnce (fun _ => "0x".toList ++ hex08 uart) value

theorem writeValue_of_none {uart : ℕ} {s : Str} (h : value.search s = none) : writeValue uart s = s := by
  rw [writeValue, subOnce, h]

theorem writeValue_of_some {uart : ℕ} {s before w after : Str}
    (h : value.search s = some (before, w, after)) :
    writeValue uart s = before ++ ("0x".toList ++ (hex08 uart ++ after)) := by
  rw [writeValue, subOnce, h]
  simp

theorem filter_writeValue (uart : ℕ) (s : Str) : (writeValue uart s).filter rough = s.filter rough := by
  cases h : value.search s with
  | none => rw [writeValue_of_none h]
  | some m =>
    obtain ⟨before, w, after⟩ := m
    obtain ⟨hs, hrest⟩ := search_eq_some h
    obtain ⟨ds, hw, -, hds⟩ := rest_value hrest
    rw [writeValue_of_some h, hs, List.append_assoc, hw]
    simp only [List.filter_append, filter_rough_of_isHex hds, filter_rough_of_isHex (hex08_spec uart).2]

theorem retarget_eq {w : Str} (uart : ℕ) {front body : Str} (hw : w = front ++ '{' :: body)
    (hfront : '{' ∉ front) : retarget uart w = front ++ '{' :: writeValue uart body := by
  have hpos : ∀ c ∈ front, (c != '{') = true := fun c hc =>
    bne_iff_ne.mpr fun h => hfront (h ▸ hc)
  have hpartition : partition '{' w = (front, body) := by
    unfold partition
    rw [hw, List.takeWhile_append_of_pos hpos, List.dropWhile_append_of_pos hpos]
    simp
  rw [retarget, hpartition]
  rfl

theorem filter_retarget (uart : ℕ) (s : Str) :
    (sub (retarget uart) serialNode s).filter rough = s.filter rough := by
  refine filter_sub consumes_serialNode (fun w hw => ?_) s
  obtain ⟨front, body, rfl, hfront⟩ := List.eq_append_cons_of_mem (lang_serialNode hw)
  rw [retarget_eq uart rfl hfront, List.filter_append, List.filter_append, List.filter_cons,
    List.filter_cons, filter_writeValue]

/-! ### A node -/

section Node

variable {unit gap body : Str} (hunit : unit ≠ [] ∧ ∀ c ∈ unit, isHex c = true)
  (hgap : ∀ c ∈ gap, isSpace c = true)
include hunit hgap

omit hunit in
theorem head?_gap (t : Str) : ∀ c ∈ (gap ++ '{' :: t).head?, isHex c = false := by
  intro c hc
  cases gap with
  | nil =>
    obtain rfl : '{' = c := Option.some.inj hc
    rfl
  | cons d gap =>
    obtain rfl : d = c := Option.some.inj hc
    by_contra hhex
    have hspace := hgap d List.mem_cons_self
    rw [isSpace_of_isHex ((Bool.not_eq_false _).mp hhex)] at hspace
    cases hspace

/-- The node is found as a whole. -/
theorem rest_serialNode (hbody : '{' ∉ body ∧ '}' ∉ body) (t : Str) :
    serialNode.rest (node unit gap body ++ t) = some t := by
  have hassoc : node unit gap body ++ t =
      "serial@".toList ++ (unit ++ (gap ++ (['{'] ++ (body ++ (['}'] ++ t))))) := by
    unfold node
    generalize "serial@".toList = name
    simp only [List.append_assoc, List.cons_append, List.nil_append]
  have hname : serialName.rest ("serial@".toList ++ (unit ++ (gap ++ (['{'] ++ (body ++ (['}'] ++ t)))))) =
      some (gap ++ (['{'] ++ (body ++ (['}'] ++ t)))) :=
    rest_serialName hunit (head?_gap hgap (body ++ (['}'] ++ t)))
  have hgap' : (star isSpace).rest (gap ++ (['{'] ++ (body ++ (['}'] ++ t)))) =
      some (['{'] ++ (body ++ (['}'] ++ t))) :=
    rest_star_append hgap fun c hc => Option.some.inj hc ▸ by decide
  have hbody' : (star fun c => c != '{' && c != '}').rest (body ++ (['}'] ++ t)) =
      some (['}'] ++ t) := by
    refine rest_star_append (fun c hc => ?_) fun c hc => Option.some.inj hc ▸ by decide
    have hopen : c ≠ '{' := fun h => hbody.1 (h ▸ hc)
    have hclose : c ≠ '}' := fun h => hbody.2 (h ▸ hc)
    simp [hopen, hclose]
  rw [hassoc, serialNode, all, List.foldr_cons, rest, hname, Option.bind_some, List.foldr_cons, rest,
    hgap', Option.bind_some, List.foldr_cons, rest_seq_lit, List.foldr_cons, rest, hbody',
    Option.bind_some, List.foldr_cons, rest_seq_lit]
  rfl

/-- The first value of the node is written. -/
theorem retarget_node (uart : ℕ) : retarget uart (node unit gap body) =
    "serial@".toList ++ (unit ++ (gap ++ '{' :: writeValue uart (body ++ ['}']))) := by
  have hnode : node unit gap body = "serial@".toList ++ (unit ++ gap) ++ '{' :: (body ++ ['}']) := by
    unfold node
    generalize "serial@".toList = name
    simp only [List.append_assoc]
  have hfront : '{' ∉ "serial@".toList ++ (unit ++ gap) := by
    rw [List.mem_append, List.mem_append, not_or, not_or]
    exact ⟨by decide, not_mem_of_isHex hunit.2 (by decide), not_mem_of_isSpace hgap (by decide)⟩
  rw [retarget_eq uart hnode hfront]
  simp

end Node

section Value

variable {w₁ w₂ w₃ ds : Str} (hw : ∀ c ∈ w₁ ++ (w₂ ++ w₃), isSpace c = true) (hlen : ds.length = 8)
  (hds : ∀ c ∈ ds, isHex c = true)
include hw hlen hds

/-- The first value is one in front of reg, or that of reg. -/
theorem search_value (before t : Str) :
    value.search (before ++ (cellFront "reg".toList w₁ w₂ w₃ ++ ("0x".toList ++ (ds ++ t)))) =
      ((value.search before).map fun m =>
        (m.1, m.2.1, m.2.2 ++ (cellFront "reg".toList w₁ w₂ w₃ ++ ("0x".toList ++ (ds ++ t))))).or
      (some (before ++ cellFront "reg".toList w₁ w₂ w₃, "0x".toList ++ ds, t)) := by
  have hcons : value.consumes = true := rfl
  -- no value goes over the first letter
  have havoids : value.avoids 'r' = true := rfl
  have hsplit := search_append (t := cellFront "reg".toList w₁ w₂ w₃ ++ ("0x".toList ++ (ds ++ t))) hcons
    fun v (_ : v <:+ before) => rest_append_cons_of_avoids (c := 'r') _ havoids v
  have hnone : ∀ c ∈ cellFront "reg".toList w₁ w₂ w₃, ∀ s, value.rest (c :: s) = none := by
    intro c hc s
    have hne : c ≠ '0' := by
      rintro rfl
      have hspace : ('0' : Char) ∈ w₁ ++ (w₂ ++ w₃) := by simpa [cellFront] using hc
      exact absurd (hw _ hspace) (by decide)
    exact rest_seq_lit_of_ne hne _ s _
  have hrest : value.rest (("0x".toList ++ ds) ++ t) = some t := by
    rw [List.append_assoc, value, rest_seq_lit, ← hlen]
    exact rest_times_append hds
  rw [hsplit, search_append_of_none hnone, ← List.append_assoc "0x".toList, search_of_rest hcons hrest]
  simp

/-- One in front of reg is the one that is written. -/
theorem writeValue_append {before : Str} (hfirst : value.search before ≠ none) (uart : ℕ) (t : Str) :
    writeValue uart (before ++ (cellFront "reg".toList w₁ w₂ w₃ ++ ("0x".toList ++ (ds ++ t)))) =
      writeValue uart before ++ (cellFront "reg".toList w₁ w₂ w₃ ++ ("0x".toList ++ (ds ++ t))) := by
  have hsearch := search_value hw hlen hds before t
  obtain ⟨⟨b, w, a⟩, hm⟩ := Option.ne_none_iff_exists'.mp hfirst
  rw [hm, Option.map_some, Option.some_or] at hsearch
  rw [writeValue_of_some hsearch, writeValue_of_some hm]
  simp only [List.append_assoc]

end Value

end LinuxPayload
end Xc7Tools
