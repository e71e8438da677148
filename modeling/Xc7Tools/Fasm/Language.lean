/-
# fasm_fast: the language

A proper line has its numbers in digits of ASCII, a range that runs from no less
to no more, and a value in digits of its base that fits the range. If its decimal
numbers are not too long for `int` it is read as exactly what it says
(`parse_proper`). The reader takes some lines more: digits
of other scripts, a range that runs backwards, a `0b` that `int` takes off a
binary literal, a literal wider than it says. On every other line it reads the
language or raises (`reads_right_iff`).

Key definitions: `Written.Proper`, `ReadsRight`, `Written.Odd`.
Key theorems: `parse_proper`, `text_unique`, `reads_right_iff`.
-/
import Xc7Tools.Fasm.Written

namespace Xc7Tools
namespace Fasm

open Str Checked

/-! ### Proper lines -/

namespace Range

/-- The first bit of a range, or the one bit. -/
def first : Range → Option ℕ
  | whole => none
  | one i => some (Str.value i)
  | two _ lo => some (Str.value lo)

/-- The last bit of a range. -/
def last : Range → Option ℕ
  | two hi _ => some (Str.value hi)
  | _ => none

/-- The numbers are in digits of ASCII, one at least. -/
def Numerals (r : Range) : Prop := ∀ d ∈ r.numbers, IsNumeral d

theorem Numerals.digits {r : Range} (h : r.Numerals) : r.Digits := fun d hd =>
  ⟨(h d hd).1, fun c hc => isDigit_of_isAsciiDigit ((h d hd).2 c hc)⟩

theorem Numerals.rangeOf_eq {r : Range} (h : r.Numerals) :
    rangeOf r.hi? r.lo? = (r.first, r.last) := by
  cases r with
  | whole => rfl
  | one i =>
    have hi := digitsValue_of_digits (h i (List.mem_singleton_self i)).2
    simp only [rangeOf, hi?, lo?, first, last, hi]
  | two hi lo =>
    have hhi := digitsValue_of_digits (h hi List.mem_cons_self).2
    have hlo := digitsValue_of_digits (h lo (List.mem_cons_of_mem _ (List.mem_singleton_self lo))).2
    simp only [rangeOf, hi?, lo?, first, last, hhi, hlo]

end Range

namespace Literal

/-- The number that the digits denote in their base. -/
def denotes (l : Literal) : ℕ := numberOf l.radix l.digits

/-- Digits of the base, with underscores, behind a width in digits of ASCII. -/
def Proper (l : Literal) : Prop :=
  DigitsOf l.radix l.digits ∧
    match l with
    | plain _ => True
    | sized width base _ => IsNumeral width ∧ (bases base).isSome = true

/-- The number fits the width that is written. -/
def InWidth (l : Literal) : Prop :=
  match l with
  | plain _ => True
  | sized width _ _ => l.denotes < 2 ^ Str.value width

/-- Digits of the base are no prefix for `int`. -/
theorem body_of_digits {l : Literal} (h : DigitsOf l.radix l.digits) : l.body = l.digits := by
  unfold body
  split_ifs with hradix
  · rw [hradix] at h
    unfold dropBinPrefix
    split
    · next s heq =>
      obtain ⟨d, hd, hb⟩ := h.2 'b' (by rw [heq]; simp)
      rw [show hex? 'b' = some 11 by decide] at hb
      obtain rfl := Option.some.inj hb
      exact absurd hd (by decide)
    · next s heq =>
      obtain ⟨d, hd, hb⟩ := h.2 'B' (by rw [heq]; simp)
      rw [show hex? 'B' = some 11 by decide] at hb
      obtain rfl := Option.some.inj hb
      exact absurd hd (by decide)
    · rfl
  · rfl

/-- A character of a text whose digits are of a base. -/
theorem hex_of_digits {radix : ℕ} {ds : Str} (h : DigitsOf radix (dropUnderscores ds)) :
    ds ≠ [] ∧ ∀ c ∈ ds, (∃ d < radix, hex? c = some d) ∨ c = '_' := by
  refine ⟨?_, fun c hc => ?_⟩
  · rintro rfl
    exact h.1 rfl
  · by_cases hu : c = '_'
    · exact Or.inr hu
    · exact Or.inl (h.2 c (List.mem_filter.mpr ⟨hc, bne_iff_ne.mpr hu⟩))

theorem ascii_of_hex {c : Char} {d : ℕ} (hd : d < 10) (h : hex? c = some d) : '0' ≤ c ∧ c ≤ '9' := by
  unfold hex? at h
  split_ifs at h with h0 ha hA
  · exact h0
  · have hd' := Option.some.inj h
    omega
  · have hd' := Option.some.inj h
    omega

theorem Proper.accepted {l : Literal} (h : l.Proper) : l.Accepted := by
  refine ⟨?_, by rw [body_of_digits h.1]; exact h.1⟩
  cases l with
  | plain ds =>
    obtain ⟨hne, hds⟩ := hex_of_digits h.1
    refine ⟨hne, fun c hc => (hds c hc).imp_left ?_⟩
    rintro ⟨d, hd, hx⟩
    exact ascii_of_hex hd hx
  | sized width base ds =>
    obtain ⟨hdig, hwidth, hbase⟩ := h
    obtain ⟨hne, hds⟩ := hex_of_digits hdig
    refine ⟨⟨hwidth.1, fun c hc => isDigit_of_isAsciiDigit (hwidth.2 c hc)⟩, hbase, hne,
      fun c hc => (hds c hc).imp_left ?_⟩
    rintro ⟨d, -, hx⟩
    rw [hx]
    rfl

theorem Proper.number_eq {l : Literal} (h : l.Proper) : l.number = l.denotes := by
  rw [number, body_of_digits h.1, denotes]

end Literal

namespace Written

/-- A line of the language. -/
structure Proper (w : Written) : Prop where
  indent : ∀ c ∈ w.indent, isBlank c = true
  start : ∀ c, w.feature.head? = some c → isFeatureStart c = true
  ne_nil : w.feature ≠ []
  chars : ∀ c ∈ w.feature, isFeatureChar c = true
  range : w.range.Numerals
  ordered : w.range.Ordered
  value : ∀ v, w.value = some v → (∀ c ∈ v.before, isBlank c = true) ∧
    (∀ c ∈ v.after, isBlank c = true) ∧ v.literal.Proper ∧ v.literal.denotes < 2 ^ w.range.bits
  blanks : w.value = none → ∀ c ∈ w.trail, isBlank c = true
  trail : ∀ c ∈ w.trail, isSpace c = true ∧ c ≠ '\n'
  comment : ∀ c ∈ commentText w.comment, c ≠ '\n' ∧ c ≠ '{' ∧ c ≠ '}'

/-- What a line sets: the value it says, or 1. -/
def number (w : Written) : ℕ :=
  match w.value with
  | none => 1
  | some v => v.literal.denotes

end Written

/-- No line break and no brace. -/
def Plain (s : Str) : Prop := ∀ c ∈ s, c ≠ '\n' ∧ c ≠ '{' ∧ c ≠ '}'

theorem plain_append {s t : Str} : Plain (s ++ t) ↔ Plain s ∧ Plain t := List.forall_mem_append

theorem plain_cons {c : Char} {s : Str} :
    Plain (c :: s) ↔ (c ≠ '\n' ∧ c ≠ '{' ∧ c ≠ '}') ∧ Plain s := List.forall_mem_cons

theorem plain_nil : Plain [] := fun _ hc => absurd hc List.not_mem_nil

theorem plain_of {p : Char → Bool} (hp : p '\n' = false ∧ p '{' = false ∧ p '}' = false) {s : Str}
    (h : ∀ c ∈ s, p c = true) : Plain s := by
  intro c hc
  have hpc := h c hc
  refine ⟨?_, ?_, ?_⟩
  · rintro rfl
    rw [hp.1] at hpc
    cases hpc
  · rintro rfl
    rw [hp.2.1] at hpc
    cases hpc
  · rintro rfl
    rw [hp.2.2] at hpc
    cases hpc

theorem plain_digits {d : Str} (h : IsNumeral d) : Plain d := plain_of (by decide) h.2

theorem plain_blanks {s : Str} (h : ∀ c ∈ s, isBlank c = true) : Plain s := plain_of (by decide) h

theorem Range.Numerals.plain {r : Range} (h : r.Numerals) : Plain r.text := by
  cases r with
  | whole => exact plain_nil
  | one i =>
    have hi := plain_digits (h i (List.mem_singleton_self i))
    rw [Range.text, plain_cons, plain_append]
    exact ⟨by decide, hi, plain_cons.mpr ⟨by decide, plain_nil⟩⟩
  | two hi lo =>
    have hhi := plain_digits (h hi List.mem_cons_self)
    have hlo := plain_digits (h lo (List.mem_cons_of_mem _ (List.mem_singleton_self lo)))
    rw [Range.text, plain_cons, plain_append, plain_cons, plain_append]
    exact ⟨by decide, hhi, by decide, hlo, plain_cons.mpr ⟨by decide, plain_nil⟩⟩

theorem plain_of_inWord {s : Str} (h : ∀ c ∈ s, InWord c) : Plain s :=
  plain_of (p := fun c => decide (InWord c)) (by decide) fun c hc => decide_eq_true (h c hc)

theorem inWord_underscored {ds : Str} (h : ∀ c ∈ ds, (hex? c).isSome = true ∨ c = '_') :
    ∀ c ∈ ds, InWord c := by
  intro c hc
  rcases h c hc with hx | rfl
  · exact inWord_of_hex hx
  · decide

theorem Literal.Proper.plain {l : Literal} (h : l.Proper) : Plain l.text := by
  have hshape := h.accepted.1
  cases l with
  | plain ds =>
    refine plain_of_inWord fun c hc => ?_
    rcases hshape.2 c hc with hc | rfl
    · exact inWord_of_le hc (by decide) (by decide)
    · decide
  | sized width base ds =>
    obtain ⟨-, hbase, -, hhex⟩ := hshape
    have hb : Plain [base] := plain_of_inWord fun c hc => by
      rw [List.mem_singleton.mp hc]
      exact inWord_of_bases hbase
    rw [Literal.text, plain_append, plain_cons, plain_cons]
    exact ⟨plain_digits h.2.1, by decide, hb base (List.mem_singleton_self base),
      plain_of_inWord (inWord_underscored hhex)⟩

namespace Written

variable {w : Written}

theorem Proper.plain (h : w.Proper) : Plain w.text := by
  have hvalue : Plain (valueText w.value) := by
    cases hv : w.value with
    | none => exact plain_nil
    | some v =>
      obtain ⟨hbefore, hafter, hlit, -⟩ := h.value v hv
      rw [valueText, plain_append, plain_cons, plain_append]
      exact ⟨plain_blanks hbefore, by decide, plain_blanks hafter, hlit.plain⟩
  have htrail : Plain w.trail := by
    refine fun c hc => ⟨(h.trail c hc).2, ?_, ?_⟩ <;> rintro rfl <;>
      exact absurd (h.trail _ hc).1 (by decide)
  rw [text, plain_append, plain_append, plain_append, plain_append, plain_append]
  exact ⟨plain_blanks h.indent, plain_of (by decide) h.chars, h.range.plain, hvalue, htrail,
    h.comment⟩

theorem Proper.accepted (h : w.Proper) : w.Accepted where
  indent := h.indent
  start := h.start
  ne_nil := h.ne_nil
  chars := h.chars
  range := h.range.digits
  value v hv := by
    obtain ⟨hbefore, hafter, hlit, -⟩ := h.value v hv
    exact ⟨hbefore, hafter, hlit.accepted⟩
  blanks := h.blanks
  spaces c hc := (h.trail c hc).1
  plain := ⟨fun hm => (h.plain _ hm).1 rfl, fun hm => (h.plain _ hm).2.1 rfl,
    fun hm => (h.plain _ hm).2.2 rfl⟩

theorem Proper.fits (h : w.Proper) : w.Fits := by
  intro v hv
  obtain ⟨-, -, hlit, hlt⟩ := h.value v hv
  rw [hlit.number_eq, Range.width_eq h.ordered, Fasm.fits, if_neg (by omega), if_neg]
  rw [Int.toNat_natCast, Nat.one_shiftLeft]
  exact not_le.mpr hlt

/-- What a proper line says, without the reader's words. -/
theorem Proper.feature?_eq (h : w.Proper) : w.feature? =
    { feature := w.feature, start := w.range.first, end_ := w.range.last, value := w.number,
      valueFormat := w.value.map fun v => v.literal.format } := by
  have hnumber : w.feature?.value = w.number := by
    unfold feature? number
    cases hv : w.value with
    | none => rfl
    | some v => exact (h.value v hv).2.2.1.number_eq
  unfold feature? at hnumber ⊢
  simp only [h.range.rangeOf_eq]
  rw [← hnumber]

end Written

/-- A line without a feature. -/
theorem parse_comment {bl : Str} (hbl : ∀ c ∈ bl, isBlank c = true) {cm : Option Str}
    (hcm : Plain (commentText cm)) : parseFasmLine (bl ++ commentText cm) = .ok ⟨none, cm⟩ := by
  have hplain : Plain (bl ++ commentText cm) := plain_append.mpr ⟨plain_blanks hbl, hcm⟩
  have hbrace : ¬ ('{' ∈ bl ++ commentText cm ∨ '}' ∈ bl ++ commentText cm) :=
    not_or.mpr ⟨fun hm => (hplain _ hm).2.1 rfl, fun hm => (hplain _ hm).2.2 rfl⟩
  have hmatch : matchLine (bl ++ commentText cm) = some ⟨none, none, none, none, cm⟩ := by
    unfold matchLine
    rw [dropWhile_comment hbl]
    cases cm with
    | none => rfl
    | some cm =>
      have hnl : '\n' ∉ cm := fun hm => (hcm _ (List.mem_cons_of_mem _ hm)).1 rfl
      have hcomment : matchComment ('#' :: cm) = some (some cm) := by
        unfold matchComment
        exact if_neg hnl
      unfold commentText
      dsimp only
      rw [if_neg (by decide), hcomment]
      rfl
  unfold parseFasmLine
  rw [if_neg hbrace, rdropWhile_newline fun hm => (hplain _ hm).1 rfl, hmatch]

/-- **Every line of the subset is read as what it says** if `int` takes its decimal numbers, whatever
blanks stand between its parts, and a line without a feature as its comment. -/
theorem parse_proper :
    (∀ w : Written, w.Proper → w.Short → parseFasmLine w.text = .ok
      ⟨some { feature := w.feature, start := w.range.first, end_ := w.range.last,
              value := w.number, valueFormat := w.value.map fun v => v.literal.format },
        w.comment⟩) ∧
      ∀ (bl : Str) (cm : Option Str), (∀ c ∈ bl, isBlank c = true) → Plain (commentText cm) →
        parseFasmLine (bl ++ commentText cm) = .ok ⟨none, cm⟩ := by
  refine ⟨fun w h hs => ?_, fun bl cm hbl hcm => parse_comment hbl hcm⟩
  rw [Written.parse_written h.accepted hs h.fits, h.feature?_eq]

/-! ### What is read outside the language -/

/-- Digits of another script in the width, a prefix that `int` takes off, or a number that does not
fit the width. -/
def Literal.Odd : Literal → Prop
  | .plain _ => False
  | .sized width base ds => (∃ c ∈ width, isAsciiDigit c = false) ∨
      (Literal.sized width base ds).body ≠ (Literal.sized width base ds).digits ∨
        2 ^ digitsValue width ≤ (Literal.sized width base ds).number

namespace Written

/-- Digits of another script in the range, a range that runs backwards, or an odd literal. -/
def Odd (w : Written) : Prop :=
  (∃ d ∈ w.range.numbers, ∃ c ∈ d, isAsciiDigit c = false) ∨ ¬ w.range.Ordered ∨
    ∃ v, w.value = some v ∧ v.literal.Odd

/-- The literals fit the widths that are written. -/
def InWidth (w : Written) : Prop := ∀ v, w.value = some v → v.literal.InWidth

end Written

/-- What is asked of a line: where a feature is read the line is of the language, and sets what it
says; where none is read there is none. -/
structure ReadsRight (ln : Str) : Prop where
  feature : ∀ l f, parseFasmLine ln = .ok l → l.setFeature = some f →
    ∃ w : Written, w.Proper ∧ w.InWidth ∧ w.text = ln ∧ f.value = w.number ∧
      f.value < 2 ^ w.range.bits
  none : ∀ l, parseFasmLine ln = .ok l → l.setFeature = none →
    ∃ bl cm, (∀ c ∈ bl, isBlank c = true) ∧ ln = bl ++ commentText cm

theorem digits_ascii {d : Str} (hd : d ≠ [] ∧ ∀ c ∈ d, isDigit c = true)
    (h : ¬ ∃ c ∈ d, isAsciiDigit c = false) : IsNumeral d := by
  refine ⟨hd.1, fun c hc => ?_⟩
  by_contra hne
  exact h ⟨c, hc, Bool.eq_false_iff.mpr hne⟩

theorem Literal.proper_of_not_odd {l : Literal} (h : l.Accepted) (hodd : ¬ l.Odd) :
    l.Proper ∧ l.InWidth := by
  cases l with
  | plain ds => exact ⟨⟨h.2, trivial⟩, trivial⟩
  | sized width base ds =>
    obtain ⟨⟨hwidth, hbase, -, -⟩, hdig⟩ := h
    obtain ⟨hascii, hodd⟩ := not_or.mp hodd
    obtain ⟨hbody, hlt⟩ := not_or.mp hodd
    have hnum : IsNumeral width := digits_ascii hwidth hascii
    rw [not_not.mp hbody] at hdig
    have hproper : (sized width base ds).Proper := ⟨hdig, hnum, hbase⟩
    refine ⟨hproper, ?_⟩
    rw [not_le, hproper.number_eq, digitsValue_of_digits hnum.2] at hlt
    exact hlt

theorem Literal.Proper.not_odd {l : Literal} (h : l.Proper) (hw : l.InWidth) : ¬ l.Odd := by
  cases l with
  | plain ds => exact id
  | sized width base ds =>
    rintro (⟨c, hc, hascii⟩ | hbody | hle)
    · rw [h.2.1.2 c hc] at hascii
      cases hascii
    · exact hbody (body_of_digits h.1)
    · rw [h.number_eq, digitsValue_of_digits h.2.1.2] at hle
      exact absurd hw (not_lt.mpr hle)

namespace Written

variable {w w' : Written}

/-- A line that is read and is not odd is of the language. -/
theorem Accepted.proper (h : w.Accepted) (hfits : w.Fits) (hodd : ¬ w.Odd) :
    w.Proper ∧ w.InWidth := by
  obtain ⟨hnumbers, hodd⟩ := not_or.mp hodd
  obtain ⟨hord, hliteral⟩ := not_or.mp hodd
  have hord : w.range.Ordered := not_not.mp hord
  have hlit : ∀ v, w.value = some v → v.literal.Proper ∧ v.literal.InWidth := fun v hv =>
    Literal.proper_of_not_odd (h.value v hv).2.2 fun ho => hliteral ⟨v, hv, ho⟩
  have htext : w.text = w.indent ++ (w.feature ++ (w.range.text ++ (valueText w.value ++ (w.trail ++
    commentText w.comment)))) := rfl
  refine ⟨?_, fun v hv => (hlit v hv).2⟩
  exact {
    indent := h.indent
    start := h.start
    ne_nil := h.ne_nil
    chars := h.chars
    range := fun d hd => digits_ascii (h.range d hd) fun hc => hnumbers ⟨d, hd, hc⟩
    ordered := hord
    value := fun v hv => by
      obtain ⟨hbefore, hafter, -⟩ := h.value v hv
      have hlt := fits_lt (hfits v hv)
      rw [Range.width_eq hord, Int.toNat_natCast, (hlit v hv).1.number_eq] at hlt
      exact ⟨hbefore, hafter, (hlit v hv).1, hlt⟩
    blanks := h.blanks
    trail := fun c hc => ⟨h.spaces c hc, by
      rintro rfl
      exact h.plain.1 (by rw [htext]; simp [hc])⟩
    comment := fun c hc => by
      have hmem : c ∈ w.text := by
        rw [htext]
        simp [hc]
      refine ⟨?_, ?_, ?_⟩ <;> rintro rfl
      · exact h.plain.1 hmem
      · exact h.plain.2.1 hmem
      · exact h.plain.2.2 hmem }

/-- **A line is written in one way**, as far as its range and its value go. -/
theorem text_unique (h : w.Accepted) (h' : w'.Accepted) (he : w.text = w'.text) :
    w.range = w'.range ∧ w.value.map Value.literal = w'.value.map Value.literal := by
  have hgroups : w.groups = w'.groups :=
    Option.some.inj (h.matchLine_text ▸ he ▸ h'.matchLine_text)
  refine ⟨Range.eq_of_groups (congrArg Groups.hi hgroups) (congrArg Groups.lo hgroups), ?_⟩
  have hvalue := congrArg Groups.value hgroups
  unfold groups at hvalue
  cases hv : w.value with
  | none =>
    cases hv' : w'.value with
    | none => rfl
    | some v' => rw [hv, hv'] at hvalue; cases hvalue
  | some v =>
    cases hv' : w'.value with
    | none => rw [hv, hv'] at hvalue; cases hvalue
    | some v' =>
      rw [hv, hv'] at hvalue
      have htext : v.literal.text = v'.literal.text := by
        rw [← h.strip_value hv, ← h'.strip_value hv']
        exact congrArg strip (Option.some.inj hvalue)
      exact congrArg some (Literal.text_injective (h.value v hv).2.2.1 (h'.value v' hv').2.2.1 htext)

theorem Proper.not_odd (h : w.Proper) (hw : w.InWidth) : ¬ w.Odd := by
  rintro (⟨d, hd, c, hc, hascii⟩ | hord | ⟨v, hv, hodd⟩)
  · rw [(h.range d hd).2 c hc] at hascii
    cases hascii
  · exact hord h.ordered
  · exact (h.value v hv).2.2.1.not_odd (hw v hv) hodd

theorem Odd.congr (hr : w.range = w'.range)
    (hv : w.value.map Value.literal = w'.value.map Value.literal) (h : w.Odd) : w'.Odd := by
  unfold Odd at h ⊢
  rw [hr] at h
  refine h.imp_right fun h => h.imp_right ?_
  rintro ⟨v, hv', hodd⟩
  rw [hv', Option.map_some] at hv
  obtain ⟨v', hv'', hlit⟩ := Option.map_eq_some_iff.mp hv.symm
  exact ⟨v', hv'', hlit ▸ hodd⟩

end Written

/-- A line without a feature that is read. -/
theorem comment_of_parse {ln : Str} (hnl : '\n' ∉ ln) {l : FasmLine}
    (h : parseFasmLine ln = .ok l) (hf : l.setFeature = none) :
    ∃ bl cm, (∀ c ∈ bl, isBlank c = true) ∧ ln = bl ++ commentText cm := by
  unfold parseFasmLine at h
  split_ifs at h
  rw [rdropWhile_newline hnl] at h
  split at h
  case h_1 => cases h
  case h_2 g hg =>
    split at h
    case h_2 =>
      obtain ⟨range, -, h⟩ := bind_eq_ok.mp h
      obtain ⟨v, -, hl⟩ := bind_eq_ok.mp h
      cases hl
      cases hf
    case h_1 hfeat =>
      have hln := List.takeWhile_append_dropWhile (p := isBlank) (l := ln)
      have hblank : ∀ c ∈ ln.takeWhile isBlank, isBlank c = true := fun _ hc =>
        List.mem_takeWhile_imp hc
      unfold matchLine at hg
      dsimp only at hg
      split at hg
      case h_2 hdrop => exact ⟨_, none, hblank, by rw [commentText, ← hdrop, hln]⟩
      case h_1 c r hdrop =>
        split_ifs at hg with hstart
        · obtain ⟨cm, -, rfl⟩ := Option.map_eq_some_iff.mp hg
          cases hfeat
        · obtain ⟨cm, hcm, -⟩ := Option.map_eq_some_iff.mp hg
          obtain ⟨bl, hbl, hrest⟩ := matchComment_sound hcm
          refine ⟨ln.takeWhile isBlank ++ bl, cm, fun d hd => ?_, ?_⟩
          · exact (List.mem_append.mp hd).elim (hblank d) (hbl d)
          · rw [List.append_assoc, ← hrest, hln]

/-- An odd line that is read is not read right. -/
theorem Written.Odd.not_readsRight {w : Written} (hodd : w.Odd) (hw : w.Accepted) (hs : w.Short)
    (hfits : w.Fits) : ¬ ReadsRight w.text := by
  intro h
  obtain ⟨w', hproper, hwidth, htext, -⟩ := h.feature _ _ (Written.parse_written hw hs hfits) rfl
  obtain ⟨hr, hv⟩ := Written.text_unique hw hproper.accepted htext.symm
  exact hproper.not_odd hwidth (hodd.congr hr hv)

/-- **What the reader reads.** A line is read right exactly when it is no line outside the language
that the reader takes. -/
theorem reads_right_iff {ln : Str} (hnl : '\n' ∉ ln) : ReadsRight ln ↔
    ∀ w : Written, w.Accepted → w.Short → w.Fits → w.text = ln → ¬ w.Odd := by
  constructor
  · rintro h w hw hs hfits rfl hodd
    exact hodd.not_readsRight hw hs hfits h
  · intro h
    refine ⟨fun l f hok hf => ?_, fun l hok hf => comment_of_parse hnl hok hf⟩
    obtain ⟨w, hw, hs, hfits, rfl⟩ := written_of_parse hnl hok hf
    obtain ⟨hproper, hwidth⟩ := hw.proper hfits (h w hw hs hfits rfl)
    rw [Written.parse_written hw hs hfits] at hok
    cases hok
    obtain rfl := Option.some.inj hf
    have hvalue : w.feature?.value = w.number := by rw [hproper.feature?_eq]
    refine ⟨w, hproper, hwidth, rfl, hvalue, ?_⟩
    rw [hvalue]
    unfold Written.number
    cases hv : w.value with
    | none => exact Nat.one_lt_two_pow (by cases w.range <;> simp [Range.bits])
    | some v => exact (hproper.value v hv).2.2.2

/-- `A[7:0] = 8'hf_0`, a tab and a comment. -/
def hexLine : Written where
  indent := [' ']
  feature := "A.B".toList
  range := .two ['7'] ['0']
  value := some ⟨[' '], [' '], .sized ['8'] 'h' "f_0".toList⟩
  trail := ['\t']
  comment := some ['c']

theorem proper_hexLine : hexLine.Proper where
  indent := List.all_eq_true.mp rfl
  start c hc := by
    obtain rfl := Option.some.inj hc
    rfl
  ne_nil := List.cons_ne_nil _ _
  chars := List.all_eq_true.mp rfl
  range d hd := by
    rcases List.mem_cons.mp hd with rfl | hd
    · decide
    · rw [List.mem_singleton.mp hd]
      decide
  ordered := show digitsValue ['0'] ≤ digitsValue ['7'] by decide
  value v hv := by
    obtain rfl := Option.some.inj hv
    refine ⟨List.all_eq_true.mp rfl, List.all_eq_true.mp rfl,
      ⟨⟨List.cons_ne_nil 'f' ['0'], fun c hc => ?_⟩, by decide, rfl⟩, by decide⟩
    have hdigits : (Literal.sized ['8'] 'h' "f_0".toList).digits = ['f', '0'] := by decide
    rw [hdigits] at hc
    rcases List.mem_cons.mp hc with rfl | hc
    · exact ⟨15, by decide, by decide⟩
    · rw [List.mem_singleton.mp hc]
      exact ⟨0, by decide, by decide⟩
  blanks := nofun
  trail c hc := by
    rw [List.mem_singleton.mp hc]
    decide
  comment := plain_of (p := fun c => decide (c.toNat < 0x7B ∧ c ≠ '\n')) (by decide)
    (List.all_eq_true.mp rfl)

theorem short_hexLine : hexLine.Short := by
  refine ⟨fun d hd => ?_, fun v hv => ?_⟩
  · rcases List.mem_cons.mp hd with rfl | hd
    · decide
    · rw [List.mem_singleton.mp hd]
      decide
  · obtain rfl := Option.some.inj hv
    exact fun h => absurd h (by decide)

theorem parse_proper_hex : parseFasmLine " A.B[7:0] = 8'hf_0\t#c".toList = .ok
    ⟨some { feature := "A.B".toList, start := some 0, end_ := some 7, value := 240,
            valueFormat := some .verilogHex }, some ['c']⟩ ∧
      parseFasmLine "\t# only a comment".toList = .ok ⟨none, some " only a comment".toList⟩ :=
  ⟨parse_proper.1 hexLine proper_hexLine short_hexLine,
    parse_proper.2 ['\t'] (some " only a comment".toList) (List.all_eq_true.mp rfl)
      (plain_of (p := fun c => decide (c.toNat < 0x7B ∧ c ≠ '\n')) (by decide)
        (List.all_eq_true.mp rfl))⟩

/-- `A = 00…01`, with 4300 zeros. -/
def longLine : Written where
  indent := []
  feature := ['A']
  range := .whole
  value := some ⟨[' '], [' '], .plain (List.replicate 4300 '0' ++ ['1'])⟩
  trail := []
  comment := none

theorem digits_longLine :
    (Literal.plain (List.replicate 4300 '0' ++ ['1'])).digits = List.replicate 4300 '0' ++ ['1'] := by
  rw [Literal.digits, dropUnderscores, List.filter_append, List.filter_replicate]
  rfl

theorem proper_longLine : longLine.Proper where
  indent := nofun
  start c hc := by
    obtain rfl := Option.some.inj hc
    rfl
  ne_nil := List.cons_ne_nil _ _
  chars := List.all_eq_true.mp rfl
  range := nofun
  ordered := trivial
  value v hv := by
    obtain rfl := Option.some.inj hv
    refine ⟨List.all_eq_true.mp rfl, List.all_eq_true.mp rfl, ⟨⟨?_, fun c hc => ?_⟩, trivial⟩, ?_⟩
    · rw [digits_longLine]
      exact List.append_ne_nil_of_right_ne_nil _ (List.cons_ne_nil _ _)
    · rw [digits_longLine] at hc
      rcases List.mem_append.mp hc with hc | hc
      · rw [List.eq_of_mem_replicate hc]
        exact ⟨0, by decide, by decide⟩
      · rw [List.mem_singleton.mp hc]
        exact ⟨1, by decide, by decide⟩
    · have hzeros : (List.replicate 4300 '0').filterMap hex? = List.replicate 4300 0 :=
        List.filterMap_replicate_of_some rfl
      have hone : (Literal.plain (List.replicate 4300 '0' ++ ['1'])).denotes = 1 := by
        rw [Literal.denotes, digits_longLine, numberOf, List.filterMap_append, hzeros,
          List.reverse_append, List.reverse_replicate, Nat.ofDigits_append_replicate_zero]
        rfl
      rw [hone]
      decide
  blanks := nofun
  trail := nofun
  comment := nofun

/-- A line of the subset that `int` does not read to the end. -/
theorem not_parse_proper : ¬ ∀ w : Written, w.Proper → parseFasmLine w.text = .ok
    ⟨some { feature := w.feature, start := w.range.first, end_ := w.range.last,
            value := w.number, valueFormat := w.value.map fun v => v.literal.format },
      w.comment⟩ := by
  intro h
  obtain ⟨w, hw, hs, -, he⟩ := written_of_parse (fun hm => (proper_longLine.plain _ hm).1 rfl)
    (h longLine proper_longLine) rfl
  obtain ⟨-, hv⟩ := Written.text_unique proper_longLine.accepted hw he.symm
  obtain ⟨v, hv', hlit⟩ := Option.map_eq_some_iff.mp hv.symm
  have hlen := hs.2 v hv'
  rw [hlit, Literal.Short, Literal.body, if_neg (by decide), digits_longLine] at hlen
  have hle := hlen rfl
  rw [List.length_append, List.length_replicate] at hle
  exact absurd hle (by decide)

theorem reads_right_iff_hex : ReadsRight hexLine.text := by
  apply (reads_right_iff (by decide)).mpr
  intro w hw _ _ he hodd
  obtain ⟨hr, hv⟩ := Written.text_unique hw proper_hexLine.accepted he
  refine proper_hexLine.not_odd (fun v hv => ?_) (hodd.congr hr hv)
  obtain rfl := Option.some.inj hv
  exact show (240 : ℕ) < 2 ^ 8 by decide

/-- `A = 2'b0b1` sets 1: `int` takes the `0b` off. -/
theorem not_reads_right : ¬ ∀ ln : Str, '\n' ∉ ln → ReadsRight ln := by
  intro h
  let w : Written := ⟨[], ['A'], .whole, some ⟨[' '], [' '], .sized ['2'] 'b' "0b1".toList⟩, [], none⟩
  have hw : w.Accepted := {
    indent := nofun
    start := fun c hc => by
      obtain rfl := Option.some.inj hc
      rfl
    ne_nil := List.cons_ne_nil _ _
    chars := List.all_eq_true.mp rfl
    range := nofun
    value := fun v hv => by
      obtain rfl := Option.some.inj hv
      refine ⟨List.all_eq_true.mp rfl, List.all_eq_true.mp rfl,
        ⟨⟨⟨List.cons_ne_nil _ _, List.all_eq_true.mp rfl⟩, rfl, List.cons_ne_nil _ _, ?_⟩,
          List.cons_ne_nil '1' [], fun c hc => ?_⟩⟩
      · exact fun c hc => Or.inl (List.all_eq_true.mp
          (show "0b1".toList.all (fun c => (hex? c).isSome) = true by decide) c hc)
      · have hbody : (Literal.sized ['2'] 'b' "0b1".toList).body = ['1'] := by decide
        rw [hbody, List.mem_singleton] at hc
        rw [hc]
        exact ⟨1, by decide, by decide⟩
    blanks := nofun
    spaces := nofun
    plain := by decide }
  have hfits : w.Fits := fun v hv => by
    obtain rfl := Option.some.inj hv
    decide
  have hs : w.Short := ⟨nofun, fun v hv => by
    obtain rfl := Option.some.inj hv
    exact fun h => absurd h (by decide)⟩
  have hodd : w.Odd := Or.inr (Or.inr ⟨_, rfl, Or.inr (Or.inl (by decide))⟩)
  exact hodd.not_readsRight hw hs hfits (h w.text (by decide))

end Fasm
end Xc7Tools
