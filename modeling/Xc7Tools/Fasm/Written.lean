/-
# fasm_fast: lines as they are written

A line that sets a feature is written from an indent, the feature, a range, a
value and a comment (`Written`). Every line so written is read as what it says
(`parse_written`), whatever blanks stand between its parts; and a line that is
read as setting a feature is so written (`written_of_parse`).

Key definitions: `Range`, `Literal`, `Written`.
Key theorems: `Literal.parseValue_text`, `Literal.of_parseValue`, `Accepted.matchLine_text`,
`parse_written`, `written_of_parse`.
-/
import Xc7Tools.Fasm.Reading
import Xc7Tools.Lib.Decimal

namespace Xc7Tools
namespace Fasm

open Str Checked

/-! ### A range -/

/-- A character between `0` and `z`. -/
def InWord (c : Char) : Prop := 0x30 ≤ c.toNat ∧ c.toNat ≤ 0x7A

instance : DecidablePred InWord := fun _ => inferInstanceAs (Decidable (_ ∧ _))

theorem InWord.ne {c : Char} (h : InWord c) : isSpace c = false ∧ c ≠ '#' := by
  unfold InWord at h
  refine ⟨?_, ?_⟩
  · simp only [isSpace, Bool.or_eq_false_iff, Bool.and_eq_false_iff, decide_eq_false_iff_not,
      beq_eq_false_iff_ne]
    omega
  · rintro rfl
    exact absurd h (by decide)

theorem inWord_of_le {c lo hi : Char} (h : lo ≤ c ∧ c ≤ hi) (hlo : 0x30 ≤ lo.toNat)
    (hhi : hi.toNat ≤ 0x7A) : InWord c :=
  ⟨hlo.trans h.1, (show c.toNat ≤ hi.toNat from h.2).trans hhi⟩

theorem inWord_of_hex {c : Char} (h : (hex? c).isSome = true) : InWord c := by
  unfold hex? at h
  split_ifs at h with h0 ha hA
  · exact inWord_of_le h0 (by decide) (by decide)
  · exact inWord_of_le ha (by decide) (by decide)
  · exact inWord_of_le hA (by decide) (by decide)
  · cases h

theorem inWord_of_bases {c : Char} (h : (bases c).isSome = true) : InWord c := by
  have hlower : c.toLower = c ∨ ('A' ≤ c ∧ c ≤ 'Z') := by
    unfold Char.toLower
    split_ifs with hc
    · exact Or.inr hc
    · exact Or.inl rfl
  rcases hlower with he | hc
  · unfold bases at h
    rw [he] at h
    split at h
    · decide
    · decide
    · decide
    · decide
    · cases h
  · exact inWord_of_le hc (by decide) (by decide)

/-- Nothing, `[i]` or `[hi:lo]`. -/
inductive Range where
  | whole
  | one (i : Str)
  | two (hi lo : Str)

namespace Range

def text : Range → Str
  | whole => []
  | one i => '[' :: (i ++ [']'])
  | two hi lo => '[' :: (hi ++ ':' :: (lo ++ [']']))

def hi? : Range → Option Str
  | whole => none
  | one i => some i
  | two hi _ => some hi

def lo? : Range → Option Str
  | two _ lo => some lo
  | _ => none

/-- The texts of its numbers. -/
def numbers : Range → List Str
  | whole => []
  | one i => [i]
  | two hi lo => [hi, lo]

/-- `\d+` -/
def Digits (r : Range) : Prop := ∀ d ∈ r.numbers, d ≠ [] ∧ ∀ c ∈ d, isDigit c = true

/-- Its numbers have no more digits than `int` takes. -/
def Short (r : Range) : Prop := ∀ d ∈ r.numbers, d.length ≤ maxStrDigits

/-- `hi` is no less than `lo`. -/
def Ordered : Range → Prop
  | two hi lo => digitsValue lo ≤ digitsValue hi
  | _ => True

/-- How many bits it has. -/
def bits : Range → ℕ
  | two hi lo => digitsValue hi - digitsValue lo + 1
  | _ => 1

theorem rangeText {r : Range} (h : r.Digits) : RangeText r.text r.hi? r.lo? := by
  cases r with
  | whole => exact .none
  | one i =>
    obtain ⟨hne, hd⟩ := h i (List.mem_singleton_self i)
    exact .one hne hd
  | two hi lo =>
    obtain ⟨hne, hd⟩ := h hi List.mem_cons_self
    obtain ⟨hne', hd'⟩ := h lo (List.mem_cons_of_mem _ (List.mem_singleton_self lo))
    exact .two hne hd hne' hd'

theorem exists_of_rangeText {rt : Str} {hi lo : Option Str} (h : RangeText rt hi lo) :
    ∃ r : Range, r.Digits ∧ r.text = rt ∧ r.hi? = hi ∧ r.lo? = lo := by
  cases h with
  | none => exact ⟨whole, nofun, rfl, rfl, rfl⟩
  | @one d hne hd =>
    refine ⟨.one d, fun e he => ?_, rfl, rfl, rfl⟩
    rw [List.mem_singleton.mp he]
    exact ⟨hne, hd⟩
  | @two d e hne hd hne' he =>
    refine ⟨.two d e, fun f hf => ?_, rfl, rfl, rfl⟩
    rcases List.mem_cons.mp hf with rfl | hf
    · exact ⟨hne, hd⟩
    · rw [List.mem_singleton.mp hf]
      exact ⟨hne', he⟩

/-- The groups tell the range. -/
theorem eq_of_groups {r r' : Range} (hhi : r.hi? = r'.hi?) (hlo : r.lo? = r'.lo?) : r = r' := by
  cases r <;> cases r' <;> simp_all [hi?, lo?]

/-- `int` reads the numbers that are short. -/
theorem startEnd_eq_ok {r : Range} {x : Option ℕ × Option ℕ} :
    startEnd r.hi? r.lo? = .ok x ↔ r.Short ∧ x = rangeOf r.hi? r.lo? := by
  cases r with
  | whole => simp [startEnd, rangeOf, hi?, lo?, Short, numbers, eq_comm]
  | one i =>
    simp only [startEnd, hi?, lo?, bind_eq_ok, pure_eq_ok, intGroup_eq_ok, Short, numbers,
      List.forall_mem_singleton, rangeOf]
    constructor
    · rintro ⟨_, ⟨h, rfl⟩, rfl⟩
      exact ⟨h, rfl⟩
    · rintro ⟨h, rfl⟩
      exact ⟨_, ⟨h, rfl⟩, rfl⟩
  | two hi lo =>
    simp only [startEnd, hi?, lo?, bind_eq_ok, pure_eq_ok, intGroup_eq_ok, Short, numbers,
      List.forall_mem_cons, rangeOf]
    constructor
    · rintro ⟨_, ⟨hlo, rfl⟩, _, ⟨hhi, rfl⟩, rfl⟩
      exact ⟨⟨hhi, hlo, fun _ h => absurd h List.not_mem_nil⟩, rfl⟩
    · rintro ⟨⟨hhi, hlo, -⟩, rfl⟩
      exact ⟨_, ⟨hlo, rfl⟩, _, ⟨hhi, rfl⟩, rfl⟩

theorem width_eq {r : Range} (h : r.Ordered) : width (rangeOf r.hi? r.lo?) = r.bits := by
  cases r with
  | whole => rfl
  | one i => rfl
  | two hi lo =>
    have hle : digitsValue lo ≤ digitsValue hi := h
    have hwidth : width (rangeOf (two hi lo).hi? (two hi lo).lo?) =
        (digitsValue hi : ℤ) - (digitsValue lo : ℤ) + 1 := rfl
    rw [hwidth, bits]
    omega

end Range

/-! ### A value -/

/-- The digits of `int(s, radix)` for the number `Nat.ofDigits radix` of them. -/
def DigitsOf (radix : ℕ) (s : Str) : Prop := s ≠ [] ∧ ∀ c ∈ s, ∃ d < radix, hex? c = some d

def numberOf (radix : ℕ) (s : Str) : ℕ := Nat.ofDigits radix (s.filterMap hex?).reverse

theorem mapM_hex {radix : ℕ} : ∀ {s : Str}, (∀ c ∈ s, ∃ d < radix, hex? c = some d) →
    (s.mapM fun c => (hex? c).filter (· < radix)) = some (s.filterMap hex?)
  | [], _ => rfl
  | c :: s, h => by
    obtain ⟨d, hd, hc⟩ := h c List.mem_cons_self
    have ih := mapM_hex fun c' hc' => h c' (List.mem_cons_of_mem _ hc')
    have hfilter : (hex? c).filter (· < radix) = some d := by
      rw [hc]
      exact Option.filter_some_pos (decide_eq_true hd)
    rw [List.mapM_cons, hfilter, ih, List.filterMap_cons_some hc]
    rfl

theorem digits_of_mapM {radix : ℕ} : ∀ {s : Str} {ds : List ℕ},
    (s.mapM fun c => (hex? c).filter (· < radix)) = some ds → ∀ c ∈ s, ∃ d < radix, hex? c = some d
  | [], _, _, _, hc => by cases hc
  | c :: s, ds, h, c', hc' => by
    rw [List.mapM_cons] at h
    simp only [Option.bind_eq_bind, Option.bind_eq_some_iff, Option.pure_def] at h
    obtain ⟨d, hd, ds', hds', -⟩ := h
    rcases List.mem_cons.mp hc' with rfl | hc'
    · obtain ⟨hc, hlt⟩ := Option.filter_eq_some_iff.mp hd
      exact ⟨d, of_decide_eq_true hlt, hc⟩
    · exact digits_of_mapM hds' c' hc'

/-- The digits are not decimal, or not too many for `int`. -/
def ShortIn (radix : ℕ) (s : Str) : Prop := radix = 10 → s.length ≤ maxStrDigits

/-- What `int(s, radix)` makes of digits: their number, behind the prefix it takes. -/
theorem intBase_eq_some {radix n : ℕ} {s : Str} : intBase radix s = some n ↔
    (DigitsOf radix (if radix = 2 then dropBinPrefix s else s) ∧
      ShortIn radix (if radix = 2 then dropBinPrefix s else s)) ∧
      n = numberOf radix (if radix = 2 then dropBinPrefix s else s) := by
  unfold intBase
  dsimp only
  generalize (if radix = 2 then dropBinPrefix s else s) = t
  by_cases ht : t = [] ∨ radix = 10 ∧ maxStrDigits < t.length
  · rw [if_pos ht]
    refine ⟨nofun, fun h => ?_⟩
    rcases ht with ht | ⟨hradix, hlen⟩
    · exact absurd ht h.1.1.1
    · exact absurd (h.1.2 hradix) (not_le.mpr hlen)
  rw [if_neg ht, Option.map_eq_some_iff]
  obtain ⟨hne, hlen⟩ := not_or.mp ht
  have hshort : ShortIn radix t := fun hradix => not_lt.mp fun h => hlen ⟨hradix, h⟩
  constructor
  · rintro ⟨ds, hds, rfl⟩
    have hdig := digits_of_mapM hds
    rw [mapM_hex hdig] at hds
    exact ⟨⟨⟨hne, hdig⟩, hshort⟩, by rw [numberOf, Option.some.inj hds]⟩
  · rintro ⟨⟨hdig, -⟩, rfl⟩
    exact ⟨_, mapM_hex hdig.2, rfl⟩

/-- A plain number, or `<width>'<base><digits>`. -/
inductive Literal where
  | plain (ds : Str)
  | sized (width : Str) (base : Char) (ds : Str)

namespace Literal

def text : Literal → Str
  | plain ds => ds
  | sized width base ds => width ++ '\'' :: base :: ds

def radix : Literal → ℕ
  | plain _ => 10
  | sized _ base _ => ((bases base).map Prod.fst).getD 0

def format : Literal → ValueFormat
  | plain _ => .plain
  | sized _ base _ => ((bases base).map Prod.snd).getD .plain

/-- The digits, without underscores. -/
def digits : Literal → Str
  | plain ds => dropUnderscores ds
  | sized _ _ ds => dropUnderscores ds

/-- The digits that `int` reads: in base 2 it takes a `0b` off them. -/
def body (l : Literal) : Str := if l.radix = 2 then dropBinPrefix l.digits else l.digits

def number (l : Literal) : ℕ := numberOf l.radix l.body

/-- The shape of `_SIZED`, or of `[0-9_]+`. -/
def Shaped : Literal → Prop
  | plain ds => ds ≠ [] ∧ ∀ c ∈ ds, ('0' ≤ c ∧ c ≤ '9') ∨ c = '_'
  | sized width base ds => (width ≠ [] ∧ ∀ c ∈ width, isDigit c = true) ∧
      (bases base).isSome = true ∧ ds ≠ [] ∧ ∀ c ∈ ds, (hex? c).isSome = true ∨ c = '_'

/-- The patterns let the literal through, and its digits are of its base. -/
def Accepted (l : Literal) : Prop := l.Shaped ∧ DigitsOf l.radix l.body

/-- A decimal literal has no more digits than `int` takes. -/
def Short (l : Literal) : Prop := ShortIn l.radix l.body

theorem matchSized_plain {ds : Str} (h : (plain ds).Shaped) : matchSized ds = none := by
  have hq : '\'' ∉ ds := fun hm => by
    rcases h.2 _ hm with h | h
    · exact absurd h (by decide)
    · exact absurd h (by decide)
  unfold matchSized
  split
  · next _ _ base digits _ hdrop =>
    exact absurd ((List.dropWhile_sublist isDigit).subset (hdrop ▸ List.mem_cons_self)) hq
  · rfl

theorem matchSized_sized {width ds : Str} {base : Char} (h : (sized width base ds).Shaped) :
    matchSized (sized width base ds).text =
      some ((sized width base ds).radix, (sized width base ds).format, ds) := by
  obtain ⟨⟨hne, hw⟩, hbase, hds, hhex⟩ := h
  obtain ⟨⟨radix, fmt⟩, hb⟩ := Option.isSome_iff_exists.mp hbase
  obtain ⟨ht, hdr⟩ := takeWhile_isDigit_append (s := base :: ds) hw
    (show isDigit '\'' = false by decide)
  obtain ⟨c, w, rfl⟩ := List.exists_cons_of_ne_nil hne
  have hall : ds ≠ [] ∧ (ds.all fun c => (hex? c).isSome || c == '_') = true := by
    refine ⟨hds, List.all_eq_true.mpr fun c hc => ?_⟩
    rw [Bool.or_eq_true, beq_iff_eq]
    exact hhex c hc
  unfold matchSized
  simp only [text, ht, hdr, Literal.radix, Literal.format, hb]
  exact if_pos hall

/-- `_parse_value` of a literal. -/
theorem parseValue_text {l : Literal} (h : l.Accepted) (hs : l.Short) :
    parseValue l.text = .ok (l.number, l.format) := by
  obtain ⟨hshape, hdig⟩ := h
  have hint : intBase l.radix l.digits = some l.number := intBase_eq_some.mpr ⟨⟨hdig, hs⟩, rfl⟩
  cases l with
  | plain ds =>
    have hall : ds ≠ [] ∧ (ds.all fun c => ('0' ≤ c ∧ c ≤ '9') || c == '_') = true := by
      refine ⟨hshape.1, List.all_eq_true.mpr fun c hc => ?_⟩
      rw [Bool.or_eq_true, beq_iff_eq, decide_eq_true_eq]
      exact hshape.2 c hc
    have hint : intBase 10 (dropUnderscores ds) = some _ := hint
    change parseValue ds = _
    unfold parseValue
    rw [matchSized_plain hshape]
    dsimp only
    rw [if_pos hall, hint]
    rfl
  | sized width base ds =>
    have hint : intBase _ (dropUnderscores ds) = some _ := hint
    unfold parseValue
    simp only [matchSized_sized hshape, hint]

theorem of_matchSized {t digits : Str} {radix : ℕ} {fmt : ValueFormat}
    (h : matchSized t = some (radix, fmt, digits)) : ∃ width base,
      (sized width base digits).Shaped ∧ (sized width base digits).text = t ∧
        (sized width base digits).radix = radix ∧ (sized width base digits).format = fmt := by
  have ht := List.takeWhile_append_dropWhile (p := isDigit) (l := t)
  unfold matchSized at h
  split at h
  case h_2 => cases h
  case h_1 c w base ds hwidth hdrop =>
    split_ifs at h with hall
    obtain ⟨⟨radix', fmt'⟩, hbase, heq⟩ := Option.map_eq_some_iff.mp h
    obtain ⟨rfl, rfl, rfl⟩ := by simpa using heq
    refine ⟨t.takeWhile isDigit, base, ⟨⟨hwidth ▸ List.cons_ne_nil c w, mem_takeWhile_isDigit⟩, ?_,
      hall.1, fun d hd => ?_⟩, ?_, ?_, ?_⟩
    · rw [hbase]
      rfl
    · have hd' := List.all_eq_true.mp hall.2 d hd
      rwa [Bool.or_eq_true, beq_iff_eq] at hd'
    · rw [text, ← hdrop, ht]
    · rw [Literal.radix, hbase]
      rfl
    · rw [Literal.format, hbase]
      rfl

/-- A value that `_parse_value` reads is a literal. -/
theorem of_parseValue {t : Str} {n : ℕ} {fmt : ValueFormat} (h : parseValue t = .ok (n, fmt)) :
    ∃ l : Literal, l.Accepted ∧ l.Short ∧ l.text = t ∧ l.number = n ∧ l.format = fmt := by
  unfold parseValue at h
  split at h
  case h_1 radix fmt' digits hsized =>
    obtain ⟨width, base, hshape, htext, hradix, hfmt⟩ := of_matchSized hsized
    split at h
    case h_2 => cases h
    case h_1 n' hint =>
      cases h
      rw [← hradix] at hint
      obtain ⟨⟨hdig, hs⟩, rfl⟩ := intBase_eq_some.mp hint
      exact ⟨sized width base digits, ⟨hshape, hdig⟩, hs, htext, rfl, hfmt⟩
  case h_2 =>
    split_ifs at h with hall
    split at h
    case h_2 => cases h
    case h_1 n' hint =>
      cases h
      obtain ⟨⟨hdig, hs⟩, rfl⟩ := intBase_eq_some.mp hint
      refine ⟨plain t, ⟨⟨hall.1, fun c hc => ?_⟩, hdig⟩, hs, rfl, rfl, rfl⟩
      have hc' := List.all_eq_true.mp hall.2 c hc
      rwa [Bool.or_eq_true, beq_iff_eq, decide_eq_true_eq] at hc'

/-- The text tells the literal. -/
theorem text_injective {l l' : Literal} (h : l.Shaped) (h' : l'.Shaped) (he : l.text = l'.text) :
    l = l' := by
  cases l with
  | plain ds =>
    cases l' with
    | plain ds' => exact congrArg plain he
    | sized width base ds' =>
      have hnone := matchSized_plain h
      rw [show ds = (sized width base ds').text from he, matchSized_sized h'] at hnone
      cases hnone
  | sized width base ds =>
    cases l' with
    | plain ds' =>
      have hnone := matchSized_plain h'
      rw [show ds' = (sized width base ds).text from he.symm, matchSized_sized h] at hnone
      cases hnone
    | sized width' base' ds' =>
      have hcut : ∀ {w b s}, (sized w b s).Shaped →
          (sized w b s).text.takeWhile isDigit = w ∧
            (sized w b s).text.dropWhile isDigit = '\'' :: b :: s := fun hs =>
        takeWhile_isDigit_append hs.1.2 (by decide)
      obtain ⟨hw, hr⟩ := hcut h
      obtain ⟨hw', hr'⟩ := hcut h'
      rw [he, hw'] at hw
      rw [he, hr'] at hr
      obtain ⟨rfl, rfl⟩ := by simpa using hr
      rw [hw]

/-- No white space and no `#` is in a literal. -/
theorem mem_text {l : Literal} (h : l.Shaped) : ∀ c ∈ l.text, isSpace c = false ∧ c ≠ '#' := by
  have hdigit : ∀ c, isDigit c = true → isSpace c = false ∧ c ≠ '#' := fun c hc =>
    ⟨isSpace_of_isDigit hc, by
      rintro rfl
      exact absurd hc (by decide)⟩
  cases l with
  | plain ds =>
    intro c hc
    apply InWord.ne
    rcases h.2 c hc with hc | rfl
    · exact inWord_of_le hc (by decide) (by decide)
    · exact ⟨by decide, by decide⟩
  | sized width base ds =>
    obtain ⟨⟨-, hw⟩, hbase, -, hhex⟩ := h
    intro c hc
    rcases List.mem_append.mp hc with hc | hc
    · exact hdigit c (hw c hc)
    rcases List.mem_cons.mp hc with rfl | hc
    · exact ⟨by decide, by decide⟩
    apply InWord.ne
    rcases List.mem_cons.mp hc with rfl | hc
    · exact inWord_of_bases hbase
    · rcases hhex c hc with hc | rfl
      · exact inWord_of_hex hc
      · exact ⟨by decide, by decide⟩

theorem text_ne_nil {l : Literal} (h : l.Shaped) : l.text ≠ [] := by
  cases l with
  | plain ds => exact h.1
  | sized width base ds => simp [text]

end Literal

/-! ### A line -/

/-- A value with the blanks around its `=`. -/
structure Value where
  before : Str
  after : Str
  literal : Literal

/-- A line that sets a feature; the trail is what stands before the comment or the end. -/
structure Written where
  indent : Str
  feature : Str
  range : Range
  value : Option Value
  trail : Str
  comment : Option Str

def commentText : Option Str → Str
  | none => []
  | some c => '#' :: c

theorem dropWhile_comment {bl : Str} (hbl : ∀ c ∈ bl, isBlank c = true) (cm : Option Str) :
    (bl ++ commentText cm).dropWhile isBlank = commentText cm := by
  rw [List.dropWhile_append_of_pos hbl]
  cases cm with
  | none => rfl
  | some cm => exact List.dropWhile_cons_of_neg (by decide)

/-- `text.rstrip("\n")` of a text without a line break. -/
theorem rdropWhile_newline {s : Str} (h : '\n' ∉ s) : s.rdropWhile (· == '\n') = s := by
  rw [List.rdropWhile_eq_self_iff]
  intro hne hlast
  exact h (beq_iff_eq.mp hlast ▸ List.getLast_mem hne)

namespace Written

def valueText : Option Value → Str
  | none => []
  | some v => v.before ++ '=' :: (v.after ++ v.literal.text)

def text (w : Written) : Str :=
  w.indent ++ (w.feature ++ (w.range.text ++ (valueText w.value ++ (w.trail ++
    commentText w.comment))))

/-- A line whose parts the patterns let through. -/
structure Accepted (w : Written) : Prop where
  indent : ∀ c ∈ w.indent, isBlank c = true
  start : ∀ c, w.feature.head? = some c → isFeatureStart c = true
  ne_nil : w.feature ≠ []
  chars : ∀ c ∈ w.feature, isFeatureChar c = true
  range : w.range.Digits
  value : ∀ v, w.value = some v → (∀ c ∈ v.before, isBlank c = true) ∧
    (∀ c ∈ v.after, isBlank c = true) ∧ v.literal.Accepted
  blanks : w.value = none → ∀ c ∈ w.trail, isBlank c = true
  spaces : ∀ c ∈ w.trail, isSpace c = true
  plain : '\n' ∉ w.text ∧ '{' ∉ w.text ∧ '}' ∉ w.text

/-- No decimal number of the line has more digits than `int` takes. -/
def Short (w : Written) : Prop := w.range.Short ∧ ∀ v, w.value = some v → v.literal.Short

/-- The value fits the range, if one is written. -/
def Fits (w : Written) : Prop :=
  ∀ v, w.value = some v → fits v.literal.number (width (rangeOf w.range.hi? w.range.lo?)) = .ok ()

/-- What the line says. -/
def feature? (w : Written) : SetFasmFeature where
  feature := w.feature
  start := (rangeOf w.range.hi? w.range.lo?).1
  end_ := (rangeOf w.range.hi? w.range.lo?).2
  value := match w.value with
    | none => 1
    | some v => v.literal.number
  valueFormat := w.value.map fun v => v.literal.format

/-- The groups of the pattern. -/
def groups (w : Written) : Groups where
  feature := some w.feature
  hi := w.range.hi?
  lo := w.range.lo?
  value := w.value.map fun v => (v.literal.text ++ w.trail).rdropWhile isBlank
  comment := w.comment

variable {w : Written} (h : w.Accepted)

include h

/-- The text behind the range begins with no feature character and no range. -/
theorem Accepted.head_tail : ∀ c, (valueText w.value ++ (w.trail ++ commentText w.comment)).head? =
    some c → isFeatureChar c = false ∧ c ≠ '[' := by
  have hspace : ∀ c, isSpace c = true → isFeatureChar c = false ∧ c ≠ '[' := by
    intro c hc
    refine ⟨?_, ?_⟩
    · by_contra hchar
      rw [isSpace_of_isFeatureChar (Bool.not_eq_false _ ▸ hchar)] at hc
      cases hc
    · rintro rfl
      exact absurd hc (by decide)
  have hcomment : ∀ {c}, (commentText w.comment).head? = some c → c = '#' := by
    intro c hc
    cases hcm : w.comment with
    | none => rw [hcm] at hc; cases hc
    | some cm => rw [hcm] at hc; exact (Option.some.inj hc).symm
  intro c hc
  cases hv : w.value with
  | none =>
    rw [hv, valueText, List.nil_append] at hc
    cases ht : w.trail with
    | nil =>
      rw [ht, List.nil_append] at hc
      rw [hcomment hc]
      decide
    | cons d t =>
      rw [ht] at hc
      obtain rfl := Option.some.inj hc
      exact hspace d (h.spaces d (ht ▸ List.mem_cons_self))
  | some v =>
    rw [hv, valueText] at hc
    cases hb : v.before with
    | nil =>
      rw [hb] at hc
      obtain rfl := Option.some.inj hc
      decide
    | cons d t =>
      rw [hb] at hc
      obtain rfl := Option.some.inj hc
      exact hspace d (isSpace_of_isBlank ((h.value v hv).1 d (hb ▸ List.mem_cons_self)))

theorem Accepted.matchComment_eq : matchComment (commentText w.comment) = some w.comment := by
  have hplain := h.plain.1
  unfold matchComment
  cases hcm : w.comment with
  | none => rfl
  | some cm =>
    have hnl : '\n' ∉ cm := fun hm => hplain (by
      rw [text, hcm, commentText]
      simp [hm])
    exact if_neg hnl

/-- The tail is cut into value and comment. -/
theorem Accepted.matchValue_eq : ∃ rest,
    matchValue (valueText w.value ++ (w.trail ++ commentText w.comment)) =
      (w.groups.value, rest) ∧ matchComment rest = some w.comment := by
  unfold groups matchValue
  cases hv : w.value with
  | none =>
    have hblank := h.blanks hv
    refine ⟨w.trail ++ commentText w.comment, ?_, ?_⟩
    · rw [valueText, List.nil_append, dropWhile_comment hblank]
      cases w.comment <;> rfl
    · have hdrop : matchComment (w.trail ++ commentText w.comment) =
          matchComment (commentText w.comment) := by
        have hnil : (commentText w.comment).dropWhile isBlank = commentText w.comment :=
          dropWhile_comment (fun _ hc => absurd hc List.not_mem_nil) w.comment
        rw [matchComment, matchComment, dropWhile_comment hblank, hnil]
      rw [hdrop, h.matchComment_eq]
  | some v =>
    obtain ⟨hbefore, hafter, hlit, -⟩ := h.value v hv
    refine ⟨commentText w.comment, ?_, h.matchComment_eq⟩
    obtain ⟨c, t, hct⟩ := List.exists_cons_of_ne_nil (Literal.text_ne_nil hlit)
    obtain ⟨hspace, hsharp⟩ := Literal.mem_text hlit c (hct ▸ List.mem_cons_self)
    have hblank : isBlank c = false := by
      by_contra hb
      rw [isSpace_of_isBlank (Bool.not_eq_false _ ▸ hb)] at hspace
      cases hspace
    -- the blanks around the `=`
    have heq : (valueText (some v) ++ (w.trail ++ commentText w.comment)).dropWhile isBlank =
        '=' :: (v.after ++ (c :: (t ++ (w.trail ++ commentText w.comment)))) := by
      rw [valueText, hct, List.append_assoc, List.dropWhile_append_of_pos hbefore]
      simp [isBlank]
    have hafter' : (v.after ++ (c :: (t ++ (w.trail ++ commentText w.comment)))).dropWhile isBlank =
        c :: (t ++ (w.trail ++ commentText w.comment)) := by
      rw [List.dropWhile_append_of_pos hafter, List.dropWhile_cons, hblank]
      rfl
    -- the value ends at the comment
    have hbody : ∀ d ∈ c :: t ++ w.trail, (d != '#') = true := by
      intro d hd
      rw [bne_iff_ne]
      rcases List.mem_append.mp hd with hd | hd
      · exact (Literal.mem_text hlit d (hct ▸ hd)).2
      · rintro rfl
        exact absurd (h.spaces _ hd) (by decide)
    have hsplit : c :: (t ++ (w.trail ++ commentText w.comment)) =
        (c :: t ++ w.trail) ++ commentText w.comment := by simp
    have htake : (commentText w.comment).takeWhile (· != '#') = [] ∧
        (commentText w.comment).dropWhile (· != '#') = commentText w.comment := by
      cases w.comment <;> exact ⟨rfl, rfl⟩
    have hc : ¬ (c = '#' ∨ isSpace c = true) := by
      rw [hspace]
      exact not_or.mpr ⟨hsharp, Bool.false_ne_true⟩
    simp only [heq, hafter']
    rw [if_neg hc, hsplit, List.takeWhile_append_of_pos hbody, List.dropWhile_append_of_pos hbody,
      htake.1, htake.2, List.append_nil, Option.map_some, hct]

/-- **The pattern takes a written line apart into its parts.** -/
theorem Accepted.matchLine_text : matchLine w.text = some w.groups := by
  obtain ⟨c, r, hfeat⟩ := List.exists_cons_of_ne_nil h.ne_nil
  have hstart : isFeatureStart c = true := h.start c (by rw [hfeat]; rfl)
  have hblank : isBlank c = false := by
    by_contra hb
    have hspace := isSpace_of_isFeatureChar (h.chars c (hfeat ▸ List.mem_cons_self))
    rw [isSpace_of_isBlank (Bool.not_eq_false _ ▸ hb)] at hspace
    cases hspace
  set tail := valueText w.value ++ (w.trail ++ commentText w.comment) with htail
  have hdrop : w.text.dropWhile isBlank = w.feature ++ (w.range.text ++ tail) := by
    rw [text, List.dropWhile_append_of_pos h.indent, hfeat, List.cons_append, List.dropWhile_cons,
      hblank]
    rfl
  have hstop : (w.range.text ++ tail).takeWhile isFeatureChar = [] ∧
      (w.range.text ++ tail).dropWhile isFeatureChar = w.range.text ++ tail := by
    cases hr : w.range with
    | whole =>
      rw [Range.text, List.nil_append]
      cases ht : tail with
      | nil => exact ⟨rfl, rfl⟩
      | cons d t =>
        have hd := (h.head_tail d (by rw [← htail, ht]; rfl)).1
        simp [hd]
    | one i => exact ⟨rfl, rfl⟩
    | two hi lo => exact ⟨rfl, rfl⟩
  have hrange : matchRange (w.range.text ++ tail) = (w.range.hi?, w.range.lo?, tail) :=
    matchRange_complete (Range.rangeText h.range) fun hc => (h.head_tail _ hc).2 rfl
  obtain ⟨rest, hvalue, hcomment⟩ := h.matchValue_eq
  have htake : (w.feature ++ (w.range.text ++ tail)).takeWhile isFeatureChar = w.feature := by
    rw [List.takeWhile_append_of_pos h.chars, hstop.1, List.append_nil]
  have hdrop' : (w.feature ++ (w.range.text ++ tail)).dropWhile isFeatureChar =
      w.range.text ++ tail := by
    rw [List.dropWhile_append_of_pos h.chars, hstop.2]
  have hcons : w.feature ++ (w.range.text ++ tail) = c :: (r ++ (w.range.text ++ tail)) := by
    rw [hfeat, List.cons_append]
  unfold matchLine
  rw [hdrop]
  dsimp only
  rw [htake, hdrop', hrange]
  dsimp only
  rw [hvalue]
  dsimp only
  rw [hcomment, hcons]
  exact if_pos hstart

theorem Accepted.strip_value {v : Value} (hv : w.value = some v) :
    strip ((v.literal.text ++ w.trail).rdropWhile isBlank) = v.literal.text := by
  have hsolid : Solid v.literal.text := fun c hc =>
    (Literal.mem_text (h.value v hv).2.2.1 c hc).1
  rw [strip_rdropWhile fun _ => isSpace_of_isBlank, strip_append_right h.spaces, hsolid.strip_eq]

theorem Accepted.readValue_eq (hs : w.Short) (hfits : w.Fits) :
    readValue (rangeOf w.range.hi? w.range.lo?) w.groups.value =
      .ok (w.feature?.value, w.feature?.valueFormat) := by
  unfold groups feature?
  cases hv : w.value with
  | none => rfl
  | some v =>
    have hlit := Literal.parseValue_text (h.value v hv).2.2 (hs.2 v hv)
    rw [Option.map_some, readValue, h.strip_value hv, hlit]
    exact bind_eq_ok.mpr ⟨_, rfl, bind_eq_ok.mpr ⟨(), hfits v hv, rfl⟩⟩

/-- **A written line is read as what it says.** -/
theorem parse_written (hs : w.Short) (hfits : w.Fits) :
    parseFasmLine w.text = .ok ⟨some w.feature?, w.comment⟩ := by
  obtain ⟨hnl, hopen, hclose⟩ := h.plain
  unfold parseFasmLine
  rw [if_neg (not_or.mpr ⟨hopen, hclose⟩), rdropWhile_newline hnl, h.matchLine_text]
  exact bind_eq_ok.mpr ⟨_, Range.startEnd_eq_ok.mpr ⟨hs.1, rfl⟩,
    bind_eq_ok.mpr ⟨_, h.readValue_eq hs hfits, rfl⟩⟩

end Written

/-! ### What is read is written -/

/-- What a comment is found in. -/
theorem matchComment_sound {s : Str} {cm : Option Str} (h : matchComment s = some cm) :
    ∃ bl, (∀ c ∈ bl, isBlank c = true) ∧ s = bl ++ commentText cm := by
  have hs := List.takeWhile_append_dropWhile (p := isBlank) (l := s)
  refine ⟨s.takeWhile isBlank, fun _ hc => List.mem_takeWhile_imp hc, ?_⟩
  unfold matchComment at h
  split at h
  case h_1 hdrop =>
    obtain rfl := Option.some.inj h
    rw [hdrop] at hs
    exact hs.symm
  case h_2 cm' hdrop =>
    split_ifs at h
    obtain rfl := Option.some.inj h
    rw [commentText, ← hdrop]
    exact hs.symm
  case h_3 => cases h

/-- The tail of a line: blanks and a comment, or a value between them. -/
theorem tail_text {x rest : Str} {raw cm : Option Str} (h : matchValue x = (raw, rest))
    (hc : matchComment rest = some cm) :
    (raw = none ∧ ∃ bl, (∀ c ∈ bl, isBlank c = true) ∧ x = bl ++ commentText cm) ∨
      ∃ before after body, (∀ c ∈ before, isBlank c = true) ∧ (∀ c ∈ after, isBlank c = true) ∧
        x = before ++ '=' :: (after ++ (body ++ commentText cm)) ∧
        body.dropWhile isSpace = body ∧ raw = some (body.rdropWhile isBlank) := by
  have hx := List.takeWhile_append_dropWhile (p := isBlank) (l := x)
  obtain ⟨bl, hbl, hrest⟩ := matchComment_sound hc
  unfold matchValue at h
  split at h
  case h_2 =>
    cases h
    exact Or.inl ⟨rfl, bl, hbl, hrest⟩
  case h_1 r hdrop =>
    split at h
    case h_2 =>
      cases h
      exact Or.inl ⟨rfl, bl, hbl, hrest⟩
    case h_1 c r' hr =>
      split_ifs at h with hstart
      · cases h
        exact Or.inl ⟨rfl, bl, hbl, hrest⟩
      · have hcut := List.takeWhile_append_dropWhile (p := (· != '#')) (l := c :: r')
        have hafter := List.takeWhile_append_dropWhile (p := isBlank) (l := r)
        obtain ⟨rfl, rfl⟩ := Prod.mk.inj h
        obtain ⟨hsharp, hspace⟩ := not_or.mp hstart
        have hbody : (c :: r').takeWhile (· != '#') ++ bl = c :: (r'.takeWhile (· != '#') ++ bl) := by
          rw [List.takeWhile_cons, if_pos (bne_iff_ne.mpr hsharp), List.cons_append]
        refine Or.inr ⟨x.takeWhile isBlank, r.takeWhile isBlank,
          (c :: r').takeWhile (· != '#') ++ bl, fun _ hc => List.mem_takeWhile_imp hc,
          fun _ hc => List.mem_takeWhile_imp hc, ?_, ?_, ?_⟩
        · rw [List.append_assoc, ← hrest, hcut, ← hr, hafter, ← hdrop, hx]
        · rw [hbody, List.dropWhile_cons, if_neg hspace]
        · rw [rdropWhile_append_right hbl]

/-- **A line that is read as setting a feature is a written one.** -/
theorem written_of_parse {ln : Str} (hnl : '\n' ∉ ln) {l : FasmLine} {f : SetFasmFeature}
    (h : parseFasmLine ln = .ok l) (hf : l.setFeature = some f) :
    ∃ w : Written, w.Accepted ∧ w.Short ∧ w.Fits ∧ w.text = ln := by
  unfold parseFasmLine at h
  split_ifs at h with hbrace
  rw [rdropWhile_newline hnl] at h
  split at h
  case h_1 => cases h
  case h_2 g hg =>
    split at h
    case h_1 =>
      cases h
      cases hf
    case h_2 feat hfeat =>
      obtain ⟨range, hrange, h⟩ := bind_eq_ok.mp h
      obtain ⟨⟨n, fmt⟩, hread, -⟩ := bind_eq_ok.mp h
      obtain ⟨indent, rt, tail, rest, rfl, hindent, hstart, hne, hchars, -, hrt, hvalue, hcomment⟩ :=
        line_text hg hfeat
      obtain ⟨r, hr, rfl, hhi, hlo⟩ := Range.exists_of_rangeText hrt
      rw [← hhi, ← hlo] at hrange
      obtain ⟨hshort, rfl⟩ := Range.startEnd_eq_ok.mp hrange
      obtain ⟨hopen, hclose⟩ := not_or.mp hbrace
      rcases tail_text hvalue hcomment with ⟨hraw, bl, hbl, rfl⟩ |
        ⟨before, after, body, hbefore, hafter, rfl, hbody, hraw⟩
      · have hnone : ∀ v : Value, (none : Option Value) ≠ some v := nofun
        refine ⟨⟨indent, feat, r, none, bl, g.comment⟩, ?_, ⟨hshort, fun v hv => absurd hv (hnone v)⟩,
          fun v hv => absurd hv (hnone v), rfl⟩
        exact ⟨hindent, hstart, hne, hchars, hr, fun v hv => absurd hv.symm (Option.some_ne_none v), fun _ => hbl,
          fun c hc => isSpace_of_isBlank (hbl c hc), hnl, hopen, hclose⟩
      · rw [hraw] at hread
        obtain ⟨⟨fmt', hparse⟩, hfits⟩ := readValue_some hread
        rw [strip_rdropWhile fun _ => isSpace_of_isBlank, strip, hbody] at hparse
        obtain ⟨lit, hlit, hlitShort, htext, rfl, -⟩ := Literal.of_parseValue hparse
        -- the white space behind the literal
        have hsplit : body = lit.text ++ body.rtakeWhile isSpace := by
          rw [htext, List.rdropWhile_append_rtakeWhile]
        have htext' : indent ++ (feat ++ (r.text ++ (before ++ '=' :: (after ++ (body ++
            commentText g.comment))))) = Written.text ⟨indent, feat, r, some ⟨before, after, lit⟩,
              body.rtakeWhile isSpace, g.comment⟩ := by
          rw [Written.text, Written.valueText]
          conv_lhs => rw [hsplit]
          simp only [List.append_assoc, List.cons_append]
        refine ⟨⟨indent, feat, r, some ⟨before, after, lit⟩, body.rtakeWhile isSpace, g.comment⟩,
          ?_, ⟨hshort, fun v hv => Option.some.inj hv ▸ hlitShort⟩, ?_, htext'.symm⟩
        · refine ⟨hindent, hstart, hne, hchars, hr, fun v hv => ?_, fun h => absurd h (Option.some_ne_none _),
            fun c hc => List.mem_rtakeWhile_imp hc, ?_⟩
          · obtain rfl := Option.some.inj hv
            exact ⟨hbefore, hafter, hlit⟩
          · rw [← htext']
            exact ⟨hnl, hopen, hclose⟩
        · intro v hv
          obtain rfl := Option.some.inj hv
          exact hfits

end Fasm
end Xc7Tools
