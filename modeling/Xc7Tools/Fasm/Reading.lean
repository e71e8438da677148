/-
# What a line's two texts say

The loop of `check_fasm_expressible.py` cuts a line at its first `=`. On a line
`parse_fasm_line` accepts, the text left of it gives the feature and its range,
and the two texts together give the value (`reading_meaning`): the first `=` is
the value's, or stands in the comment of a line that has none.

An accepted line is blanks, the feature, its range and a tail (`Shape`), and
the tail is blanks, a comment or a value (`tail_cases`).

Key definitions: `reading`, `RangeText`, `Shape`, `rangeOf`, `target`, `valueOf`.
Key theorems: `matchRange_sound`, `matchRange_complete`, `parse_sound`,
`tail_cases`, `reading_meaning`.
-/
import Xc7Tools.Fasm.Line
import Xc7Tools.Lib.Checked

namespace Xc7Tools
namespace Fasm

open Str Checked

/-- What the loop takes from a line: the texts left and right of the first
`=`, or nothing. -/
def reading (ln : Str) : Option (Str × Str) :=
  let ln := strip ln
  if ln = [] ∨ ln.head? = some '#' then none
  else (split1 '=' ln).map fun (feat, val) => (strip feat, strip val)

/-! ### Characters -/

theorem isSpace_of_isFeatureChar {c : Char} (h : isFeatureChar c = true) : isSpace c = false := by
  have hrange : 46 ≤ c.toNat ∧ c.toNat ≤ 122 := by
    have hupper : c.isUpper = decide (65 ≤ c.toNat ∧ c.toNat ≤ 90) := rfl
    have hlower : c.isLower = (97 ≤ c.toNat && c.toNat ≤ 122) := rfl
    have hdigit : c.isDigit = (48 ≤ c.toNat && c.toNat ≤ 57) := rfl
    have hchar : isFeatureChar c =
        (((c.isUpper || c.isLower) || c.isDigit) || c == '_' || c == '.') := rfl
    simp only [hchar, hupper, hlower, hdigit, Bool.or_eq_true, Bool.and_eq_true,
      decide_eq_true_eq, beq_iff_eq] at h
    rcases h with (h | rfl) | rfl
    · omega
    · decide
    · decide
  simp only [isSpace, Bool.or_eq_false_iff, Bool.and_eq_false_iff, decide_eq_false_iff_not,
    beq_eq_false_iff_ne]
  omega

theorem isSpace_of_isBlank {c : Char} (h : isBlank c = true) : isSpace c = true := by
  simp only [isBlank, Bool.or_eq_true, beq_iff_eq] at h
  rcases h with rfl | rfl <;> decide

/-! ### The range -/

/-- A text of a range and its groups. -/
inductive RangeText : Str → Option Str → Option Str → Prop where
  | none : RangeText [] none none
  | one {d : Str} (hne : d ≠ []) (hd : ∀ c ∈ d, isDigit c = true) :
      RangeText ('[' :: (d ++ [']'])) (some d) none
  | two {d e : Str} (hne : d ≠ []) (hd : ∀ c ∈ d, isDigit c = true) (hne' : e ≠ [])
      (he : ∀ c ∈ e, isDigit c = true) :
      RangeText ('[' :: (d ++ ':' :: (e ++ [']']))) (some d) (some e)

theorem mem_takeWhile_isDigit {s : Str} : ∀ c ∈ s.takeWhile isDigit, isDigit c = true := fun _ hc =>
  List.mem_takeWhile_imp hc

/-- What `matchRange` takes off is the text of a range. -/
theorem matchRange_sound {s rest : Str} {hi lo : Option Str} (h : matchRange s = (hi, lo, rest)) :
    ∃ rt, s = rt ++ rest ∧ RangeText rt hi lo := by
  unfold matchRange at h
  split at h
  case h_2 =>
    cases h
    exact ⟨[], rfl, .none⟩
  case h_1 r =>
    have hr := List.takeWhile_append_dropWhile (p := isDigit) (l := r)
    dsimp only at h
    split at h
    case h_1 d ds rest' hhi hdrop =>
      cases h
      refine ⟨_, ?_, .one (hhi ▸ List.cons_ne_nil d ds) mem_takeWhile_isDigit⟩
      rw [hdrop] at hr
      rw [List.cons_append, List.append_assoc, List.singleton_append, hr]
    case h_2 d ds r' hhi hdrop =>
      have hr' := List.takeWhile_append_dropWhile (p := isDigit) (l := r')
      split at h
      case h_1 e es rest' hlo hdrop' =>
        cases h
        refine ⟨_, ?_, .two (hhi ▸ List.cons_ne_nil d ds) mem_takeWhile_isDigit
          (hlo ▸ List.cons_ne_nil e es) mem_takeWhile_isDigit⟩
        rw [hdrop'] at hr'
        rw [hdrop] at hr
        rw [List.cons_append, List.append_assoc, List.cons_append, List.append_assoc,
          List.singleton_append, hr', hr]
      case h_2 =>
        cases h
        exact ⟨[], rfl, .none⟩
    case h_3 =>
      cases h
      exact ⟨[], rfl, .none⟩

theorem takeWhile_isDigit_append {d s : Str} (hd : ∀ c ∈ d, isDigit c = true) {c : Char}
    (hc : isDigit c = false) :
    (d ++ c :: s).takeWhile isDigit = d ∧ (d ++ c :: s).dropWhile isDigit = c :: s := by
  rw [List.takeWhile_append_of_pos hd, List.dropWhile_append_of_pos hd]
  simp [hc]

/-- The text of a range is taken off whatever follows it, if that is no range. -/
theorem matchRange_complete {rt rest : Str} {hi lo : Option Str} (h : RangeText rt hi lo)
    (hrest : rest.head? ≠ some '[') : matchRange (rt ++ rest) = (hi, lo, rest) := by
  cases h with
  | none =>
    unfold matchRange
    split
    case h_1 r heq => exact absurd (congrArg List.head? heq) hrest
    case h_2 => rfl
  | @one d hne hd =>
    obtain ⟨ht, hdr⟩ := takeWhile_isDigit_append (s := rest) hd (show isDigit ']' = false by decide)
    have hs : '[' :: (d ++ [']']) ++ rest = '[' :: (d ++ ']' :: rest) := by simp
    obtain ⟨c, d', rfl⟩ := List.exists_cons_of_ne_nil hne
    rw [hs, matchRange]
    simp only [ht, hdr]
  | @two d e hne hd hne' he =>
    obtain ⟨ht, hdr⟩ := takeWhile_isDigit_append (s := e ++ ']' :: rest) hd
      (show isDigit ':' = false by decide)
    obtain ⟨ht', hdr'⟩ := takeWhile_isDigit_append (s := rest) he
      (show isDigit ']' = false by decide)
    have hs : '[' :: (d ++ ':' :: (e ++ [']'])) ++ rest =
        '[' :: (d ++ ':' :: (e ++ ']' :: rest)) := by
      simp
    obtain ⟨c, d', rfl⟩ := List.exists_cons_of_ne_nil hne
    obtain ⟨c', e', rfl⟩ := List.exists_cons_of_ne_nil hne'
    rw [hs, matchRange]
    simp only [ht, hdr, ht', hdr']

/-- The characters of a range. -/
theorem RangeText.mem {rt : Str} {hi lo : Option Str} (h : RangeText rt hi lo) :
    ∀ c ∈ rt, c ≠ '=' ∧ c ≠ '#' := by
  have hdigit : ∀ c, isDigit c = true → c ≠ '=' ∧ c ≠ '#' := by
    rintro c hc
    constructor <;> rintro rfl <;> exact absurd hc (by decide)
  cases h with
  | none => exact fun c hc => by cases hc
  | one hne hd =>
    intro c hc
    simp only [List.mem_cons, List.mem_append, List.not_mem_nil, or_false] at hc
    rcases hc with rfl | hc | rfl
    · decide
    · exact hdigit c (hd c hc)
    · decide
  | two hne hd hne' he =>
    intro c hc
    simp only [List.mem_cons, List.mem_append, List.not_mem_nil, or_false] at hc
    rcases hc with rfl | hc | rfl | hc | rfl
    · decide
    · exact hdigit c (hd c hc)
    · decide
    · exact hdigit c (he c hc)
    · decide

/-- A range ends in a bracket. -/
theorem RangeText.exists_concat {rt : Str} {hi lo : Option Str} (h : RangeText rt hi lo) :
    rt = [] ∨ ∃ rt', rt = '[' :: rt' ++ [']'] := by
  cases h with
  | none => exact Or.inl rfl
  | @one d => exact Or.inr ⟨d, rfl⟩
  | @two d e => exact Or.inr ⟨d ++ ':' :: e, by simp⟩

/-- The numbers of the groups `hi` and `lo`, as `start` and `end`. -/
def rangeOf : Option Str → Option Str → Option ℕ × Option ℕ
  | none, _ => (none, none)
  | some hi, none => (some (digitsValue hi), none)
  | some hi, some lo => (some (digitsValue lo), some (digitsValue hi))

theorem intGroup_eq_ok {d : Str} {n : ℕ} :
    intGroup d = .ok n ↔ d.length ≤ maxStrDigits ∧ n = digitsValue d := by
  unfold intGroup
  rw [← intOf_eq_some]
  cases intOf d <;> simp

/-- `start` and `end`, where `int` does not raise. -/
theorem startEnd_ok {hi lo : Option Str} {r : Option ℕ × Option ℕ} (h : startEnd hi lo = .ok r) :
    r = rangeOf hi lo := by
  cases hi with
  | none => exact (Except.ok.inj h).symm
  | some hi =>
    cases lo with
    | none =>
      obtain ⟨n, hn, hr⟩ := bind_eq_ok.mp h
      obtain ⟨-, rfl⟩ := intGroup_eq_ok.mp hn
      exact (pure_eq_ok.mp hr).symm
    | some lo =>
      obtain ⟨n, hn, h⟩ := bind_eq_ok.mp h
      obtain ⟨m, hm, hr⟩ := bind_eq_ok.mp h
      obtain ⟨-, rfl⟩ := intGroup_eq_ok.mp hn
      obtain ⟨-, rfl⟩ := intGroup_eq_ok.mp hm
      exact (pure_eq_ok.mp hr).symm

/-! ### The tail -/

/-- The tail of an accepted line: blanks, blanks and a comment, or blanks, `=`
and the rest. -/
theorem tail_cases {x s₂ : Str} {raw : Option Str} (h : matchValue x = (raw, s₂))
    (hc : (matchComment s₂).isSome = true) :
    raw = none ∧ (∀ c ∈ x, isBlank c = true) ∨
    raw = none ∧ (∃ bl cm, x = bl ++ '#' :: cm ∧ ∀ c ∈ bl, isBlank c = true) ∨
    ∃ bl v, x = bl ++ '=' :: v ∧ (∀ c ∈ bl, isBlank c = true) ∧
      raw = some (((v.dropWhile isBlank).takeWhile (· != '#')).rdropWhile isBlank) := by
  have hx := List.takeWhile_append_dropWhile (p := isBlank) (l := x)
  have hbl : ∀ c ∈ x.takeWhile isBlank, isBlank c = true := fun _ hc => List.mem_takeWhile_imp hc
  -- without a value the comment starts at the blanks of `x`
  have hnone : (matchComment x).isSome = true → (∀ c ∈ x, isBlank c = true) ∨
      ∃ bl cm, x = bl ++ '#' :: cm ∧ ∀ c ∈ bl, isBlank c = true := by
    intro hcom
    unfold matchComment at hcom
    split at hcom
    case h_1 hdrop => exact Or.inl (List.dropWhile_eq_nil_iff.mp hdrop)
    case h_2 cm hdrop => exact Or.inr ⟨_, cm, by rw [← hdrop, hx], hbl⟩
    case h_3 => cases hcom
  have hequal : ∀ r, x.dropWhile isBlank = '=' :: r → (matchComment x).isSome ≠ true := by
    intro r hr
    rw [matchComment, hr]
    simp
  unfold matchValue at h
  split at h
  case h_2 =>
    cases h
    rcases hnone hc with h | h
    · exact Or.inl ⟨rfl, h⟩
    · exact Or.inr (Or.inl ⟨rfl, h⟩)
  case h_1 r hdrop =>
    split at h
    case h_2 =>
      cases h
      exact absurd hc (hequal r hdrop)
    case h_1 c r' hr =>
      split_ifs at h
      · cases h
        exact absurd hc (hequal r hdrop)
      · cases h
        exact Or.inr (Or.inr ⟨_, r, by rw [← hdrop, hx], hbl, by rw [hr]⟩)

/-! ### An accepted line -/

/-- The texts of a line that sets `feat`: blanks, the feature, its range and a
tail that is blanks, a comment or a value. -/
structure Shape (s feat : Str) (hi lo raw : Option Str) where
  blanks : Str
  range : Str
  tail : Str
  eq : s = blanks ++ (feat ++ (range ++ tail))
  blank : ∀ c ∈ blanks, Str.isBlank c = true
  ne_nil : feat ≠ []
  chars : ∀ c ∈ feat, isFeatureChar c = true
  stops : ∀ c, (range ++ tail).head? = some c → isFeatureChar c = false
  rangeText : RangeText range hi lo
  tailText : raw = none ∧ (∀ c ∈ tail, Str.isBlank c = true) ∨
    raw = none ∧ (∃ bl cm, tail = bl ++ '#' :: cm ∧ ∀ c ∈ bl, Str.isBlank c = true) ∨
    ∃ bl v, tail = bl ++ '=' :: v ∧ (∀ c ∈ bl, Str.isBlank c = true) ∧
      raw = some (((v.dropWhile Str.isBlank).takeWhile (· != '#')).rdropWhile Str.isBlank)

/-- A line that the pattern takes, with a feature. -/
theorem line_text {s feat : Str} {g : Groups} (h : matchLine s = some g)
    (hf : g.feature = some feat) :
    ∃ indent rt tail rest, s = indent ++ (feat ++ (rt ++ tail)) ∧
      (∀ c ∈ indent, isBlank c = true) ∧ (∀ c, feat.head? = some c → isFeatureStart c = true) ∧
      feat ≠ [] ∧ (∀ c ∈ feat, isFeatureChar c = true) ∧
      (∀ c, (rt ++ tail).head? = some c → isFeatureChar c = false) ∧ RangeText rt g.hi g.lo ∧
      matchValue tail = (g.value, rest) ∧ matchComment rest = some g.comment := by
  have hs := List.takeWhile_append_dropWhile (p := isBlank) (l := s)
  unfold matchLine at h
  dsimp only at h
  split at h
  case h_2 =>
    cases h
    cases hf
  case h_1 c r hdrop =>
    split_ifs at h with hstart
    case neg =>
      obtain ⟨cm, -, rfl⟩ := Option.map_eq_some_iff.mp h
      cases hf
    obtain ⟨cm, hcm, rfl⟩ := Option.map_eq_some_iff.mp h
    obtain rfl := Option.some.inj hf
    have hr := List.takeWhile_append_dropWhile (p := isFeatureChar) (l := s.dropWhile isBlank)
    obtain ⟨rt, hrt, hrange⟩ : ∃ rt, (s.dropWhile isBlank).dropWhile isFeatureChar =
        rt ++ (matchRange ((s.dropWhile isBlank).dropWhile isFeatureChar)).2.2 ∧ RangeText rt _ _ :=
      matchRange_sound (Prod.mk.eta (p := matchRange _)).symm
    have hchar : isFeatureChar c = true := by
      simp only [isFeatureStart, isFeatureChar, Char.isAlphanum, Bool.or_eq_true] at hstart ⊢
      tauto
    refine ⟨s.takeWhile isBlank, rt, _, _, ?_, fun _ hc => List.mem_takeWhile_imp hc, ?_, ?_,
      fun _ hc => List.mem_takeWhile_imp hc, ?_, hrange, (Prod.mk.eta (p := matchValue _)).symm, hcm⟩
    · rw [← hrt, hr, hs]
    · intro d hd
      rw [hdrop, List.takeWhile_cons, if_pos hchar] at hd
      exact Option.some.inj hd ▸ hstart
    · rw [hdrop, List.takeWhile_cons, if_pos hchar]
      exact List.cons_ne_nil _ _
    · intro d hd
      rw [← hrt] at hd
      have := List.head?_dropWhile_not isFeatureChar (s.dropWhile isBlank)
      rw [hd] at this
      simpa using this

theorem matchLine_sound {s feat : Str} {g : Groups} (h : matchLine s = some g)
    (hf : g.feature = some feat) : Nonempty (Shape s feat g.hi g.lo g.value) := by
  obtain ⟨indent, rt, tail, rest, hs, hindent, -, hne, hchars, hstops, hrt, hvalue, hcomment⟩ :=
    line_text h hf
  refine ⟨⟨indent, rt, tail, hs, hindent, hne, hchars, hstops, hrt, tail_cases hvalue ?_⟩⟩
  rw [hcomment]
  rfl

/-- A line that is accepted and sets a feature. -/
theorem parse_sound {ln : Str} {l : FasmLine} {f : SetFasmFeature} (h : parseFasmLine ln = .ok l)
    (hf : l.setFeature = some f) :
    ∃ hi lo raw, Nonempty (Shape (ln.rdropWhile (· == '\n')) f.feature hi lo raw) ∧
      (f.start, f.end_) = rangeOf hi lo ∧
      readValue (rangeOf hi lo) raw = .ok (f.value, f.valueFormat) := by
  unfold parseFasmLine at h
  split_ifs at h
  split at h
  case h_1 => cases h
  case h_2 g hg =>
    split at h
    case h_1 =>
      cases h
      cases hf
    case h_2 feat hfeat =>
      obtain ⟨range, hrange, h⟩ := bind_eq_ok.mp h
      obtain rfl := startEnd_ok hrange
      obtain ⟨v, hv, h⟩ := bind_eq_ok.mp h
      cases h
      cases hf
      exact ⟨_, _, _, matchLine_sound hg hfeat, rfl, hv⟩

/-! ### How it reads -/

variable {feat : Str} {hi lo raw : Option Str}

/-- The text that names the feature and its range: no space at its ends, no `=`
and no `#` in it. -/
def Shape.key {s : Str} (sh : Shape s feat hi lo raw) : Str := feat ++ sh.range

theorem Shape.mem_key {s : Str} (sh : Shape s feat hi lo raw) :
    ∀ c ∈ sh.key, c ≠ '=' ∧ c ≠ '#' := by
  intro c hc
  rcases List.mem_append.mp hc with hc | hc
  · constructor <;> rintro rfl <;> exact absurd (sh.chars _ hc) (by decide)
  · exact sh.rangeText.mem c hc

/-- The key ends in a character that is no space. -/
theorem Shape.exists_last {s : Str} (sh : Shape s feat hi lo raw) :
    ∃ k c, sh.key = k ++ [c] ∧ isSpace c = false := by
  rcases sh.rangeText.exists_concat with h | ⟨rt, h⟩
  · obtain ⟨k, c, hk⟩ := (List.eq_nil_or_concat' feat).resolve_left sh.ne_nil
    refine ⟨k, c, by rw [Shape.key, h, List.append_nil, hk], ?_⟩
    exact isSpace_of_isFeatureChar (sh.chars c (by rw [hk]; simp))
  · exact ⟨feat ++ '[' :: rt, ']', by rw [Shape.key, h]; simp, by decide⟩

/-- Stripping what starts with the key strips what follows it. -/
theorem Shape.strip_key {s : Str} (sh : Shape s feat hi lo raw) (y : Str) :
    strip (sh.key ++ y) = sh.key ++ y.rdropWhile isSpace := by
  obtain ⟨c, r, hfeat⟩ := List.exists_cons_of_ne_nil sh.ne_nil
  have hc : isSpace c = false := isSpace_of_isFeatureChar (sh.chars c (by rw [hfeat]; simp))
  have hcons : sh.key ++ y = c :: (r ++ sh.range ++ y) := congrArg (· ++ sh.range ++ y) hfeat
  have hdrop : (sh.key ++ y).dropWhile isSpace = sh.key ++ y := by
    rw [hcons, List.dropWhile_cons, hc]
    rfl
  obtain ⟨k, d, hk, hd⟩ := sh.exists_last
  rw [strip, hdrop, hk, List.append_assoc, List.singleton_append, rdropWhile_append_cons hd]
  simp

/-- The end of the line and the blanks before the feature are stripped. -/
theorem strip_body (ln : Str) : strip ln = strip (ln.rdropWhile (· == '\n')) := by
  refine (strip_rdropWhile (fun c hc => ?_) ln).symm
  rw [beq_iff_eq.mp hc]
  decide

/-- The line stripped. -/
theorem Shape.strip_line {ln : Str} (sh : Shape (ln.rdropWhile (· == '\n')) feat hi lo raw) :
    strip ln = sh.key ++ sh.tail.rdropWhile isSpace := by
  calc strip ln = strip (sh.blanks ++ (sh.key ++ sh.tail)) := by
        rw [strip_body, Shape.key, List.append_assoc, ← sh.eq]
    _ = sh.key ++ sh.tail.rdropWhile isSpace := by
        rw [strip_append_left fun c hc => isSpace_of_isBlank (sh.blank c hc), sh.strip_key]

/-- `split1` at a separator that is not in the text before it. -/
theorem split1_append {sep : Char} {s t : Str} (h : sep ∉ s) :
    split1 sep (s ++ sep :: t) = some (s, t) := by
  have hs : ∀ c ∈ s, (c != sep) = true := fun c hc => bne_iff_ne.mpr fun e => h (e ▸ hc)
  rw [split1, List.dropWhile_append_of_pos hs, List.takeWhile_append_of_pos hs]
  simp

theorem split1_eq_none {sep : Char} {s : Str} (h : sep ∉ s) : split1 sep s = none := by
  have hs : s.dropWhile (· != sep) = [] :=
    List.dropWhile_eq_nil_iff.mpr fun c hc => bne_iff_ne.mpr fun e => h (e ▸ hc)
  rw [split1, hs]

theorem split1_fst {sep : Char} {s l r : Str} (h : split1 sep s = some (l, r)) :
    l = s.takeWhile (· != sep) := by
  unfold split1 at h
  split at h
  case h_1 => cases h
  case h_2 => exact (Prod.mk.inj (Option.some.inj h)).1.symm

/-- How an accepted line reads: key and value, or, when the first `=` is in the
comment, the key with a part of the comment. -/
theorem Shape.reading {ln l r : Str} (sh : Shape (ln.rdropWhile (· == '\n')) feat hi lo raw)
    (h : reading ln = some (l, r)) :
    (l = sh.key ∧ ∃ v, r = strip v ∧
      raw = some (((v.dropWhile isBlank).takeWhile (· != '#')).rdropWhile isBlank)) ∨
    (raw = none ∧ ∃ bl cm, l = sh.key ++ (bl ++ '#' :: cm) ∧ ∀ c ∈ bl, isBlank c = true) := by
  have hkey : '=' ∉ sh.key := fun hm => (sh.mem_key _ hm).1 rfl
  have hspace : ∀ {bl : Str}, (∀ c ∈ bl, isBlank c = true) → ∀ c ∈ bl, isSpace c = true :=
    fun hbl c hc => isSpace_of_isBlank (hbl c hc)
  have hnot : ∀ {bl : Str}, (∀ c ∈ bl, isBlank c = true) → '=' ∉ sh.key ++ bl := by
    intro bl hbl hm
    rcases List.mem_append.mp hm with hm | hm
    · exact hkey hm
    · exact absurd (hbl _ hm) (by decide)
  unfold Fasm.reading at h
  dsimp only at h
  split_ifs at h
  rw [sh.strip_line] at h
  obtain ⟨⟨l', r'⟩, hsplit, hlr⟩ := Option.map_eq_some_iff.mp h
  obtain ⟨rfl, rfl⟩ := Prod.mk.inj hlr
  rcases sh.tailText with ⟨-, hblank⟩ | ⟨hraw, bl, cm, htail, hbl⟩ | ⟨bl, v, htail, hbl, hraw⟩
  · -- nothing follows the key
    rw [List.rdropWhile_eq_nil_iff.mpr (hspace hblank), List.append_nil,
      split1_eq_none hkey] at hsplit
    cases hsplit
  · -- the `=` is in the comment
    right
    rw [htail, rdropWhile_append_cons (by decide), ← List.append_assoc] at hsplit
    have hall : ∀ c ∈ sh.key ++ bl, (c != '=') = true := fun c hc =>
      bne_iff_ne.mpr fun e => hnot hbl (e ▸ hc)
    refine ⟨hraw, bl, ((cm.rdropWhile isSpace).takeWhile (· != '=')).rdropWhile isSpace, ?_, hbl⟩
    rw [split1_fst hsplit, List.takeWhile_append_of_pos hall, List.append_assoc, sh.strip_key,
      List.takeWhile_cons, if_pos (by decide), rdropWhile_append_cons (by decide)]
  · left
    rw [htail, rdropWhile_append_cons (by decide), ← List.append_assoc,
      split1_append (hnot hbl)] at hsplit
    obtain ⟨rfl, rfl⟩ := Prod.mk.inj (Option.some.inj hsplit)
    refine ⟨?_, v, strip_rdropWhile (fun _ h => h) v, hraw⟩
    rw [sh.strip_key, List.rdropWhile_eq_nil_iff.mpr (hspace hbl), List.append_nil]

/-! ### What the texts say -/

/-- The feature and its range, from the text left of the `=`. -/
def target (l : Str) : Str × Option ℕ × Option ℕ :=
  let (hi, lo, _) := matchRange (l.dropWhile isFeatureChar)
  (l.takeWhile isFeatureChar, rangeOf hi lo)

/-- The value, from both texts: a `#` left of the `=` means that this is in the
comment of a line without a value. -/
def valueOf (l r : Str) : Option ℕ :=
  if '#' ∈ l then some 1
  else
    match parseValue (strip (r.takeWhile (· != '#'))) with
    | .ok (value, _) => some value
    | .error _ => none

theorem Shape.target_eq {s w : Str} (sh : Shape s feat hi lo raw)
    (hw : w = [] ∨ ∃ c t, w = c :: t ∧ isFeatureChar c = false ∧ c ≠ '[') :
    target (sh.key ++ w) = (feat, rangeOf hi lo) := by
  have hstop : (sh.range ++ w).takeWhile isFeatureChar = [] ∧
      (sh.range ++ w).dropWhile isFeatureChar = sh.range ++ w := by
    rcases sh.rangeText.exists_concat with h | ⟨rt, h⟩
    · rw [h, List.nil_append]
      rcases hw with rfl | ⟨c, t, rfl, hc, -⟩
      · exact ⟨rfl, rfl⟩
      · simp [hc]
    · rw [h]
      exact ⟨rfl, rfl⟩
  have hhead : w.head? ≠ some '[' := by
    rcases hw with rfl | ⟨c, t, rfl, -, hc⟩
    · simp
    · simpa using hc
  rw [target, Shape.key, List.append_assoc, List.takeWhile_append_of_pos sh.chars,
    List.dropWhile_append_of_pos sh.chars, hstop.1, hstop.2, List.append_nil,
    matchRange_complete sh.rangeText hhead]

theorem readValue_some {range : Option ℕ × Option ℕ} {t : Str} {v : ℕ} {fmt : Option ValueFormat}
    (h : readValue range (some t) = .ok (v, fmt)) :
    (∃ fmt', parseValue (strip t) = .ok (v, fmt')) ∧ fits v (width range) = .ok () := by
  simp only [readValue, bind_eq_ok] at h
  obtain ⟨⟨v', fmt'⟩, hparse, u, hfits, hv⟩ := h
  obtain ⟨rfl, -⟩ := Prod.mk.inj (Except.ok.inj hv)
  exact ⟨⟨fmt', hparse⟩, hfits⟩

/-- A value that fits is below two to the width. -/
theorem fits_lt {v : ℕ} {w : ℤ} (h : fits v w = .ok ()) : v < 2 ^ w.toNat := by
  unfold fits at h
  split_ifs at h with h₁ h₂
  rwa [not_le, Nat.one_shiftLeft] at h₂

/-- **The two texts of an accepted line tell what it sets**, and a written value
fits the range. -/
theorem reading_meaning {ln l r : Str} {fl : FasmLine} {f : SetFasmFeature}
    (h : parseFasmLine ln = .ok fl) (hf : fl.setFeature = some f) (hr : reading ln = some (l, r)) :
    (f.feature, f.start, f.end_) = target l ∧ some f.value = valueOf l r ∧
      ('#' ∉ l → fits f.value (width (f.start, f.end_)) = .ok ()) := by
  obtain ⟨hi, lo, raw, ⟨sh⟩, hbounds, hvalue⟩ := parse_sound h hf
  rcases sh.reading hr with ⟨rfl, v, rfl, hraw⟩ | ⟨hraw, bl, cm, rfl, hbl⟩
  · have hkey : '#' ∉ sh.key := fun hm => (sh.mem_key _ hm).2 rfl
    have hcut : ∀ c, isSpace c = true → (c != '#') = true := by
      rintro c hc
      exact bne_iff_ne.mpr fun e => absurd (e ▸ hc) (by decide)
    rw [hraw] at hvalue
    obtain ⟨⟨fmt', hparse⟩, hfits⟩ := readValue_some hvalue
    refine ⟨?_, ?_, fun _ => hbounds ▸ hfits⟩
    · have := sh.target_eq (w := []) (Or.inl rfl)
      rw [List.append_nil] at this
      rw [this, ← hbounds]
    · rw [strip_rdropWhile fun _ => isSpace_of_isBlank,
        strip_takeWhile_dropWhile hcut fun _ => isSpace_of_isBlank] at hparse
      rw [valueOf, if_neg hkey, strip_takeWhile_strip hcut, hparse]
  · refine ⟨?_, ?_, fun hnot => absurd (by simp) hnot⟩
    · rw [sh.target_eq, ← hbounds]
      cases bl with
      | nil => exact Or.inr ⟨'#', cm, rfl, by decide, by decide⟩
      | cons c bl =>
        have hc : isBlank c = true := hbl c List.mem_cons_self
        refine Or.inr ⟨c, bl ++ '#' :: cm, rfl, ?_, ?_⟩
        · by_contra hchar
          have := isSpace_of_isFeatureChar (Bool.not_eq_false _ ▸ hchar)
          rw [isSpace_of_isBlank hc] at this
          cases this
        · rintro rfl
          exact absurd hc (by decide)
    · rw [hraw, readValue] at hvalue
      rw [valueOf, if_pos (by simp)]
      exact congrArg some (Prod.mk.inj (Except.ok.inj hvalue)).1.symm

/-- A text matched without a feature is blank or a comment. -/
theorem matchLine_none {s : Str} {g : Groups} (h : matchLine s = some g) (hf : g.feature = none) :
    strip s = [] ∨ (strip s).head? = some '#' := by
  have hs : strip s = strip (s.dropWhile isBlank) := by
    conv_lhs => rw [← List.takeWhile_append_dropWhile (p := isBlank) (l := s)]
    exact strip_append_left fun c hc => isSpace_of_isBlank (List.mem_takeWhile_imp hc)
  rw [hs]
  unfold matchLine at h
  dsimp only at h
  split at h
  case h_2 hdrop => exact Or.inl (by rw [hdrop]; rfl)
  case h_1 c r hdrop =>
    split_ifs at h with hstart
    · obtain ⟨cm, -, rfl⟩ := Option.map_eq_some_iff.mp h
      cases hf
    obtain ⟨cm, hcm, rfl⟩ := Option.map_eq_some_iff.mp h
    have hc : isBlank c = false := by
      have := List.head?_dropWhile_not isBlank s
      rw [hdrop] at this
      exact this
    have hcons : (c :: r).dropWhile isBlank = c :: r := by
      rw [List.dropWhile_cons, hc]
      rfl
    rw [hdrop, matchComment, hcons] at hcm
    split at hcm
    case h_1 heq => cases heq
    case h_2 cm' heq =>
      cases heq
      right
      rw [hdrop, strip, List.dropWhile_cons, if_neg (by decide)]
      have := rdropWhile_append_cons (p := isSpace) (c := '#') (by decide) [] r
      rw [List.nil_append] at this
      rw [this]
      rfl
    case h_3 => cases hcm

/-- A line that is accepted and reads as something sets a feature. -/
theorem exists_of_reading {ln l r : Str} {fl : FasmLine} (h : parseFasmLine ln = .ok fl)
    (hr : reading ln = some (l, r)) : ∃ f, fl.setFeature = some f := by
  have hnot : ¬ (strip ln = [] ∨ (strip ln).head? = some '#') := by
    intro hnone
    rw [reading, if_pos hnone] at hr
    cases hr
  rw [strip_body] at hnot
  unfold parseFasmLine at h
  split_ifs at h
  split at h
  case h_1 => cases h
  case h_2 g hg =>
    split at h
    case h_1 hfeat => exact absurd (matchLine_none hg hfeat) hnot
    case h_2 feat hfeat =>
      simp only [bind_eq_ok, Except.ok.injEq] at h
      obtain ⟨range, -, v, -, rfl⟩ := h
      exact ⟨_, rfl⟩

end Fasm
end Xc7Tools
