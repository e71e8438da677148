/-
# openila GUI: the texts of the trigger table

A cell of the trigger table holds `x`, `-`, nothing, or a number in hexadecimal
digits. `triggerWord` takes a prefix off the text and gives the rest to
`QString::toULongLong`, which passes over white space, a plus sign and a prefix
of its own. The number read is that of the digits (`denotes_iff`).

Key definitions: `MainWindow.condition`, `MainWindow.hexNumber`, `MainWindow.Denotes`.
Key theorems: `MainWindow.hexNumber_eq_some`, `MainWindow.denotes_iff`.
-/
import Xc7Tools.Lib.Numerals
import Xc7Tools.Openila.ProbeMap

namespace Xc7Tools
namespace Openila

open Str

namespace MainWindow

/-- `QString::toLower()`. A letter outside ASCII may have a lower case too, but none of those is a
hexadecimal digit or an `x`. -/
def toLower (s : Str) : Str := s.map Char.toLower

/-- `trig_->item(r, 2) ? trig_->item(r, 2)->text().trimmed().toLower() : "x"` -/
def condition (item : Option Str) : Str :=
  match item with
  | some text => toLower (trimmed text)
  | none => ['x']

/-- `c.isEmpty() || c == "x" || c == "-"` -/
def anyValue (c : Str) : Bool := c == [] || c == ['x'] || c == ['-']

/-- `if (c.startsWith("0x")) c = c.mid(2);` -/
def dropHexPrefix : Str → Str
  | '0' :: 'x' :: s => s
  | s => s

/-- The number a text denotes to `toULongLong(&ok, 16)`, which passes over white space around it, a
plus sign and a prefix. -/
def hexNumber (c : Str) : Option ℕ :=
  match trimmed c with
  | '+' :: s => intBase 16 (dropHexPrefix s)
  | s => intBase 16 (dropHexPrefix s)

/-- `c.toULongLong(&ok, 16)`; none is `!ok`. -/
def toULongLong16 (c : Str) : Option ℕ := (hexNumber c).filter (· < 2 ^ 64)

/-! ### What a text denotes -/

/-- The prefix of a number, if it has one. -/
def IsPrefix (r : Str) : Prop := r = [] ∨ r = "0x".toList

/-- What may stand in front of the digits, behind the first prefix. -/
def IsLead (w : Str) : Prop := ∃ b q r, w = b ++ (q ++ r) ∧ (∀ c ∈ b, isIntSpace c = true) ∧
  (q = [] ∨ q = ['+']) ∧ IsPrefix r

/-- Hexadecimal digits. -/
def IsHexText (ds : Str) : Prop := ds ≠ [] ∧ ∀ c ∈ ds, (hex? c).isSome = true

/-- The number that a condition denotes, which is that of its digits. -/
def Denotes (c : Str) (v : ℕ) : Prop :=
  ∃ p w ds back, c = p ++ (w ++ (ds ++ back)) ∧ IsPrefix p ∧ IsLead w ∧ IsHexText ds ∧
    (∀ c ∈ back, isIntSpace c = true) ∧ hexValue ds = v

/-! ### What the GUI reads -/

theorem ne_of_hex {c d : Char} (hc : (hex? c).isSome = true) (hd : hex? d = none) : c ≠ d := by
  rintro rfl
  rw [hd] at hc
  cases hc

theorem not_isIntSpace_of_hex {c : Char} (hc : (hex? c).isSome = true) : isIntSpace c = false := by
  have hrange : ('0'.toNat ≤ c.toNat ∧ c.toNat ≤ '9'.toNat) ∨ ('a'.toNat ≤ c.toNat ∧ c.toNat ≤ 'f'.toNat) ∨
      ('A'.toNat ≤ c.toNat ∧ c.toNat ≤ 'F'.toNat) := by
    unfold hex? at hc
    split_ifs at hc with h0 ha hA
    · exact Or.inl h0
    · exact Or.inr (Or.inl ha)
    · exact Or.inr (Or.inr hA)
    · cases hc
  have hvalues : '0'.toNat = 48 ∧ '9'.toNat = 57 ∧ 'a'.toNat = 97 ∧ 'f'.toNat = 102 ∧
      'A'.toNat = 65 ∧ 'F'.toNat = 70 := by decide
  refine not_isIntSpace_of_not_isSpace ?_
  simp only [isSpace, Bool.or_eq_false_iff, Bool.and_eq_false_iff, decide_eq_false_iff_not,
    beq_eq_false_iff_ne]
  omega

/-- The text between the white space. -/
theorem exists_trimmed (s : Str) : ∃ a b, s = a ++ (trimmed s ++ b) ∧ (∀ c ∈ a, isIntSpace c = true) ∧
    ∀ c ∈ b, isIntSpace c = true := by
  refine ⟨s.takeWhile isIntSpace, (s.dropWhile isIntSpace).rtakeWhile isIntSpace, ?_,
    fun c hc => List.mem_takeWhile_imp hc, fun c hc => List.mem_rtakeWhile_imp hc⟩
  rw [trimmed, List.rdropWhile_append_rtakeWhile, List.takeWhile_append_dropWhile]

theorem trimmed_append {a u b : Str} {d : Char} (ha : ∀ c ∈ a, isIntSpace c = true)
    (hb : ∀ c ∈ b, isIntSpace c = true) (hfirst : ∀ c ∈ (u ++ [d]).head?, isIntSpace c = false)
    (hd : isIntSpace d = false) : trimmed (a ++ ((u ++ [d]) ++ b)) = u ++ [d] := by
  have hdrop : ((u ++ [d]) ++ b).dropWhile isIntSpace = (u ++ [d]) ++ b := by
    cases u with
    | nil => exact List.dropWhile_cons_of_neg (by simp [hd])
    | cons c u => exact List.dropWhile_cons_of_neg (by simp [hfirst c rfl])
  rw [trimmed, List.dropWhile_append_of_pos ha, hdrop, rdropWhile_append_right hb]
  exact rdropWhile_append_cons hd u []

theorem dropHexPrefix_spec (s : Str) : ∃ r, IsPrefix r ∧ s = r ++ dropHexPrefix s := by
  unfold dropHexPrefix
  split
  · exact ⟨"0x".toList, Or.inr rfl, rfl⟩
  · exact ⟨[], Or.inl rfl, rfl⟩

theorem dropHexPrefix_of_not_mem {s : Str} (hs : 'x' ∉ s) : dropHexPrefix s = s := by
  unfold dropHexPrefix
  split
  · exact absurd (List.mem_cons_of_mem _ List.mem_cons_self) hs
  · rfl

theorem dropHexPrefix_append {r s : Str} (hr : IsPrefix r) (hs : 'x' ∉ s) : dropHexPrefix (r ++ s) = s := by
  rcases hr with rfl | rfl
  · exact dropHexPrefix_of_not_mem hs
  · rfl

theorem mapM_hex : ∀ {s : Str} {ds : List ℕ}, (s.mapM fun c => (hex? c).filter (· < 16)) = some ds ↔
    (∀ c ∈ s, (hex? c).isSome = true) ∧ s.filterMap hexDigit? = ds
  | [], ds => by simp
  | c :: s, ds => by
    have ih : ∀ ds, (s.mapM fun c => (hex? c).filter (· < 16)) = some ds ↔
        (∀ c ∈ s, (hex? c).isSome = true) ∧ s.filterMap hexDigit? = ds := fun _ => mapM_hex
    rw [List.mapM_cons, List.forall_mem_cons]
    cases hc : hex? c with
    | none => simp
    | some d =>
      have hdigit : hexDigit? c = some d := by rw [hexDigit?, hc, Option.some_or]
      have hlt : d < 16 := hex?_lt hc
      simp only [Option.filter_some, hlt, decide_true, if_true, Option.bind_eq_bind, Option.bind_some,
        Option.bind_eq_some_iff, Option.pure_def, Option.some.injEq, ih, Option.isSome_some, true_and,
        List.filterMap_cons_some hdigit]
      constructor
      · rintro ⟨ds', ⟨hs, rfl⟩, rfl⟩
        exact ⟨hs, rfl⟩
      · rintro ⟨hs, rfl⟩
        exact ⟨_, ⟨hs, rfl⟩, rfl⟩

theorem intBase_sixteen {s : Str} {n : ℕ} : intBase 16 s = some n ↔ IsHexText s ∧ hexValue s = n := by
  unfold intBase IsHexText hexValue
  by_cases hs : s = []
  · simp [hs]
  · simp only [Nat.reduceEqDiff, if_false, hs, false_and, or_false, Option.map_eq_some_iff, mapM_hex]
    constructor
    · rintro ⟨ds, ⟨hall, rfl⟩, rfl⟩
      exact ⟨⟨hs, hall⟩, rfl⟩
    · rintro ⟨⟨-, hall⟩, rfl⟩
      exact ⟨_, ⟨hall, rfl⟩, rfl⟩

/-- A text in which every character is a sign, of a prefix or a digit. -/
theorem mem_number {q r ds : Str} (hq : q = [] ∨ q = ['+']) (hr : IsPrefix r) (hds : IsHexText ds) :
    ∀ c ∈ q ++ (r ++ ds), isIntSpace c = false := by
  intro c hc
  rcases List.mem_append.mp hc with hc | hc
  · rcases hq with rfl | rfl
    · cases hc
    · rw [List.mem_singleton.mp hc]
      decide
  rcases List.mem_append.mp hc with hc | hc
  · rcases hr with rfl | rfl
    · cases hc
    · have hc : c ∈ ['0', 'x'] := hc
      rcases List.mem_cons.mp hc with rfl | hc
      · decide
      · rw [List.mem_singleton.mp hc]
        decide
  · exact not_isIntSpace_of_hex (hds.2 c hc)

/-- The sign is passed over. -/
theorem hexNumber_spec (s : Str) : ∃ q t, (q = [] ∨ q = ['+']) ∧ trimmed s = q ++ t ∧
    hexNumber s = intBase 16 (dropHexPrefix t) := by
  unfold hexNumber
  split
  · rename_i t ht
    exact ⟨['+'], t, Or.inr rfl, ht, rfl⟩
  · exact ⟨[], _, Or.inl rfl, rfl, rfl⟩

/-- What `toULongLong` reads. -/
theorem hexNumber_eq_some {s : Str} {v : ℕ} : hexNumber s = some v ↔
    ∃ w ds back, s = w ++ (ds ++ back) ∧ IsLead w ∧ IsHexText ds ∧ (∀ c ∈ back, isIntSpace c = true) ∧
      hexValue ds = v := by
  constructor
  · intro h
    obtain ⟨q, t, hq, htrim, hread⟩ := hexNumber_spec s
    obtain ⟨a, b, hs, ha, hb⟩ := exists_trimmed s
    obtain ⟨r, hr, ht⟩ := dropHexPrefix_spec t
    rw [hread, intBase_sixteen] at h
    refine ⟨a ++ (q ++ r), dropHexPrefix t, b, ?_, ⟨a, q, r, rfl, ha, hq, hr⟩, h.1, hb, h.2⟩
    rw [hs, htrim]
    conv_lhs => rw [ht]
    simp only [List.append_assoc]
  · rintro ⟨w, ds, back, rfl, ⟨b, q, r, rfl, hb, hq, hr⟩, hds, hback, rfl⟩
    have hchars := mem_number hq hr hds
    obtain ⟨u, d, hlast⟩ := (List.eq_nil_or_concat ds).resolve_left hds.1
    rw [List.concat_eq_append] at hlast
    have htrim : trimmed (b ++ (q ++ r) ++ (ds ++ back)) = q ++ (r ++ ds) := by
      have hword : q ++ (r ++ ds) = (q ++ (r ++ u)) ++ [d] := by rw [hlast]; simp only [List.append_assoc]
      have happ := trimmed_append hb hback (u := q ++ (r ++ u)) (d := d)
        (fun c hc => hchars c (hword ▸ List.mem_of_mem_head? hc))
        (hchars d (hword ▸ List.mem_append_right _ (List.mem_singleton_self d)))
      rw [← hword] at happ
      rw [← happ]
      simp only [List.append_assoc]
    have hx : 'x' ∉ ds := fun hmem => ne_of_hex (hds.2 'x' hmem) (by decide) rfl
    have hnumber : intBase 16 (dropHexPrefix (r ++ ds)) = some (hexValue ds) := by
      rw [dropHexPrefix_append hr hx]
      exact intBase_sixteen.mpr ⟨hds, rfl⟩
    unfold hexNumber
    rw [htrim]
    rcases hq with rfl | rfl
    · rw [List.nil_append]
      split
      · rename_i t ht
        -- no sign is among the digits
        have hplus : '+' ∈ r ++ ds := ht ▸ List.mem_cons_self
        rcases List.mem_append.mp hplus with hmem | hmem
        · rcases hr with rfl | rfl
          · cases hmem
          · exact absurd hmem (by decide)
        · exact absurd rfl (ne_of_hex (hds.2 '+' hmem) (by decide))
      · exact hnumber
    · exact hnumber

/-- A prefix in front of what stands there is the lead itself. -/
theorem eq_of_lead {w ds back s : Str} (hw : IsLead w) (hds : IsHexText ds)
    (hback : ∀ c ∈ back, isIntSpace c = true) (h : w ++ (ds ++ back) = "0x".toList ++ s) : s = ds ++ back := by
  obtain ⟨b, q, r, rfl, hb, hq, hr⟩ := hw
  have hzero : ∀ {c x}, (c :: x : Str) = "0x".toList ++ s → c = '0' := fun h => (List.cons.inj h).1
  obtain rfl : b = [] := by
    cases b with
    | nil => rfl
    | cons c b =>
      obtain rfl := hzero h
      exact absurd (hb '0' List.mem_cons_self) (by decide)
  obtain rfl : q = [] := hq.resolve_right (by
    rintro rfl
    exact absurd (hzero h) (by decide))
  rcases hr with rfl | rfl
  · -- a digit and an x are no hexadecimal text
    obtain ⟨e, ds, rfl⟩ := List.exists_cons_of_ne_nil hds.1
    have htail : ds ++ back = 'x' :: s := (List.cons.inj h).2
    have hx : 'x' ∈ ds ++ back := htail ▸ List.mem_cons_self
    rcases List.mem_append.mp hx with hx | hx
    · exact absurd rfl (ne_of_hex (hds.2 'x' (List.mem_cons_of_mem e hx)) (by decide))
    · exact absurd (hback 'x' hx) (by decide)
  · exact (List.append_cancel_left h).symm

/-- **The number read is that of the digits.** -/
theorem denotes_iff {c : Str} {v : ℕ} : hexNumber (dropHexPrefix c) = some v ↔ Denotes c v := by
  constructor
  · intro h
    obtain ⟨p, hp, hc⟩ := dropHexPrefix_spec c
    obtain ⟨w, ds, back, hs, hw, hds, hback, hv⟩ := hexNumber_eq_some.mp h
    exact ⟨p, w, ds, back, by rw [← hs]; exact hc, hp, hw, hds, hback, hv⟩
  · rintro ⟨p, w, ds, back, rfl, hp, hw, hds, hback, hv⟩
    have hread : hexNumber (w ++ (ds ++ back)) = some v :=
      hexNumber_eq_some.mpr ⟨w, ds, back, rfl, hw, hds, hback, hv⟩
    rcases hp with rfl | rfl
    · obtain ⟨r, hr, hdrop⟩ := dropHexPrefix_spec (w ++ (ds ++ back))
      rw [List.nil_append]
      rcases hr with rfl | rfl
      · rw [List.nil_append] at hdrop
        rw [← hdrop]
        exact hread
      · -- it is the second prefix that is taken off
        rw [eq_of_lead hw hds hback hdrop]
        have hnone : IsLead [] := ⟨[], [], [], rfl, nofun, Or.inl rfl, Or.inl rfl⟩
        exact hexNumber_eq_some.mpr ⟨[], ds, back, rfl, hnone, hds, hback, hv⟩
    · exact hread

end MainWindow

end Openila
end Xc7Tools
