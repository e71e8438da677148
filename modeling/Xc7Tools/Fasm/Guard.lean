/-
# check_fasm_expressible: the duplicate-INIT guard

The loop at the head of `main` in `scripts/check_fasm_expressible.py` refuses
a FASM that "assigns these features twice with different values (the
assembler ORs them)". It compares texts: what stands left of the first `=`
is the feature, what stands right of it the value.

Two lines the loop compares may differ in value (`Differ`) or only in how the
value is spelled (`Respelled`); two lines it does not compare may set a bit
differently all the same (`Apart`), with overlapping ranges or with the value
left out. Of the lines that set a feature, the guard reports the first two
kinds (`textClash_iff`) and the conflicts are the first and the last
(`conflict_iff`), so `guard_exact_iff` says for each feature when it is right.

Key definitions: `twice`, `Reported`, `Conflict`, `Differ`, `Respelled`, `Apart`.
Key theorems: `mem_noteAll`, `guard_reports`, `conflict_iff`, `guard_exact_iff`.
-/
import Xc7Tools.Fasm.Reading
import Xc7Tools.Lib.Dict

namespace Xc7Tools
namespace Fasm

open Str

/-! ### The loop -/

/-- One pass of the loop: `seen` and `twice` after a line that reads `p`. -/
def note (st : Dict Str Str × List Str) (p : Str × Str) : Dict Str Str × List Str :=
  (st.1.set p.1 p.2,
    match st.1.get? p.1 with
    | some v => if v ≠ p.2 then st.2 ++ [p.1] else st.2
    | none => st.2)

/-- The texts the loop compares. -/
def readings (lines : List Str) : List (Str × Str) := lines.filterMap reading

/-- `twice` after the loop. -/
def twice (lines : List Str) : List Str := ((readings lines).foldl note (Dict.empty, [])).2

/-- What `main` returns on an existing file, `assembled` being whether the
strict fasm2frames run ends with status 0. -/
def main (lines : List Str) (assembled : Bool) : ℕ :=
  if twice lines ≠ [] then 1 else if assembled then 0 else 1

/-- What the loop adds to `twice`: the texts under which a reading to come
differs from the one seen last or from another reading to come. -/
theorem mem_noteAll (t : Str) : ∀ (ps : List (Str × Str)) (d : Dict Str Str) (tw : List Str),
    t ∈ (ps.foldl note (d, tw)).2 ↔
      t ∈ tw ∨ (∃ p ∈ ps, p.1 = t ∧ ∃ v, d.get? t = some v ∧ v ≠ p.2) ∨
        ∃ p ∈ ps, ∃ q ∈ ps, p.1 = t ∧ q.1 = t ∧ p.2 ≠ q.2
  | [], d, tw => by simp
  | p :: ps, d, tw => by
    have hstep : t ∈ (note (d, tw) p).2 ↔
        t ∈ tw ∨ p.1 = t ∧ ∃ v, d.get? t = some v ∧ v ≠ p.2 := by
      by_cases ht : p.1 = t
      · subst ht
        cases h : d.get? p.1 with
        | none => simp [note, h]
        | some v => by_cases hv : v = p.2 <;> simp [note, h, hv]
      · cases h : d.get? p.1 with
        | none => simp [note, h, ht]
        | some v => by_cases hv : v = p.2 <;> simp [note, h, hv, ht, Ne.symm ht]
    rw [List.foldl_cons, show note (d, tw) p = (d.set p.1 p.2, (note (d, tw) p).2) from rfl,
      mem_noteAll t ps, hstep]
    by_cases ht : p.1 = t
    · -- the reading seen last under `t` is now `p`
      have hset : (d.set p.1 p.2).get? t = some p.2 := by rw [Dict.get?_set, if_pos ht]
      rw [hset]
      constructor
      · rintro ((h | ⟨-, h⟩) | ⟨q, hq, hqt, v, hv, hne⟩ | ⟨q, hq, r, hr, h⟩)
        · exact Or.inl h
        · exact Or.inr (Or.inl ⟨p, List.mem_cons_self, ht, h⟩)
        · cases hv
          exact Or.inr (Or.inr ⟨p, List.mem_cons_self, q, List.mem_cons_of_mem _ hq, ht, hqt, hne⟩)
        · exact Or.inr (Or.inr ⟨q, List.mem_cons_of_mem _ hq, r, List.mem_cons_of_mem _ hr, h⟩)
      · have hother : ∀ q ∈ ps, q.1 = t → p.2 ≠ q.2 →
            ∃ q ∈ ps, q.1 = t ∧ ∃ v, some p.2 = some v ∧ v ≠ q.2 :=
          fun q hq hqt hne => ⟨q, hq, hqt, p.2, rfl, hne⟩
        rintro (h | ⟨q, hq, hqt, v, hv, hne⟩ | ⟨q, hq, r, hr, hqt, hrt, hne⟩)
        · exact Or.inl (Or.inl h)
        · rcases List.mem_cons.mp hq with rfl | hq
          · exact Or.inl (Or.inr ⟨ht, v, hv, hne⟩)
          · by_cases hpv : v = p.2
            · exact Or.inr (Or.inl (hother q hq hqt (hpv ▸ hne)))
            · exact Or.inl (Or.inr ⟨ht, v, hv, hpv⟩)
        · rcases List.mem_cons.mp hq with rfl | hq' <;> rcases List.mem_cons.mp hr with rfl | hr'
          · exact absurd rfl hne
          · exact Or.inr (Or.inl (hother r hr' hrt hne))
          · exact Or.inr (Or.inl (hother q hq' hqt hne.symm))
          · exact Or.inr (Or.inr ⟨q, hq', r, hr', hqt, hrt, hne⟩)
    · rw [Dict.get?_set, if_neg ht]
      simp [ht]

/-- **The loop compares texts**: `twice` has the texts that stand left of the
first `=` on two lines with different texts right of it. -/
theorem mem_twice {lines : List Str} {t : Str} : t ∈ twice lines ↔
    ∃ p ∈ readings lines, ∃ q ∈ readings lines, p.1 = t ∧ q.1 = t ∧ p.2 ≠ q.2 := by
  rw [twice, mem_noteAll]
  simp

/-! ### What the lines mean -/

namespace SetFasmFeature

/-- The bits of the feature a line sets: as many as the range is wide, from its
start. -/
def bits (f : SetFasmFeature) : List ℕ :=
  List.range' (f.start.getD 0) (width (f.start, f.end_)).toNat

/-- The value the line gives bit `a` of the feature. -/
def bitAt (f : SetFasmFeature) (a : ℕ) : Bool := f.value.testBit (a - f.start.getD 0)

/-- The two assign some bit of the same feature two values. -/
def Clash (f g : SetFasmFeature) : Prop :=
  f.feature = g.feature ∧ ∃ a ∈ f.bits, a ∈ g.bits ∧ f.bitAt a ≠ g.bitAt a

instance (f g : SetFasmFeature) : Decidable (Clash f g) := inferInstanceAs (Decidable (_ ∧ _))

/-- Values below `2 ^ n` that differ do so below bit `n`. -/
theorem exists_testBit_ne {n v w : ℕ} (hv : v < 2 ^ n) (hw : w < 2 ^ n) (h : v ≠ w) :
    ∃ i < n, v.testBit i ≠ w.testBit i := by
  obtain ⟨i, hi⟩ := Nat.exists_testBit_ne_of_ne h
  refine ⟨i, ?_, hi⟩
  by_contra hle
  have hpow : 2 ^ n ≤ 2 ^ i := Nat.pow_le_pow_right (by decide) (not_lt.mp hle)
  rw [Nat.testBit_lt_two_pow (hv.trans_le hpow), Nat.testBit_lt_two_pow (hw.trans_le hpow)] at hi
  exact hi rfl

/-- On one range, values that fit clash when they differ. -/
theorem clash_iff {f g : SetFasmFeature}
    (ht : (f.feature, f.start, f.end_) = (g.feature, g.start, g.end_))
    (hf : fits f.value (width (f.start, f.end_)) = .ok ())
    (hg : fits g.value (width (g.start, g.end_)) = .ok ()) : f.Clash g ↔ f.value ≠ g.value := by
  simp only [Prod.mk.injEq] at ht
  obtain ⟨hfeat, hstart, hend⟩ := ht
  constructor
  · rintro ⟨-, a, -, -, ha⟩ hv
    exact ha (by rw [bitAt, bitAt, hv, hstart])
  · intro hv
    rw [← hstart, ← hend] at hg
    obtain ⟨i, hi, hne⟩ := exists_testBit_ne (fits_lt hf) (fits_lt hg) hv
    refine ⟨hfeat, f.start.getD 0 + i, ?_, ?_, ?_⟩
    · exact List.mem_range'_1.mpr ⟨by omega, by omega⟩
    · rw [bits, ← hstart, ← hend]
      exact List.mem_range'_1.mpr ⟨by omega, by omega⟩
    · rw [bitAt, bitAt, ← hstart, Nat.add_sub_cancel_left]
      exact hne

end SetFasmFeature

/-- The assignment on a line, as the assembler's reader returns it. -/
def assignment (ln : Str) : Option SetFasmFeature :=
  match parseFasmLine ln with
  | .ok l => l.setFeature
  | .error _ => none

/-- The line sets bits of the feature. -/
def Sets (feature ln : Str) : Prop := ∃ f ∈ assignment ln, f.feature = feature

instance (feature ln : Str) : Decidable (Sets feature ln) :=
  inferInstanceAs (Decidable (∃ f ∈ _, _))

/-- The loop puts the feature in `twice`, under the text that stands for it on a
line that sets it, and `main` returns 1. -/
def Reported (lines : List Str) (assembled : Bool) (feature : Str) : Prop :=
  (∃ ln ∈ lines, Sets feature ln ∧ ∃ p ∈ reading ln, p.1 ∈ twice lines) ∧
    main lines assembled = 1

instance (lines : List Str) (assembled : Bool) (feature : Str) :
    Decidable (Reported lines assembled feature) := inferInstanceAs (Decidable (_ ∧ _))

/-- Two lines assign a bit of the feature two values. -/
def Conflict (lines : List Str) (feature : Str) : Prop :=
  ∃ f ∈ lines.filterMap assignment, f.feature = feature ∧
    ∃ g ∈ lines.filterMap assignment, f.Clash g

instance (lines : List Str) (feature : Str) : Decidable (Conflict lines feature) :=
  inferInstanceAs (Decidable (∃ f ∈ _, _ ∧ ∃ g ∈ _, _))

/-! ### Three kinds of pairs -/

/-- The loop compares the two lines. -/
def Compared (a b : Str) : Prop := ∃ l r r', reading a = some (l, r) ∧ reading b = some (l, r')

/-- Compared, with two values. -/
def Differ (a b : Str) : Prop :=
  ∃ l r r', reading a = some (l, r) ∧ reading b = some (l, r') ∧ valueOf l r ≠ valueOf l r'

/-- Compared, with one value in two spellings. -/
def Respelled (a b : Str) : Prop :=
  ∃ l r r', reading a = some (l, r) ∧ reading b = some (l, r') ∧ r ≠ r' ∧
    valueOf l r = valueOf l r'

/-- Not compared, though they set a bit differently. -/
def Apart (a b : Str) : Prop :=
  ¬ Compared a b ∧ ∃ f, assignment a = some f ∧ ∃ g, assignment b = some g ∧ f.Clash g

/-- Some two lines that set the feature are related. -/
def Pair (R : Str → Str → Prop) (lines : List Str) (feature : Str) : Prop :=
  ∃ a ∈ lines, Sets feature a ∧ ∃ b ∈ lines, Sets feature b ∧ R a b

theorem assignment_eq_some {ln : Str} {f : SetFasmFeature} :
    assignment ln = some f ↔ ∃ fl, parseFasmLine ln = .ok fl ∧ fl.setFeature = some f := by
  unfold assignment
  cases parseFasmLine ln <;> simp

section Accepted

variable {lines : List Str} (hok : ∀ ln ∈ lines, (parseFasmLine ln).isOk = true)

include hok in
/-- A line the loop reads sets the feature its text left of the `=` gives. -/
theorem exists_assignment {ln l r : Str} (hln : ln ∈ lines) (hr : reading ln = some (l, r)) :
    ∃ f, assignment ln = some f ∧ f.feature = (target l).1 := by
  obtain ⟨fl, hfl⟩ := Checked.exists_of_isOk (hok ln hln)
  obtain ⟨f, hf⟩ := exists_of_reading hfl hr
  refine ⟨f, assignment_eq_some.mpr ⟨fl, hfl, hf⟩, ?_⟩
  rw [← (reading_meaning hfl hf hr).1]

include hok in
theorem sets_iff {feature ln l r : Str} (hln : ln ∈ lines) (hr : reading ln = some (l, r)) :
    Sets feature ln ↔ (target l).1 = feature := by
  obtain ⟨f, hf, hfeat⟩ := exists_assignment hok hln hr
  rw [← hfeat, Sets, hf]
  simp

include hok in
/-- **What the guard reports**: of the lines that set the feature, pairs it
compares with two texts, be the values two or one. -/
theorem guard_reports (assembled : Bool) (feature : Str) :
    Reported lines assembled feature ↔ Pair Differ lines feature ∨ Pair Respelled lines feature := by
  have hread : ∀ {l r}, (l, r) ∈ readings lines → ∃ a ∈ lines, reading a = some (l, r) :=
    fun h => List.mem_filterMap.mp h
  constructor
  · rintro ⟨⟨ln, hln, hset, ⟨t, v⟩, hp, htw⟩, -⟩
    have ht := (sets_iff hok hln (Option.mem_def.mp hp)).mp hset
    obtain ⟨⟨l, r⟩, hq, ⟨l', r'⟩, hq', hl, hl', hne⟩ := mem_twice.mp htw
    obtain rfl : l = t := hl
    obtain rfl : l' = l := hl'
    obtain ⟨a, ha, har⟩ := hread hq
    obtain ⟨b, hb, hbr⟩ := hread hq'
    have hsa := (sets_iff hok ha har).mpr ht
    have hsb := (sets_iff hok hb hbr).mpr ht
    by_cases hv : valueOf l' r = valueOf l' r'
    · exact Or.inr ⟨a, ha, hsa, b, hb, hsb, l', r, r', har, hbr, hne, hv⟩
    · exact Or.inl ⟨a, ha, hsa, b, hb, hsb, l', r, r', har, hbr, hv⟩
  · have hreport : ∀ {a b l r r'}, a ∈ lines → Sets feature a → b ∈ lines →
        reading a = some (l, r) → reading b = some (l, r') → r ≠ r' →
        Reported lines assembled feature := by
      intro a b l r r' ha hsa hb har hbr hne
      have htw : l ∈ twice lines := mem_twice.mpr
        ⟨_, List.mem_filterMap.mpr ⟨a, ha, har⟩, _, List.mem_filterMap.mpr ⟨b, hb, hbr⟩,
          rfl, rfl, hne⟩
      exact ⟨⟨a, ha, hsa, _, har, htw⟩, if_pos (List.ne_nil_of_mem htw)⟩
    rintro (⟨a, ha, hsa, b, hb, -, l, r, r', har, hbr, hv⟩ |
      ⟨a, ha, hsa, b, hb, -, l, r, r', har, hbr, hne, -⟩)
    · exact hreport ha hsa hb har hbr fun e => hv (by rw [e])
    · exact hreport ha hsa hb har hbr hne

end Accepted

/-- Two assignments with one text left of the `=` clash exactly if their values
differ. -/
theorem clash_of_reading {a b l r r' : Str} {f g : SetFasmFeature} (hf : assignment a = some f)
    (hg : assignment b = some g) (har : reading a = some (l, r)) (hbr : reading b = some (l, r')) :
    f.Clash g ↔ valueOf l r ≠ valueOf l r' := by
  obtain ⟨fl, hfl, hf⟩ := assignment_eq_some.mp hf
  obtain ⟨gl, hgl, hg⟩ := assignment_eq_some.mp hg
  obtain ⟨hft, hfv, hffits⟩ := reading_meaning hfl hf har
  obtain ⟨hgt, hgv, hgfits⟩ := reading_meaning hgl hg hbr
  have ht := hft.trans hgt.symm
  by_cases hl : '#' ∈ l
  · -- both values are left out
    have hv : ∀ r, valueOf l r = some 1 := fun r => if_pos hl
    rw [hv, hv, ne_eq, eq_self, not_true, iff_false]
    rintro ⟨-, x, -, -, hx⟩
    rw [hv] at hfv hgv
    refine hx ?_
    rw [SetFasmFeature.bitAt, SetFasmFeature.bitAt, Option.some.inj hfv, Option.some.inj hgv,
      (Prod.mk.inj (Prod.mk.inj ht).2).1]
  · rw [SetFasmFeature.clash_iff ht (hffits hl) (hgfits hl), ← hfv, ← hgv, ne_eq, ne_eq,
      Option.some.injEq]

/-- **What the lines set twice**: on accepted lines that set the feature, values
that differ where the loop compares, and the clashes it does not see. -/
theorem conflict_iff {lines : List Str} (hok : ∀ ln ∈ lines, (parseFasmLine ln).isOk = true)
    (feature : Str) :
    Conflict lines feature ↔ Pair Differ lines feature ∨ Pair Apart lines feature := by
  constructor
  · rintro ⟨f, hf, hfeat, g, hg, hclash⟩
    obtain ⟨a, ha, hf⟩ := List.mem_filterMap.mp hf
    obtain ⟨b, hb, hg⟩ := List.mem_filterMap.mp hg
    have hsa : Sets feature a := ⟨f, hf, hfeat⟩
    have hsb : Sets feature b := ⟨g, hg, hclash.1.symm.trans hfeat⟩
    by_cases hcmp : Compared a b
    · obtain ⟨l, r, r', har, hbr⟩ := hcmp
      exact Or.inl ⟨a, ha, hsa, b, hb, hsb, l, r, r', har, hbr,
        (clash_of_reading hf hg har hbr).mp hclash⟩
    · exact Or.inr ⟨a, ha, hsa, b, hb, hsb, hcmp, f, hf, g, hg, hclash⟩
  · have hmem : ∀ {ln f}, ln ∈ lines → assignment ln = some f → f ∈ lines.filterMap assignment :=
      fun hln hf => List.mem_filterMap.mpr ⟨_, hln, hf⟩
    rintro (⟨a, ha, ⟨f, hf, hfeat⟩, b, hb, -, l, r, r', har, hbr, hv⟩ |
      ⟨a, ha, ⟨f, hf, hfeat⟩, b, hb, -, -, f', hf', g, hg, hclash⟩)
    · obtain ⟨g, hg, -⟩ := exists_assignment hok hb hbr
      exact ⟨f, hmem ha hf, hfeat, g, hmem hb hg, (clash_of_reading hf hg har hbr).mpr hv⟩
    · obtain rfl : f = f' := Option.some.inj (hf.symm.trans hf')
      exact ⟨f, hmem ha hf, hfeat, g, hmem hb hg, hclash⟩

/-- **When the guard is right about a feature**: if two lines it compares differ
in value, or if the feature has both a false alarm and a miss, or neither. -/
theorem guard_exact_iff (lines : List Str) (assembled : Bool)
    (hok : ∀ ln ∈ lines, (parseFasmLine ln).isOk = true) (feature : Str) :
    (Reported lines assembled feature ↔ Conflict lines feature) ↔
      Pair Differ lines feature ∨ (Pair Respelled lines feature ↔ Pair Apart lines feature) := by
  rw [guard_reports hok, conflict_iff hok]
  tauto

/-- An INIT set to two values is reported. -/
theorem guard_exact_init :
    Reported ["A.INIT[1:0]=2'b01".toList, "A.INIT[1:0]=2'b10 # route-through".toList] true
        "A.INIT".toList ↔
      Conflict ["A.INIT[1:0]=2'b01".toList, "A.INIT[1:0]=2'b10 # route-through".toList]
        "A.INIT".toList :=
  (guard_exact_iff _ true (by decide) _).mpr <| Or.inl
    ⟨_, List.mem_cons_self, by decide, _, List.mem_cons_of_mem _ List.mem_cons_self, by decide,
      "A.INIT[1:0]".toList, "2'b01".toList, "2'b10 # route-through".toList,
      by decide, by decide, by decide⟩

/-- The guard is wrong both ways: it refuses one assignment in two bases or
with a comment, and passes a range against a part of it, and a feature
against the same feature set to 0. The last file has a false alarm about `A` and
a miss about `B`. -/
theorem guard_inexact :
    (∀ l ∈ ["A.INIT[1:0]=2'b01".toList, "A.INIT[1:0]=2'd1".toList, "A.INIT[0:0]=1'b0".toList,
      "A=1".toList, "A=1 # again".toList, "B".toList, "B=0".toList], (assignment l).isSome) ∧
    ¬ (Reported ["A.INIT[1:0]=2'b01".toList, "A.INIT[1:0]=2'd1".toList] true "A.INIT".toList ↔
      Conflict ["A.INIT[1:0]=2'b01".toList, "A.INIT[1:0]=2'd1".toList] "A.INIT".toList) ∧
    ¬ (Reported ["A.INIT[1:0]=2'b01".toList, "A.INIT[0:0]=1'b0".toList] true "A.INIT".toList ↔
      Conflict ["A.INIT[1:0]=2'b01".toList, "A.INIT[0:0]=1'b0".toList] "A.INIT".toList) ∧
    ∀ feature ∈ ["A".toList, "B".toList],
      ¬ (Reported ["A=1".toList, "A=1 # again".toList, "B".toList, "B=0".toList] true feature ↔
        Conflict ["A=1".toList, "A=1 # again".toList, "B".toList, "B=0".toList] feature) := by
  decide

end Fasm
end Xc7Tools
