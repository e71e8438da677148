/-
# Lines of text

A file read in text mode has every `\r\n` and `\r` turned into `\n`; its lines
are what lies between. Lines without a line break survive being joined and
read back, but for an empty line at the end that `render` puts there; and a
text without one that stands in the lines stands in one of them.

Key definitions: `Str.universal`, `Str.linesOf`, `Str.render`, `Str.fields`,
`Str.Solid`.
Key theorems: `Str.Solid.strip_eq`, `Str.splitOn_flatMap`,
`Str.unbroken_of_mem_linesOf`, `Str.linesOf_render`, `Str.infix_of_infix_lines`.
-/
import Xc7Tools.Lib.Str

namespace Xc7Tools
namespace Str

/-- What `open(p).read()` makes of a text. -/
def universal : Str → Str
  | '\r' :: '\n' :: s => '\n' :: universal s
  | '\r' :: s => '\n' :: universal s
  | c :: s => c :: universal s
  | [] => []

/-- `open(p).read().split('\n')` -/
def linesOf (text : Str) : List Str := (universal text).splitOn '\n'

/-- `'\n'.join(ls) + ('\n' if ls and ls[-1] else '')` -/
def render (ls : List Str) : Str :=
  ['\n'].intercalate ls ++ if (ls.getLast?.getD []) ≠ [] then ['\n'] else []

/-- `s.split()` -/
def fields (s : Str) : List Str := (s.splitOnP isSpace).filter (· ≠ [])

/-- There is no line break in the text. -/
def Unbroken (s : Str) : Prop := '\n' ∉ s ∧ '\r' ∉ s

/-- A text without white space. -/
def Solid (s : Str) : Prop := ∀ c ∈ s, isSpace c = false

instance : DecidablePred Solid := fun s => List.decidableBAll _ s

theorem Solid.append {s t : Str} (hs : Solid s) (ht : Solid t) : Solid (s ++ t) := fun c hc =>
  (List.mem_append.mp hc).elim (hs c) (ht c)

theorem Solid.unbroken {s : Str} (h : Solid s) : Unbroken s :=
  ⟨fun hm => absurd (h _ hm) (by decide), fun hm => absurd (h _ hm) (by decide)⟩

theorem Solid.strip_eq {s : Str} (h : Solid s) : strip s = s := by
  have hdrop : s.dropWhile isSpace = s := by
    cases s with
    | nil => rfl
    | cons c s => rw [List.dropWhile_cons, h c List.mem_cons_self]; rfl
  rw [strip, hdrop, List.rdropWhile_eq_self_iff]
  intro hne
  rw [h _ (List.getLast_mem hne)]
  exact Bool.false_ne_true

theorem not_mem_universal (s : Str) : '\r' ∉ universal s := by
  fun_induction universal s with
  | case1 s ih => simpa using ih
  | case2 s _ ih => simpa using ih
  | case3 c s _ hc ih =>
    have hne : '\r' ≠ c := fun e => hc e.symm
    simpa [hne] using ih
  | case4 => exact List.not_mem_nil

theorem universal_of_not_mem {s : Str} (h : '\r' ∉ s) : universal s = s := by
  fun_induction universal s with
  | case1 s ih => exact absurd List.mem_cons_self h
  | case2 s _ ih => exact absurd List.mem_cons_self h
  | case3 c s _ _ ih => rw [ih fun hm => h (List.mem_cons_of_mem _ hm)]
  | case4 => rfl

/-- The pieces of a split are pieces of the text without the separators. -/
theorem mem_of_mem_splitOnP {p : Char → Bool} : ∀ {s l : Str}, l ∈ s.splitOnP p →
    ∀ c ∈ l, c ∈ s ∧ p c = false
  | [], l, hl, c, hc => by
    rw [List.mem_singleton.mp hl] at hc
    cases hc
  | d :: s, l, hl, c, hc => by
    rw [List.splitOnP_cons_eq_if_modifyHead] at hl
    split_ifs at hl with hd
    · rcases List.mem_cons.mp hl with rfl | hl
      · cases hc
      · obtain ⟨h1, h2⟩ := mem_of_mem_splitOnP hl c hc
        exact ⟨List.mem_cons_of_mem _ h1, h2⟩
    · obtain ⟨l₀, ls, hls⟩ := List.exists_cons_of_ne_nil (List.splitOnP_ne_nil p s)
      rw [hls, List.modifyHead_cons] at hl
      rcases List.mem_cons.mp hl with rfl | hl
      · rcases List.mem_cons.mp hc with rfl | hc
        · exact ⟨List.mem_cons_self, by simpa using hd⟩
        · obtain ⟨h1, h2⟩ := mem_of_mem_splitOnP (hls ▸ List.mem_cons_self) c hc
          exact ⟨List.mem_cons_of_mem _ h1, h2⟩
      · obtain ⟨h1, h2⟩ := mem_of_mem_splitOnP (hls ▸ List.mem_cons_of_mem _ hl) c hc
        exact ⟨List.mem_cons_of_mem _ h1, h2⟩

theorem mem_of_mem_splitOn {sep : Char} {s l : Str} (hl : l ∈ s.splitOn sep) :
    ∀ c ∈ l, c ∈ s ∧ c ≠ sep := fun c hc => by
  rw [List.splitOn_eq_splitOnP] at hl
  obtain ⟨h1, h2⟩ := mem_of_mem_splitOnP hl c hc
  exact ⟨h1, by simpa using h2⟩

/-- A text whose lines are all ended, at its line breaks. -/
theorem splitOn_flatMap : ∀ {ls : List Str}, (∀ l ∈ ls, '\n' ∉ l) →
    (ls.flatMap (· ++ ['\n'])).splitOn '\n' = ls ++ [[]]
  | [], _ => rfl
  | l :: ls, h => by
    have ih := splitOn_flatMap fun l' hl' => h l' (List.mem_cons_of_mem _ hl')
    have hassoc : (l :: ls).flatMap (· ++ ['\n']) = l ++ '\n' :: ls.flatMap (· ++ ['\n']) := by
      simp
    rw [hassoc, List.splitOn_append_cons_self_of_not_mem (h l List.mem_cons_self), ih,
      List.cons_append]

theorem unbroken_of_mem_linesOf {text l : Str} (h : l ∈ linesOf text) : Unbroken l :=
  ⟨fun hm => (mem_of_mem_splitOn h _ hm).2 rfl,
    fun hm => not_mem_universal text (mem_of_mem_splitOn h _ hm).1⟩

theorem mem_of_mem_intercalate {sep c : Char} : ∀ {ls : List Str}, c ∈ [sep].intercalate ls →
    c = sep ∨ ∃ l ∈ ls, c ∈ l
  | [], h => by cases h
  | [l], h => Or.inr ⟨l, List.mem_singleton_self l, by simpa using h⟩
  | l :: l' :: ls, h => by
    rw [List.intercalate_cons_cons] at h
    rcases List.mem_append.mp h with h | h
    · rcases List.mem_append.mp h with h | h
      · exact Or.inr ⟨l, List.mem_cons_self, h⟩
      · exact Or.inl (List.mem_singleton.mp h)
    · rcases mem_of_mem_intercalate h with h | ⟨k, hk, h⟩
      · exact Or.inl h
      · exact Or.inr ⟨k, List.mem_cons_of_mem _ hk, h⟩

/-- What is rendered is the lines joined, or the lines and an empty one. -/
theorem render_eq (ls : List Str) : ∃ ls', ls' ≠ [] ∧ (ls' = ls ∨ ls' = ls ++ [[]]) ∧
    render ls = ['\n'].intercalate ls' := by
  rcases eq_or_ne ls [] with rfl | hne
  · exact ⟨[[]], List.cons_ne_nil _ _, Or.inr rfl, rfl⟩
  · unfold render
    split_ifs with hlast
    · have hcat : ['\n'].intercalate (ls ++ [[]]) = ['\n'].intercalate ls ++ ['\n'] := by
        rw [intercalate_append hne (List.cons_ne_nil _ _), List.intercalate_singleton,
          List.append_nil]
      exact ⟨ls ++ [[]], by simp, Or.inr rfl, hcat.symm⟩
    · exact ⟨ls, hne, Or.inl rfl, List.append_nil _⟩

/-- Lines without a break are read back, with an empty line at the end where
`render` ends the last one. -/
theorem linesOf_render {ls : List Str} (h : ∀ l ∈ ls, Unbroken l) :
    linesOf (render ls) = ls ∨ linesOf (render ls) = ls ++ [[]] := by
  obtain ⟨ls', hne, hls', hrender⟩ := render_eq ls
  have hunbroken : ∀ l ∈ ls', Unbroken l := by
    intro l hl
    rcases hls' with rfl | rfl
    · exact h l hl
    · rcases List.mem_append.mp hl with hl | hl
      · exact h l hl
      · rw [List.mem_singleton.mp hl]
        exact ⟨List.not_mem_nil, List.not_mem_nil⟩
  have hcr : '\r' ∉ ['\n'].intercalate ls' := by
    intro hm
    rcases mem_of_mem_intercalate hm with hm | ⟨l, hl, hm⟩
    · exact absurd hm (by decide)
    · exact (hunbroken l hl).2 hm
  have hlines : linesOf (render ls) = ls' := by
    rw [linesOf, hrender, universal_of_not_mem hcr,
      List.splitOn_intercalate _ (fun l hl => (hunbroken l hl).1) hne]
  rw [hlines]
  exact hls'

/-! ### Texts in a line -/

/-- What goes over no separator stands on one side of it. -/
theorem infix_of_infix_append_cons {w a b : Str} {sep : Char} (hsep : sep ∉ w)
    (h : w <:+: a ++ sep :: b) : w <:+: a ∨ w <:+: b := by
  have hfront : ∀ v, v ≠ [] → v ⊆ w → ¬ v <+: sep :: b := fun v hv hsub hpre => by
    obtain ⟨c, v, rfl⟩ := List.exists_cons_of_ne_nil hv
    obtain rfl := (List.cons_prefix_cons.mp hpre).1
    exact hsep (hsub List.mem_cons_self)
  rcases List.infix_append_iff_ne_nil.mp h with h | h | ⟨u, v, -, hv, rfl, -, hpre⟩
  · exact .inl h
  · rcases List.infix_cons_iff.mp h with h | h
    · rcases eq_or_ne w [] with rfl | hne
      · exact .inl List.nil_infix
      · exact absurd h (hfront w hne (List.Subset.refl w))
    · exact .inr h
  · exact absurd hpre (hfront v hv (List.subset_append_right u v))

theorem infix_of_infix_lines {w : Str} (hw : w ≠ []) (hn : '\n' ∉ w) : ∀ {ls : List Str},
    w <:+: ls.flatMap (· ++ ['\n']) → ∃ l ∈ ls, w <:+: l
  | [], h => absurd (List.infix_nil.mp h) hw
  | l :: ls, h => by
    rw [List.flatMap_cons, List.append_assoc] at h
    rcases infix_of_infix_append_cons hn h with h | h
    · exact ⟨l, List.mem_cons_self, h⟩
    · obtain ⟨l', hl', h⟩ := infix_of_infix_lines hw hn h
      exact ⟨l', List.mem_cons_of_mem _ hl', h⟩

theorem infix_of_infix_replicate {w s : Str} {sep : Char} (ht : sep ∉ w) : ∀ {n : ℕ},
    w <:+: List.replicate n sep ++ s → w <:+: s
  | 0, h => h
  | n + 1, h => by
    rcases infix_of_infix_append_cons (a := []) ht h with h | h
    · rw [List.infix_nil.mp h]
      exact List.nil_infix
    · exact infix_of_infix_replicate ht h

end Str
end Xc7Tools
