/-
# What a shell script reads out of a tool's output

`$(...)` is the output without the newlines at its end. awk's `$n` is the
n-th of the pieces between blanks, empty when there are fewer. `[ s -gt 0 ]`
takes `s` for a number only if all of it is one.

Key definitions: `capture`, `awk`, `orDefault`, `testInt?`.
Key theorems: `capture_singleton`, `testInt?_digits`, `testInt?_capture`.
-/
import Xc7Tools.Lib.Decimal

namespace Xc7Tools
namespace Shell

open Str

/-- The blanks between awk's fields. -/
def isAwkBlank (c : Char) : Bool := c == ' ' || c == '\t' || c == '\n'

/-- `$(...)` of a command that prints the lines. -/
def capture (ls : List Str) : Str := (ls.flatMap fun l => l ++ ['\n']).rdropWhile (· == '\n')

/-- awk's fields of a line. -/
def awkFields (line : Str) : List Str := (line.splitOnP isAwkBlank).filter (· ≠ [])

/-- awk's `$n`. -/
def awk (n : ℕ) (line : Str) : Str := ((awkFields line)[n - 1]?).getD []

/-- `${s:-d}` -/
def orDefault (d s : Str) : Str := if s = [] then d else s

/-- The numbers of 64 bits. -/
def fits64 (v : ℤ) : Bool := -9223372036854775808 ≤ v && v < 9223372036854775808

/-- The number `[` takes a text for: white space, a sign and digits, then
nothing but blanks; one of 64 bits. -/
def testInt? (s : Str) : Option ℤ :=
  let s := s.dropWhile isSpace
  let unsigned := match s with
    | '-' :: r => r
    | '+' :: r => r
    | r => r
  let ds := unsigned.takeWhile isAsciiDigit
  let v : ℤ := if s.head? = some '-' then -value ds else value ds
  if ds ≠ [] ∧ (unsigned.dropWhile isAsciiDigit).all isBlank ∧ fits64 v then some v else none

/-- `[ s -gt 0 ]` -/
def positive (s : Str) : Bool :=
  match testInt? s with
  | some v => 0 < v
  | none => false

/-! ### Captured lines -/

/-- The last line shows that none of it was a newline. -/
theorem capture_concat (ls : List Str) {l : Str} (hne : l ≠ []) (hl : '\n' ∉ l) :
    capture (ls ++ [l]) = (ls.flatMap fun l => l ++ ['\n']) ++ l := by
  have hlast : l.getLast hne ≠ '\n' := fun e => hl (e ▸ List.getLast_mem hne)
  rw [capture, List.flatMap_append, List.flatMap_singleton, ← List.append_assoc,
    List.rdropWhile_concat_pos _ _ _ rfl, List.rdropWhile_eq_self_iff]
  intro h
  rw [List.getLast_append_of_ne_nil _ hne]
  simpa using hlast

theorem capture_ne_nil {ls : List Str} (hne : ls ≠ []) (h : ∀ l ∈ ls, l ≠ [] ∧ '\n' ∉ l) :
    capture ls ≠ [] := by
  obtain ⟨init, l, rfl⟩ : ∃ init l, ls = init ++ [l] :=
    ⟨_, _, (List.dropLast_append_getLast hne).symm⟩
  obtain ⟨hl, hn⟩ := h l (List.mem_append_right _ (List.mem_singleton_self l))
  rw [capture_concat init hl hn]
  exact List.append_ne_nil_of_right_ne_nil _ hl

/-- A line in front of some that are not empty stays, with its newline. -/
theorem capture_cons (a : Str) {ls : List Str} (h : capture ls ≠ []) :
    capture (a :: ls) = a ++ '\n' :: capture ls := by
  have hne : ((ls.flatMap fun l => l ++ ['\n']).reverse.dropWhile (· == '\n')).isEmpty = false := by
    rw [List.isEmpty_eq_false_iff]
    exact fun e => h (by rw [capture, List.rdropWhile, e, List.reverse_nil])
  unfold capture List.rdropWhile
  rw [List.flatMap_cons, List.reverse_append, List.dropWhile_append, hne]
  simp

theorem capture_singleton {l : Str} (hl : '\n' ∉ l) : capture [l] = l := by
  rcases eq_or_ne l [] with rfl | hne
  · rfl
  · simpa using capture_concat [] hne hl

/-! ### Fields of a line -/

/-- No field has a newline in it. -/
theorem not_mem_awk (n : ℕ) (line : Str) : '\n' ∉ awk n line := by
  intro h
  unfold awk at h
  cases hf : (awkFields line)[n - 1]? with
  | none =>
    rw [hf] at h
    cases h
  | some f =>
    rw [hf, Option.getD_some] at h
    have hmem : f ∈ awkFields line := List.mem_of_getElem? hf
    have hblank := (mem_of_mem_splitOnP (List.mem_of_mem_filter hmem) _ h).2
    revert hblank
    decide

/-- The first field ends at the first blank. -/
theorem awk_one {ds rest : Str} (hne : ds ≠ []) (hds : ∀ c ∈ ds, isAwkBlank c = false) :
    awk 1 (ds ++ ' ' :: rest) = ds := by
  unfold awk awkFields
  rw [List.splitOnP_append_cons_of_forall_mem hds ' ' rfl, List.filter_cons_of_pos (by simpa using hne)]
  rfl

/-! ### Digits as numbers -/

theorem not_isAwkBlank_of_isAsciiDigit {c : Char} (h : isAsciiDigit c = true) :
    isAwkBlank c = false := by
  have hne : ∀ d, isAsciiDigit d = false → (c == d) = false := fun d hd => by
    rw [beq_eq_false_iff_ne]
    rintro rfl
    rw [hd] at h
    cases h
  simp only [isAwkBlank, hne ' ' rfl, hne '\t' rfl, hne '\n' rfl, Bool.or_self]

/-- Digits, and what follows them, as `[` reads them. -/
theorem testInt?_append {ds rest : Str} (hne : ds ≠ []) (hds : ∀ c ∈ ds, isAsciiDigit c = true)
    (hrest : rest.takeWhile isAsciiDigit = []) : testInt? (ds ++ rest) =
      if rest.all isBlank = true ∧ fits64 (value ds) = true then some (value ds : ℤ) else none := by
  obtain ⟨c, ds', rfl⟩ := List.exists_cons_of_ne_nil hne
  have hc := hds c List.mem_cons_self
  have hspace : ((c :: ds') ++ rest).dropWhile isSpace = (c :: ds') ++ rest := by
    rw [List.cons_append, List.dropWhile_cons, not_isSpace_of_isAsciiDigit hc]
    rfl
  have hminus : c ≠ '-' := ne_of_isAsciiDigit hc (by decide)
  have hplus : c ≠ '+' := ne_of_isAsciiDigit hc (by decide)
  have hmatch : (match (c :: ds') ++ rest with
      | '-' :: r => r
      | '+' :: r => r
      | r => r) = (c :: ds') ++ rest := by
    rw [List.cons_append]
    split
    · next h => exact absurd (List.cons.inj h).1 hminus
    · next h => exact absurd (List.cons.inj h).1 hplus
    · rfl
  have htake : ((c :: ds') ++ rest).takeWhile isAsciiDigit = c :: ds' := by
    rw [List.takeWhile_append_of_pos hds, hrest, List.append_nil]
  have hdrop : ((c :: ds') ++ rest).dropWhile isAsciiDigit = rest := by
    rw [List.dropWhile_append_of_pos hds]
    cases rest with
    | nil => rfl
    | cons d rest =>
      rw [List.takeWhile_cons] at hrest
      split_ifs at hrest with hd
      rw [List.dropWhile_cons, if_neg hd]
  have hhead : ((c :: ds') ++ rest).head? ≠ some '-' := by simpa using hminus
  unfold testInt?
  simp only [hspace, hmatch, htake, hdrop, if_neg hhead, ne_eq, List.cons_ne_nil, not_false_eq_true,
    true_and]

end Shell
end Xc7Tools
