/-
# nfsroot_dtb: the script

`scripts/nfsroot_dtb.py`, from the text of a device tree to the text it hands to
`dtc`. `retarget` is what it does to the command line. The replacement is a
template to `re`: a backslash of the server's path is taken for an escape. What
is printed and the two runs of `dtc` are left out.

Key definitions: `parseTemplate`, `retarget`, `patch`.
Key theorems: `parseTemplate_of_plain`, `getLast?_parseTemplate`, `retarget_eq_ok`.
-/
import Xc7Tools.Lib.Checked
import Xc7Tools.Lib.Decimal
import Xc7Tools.Lib.Pattern

namespace Xc7Tools
namespace NfsrootDtb

open Str Checked Pattern

/-! ### Templates -/

/-- A part of a template of `re.sub`: a character, or the word that was matched. -/
inductive Part where
  | char (c : Char)
  | whole
  deriving DecidableEq

/-- `ESCAPES`, of the letter behind the backslash. -/
def escape? : Char → Option Char
  | 'a' => some (Char.ofNat 7)
  | 'b' => some (Char.ofNat 8)
  | 'f' => some (Char.ofNat 12)
  | 'n' => some '\n'
  | 'r' => some '\r'
  | 't' => some '\t'
  | 'v' => some (Char.ofNat 11)
  | '\\' => some '\\'
  | _ => none

/-- `OCTDIGITS` -/
def isOct (c : Char) : Bool := '0' ≤ c ∧ c ≤ '7'

/-- `int(ds, 8)` -/
def octal (ds : Str) : ℕ := ds.foldl (fun n c => 8 * n + (c.toNat - '0'.toNat)) 0

theorem length_of_dropWhile_eq_cons {p : Char → Bool} {s r : Str} {c : Char}
    (h : s.dropWhile p = c :: r) : r.length < s.length := by
  have hle := (List.dropWhile_suffix p (l := s)).length_le
  rw [h] at hle
  exact hle

/-- `parse_template`, of a pattern without groups; none is an `re.error` or an IndexError. -/
def parseTemplate : Str → Option (List Part)
  | [] => some []
  | '\\' :: 'g' :: '<' :: s =>
    match h : s.dropWhile (· != '>') with
    | [] => none
    | _ :: r =>
      have := length_of_dropWhile_eq_cons h
      if Str.int? (s.takeWhile (· != '>')) = some 0 then (parseTemplate r).map (Part.whole :: ·)
      else none
  | '\\' :: '0' :: s =>
    let ds := (s.take 2).takeWhile isOct
    (parseTemplate (s.drop ds.length)).map (Part.char (Char.ofNat (octal ds)) :: ·)
  | '\\' :: c :: s =>
    if isAsciiDigit c then
      -- three octal digits, or a group
      match s with
      | d :: e :: r =>
        if [c, d, e].all isOct ∧ octal [c, d, e] ≤ 0o377 then
          (parseTemplate r).map (Part.char (Char.ofNat (octal [c, d, e])) :: ·)
        else none
      | _ => none
    else
      match escape? c with
      | some c' => (parseTemplate s).map (Part.char c' :: ·)
      | none =>
        if c.isAlpha then none
        else (parseTemplate s).map fun ps => Part.char '\\' :: Part.char c :: ps
  | ['\\'] => none
  | c :: s => (parseTemplate s).map (Part.char c :: ·)
termination_by s => s.length
decreasing_by all_goals (simp only [List.length_cons, List.length_drop]; omega)

/-- `expand_template`: the text that takes the place of a word. -/
def expand (ps : List Part) (w : Str) : Str :=
  ps.flatMap fun
    | .char c => [c]
    | .whole => w

/-! ### The script -/

inductive Error where
  /-- "no bootargs in {src}" -/
  | noBootargs
  /-- "bootargs has no root= to replace" -/
  | noRoot
  /-- "bootargs has no ip= -- NFS root needs kernel IP autoconfiguration" -/
  | noIp
  /-- `re` refuses the template. -/
  | template (t : Str)
  deriving DecidableEq

/-- `r'bootargs\s*=\s*"'`, what is in front of the group. -/
def bootargsKey : Pattern Char :=
  all [lit "bootargs".toList, star isSpace, lit "=".toList, star isSpace, lit ['"']]

/-- `r'bootargs\s*=\s*"([^"]*)"'` -/
def bootargs : Pattern Char := all [bootargsKey, star (· != '"'), lit ['"']]

/-- `r"root=\S+"` -/
def rootArg : Pattern Char := seq (lit "root=".toList) (plus fun c => !isSpace c)

/-- `f"root=/dev/nfs rw nfsroot={nfsroot},vers=3,tcp,nolock"` -/
def replacement (nfsroot : Str) : Str :=
  "root=/dev/nfs rw nfsroot=".toList ++ nfsroot ++ ",vers=3,tcp,nolock".toList

/-- `r"\s*linux,initrd-(start|end)\s*=\s*<"`, the front of a property of the initrd. -/
def initrdKey : Pattern Char :=
  all [star isSpace, lit "linux,initrd-".toList, alt (lit "start".toList) (lit "end".toList),
    star isSpace, lit "=".toList, star isSpace, lit "<".toList]

/-- `r"\s*linux,initrd-(start|end)\s*=\s*<[^>]*>;"` -/
def initrdProp : Pattern Char := seq initrdKey (seq (star (· != '>')) (lit ">;".toList))

/-- From `args` to `new`. -/
def retarget (nfsroot args : Str) : Except Error Str := do
  if isIn "root=".toList args = false then
    throw .noRoot
  let ps ← orRaise (.template (replacement nfsroot)) (parseTemplate (replacement nfsroot))
  let new := sub (expand ps) rootArg args
  if isIn "ip=".toList new = false then
    throw .noIp
  return new

/-- `re.subn(..., "", dts)` -/
def dropInitrd (dts : Str) : Str := sub (fun _ => []) initrdProp dts

/-- `main`, from the text of the tree to the text that is compiled. -/
def patch (nfsroot dts : Str) : Except Error Str := do
  let (before, w, after) ← orRaise .noBootargs (bootargs.search dts)
  -- group 1 of the match
  let args := ((bootargsKey.rest (w ++ after)).getD []).takeWhile (· != '"')
  let new ← retarget nfsroot args
  return dropInitrd (before ++ w.take (w.length - (args.length + 1)) ++ new ++ ('"' :: after))

/-! ### Templates, read -/

theorem parseTemplate_cons {c : Char} (hc : c ≠ '\\') (s : Str) :
    parseTemplate (c :: s) = (parseTemplate s).map (Part.char c :: ·) := by
  rw [parseTemplate]
  · exact fun _ h => absurd h hc
  · exact fun _ h => absurd h hc
  · exact fun _ _ h => absurd h hc
  · exact fun h => absurd h hc

/-- A template without a backslash is itself. -/
theorem parseTemplate_of_plain : ∀ {s : Str}, '\\' ∉ s → parseTemplate s = some (s.map Part.char)
  | [], _ => by rw [parseTemplate]; rfl
  | c :: s, h => by
    have hc : c ≠ '\\' := fun e => h (e ▸ List.mem_cons_self)
    rw [parseTemplate_cons hc, parseTemplate_of_plain fun hm => h (List.mem_cons_of_mem c hm)]
    rfl

theorem expand_map_char (s w : Str) : expand (s.map Part.char) w = s := by
  rw [expand, List.flatMap_map]
  exact List.flatMap_singleton' s

/-- The last character is behind the front, if that has another one. -/
theorem getLast?_of_append {α : Type*} (front : List α) {r : List α} {c : α}
    (h : (front ++ r).getLast? = some c) (hfront : front.getLast? ≠ some c) :
    r.getLast? = some c := by
  rcases eq_or_ne r [] with rfl | hr
  · rw [List.append_nil] at h
    exact absurd h hfront
  · rwa [List.getLast?_append_of_ne_nil _ hr] at h

theorem getLast?_cons_of_some {α : Type*} {x c : α} {xs : List α} (h : xs.getLast? = some c) :
    (x :: xs).getLast? = some c := by
  have hne : xs ≠ [] := by
    rintro rfl
    cases h
  rw [List.getLast?_cons_of_ne_nil hne, h]

/-- A letter at the end that is no escape stands there for itself. -/
theorem getLast?_parseTemplate (t : Str) : ∀ ps, t.getLast? = some 'k' →
    parseTemplate t = some ps → ps.getLast? = some (.char 'k') := by
  have hstep : ∀ (front : Str) {r : Str} {x : Part} {ps : List Part}, (front ++ r).getLast? = some 'k' →
      front.getLast? ≠ some 'k' →
      (∀ ps, r.getLast? = some 'k' → parseTemplate r = some ps → ps.getLast? = some (.char 'k')) →
      (parseTemplate r).map (x :: ·) = some ps → ps.getLast? = some (.char 'k') := by
    intro front r x ps h hfront ih hps
    obtain ⟨qs, hqs, rfl⟩ := Option.map_eq_some_iff.mp hps
    exact getLast?_cons_of_some (ih qs (getLast?_of_append front h hfront) hqs)
  fun_induction parseTemplate t with
  | case1 => exact fun ps h => by cases h
  | case2 s h => exact fun ps _ h => by cases h
  | case3 s c r hdrop _ hname ih =>
    intro ps h hps
    have hc : c = '>' := by
      have hhead := List.head_dropWhile_not (· != '>') (l := s) (by rw [hdrop]; exact List.cons_ne_nil _ _)
      simpa [hdrop] using hhead
    have hs : s = s.takeWhile (· != '>') ++ c :: r := by
      rw [← hdrop, List.takeWhile_append_dropWhile]
    have hfront : '\\' :: 'g' :: '<' :: s =
        (('\\' :: 'g' :: '<' :: s.takeWhile (· != '>')) ++ [c]) ++ r := by
      conv_lhs => rw [hs]
      simp
    rw [hfront] at h
    refine hstep _ h ?_ ih hps
    rw [List.getLast?_concat, hc]
    decide
  | case4 s c r hdrop _ hname => exact fun ps _ h => by cases h
  | case5 s ds ih =>
    intro ps h hps
    have hs : s = ds ++ s.drop ds.length := by
      have hpre : ds <+: s := (List.takeWhile_prefix _).trans (List.take_prefix 2 s)
      obtain ⟨r, hr⟩ := hpre
      conv_rhs => rw [← hr]
      rw [List.drop_left, hr]
    have hfront : '\\' :: '0' :: s = ('\\' :: '0' :: ds) ++ s.drop ds.length := by
      conv_lhs => rw [hs]
      rfl
    rw [hfront] at h
    refine hstep _ h (fun hlast => ?_) ih hps
    rcases List.mem_cons.mp (List.mem_of_getLast? hlast) with hk | hk
    · exact absurd hk (by decide)
    · rcases List.mem_cons.mp hk with hk | hk
      · exact absurd hk (by decide)
      · exact absurd (List.mem_takeWhile_imp hk) (by decide)
  | case6 c h0 hdigit d e r hoct _ ih =>
    intro ps h hps
    refine hstep ['\\', c, d, e] h (fun hlast => ?_) ih hps
    have he : e = 'k' := Option.some.inj hlast
    have hall := hoct.1
    rw [he] at hall
    simp [isOct] at hall
  | case7 c h0 hdigit d e r hoct _ => exact fun ps _ h => by cases h
  | case8 c s _ h0 hdigit _ => exact fun ps _ h => by cases h
  | case9 c s _ h0 hdigit c' hescape ih =>
    intro ps h hps
    refine hstep ['\\', c] h (fun hlast => ?_) ih hps
    have hc : c = 'k' := Option.some.inj hlast
    rw [hc] at hescape
    cases hescape
  | case10 c s _ h0 hdigit hescape halpha => exact fun ps _ h => by cases h
  | case11 c s _ h0 hdigit hescape halpha ih =>
    intro ps h hps
    obtain ⟨qs, hqs, rfl⟩ := Option.map_eq_some_iff.mp hps
    refine getLast?_cons_of_some (getLast?_cons_of_some (ih qs ?_ hqs))
    refine getLast?_of_append ['\\', c] h fun hlast => ?_
    have hc : c = 'k' := Option.some.inj hlast
    rw [hc] at halpha
    exact absurd rfl halpha
  | case12 => exact fun ps _ h => by cases h
  | case13 c s _ _ _ _ ih =>
    intro ps h hps
    obtain ⟨qs, hqs, rfl⟩ := Option.map_eq_some_iff.mp hps
    rcases eq_or_ne s [] with rfl | hs
    · rw [parseTemplate] at hqs
      rw [← Option.some.inj hqs, ← Option.some.inj h]
      rfl
    · rw [List.getLast?_cons_of_ne_nil hs] at h
      exact getLast?_cons_of_some (ih qs h hqs)

/-! ### The command line -/

theorem retarget_eq_ok {nfsroot args new : Str} : retarget nfsroot args = .ok new ↔
    isIn "root=".toList args = true ∧ ∃ ps, parseTemplate (replacement nfsroot) = some ps ∧
      new = sub (expand ps) rootArg args ∧ isIn "ip=".toList new = true := by
  unfold retarget
  cases hroot : isIn "root=".toList args with
  | false => simp [throw, throwThe, MonadExceptOf.throw, bind, Except.bind]
  | true =>
    simp only [Bool.true_eq_false, if_false, true_and, bind_eq_ok, orRaise_eq_ok]
    constructor
    · rintro ⟨ps, hps, h⟩
      cases hip : isIn "ip=".toList (sub (expand ps) rootArg args) with
      | false =>
        rw [if_pos hip] at h
        cases h
      | true =>
        rw [if_neg (ne_false_of_eq_true hip), pure_eq_ok] at h
        exact ⟨ps, hps, h.symm, h ▸ hip⟩
    · rintro ⟨ps, hps, rfl, hip⟩
      refine ⟨ps, hps, ?_⟩
      rw [if_neg (ne_false_of_eq_true hip), pure_eq_ok]

end NfsrootDtb
end Xc7Tools
