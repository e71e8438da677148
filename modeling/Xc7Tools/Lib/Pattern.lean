/-
# Patterns that do not go back

A regular expression in which every repetition takes all it can get and gives
nothing back. That is what `re` matches wherever no character of a repetition
can begin what stands behind it. A scan takes a text apart from the left, into
the characters that begin no match and the words matched, and a substitution
puts other texts in place of the words.

A character that no part of a pattern takes keeps the matches on its two sides
apart (`rest_append_cons_of_avoids`), and wherever matches are kept apart a
substitution works on the two sides (`scan_append`). What it has put in is known
again if its matches and what it puts in begin with a character that neither has
further on (`Begins.eq_of_rest_sub`).

Key definitions: `Pattern`, `Pattern.rest`, `Pattern.scan`, `Pattern.sub`, `Pattern.search`,
`Pattern.Lang`, `Pattern.Cuts`, `Pattern.Begins`.
Key theorems: `Pattern.exists_word`, `Pattern.rest_append_cons_of_avoids`,
`Pattern.scan_append`, `Pattern.cuts_of_lit`, `Pattern.Begins.eq_of_rest_sub`,
`Pattern.filter_sub`, `Pattern.isIn_render`.
-/
import Xc7Tools.Lib.Str

namespace Xc7Tools

/-- A regular expression over an alphabet; the classes are predicates. -/
inductive Pattern (α : Type*) where
  | empty
  | char (p : α → Bool)
  | star (p : α → Bool)
  | seq (a b : Pattern α)
  | alt (a b : Pattern α)

namespace Pattern

open Str (isIn)

variable {α : Type*}

/-- What a match at the front of a text leaves of it. -/
def rest : Pattern α → List α → Option (List α)
  | empty, s => some s
  | char _, [] => none
  | char p, c :: s => if p c then some s else none
  | star p, s => some (s.dropWhile p)
  | seq a b, s => (a.rest s).bind b.rest
  | alt a b, s => (a.rest s).or (b.rest s)

/-- A text, character by character. -/
def lit [DecidableEq α] (w : List α) : Pattern α := w.foldr (fun c p => .seq (.char (· == c)) p) .empty

/-- `[...]+` -/
def plus (p : α → Bool) : Pattern α := .seq (.char p) (.star p)

/-- `[...]{n}` -/
def times (p : α → Bool) : ℕ → Pattern α
  | 0 => .empty
  | n + 1 => .seq (.char p) (times p n)

/-- One pattern behind the other. -/
def all : List (Pattern α) → Pattern α := fun ps => ps.foldr .seq .empty

/-- Every match takes something. -/
def consumes : Pattern α → Bool
  | empty => false
  | char _ => true
  | star _ => false
  | seq a b => a.consumes || b.consumes
  | alt a b => a.consumes && b.consumes

/-- No part takes the character. -/
def avoids (c : α) : Pattern α → Bool
  | empty => true
  | char p => !p c
  | star p => !p c
  | seq a b => a.avoids c && b.avoids c
  | alt a b => a.avoids c && b.avoids c

/-- The word is one that the pattern can match. -/
def Lang : Pattern α → List α → Prop
  | empty, w => w = []
  | char p, w => ∃ c, w = [c] ∧ p c = true
  | star p, w => ∀ c ∈ w, p c = true
  | seq a b, w => ∃ u v, w = u ++ v ∧ a.Lang u ∧ b.Lang v
  | alt a b, w => a.Lang w ∨ b.Lang w

/-! ### Scanning -/

/-- A character that begins no match, or a word that was matched. -/
inductive Piece (α : Type*) where
  | kept (c : α)
  | hit (w : List α)
  deriving DecidableEq

/-- The pieces behind the next characters, which a match has taken. -/
def scanFrom (p : Pattern α) : ℕ → List α → List (Piece α)
  | _, [] => []
  | k + 1, _ :: s => scanFrom p k s
  | 0, c :: s =>
    match p.rest (c :: s) with
    | some r => .hit ((c :: s).take ((c :: s).length - r.length)) :: scanFrom p (s.length - r.length) s
    | none => .kept c :: scanFrom p 0 s

/-- The pieces of a text, for a pattern that does not match the empty word. -/
def scan (p : Pattern α) (s : List α) : List (Piece α) := scanFrom p 0 s

/-- The pieces put together, with other texts for the words. -/
def render (f : List α → List α) (ps : List (Piece α)) : List α :=
  ps.flatMap fun
    | .kept c => [c]
    | .hit w => f w

/-- `re.sub` -/
def sub (f : List α → List α) (p : Pattern α) (s : List α) : List α := render f (p.scan s)

/-- `re.findall`, of a pattern without groups. -/
def hits (p : Pattern α) (s : List α) : List (List α) :=
  (p.scan s).filterMap fun
    | .kept _ => none
    | .hit w => some w

/-- `re.search`: the text before the first match, the word matched and the text behind. -/
def search (p : Pattern α) : List α → Option (List α × List α × List α)
  | [] => none
  | c :: s =>
    match p.rest (c :: s) with
    | some r => some ([], (c :: s).take ((c :: s).length - r.length), r)
    | none => (search p s).map fun m => (c :: m.1, m.2)

/-- `re.sub` with `count=1`. -/
def subOnce (f : List α → List α) (p : Pattern α) (s : List α) : List α :=
  match p.search s with
  | some (before, w, after) => before ++ f w ++ after
  | none => s

/-! ### Matches -/

section Match

attribute [local simp] rest

/-- A match takes a word of the pattern off the front of the text. -/
theorem exists_word : ∀ {p : Pattern α} {s r : List α}, p.rest s = some r → ∃ w, s = w ++ r ∧ p.Lang w
  | empty, s, r, h => ⟨[], by rw [Option.some.inj h, List.nil_append], rfl⟩
  | char p, [], r, h => by cases h
  | char p, c :: s, r, h => by
    unfold rest at h
    split_ifs at h with hc
    exact ⟨[c], by rw [← Option.some.inj h, List.singleton_append], c, rfl, hc⟩
  | star p, s, r, h => by
    refine ⟨s.takeWhile p, ?_, fun c hc => List.mem_takeWhile_imp hc⟩
    rw [← Option.some.inj h, List.takeWhile_append_dropWhile]
  | seq a b, s, r, h => by
    obtain ⟨t, ha, hb⟩ := Option.bind_eq_some_iff.mp h
    obtain ⟨u, rfl, hu⟩ := exists_word ha
    obtain ⟨v, rfl, hv⟩ := exists_word hb
    exact ⟨u ++ v, (List.append_assoc u v r).symm, u, v, rfl, hu, hv⟩
  | alt a b, s, r, h => by
    rcases Option.or_eq_some_iff.mp h with h | ⟨-, h⟩
    · obtain ⟨w, hw, hlang⟩ := exists_word h
      exact ⟨w, hw, Or.inl hlang⟩
    · obtain ⟨w, hw, hlang⟩ := exists_word h
      exact ⟨w, hw, Or.inr hlang⟩

theorem ne_nil_of_consumes : ∀ {p : Pattern α} {w : List α}, p.consumes = true → p.Lang w → w ≠ []
  | char p, w, _, h => by
    obtain ⟨c, rfl, -⟩ := h
    exact List.cons_ne_nil _ _
  | seq a b, w, hp, h => by
    obtain ⟨u, v, rfl, hu, hv⟩ := h
    rcases Bool.or_eq_true_iff.mp hp with ha | hb
    · exact List.append_ne_nil_of_left_ne_nil (ne_nil_of_consumes ha hu) v
    · exact List.append_ne_nil_of_right_ne_nil u (ne_nil_of_consumes hb hv)
  | alt a b, w, hp, h => by
    obtain ⟨ha, hb⟩ := Bool.and_eq_true_iff.mp hp
    rcases h with h | h
    · exact ne_nil_of_consumes ha h
    · exact ne_nil_of_consumes hb h

theorem rest_nil {p : Pattern α} (hp : p.consumes = true) : p.rest [] = none := by
  cases h : p.rest [] with
  | none => rfl
  | some r =>
    obtain ⟨w, hw, hlang⟩ := exists_word h
    exact absurd (List.append_eq_nil_iff.mp hw.symm).1 (ne_nil_of_consumes hp hlang)

theorem rest_plus_of_pos {p : α → Bool} {c : α} (hc : p c = true) (s : List α) :
    (plus p).rest (c :: s) = some ((c :: s).dropWhile p) := by
  rw [plus, rest, rest, if_pos hc, Option.bind_some, rest, List.dropWhile_cons_of_pos hc]

theorem rest_plus_of_neg {p : α → Bool} {c : α} (hc : p c = false) (s : List α) :
    (plus p).rest (c :: s) = none := by
  rw [plus, rest, rest, if_neg (ne_true_of_eq_false hc), Option.bind_none]

theorem rest_star_append {p : α → Bool} {u t : List α} (hu : ∀ c ∈ u, p c = true)
    (ht : ∀ c ∈ t.head?, p c = false) : (star p).rest (u ++ t) = some t := by
  have hdrop : t.dropWhile p = t := by
    cases t with
    | nil => rfl
    | cons c t => exact List.dropWhile_cons_of_neg (ne_true_of_eq_false (ht c rfl))
  rw [rest, List.dropWhile_append_of_pos hu, hdrop]

theorem rest_plus_append {p : α → Bool} {u t : List α} (hne : u ≠ []) (hu : ∀ c ∈ u, p c = true)
    (ht : ∀ c ∈ t.head?, p c = false) : (plus p).rest (u ++ t) = some t := by
  obtain ⟨c, u, rfl⟩ := List.exists_cons_of_ne_nil hne
  rw [List.cons_append, rest_plus_of_pos (hu c List.mem_cons_self)]
  exact rest_star_append hu ht

theorem rest_times_append {p : α → Bool} : ∀ {u t : List α}, (∀ c ∈ u, p c = true) →
    (times p u.length).rest (u ++ t) = some t
  | [], _, _ => rfl
  | c :: u, t, hu => by
    have ih := rest_times_append (t := t) fun d hd => hu d (List.mem_cons_of_mem c hd)
    rw [List.cons_append, List.length_cons, times, rest, rest, if_pos (hu c List.mem_cons_self),
      Option.bind_some, ih]

theorem rest_lit [DecidableEq α] : ∀ {w s r : List α}, (lit w).rest s = some r ↔ s = w ++ r
  | [], s, r => by
    rw [List.nil_append]
    exact Option.some_inj
  | c :: w, [], r => by simp [lit]
  | c :: w, d :: s, r => by
    have ih := rest_lit (w := w) (s := s) (r := r)
    have hlit : lit (c :: w) = .seq (.char (· == c)) (lit w) := rfl
    rw [hlit, rest, rest, List.cons_append, List.cons.injEq]
    by_cases hd : d = c
    · rw [if_pos (beq_iff_eq.mpr hd), Option.bind_some, ih, and_iff_right hd]
    · rw [if_neg fun h => hd (beq_iff_eq.mp h)]
      simp [hd]

theorem rest_lit_of_ne [DecidableEq α] {c d : α} (h : c ≠ d) (w s : List α) :
    (lit (d :: w)).rest (c :: s) = none := by
  cases hrest : (lit (d :: w)).rest (c :: s) with
  | none => rfl
  | some r => exact absurd (List.cons.inj (rest_lit.mp hrest)).1 h

/-- In a text that is long enough, what is behind it makes no difference. -/
theorem rest_lit_append [DecidableEq α] {w v : List α} (h : w.length ≤ v.length) (t : List α) :
    (lit w).rest (v ++ t) = ((lit w).rest v).map (· ++ t) := by
  refine Option.ext fun r => ?_
  rw [rest_lit, Option.map_eq_some_iff]
  constructor
  · intro hr
    have hprefix : w <+: v := List.prefix_of_prefix_length_le ⟨r, hr.symm⟩ (List.prefix_append v t) h
    obtain ⟨u, rfl⟩ := hprefix
    rw [List.append_assoc] at hr
    exact ⟨u, rest_lit.mpr rfl, List.append_cancel_left hr⟩
  · rintro ⟨u, hu, rfl⟩
    rw [rest_lit.mp hu, List.append_assoc]

theorem rest_seq_lit [DecidableEq α] (w s : List α) (p : Pattern α) :
    (seq (lit w) p).rest (w ++ s) = p.rest s := by
  rw [rest, rest_lit.mpr rfl, Option.bind_some]

theorem rest_seq_lit_of_ne [DecidableEq α] {c d : α} (h : c ≠ d) (w s : List α) (p : Pattern α) :
    (seq (lit (d :: w)) p).rest (c :: s) = none := by
  rw [rest, rest_lit_of_ne h, Option.bind_none]

theorem eq_of_lang_lit [DecidableEq α] : ∀ {s w : List α}, (lit s).Lang w → w = s
  | [], _, h => h
  | c :: s, w, h => by
    obtain ⟨u, v, rfl, ⟨d, rfl, hd⟩, hv⟩ := h
    rw [eq_of_lang_lit hv, beq_iff_eq.mp hd, List.singleton_append]

theorem lang_times {p : α → Bool} : ∀ {n : ℕ} {w : List α}, (times p n).Lang w →
    w.length = n ∧ ∀ c ∈ w, p c = true
  | 0, w, h => by
    rw [show w = [] from h]
    exact ⟨rfl, fun c hc => absurd hc List.not_mem_nil⟩
  | n + 1, w, h => by
    obtain ⟨u, v, rfl, ⟨d, rfl, hd⟩, hv⟩ := h
    obtain ⟨hlen, hall⟩ := lang_times hv
    refine ⟨by rw [List.length_append, List.length_singleton, hlen, Nat.add_comm], fun c hc => ?_⟩
    rcases List.mem_cons.mp hc with rfl | hc
    · exact hd
    · exact hall c hc

/-- The word ends in one of the last pattern. -/
theorem exists_append_of_lang_all {q : Pattern α} : ∀ (ps : List (Pattern α)) {w : List α},
    (all (ps ++ [q])).Lang w → ∃ u v, w = u ++ v ∧ q.Lang v
  | [], w, h => by
    obtain ⟨u, v, rfl, hu, hv⟩ := h
    exact ⟨[], u, by rw [show v = [] from hv, List.append_nil, List.nil_append], hu⟩
  | p :: ps, w, h => by
    obtain ⟨x, y, rfl, -, hy⟩ := h
    obtain ⟨u, v, rfl, hv⟩ := exists_append_of_lang_all ps hy
    exact ⟨x ++ u, v, (List.append_assoc x u v).symm, hv⟩

/-- A word of the pattern has no character that no part takes. -/
theorem notMem_of_avoids {c : α} : ∀ {p : Pattern α} {w : List α}, p.avoids c = true → p.Lang w → c ∉ w
  | empty, w, _, h => by
    rw [show w = [] from h]
    exact List.not_mem_nil
  | char p, w, hp, h => by
    obtain ⟨d, rfl, hd⟩ := h
    rw [List.mem_singleton]
    rintro rfl
    simp [avoids, hd] at hp
  | star p, w, hp, h => by
    intro hc
    simp [avoids, h c hc] at hp
  | seq a b, w, hp, h => by
    obtain ⟨ha, hb⟩ := Bool.and_eq_true_iff.mp hp
    obtain ⟨u, v, rfl, hu, hv⟩ := h
    rw [List.mem_append, not_or]
    exact ⟨notMem_of_avoids ha hu, notMem_of_avoids hb hv⟩
  | alt a b, w, hp, h => by
    obtain ⟨ha, hb⟩ := Bool.and_eq_true_iff.mp hp
    exact h.elim (notMem_of_avoids ha) (notMem_of_avoids hb)

/-- A character that no part takes ends a match, if it has not ended before. -/
theorem rest_append_cons_of_avoids {c : α} (t : List α) : ∀ {p : Pattern α}, p.avoids c = true →
    ∀ u, p.rest (u ++ c :: t) = (p.rest u).map (· ++ c :: t)
  | empty, _, u => rfl
  | char p, h, [] => by
    have hc : p c = false := Bool.not_eq_true' _ ▸ h
    simp [hc]
  | char p, h, d :: u => by
    by_cases hd : p d = true <;> simp [hd]
  | star p, h, u => by
    have hc : p c = false := Bool.not_eq_true' _ ▸ h
    refine congrArg some ?_
    induction u with
    | nil => simp [hc]
    | cons d u ih => by_cases hd : p d = true <;> simp [hd, ih]
  | seq a b, h, u => by
    obtain ⟨ha, hb⟩ := Bool.and_eq_true_iff.mp h
    have ih := rest_append_cons_of_avoids t ha u
    rw [rest, ih, rest]
    cases a.rest u with
    | none => rfl
    | some v => exact rest_append_cons_of_avoids t hb v
  | alt a b, h, u => by
    obtain ⟨ha, hb⟩ := Bool.and_eq_true_iff.mp h
    rw [rest, rest_append_cons_of_avoids t ha u, rest_append_cons_of_avoids t hb u, rest,
      Option.map_or]

end Match

/-! ### Scans -/

section Scan

variable {p : Pattern α}

theorem scanFrom_eq_drop : ∀ (k : ℕ) (s : List α), scanFrom p k s = p.scan (s.drop k)
  | 0, _ => rfl
  | _ + 1, [] => rfl
  | k + 1, _ :: s => scanFrom_eq_drop k s

@[simp] theorem scan_nil : p.scan [] = [] := rfl

theorem scan_cons_of_none {c : α} {s : List α} (h : p.rest (c :: s) = none) :
    p.scan (c :: s) = .kept c :: p.scan s := by
  rw [scan, scanFrom]
  simp only [h]
  rfl

theorem ne_nil_of_rest (hp : p.consumes = true) {w r : List α} (h : p.rest (w ++ r) = some r) :
    w ≠ [] := by
  rintro rfl
  obtain ⟨w', hw', hlang⟩ := exists_word h
  exact ne_nil_of_consumes hp hlang (List.self_eq_append_left.mp hw')

theorem take_length_sub (w r : List α) : (w ++ r).take ((w ++ r).length - r.length) = w := by
  rw [List.length_append, Nat.add_sub_cancel, List.take_left]

/-- A match is one piece, and the scan goes on behind it. -/
theorem scan_of_rest (hp : p.consumes = true) {w r : List α} (h : p.rest (w ++ r) = some r) :
    p.scan (w ++ r) = .hit w :: p.scan r := by
  obtain ⟨c, w, rfl⟩ := List.exists_cons_of_ne_nil (ne_nil_of_rest hp h)
  have htake := take_length_sub (c :: w) r
  have hdrop : (w ++ r).drop ((w ++ r).length - r.length) = r := by
    rw [List.length_append, Nat.add_sub_cancel, List.drop_left]
  rw [List.cons_append] at h htake
  rw [List.cons_append, scan, scanFrom]
  simp only [h]
  rw [htake, scanFrom_eq_drop, hdrop]

/-- What a scan does first. -/
theorem scan_cases (hp : p.consumes = true) {s : List α} (hs : s ≠ []) :
    (∃ w r, s = w ++ r ∧ w ≠ [] ∧ p.Lang w ∧ p.rest s = some r ∧ p.scan s = .hit w :: p.scan r) ∨
      ∃ c t, s = c :: t ∧ p.rest s = none ∧ p.scan s = .kept c :: p.scan t := by
  cases h : p.rest s with
  | some r =>
    obtain ⟨w, rfl, hlang⟩ := exists_word h
    exact Or.inl ⟨w, r, rfl, ne_nil_of_consumes hp hlang, hlang, rfl, scan_of_rest hp h⟩
  | none =>
    obtain ⟨c, t, rfl⟩ := List.exists_cons_of_ne_nil hs
    exact Or.inr ⟨c, t, rfl, rfl, scan_cons_of_none h⟩

/-- **Where no match crosses from the left side, the two sides are scanned by themselves.** -/
theorem scan_append (hp : p.consumes = true) {t : List α} : ∀ {u : List α},
    (∀ v, v ≠ [] → v <:+ u → p.rest (v ++ t) = (p.rest v).map (· ++ t)) →
      p.scan (u ++ t) = p.scan u ++ p.scan t := by
  intro u
  induction hn : u.length using Nat.strong_induction_on generalizing u with
  | _ n ih =>
    subst hn
    intro hsplit
    rcases eq_or_ne u [] with rfl | hu
    · rfl
    have h := hsplit u hu (List.suffix_refl _)
    rcases scan_cases hp hu with ⟨w, r, rfl, hw, -, hrest, hscan⟩ | ⟨d, v, rfl, hrest, hscan⟩
    · have hlen : r.length < (w ++ r).length := by
        rw [List.length_append]
        exact Nat.lt_add_of_pos_left (List.length_pos_iff.mpr hw)
      rw [hrest, Option.map_some, List.append_assoc] at h
      rw [List.append_assoc, scan_of_rest hp h, ih r.length hlen rfl fun v hne hv =>
        hsplit v hne (hv.trans (List.suffix_append w r)), hscan, List.cons_append]
    · rw [hrest, Option.map_none, List.cons_append] at h
      rw [List.cons_append, scan_cons_of_none h, ih v.length (Nat.lt_succ_self _) rfl fun x hne hx =>
        hsplit x hne (hx.trans (List.suffix_cons d v)), hscan, List.cons_append]

/-- Where matches are kept apart at a character, it is kept. -/
theorem scan_append_cons (hp : p.consumes = true) {c : α} {t u : List α}
    (hsplit : ∀ v, v <:+ u → p.rest (v ++ c :: t) = (p.rest v).map (· ++ c :: t)) :
    p.scan (u ++ c :: t) = p.scan u ++ .kept c :: p.scan t := by
  have hhead := hsplit [] List.nil_suffix
  rw [rest_nil hp] at hhead
  rw [scan_append hp fun v _ hv => hsplit v hv, scan_cons_of_none hhead]

/-- Where no match begins, everything is kept. -/
theorem scan_append_of_none {a t : List α} (h : ∀ u v, a = u ++ v → v ≠ [] → p.rest (v ++ t) = none) :
    p.scan (a ++ t) = a.map .kept ++ p.scan t := by
  induction a with
  | nil => rfl
  | cons c a ih =>
    have hhead := h [] (c :: a) rfl (List.cons_ne_nil _ _)
    rw [List.cons_append] at hhead ⊢
    rw [scan_cons_of_none hhead, ih fun u v huv hv => h (c :: u) v (by rw [huv]; rfl) hv]
    rfl

end Scan

/-! ### Substitutions -/

section Sub

variable {p : Pattern α} {f : List α → List α}

theorem render_append (ps qs : List (Piece α)) : render f (ps ++ qs) = render f ps ++ render f qs :=
  List.flatMap_append

theorem render_map_kept (s : List α) : render f (s.map .kept) = s := by
  rw [render, List.flatMap_map]
  exact List.flatMap_singleton' s

/-- The words in their places are the text. -/
theorem render_scan (hp : p.consumes = true) (s : List α) : render id (p.scan s) = s := by
  induction hn : s.length using Nat.strong_induction_on generalizing s with
  | _ n ih =>
    subst hn
    rcases eq_or_ne s [] with rfl | hs
    · rfl
    rcases scan_cases hp hs with ⟨w, r, rfl, hw, -, -, hscan⟩ | ⟨c, t, rfl, -, hscan⟩
    · have hlen : r.length < (w ++ r).length := by
        rw [List.length_append]
        exact Nat.lt_add_of_pos_left (List.length_pos_iff.mpr hw)
      have ih := ih r.length hlen r rfl
      rw [hscan]
      exact congrArg (w ++ ·) ih
    · have ih := ih t.length (Nat.lt_succ_self _) t rfl
      rw [hscan]
      exact congrArg (c :: ·) ih

theorem sub_append_cons (hp : p.consumes = true) {c : α} {t u : List α}
    (hsplit : ∀ v, v <:+ u → p.rest (v ++ c :: t) = (p.rest v).map (· ++ c :: t)) :
    sub f p (u ++ c :: t) = sub f p u ++ c :: sub f p t := by
  rw [sub, scan_append_cons hp hsplit, render_append]
  rfl

theorem sub_of_rest (hp : p.consumes = true) {w r : List α} (h : p.rest (w ++ r) = some r) :
    sub f p (w ++ r) = f w ++ sub f p r := by
  rw [sub, scan_of_rest hp h]
  rfl

theorem sub_cons_of_none {c : α} {s : List α} (h : p.rest (c :: s) = none) :
    sub f p (c :: s) = c :: sub f p s := by
  rw [sub, scan_cons_of_none h]
  rfl

theorem sub_append_of_none {a t : List α} (h : ∀ u v, a = u ++ v → v ≠ [] → p.rest (v ++ t) = none) :
    sub f p (a ++ t) = a ++ sub f p t := by
  rw [sub, scan_append_of_none h, render_append, render_map_kept]
  rfl

/-- A text without a match is left as it is. -/
theorem sub_eq_self {s : List α} (h : ∀ u v, s = u ++ v → v ≠ [] → p.rest v = none) :
    sub f p s = s := by
  have h := sub_append_of_none (f := f) (p := p) (a := s) (t := []) fun u v huv hv => by
    rw [List.append_nil]
    exact h u v huv hv
  have hnil : sub f p [] = [] := rfl
  rwa [hnil, List.append_nil] at h

end Sub

/-- A text without a word is left as it is. -/
theorem sub_of_hits_eq_nil {p : Pattern α} {f : List α → List α} (hp : p.consumes = true) {s : List α}
    (h : hits p s = []) : sub f p s = s := by
  conv_rhs => rw [← render_scan hp s]
  unfold hits at h
  unfold sub
  generalize p.scan s = ps at h ⊢
  induction ps with
  | nil => rfl
  | cons piece ps ih =>
    cases piece with
    | kept c => exact congrArg (c :: ·) (ih h)
    | hit w => exact absurd h (List.cons_ne_nil _ _)

theorem lang_of_rest {p : Pattern α} {w r : List α} (h : p.rest (w ++ r) = some r) : p.Lang w := by
  obtain ⟨w', hw', hlang⟩ := exists_word h
  rwa [List.append_cancel_right hw']

/-- A search splits the text at its first match. -/
theorem search_eq_some {p : Pattern α} : ∀ {s before w after : List α},
    p.search s = some (before, w, after) →
      s = before ++ w ++ after ∧ p.rest (w ++ after) = some after
  | [], _, _, _, h => by cases h
  | c :: s, before, w, after, h => by
    unfold search at h
    split at h
    · rename_i r hrest
      obtain ⟨w', hw', -⟩ := exists_word hrest
      simp only [Option.some.injEq, Prod.mk.injEq] at h
      obtain ⟨rfl, rfl, rfl⟩ := h
      have htake : (c :: s).take ((c :: s).length - r.length) = w' := by
        rw [hw', List.length_append, Nat.add_sub_cancel, List.take_left]
      rw [htake, ← hw']
      exact ⟨hw', hrest⟩
    · obtain ⟨⟨before', w', after'⟩, hs, heq⟩ := Option.map_eq_some_iff.mp h
      simp only [Prod.mk.injEq] at heq
      obtain ⟨rfl, rfl, rfl⟩ := heq
      obtain ⟨rfl, hrest⟩ := search_eq_some hs
      exact ⟨rfl, hrest⟩

theorem search_cons_of_none {p : Pattern α} {c : α} {s : List α} (h : p.rest (c :: s) = none) :
    p.search (c :: s) = (p.search s).map fun m => (c :: m.1, m.2) := by
  rw [search, h]

/-- A match at the front is the first one. -/
theorem search_of_rest {p : Pattern α} (hp : p.consumes = true) {w r : List α}
    (h : p.rest (w ++ r) = some r) : p.search (w ++ r) = some ([], w, r) := by
  obtain ⟨c, w, rfl⟩ := List.exists_cons_of_ne_nil (ne_nil_of_rest hp h)
  have htake := take_length_sub (c :: w) r
  rw [List.cons_append] at h htake ⊢
  rw [search, h]
  simp only
  rw [htake]

/-- Where matches are kept apart, the first one is the first of the left side, if that has one. -/
theorem search_append {p : Pattern α} (hp : p.consumes = true) {t : List α} : ∀ {u : List α},
    (∀ v, v <:+ u → p.rest (v ++ t) = (p.rest v).map (· ++ t)) →
      p.search (u ++ t) = ((p.search u).map fun m => (m.1, m.2.1, m.2.2 ++ t)).or
        ((p.search t).map fun m => (u ++ m.1, m.2))
  | [], _ => by
    rw [List.nil_append]
    cases p.search t <;> rfl
  | c :: u, hsplit => by
    have ih := search_append hp fun v hv => hsplit v (hv.trans (List.suffix_cons c u))
    have hhead := hsplit (c :: u) (List.suffix_refl _)
    cases hrest : p.rest (c :: u) with
    | some r =>
      obtain ⟨w, hw, -⟩ := exists_word hrest
      rw [hrest, hw, Option.map_some, List.append_assoc] at hhead
      rw [hw] at hrest ⊢
      rw [List.append_assoc, search_of_rest hp hhead, search_of_rest hp hrest]
      rfl
    | none =>
      rw [hrest, Option.map_none, List.cons_append] at hhead
      rw [List.cons_append, search_cons_of_none hhead, search_cons_of_none hrest, ih]
      cases p.search u with
      | some m => rfl
      | none => cases p.search t <;> rfl

theorem search_append_of_none {p : Pattern α} {t : List α} : ∀ {u : List α},
    (∀ c ∈ u, ∀ s, p.rest (c :: s) = none) →
      p.search (u ++ t) = (p.search t).map fun m => (u ++ m.1, m.2)
  | [], _ => by
    rw [List.nil_append]
    cases p.search t <;> rfl
  | c :: u, h => by
    rw [List.cons_append, search_cons_of_none (h c List.mem_cons_self _),
      search_append_of_none fun d hd => h d (List.mem_cons_of_mem c hd), Option.map_map]
    rfl

/-! ### Where matches are kept apart -/

/-- No match goes on with the text `t`. -/
def Cuts (p : Pattern α) (t : List α) : Prop :=
  ∀ u, u ≠ [] → p.rest (u ++ t) = (p.rest u).map (· ++ t)

theorem sub_append {p : Pattern α} {f : List α → List α} (hp : p.consumes = true) {t : List α}
    (ht : p.Cuts t) (u : List α) : sub f p (u ++ t) = sub f p u ++ sub f p t := by
  rw [sub, scan_append hp fun v hv _ => ht v hv, render_append]
  rfl

theorem cuts_nil (p : Pattern α) : p.Cuts [] := fun u _ => by simp

theorem cuts_cons_of_avoids {p : Pattern α} {c : α} (hp : p.avoids c = true) (t : List α) :
    p.Cuts (c :: t) := fun u _ => rest_append_cons_of_avoids t hp u

theorem search_eq_none {p : Pattern α} : ∀ {s : List α}, p.search s = none →
    ∀ v, v ≠ [] → v <:+ s → p.rest v = none
  | [], _, v, hv, hs => absurd (List.suffix_nil.mp hs) hv
  | c :: s, h, v, hv, hs => by
    cases hrest : p.rest (c :: s) with
    | some r =>
      rw [search, hrest] at h
      cases h
    | none =>
      rw [search_cons_of_none hrest, Option.map_eq_none_iff] at h
      rcases List.suffix_cons_iff.mp hs with rfl | hs
      · exact hrest
      · exact search_eq_none h v hv hs

/-- A text in which nothing is found, in front of one that no match goes on with. -/
theorem sub_append_of_search {p : Pattern α} {f : List α → List α} {s t : List α}
    (hs : p.search s = none) (ht : p.Cuts t) : sub f p (s ++ t) = s ++ sub f p t :=
  sub_append_of_none fun u v huv hv => by
    rw [ht v hv, search_eq_none hs v hv ⟨u, huv.symm⟩]
    rfl

section Literal

variable [DecidableEq α] {w : List α} {q : Pattern α}

/-- A text that no end of the literal goes on with, and no other part. -/
theorem cuts_of_lit {c : α} {t : List α} (hq : q.avoids c = true)
    (hw : ∀ v, v ≠ [] → v <:+ w.tail → ¬ v <+: c :: t) : (seq (lit w) q).Cuts (c :: t) := by
  intro u hu
  rcases Nat.lt_or_ge u.length w.length with hlt | hge
  · -- the text ends within the literal
    have hleft : (lit w).rest (u ++ c :: t) = none := by
      by_contra hne
      obtain ⟨r, hr⟩ := Option.ne_none_iff_exists'.mp hne
      have htext := rest_lit.mp hr
      obtain ⟨v, rfl⟩ : u <+: w :=
        List.prefix_of_prefix_length_le ⟨_, rfl⟩ ⟨r, htext.symm⟩ hlt.le
      rw [List.append_assoc, List.append_cancel_left_eq] at htext
      obtain ⟨d, u, rfl⟩ := List.exists_cons_of_ne_nil hu
      refine hw v ?_ ⟨u, rfl⟩ ⟨r, htext.symm⟩
      rintro rfl
      simp at hlt
    have hright : (lit w).rest u = none := by
      by_contra hne
      obtain ⟨r, hr⟩ := Option.ne_none_iff_exists'.mp hne
      have hr := congrArg List.length (rest_lit.mp hr)
      rw [List.length_append] at hr
      omega
    rw [rest, rest, hleft, hright]
    rfl
  · rw [rest, rest, rest_lit_append hge]
    cases (lit w).rest u with
    | none => rfl
    | some v => exact rest_append_cons_of_avoids t hq v

end Literal

/-! ### Patterns known by their first character -/

/-- The character begins every match, and no match goes on with it. -/
structure Begins (c : α) (p : Pattern α) : Prop where
  first : ∀ d s, d ≠ c → p.rest (d :: s) = none
  cuts : ∀ s, p.Cuts (c :: s)

theorem begins_of_lit [DecidableEq α] {c : α} {w : List α} {q : Pattern α} (hw : c ∉ w)
    (hq : q.avoids c = true) : Begins c (seq (lit (c :: w)) q) where
  first d s hd := rest_seq_lit_of_ne hd w s q
  cuts s := by
    refine cuts_of_lit hq fun v hv hsuffix hprefix => hw ?_
    obtain ⟨d, v, rfl⟩ := List.exists_cons_of_ne_nil hv
    rw [(List.cons_prefix_cons.mp hprefix).1] at hsuffix
    exact hsuffix.subset List.mem_cons_self

/-- What does not begin a replacement has been there. -/
theorem exists_of_sub_eq {p : Pattern α} {f : List α → List α} {c : α} (hp : p.consumes = true)
    (hf : ∀ w, p.Lang w → ∃ u, f w = c :: u) {u z : List α} (hu : c ∉ u) : ∀ {t : List α},
      sub f p t = u ++ z → ∃ t', t = u ++ t' ∧ z = sub f p t' := by
  induction u with
  | nil => exact fun {t} h => ⟨t, rfl, h.symm⟩
  | cons d u ih =>
    intro t h
    rw [List.cons_append] at h
    have hd : d ≠ c := fun hdc => hu (hdc ▸ List.mem_cons_self)
    have ht : t ≠ [] := by
      rintro rfl
      cases h
    rcases scan_cases hp ht with ⟨w, r, rfl, -, hlang, hrest, -⟩ | ⟨e, t, rfl, hrest, -⟩
    · obtain ⟨y, hy⟩ := hf w hlang
      rw [sub_of_rest hp hrest, hy] at h
      exact absurd (List.cons.inj h).1.symm hd
    · rw [sub_cons_of_none hrest] at h
      obtain ⟨rfl, htail⟩ := List.cons.inj h
      obtain ⟨t', rfl, hz⟩ := ih (fun hmem => hu (List.mem_cons_of_mem e hmem)) htail
      exact ⟨t', rfl, hz⟩

theorem suffix_of_suffix_append {c : α} {u b y : List α} (hu : c ∉ u) (h : c :: y <:+ u ++ b) :
    c :: y <:+ b := by
  induction u with
  | nil => exact h
  | cons d u ih =>
    rcases List.suffix_cons_iff.mp h with heq | h
    · exact absurd ((List.cons.inj heq).1 ▸ List.mem_cons_self) hu
    · exact ih (fun hmem => hu (List.mem_cons_of_mem d hmem)) h

/-- A character that no replacement has is in its place. -/
theorem exists_of_suffix_sub {p : Pattern α} {f : List α → List α} {c : α} (hp : p.consumes = true)
    (hf : ∀ w, p.Lang w → c ∉ f w) {y : List α} : ∀ {t : List α}, c :: y <:+ sub f p t →
      ∃ t', c :: t' <:+ t ∧ y = sub f p t' := by
  intro t
  induction hn : t.length using Nat.strong_induction_on generalizing t with
  | _ n ih =>
    subst hn
    intro h
    rcases eq_or_ne t [] with rfl | ht
    · exact absurd (List.suffix_nil.mp h) (List.cons_ne_nil _ _)
    rcases scan_cases hp ht with ⟨w, r, rfl, hw, hlang, hmatch, -⟩ | ⟨d, t, rfl, hmatch, -⟩
    · have hlen : r.length < (w ++ r).length := by
        rw [List.length_append]
        exact Nat.lt_add_of_pos_left (List.length_pos_iff.mpr hw)
      rw [sub_of_rest hp hmatch] at h
      obtain ⟨t', ht', hy⟩ := ih r.length hlen rfl (suffix_of_suffix_append (hf w hlang) h)
      exact ⟨t', ht'.trans (List.suffix_append w r), hy⟩
    · rw [sub_cons_of_none hmatch] at h
      rcases List.suffix_cons_iff.mp h with heq | h
      · obtain ⟨rfl, rfl⟩ := List.cons.inj heq
        exact ⟨t, List.suffix_refl _, rfl⟩
      · obtain ⟨t', ht', hy⟩ := ih t.length (Nat.lt_succ_self _) rfl h
        exact ⟨t', ht'.trans (List.suffix_cons d t), hy⟩

section Begins

variable {p : Pattern α} {c : α} {f : List α → List α}

/-- Characters that begin no match are kept. -/
theorem sub_append_of_first (hfirst : ∀ d s, d ≠ c → p.rest (d :: s) = none) {u : List α} (hu : c ∉ u)
    (t : List α) : sub f p (u ++ t) = u ++ sub f p t := by
  refine sub_append_of_none fun x v huv hv => ?_
  obtain ⟨d, v, rfl⟩ := List.exists_cons_of_ne_nil hv
  refine hfirst d _ ?_
  rintro rfl
  exact hu (huv ▸ List.mem_append_right x List.mem_cons_self)

variable (hc : Begins c p)
include hc

theorem Begins.sub_append {u : List α} (hu : c ∉ u) (t : List α) : sub f p (u ++ t) = u ++ sub f p t :=
  sub_append_of_first hc.first hu t

variable (hp : p.consumes = true) (hf : ∀ w, p.Lang w → ∃ u, f w = c :: u)
include hp hf

/-- A match at a kept character would have been one before. -/
theorem Begins.rest_cons_sub {t : List α} (h : p.rest (c :: t) = none) :
    p.rest (c :: sub f p t) = none := by
  by_cases hmem : c ∈ t
  · obtain ⟨u, y, rfl, hu⟩ := List.eq_append_cons_of_mem hmem
    have hhead : ∃ z, sub f p (c :: y) = c :: z := by
      rcases scan_cases hp (List.cons_ne_nil c y) with ⟨w, r, hw, -, hlang, hmatch, -⟩ | ⟨d, t, ht, hmatch, -⟩
      · obtain ⟨x, hx⟩ := hf w hlang
        rw [hw] at hmatch ⊢
        exact ⟨_, by rw [sub_of_rest hp hmatch, hx, List.cons_append]⟩
      · exact ⟨_, sub_cons_of_none hmatch⟩
    obtain ⟨z, hz⟩ := hhead
    have hcut := hc.cuts y (c :: u) (List.cons_ne_nil c u)
    rw [List.cons_append, h, eq_comm, Option.map_eq_none_iff] at hcut
    have hcut' := hc.cuts z (c :: u) (List.cons_ne_nil c u)
    rw [hcut, Option.map_none, List.cons_append] at hcut'
    rw [hc.sub_append hu, hz]
    exact hcut'
  · have hsub := hc.sub_append (f := f) hmem []
    rw [List.append_nil] at hsub
    rw [hsub, show sub f p [] = [] from rfl, List.append_nil]
    exact h

/-- **The matches in what a substitution gives are those it has put there**, if the replacements have
the first character just at their fronts. -/
theorem Begins.eq_of_rest_sub (hf' : ∀ w, p.Lang w → c ∉ (f w).tail) : ∀ {t s : List α},
    s <:+ sub f p t → p.rest s ≠ none →
      ∃ w r, p.rest (w ++ r) = some r ∧ s = f w ++ sub f p r := by
  intro t
  induction hn : t.length using Nat.strong_induction_on generalizing t with
  | _ n ih =>
    subst hn
    intro s hs hrest
    obtain ⟨y, rfl⟩ : ∃ y, s = c :: y := by
      cases s with
      | nil => exact absurd (rest_nil hp) hrest
      | cons d y =>
        by_contra hne
        refine hrest (hc.first d y ?_)
        rintro rfl
        exact hne ⟨y, rfl⟩
    rcases eq_or_ne t [] with rfl | ht
    · exact absurd (List.suffix_nil.mp hs) (List.cons_ne_nil _ _)
    rcases scan_cases hp ht with ⟨w, r, rfl, hw, hlang, hmatch, -⟩ | ⟨d, t, rfl, hmatch, -⟩
    · have hlen : r.length < (w ++ r).length := by
        rw [List.length_append]
        exact Nat.lt_add_of_pos_left (List.length_pos_iff.mpr hw)
      obtain ⟨u, hu⟩ := hf w hlang
      have htail := hf' w hlang
      rw [hu, List.tail_cons] at htail
      rw [sub_of_rest hp hmatch, hu] at hs
      rcases List.suffix_cons_iff.mp hs with heq | hs
      · exact ⟨w, r, hmatch, by rw [hu]; exact heq⟩
      · exact ih r.length hlen rfl (suffix_of_suffix_append htail hs) hrest
    · rw [sub_cons_of_none hmatch] at hs
      rcases List.suffix_cons_iff.mp hs with heq | hs
      · obtain ⟨rfl, rfl⟩ := List.cons.inj heq
        exact absurd (hc.rest_cons_sub hp hf hmatch) hrest
      · exact ih t.length (Nat.lt_succ_self _) rfl hs hrest

end Begins

/-- What stays of the words stays of the text. -/
theorem filter_sub {p : Pattern α} (hp : p.consumes = true) {f : List α → List α} {q : α → Bool}
    (hf : ∀ w, p.Lang w → (f w).filter q = w.filter q) (s : List α) :
    (sub f p s).filter q = s.filter q := by
  induction hn : s.length using Nat.strong_induction_on generalizing s with
  | _ n ih =>
    subst hn
    rcases eq_or_ne s [] with rfl | hs
    · rfl
    rcases scan_cases hp hs with ⟨w, r, rfl, hw, hlang, hmatch, -⟩ | ⟨c, t, rfl, hmatch, -⟩
    · have hlen : r.length < (w ++ r).length := by
        rw [List.length_append]
        exact Nat.lt_add_of_pos_left (List.length_pos_iff.mpr hw)
      rw [sub_of_rest hp hmatch, List.filter_append, List.filter_append, hf w hlang,
        ih r.length hlen r rfl]
    · rw [sub_cons_of_none hmatch, List.filter_cons, List.filter_cons,
        ih t.length (Nat.lt_succ_self _) t rfl]

/-! ### Finding a text in what a substitution gives -/

theorem isIn_cons (x : Str) (c : Char) (s : Str) :
    isIn x (c :: s) = (x.isPrefixOf (c :: s) || isIn x s) := rfl

/-- The text is not found across a place whose last character it has at its end only. -/
theorem isIn_append_of_last {x a : Str} {l : Char} (hx : x ≠ []) (hl : l ∉ x.dropLast) (b : Str) :
    isIn x (a ++ l :: b) = (isIn x (a ++ [l]) || isIn x b) := by
  have hcut : ∀ a : Str, x.isPrefixOf (a ++ l :: b) = x.isPrefixOf (a ++ [l]) := by
    intro a
    rw [Bool.eq_iff_iff, List.isPrefixOf_iff_prefix, List.isPrefixOf_iff_prefix]
    have hassoc : a ++ l :: b = (a ++ [l]) ++ b := by simp
    constructor
    · intro h
      rcases le_or_gt x.length (a ++ [l]).length with hle | hlt
      · exact List.prefix_of_prefix_length_le h (hassoc ▸ List.prefix_append _ _) hle
      · obtain ⟨y, rfl⟩ := List.prefix_of_prefix_length_le (hassoc ▸ List.prefix_append _ _) h hlt.le
        have hy : y ≠ [] := by
          rintro rfl
          simp at hlt
        refine absurd ?_ hl
        rw [List.dropLast_append_of_ne_nil hy]
        simp
    · intro h
      rw [hassoc]
      exact h.trans (List.prefix_append _ _)
  have hempty : isIn x [] = false := by
    cases x with
    | nil => exact absurd rfl hx
    | cons c x => rfl
  induction a with
  | nil =>
    have h := hcut []
    rw [List.nil_append, List.nil_append] at h
    rw [List.nil_append, List.nil_append, isIn_cons, isIn_cons, h, hempty, Bool.or_false]
  | cons c a ih =>
    have h := hcut (c :: a)
    rw [List.cons_append, List.cons_append] at h
    rw [List.cons_append, List.cons_append, isIn_cons, isIn_cons, h, ih, Bool.or_assoc]

/-- What the words are replaced by begins with a character that the text has at its front only. -/
theorem isPrefixOf_render {f : Str → Str} {sep : Char} {ps : List (Piece Char)} : ∀ {y : Str}, sep ∉ y →
    (∀ w, .hit w ∈ ps → ∃ h r, f w = h :: r ∧ h ∉ y) →
      y.isPrefixOf (render f ps) = y.isPrefixOf (render (fun _ => [sep]) ps) := by
  induction ps with
  | nil => exact fun _ _ => rfl
  | cons piece ps ih =>
    intro y hsep hf
    cases y with
    | nil => rfl
    | cons d y =>
      have hsep' : sep ∉ y := fun h => hsep (List.mem_cons_of_mem d h)
      have hf' : ∀ w, .hit w ∈ ps → ∃ h r, f w = h :: r ∧ h ∉ y := fun w hw => by
        obtain ⟨h, r, hfw, hh⟩ := hf w (List.mem_cons_of_mem _ hw)
        exact ⟨h, r, hfw, fun hm => hh (List.mem_cons_of_mem d hm)⟩
      cases piece with
      | kept c =>
        have hrender : ∀ g, render g (.kept c :: ps) = c :: render g ps := fun g => rfl
        rw [hrender, hrender, List.isPrefixOf_cons_cons, List.isPrefixOf_cons_cons, ih hsep' hf']
      | hit w =>
        obtain ⟨h, r, hfw, hh⟩ := hf w List.mem_cons_self
        have hne : (d == h) = false := beq_false_of_ne fun e => hh (e ▸ List.mem_cons_self)
        have hne' : (d == sep) = false := beq_false_of_ne fun e => hsep (e ▸ List.mem_cons_self)
        have hrender : ∀ g, render g (.hit w :: ps) = g w ++ render g ps := fun g => rfl
        rw [hrender, hrender, hfw, List.cons_append, List.singleton_append, List.isPrefixOf_cons_cons,
          List.isPrefixOf_cons_cons, hne, hne', Bool.false_and, Bool.false_and]

/-- **A text is found in what a substitution gives where it is found between the matches, or in what
one is replaced by.** -/
theorem isIn_render {f : Str → Str} {x : Str} (sep : Char) {ps : List (Piece Char)} (hx : x ≠ [])
    (hsep : sep ∉ x) (hhead : ∀ w, .hit w ∈ ps → ∃ h r, f w = h :: r ∧ h ∉ x.tail)
    (hlast : ∀ w, .hit w ∈ ps → ∃ r l, f w = r ++ [l] ∧ l ∉ x.dropLast) :
    isIn x (render f ps) = true ↔
      isIn x (render (fun _ => [sep]) ps) = true ∨ ∃ w, .hit w ∈ ps ∧ isIn x (f w) = true := by
  induction ps with
  | nil => simp [render]
  | cons piece ps ih =>
    have ih := ih (fun w hw => hhead w (List.mem_cons_of_mem _ hw))
      (fun w hw => hlast w (List.mem_cons_of_mem _ hw))
    obtain ⟨c₀, x', rfl⟩ := List.exists_cons_of_ne_nil hx
    cases piece with
    | kept c =>
      have hrender : ∀ g, render g (.kept c :: ps) = c :: render g ps := fun g => rfl
      have hfront : (c₀ :: x').isPrefixOf (c :: render f ps) =
          (c₀ :: x').isPrefixOf (c :: render (fun _ => [sep]) ps) := by
        rw [List.isPrefixOf_cons_cons, List.isPrefixOf_cons_cons,
          isPrefixOf_render fun h => hsep (List.mem_cons_of_mem _ h)]
        exact fun w hw => hhead w (List.mem_cons_of_mem _ hw)
      rw [hrender, hrender, isIn_cons, isIn_cons, hfront, Bool.or_eq_true, ih, Bool.or_eq_true]
      simp only [List.mem_cons, reduceCtorEq, false_or]
      exact or_assoc.symm
    | hit w =>
      obtain ⟨r, l, hfw, hl⟩ := hlast w List.mem_cons_self
      have hrender : ∀ g, render g (.hit w :: ps) = g w ++ render g ps := fun g => rfl
      have hne : (c₀ == sep) = false := beq_false_of_ne fun e => hsep (e ▸ List.mem_cons_self)
      have hsepFront : (c₀ :: x').isPrefixOf (sep :: render (fun _ => [sep]) ps) = false := by
        rw [List.isPrefixOf_cons_cons, hne, Bool.false_and]
      have hleft : isIn (c₀ :: x') (f w ++ render f ps) =
          (isIn (c₀ :: x') (f w) || isIn (c₀ :: x') (render f ps)) := by
        rw [hfw, List.append_assoc, List.singleton_append, isIn_append_of_last hx hl]
      rw [hrender, hrender, hleft, List.singleton_append, isIn_cons, hsepFront, Bool.false_or,
        Bool.or_eq_true, ih]
      simp only [List.mem_cons, Piece.hit.injEq]
      constructor
      · rintro (h | h | ⟨w', hw', h⟩)
        · exact Or.inr ⟨w, Or.inl rfl, h⟩
        · exact Or.inl h
        · exact Or.inr ⟨w', Or.inr hw', h⟩
      · rintro (h | ⟨w', rfl | hw', h⟩)
        · exact Or.inr (Or.inl h)
        · exact Or.inl h
        · exact Or.inr (Or.inr ⟨w', hw', h⟩)

end Pattern
end Xc7Tools
