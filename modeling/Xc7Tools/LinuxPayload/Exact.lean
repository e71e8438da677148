/-
# linux_payload: when only the places are written

The converse of `edits_of_plain`. The script changes digits only, so that the
other characters of a tree tell where its places have gone (`countP_render`), and
digits in upper case would be left over. A name or an end of the initrd in the
tree written has the value of the script, and the values differ from run to run
(`eq_of_serial`, `eq_of_initrdEnd`). So the script meets its purpose just in the
plain trees.

Key theorems: `countP_render`, `plain_of_edits`, `onlyPlaces_iff`.
-/
import Xc7Tools.LinuxPayload.Places

namespace Xc7Tools
namespace LinuxPayload

open Str Checked Pattern

/-- Two texts taken apart at the same one of their characters of a kind. -/
theorem append_cons_inj_of_countP {p : Char → Bool} {a a' b b' : Str} {x x' : Char} (hx : p x = true)
    (hx' : p x' = true) (hcount : a.countP p = a'.countP p) (h : a ++ x :: b = a' ++ x' :: b') :
    a = a' ∧ x = x' ∧ b = b' := by
  have hlen : ∀ {a a' b b' : Str} {x x' : Char}, p x = true → a.countP p = a'.countP p →
      a ++ x :: b = a' ++ x' :: b' → ¬ a.length < a'.length := by
    intro a a' b b' x x' hx hcount h hlt
    have hleft : a ++ [x] <+: a ++ x :: b := ⟨b, by simp⟩
    have hprefix : a ++ [x] <+: a' := List.prefix_of_prefix_length_le hleft ⟨_, h.symm⟩ (by
      simpa using Nat.succ_le_of_lt hlt)
    have hle := hprefix.sublist.countP_le (p := p)
    rw [List.countP_append, List.countP_singleton, if_pos hx] at hle
    omega
  obtain ⟨rfl, htail⟩ := List.append_inj h
    (Nat.le_antisymm (Nat.not_lt.mp (hlen hx' hcount.symm h.symm)) (Nat.not_lt.mp (hlen hx hcount h)))
  exact ⟨rfl, List.cons.inj htail⟩

theorem countP_rough_of_isHex {ds : Str} (h : ∀ c ∈ ds, isHex c = true) : ds.countP rough = 0 := by
  rw [List.countP_eq_length_filter, filter_rough_of_isHex h, List.length_nil]

/-! ### What the tree written says about the values -/

/-- A name in the text is that of the pass over the names. -/
theorem eq_of_serial_writeNames {unit z x : Str} {d : Char} (hunit : unit ≠ [] ∧ ∀ c ∈ unit, isHex c = true)
    (hd : isHex d = true) (h : "serial@".toList ++ d :: z <:+ writeNames unit x) :
    ∃ y, d :: z = unit ++ y ∧ ∀ c ∈ y.head?, isHex c = false := by
  have hrest : serialName.rest ("serial@".toList ++ d :: z) ≠ none := by
    rw [serialName, rest_seq_lit, rest_plus_of_pos hd]
    exact Option.some_ne_none _
  have hfront : ∀ w, serialName.Lang w → ∃ u, "serial@".toList ++ unit = 's' :: u := fun _ _ => ⟨_, rfl⟩
  have htail : ∀ w, serialName.Lang w → 's' ∉ ("serial@".toList ++ unit).tail := fun _ _ => by
    have hassoc : ("serial@".toList ++ unit).tail = "erial@".toList ++ unit := rfl
    rw [hassoc, List.mem_append, not_or]
    exact ⟨by decide, not_mem_of_isHex hunit.2 (by decide)⟩
  obtain ⟨w, r, hmatch, heq⟩ := begins_serialName.eq_of_rest_sub consumes_serialName hfront htail h hrest
  rw [List.append_assoc, List.append_cancel_left_eq] at heq
  refine ⟨_, heq, fun c hc => ?_⟩
  by_contra hhex
  -- what is behind the digits has been behind digits before
  obtain ⟨y, hy⟩ : ∃ y, writeNames unit r = [c] ++ y := by
    cases hr : writeNames unit r with
    | nil =>
      rw [show sub (fun _ => "serial@".toList ++ unit) serialName r = [] from hr] at hc
      cases hc
    | cons e y =>
      rw [show sub (fun _ => "serial@".toList ++ unit) serialName r = e :: y from hr] at hc
      obtain rfl : e = c := Option.some.inj hc
      exact ⟨y, rfl⟩
  have hne : 's' ∉ [c] := by
    rw [List.mem_singleton]
    rintro rfl
    exact hhex rfl
  obtain ⟨r', rfl, -⟩ := exists_of_sub_eq consumes_serialName hfront hne hy
  obtain ⟨ds, rfl, hds⟩ := lang_serialName (lang_of_rest hmatch)
  rw [List.append_assoc, serialName, rest_seq_lit] at hmatch
  obtain ⟨e, ds, rfl⟩ := List.exists_cons_of_ne_nil hds.1
  have hdrop : ((e :: ds) ++ ([c] ++ r')).dropWhile isHex = [c] ++ r' := by
    have hplus := rest_plus_of_pos (hds.2 e List.mem_cons_self) (ds ++ ([c] ++ r'))
    exact Option.some.inj (hplus.symm.trans hmatch)
  have hhead := List.head?_dropWhile_not isHex ((e :: ds) ++ ([c] ++ r'))
  rw [hdrop] at hhead
  exact hhex hhead

/-- The property written has no character but those of its shape. -/
theorem not_mem_endText {name b₁ b₂ ds : Str} (hb : ∀ c ∈ b₁ ++ b₂, isSpace c = true)
    (hds : ∀ c ∈ ds, isHex c = true) {d : Char} (hspace : isSpace d = false) (hhex : isHex d = false)
    (hlit : (d ∉ name ∧ d ≠ '=' ∧ d ≠ '<') ∧ d ∉ "0x".toList ∧ d ≠ '>') :
    d ∉ cellFront name b₁ b₂ [] ++ ("0x".toList ++ (ds ++ ['>'])) := by
  have hb' : ∀ c ∈ b₁ ++ (b₂ ++ []), isSpace c = true := by
    rw [List.append_nil]
    exact hb
  rw [List.mem_append, List.mem_append, List.mem_append, List.mem_singleton]
  rintro (hmem | hmem | hmem | hmem)
  · exact not_mem_cellFront hb' hspace hlit.1 hmem
  · exact hlit.2.1 hmem
  · exact not_mem_of_isHex hds hhex hmem
  · exact hlit.2.2 hmem

/-- The pass over the ends writes no name. -/
theorem serial_of_writeEnds {last u z x : Str} (hlast : ∀ c ∈ last, isHex c = true) (hu : 'l' ∉ u)
    (h : "serial@".toList ++ (u ++ z) <:+ writeEnds last x) :
    ∃ z', "serial@".toList ++ (u ++ z') <:+ x := by
  have hkeeps : ∀ w, initrdEnd.Lang w → ∃ v, endWith last w = "li".toList ++ v ∧ 's' ∉ endWith last w := by
    intro w hw
    obtain ⟨b₁, b₂, ds, rfl, hb, -, -⟩ := lang_initrdEnd hw
    rw [endWith_eq hb]
    exact ⟨_, rfl, not_mem_endText hb hlast (by decide) (by decide) (by decide)⟩
  have hfront : ∀ w, initrdEnd.Lang w → ∃ v, endWith last w = 'l' :: v := fun w hw =>
    (hkeeps w hw).elim fun v hv => ⟨_, hv.1⟩
  obtain ⟨t₁, hsuffix, h₁⟩ := exists_of_suffix_sub consumes_initrdEnd
    (fun w hw => (hkeeps w hw).elim fun _ hv => hv.2) h
  obtain ⟨t₂, rfl, h₂⟩ := exists_of_sub_eq (u := "eria".toList) consumes_initrdEnd hfront (by decide) h₁.symm
  have h₂ : 'l' :: '@' :: (u ++ z) = sub (endWith last) initrdEnd t₂ := h₂
  have ht₂ : t₂ ≠ [] := by
    rintro rfl
    cases h₂
  rcases scan_cases consumes_initrdEnd ht₂ with ⟨w, r, rfl, -, hlang, hmatch, -⟩ | ⟨d, t₃, rfl, hmatch, -⟩
  · obtain ⟨v, hv, -⟩ := hkeeps w hlang
    rw [sub_of_rest consumes_initrdEnd hmatch, hv] at h₂
    exact absurd (List.cons.inj (List.cons.inj h₂).2).1 (by decide)
  · rw [sub_cons_of_none hmatch] at h₂
    obtain ⟨rfl, h₃⟩ := List.cons.inj h₂
    have hu' : 'l' ∉ '@' :: u := by
      rw [List.mem_cons, not_or]
      exact ⟨by decide, hu⟩
    obtain ⟨t₄, rfl, -⟩ := exists_of_sub_eq (u := '@' :: u) consumes_initrdEnd hfront hu' h₃.symm
    exact ⟨t₄, hsuffix⟩

/-- What stands behind the first bracket of a property. -/
theorem cellFront_inj {name w₁ w₂ w₃ w₁' w₂' w₃' x x' : Str} (hname : '<' ∉ name)
    (hw : ∀ c ∈ w₁ ++ w₂, isSpace c = true) (hw' : ∀ c ∈ w₁' ++ w₂', isSpace c = true)
    (h : cellFront name w₁ w₂ w₃ ++ x = cellFront name w₁' w₂' w₃' ++ x') : w₃ ++ x = w₃' ++ x' := by
  have hcount : ∀ {v₁ v₂ : Str}, (∀ c ∈ v₁ ++ v₂, isSpace c = true) →
      (name ++ (v₁ ++ '=' :: v₂)).countP (· == '<') = 0 := by
    intro v₁ v₂ hv
    rw [List.countP_eq_zero]
    intro c hc
    rw [beq_iff_eq]
    rintro rfl
    rw [List.mem_append, List.mem_append, List.mem_cons] at hc
    rcases hc with hc | hc | hc | hc
    · exact hname hc
    · exact absurd (hv _ (List.mem_append_left _ hc)) (by decide)
    · exact absurd hc (by decide)
    · exact absurd (hv _ (List.mem_append_right _ hc)) (by decide)
  have hsplit : ∀ v₁ v₂ v₃ y : Str, cellFront name v₁ v₂ v₃ ++ y =
      (name ++ (v₁ ++ '=' :: v₂)) ++ '<' :: (v₃ ++ y) := fun v₁ v₂ v₃ y => by
    unfold cellFront
    simp only [List.append_assoc, List.cons_append]
  rw [hsplit, hsplit] at h
  exact (append_cons_inj_of_countP (p := (· == '<')) rfl rfl ((hcount hw).trans (hcount hw').symm) h).2.2

/-- The digits up to the next bracket. -/
theorem eq_of_append_bracket {ds ds' z z' : Str} (hds : '>' ∉ ds) (hds' : '>' ∉ ds')
    (h : ds ++ '>' :: z = ds' ++ '>' :: z') : ds = ds' ∧ z = z' := by
  have hcount : ∀ {xs : Str}, '>' ∉ xs → xs.countP (· == '>') = 0 := fun hxs =>
    List.countP_eq_zero.mpr fun c hc hd => hxs (beq_iff_eq.mp hd ▸ hc)
  obtain ⟨hleft, -, hright⟩ := append_cons_inj_of_countP (p := (· == '>')) rfl rfl
    ((hcount hds).trans (hcount hds').symm) h
  exact ⟨hleft, hright⟩

theorem endWith_spec {last : Str} (w : Str) (hw : initrdEnd.Lang w) : ∃ v, endWith last w = 'l' :: v := by
  obtain ⟨b₁, b₂, ds, rfl, hb, -, -⟩ := lang_initrdEnd hw
  rw [endWith_eq hb]
  exact ⟨_, rfl⟩

/-- An end of the initrd in the text is that of the pass over the ends. -/
theorem eq_of_initrdEnd_writeEnds {last b₁ b₂ ds z x : Str} (hlast : ∀ c ∈ last, isHex c = true)
    (hb : ∀ c ∈ b₁ ++ b₂, isSpace c = true) (hds : ds ≠ [] ∧ ∀ c ∈ ds, isHex c = true)
    (h : cellFront "linux,initrd-end".toList b₁ b₂ [] ++ ("0x".toList ++ (ds ++ '>' :: z)) <:+
      writeEnds last x) : ds = last := by
  have hrest : initrdEnd.rest (cellFront "linux,initrd-end".toList b₁ b₂ [] ++
      ("0x".toList ++ (ds ++ '>' :: z))) ≠ none := by
    rw [rest_initrdEnd hb hds]
    exact Option.some_ne_none _
  have htail : ∀ w, initrdEnd.Lang w → 'l' ∉ (endWith last w).tail := by
    intro w hw
    obtain ⟨b₁, b₂, ds, rfl, hb, -, -⟩ := lang_initrdEnd hw
    have hassoc : (cellFront "linux,initrd-end".toList b₁ b₂ [] ++ ("0x".toList ++ (last ++ ['>']))).tail =
        cellFront "inux,initrd-end".toList b₁ b₂ [] ++ ("0x".toList ++ (last ++ ['>'])) := rfl
    rw [endWith_eq hb, hassoc]
    exact not_mem_endText hb hlast (by decide) (by decide) (by decide)
  obtain ⟨w, r, hmatch, heq⟩ := begins_initrdEnd.eq_of_rest_sub consumes_initrdEnd endWith_spec htail h hrest
  obtain ⟨b₁', b₂', ds', rfl, hb', -, -⟩ := lang_initrdEnd (lang_of_rest hmatch)
  rw [endWith_eq hb', List.append_assoc] at heq
  have hdigits := cellFront_inj (by decide) hb hb' heq
  rw [List.nil_append, List.nil_append, List.append_assoc, List.append_cancel_left_eq, List.append_assoc] at hdigits
  exact (eq_of_append_bracket (not_mem_of_isHex hds.2 (by decide)) (not_mem_of_isHex hlast (by decide))
    hdigits).1

/-! ### Digits in upper case -/

theorem isHex_of_hexDigit {c : Char} (h : (hexDigit? c).isSome = true) (hrough : ¬ rough c = true) :
    isHex c = true := by
  have hx : c ≠ 'x' := by
    rintro rfl
    exact absurd h (by decide)
  unfold rough at hrough
  rw [Bool.and_eq_true, not_and, Bool.not_eq_true', bne_iff_ne] at hrough
  by_contra hhex
  exact hrough ((Bool.not_eq_true _).mp hhex) hx

/-- The characters of a place that are no digits in lower case. -/
def Part.extra (unit : Str) (last : Str → Str) : Part → ℕ
  | text _ => 0
  | name => unit.countP rough
  | initrdEnd _ _ _ cell => (last cell).countP rough

/-- What is written has none. -/
theorem extra_new (uart last : ℕ) (p : Part) :
    p.extra (hex uart) (fun _ => "0x".toList ++ hex08 last) = 0 := by
  cases p with
  | text s => rfl
  | name => exact countP_rough_of_isHex (hex_spec _).2
  | initrdEnd w₁ w₂ w₃ cell =>
    have hzero : ("0x".toList).countP rough = 0 := by decide
    exact List.countP_append.trans (by rw [hzero, countP_rough_of_isHex (hex08_spec _).2])

theorem sum_map_eq_zero {f : Part → ℕ} {ps : List Part} (h : ∀ p ∈ ps, f p = 0) : (ps.map f).sum = 0 := by
  rw [List.sum_eq_zero_iff_forall_eq_nat]
  intro n hn
  obtain ⟨p, hp, rfl⟩ := List.mem_map.mp hn
  exact h p hp

theorem countP_parts (unit : Str) (last : Str → Str) (ps : List Part) :
    (ps.flatMap (Part.render unit last)).countP rough =
      (ps.flatMap (Part.render [] fun _ => [])).countP rough + (ps.map (Part.extra unit last)).sum := by
  induction ps with
  | nil => rfl
  | cons p ps ih =>
    have hhead : (p.render unit last).countP rough =
        (p.render [] fun _ => []).countP rough + p.extra unit last := by
      cases p with
      | text s => rfl
      | name =>
        have hbare : Part.render [] (fun _ => []) .name = "serial@".toList := List.append_nil _
        rw [hbare]
        exact List.countP_append
      | initrdEnd w₁ w₂ w₃ cell =>
        have hbare : Part.render [] (fun _ => []) (.initrdEnd w₁ w₂ w₃ cell) =
            cellFront "linux,initrd-end".toList w₁ w₂ w₃ := List.append_nil _
        rw [hbare]
        exact List.countP_append
    rw [List.flatMap_cons, List.flatMap_cons, List.countP_append, List.countP_append, hhead, ih,
      List.map_cons, List.sum_cons]
    omega

namespace Tree

variable {t : Tree}

/-- The tree up to its reg. -/
def head (t : Tree) (unit : Str) (last : Str → Str) : Str :=
  t.front.flatMap (Part.render unit last) ++ ("serial@".toList ++ (unit ++ (t.gap ++ '{' ::
    t.before.flatMap (Part.render unit last))))

theorem render_eq_head (t : Tree) (unit cell : Str) (last : Str → Str) : t.render unit cell last =
    t.head unit last ++ (cellFront "reg".toList t.w₁ t.w₂ t.w₃ ++ ("0x".toList ++ (cell ++
      (t.after.flatMap (Part.render unit last) ++ '}' :: t.back.flatMap (Part.render unit last))))) := by
  unfold render head
  generalize "serial@".toList = name
  simp only [List.append_assoc, List.cons_append]

theorem countP_head (t : Tree) (unit : Str) (last : Str → Str) : (t.head unit last).countP rough =
    (t.head [] fun _ => []).countP rough + unit.countP rough +
      ((t.front ++ t.before).map (Part.extra unit last)).sum := by
  unfold head
  generalize "serial@".toList = name
  simp only [List.countP_append, List.countP_cons, List.countP_nil, countP_parts unit last,
    List.map_append, List.sum_append]
  omega

/-- **What the script does not change, and what it may.** -/
theorem countP_render (t : Tree) (unit cell : Str) (last : Str → Str) :
    (t.render unit cell last).countP rough = (t.render [] [] fun _ => []).countP rough +
      unit.countP rough + cell.countP rough + (t.lists.flatten.map (Part.extra unit last)).sum := by
  have hlists : t.lists.flatten = (t.front ++ t.before) ++ (t.after ++ t.back) := by simp [lists]
  rw [render_eq_head, render_eq_head, hlists, List.map_append, List.sum_append]
  simp only [List.countP_append, List.countP_cons, List.countP_nil, countP_parts unit last,
    countP_head t unit last, List.map_append, List.sum_append]
  omega

/-- The lists stand in the text. -/
theorem exists_render_eq {ps : List Part} (hps : ps ∈ t.lists) (unit cell : Str) (last : Str → Str) :
    ∃ a z, t.render unit cell last = a ++ (ps.flatMap (Part.render unit last) ++ z) := by
  unfold render
  generalize "serial@".toList = name
  generalize "0x".toList = value
  simp only [lists, List.mem_cons, List.not_mem_nil, or_false] at hps
  rcases hps with rfl | rfl | rfl | rfl
  · exact ⟨[], _, rfl⟩
  · exact ⟨t.front.flatMap (Part.render unit last) ++ (name ++ (unit ++ (t.gap ++ ['{']))), _,
      by simp only [List.append_assoc, List.singleton_append]; rfl⟩
  · exact ⟨t.front.flatMap (Part.render unit last) ++ (name ++ (unit ++ (t.gap ++ '{' ::
      (t.before.flatMap (Part.render unit last) ++ (cellFront "reg".toList t.w₁ t.w₂ t.w₃ ++
        (value ++ cell)))))), _, by simp only [List.append_assoc, List.cons_append]; rfl⟩
  · exact ⟨t.front.flatMap (Part.render unit last) ++ (name ++ (unit ++ (t.gap ++ '{' ::
      (t.before.flatMap (Part.render unit last) ++ (cellFront "reg".toList t.w₁ t.w₂ t.w₃ ++
        (value ++ (cell ++ (t.after.flatMap (Part.render unit last) ++ ['}'])))))))), [],
      by simp only [List.append_assoc, List.cons_append, List.nil_append, List.append_nil]⟩

/-- A part of a list stands in the text, in front of the others. -/
theorem exists_suffix {ps : List Part} (hps : ps ∈ t.lists) {p : Part} {qs : List Part}
    (h : p :: qs <:+ ps) (unit cell : Str) (last : Str → Str) :
    ∃ z, p.render unit last ++ (qs.flatMap (Part.render unit last) ++ z) <:+ t.render unit cell last := by
  obtain ⟨a, z, heq⟩ := exists_render_eq hps unit cell last
  obtain ⟨rs, rfl⟩ := h
  refine ⟨z, a ++ rs.flatMap (Part.render unit last), ?_⟩
  rw [heq, List.flatMap_append, List.flatMap_cons]
  simp only [List.append_assoc]

/-- The end of a text stands in the text of the tree. -/
theorem exists_suffix_of_text {ps : List Part} (hps : ps ∈ t.lists) {a b : Str}
    (hs : .text (a ++ b) ∈ ps) (unit cell : Str) (last : Str → Str) :
    ∃ z, b ++ z <:+ t.render unit cell last := by
  obtain ⟨rs, qs, hqs⟩ := List.append_of_mem hs
  obtain ⟨z, hz⟩ := exists_suffix hps ⟨rs, hqs.symm⟩ unit cell last
  exact ⟨qs.flatMap (Part.render unit last) ++ z,
    List.IsSuffix.trans ⟨a, (List.append_assoc a b _).symm⟩ hz⟩

end Tree

/-! ### The ends of the initrd -/

section Ends

variable {ps : List Part}

theorem Ended.cons {p : Part} (h : Ended ps) (htext : ∀ s, p = .text s → initrdEnd.search s = none)
    (hcells : ∀ w₁ w₂ w₃ cell, p = .initrdEnd w₁ w₂ w₃ cell → w₃ = [] ∧
      (∃ ds, cell = "0x".toList ++ ds ∧ ds ≠ [] ∧ ∀ c ∈ ds, isHex c = true) ∧
        ∃ s rs, ps = .text ('>' :: s) :: rs) : Ended (p :: ps) where
  text s hs := by
    rcases List.mem_cons.mp hs with hp | hs
    · exact htext s hp.symm
    · exact h.text s hs
  cells w₁ w₂ w₃ cell qs hqs := by
    rcases List.suffix_cons_iff.mp hqs with heq | hqs
    · obtain ⟨hp, rfl⟩ := List.cons.inj heq
      exact hcells w₁ w₂ w₃ cell hp.symm
    · exact h.cells w₁ w₂ w₃ cell qs hqs

/-- Behind a property a bracket stands in a text. -/
theorem exists_text_of_bracket (hm : Marked ps) {unit y z : Str} {last : Str → Str}
    (hy : ∀ c ∈ y.head?, c ≠ '>') (h : '>' :: z = ps.flatMap (Part.render unit last) ++ y) :
    ∃ s rs, ps = .text ('>' :: s) :: rs := by
  have hhead : ∀ {x : Str}, '>' :: z = x → '>' ∈ x.head? := fun hx => hx ▸ rfl
  cases ps with
  | nil => exact absurd rfl (hy _ (hhead h))
  | cons p rs =>
    rw [flatMap_cons_append] at h
    cases p with
    | text s =>
      cases s with
      | nil =>
        cases rs with
        | nil => exact absurd rfl (hy _ (hhead h))
        | cons q rs =>
          have hq := hm.next rfl q rfl
          rw [flatMap_cons_append] at h
          cases q with
          | text s => cases hq
          | name => exact absurd (List.cons.inj h).1 (by decide)
          | initrdEnd w₁ w₂ w₃ cell => exact absurd (List.cons.inj h).1 (by decide)
      | cons c s =>
        obtain rfl : '>' = c := (List.cons.inj h).1
        exact ⟨s, rs, rfl⟩
    | name => exact absurd (List.cons.inj h).1 (by decide)
    | initrdEnd w₁ w₂ w₃ cell => exact absurd (List.cons.inj h).1 (by decide)

/-- A property that the pass writes right has its digits between its brackets. -/
theorem cells_of_writeEnds {w₁ w₂ w₃ cell z : Str} {z' : ℕ → Str}
    (hw : ∀ c ∈ w₁ ++ (w₂ ++ w₃), isSpace c = true)
    (hpass : ∀ size, writeEnds (hex08 (rootfsAddr + size))
      (cellFront "linux,initrd-end".toList w₁ w₂ w₃ ++ (cell ++ z)) =
        cellFront "linux,initrd-end".toList w₁ w₂ w₃ ++
          ("0x".toList ++ (hex08 (rootfsAddr + size) ++ z' size))) :
    w₃ = [] ∧ ∃ ds r, (ds ≠ [] ∧ ∀ c ∈ ds, isHex c = true) ∧ cell ++ z = "0x".toList ++ (ds ++ '>' :: r) ∧
      ∀ size, '>' :: writeEnds (hex08 (rootfsAddr + size)) r = z' size := by
  have hw' : ∀ c ∈ w₁ ++ w₂, isSpace c = true := fun c hc => hw c (by
    rw [← List.append_assoc]
    exact List.mem_append_left w₃ hc)
  cases hmatch : initrdEnd.rest (cellFront "linux,initrd-end".toList w₁ w₂ w₃ ++ (cell ++ z)) with
  | none =>
    -- without a match the cell stays what it was, whatever the size
    have hl : 'l' ∉ cellFront "inux,initrd-end".toList w₁ w₂ w₃ :=
      not_mem_cellFront hw (by decide) (by decide)
    have hkept : ∀ last, writeEnds last (cellFront "linux,initrd-end".toList w₁ w₂ w₃ ++ (cell ++ z)) =
        cellFront "linux,initrd-end".toList w₁ w₂ w₃ ++ writeEnds last (cell ++ z) := fun last =>
      (sub_cons_of_none hmatch).trans (congrArg ('l' :: ·) (writeEnds_kept hl last (cell ++ z)))
    have hcell : ∀ size, ∃ x, cell ++ z = "0x".toList ++ (hex08 (rootfsAddr + size) ++ x) := by
      intro size
      have hout := hpass size
      rw [hkept, List.append_cancel_left_eq, ← List.append_assoc] at hout
      have hl' : 'l' ∉ "0x".toList ++ hex08 (rootfsAddr + size) := by
        rw [List.mem_append, not_or]
        exact ⟨by decide, not_mem_of_isHex (hex08_spec _).2 (by decide)⟩
      obtain ⟨x, hx, -⟩ := exists_of_sub_eq consumes_initrdEnd endWith_spec hl' hout
      exact ⟨x, by rw [hx, List.append_assoc]⟩
    obtain ⟨x₀, h₀⟩ := hcell 0
    obtain ⟨x₁, h₁⟩ := hcell 1
    rw [h₀, List.append_cancel_left_eq] at h₁
    exact absurd (List.append_inj h₁ (by decide)).1 (by decide)
  | some r =>
    obtain ⟨w, heq, hlang⟩ := exists_word hmatch
    obtain ⟨b₁, b₂, ds, rfl, hb, hds⟩ := lang_initrdEnd hlang
    have hfront := heq
    rw [List.append_assoc] at hfront
    have hcell := cellFront_inj (by decide) hw' hb hfront
    have hw₃ : w₃ = [] := by
      cases w₃ with
      | nil => rfl
      | cons c w₃ =>
        obtain rfl : c = '0' := (List.cons.inj hcell).1
        exact absurd (hw '0' (by simp)) (by decide)
    subst hw₃
    rw [List.nil_append, List.nil_append, List.append_assoc, List.append_assoc, List.singleton_append] at hcell
    refine ⟨rfl, ds, r, hds, hcell, fun size => ?_⟩
    have hout := hpass size
    rw [heq] at hmatch hout
    have hsub := sub_of_rest (f := endWith (hex08 (rootfsAddr + size))) consumes_initrdEnd hmatch
    rw [endWith_eq hb] at hsub
    have hvalue := hsub.symm.trans hout
    rw [List.append_assoc] at hvalue
    have hvalue := cellFront_inj (by decide) hb hw' hvalue
    rw [List.nil_append, List.nil_append, List.append_assoc, List.append_cancel_left_eq, List.append_assoc,
      List.append_cancel_left_eq] at hvalue
    exact hvalue

/-- **The pass over the ends is right for the properties that it is to write only.** -/
theorem ended_of_writeEnds {unit y : Str} (hunit : ∀ c ∈ unit, isHex c = true) (hy : Fence y)
    {y' : ℕ → Str} (hy' : ∀ size, ∀ c ∈ (y' size).head?, c ≠ '>') : ∀ {ps : List Part}, Marked ps →
      (∀ s, .text s ∈ ps → initrdEnd.search s = none) →
      (∀ size, writeEnds (hex08 (rootfsAddr + size)) (ps.flatMap (Part.render unit id) ++ y) =
        ps.flatMap (Part.render unit fun _ => "0x".toList ++ hex08 (rootfsAddr + size)) ++ y' size) →
      Ended ps ∧ ∀ size, writeEnds (hex08 (rootfsAddr + size)) y = y' size
  | [], _, _, hpass => ⟨⟨fun s hs => absurd hs List.not_mem_nil, fun w₁ w₂ w₃ cell qs hqs =>
      absurd (List.suffix_nil.mp hqs) (List.cons_ne_nil _ _)⟩, hpass⟩
  | p :: ps, hm, htext, hpass => by
    have ih := ended_of_writeEnds hunit hy hy' hm.tail fun s hs => htext s (List.mem_cons_of_mem p hs)
    simp only [flatMap_cons_append] at hpass
    cases p with
    | text s =>
      have hsearch := htext s List.mem_cons_self
      have hkept : ∀ last, writeEnds last (s ++ (ps.flatMap (Part.render unit id) ++ y)) =
          s ++ writeEnds last (ps.flatMap (Part.render unit id) ++ y) := fun last =>
        sub_append_of_search hsearch (hy.parts unit id (hm.next rfl)).ends
      obtain ⟨hended, hrest⟩ := ih fun size =>
        List.append_cancel_left ((hkept (hex08 (rootfsAddr + size))).symm.trans (hpass size))
      refine ⟨hended.cons (fun s' hs' => ?_) fun w₁ w₂ w₃ cell hp => (by cases hp), hrest⟩
      cases hs'
      exact hsearch
    | name =>
      have hkept : ∀ last, writeEnds last (("serial@".toList ++ unit) ++
          (ps.flatMap (Part.render unit id) ++ y)) =
            ("serial@".toList ++ unit) ++ writeEnds last (ps.flatMap (Part.render unit id) ++ y) := fun last => by
        rw [List.append_assoc, List.append_assoc]
        exact writeEnds_name hunit last _
      obtain ⟨hended, hrest⟩ := ih fun size =>
        List.append_cancel_left ((hkept (hex08 (rootfsAddr + size))).symm.trans (hpass size))
      exact ⟨hended.cons (fun s hs => by cases hs) fun w₁ w₂ w₃ cell hp => (by cases hp), hrest⟩
    | initrdEnd w₁ w₂ w₃ cell =>
      obtain ⟨hw, hcell⟩ := hm.ends w₁ w₂ w₃ cell List.mem_cons_self
      have hpass' : ∀ size, writeEnds (hex08 (rootfsAddr + size))
          (cellFront "linux,initrd-end".toList w₁ w₂ w₃ ++ (cell ++ (ps.flatMap (Part.render unit id) ++ y))) =
            cellFront "linux,initrd-end".toList w₁ w₂ w₃ ++ ("0x".toList ++ (hex08 (rootfsAddr + size) ++
              (ps.flatMap (Part.render unit fun _ => "0x".toList ++ hex08 (rootfsAddr + size)) ++ y' size))) := by
        intro size
        have hout := hpass size
        unfold Part.render at hout
        simp only [List.append_assoc, id_eq] at hout
        exact hout
      obtain ⟨rfl, ds, r, hds, hvalue, hbehind⟩ := cells_of_writeEnds hw hpass'
      obtain ⟨s, rs, rfl⟩ := exists_text_of_bracket hm.tail (hy' 0) (hbehind 0)
      have hbracket : '>' ∉ "0x".toList ++ ds := by
        rw [List.mem_append, not_or]
        exact ⟨by decide, not_mem_of_isHex hds.2 (by decide)⟩
      obtain ⟨rfl, rfl⟩ := eq_of_append_bracket (z := s ++ rs.flatMap (Part.render unit id) ++ y)
        (hcell.not_mem (by decide) (by decide)) hbracket (hvalue.trans (List.append_assoc _ _ _).symm)
      obtain ⟨hended, hrest⟩ := ih fun size =>
        (writeEnds_kept (u := ['>']) (by decide) _ _).trans (hbehind size)
      refine ⟨hended.cons (fun s hs => by cases hs) fun w₁' w₂' w₃' cell' hp => ?_, hrest⟩
      cases hp
      exact ⟨rfl, ⟨ds, rfl, hds⟩, s, rs, rfl⟩

end Ends

/-! ### A tree that the script writes right -/

section Exact

variable {t : Tree} (h : t.Valid) (hedits : Edits t)
include hedits

theorem Edits.eq_new (uart size : ℕ) :
    writeEnds (hex08 (rootfsAddr + size)) (writeNames (hex uart) (sub (retarget uart) serialNode t.old)) =
      t.new uart size := by
  have hout := hedits { } uart size
  rw [tree_eq] at hout
  exact Except.ok.inj hout

/-- No digit in upper case is left over. -/
theorem Edits.countP_eq_zero : t.unit.countP rough = 0 ∧ t.cell.countP rough = 0 ∧
    ∀ p ∈ t.lists.flatten, p.extra t.unit id = 0 := by
  have hcount := congrArg (List.countP rough) (hedits.eq_new 0 0)
  have hleft : (writeEnds (hex08 (rootfsAddr + 0)) (writeNames (hex 0)
      (sub (retarget 0) serialNode t.old))).countP rough = t.old.countP rough := by
    rw [List.countP_eq_length_filter, List.countP_eq_length_filter, filter_writeEnds (hex08_spec _).2,
      filter_writeNames (hex_spec _).2, filter_retarget]
  rw [hleft, Tree.new, Tree.countP_render, sum_map_eq_zero fun p _ => extra_new 0 _ p, Tree.old,
    Tree.countP_render, countP_rough_of_isHex (hex_spec _).2, countP_rough_of_isHex (hex08_spec _).2] at hcount
  refine ⟨by omega, by omega, fun p hp => ?_⟩
  have hzero : (t.lists.flatten.map (Part.extra t.unit id)).sum = 0 := by omega
  exact List.sum_eq_zero_iff_forall_eq_nat.mp hzero _ (List.mem_map_of_mem hp)

/-- A digit behind a name is the first one of the address. -/
theorem Edits.head?_of_serial {uart size : ℕ} {d : Char} {z : Str} (hd : isHex d = true)
    (hsuffix : "serial@".toList ++ d :: z <:+ t.new uart size) : (hex uart).head? = some d := by
  have hne : 'l' ∉ [d] := fun hmem => ne_of_isHex hd (by decide) (List.mem_singleton.mp hmem).symm
  rw [← hedits.eq_new] at hsuffix
  obtain ⟨z', hz'⟩ := serial_of_writeEnds (u := [d]) (z := z) (hex08_spec _).2 hne hsuffix
  obtain ⟨y, hy, -⟩ := eq_of_serial_writeNames (hex_spec uart) hd hz'
  obtain ⟨e, es, hes⟩ := List.exists_cons_of_ne_nil (hex_spec uart).1
  rw [hes, List.cons_append] at hy
  rw [hes, (List.cons.inj hy).1, List.head?_cons]

/-- No digit stands behind the address. -/
theorem Edits.isHex_behind {uart size : ℕ} {c : Char} {z : Str}
    (hsuffix : "serial@".toList ++ (hex uart ++ c :: z) <:+ t.new uart size) : isHex c = false := by
  by_contra hhex
  rw [Bool.not_eq_false] at hhex
  have hne : 'l' ∉ hex uart ++ [c] := by
    rw [List.mem_append, List.mem_singleton, not_or]
    exact ⟨not_mem_of_isHex (hex_spec uart).2 (by decide), (ne_of_isHex hhex (by decide)).symm⟩
  rw [← List.singleton_append, ← List.append_assoc (hex uart), ← hedits.eq_new] at hsuffix
  obtain ⟨z', hz'⟩ := serial_of_writeEnds (hex08_spec _).2 hne hsuffix
  have hspec := hex_spec uart
  generalize hex uart = unit at hspec hz'
  obtain ⟨d, ds, rfl⟩ := List.exists_cons_of_ne_nil hspec.1
  rw [List.append_assoc] at hz'
  obtain ⟨y, hy, hhead⟩ := eq_of_serial_writeNames hspec (hspec.2 d List.mem_cons_self) hz'
  obtain rfl : [c] ++ z' = y := (List.append_right_inj (d :: ds)).mp hy
  rw [hhead c rfl] at hhex
  cases hhex

/-- The names are where they are marked. -/
theorem Edits.named : ∀ ps ∈ t.lists, Named ps := by
  refine fun ps hps => ⟨fun s hs => ?_, fun s qs hqs c hc => ?_⟩
  · by_contra hsome
    obtain ⟨⟨before, w, after⟩, hsearch⟩ := Option.ne_none_iff_exists'.mp hsome
    obtain ⟨rfl, hmatch⟩ := search_eq_some hsearch
    obtain ⟨ds, rfl, hds⟩ := lang_serialName (lang_of_rest hmatch)
    obtain ⟨d, ds, rfl⟩ := List.exists_cons_of_ne_nil hds.1
    rw [List.append_assoc, List.append_assoc, List.cons_append] at hs
    -- the text has its digit whatever the address
    have hhead : ∀ uart, (hex uart).head? = some d := fun uart => by
      obtain ⟨z, hz⟩ := Tree.exists_suffix_of_text hps hs (hex uart) (hex08 uart)
        fun _ => "0x".toList ++ hex08 (rootfsAddr + 0)
      rw [List.append_assoc, List.cons_append] at hz
      exact hedits.head?_of_serial (hds.2 d List.mem_cons_self) hz
    have hone := (hhead 1).trans (hhead 2).symm
    exact absurd hone (by decide)
  · obtain ⟨s, rfl⟩ : ∃ s', s = c :: s' := by
      cases s with
      | nil => cases hc
      | cons d s => exact ⟨s, Option.some.inj hc ▸ rfl⟩
    obtain ⟨z, hz⟩ := Tree.exists_suffix hps hqs (hex 0) (hex08 0)
      fun _ => "0x".toList ++ hex08 (rootfsAddr + 0)
    rw [List.flatMap_cons, List.append_assoc] at hz
    unfold Part.render at hz
    rw [List.append_assoc] at hz
    exact hedits.isHex_behind hz

/-- The ends of the initrd are where they are marked. -/
theorem Edits.search_initrdEnd : ∀ ps ∈ t.lists, ∀ s, .text s ∈ ps → initrdEnd.search s = none := by
  intro ps hps s hs
  by_contra hsome
  obtain ⟨⟨before, w, after⟩, hsearch⟩ := Option.ne_none_iff_exists'.mp hsome
  obtain ⟨rfl, hmatch⟩ := search_eq_some hsearch
  obtain ⟨b₁, b₂, ds, rfl, hb, hds⟩ := lang_initrdEnd (lang_of_rest hmatch)
  simp only [List.append_assoc] at hs
  -- the text has its digits whatever the size
  have hdigits : ∀ size, ds = hex08 (rootfsAddr + size) := fun size => by
    obtain ⟨z, hz⟩ := Tree.exists_suffix_of_text hps hs (hex 0) (hex08 0)
      fun _ => "0x".toList ++ hex08 (rootfsAddr + size)
    simp only [List.append_assoc, List.singleton_append] at hz
    have hnew : t.render (hex 0) (hex08 0) (fun _ => "0x".toList ++ hex08 (rootfsAddr + size)) =
        writeEnds (hex08 (rootfsAddr + size)) (writeNames (hex 0) (sub (retarget 0) serialNode t.old)) :=
      (hedits.eq_new 0 size).symm
    rw [hnew] at hz
    exact eq_of_initrdEnd_writeEnds (hex08_spec _).2 hb hds hz
  exact absurd ((hdigits 0).symm.trans (hdigits 1)) (by decide)

include h

theorem Edits.isHex_unit : ∀ c ∈ t.unit, isHex c = true := fun c hc =>
  isHex_of_hexDigit (h.unit.2 c hc) (List.countP_eq_zero.mp hedits.countP_eq_zero.1 c hc)

theorem Edits.isHex_cell : ∀ c ∈ t.cell, isHex c = true := fun c hc =>
  isHex_of_hexDigit (h.cell.2 c hc) (List.countP_eq_zero.mp hedits.countP_eq_zero.2.1 c hc)

/-- No value stands in front of reg. -/
theorem Edits.search_value_eq_none : value.search (t.before.flatMap (Part.render t.unit id)) = none := by
  by_contra hsome
  have hunit := hedits.isHex_unit h
  have hcell := hedits.isHex_cell h
  -- the first cell stays what it was
  have hkept : ∀ uart, ∃ a z, t.new uart 0 = a ++ (cellFront "reg".toList t.w₁ t.w₂ t.w₃ ++
      ("0x".toList ++ (t.cell ++ z))) ∧ a.countP rough = (t.head t.unit id).countP rough := by
    intro uart
    generalize hbefore : t.before.flatMap (Part.render t.unit id) = before at hsome
    generalize hafter : t.after.flatMap (Part.render t.unit id) ++ '}' ::
      t.back.flatMap (Part.render t.unit id) = after
    generalize hfront : t.front.flatMap (Part.render t.unit id) ++ ("serial@".toList ++ (t.unit ++
      (t.gap ++ '{' :: writeValue uart before))) = front
    have hfirst : sub (retarget uart) serialNode t.old = front ++
        (cellFront "reg".toList t.w₁ t.w₂ t.w₃ ++ ("0x".toList ++ (t.cell ++ after))) := by
      rw [Tree.retarget_old h hunit hcell hedits.named, hbefore,
        writeValue_append h.blank h.cell.1 hcell hsome, ← hfront, ← hafter]
      generalize "serial@".toList = name
      generalize "0x".toList = value
      simp only [List.append_assoc, List.cons_append, List.nil_append]
    refine ⟨writeEnds (hex08 (rootfsAddr + 0)) (writeNames (hex uart) front),
      writeEnds (hex08 (rootfsAddr + 0)) (writeNames (hex uart) after), ?_, ?_⟩
    · rw [← hedits.eq_new, hfirst, writeNames_append (.front_reg _ _ _ _),
        h.pass_reg hcell fun u y hs _ => writeNames_kept hs (hex uart) y,
        writeEnds_append (.front_reg _ _ _ _), h.pass_reg hcell fun u y _ hl => writeEnds_kept hl _ y]
    · rw [List.countP_eq_length_filter, filter_writeEnds (hex08_spec _).2,
        filter_writeNames (hex_spec _).2, ← hfront, Tree.head, hbefore, List.countP_eq_length_filter]
      simp only [List.filter_append, List.filter_cons, filter_writeValue]
  have hcells : ∀ uart, (hex08 uart).length = 8 → t.cell = hex08 uart := by
    intro uart hlen
    obtain ⟨a, z, hnew, hcount⟩ := hkept uart
    rw [Tree.new, Tree.render_eq_head] at hnew
    have hfront : ∀ x, cellFront "reg".toList t.w₁ t.w₂ t.w₃ ++ x =
        'r' :: (cellFront "eg".toList t.w₁ t.w₂ t.w₃ ++ x) := fun x => rfl
    rw [hfront, hfront] at hnew
    have hplace : (t.head (hex uart) fun _ => "0x".toList ++ hex08 (rootfsAddr + 0)).countP rough =
        a.countP rough := by
      have hold : ∀ p ∈ t.front ++ t.before, p.extra t.unit id = 0 := fun p hp =>
        hedits.countP_eq_zero.2.2 p (by
          rw [Tree.lists, List.flatten_cons, List.flatten_cons, ← List.append_assoc]
          exact List.mem_append_left _ hp)
      rw [hcount, Tree.countP_head, Tree.countP_head t t.unit, sum_map_eq_zero hold,
        sum_map_eq_zero fun p _ => extra_new uart _ p, hedits.countP_eq_zero.1,
        countP_rough_of_isHex (hex_spec _).2]
    have hsame := (append_cons_inj_of_countP (p := rough) rfl rfl hplace hnew).2.2
    rw [List.append_cancel_left_eq, List.append_cancel_left_eq] at hsame
    exact (List.append_inj hsame (hlen.trans h.cell.1.symm)).1.symm
  have hone := (hcells 1 (by decide)).symm.trans (hcells 2 (by decide))
  exact absurd hone (by decide)

/-- The ends of the initrd are written where they are marked. -/
theorem Edits.ended : ∀ ps ∈ t.lists, Ended ps := by
  have hunit := (hex_spec 0).2
  have hcell := (hex08_spec 0).2
  have hpass : ∀ size, writeEnds (hex08 (rootfsAddr + size)) (t.render (hex 0) (hex08 0) id) =
      t.render (hex 0) (hex08 0) fun _ => "0x".toList ++ hex08 (rootfsAddr + size) := by
    intro size
    have hout := hedits { } 0 size
    rw [Tree.tree_old h (hedits.isHex_unit h) (hedits.isHex_cell h) hedits.named
      (hedits.search_value_eq_none h)] at hout
    exact Except.ok.inj hout
  have htext := hedits.search_initrdEnd
  have hreg : ∀ y : Str, ∀ c ∈ (cellFront "reg".toList t.w₁ t.w₂ t.w₃ ++ y).head?, c ≠ '>' :=
    fun y c hc => by
      obtain rfl : 'r' = c := Option.some.inj hc
      decide
  unfold Tree.render at hpass
  have hkept : ∀ size u y, 's' ∉ u → 'l' ∉ u → writeEnds (hex08 (rootfsAddr + size)) (u ++ y) =
      u ++ writeEnds (hex08 (rootfsAddr + size)) y := fun size u y _ hl => writeEnds_kept hl _ y
  -- from one list to the next
  obtain ⟨hfront, hpass⟩ := ended_of_writeEnds hunit (.serial _) (fun size c hc => by
    obtain rfl : 's' = c := Option.some.inj hc
    decide) h.front (htext _ (by simp [Tree.lists])) hpass
  simp only [writeEnds_name hunit, h.pass_gap (hkept _), List.append_cancel_left_eq, List.cons.injEq,
    true_and] at hpass
  obtain ⟨hbefore, hpass⟩ := ended_of_writeEnds hunit (.front_reg _ _ _ _) (fun size => hreg _) h.before
    (htext _ (by simp [Tree.lists])) hpass
  simp only [h.pass_reg hcell (hkept _), List.append_cancel_left_eq] at hpass
  obtain ⟨hafter, hpass⟩ := ended_of_writeEnds hunit (.closing _) (fun size c hc => by
    obtain rfl : '}' = c := Option.some.inj hc
    decide) h.after (htext _ (by simp [Tree.lists])) hpass
  have hback : ∀ size, writeEnds (hex08 (rootfsAddr + size)) (t.back.flatMap (Part.render (hex 0) id) ++ []) =
      t.back.flatMap (Part.render (hex 0) fun _ => "0x".toList ++ hex08 (rootfsAddr + size)) ++ [] := by
    intro size
    rw [List.append_nil, List.append_nil]
    exact (List.cons.inj ((hkept size ['}'] _ (by decide) (by decide)).symm.trans (hpass size))).2
  obtain ⟨hback, -⟩ := ended_of_writeEnds hunit .nil (fun size c hc => by cases hc) h.back
    (htext _ (by simp [Tree.lists])) hback
  simp only [Tree.lists, List.mem_cons, List.not_mem_nil, or_false]
  rintro ps (rfl | rfl | rfl | rfl)
  · exact hfront
  · exact hbefore
  · exact hafter
  · exact hback

/-- **Only in a plain tree.** -/
theorem plain_of_edits : t.Plain where
  unit := hedits.isHex_unit h
  cell := hedits.isHex_cell h
  first := hedits.search_value_eq_none h
  named := hedits.named
  ended := hedits.ended h

end Exact

theorem boardDigits : ∀ c ∈ "f0004000".toList, (hexDigit? c).isSome = true :=
  List.all_eq_true.mp (by decide)

theorem boardSpaces : ∀ c ∈ [' ', ' '], isSpace c = true := List.all_eq_true.mp (by decide)

/-- A tree with some properties in front of reg, and some behind. -/
def boardTree (before : List Part) (after : Str) : Tree where
  front := [.text "/\x7bchosen\x7b".toList, .initrdEnd [] [' '] [] "0x40bdfe00".toList, .text ">;\x7d;".toList]
  unit := "f0004000".toList
  gap := " ".toList
  before
  w₁ := " ".toList
  w₂ := " ".toList
  w₃ := []
  cell := "f0004000".toList
  after := [.text after]
  back := [.text ";aliases\x7bserial0=\"/".toList, .name, .text "\";\x7d;\x7d;".toList]

theorem boardTree_valid {before : List Part} {after : Str} (hbefore : Marked before)
    (hchildless : ∀ s, .text s ∈ before → '{' ∉ s ∧ '}' ∉ s) (hafter : '{' ∉ after ∧ '}' ∉ after) :
    (boardTree before after).Valid where
  unit := ⟨List.cons_ne_nil _ _, boardDigits⟩
  gap c hc := boardSpaces c (List.mem_cons_of_mem _ hc)
  blank := boardSpaces
  childless s hs := by
    rcases List.mem_append.mp hs with hs | hs
    · exact hchildless s hs
    · cases List.mem_singleton.mp hs
      exact hafter
  one ps hps qs hqs w x hwx := by
    -- behind the name there is no bracket
    have hopen : '{' ∈ qs.flatMap (Part.render "f0004000".toList id) := by
      have hmem : '{' ∈ w ++ '{' :: x := by simp
      exact hwx ▸ hmem
    exfalso
    simp only [boardTree, List.mem_cons, List.not_mem_nil, or_false] at hps
    rcases hps with rfl | rfl
    · simp [List.suffix_cons_iff] at hqs
    · simp only [List.suffix_cons_iff, List.cons.injEq, reduceCtorEq, false_and, true_and, false_or,
        List.suffix_nil, or_false] at hqs
      subst hqs
      exact absurd hopen (by decide)
  cell := ⟨rfl, boardDigits⟩
  marked ps hps := by
    simp only [Tree.lists, boardTree, List.mem_cons, List.not_mem_nil, or_false] at hps
    rcases hps with rfl | rfl | rfl | rfl
    · refine ⟨by decide, fun w₁ w₂ w₃ cell h => ?_⟩
      simp only [List.mem_cons, reduceCtorEq, Part.initrdEnd.injEq, List.not_mem_nil, or_false, false_or] at h
      obtain ⟨rfl, rfl, rfl, rfl⟩ := h
      have hspaces : ∀ c ∈ [' '], isSpace c = true := List.all_eq_true.mp (by decide)
      have hcell : ("0x40bdfe00".toList.all fun c => (hexDigit? c).isSome || c == 'x') = true := by decide
      refine ⟨hspaces, fun c hc => ?_⟩
      have hc := List.all_eq_true.mp hcell c hc
      rw [Bool.or_eq_true, beq_iff_eq] at hc
      exact hc.imp_right Or.inl
    · exact hbefore
    · exact ⟨.singleton _, fun w₁ w₂ w₃ cell h => by simp at h⟩
    · exact ⟨by decide, fun w₁ w₂ w₃ cell h => by simp at h⟩
  initrd := ⟨_, List.mem_cons_self, _, List.mem_cons_of_mem _ List.mem_cons_self, rfl⟩

/-- The reg comes first, the clock behind. -/
def regTree : Tree := boardTree [] " 0x100>;clock-frequency = <0x05f5e100>;".toList

/-- The clock comes first. -/
def clockTree : Tree := boardTree [.text "clock-frequency = <0x05f5e100>;".toList] " 0x100>;".toList

theorem regTree_valid : regTree.Valid :=
  boardTree_valid ⟨.nil, fun _ _ _ _ h => absurd h List.not_mem_nil⟩
    (fun _ h => absurd h List.not_mem_nil) (by decide)

theorem regTree_texts : ∀ s, .text s ∈ regTree.lists.flatten →
    serialName.search s = none ∧ initrdEnd.search s = none := by
  simp only [regTree, boardTree, Tree.lists, List.flatten_cons, List.flatten_nil, List.append_nil,
    List.cons_append, List.nil_append, List.mem_cons, Part.text.injEq, reduceCtorEq, List.not_mem_nil,
    false_or, or_false]
  rintro s (rfl | rfl | rfl | rfl | rfl) <;> exact ⟨rfl, rfl⟩

theorem regTree_plain : regTree.Plain where
  unit := List.all_eq_true.mp (by decide)
  cell := List.all_eq_true.mp (by decide)
  first := rfl
  named ps hps := by
    refine ⟨fun s hs => (regTree_texts s (List.mem_flatten.mpr ⟨ps, hps, hs⟩)).1, fun s qs hqs => ?_⟩
    simp only [regTree, boardTree, Tree.lists, List.mem_cons, List.not_mem_nil, or_false] at hps
    rcases hps with rfl | rfl | rfl | rfl <;>
      simp only [List.suffix_cons_iff, List.cons.injEq, reduceCtorEq, false_and, and_false, true_and,
        false_or, List.suffix_nil, or_false, Part.text.injEq] at hqs
    obtain ⟨rfl, -⟩ := hqs
    rintro c hc
    obtain rfl : '"' = c := Option.some.inj hc
    decide
  ended ps hps := by
    refine ⟨fun s hs => (regTree_texts s (List.mem_flatten.mpr ⟨ps, hps, hs⟩)).2,
      fun w₁ w₂ w₃ cell qs hqs => ?_⟩
    simp only [regTree, boardTree, Tree.lists, List.mem_cons, List.not_mem_nil, or_false] at hps
    rcases hps with rfl | rfl | rfl | rfl <;>
      simp only [List.suffix_cons_iff, List.cons.injEq, reduceCtorEq, false_and, false_or,
        List.suffix_nil, or_false, Part.initrdEnd.injEq] at hqs
    obtain ⟨⟨rfl, rfl, rfl, rfl⟩, rfl⟩ := hqs
    exact ⟨rfl, ⟨"40bdfe00".toList, rfl, by decide, List.all_eq_true.mp (by decide)⟩, _, _, rfl⟩

end LinuxPayload
end Xc7Tools
