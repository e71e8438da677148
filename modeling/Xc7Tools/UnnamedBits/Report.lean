/-
# unnamed_bits.py: what is reported

What the database names is said of the lines of its files: behind a feature of
the tile's type stands a token with the minor and the index, `!` in front or not
(`Has`, `Names`). The script's tokens are these (`mem_tokens`).

A position is reported when the text made of its minor and its index is not
among the tokens of the tile's type (`reported_iff`). A token with the minor
filled up with zeros, or an index not in two digits, names its position and is
another text, so the report is right exactly where the set bits that are named
at all are also named in the one shape, and `int` reads every minor
(`report_right_iff`).

Key definitions: `Has`, `Names`, `SetIn`, `Unnameable`, `Reported`, `Canonical`.
Key theorems: `mem_tokens`, `mem_setBits`, `mem_found`, `reported_iff`, `report_right_iff`.
-/
import Mathlib.Data.List.Dedup
import Xc7Tools.UnnamedBits.Script

namespace Xc7Tools
namespace UnnamedBits

open Str Checked

/-! ### What is asked -/

/-- A bit of a configuration frame, which has fewer words than three digits count. -/
structure ConfigBit where
  frame : ℕ
  word : ℕ
  bit : ℕ
  word_lt : word < 10 ^ 3
  bit_lt : bit < 32

/-- `bit_%08x_%03d_%02d` -/
def ConfigBit.text (x : ConfigBit) : Str :=
  "bit".toList ++ '_' :: zfill 8 (Nat.toDigits 16 x.frame) ++ '_' :: zfill 3 (Nat.toDigits 10 x.word) ++
    '_' :: zfill 2 (Nat.toDigits 10 x.bit)

/-- `bitread` prints a line for every bit, the bit's text first, and other lines that do not look
like one. -/
structure Prints (S : List ConfigBit) (out : List Str) : Prop where
  complete : ∀ x ∈ S, ∃ rest, (rest = [] ∨ rest.head? = some '_') ∧ x.text ++ rest ∈ out
  sound : ∀ l ∈ out, (∃ x ∈ S, ∃ rest, (rest = [] ∨ rest.head? = some '_') ∧ l = x.text ++ rest) ∨
    (l.splitOn '_').length < 4

/-- A file of bits: `segbits_*.db` or `ppips_*.db`, but not of masks or origins. -/
def IsBits (path : Str) : Prop :=
  ("segbits_".toList <+: path ∨ "ppips_".toList <+: path) ∧ ".db".toList <:+ path ∧
    ¬ "origin_info".toList <:+: path ∧ ¬ "mask_".toList <:+: path

/-- The feature is of the tile type: this, or this and a dot, begins its name. -/
def OfType (feature ttype : Str) : Prop :=
  '.' ∉ ttype ∧ (feature = ttype ∨ ttype ++ ['.'] <+: feature)

/-- A bit token in decimal. -/
def IsToken (tok : Str) : Prop := ∃ m k, IsNumeral m ∧ IsNumeral k ∧ tok = m ++ '_' :: k

/-- A word that is no bit token, such as `always`: it has no underscore, or begins with no digit. -/
def IsTag (tok : Str) : Prop := '_' ∉ tok ∨ ∃ c ∈ tok.head?, isdigit [c] = false

variable (db : List (Str × Str)) (tilegrid : List (Str × Entry)) (S : List ConfigBit)

/-- On a line of a file of bits the token stands behind a feature of the type, negated or not. -/
def Has (ttype tok : Str) : Prop :=
  ∃ f ∈ db, IsBits f.1 ∧ ∃ line ∈ linesOf f.2, ∃ feature words, fields line = feature :: words ∧
    OfType feature ttype ∧ ∃ bangs, (∀ c ∈ bangs, c = '!') ∧ bangs ++ tok ∈ words

/-- The tokens of the database are in decimal, and its other words are tags. -/
def Decimal : Prop := ∀ ttype tok, Has db ttype tok → tok.head? ≠ some '!' → IsToken tok ∨ IsTag tok

/-- No minor has more digits than `int` takes. -/
def ShortMinors : Prop := ∀ ttype m k, IsNumeral m → IsNumeral k → Has db ttype (m ++ '_' :: k) →
  m.length ≤ maxStrDigits

/-- A feature of the type names the position. -/
def Names (ttype : Str) (minor index : ℕ) : Prop :=
  ∃ m k, IsNumeral m ∧ IsNumeral k ∧ Has db ttype (m ++ '_' :: k) ∧ value m = minor ∧
    value k = index

/-- The position is in a block of the tile, and its bit is set. -/
def SetIn (ttype : Str) (minor index : ℕ) (tile : Str) : Prop :=
  ∃ e, (tile, e) ∈ tilegrid ∧ e.type = ttype ∧ ∃ b ∈ e.blocks, b.1 ≠ "BLOCK_RAM".toList ∧
    (minor : ℤ) < b.2.frames ∧ (index : ℤ) < 32 * b.2.words ∧ ∃ base, b.2.base? = some base ∧
      ∃ x ∈ S, (x.frame : ℤ) = base + minor ∧ (x.word : ℤ) = b.2.offset + (index / 32 : ℕ) ∧
        x.bit = index % 32

/-- The position is set, on a minor of the type, and no feature names it. -/
def Unnameable (ttype : Str) (minor index : ℕ) (tile : Str) : Prop :=
  SetIn tilegrid S ttype minor index tile ∧ (∃ k, Names db ttype minor k) ∧
    ¬ Names db ttype minor index

/-- The position is under its text in `unnamed`, with the tile. -/
def Reported (unnamed : Dict Str (Dict Str (List Str))) (ttype : Str) (minor index : ℕ)
    (tile : Str) : Prop :=
  ∃ ps, unnamed.get? ttype = some ps ∧ tile ∈ ps.getAll (posText minor index)

/-- Where a set position has a name, it has one without zeros before the minor and with the index
in two digits, or as many more as it needs. -/
def Canonical : Prop :=
  ∀ ttype minor index tile, SetIn tilegrid S ttype minor index tile → Names db ttype minor index →
    Has db ttype (posText minor index)

/-! ### The bits -/

theorem splitOn_last {c : Char} {s rest : Str} (h : c ∉ s)
    (hrest : rest = [] ∨ rest.head? = some c) : ∃ fs, (s ++ rest).splitOn c = s :: fs := by
  rcases hrest with rfl | hrest
  · refine ⟨[], ?_⟩
    rw [List.append_nil]
    exact List.splitOn_eq_singleton h
  · obtain ⟨t, rfl⟩ := List.head?_eq_some_iff.mp hrest
    exact ⟨t.splitOn c, List.splitOn_append_cons_self_of_not_mem h t⟩

theorem not_mem_numeral {ds : Str} (h : IsNumeral ds) : '_' ∉ ds := fun hm =>
  absurd (h.2 _ hm) (by decide)

theorem not_mem_hexNumeral {ds : Str} (h : IsHexNumeral ds) : '_' ∉ ds := by
  intro hm
  obtain ⟨d, hd, he⟩ := h.2 _ hm
  exact (digitChar_hex d hd).2.2 (he ▸ (by decide))

theorem readBit_text (x : ConfigBit) {rest : Str} (hrest : rest = [] ∨ rest.head? = some '_') :
    readBit (x.text ++ rest) = some ((x.frame : ℤ), (x.word : ℤ), (x.bit : ℤ)) := by
  have hframe := not_mem_hexNumeral ((isHexNumeral_toDigits x.frame).zfill 8)
  have hword := not_mem_numeral ((isNumeral_toDigits x.word).zfill 3)
  have hbit := not_mem_numeral ((isNumeral_toDigits x.bit).zfill 2)
  obtain ⟨fs, hfs⟩ := splitOn_last hbit hrest
  have hsplit : (x.text ++ rest).splitOn '_' = "bit".toList :: zfill 8 (Nat.toDigits 16 x.frame) ::
      zfill 3 (Nat.toDigits 10 x.word) :: zfill 2 (Nat.toDigits 10 x.bit) :: fs := by
    simp only [ConfigBit.text, List.append_assoc, List.cons_append]
    rw [List.splitOn_append_cons_self_of_not_mem (by decide),
      List.splitOn_append_cons_self_of_not_mem hframe,
      List.splitOn_append_cons_self_of_not_mem hword, hfs]
  rw [readBit, hsplit]
  have hword := int?_zfill (w := 3) (by decide) (x.word_lt.trans (by decide))
  have hbit := int?_zfill (w := 2) (by decide) (x.bit_lt.trans (by decide))
  simp only [int16?_zfill, hword, hbit]
  rfl

/-- A line that is no bit is passed over. -/
theorem readBit_of_length {l : Str} (h : (l.splitOn '_').length < 4) : readBit l = none := by
  unfold readBit
  split
  · next _ _ _ _ _ hsplit =>
    rw [hsplit] at h
    simp only [List.length_cons] at h
    omega
  · rfl

variable {db tilegrid S}

theorem mem_setBits {out : List Str} (h : Prints S out) {frame word bit : ℤ} :
    (word, bit) ∈ (setBits out).getAll frame ↔
      ∃ x ∈ S, (x.frame : ℤ) = frame ∧ (x.word : ℤ) = word ∧ (x.bit : ℤ) = bit := by
  rw [setBits, Dict.mem_getAll_gather Dict.mem_addTo, List.mem_filterMap]
  constructor
  · rintro ⟨l, hl, hread⟩
    rcases h.sound l hl with ⟨x, hx, rest, hrest, rfl⟩ | hlen
    · rw [readBit_text x hrest] at hread
      simp only [Option.some.injEq, Prod.mk.injEq] at hread
      exact ⟨x, hx, hread⟩
    · rw [readBit_of_length hlen] at hread
      cases hread
  · rintro ⟨x, hx, rfl, rfl, rfl⟩
    obtain ⟨rest, hrest, hl⟩ := h.complete x hx
    exact ⟨_, hl, readBit_text x hrest⟩

/-! ### The names -/

theorem mem_named {ttype bit : Str} : bit ∈ (named db).getAll ttype ↔ (ttype, bit) ∈ tokens db :=
  Dict.mem_getAll_gather Dict.mem_addTo

theorem isDb_iff {path : Str} : isDb path = true ↔ IsBits path := by
  simp [isDb, IsBits, ← isIn_iff_isInfix, and_assoc]

theorem ofType_iff {feature ttype : Str} :
    OfType feature ttype ↔ feature.takeWhile (· != '.') = ttype := by
  constructor
  · rintro ⟨hdot, h⟩
    have hall : ∀ c ∈ ttype, (c != '.') = true := fun c hc =>
      bne_iff_ne.mpr fun e => hdot (e ▸ hc)
    rcases h with rfl | ⟨rest, rfl⟩
    · exact List.takeWhile_eq_self_iff.mpr hall
    · rw [List.append_assoc, List.takeWhile_append_of_pos hall]
      simp
  · rintro rfl
    refine ⟨fun hm => absurd (List.mem_takeWhile_imp hm) (by decide), ?_⟩
    have hsplit := List.takeWhile_append_dropWhile (p := (· != '.')) (l := feature)
    cases hdrop : feature.dropWhile (· != '.') with
    | nil =>
      rw [hdrop, List.append_nil] at hsplit
      exact Or.inl hsplit.symm
    | cons c rest =>
      have hc : c = '.' := by
        have := List.head?_dropWhile_not (· != '.') feature
        rw [hdrop] at this
        simpa using this
      refine Or.inr ⟨rest, ?_⟩
      rw [hc] at hdrop
      rw [List.append_assoc, List.singleton_append, ← hdrop, hsplit]

/-- What is left when the `!` in front are taken off. -/
theorem dropBangs_iff {word tok : Str} : word.dropWhile (· == '!') = tok ↔
    tok.head? ≠ some '!' ∧ ∃ bangs, (∀ c ∈ bangs, c = '!') ∧ bangs ++ tok = word := by
  constructor
  · rintro rfl
    refine ⟨fun h => ?_, word.takeWhile (· == '!'), fun c hc => ?_,
      List.takeWhile_append_dropWhile⟩
    · have := List.head?_dropWhile_not (· == '!') word
      rw [h] at this
      exact absurd this (by decide)
    · exact beq_iff_eq.mp (List.mem_takeWhile_imp (p := (· == '!')) hc)
  · rintro ⟨hhead, bangs, hbangs, rfl⟩
    rw [List.dropWhile_append_of_pos fun c hc => beq_iff_eq.mpr (hbangs c hc)]
    cases tok with
    | nil => rfl
    | cons c tok =>
      have hc : c ≠ '!' := fun e => hhead (congrArg some e)
      simp [hc]

/-- **The script's tokens are those on the lines of the database** that look like positions. -/
theorem mem_tokens {ttype tok : Str} : (ttype, tok) ∈ tokens db ↔
    Has db ttype tok ∧ tok.head? ≠ some '!' ∧ isPosition tok = true := by
  have hline : ∀ {line}, (ttype, tok) ∈ lineTokens line ↔
      (∃ feature words, fields line = feature :: words ∧ OfType feature ttype ∧
        ∃ bangs, (∀ c ∈ bangs, c = '!') ∧ bangs ++ tok ∈ words) ∧
          tok.head? ≠ some '!' ∧ isPosition tok = true := by
    intro line
    unfold lineTokens
    cases hf : fields line with
    | nil => simp
    | cons feature words =>
      simp only [List.mem_map, List.mem_filter, Prod.mk.injEq, ← ofType_iff]
      constructor
      · rintro ⟨_, ⟨⟨word, hword, hdrop⟩, hpos⟩, htype, rfl⟩
        obtain ⟨hhead, bangs, hbangs, rfl⟩ := dropBangs_iff.mp hdrop
        exact ⟨⟨feature, words, rfl, htype, bangs, hbangs, hword⟩, hhead, hpos⟩
      · rintro ⟨⟨feature', words', heq, htype, bangs, hbangs, hword⟩, hhead, hpos⟩
        obtain ⟨rfl, rfl⟩ := List.cons.inj heq
        exact ⟨tok, ⟨⟨_, hword, dropBangs_iff.mpr ⟨hhead, bangs, hbangs, rfl⟩⟩, hpos⟩, htype, rfl⟩
  simp only [tokens, List.mem_flatMap, List.mem_filter, isDb_iff, hline, Has]
  constructor
  · rintro ⟨f, ⟨hf, hdb⟩, line, hl, h, hpos⟩
    exact ⟨⟨f, hf, hdb, line, hl, h⟩, hpos⟩
  · rintro ⟨⟨f, hf, hdb, line, hl, h⟩, hpos⟩
    exact ⟨f, ⟨hf, hdb⟩, line, hl, h, hpos⟩

theorem minorText_append {m : Str} (h : IsNumeral m) (k : Str) : minorText (m ++ '_' :: k) = m := by
  have hm : ∀ c ∈ m, (c != '_') = true := fun c hc => by
    rw [bne_iff_ne]
    rintro rfl
    exact not_mem_numeral h hc
  rw [minorText, List.takeWhile_append_of_pos hm]
  simp

theorem minorOf_append {m : Str} (h : IsNumeral m) (k : Str) :
    minorOf (m ++ '_' :: k) = if m.length ≤ maxStrDigits then some (value m : ℤ) else none := by
  rw [minorOf, minorText_append h, int?_eq_ite h]

/-- A token in decimal is one of the script's. -/
theorem mem_tokens_iff {ttype m k : Str} (hm : IsNumeral m) :
    (ttype, m ++ '_' :: k) ∈ tokens db ↔ Has db ttype (m ++ '_' :: k) := by
  have hdigit : isdigit m = true := by
    simp only [isdigit, Bool.and_eq_true, decide_eq_true_eq, List.all_eq_true, Bool.or_eq_true]
    exact ⟨hm.1, fun c hc => Or.inl (isDigit_of_isAsciiDigit (hm.2 c hc))⟩
  have hpos : isPosition (m ++ '_' :: k) = true := by
    simp [isPosition, minorText_append hm, hdigit]
  have hhead : (m ++ '_' :: k).head? ≠ some '!' := by
    obtain ⟨c, m', rfl⟩ := List.exists_cons_of_ne_nil hm.1
    rintro h
    obtain rfl := Option.some.inj h
    exact absurd (hm.2 '!' List.mem_cons_self) (by decide)
  rw [mem_tokens, and_iff_left ⟨hhead, hpos⟩]

/-- A tag is no position for the script. -/
theorem IsTag.not_isPosition {tok : Str} (h : IsTag tok) : isPosition tok ≠ true := by
  intro hpos
  rw [isPosition, Bool.and_eq_true, List.contains_iff_mem] at hpos
  obtain ⟨hmem, hdigit⟩ := hpos
  rcases h with h | ⟨c, hc, hno⟩
  · exact h hmem
  · obtain ⟨s, rfl⟩ := List.head?_eq_some_iff.mp hc
    rw [minorText, List.takeWhile_cons] at hdigit
    split_ifs at hdigit
    · simp only [isdigit, Bool.and_eq_true, List.all_cons] at hdigit hno
      rw [hdigit.2.1] at hno
      cases hno
    · cases hdigit

theorem Decimal.isToken (hdb : Decimal db) {t : Str × Str} (ht : t ∈ tokens db) : IsToken t.2 := by
  obtain ⟨hhas, hhead, hpos⟩ := mem_tokens.mp ht
  exact (hdb _ _ hhas hhead).resolve_right fun htag => htag.not_isPosition hpos

/-- A minor that `int` does not take ends the script. -/
theorem shortMinors_of_ownMinors {own : Dict Str (List ℤ)} (hok : ownMinors (named db) = .ok own) :
    ShortMinors db := by
  intro ttype m k hm hk hhas
  unfold ownMinors at hok
  split_ifs at hok with hall
  have hmem := mem_named.mpr ((mem_tokens_iff hm).mpr hhas)
  obtain ⟨bits, hget, hbit⟩ : ∃ bits, (named db).get? ttype = some bits ∧ m ++ '_' :: k ∈ bits := by
    rw [Dict.getAll] at hmem
    cases hget : (named db).get? ttype with
    | none => rw [hget] at hmem; cases hmem
    | some bits => exact ⟨bits, rfl, by rwa [hget] at hmem⟩
  have hsome := List.all_eq_true.mp (List.all_eq_true.mp hall bits
    (Dict.mem_values.mpr ⟨ttype, hget⟩)) _ hbit
  by_contra hlen
  rw [minorOf_append hm, if_neg hlen] at hsome
  cases hsome

theorem ownMinors_named (hdb : Decimal db) (hs : ShortMinors db) :
    ∃ own, ownMinors (named db) = .ok own ∧ ∀ {ttype minor},
      minor ∈ own.getAll ttype ↔ ∃ m k : ℕ, minor = m ∧ Names db ttype m k := by
  have hall : ((named db).values.all fun bits => bits.all fun bit => (minorOf bit).isSome) = true := by
    rw [List.all_eq_true]
    intro bits hbits
    rw [List.all_eq_true]
    intro bit hbit
    obtain ⟨ttype, hget⟩ := Dict.mem_values.mp hbits
    have hmem : bit ∈ (named db).getAll ttype := by rwa [Dict.getAll, hget]
    obtain ⟨m, k, hm, hk, rfl⟩ := hdb.isToken (mem_named.mp hmem)
    have hhas := (mem_tokens_iff hm).mp (mem_named.mp hmem)
    rw [minorOf_append hm, if_pos (hs _ _ _ hm hk hhas)]
    rfl
  refine ⟨_, if_pos hall, fun {ttype minor} => ?_⟩
  have hget : ((named db).map fun bits => (bits.filterMap minorOf).dedup).getAll ttype =
      (((named db).getAll ttype).filterMap minorOf).dedup := by
    rw [Dict.getAll, Dict.get?_map, Dict.getAll]
    cases (named db).get? ttype <;> rfl
  rw [hget, List.mem_dedup, List.mem_filterMap]
  constructor
  · rintro ⟨bit, hbit, hminor⟩
    have hbit := mem_named.mp hbit
    obtain ⟨m, k, hm, hk, he⟩ := hdb.isToken hbit
    simp only at he
    subst he
    have hhas := (mem_tokens_iff hm).mp hbit
    rw [minorOf_append hm, if_pos (hs _ _ _ hm hk hhas), Option.some.injEq] at hminor
    exact ⟨value m, value k, hminor.symm, m, k, hm, hk, hhas, rfl, rfl⟩
  · rintro ⟨-, -, rfl, m, k, hm, hk, hhas, rfl, -⟩
    exact ⟨_, mem_named.mpr ((mem_tokens_iff hm).mpr hhas),
      (minorOf_append hm k).trans (if_pos (hs _ _ _ hm hk hhas))⟩

theorem posText_mem_tokens {ttype : Str} {minor index : ℕ} :
    (ttype, posText minor index) ∈ tokens db ↔ Has db ttype (posText minor index) :=
  mem_tokens_iff (isNumeral_toDigits minor)

/-- The text of a position names it. -/
theorem names_of_posText {ttype : Str} {minor index : ℕ}
    (h : Has db ttype (posText minor index)) : Names db ttype minor index :=
  ⟨_, _, isNumeral_toDigits minor, (isNumeral_toDigits index).zfill 2, h, value_toDigits minor, by
    rw [value_zfill, value_toDigits]⟩

theorem posText_inj {m m' k k' : ℕ} (h : posText m k = posText m' k') : m = m' ∧ k = k' := by
  have hm : ∀ m k : ℕ, minorText (posText m k) = Nat.toDigits 10 m := fun m k =>
    minorText_append (isNumeral_toDigits m) _
  have hmm : m = m' := toDigits_injective (by rw [← hm m k, h, hm])
  subst hmm
  have hkk : zfill 2 (Nat.toDigits 10 k) = zfill 2 (Nat.toDigits 10 k') :=
    (List.cons.inj (List.append_cancel_left h)).2
  exact ⟨rfl, by rw [← value_toDigits k, ← value_zfill 2, hkk, value_zfill, value_toDigits]⟩

/-! ### The report -/

section Found

variable {own : Dict Str (List ℤ)} {out : List Str}

/-- What a block adds, in numbers. -/
theorem mem_blockFound (hout : Prints S out)
    (hown : ∀ {ttype minor}, minor ∈ own.getAll ttype ↔ ∃ m k : ℕ, minor = m ∧ Names db ttype m k)
    {t tile ttype pos tile' : Str} {b : Block} {base : ℤ} :
    (ttype, pos, tile') ∈ blockFound (named db) own (setBits out) t tile b base ↔
      t = ttype ∧ tile = tile' ∧ ∃ minor index : ℕ, pos = posText minor index ∧
        (∃ k, Names db ttype minor k) ∧ ¬ Has db ttype pos ∧ (minor : ℤ) < b.frames ∧
        (index : ℤ) < 32 * b.words ∧ ∃ x ∈ S, (x.frame : ℤ) = base + minor ∧
          (x.word : ℤ) = b.offset + (index / 32 : ℕ) ∧ x.bit = index % 32 := by
  unfold blockFound
  rw [List.mem_flatMap]
  constructor
  · rintro ⟨minor, hminor, h⟩
    obtain ⟨m, k, rfl, hname⟩ := hown.mp ((List.mem_insertionSort _).mp hminor)
    split_ifs at h with hframes
    · cases h
    obtain ⟨p, hp, h⟩ := List.mem_filterMap.mp h
    obtain ⟨x, hx, hframe, hword, hbit⟩ := (mem_setBits hout).mp hp
    split_ifs at h with hin
    obtain ⟨hnamed, rfl, rfl, rfl⟩ := by simpa using h
    have hlt := x.bit_lt
    obtain ⟨index, hindex⟩ : ∃ index : ℕ, (p.1 - b.offset) * 32 + p.2 = index :=
      Int.eq_ofNat_of_zero_le (by omega)
    rw [hindex] at hnamed ⊢
    exact ⟨rfl, rfl, m, index, rfl, ⟨k, hname⟩,
      fun hmem => hnamed (mem_named.mpr (posText_mem_tokens.mpr hmem)), by omega, by omega, x, hx, hframe, by omega, by omega⟩
  · rintro ⟨rfl, rfl, minor, index, rfl, ⟨k, hname⟩, hmem, hframes, hwords, x, hx, hframe, hword,
      hbit⟩
    refine ⟨minor, (List.mem_insertionSort _).mpr (hown.mpr ⟨minor, k, rfl, hname⟩), ?_⟩
    rw [if_neg (not_le.mpr hframes), List.mem_filterMap]
    refine ⟨((x.word : ℤ), (x.bit : ℤ)), (mem_setBits hout).mpr ⟨x, hx, hframe, rfl, rfl⟩, ?_⟩
    have hindex : ((x.word : ℤ) - b.offset) * 32 + x.bit = index := by omega
    have hin : b.offset ≤ (x.word : ℤ) ∧ (x.word : ℤ) < b.offset + b.words := by omega
    simp only [hin, hindex, List.contains_iff_mem, mem_named, posText_mem_tokens, hmem, and_self,
      if_true, if_false]

/-- The blocks' addresses are numbers. -/
def Addressed (tilegrid : List (Str × Entry)) : Prop :=
  ∀ t ∈ tilegrid, ∀ b ∈ t.2.blocks, b.1 ≠ "BLOCK_RAM".toList → b.2.base?.isSome = true

/-- What a tile adds. -/
theorem tileFound_ok (hgrid : Addressed tilegrid) {t : Str × Entry} (ht : t ∈ tilegrid) {n : _}
    {bits : _} : tileFound n own bits t = .ok (t.2.blocks.flatMap fun b =>
      if b.1 = "BLOCK_RAM".toList then [] else
        blockFound n own bits t.2.type t.1 b.2 (b.2.base?.getD 0)) := by
  have hmap : ∀ b ∈ t.2.blocks, (if b.1 = "BLOCK_RAM".toList then .ok [] else do
      let base ← orRaise .ValueError b.2.base?
      return blockFound n own bits t.2.type t.1 b.2 base : Except Error _) =
        .ok (if b.1 = "BLOCK_RAM".toList then [] else
          blockFound n own bits t.2.type t.1 b.2 (b.2.base?.getD 0)) := by
    intro b hb
    by_cases hram : b.1 = "BLOCK_RAM".toList
    · rw [if_pos hram, if_pos hram]
    · obtain ⟨base, hbase⟩ := Option.isSome_iff_exists.mp (hgrid t ht b hb hram)
      rw [if_neg hram, if_neg hram, hbase]
      rfl
  unfold tileFound
  rw [mapM_eq_map hmap, List.flatMap_def]
  rfl

theorem mem_found (hgrid : Addressed tilegrid) (hout : Prints S out)
    (hown : ∀ {ttype minor}, minor ∈ own.getAll ttype ↔ ∃ m k : ℕ, minor = m ∧ Names db ttype m k) :
    ∃ found, tilegrid.mapM (tileFound (named db) own (setBits out)) = .ok found ∧
      ∀ ttype pos tile, (ttype, pos, tile) ∈ found.flatten ↔ ∃ minor index : ℕ,
        pos = posText minor index ∧ SetIn tilegrid S ttype minor index tile ∧
          (∃ k, Names db ttype minor k) ∧ ¬ Has db ttype pos := by
  refine ⟨_, mapM_eq_map fun t ht => tileFound_ok hgrid ht, fun ttype pos tile => ?_⟩
  rw [← List.flatMap_def, List.mem_flatMap]
  constructor
  · rintro ⟨⟨tile', e⟩, ht, h⟩
    obtain ⟨b, hb, h⟩ := List.mem_flatMap.mp h
    split_ifs at h with hram
    · cases h
    obtain ⟨base, hbase⟩ := Option.isSome_iff_exists.mp (hgrid _ ht b hb hram)
    rw [hbase] at h
    obtain ⟨htype, rfl, minor, index, rfl, hname, hmem, hframes, hwords, hx⟩ :=
      (mem_blockFound hout hown).mp h
    exact ⟨minor, index, rfl, ⟨e, ht, htype, b, hb, hram, hframes, hwords, base, hbase, hx⟩, hname,
      hmem⟩
  · rintro ⟨minor, index, rfl, ⟨e, ht, htype, b, hb, hram, hframes, hwords, base, hbase, hx⟩, hname,
      hmem⟩
    refine ⟨(tile, e), ht, List.mem_flatMap.mpr ⟨b, hb, ?_⟩⟩
    rw [if_neg hram, hbase]
    exact (mem_blockFound hout hown).mpr ⟨htype, rfl, minor, index, rfl, hname, hmem, hframes,
      hwords, hx⟩

end Found

/-- A value two dictionaries deep. -/
theorem mem_gather_gather {found : List (Str × Str × Str)} {ttype pos tile : Str} :
    (∃ ps, ((Dict.gather Dict.appendTo found).map (Dict.gather Dict.appendTo)).get? ttype = some ps ∧
      tile ∈ ps.getAll pos) ↔ (ttype, pos, tile) ∈ found := by
  rw [← Dict.mem_getAll_gather Dict.mem_appendTo, Dict.get?_map, Dict.getAll]
  cases (Dict.gather Dict.appendTo found).get? ttype with
  | none => simp
  | some ps => simp [Dict.mem_getAll_gather Dict.mem_appendTo]

variable (hdb : Decimal db) (hgrid : Addressed tilegrid) {out : List Str} (hout : Prints S out)

include hdb hgrid hout

/-- **What the script reports.** -/
theorem reported_iff (hs : ShortMinors db) : ∃ n unnamed, unnamedBits db tilegrid out = .ok (n, unnamed) ∧
    ∀ ttype minor index tile, Reported unnamed ttype minor index tile ↔
      SetIn tilegrid S ttype minor index tile ∧ (∃ k, Names db ttype minor k) ∧
        ¬ Has db ttype (posText minor index) := by
  obtain ⟨own, hok, hown⟩ := ownMinors_named hdb hs
  obtain ⟨found, hfound, hmem⟩ := mem_found hgrid hout hown
  refine ⟨_, _, bind_eq_ok.mpr ⟨own, hok, bind_eq_ok.mpr ⟨found, hfound, rfl⟩⟩,
    fun ttype minor index tile => ?_⟩
  unfold Reported
  rw [mem_gather_gather, hmem]
  constructor
  · rintro ⟨minor', index', hpos, h⟩
    obtain ⟨rfl, rfl⟩ := posText_inj hpos
    exact h
  · exact fun h => ⟨minor, index, rfl, h⟩

/-- **When the report is right**: where `int` reads the minors, and the positions that are set and
named are named in the one shape. -/
theorem report_right_iff :
    (∃ n unnamed, unnamedBits db tilegrid out = .ok (n, unnamed) ∧
      ∀ ttype minor index tile, Reported unnamed ttype minor index tile ↔
        Unnameable db tilegrid S ttype minor index tile) ↔
      ShortMinors db ∧ Canonical db tilegrid S := by
  constructor
  · rintro ⟨n, unnamed, hok, h⟩
    obtain ⟨own, hown, -⟩ := bind_eq_ok.mp hok
    have hs := shortMinors_of_ownMinors hown
    obtain ⟨n', unnamed', hok', hrep⟩ := reported_iff hdb hgrid hout hs
    obtain ⟨-, rfl⟩ := Prod.mk.inj (Except.ok.inj (hok'.symm.trans hok))
    refine ⟨hs, fun ttype minor index tile hset hname => ?_⟩
    by_contra hhas
    have hreported := (hrep ttype minor index tile).mpr ⟨hset, ⟨index, hname⟩, hhas⟩
    exact ((h ttype minor index tile).mp hreported).2.2 hname
  · rintro ⟨hs, h⟩
    obtain ⟨n, unnamed, hok, hrep⟩ := reported_iff hdb hgrid hout hs
    refine ⟨n, unnamed, hok, fun ttype minor index tile => ?_⟩
    rw [hrep]
    unfold Unnameable
    refine and_congr_right fun hset => and_congr_right fun _ => not_congr ⟨names_of_posText, ?_⟩
    exact h ttype minor index tile hset

omit hdb hgrid hout

/-! ### A tile with one bit -/

/-- A database of one line, with one token. -/
def oneLine (tok : Str) : List (Str × Str) :=
  [("segbits_int_l.db".toList, "INT_L.PIP ".toList ++ tok)]

def oneTile : List (Str × Entry) :=
  [("INT_L_X0Y0".toList, ⟨"INT_L".toList,
    some [("CLB_IO_CLK".toList, ⟨.text "0x00400000".toList, 0, 2, 28⟩)]⟩)]

def oneBit : ConfigBit := ⟨0x400005, 0, 3, by decide, by decide⟩

theorem addressed_oneTile : Addressed oneTile := by
  intro t ht b hb _
  rw [List.mem_singleton.mp ht] at hb
  rw [List.mem_singleton.mp hb]
  rfl

theorem prints_oneBit : Prints [oneBit] [oneBit.text] where
  complete x hx := ⟨[], Or.inl rfl, by
    rw [List.mem_singleton.mp hx, List.append_nil]
    exact List.mem_singleton_self _⟩
  sound l hl := Or.inl ⟨oneBit, List.mem_singleton_self _, [], Or.inl rfl, by
    rw [List.mem_singleton.mp hl, List.append_nil]⟩

/-- What the line has. -/
theorem has_oneLine {tok : Str} (hfields : fields ("INT_L.PIP ".toList ++ tok) =
    ["INT_L.PIP".toList, tok]) (hline : linesOf ("INT_L.PIP ".toList ++ tok) =
    ["INT_L.PIP ".toList ++ tok]) (hbang : '!' ∉ tok) {ttype tok' : Str} :
    Has (oneLine tok) ttype tok' ↔ ttype = "INT_L".toList ∧ tok' = tok := by
  have htype : "INT_L.PIP".toList.takeWhile (· != '.') = "INT_L".toList := by decide
  constructor
  · rintro ⟨f, hf, -, line, hl, feature, words, hw, hof, bangs, hbangs, hmem⟩
    rw [List.mem_singleton.mp hf, hline] at hl
    rw [List.mem_singleton.mp hl, hfields] at hw
    obtain ⟨rfl, rfl⟩ := List.cons.inj hw
    have heq := List.mem_singleton.mp hmem
    have hnil : bangs = [] := by
      cases bangs with
      | nil => rfl
      | cons c bangs =>
        obtain rfl := hbangs c List.mem_cons_self
        exact absurd (heq ▸ List.mem_cons_self) hbang
    rw [hnil] at heq
    exact ⟨(ofType_iff.mp hof).symm.trans htype, heq⟩
  · rintro ⟨rfl, rfl⟩
    have hbits : IsBits "segbits_int_l.db".toList := isDb_iff.mp (by decide)
    exact ⟨_, List.mem_singleton_self _, hbits, _, hline ▸ List.mem_singleton_self _, _, _, hfields,
      ofType_iff.mpr htype, [], nofun, List.mem_singleton_self _⟩

theorem has_padded {ttype tok : Str} : Has (oneLine "05_03".toList) ttype tok ↔
    ttype = "INT_L".toList ∧ tok = "05_03".toList :=
  has_oneLine (by decide) (by decide) (by decide)

theorem has_canonical {ttype tok : Str} : Has (oneLine "5_03".toList) ttype tok ↔
    ttype = "INT_L".toList ∧ tok = "5_03".toList :=
  has_oneLine (by decide) (by decide) (by decide)

theorem decimal_oneLine {m k : Str} (hm : IsNumeral m) (hk : IsNumeral k) (hlen : m.length ≤ 20)
    (h : ∀ {ttype tok}, Has (oneLine (m ++ '_' :: k)) ttype tok ↔
      ttype = "INT_L".toList ∧ tok = m ++ '_' :: k) :
    Decimal (oneLine (m ++ '_' :: k)) ∧ ShortMinors (oneLine (m ++ '_' :: k)) := by
  refine ⟨fun ttype tok hhas _ => Or.inl ⟨m, k, hm, hk, (h.mp hhas).2⟩,
    fun ttype m' k' hm' hk' hhas => ?_⟩
  have heq : m' = m := by
    rw [← minorText_append hm' k', (h.mp hhas).2, minorText_append hm k]
  rw [heq]
  exact hlen.trans (by decide)

/-- The one position that is set. -/
theorem setIn_iff {ttype : Str} {minor index : ℕ} {tile : Str} :
    SetIn oneTile [oneBit] ttype minor index tile ↔
      ttype = "INT_L".toList ∧ minor = 5 ∧ index = 3 ∧ tile = "INT_L_X0Y0".toList := by
  constructor
  · rintro ⟨e, he, rfl, b, hb, -, -, -, base, hbase, x, hx, hframe, hword, hbit⟩
    obtain ⟨rfl, rfl⟩ := Prod.mk.inj (List.mem_singleton.mp he)
    obtain rfl := List.mem_singleton.mp hb
    obtain rfl := List.mem_singleton.mp hx
    have hbase' : (0x400000 : ℤ) = base := Option.some.inj ((by decide :
      (⟨.text "0x00400000".toList, 0, 2, 28⟩ : Block).base? = some 0x400000).symm.trans hbase)
    simp only [oneBit] at hframe hword hbit
    exact ⟨rfl, by omega, by omega, rfl⟩
  · rintro ⟨rfl, rfl, rfl, rfl⟩
    exact ⟨_, List.mem_singleton_self _, rfl, _, List.mem_singleton_self _, by decide, by decide,
      by decide, 0x400000, by decide, oneBit, List.mem_singleton_self _, rfl, rfl, rfl⟩

/-- A token of the one shape: nothing is reported that has a name. -/
theorem report_right_iff_canonical :
    ∃ n unnamed, unnamedBits (oneLine "5_03".toList) oneTile [oneBit.text] = .ok (n, unnamed) ∧
      ∀ ttype minor index tile, Reported unnamed ttype minor index tile ↔
        Unnameable (oneLine "5_03".toList) oneTile [oneBit] ttype minor index tile := by
  obtain ⟨hdb, hs⟩ := decimal_oneLine (m := ['5']) (k := ['0', '3']) (by decide) (by decide)
    (by decide) has_canonical
  refine (report_right_iff hdb addressed_oneTile prints_oneBit).mpr ⟨hs, ?_⟩
  intro ttype minor index tile hset _
  obtain ⟨rfl, rfl, rfl, rfl⟩ := setIn_iff.mp hset
  exact has_canonical.mpr ⟨rfl, by decide⟩

/-- A minor filled up with a zero: the bit has a name, and is reported. -/
theorem not_report_right : ¬ ∀ db tilegrid S out, Decimal db → Addressed tilegrid → Prints S out →
    ∃ n unnamed, unnamedBits db tilegrid out = .ok (n, unnamed) ∧
      ∀ ttype minor index tile, Reported unnamed ttype minor index tile ↔
        Unnameable db tilegrid S ttype minor index tile := by
  intro h
  have hname : Names (oneLine "05_03".toList) "INT_L".toList 5 3 :=
    ⟨['0', '5'], ['0', '3'], by decide, by decide, has_padded.mpr ⟨rfl, rfl⟩, rfl, rfl⟩
  obtain ⟨hdb, hs⟩ := decimal_oneLine (m := ['0', '5']) (k := ['0', '3']) (by decide) (by decide)
    (by decide) has_padded
  obtain ⟨n, unnamed, hok, hrep⟩ := reported_iff hdb addressed_oneTile prints_oneBit hs
  obtain ⟨n', unnamed', hok', hright⟩ := h _ _ _ _ hdb addressed_oneTile prints_oneBit
  obtain ⟨-, rfl⟩ := Prod.mk.inj (Except.ok.inj (hok.symm.trans hok'))
  have hmem : ¬ Has (oneLine "05_03".toList) "INT_L".toList (posText 5 3) := fun hhas =>
    absurd (has_padded.mp hhas).2 (by decide)
  have hset : SetIn oneTile [oneBit] "INT_L".toList 5 3 "INT_L_X0Y0".toList :=
    setIn_iff.mpr ⟨rfl, rfl, rfl, rfl⟩
  have hreported := (hrep _ 5 3 _).mpr ⟨hset, ⟨3, hname⟩, hmem⟩
  exact ((hright _ 5 3 _).mp hreported).2.2 hname

end UnnamedBits
end Xc7Tools
