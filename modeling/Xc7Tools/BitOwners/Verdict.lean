/-
# check_bit_owners.py: when its verdict is right

A call claims its bit on behalf of its tile. `watched` is what the two
dictionaries hold after some calls: the first tile of a bit in `owner`, and in
`clashes` every bit two tiles claim, with all its tiles (`mem_clashes`,
`mem_tiles`), in whatever order the claims came.

The script is right to say that every bit has one tile only if the assembler
went through the whole FASM, and `FasmInconsistentBits` leaves it early
without an exit status of its own. Its report takes the tiles of a bit for a
pair, which a third tile ends in an exception, and stops after twelve pairs.
Apart from these three it is right (`verdict_iff`).

Key definitions: `Claims`, `Clashing`, `seen`, `tileSets`, `Attributed`, `RightVerdict`, `FewPairs`.
Key theorems: `mem_clashes`, `mem_tiles`, `attributed`, `covered_iff`, `verdict_iff`.
-/
import Mathlib.Data.Finset.Card
import Xc7Tools.BitOwners.Watch

namespace Xc7Tools
namespace BitOwners

open Str Checked

/-! ### Claims -/

/-- Some call claims the bit on behalf of the tile. -/
def Claims (cs : List Call) (k : Key) (t : Tile) : Prop := ∃ c ∈ cs, c.key = k ∧ c.tile = t

instance (cs : List Call) (k : Key) (t : Tile) : Decidable (Claims cs k t) :=
  inferInstanceAs (Decidable (∃ c ∈ cs, c.key = k ∧ c.tile = t))

/-- Two tiles claim the bit. -/
def Clashing (cs : List Call) (k : Key) : Prop := ∃ t u, Claims cs k t ∧ Claims cs k u ∧ t ≠ u

theorem claims_concat {cs : List Call} {c : Call} {k : Key} {t : Tile} :
    Claims (cs ++ [c]) k t ↔ Claims cs k t ∨ c.key = k ∧ c.tile = t := by
  constructor
  · rintro ⟨b, hb, h⟩
    rcases List.mem_append.mp hb with hb | hb
    · exact Or.inl ⟨b, hb, h⟩
    · exact Or.inr (List.mem_singleton.mp hb ▸ h)
  · rintro (⟨b, hb, h⟩ | h)
    · exact ⟨b, List.mem_append_left _ hb, h⟩
    · exact ⟨c, List.mem_append_right _ (List.mem_singleton_self c), h⟩

theorem Clashing.concat {cs : List Call} {k : Key} (h : Clashing cs k) (c : Call) :
    Clashing (cs ++ [c]) k := by
  obtain ⟨t, u, ht, hu, hne⟩ := h
  exact ⟨t, u, claims_concat.mpr (Or.inl ht), claims_concat.mpr (Or.inl hu), hne⟩

/-- A call that brings no new tile to a bit leaves it as it was. -/
theorem clashing_concat_of_claims {cs : List Call} {c : Call} {k : Key}
    (h : c.key = k → Claims cs k c.tile) : Clashing (cs ++ [c]) k ↔ Clashing cs k := by
  have hc : ∀ t, Claims (cs ++ [c]) k t ↔ Claims cs k t := fun t => by
    rw [claims_concat, or_iff_left_iff_imp]
    rintro ⟨hk, rfl⟩
    exact h hk
  simp only [Clashing, hc]

/-- So does one that brings the first. -/
theorem not_clashing_concat {cs : List Call} {c : Call} (h : ∀ t, ¬ Claims cs c.key t) :
    ¬ Clashing (cs ++ [c]) c.key := by
  have hc : ∀ t, Claims (cs ++ [c]) c.key t → t = c.tile := fun t ht =>
    (claims_concat.mp ht).elim (fun h' => absurd h' (h t)) fun h' => h'.2.symm
  rintro ⟨t, u, ht, hu, hne⟩
  exact hne ((hc t ht).trans (hc u hu).symm)

/-! ### The bits in the order they clash -/

/-- The bits of the calls that come after one for another tile. -/
def lateKeys : List Call → List Call → List Key
  | _, [] => []
  | before, c :: cs =>
    (if ∃ b ∈ before, b.key = c.key ∧ b.tile ≠ c.tile then [c.key] else []) ++
      lateKeys (before ++ [c]) cs

/-- The values of a list, each where it first comes. -/
def firsts (ks : List Key) : List Key := ks.reverse.dedup.reverse

/-- The bits two tiles claim, in the order they come to. -/
def clashOrder (cs : List Call) : List Key := firsts (lateKeys [] cs)

theorem lateKeys_concat (c : Call) : ∀ cs before : List Call,
    lateKeys before (cs ++ [c]) = lateKeys before cs ++
      if ∃ b ∈ before ++ cs, b.key = c.key ∧ b.tile ≠ c.tile then [c.key] else []
  | [], before => by simp [lateKeys]
  | d :: cs, before => by
    have ih := lateKeys_concat c cs (before ++ [d])
    rw [List.append_assoc, List.singleton_append] at ih
    rw [List.cons_append, lateKeys, ih, ← List.append_assoc]
    rfl

theorem firsts_concat (ks : List Key) (k : Key) :
    firsts (ks ++ [k]) = if k ∈ ks then firsts ks else firsts ks ++ [k] := by
  unfold firsts
  rw [List.reverse_concat]
  split_ifs with h
  · rw [List.dedup_cons_of_mem (List.mem_reverse.mpr h)]
  · rw [List.dedup_cons_of_notMem (fun hm => h (List.mem_reverse.mp hm)), List.reverse_cons]

theorem mem_firsts {ks : List Key} {k : Key} : k ∈ firsts ks ↔ k ∈ ks := by
  simp [firsts]

theorem mem_lateKeys {cs : List Call} {k : Key} : k ∈ lateKeys [] cs ↔ Clashing cs k := by
  induction cs using List.reverseRecOn with
  | nil =>
    refine iff_of_false List.not_mem_nil ?_
    rintro ⟨t, u, ⟨b, hb, -⟩, -⟩
    cases hb
  | append_singleton cs c ih =>
    rw [lateKeys_concat, List.nil_append, List.mem_append, ih]
    constructor
    · rintro (h | h)
      · exact h.concat c
      · split_ifs at h with hb
        · obtain ⟨b, hb, hk, ht⟩ := hb
          obtain rfl := List.mem_singleton.mp h
          exact ⟨b.tile, c.tile, claims_concat.mpr (Or.inl ⟨b, hb, hk, rfl⟩),
            claims_concat.mpr (Or.inr ⟨rfl, rfl⟩), ht⟩
        · cases h
    · intro h
      by_cases hb : ∃ b ∈ cs, b.key = c.key ∧ b.tile ≠ c.tile
      · by_cases hk : c.key = k
        · rw [if_pos hb]
          exact Or.inr (List.mem_singleton.mpr hk.symm)
        · exact Or.inl ((clashing_concat_of_claims fun e => absurd e hk).mp h)
      · -- every tile of the call's bit is the call's own
        left
        push Not at hb
        by_cases hne : ∃ t, Claims cs c.key t
        · refine (clashing_concat_of_claims ?_).mp h
          rintro rfl
          obtain ⟨t, b, hbm, hbk, -⟩ := hne
          exact ⟨b, hbm, hbk, hb b hbm hbk⟩
        · push Not at hne
          by_cases hk : c.key = k
          · subst hk
            exact absurd h (not_clashing_concat hne)
          · exact (clashing_concat_of_claims fun e => absurd e hk).mp h

theorem mem_clashOrder {cs : List Call} {k : Key} : k ∈ clashOrder cs ↔ Clashing cs k :=
  mem_firsts.trans mem_lateKeys

/-- A bit joins the order with the call that makes it clash. -/
theorem clashOrder_concat_of_not {cs : List Call} {c : Call}
    (h : Clashing (cs ++ [c]) c.key → Clashing cs c.key) : clashOrder (cs ++ [c]) = clashOrder cs := by
  unfold clashOrder
  rw [lateKeys_concat, List.nil_append]
  split_ifs with hb
  · obtain ⟨b, hb, hk, ht⟩ := hb
    have hc : Clashing (cs ++ [c]) c.key := ⟨b.tile, c.tile, claims_concat.mpr (Or.inl ⟨b, hb, hk, rfl⟩),
      claims_concat.mpr (Or.inr ⟨rfl, rfl⟩), ht⟩
    rw [firsts_concat, if_pos (mem_lateKeys.mpr (h hc))]
  · rw [List.append_nil]

theorem clashOrder_concat {cs : List Call} {c : Call} {t : Tile} (ht : Claims cs c.key t)
    (hne : t ≠ c.tile) : clashOrder (cs ++ [c]) =
      if c.key ∈ clashOrder cs then clashOrder cs else clashOrder cs ++ [c.key] := by
  obtain ⟨b, hb, hk, rfl⟩ := ht
  unfold clashOrder
  rw [lateKeys_concat, List.nil_append, if_pos ⟨b, hb, hk, hne⟩, firsts_concat]
  simp only [mem_firsts]

/-! ### What the dictionaries hold -/

/-- The dictionaries after the calls. -/
def watched (cs : List Call) : Watch := cs.foldl Watch.note Watch.start

/-- What the dictionaries hold after the calls `cs`: `owner` a tile of every
claimed bit, `clashes` the bits in the order they clash, each with all its
tiles. -/
structure Holds (cs : List Call) (w : Watch) : Prop where
  unclaimed : ∀ k, w.owner.get? k = none → ∀ t, ¬ Claims cs k t
  owned : ∀ k t, w.owner.get? k = some t → Claims cs k t
  order : w.clashes.keys = clashOrder cs
  nodup : ∀ k ts, w.clashes.get? k = some ts → ts.Nodup
  tiles : ∀ k ts, w.clashes.get? k = some ts → ∀ t, t ∈ ts ↔ Claims cs k t

namespace Holds

variable {cs : List Call} {w : Watch}

theorem mem_clashes (h : Holds cs w) {k : Key} : k ∈ w.clashes ↔ Clashing cs k := by
  rw [Dict.mem_def, h.order, mem_clashOrder]

/-- The tiles of a bit that is not in `clashes` are its owner. -/
theorem claims_iff_of_none (h : Holds cs w) {k : Key} {t : Tile} (ht : w.owner.get? k = some t)
    (hk : w.clashes.get? k = none) (u : Tile) : Claims cs k u ↔ u = t := by
  have hc : ¬ Clashing cs k := fun hc => Dict.get?_eq_none.mp hk (h.mem_clashes.mpr hc)
  constructor
  · intro hu
    by_contra hne
    exact hc ⟨u, t, hu, h.owned k t ht, hne⟩
  · rintro rfl
    exact h.owned k u ht

theorem mem_unionPair {a b t : Tile} {s : List Tile} :
    t ∈ unionPair a b s ↔ t = b ∨ t = a ∨ t ∈ s := by
  simp [unionPair]

theorem nodup_unionPair {a b : Tile} {s : List Tile} (h : s.Nodup) : (unionPair a b s).Nodup :=
  (h.insert (a := a)).insert

/-- A call whose tile is not new leaves `clashes` right. -/
theorem keep (h : Holds cs w) {c : Call} (hc : Clashing (cs ++ [c]) c.key → Clashing cs c.key)
    (hct : ∀ k ts, w.clashes.get? k = some ts → c.key = k → Claims cs k c.tile) :
    w.clashes.keys = clashOrder (cs ++ [c]) ∧
      ∀ k ts, w.clashes.get? k = some ts → ∀ t, t ∈ ts ↔ Claims (cs ++ [c]) k t := by
  refine ⟨h.order.trans (clashOrder_concat_of_not hc).symm, fun k ts hk t => ?_⟩
  rw [h.tiles k ts hk t, claims_concat, iff_self_or]
  rintro ⟨hck, rfl⟩
  exact hct k ts hk hck

theorem note (h : Holds cs w) (c : Call) : Holds (cs ++ [c]) (w.note c) := by
  -- a call for `t`, the tile `owner` then has
  have hset : ∀ k, (w.owner.set c.key c.tile).get? k = none → ∀ t, ¬ Claims (cs ++ [c]) k t := by
    intro k hk t ht
    rw [Dict.get?_set] at hk
    split_ifs at hk with e
    rcases claims_concat.mp ht with ht | ht
    · exact h.unclaimed k hk t ht
    · exact e ht.1
  have howned : ∀ k t, (w.owner.set c.key c.tile).get? k = some t → Claims (cs ++ [c]) k t := by
    intro k t hk
    rw [Dict.get?_set] at hk
    split_ifs at hk with e
    · exact claims_concat.mpr (Or.inr ⟨e, Option.some.inj hk⟩)
    · exact claims_concat.mpr (Or.inl (h.owned k t hk))
  unfold Watch.note
  cases ho : w.owner.get? c.key with
  | none =>
    have hno := h.unclaimed c.key ho
    have hcl : Clashing (cs ++ [c]) c.key → Clashing cs c.key := fun hc =>
      absurd hc (not_clashing_concat hno)
    have hkeep := h.keep hcl fun k ts hk e => by
      obtain ⟨t, -, ht, -⟩ := h.mem_clashes.mp (Dict.mem_iff.mpr ⟨ts, hk⟩)
      exact absurd ht (e ▸ hno t)
    exact ⟨hset, howned, hkeep.1, h.nodup, hkeep.2⟩
  | some first =>
    have hfirst := h.owned c.key first ho
    by_cases hne : first = c.tile
    · have hclaims : Claims cs c.key c.tile := hne ▸ hfirst
      have hcl := (clashing_concat_of_claims fun _ => hclaims).mp
      have hkeep := h.keep hcl fun k ts _ e => e ▸ hclaims
      simp only [hne, ne_eq, not_true_eq_false, if_false]
      exact ⟨hset, howned, hkeep.1, h.nodup, hkeep.2⟩
    · simp only [ne_eq, hne, not_false_eq_true, if_true]
      refine ⟨?_, ?_, ?_, ?_, ?_⟩
      · intro k hk t ht
        rcases claims_concat.mp ht with ht | ht
        · exact h.unclaimed k hk t ht
        · rw [← ht.1, ho] at hk
          cases hk
      · exact fun k t hk => claims_concat.mpr (Or.inl (h.owned k t hk))
      · rw [Dict.keys_set, clashOrder_concat hfirst hne]
        simp only [Dict.mem_def, h.order]
      · intro k ts hk
        rw [Dict.get?_set] at hk
        split_ifs at hk with e
        · obtain rfl := Option.some.inj hk
          cases hold : w.clashes.get? c.key with
          | none => exact nodup_unionPair List.nodup_nil
          | some old => exact nodup_unionPair (h.nodup _ _ hold)
        · exact h.nodup k ts hk
      · intro k ts hk t
        rw [Dict.get?_set] at hk
        split_ifs at hk with e
        · obtain rfl := Option.some.inj hk
          subst e
          rw [mem_unionPair, claims_concat]
          cases hold : w.clashes.get? c.key with
          | none =>
            rw [h.claims_iff_of_none ho hold]
            simp only [Option.getD_none, List.not_mem_nil, or_false, true_and]
            exact ⟨fun e => e.elim (fun e => Or.inr e.symm) Or.inl,
              fun e => e.elim Or.inr fun e => Or.inl e.symm⟩
          | some old =>
            have hmem : first ∈ old := (h.tiles _ _ hold first).mpr hfirst
            rw [Option.getD_some, h.tiles _ _ hold]
            constructor
            · rintro (rfl | rfl | ht)
              · exact Or.inr ⟨rfl, rfl⟩
              · exact Or.inl hfirst
              · exact Or.inl ht
            · rintro (ht | ⟨-, rfl⟩)
              · exact Or.inr (Or.inr ht)
              · exact Or.inl rfl
        · rw [h.tiles k ts hk, claims_concat, iff_self_or]
          exact fun hc => absurd hc.1 e

end Holds

theorem watched_holds (cs : List Call) : Holds cs (watched cs) := by
  induction cs using List.reverseRecOn with
  | nil =>
    refine ⟨fun k _ t => ?_, fun k t h => ?_, rfl, fun k ts h => ?_, fun k ts h => ?_⟩
    · rintro ⟨c, hc, -⟩
      cases hc
    all_goals cases h
  | append_singleton cs c ih =>
    have hw : watched (cs ++ [c]) = (watched cs).note c := List.foldl_concat ..
    rw [hw]
    exact ih.note c

/-! ### The pass over the FASM -/

/-- The calls up to the first that contradicts one before it, that one
included. -/
def seenFrom : List Call → List Call → List Call
  | _, [] => []
  | before, c :: cs =>
    if ∀ b ∈ before, b.key = c.key → b.value = c.value then c :: seenFrom (before ++ [c]) cs else [c]

/-- The calls the script sees. -/
def seen (cs : List Call) : List Call := seenFrom [] cs

theorem consistent_concat {cs : List Call} {c : Call} :
    Consistent (cs ++ [c]) ↔ Consistent cs ∧ ∀ b ∈ cs, b.key = c.key → b.value = c.value := by
  constructor
  · intro h
    have hin : ∀ {b}, b ∈ cs → b ∈ cs ++ [c] := List.mem_append_left _
    exact ⟨fun b hb d hd => h b (hin hb) d (hin hd),
      fun b hb => h b (hin hb) c (List.mem_append_right _ (List.mem_singleton_self c))⟩
  · rintro ⟨h, hc⟩ b hb d hd e
    rcases List.mem_append.mp hb with hb | hb <;> rcases List.mem_append.mp hd with hd | hd
    · exact h b hb d hd e
    · rw [List.mem_singleton.mp hd] at e ⊢
      exact hc b hb e
    · rw [List.mem_singleton.mp hb] at e ⊢
      exact (hc d hd e.symm).symm
    · rw [List.mem_singleton.mp hb, List.mem_singleton.mp hd]

theorem Consistent.of_append {cs ds : List Call} (h : Consistent (cs ++ ds)) : Consistent cs :=
  fun b hb c hc => h b (List.mem_append_left _ hb) c (List.mem_append_left _ hc)

section Pass

variable {σ ε : Type} (A : FasmAssembler σ ε)

/-- The pass sees the calls up to the contradiction, and ends with an
exception exactly when there is one. -/
theorem parse_spec : ∀ (cs before : List Call) (s : σ) (w : Watch),
    before.foldlM A.frame A.init = .ok s → Consistent before →
      (parse A w s cs).1 = (seenFrom before cs).foldl Watch.note w ∧
        ((parse A w s cs).2 = none ↔ Consistent (before ++ cs))
  | [], before, s, w, _, hb => by simp [parse, seenFrom, hb]
  | c :: cs, before, s, w, hs, hb => by
    have hlaw := A.inconsistent before s c hs
    rw [show before ++ c :: cs = (before ++ [c]) ++ cs by simp]
    unfold parse seenFrom
    cases hf : A.frame s c with
    | ok s' =>
      have hc := hlaw.mp (by rw [hf]; rfl)
      have hs' : (before ++ [c]).foldlM A.frame A.init = .ok s' := by
        rw [List.foldlM_append, hs]
        change A.frame s c >>= pure = .ok s'
        rw [hf]
        rfl
      have ih := parse_spec cs (before ++ [c]) s' (w.note c) hs' (consistent_concat.mpr ⟨hb, hc⟩)
      rw [if_pos hc]
      exact ih
    | error e =>
      have hc : ¬ ∀ b ∈ before, b.key = c.key → b.value = c.value := fun h => by
        have := hlaw.mpr h
        rw [hf] at this
        cases this
      rw [if_neg hc]
      exact ⟨rfl, iff_of_false (by simp) fun h => hc (consistent_concat.mp h.of_append).2⟩

end Pass

/-- Without a contradiction it sees them all. -/
theorem seenFrom_of_consistent : ∀ (cs before : List Call), Consistent (before ++ cs) →
    seenFrom before cs = cs
  | [], _, _ => rfl
  | c :: cs, before, h => by
    rw [show before ++ c :: cs = (before ++ [c]) ++ cs by simp] at h
    rw [seenFrom, if_pos (consistent_concat.mp h.of_append).2, seenFrom_of_consistent cs _ h]

theorem seen_of_consistent {cs : List Call} (h : Consistent cs) : seen cs = cs :=
  seenFrom_of_consistent cs [] h

/-! ### The report -/

/-- The tiles of a bit, sorted. -/
def claimants (cs : List Call) (k : Key) : List Tile :=
  sorted ((cs.filter fun c => c.key = k).map Call.tile).dedup

theorem mem_claimants {cs : List Call} {k : Key} {t : Tile} :
    t ∈ claimants cs k ↔ Claims cs k t := by
  simp [claimants, mem_sorted, Claims, and_assoc]

theorem nodup_claimants (cs : List Call) (k : Key) : (claimants cs k).Nodup :=
  (perm_sorted _).nodup_iff.mpr (List.nodup_dedup _)

/-- The tile sets of the clashing bits, in the order they clash. -/
def tileSets (cs : List Call) : List (List Tile) := (clashOrder cs).map (claimants cs)

/-- The twelve most frequent tile sets of clashing bits, each with the number
of bits that have it. -/
def ranked (cs : List Call) : List (List Tile × ℕ) :=
  Counter.mostCommon 12 (Counter.count (tileSets cs))

/-- A set with the tiles of a bit, sorted, is the bit's claimants. -/
theorem sorted_eq_claimants {cs : List Call} {k : Key} {ts : List Tile} (hn : ts.Nodup)
    (h : ∀ t, t ∈ ts ↔ Claims cs k t) : sorted ts = claimants cs k := by
  refine sorted_congr hn (List.nodup_dedup _) fun t => ?_
  rw [h, ← mem_claimants, claimants, mem_sorted]

theorem tuples_watched (cs : List Call) : tuples (watched cs).clashes = tileSets cs := by
  have h := watched_holds cs
  have hitem : ∀ p ∈ (watched cs).clashes.items, sorted p.2 = claimants cs p.1 := fun p hp => by
    have hp' : (watched cs).clashes.get? p.1 = some p.2 := Dict.get?_eq_some.mpr hp
    exact sorted_eq_claimants (h.nodup _ _ hp') (h.tiles _ _ hp')
  calc tuples (watched cs).clashes
      = (watched cs).clashes.items.map fun p => sorted p.2 := by simp [tuples, Dict.values]
    _ = (watched cs).clashes.items.map fun p => claimants cs p.1 := List.map_congr_left hitem
    _ = tileSets cs := by rw [tileSets, ← h.order, Dict.keys, List.map_map]; rfl

theorem unpackRow_eq_ok {row : List Tile × ℕ} {r : (Tile × Tile) × ℕ} :
    unpackRow row = .ok r ↔ row.1 = [r.1.1, r.1.2] ∧ row.2 = r.2 := by
  obtain ⟨ts, n⟩ := row
  obtain ⟨⟨a, b⟩, m⟩ := r
  unfold unpackRow
  rcases ts with _ | ⟨x, _ | ⟨y, _ | ⟨z, ts⟩⟩⟩ <;> simp [and_assoc]

/-- The loop over the rows goes through exactly when every row is a pair. -/
theorem mapM_unpackRow : ∀ rows : List (List Tile × ℕ),
    (∃ rs, rows.mapM unpackRow = .ok rs) ↔ ∀ row ∈ rows, row.1.length = 2
  | [] => by simp [pure, Except.pure]
  | row :: rows => by
    have hrow : (∃ r, unpackRow row = .ok r) ↔ row.1.length = 2 := by
      simp only [unpackRow_eq_ok, List.length_eq_two]
      exact ⟨fun ⟨r, h, _⟩ => ⟨_, _, h⟩, fun ⟨a, b, h⟩ => ⟨((a, b), row.2), h, rfl⟩⟩
    rw [List.forall_mem_cons, ← mapM_unpackRow rows, ← hrow]
    simp only [List.mapM_cons, bind_eq_ok, pure_eq_ok]
    exact ⟨fun ⟨_, r, hr, rs, hrs, _⟩ => ⟨⟨r, hr⟩, rs, hrs⟩,
      fun ⟨⟨r, hr⟩, rs, hrs⟩ => ⟨_, r, hr, rs, hrs, rfl⟩⟩

/-- The two tiles and no third claim the bit. -/
def Between (cs : List Call) (a b : Tile) (k : Key) : Prop := ∀ t, Claims cs k t ↔ t = a ∨ t = b

/-- Every clashing bit is in a printed row, the one with its tiles. -/
def Covered (cs : List Call) (r : Report) : Prop :=
  ∀ k, Clashing cs k → ∃ a b n, ((a, b), n) ∈ r.rows ∧ Between cs a b k

/-- A report that is right about the claims: in `clashes` every clashing bit
with just the tiles that claim it, every number a count of such bits, and every
such bit in one of the rows. -/
structure Attributed (cs : List Call) (clashes : Dict Key (List Tile)) (r : Report) : Prop where
  mem_iff : ∀ k, k ∈ clashes ↔ Clashing cs k
  tiles : ∀ k ts, clashes.get? k = some ts → ∀ t, t ∈ ts ↔ Claims cs k t
  bits : ∃ ks : Finset Key, (∀ k, k ∈ ks ↔ Clashing cs k) ∧ r.bits = ks.card
  rows : ∀ a b n, ((a, b), n) ∈ r.rows → ∃ ks : Finset Key,
    (∀ k, k ∈ ks ↔ Clashing cs k ∧ Between cs a b k) ∧ n = ks.card
  covered : Covered cs r

theorem nodup_clashOrder (cs : List Call) : (clashOrder cs).Nodup :=
  List.nodup_reverse.mpr (List.nodup_dedup _)

/-- The claimants are a pair exactly when the two claim the bit and no third
does. -/
theorem claimants_eq_pair {cs : List Call} {a b : Tile} {k : Key} (hab : sorted [a, b] = [a, b])
    (hne : a ≠ b) : claimants cs k = [a, b] ↔ Between cs a b k := by
  constructor
  · intro h t
    rw [← mem_claimants, h]
    simp
  · intro h
    rw [← hab]
    exact (sorted_eq_claimants (by simp [hne]) fun t => by rw [h]; simp).symm

/-- A row of the report is a ranked pair, with the number of its bits. -/
theorem mem_rows {cs : List Call} {r : Report} (h : report (watched cs).clashes = .ok r)
    {a b : Tile} {n : ℕ} : ((a, b), n) ∈ r.rows ↔ ([a, b], n) ∈ ranked cs := by
  unfold report at h
  simp only [bind_eq_ok, pure_eq_ok] at h
  obtain ⟨rows, hrows, rfl⟩ := h
  rw [tuples_watched] at hrows
  constructor
  · intro hr
    obtain ⟨⟨ts, m⟩, hmem, hrow⟩ := exists_of_mem_mapM hrows hr
    obtain ⟨rfl, rfl⟩ : ts = [a, b] ∧ m = n := unpackRow_eq_ok.mp hrow
    exact hmem
  · intro hmem
    obtain ⟨⟨⟨a', b'⟩, m⟩, hr, hrow⟩ := exists_of_mem_of_mapM hrows hmem
    obtain ⟨hts, rfl⟩ := unpackRow_eq_ok.mp hrow
    obtain ⟨rfl, rfl⟩ : a = a' ∧ b = b' := by simpa using hts
    exact hr

/-- What is ranked is a tile set, with the number of bits that have it. -/
theorem of_mem_ranked {cs : List Call} {ts : List Tile} {n : ℕ} (h : (ts, n) ∈ ranked cs) :
    ts ∈ tileSets cs ∧ n = (tileSets cs).countP fun us => us = ts := by
  have hcount := Counter.get?_of_mem_mostCommon h
  rw [Counter.get?_count] at hcount
  split_ifs at hcount with hin
  exact ⟨hin, (Option.some.inj hcount).symm⟩

/-- A tile set of two tiles has two different ones, in their order. -/
theorem ordered_of_mem {cs : List Call} {a b : Tile} (h : [a, b] ∈ tileSets cs) :
    sorted [a, b] = [a, b] ∧ a ≠ b := by
  obtain ⟨k, -, hk⟩ := List.mem_map.mp h
  refine ⟨?_, ?_⟩
  · rw [← hk]
    exact List.Pairwise.insertionSort_eq (List.pairwise_insertionSort _ _)
  · have hnd := nodup_claimants cs k
    rw [hk] at hnd
    simpa using hnd

/-- A report that covers the clashing bits is right about them. -/
theorem attributed {cs : List Call} {r : Report} (h : report (watched cs).clashes = .ok r)
    (hcov : Covered cs r) : Attributed cs (watched cs).clashes r := by
  have hw := watched_holds cs
  refine ⟨fun k => hw.mem_clashes, hw.tiles, ⟨(clashOrder cs).toFinset, fun k => ?_, ?_⟩, ?_, hcov⟩
  · rw [List.mem_toFinset, mem_clashOrder]
  · unfold report at h
    simp only [bind_eq_ok, pure_eq_ok] at h
    obtain ⟨rows, -, rfl⟩ := h
    rw [List.toFinset_card_of_nodup (nodup_clashOrder cs), ← hw.order, Dict.keys, List.length_map]
  · intro a b n hr
    obtain ⟨hin, hn⟩ := of_mem_ranked ((mem_rows h).mp hr)
    obtain ⟨hab, hne⟩ := ordered_of_mem hin
    refine ⟨((clashOrder cs).filter fun k => claimants cs k = [a, b]).toFinset, fun k => ?_, ?_⟩
    · simp only [List.mem_toFinset, List.mem_filter, mem_clashOrder, decide_eq_true_eq,
        claimants_eq_pair hab hne]
    · rw [List.toFinset_card_of_nodup ((nodup_clashOrder cs).filter _), hn, tileSets,
        List.countP_map, List.countP_eq_length_filter]
      rfl

theorem report_isOk (cs : List Call) :
    (∃ r, report (watched cs).clashes = .ok r) ↔ ∀ row ∈ ranked cs, row.1.length = 2 := by
  rw [ranked, ← tuples_watched, ← mapM_unpackRow]
  simp only [report, bind_eq_ok, pure_eq_ok]
  exact ⟨fun ⟨_, rows, h, _⟩ => ⟨rows, h⟩, fun ⟨rows, h⟩ => ⟨_, rows, h, rfl⟩⟩

/-- Every clashing bit has two tiles, and there are at most twelve such pairs. -/
def FewPairs (cs : List Call) : Prop :=
  (∀ ts ∈ tileSets cs, ts.length = 2) ∧ (tileSets cs).dedup.length ≤ 12

instance (cs : List Call) : Decidable (FewPairs cs) := inferInstanceAs (Decidable (_ ∧ _))

/-- The rows of a report that covers the clashing bits are all their tile sets. -/
theorem fewPairs_of_covered {cs : List Call} {r : Report}
    (h : report (watched cs).clashes = .ok r) (hcov : Covered cs r) : FewPairs cs := by
  have hrow : ∀ ts ∈ tileSets cs, ∃ a b n, ts = [a, b] ∧ ([a, b], n) ∈ ranked cs := by
    intro ts hts
    obtain ⟨k, hk, rfl⟩ := List.mem_map.mp hts
    obtain ⟨a, b, n, hr, hbet⟩ := hcov k (mem_clashOrder.mp hk)
    have hmem := (mem_rows h).mp hr
    obtain ⟨hab, hne⟩ := ordered_of_mem (of_mem_ranked hmem).1
    exact ⟨a, b, n, (claimants_eq_pair hab hne).mpr hbet, hmem⟩
  constructor
  · intro ts hts
    obtain ⟨a, b, -, rfl, -⟩ := hrow ts hts
    rfl
  · have hsub : (tileSets cs).dedup ⊆ (ranked cs).map Prod.fst := by
      intro ts hts
      obtain ⟨a, b, n, rfl, hmem⟩ := hrow ts (List.mem_dedup.mp hts)
      exact List.mem_map.mpr ⟨_, hmem, rfl⟩
    calc (tileSets cs).dedup.length
        ≤ ((ranked cs).map Prod.fst).length :=
          ((List.nodup_dedup _).subperm hsub).length_le
      _ = (ranked cs).length := List.length_map ..
      _ ≤ 12 := Counter.length_mostCommon_le ..

/-- Few pairs are all printed. -/
theorem covered_of_fewPairs {cs : List Call} {r : Report}
    (h : report (watched cs).clashes = .ok r) (hfew : FewPairs cs) : Covered cs r := by
  intro k hk
  have hin : claimants cs k ∈ tileSets cs := List.mem_map_of_mem (mem_clashOrder.mpr hk)
  obtain ⟨a, b, hab⟩ := List.length_eq_two.mp (hfew.1 _ hin)
  obtain ⟨n, hcount⟩ : ∃ n, (Counter.count (tileSets cs)).get? (claimants cs k) = some n :=
    ⟨_, (Counter.get?_count ..).trans (if_pos hin)⟩
  have hmem : (claimants cs k, n) ∈ ranked cs :=
    (Counter.mem_mostCommon ((Counter.length_items_count _).trans_le hfew.2)).mpr
      (Dict.get?_eq_some.mp hcount)
  rw [hab] at hin hmem
  obtain ⟨hsorted, hne⟩ := ordered_of_mem hin
  exact ⟨a, b, n, (mem_rows h).mpr hmem, (claimants_eq_pair hsorted hne).mp hab⟩

/-- **When the report names the tiles of every clashing bit**. -/
theorem covered_iff (cs : List Call) :
    (∃ r, report (watched cs).clashes = .ok r ∧ Covered cs r) ↔ FewPairs cs := by
  constructor
  · rintro ⟨r, hr, hcov⟩
    exact fewPairs_of_covered hr hcov
  · intro hfew
    obtain ⟨r, hr⟩ := (report_isOk cs).mpr fun row hrow => hfew.1 _ (of_mem_ranked hrow).1
    exact ⟨r, hr, covered_of_fewPairs hr hfew⟩

/-! ### The verdict -/

section Verdict

variable {σ ε : Type} (A : FasmAssembler σ ε)

/-- The FASM assembles, and no bit is claimed on behalf of two tiles. -/
def OneOwner (fasm : List FasmLine) : Prop :=
  Consistent (calls fasm) ∧ ∀ k, ¬ Clashing (calls fasm) k

/-- Status 0 exactly on a FASM that assembles with one tile for every bit;
otherwise a complete report of the bits seen to clash. -/
def RightVerdict (fasm : List FasmLine) : Prop :=
  ((main A fasm).ending.status = 0 ↔ OneOwner fasm) ∧
    (¬ OneOwner fasm → ∃ r, (main A fasm).ending = .reported r ∧
      Attributed (seen (calls fasm)) (main A fasm).clashes r)

theorem clashes_main (fasm : List FasmLine) :
    (main A fasm).clashes = (watched (seen (calls fasm))).clashes :=
  congrArg Watch.clashes
    (parse_spec A (calls fasm) [] A.init Watch.start rfl fun _ h => nomatch h).1

theorem ending_main (fasm : List FasmLine) : (main A fasm).ending =
    if (main A fasm).clashes.items = [] then .clean
    else match report (main A fasm).clashes with
      | .ok r => .reported r
      | .error e => .raised e := rfl

theorem clashes_eq_nil (cs : List Call) :
    (watched cs).clashes.items = [] ↔ ∀ k, ¬ Clashing cs k := by
  have hkeys : (watched cs).clashes.items = [] ↔ (watched cs).clashes.keys = [] := by
    rw [Dict.keys, List.map_eq_nil_iff]
  rw [hkeys, (watched_holds cs).order, List.eq_nil_iff_forall_not_mem]
  simp only [mem_clashOrder]

theorem status_main (fasm : List FasmLine) :
    (main A fasm).ending.status = 0 ↔ ∀ k, ¬ Clashing (seen (calls fasm)) k := by
  rw [← clashes_eq_nil, ← clashes_main A, ending_main]
  split_ifs with h
  · exact iff_of_true rfl h
  · refine iff_of_false ?_ h
    split <;> simp [Ending.status]

/-- A run that ends with a report has printed that of its clashes. -/
theorem report_of_reported {fasm : List FasmLine} {r : Report}
    (h : (main A fasm).ending = .reported r) :
    report (watched (seen (calls fasm))).clashes = .ok r := by
  rw [ending_main, clashes_main A] at h
  split_ifs at h
  split at h
  next r' hr' => rwa [← Ending.reported.inj h]
  next => cases h

/-- **When the verdict is right**: the FASM assembles with one tile for every
bit, or two tiles are seen to claim a bit, all such bits have two tiles and
there are at most twelve pairs of them. -/
theorem verdict_iff (fasm : List FasmLine) : RightVerdict A fasm ↔
    OneOwner fasm ∨ (∃ k, Clashing (seen (calls fasm)) k) ∧ FewPairs (seen (calls fasm)) := by
  unfold RightVerdict
  rw [status_main A]
  by_cases hone : OneOwner fasm
  · have hclean : ∀ k, ¬ Clashing (seen (calls fasm)) k := by
      rw [seen_of_consistent hone.1]
      exact hone.2
    exact iff_of_true ⟨iff_of_true hclean hone, fun h => absurd hone h⟩ (Or.inl hone)
  · simp only [hone, iff_false, not_forall, not_not, not_false_eq_true, forall_const, false_or]
    refine and_congr_right fun hclash => ?_
    rw [← covered_iff]
    have hitems : (main A fasm).clashes.items ≠ [] := fun h => by
      rw [clashes_main A, clashes_eq_nil] at h
      exact hclash.elim h
    constructor
    · rintro ⟨r, hr, hatt⟩
      exact ⟨r, report_of_reported A hr, hatt.covered⟩
    · rintro ⟨r, hr, hcov⟩
      rw [ending_main, if_neg hitems, clashes_main A, hr]
      exact ⟨r, rfl, attributed hr hcov⟩

end Verdict

/-- Thirteen bits, each claimed by `A` and by a tile of its own. -/
def thirteen : List FasmLine :=
  ⟨"A.X".toList, (List.range 13).map fun i => (true, (0, 0, i))⟩ ::
    (List.range 13).map fun i => ⟨['B', Char.ofNat (97 + i), '.', 'X'], [(true, (0, 0, i))]⟩

/-- A tile that contradicts itself passes with status 0; three tiles on a bit
end the report in an exception; of thirteen pairs one is not printed. -/
theorem not_rightVerdict :
    ¬ RightVerdict keeper [⟨"INT_L_X0Y0.A".toList, [(true, (0, 0, 0))]⟩,
        ⟨"INT_L_X0Y0.B".toList, [(false, (0, 0, 0))]⟩] ∧
      ¬ RightVerdict keeper [⟨"A.X".toList, [(true, (0, 0, 0))]⟩, ⟨"B.X".toList, [(true, (0, 0, 0))]⟩,
        ⟨"C.X".toList, [(true, (0, 0, 0))]⟩] ∧
      ¬ RightVerdict keeper thirteen := by
  refine ⟨?_, ?_, ?_⟩
  · rintro ⟨h, -⟩
    have hcons := (h.mp (by decide)).1
    revert hcons
    decide
  · rintro ⟨-, h⟩
    have hclash : ¬ OneOwner [⟨"A.X".toList, [(true, (0, 0, 0))]⟩,
        ⟨"B.X".toList, [(true, (0, 0, 0))]⟩, ⟨"C.X".toList, [(true, (0, 0, 0))]⟩] := fun h =>
      h.2 (0, 0, 0) ⟨['A'], ['B'], by decide, by decide, by decide⟩
    obtain ⟨r, hr, -⟩ := h hclash
    cases hr
  · rintro ⟨-, h⟩
    have hclash : ¬ OneOwner thirteen := fun h =>
      h.2 (0, 0, 0) ⟨['A'], ['B', 'a'], by decide +kernel, by decide +kernel, by decide⟩
    obtain ⟨r, hr, hatt⟩ := h hclash
    have hfew := fewPairs_of_covered (report_of_reported keeper hr) hatt.covered
    revert hfew
    decide +kernel

end BitOwners
end Xc7Tools
