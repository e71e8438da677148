/-
# tftp_serve.py: a read request

`parse_request` of `scripts/tftp_serve.py` and the encoding of a request: the
filename, the mode and then a name and a value for each option, each followed
by a NUL. The script drops the empty pieces before it pairs up the rest, so an
empty value, which an option may have, moves the pairing by one.

`taken` is the pairing on the options themselves, with the place each piece
comes from: names stand at the even places. `understood_iff` says when the
request is understood.

Key definitions: `parseRequest`, `encodeRequest`, `assigned`, `taken`,
`Understood`, `Harmless`.
Key theorems: `options_eq`, `parseRequest_encode`, `taken_right`,
`harmless_of_fair`, `understood_iff`.
-/
import Xc7Tools.Tftp.Server

namespace Xc7Tools
namespace Tftp

/-! ### parse_request -/

/-- `b.decode("ascii", "replace")` -/
def decodeAscii (b : Bytes) : Str :=
  b.map fun c => if c.toNat < 128 then Char.ofNat c.toNat else '\uFFFD'

/-- `s.lower()` of a decoded text. -/
def lower (s : Str) : Str := s.map Char.toLower

/-- `(xs[i], xs[i + 1]) for i in range(0, len(xs) - 1, 2)` -/
def pairUp {α : Type*} : List α → List (α × α)
  | a :: b :: xs => (a, b) :: pairUp xs
  | _ => []

@[ext] structure Request where
  filename : Str
  mode : Str
  options : Dict Str Str
  deriving DecidableEq

def parseRequest (payload : Bytes) : Request :=
  let parts := payload.splitOn 0
  let rest := (parts.drop 2).filter fun p => p ≠ []
  { filename := decodeAscii (parts.headD [])
    mode :=
      match parts[1]? with
      | some p => lower (decodeAscii p)
      | none => "octet".toList
    options := (pairUp rest).foldl
      (fun options p => options.set (lower (decodeAscii p.1)) (decodeAscii p.2)) Dict.empty }

/-- The pieces `parse_request` takes for a name and its value, with their places in
`parts[2:]`. -/
def assigned (payload : Bytes) : List ((Bytes × ℕ) × (Bytes × ℕ)) :=
  pairUp (((payload.splitOn 0).drop 2).zipIdx.filter fun p => p.1 ≠ [])

/-! ### The encoding -/

/-- The names and values of some options in turn. -/
def strings (opts : List (Str × Str)) : List Str := opts.flatMap fun o => [o.1, o.2]

/-- Each string is followed by a NUL. -/
def encodeRequest (filename mode : Str) (opts : List (Str × Str)) : Bytes :=
  (filename :: mode :: strings opts).flatMap fun s => encode s ++ [0]

theorem decodeAscii_encode {s : Str} (h : Plain s) : decodeAscii (encode s) = s := by
  have hchar : ∀ c ∈ s, (if (UInt8.ofNat c.toNat).toNat < 128 then
      Char.ofNat (UInt8.ofNat c.toNat).toNat else '\uFFFD') = c := by
    intro c hc
    have hnat : (UInt8.ofNat c.toNat).toNat = c.toNat := by
      have := (h c hc).2
      rw [UInt8.toNat_ofNat']
      omega
    rw [hnat, if_pos (h c hc).2, Char.ofNat_toNat]
  unfold decodeAscii encode
  rw [List.map_map]
  exact (List.map_congr_left hchar).trans (List.map_id _)

theorem encode_eq_nil {s : Str} : encode s = [] ↔ s = [] := List.map_eq_nil_iff

/-- Pieces that are each followed by a NUL are the pieces of the split, with an empty one behind
the last NUL. -/
theorem splitOn_flatMap : ∀ (ps : List Bytes), (∀ p ∈ ps, (0 : UInt8) ∉ p) →
    (ps.flatMap fun p => p ++ [0]).splitOn 0 = ps ++ [[]]
  | [], _ => rfl
  | p :: ps, h => by
    have ih := splitOn_flatMap ps fun q hq => h q (List.mem_cons_of_mem _ hq)
    rw [List.flatMap_cons, List.append_assoc, List.singleton_append,
      List.splitOn_append_cons_self_of_not_mem (h p List.mem_cons_self), ih]
    rfl

/-- What the script splits an encoded request into. -/
theorem splitOn_encodeRequest {filename mode : Str} {opts : List (Str × Str)}
    (h : ∀ s ∈ filename :: mode :: strings opts, Plain s) :
    (encodeRequest filename mode opts).splitOn 0 =
      encode filename :: encode mode :: ((strings opts).map encode ++ [[]]) := by
  have hsplit := splitOn_flatMap ((filename :: mode :: strings opts).map encode) fun p hp => by
    obtain ⟨s, hs, rfl⟩ := List.mem_map.mp hp
    exact zero_notMem_encode (h s hs)
  unfold encodeRequest
  rw [List.flatMap_map] at hsplit
  exact hsplit

/-! ### What is asked of the script -/

/-- The value of the last pair with the key. -/
def lastOf (ps : List (Str × Str)) (k : Str) : Option Str :=
  (ps.reverse.find? fun p => p.1 = k).map Prod.snd

/-- The options with their names in lower case. -/
def named (opts : List (Str × Str)) : List (Str × Str) := opts.map fun o => (lower o.1, o.2)

/-- The request comes out as it was meant, and no value has been taken for a name. -/
structure Understood (filename mode : Str) (opts : List (Str × Str)) : Prop where
  file : (parseRequest (encodeRequest filename mode opts)).filename = filename
  transfer : (parseRequest (encodeRequest filename mode opts)).mode = lower mode
  options : ∀ k, (parseRequest (encodeRequest filename mode opts)).options.get? k =
    lastOf (named opts) k
  names : ∀ p ∈ assigned (encodeRequest filename mode opts), p.1.2 % 2 = 0

/-- One of the options has this name, in upper or lower case. -/
def Names (opts : List (Str × Str)) (n : Str) : Prop := ∃ o ∈ opts, lower o.1 = lower n

instance (opts : List (Str × Str)) (n : Str) : Decidable (Names opts n) :=
  inferInstanceAs (Decidable (∃ o ∈ opts, lower o.1 = lower n))

/-- Options with empty values come two by two, each with an option of its name behind the two; the
last of all options may be the second of such two and have its own name for a value. -/
def Harmless : List (Str × Str) → Prop
  | [] => True
  | (_, _ :: _) :: opts => Harmless opts
  | [(_, [])] => False
  | (n, []) :: (n', []) :: opts => Names opts n ∧ Names opts n' ∧ Harmless opts
  | (n, []) :: (n', c :: v) :: opts => opts = [] ∧ lower n = lower n' ∧ c :: v = n'

/-! ### The pairing -/

/-- `assigned` on the options, the first name at place `i`. -/
def taken (i : ℕ) (opts : List (Str × Str)) : List ((Str × ℕ) × (Str × ℕ)) :=
  pairUp (((strings opts).zipIdx i).filter fun p => p.1 ≠ [])

/-- The pairs `parse_request` puts in the dictionary. -/
def entered (ts : List ((Str × ℕ) × (Str × ℕ))) : List (Str × Str) :=
  ts.map fun t => (lower t.1.1, t.2.1)

section Taken

variable {i : ℕ} {n n' v : Str} {c : Char} {opts : List (Str × Str)}

theorem taken_value (hn : n ≠ []) :
    taken i ((n, c :: v) :: opts) = ((n, i), (c :: v, i + 1)) :: taken (i + 2) opts := by
  simp [taken, strings, hn, pairUp]

theorem taken_two (hn : n ≠ []) (hn' : n' ≠ []) :
    taken i ((n, []) :: (n', []) :: opts) = ((n, i), (n', i + 2)) :: taken (i + 4) opts := by
  simp [taken, strings, hn, hn', pairUp]

/-- An option with a value behind one without: its value is taken for a name. -/
theorem taken_shifted (hn : n ≠ []) (hn' : n' ≠ []) :
    taken i ((n, []) :: (n', c :: v) :: opts) = ((n, i), (n', i + 2)) ::
      pairUp ((c :: v, i + 3) :: ((strings opts).zipIdx (i + 4)).filter fun p => p.1 ≠ []) := by
  simp [taken, strings, hn, hn', pairUp]

/-- At the even places stand names. -/
theorem names_of_taken : ∀ {opts : List (Str × Str)} {i : ℕ} {p : Str × ℕ},
    p ∈ (strings opts).zipIdx i → p.2 % 2 = i % 2 → Names opts p.1
  | [], _, _, hp, _ => by cases hp
  | (n, v) :: opts, i, p, hp, heven => by
    have hzip : (strings ((n, v) :: opts)).zipIdx i =
        (n, i) :: (v, i + 1) :: (strings opts).zipIdx (i + 2) := rfl
    rw [hzip] at hp
    rcases List.mem_cons.mp hp with rfl | hp
    · exact ⟨_, List.mem_cons_self, rfl⟩
    rcases List.mem_cons.mp hp with rfl | hp
    · simp only at heven
      omega
    · obtain ⟨o, ho, hname⟩ := names_of_taken hp (by omega)
      exact ⟨o, List.mem_cons_of_mem _ ho, hname⟩

theorem mem_of_mem_pairUp {α : Type*} : ∀ {xs : List α} {p : α × α}, p ∈ pairUp xs →
    p.1 ∈ xs ∧ p.2 ∈ xs
  | a :: b :: xs, p, hp => by
    rcases List.mem_cons.mp hp with rfl | hp
    · exact ⟨List.mem_cons_self, List.mem_cons_of_mem _ List.mem_cons_self⟩
    · obtain ⟨h1, h2⟩ := mem_of_mem_pairUp hp
      exact ⟨List.mem_cons_of_mem _ (List.mem_cons_of_mem _ h1),
        List.mem_cons_of_mem _ (List.mem_cons_of_mem _ h2)⟩
  | [], _, hp => by cases hp
  | [_], _, hp => by cases hp

end Taken

/-! ### The last value of a name -/

theorem lastOf_cons (p : Str × Str) (ps : List (Str × Str)) (k : Str) :
    lastOf (p :: ps) k = (lastOf ps k).or (if p.1 = k then some p.2 else none) := by
  unfold lastOf
  rw [List.reverse_cons, List.find?_append, Option.map_or]
  split_ifs with h <;> simp [h]

theorem lastOf_append (ps qs : List (Str × Str)) (k : Str) :
    lastOf (ps ++ qs) k = (lastOf qs k).or (lastOf ps k) := by
  unfold lastOf
  rw [List.reverse_append, List.find?_append, Option.map_or]

theorem lastOf_eq_none {ps : List (Str × Str)} {k : Str} :
    lastOf ps k = none ↔ ∀ p ∈ ps, p.1 ≠ k := by
  simp [lastOf]

theorem mem_of_lastOf {ps : List (Str × Str)} {k x : Str} (h : lastOf ps k = some x) :
    (k, x) ∈ ps := Dict.mem_of_find?_reverse h

theorem lastOf_named_eq_none {opts : List (Str × Str)} {n : Str} :
    lastOf (named opts) (lower n) = none ↔ ¬ Names opts n := by
  rw [lastOf_eq_none]
  constructor
  · rintro h ⟨o, ho, hname⟩
    exact h _ (List.mem_map_of_mem ho) hname
  · intro h p hp hk
    obtain ⟨o, ho, rfl⟩ := List.mem_map.mp hp
    exact h ⟨o, ho, hk⟩

theorem named_cons (o : Str × Str) (opts : List (Str × Str)) :
    named (o :: opts) = (lower o.1, o.2) :: named opts := rfl

theorem entered_cons (t : (Str × ℕ) × (Str × ℕ)) (ts : List ((Str × ℕ) × (Str × ℕ))) :
    entered (t :: ts) = (lower t.1.1, t.2.1) :: entered ts := rfl

/-! ### When the pairing is right -/

/-- Only names are taken for names, and each name ends with its last value. -/
structure Right (i : ℕ) (opts : List (Str × Str)) : Prop where
  names : ∀ p ∈ taken i opts, p.1.2 % 2 = i % 2
  values : ∀ k, lastOf (entered (taken i opts)) k = lastOf (named opts) k

/-- Harmless options are paired up right. -/
theorem taken_right : ∀ {opts : List (Str × Str)} {i : ℕ}, (∀ o ∈ opts, o.1 ≠ []) →
    Harmless opts → Right i opts
  | [], _, _, _ => by
    constructor
    · intro p hp
      cases hp
    · exact fun _ => rfl
  | (n, c :: v) :: opts, i, hne, h => by
    have hn : n ≠ [] := hne _ List.mem_cons_self
    have ih := taken_right (i := i + 2) (fun o ho => hne o (List.mem_cons_of_mem _ ho)) h
    constructor
    · intro p hp
      rw [taken_value hn] at hp
      rcases List.mem_cons.mp hp with rfl | hp
      · rfl
      · rw [ih.names p hp, Nat.add_mod_right]
    · intro k
      rw [taken_value hn, entered_cons, named_cons, lastOf_cons, lastOf_cons, ih.values]
  | (n, []) :: (n', []) :: opts, i, hne, h => by
    obtain ⟨hnamed, hnamed', hopts⟩ := h
    have hn : n ≠ [] := hne _ List.mem_cons_self
    have hn' : n' ≠ [] := hne _ (List.mem_cons_of_mem _ List.mem_cons_self)
    have ih := taken_right (i := i + 4)
      (fun o ho => hne o (List.mem_cons_of_mem _ (List.mem_cons_of_mem _ ho))) hopts
    constructor
    · intro p hp
      rw [taken_two hn hn'] at hp
      rcases List.mem_cons.mp hp with rfl | hp
      · rfl
      · rw [ih.names p hp]
        omega
    · intro k
      rw [taken_two hn hn', entered_cons, named_cons, named_cons, lastOf_cons, lastOf_cons,
        lastOf_cons, ih.values]
      -- the options behind the two have the last word on both names
      cases hlast : lastOf (named opts) k with
      | some x => rfl
      | none =>
        have hk : lower n ≠ k := fun e =>
          lastOf_named_eq_none.mp (e ▸ hlast) hnamed
        have hk' : lower n' ≠ k := fun e =>
          lastOf_named_eq_none.mp (e ▸ hlast) hnamed'
        simp only [hk, hk', if_false]
        rfl
  | (n, []) :: (n', c :: v) :: opts, i, hne, h => by
    obtain ⟨rfl, hlower, rfl⟩ := h
    have hn : n ≠ [] := hne _ List.mem_cons_self
    have hn' : c :: v ≠ [] := List.cons_ne_nil _ _
    constructor
    · intro p hp
      rw [taken_shifted hn hn'] at hp
      rw [List.mem_singleton.mp hp]
    · intro k
      rw [taken_shifted hn hn', entered_cons, named_cons, named_cons, lastOf_cons, lastOf_cons,
        lastOf_cons, hlower]
      by_cases hk : lower (c :: v) = k
      · rw [if_pos hk, if_pos hk]
        rfl
      · rw [if_neg hk, if_neg hk]
        rfl

/-- What is entered under a name is under the name of an option, where only names are taken for
names. -/
theorem names_of_entered {opts : List (Str × Str)} {i : ℕ} {k x : Str}
    (h : ∀ p ∈ taken i opts, p.1.2 % 2 = i % 2)
    (hk : lastOf (entered (taken i opts)) k = some x) : ∃ n, k = lower n ∧ Names opts n := by
  obtain ⟨p, hp, hpk⟩ := List.mem_map.mp (mem_of_lastOf hk)
  have hpiece := (List.mem_filter.mp (mem_of_mem_pairUp hp).1).1
  exact ⟨p.1.1, (congrArg Prod.fst hpk).symm, names_of_taken hpiece (h p hp)⟩

/-- Nothing empty is entered. -/
theorem entered_ne_nil (opts : List (Str × Str)) (i : ℕ) (k : Str) :
    lastOf (entered (taken i opts)) k ≠ some [] := by
  intro hk
  obtain ⟨p, hp, hpk⟩ := List.mem_map.mp (mem_of_lastOf hk)
  have hpiece := (List.mem_filter.mp (mem_of_mem_pairUp hp).2).2
  exact of_decide_eq_true hpiece (congrArg Prod.snd hpk)

/-- Only names are taken for names, no name ends with an empty value, and what is entered is the
name's last value. -/
structure Fair (i : ℕ) (opts : List (Str × Str)) : Prop where
  names : ∀ p ∈ taken i opts, p.1.2 % 2 = i % 2
  filled : ∀ k, lastOf (named opts) k ≠ some []
  last : ∀ k x, lastOf (entered (taken i opts)) k = some x → lastOf (named opts) k = some x

/-- The options behind some that were paired up among themselves are fair too. -/
theorem Fair.tail {i j : ℕ} (opts : List (Str × Str)) {opts' : List (Str × Str)}
    (ts : List ((Str × ℕ) × (Str × ℕ))) (h : Fair i (opts ++ opts'))
    (htaken : taken i (opts ++ opts') = ts ++ taken j opts') (hj : j % 2 = i % 2) :
    Fair j opts' := by
  have hwhole : ∀ k y, lastOf (named opts') k = some y →
      lastOf (named (opts ++ opts')) k = some y := by
    intro k y hy
    rw [named, List.map_append, lastOf_append]
    exact Option.or_eq_some_iff.mpr (Or.inl hy)
  have hnames : ∀ p ∈ taken j opts', p.1.2 % 2 = j % 2 := by
    intro p hp
    rw [hj]
    exact h.names p (htaken ▸ List.mem_append_right ts hp)
  refine ⟨hnames, fun k hk => h.filled k (hwhole k [] hk), fun k x hx => ?_⟩
  obtain ⟨n, rfl, hn⟩ := names_of_entered hnames hx
  have hentered : lastOf (entered (taken i (opts ++ opts'))) (lower n) = some x := by
    rw [htaken, entered, List.map_append, lastOf_append]
    exact Option.or_eq_some_iff.mpr (Or.inl hx)
  have hsome := h.last _ x hentered
  cases hlast : lastOf (named opts') (lower n) with
  | none => exact absurd hn (lastOf_named_eq_none.mp hlast)
  | some y => rw [← hsome, hwhole _ y hlast]

/-- An option with an empty value has another of its name behind it. -/
theorem Fair.names_of_empty {i : ℕ} {n : Str} (opts : List (Str × Str)) {opts' : List (Str × Str)}
    (h : Fair i (opts ++ (n, []) :: opts')) : Names opts' n := by
  by_contra hno
  apply h.filled (lower n)
  rw [named, List.map_append, lastOf_append, List.map_cons, lastOf_cons, if_pos rfl]
  have hnone : lastOf (opts'.map fun o => (lower o.1, o.2)) (lower n) = none :=
    lastOf_named_eq_none.mpr hno
  rw [hnone]
  rfl

theorem harmless_of_fair : ∀ {opts : List (Str × Str)} {i : ℕ}, (∀ o ∈ opts, o.1 ≠ []) →
    Fair i opts → Harmless opts
  | [], _, _, _ => trivial
  | (n, c :: v) :: opts, i, hne, h => by
    have hn : n ≠ [] := hne _ List.mem_cons_self
    have htail : Fair (i + 2) opts :=
      Fair.tail [(n, c :: v)] [((n, i), (c :: v, i + 1))] h (taken_value hn)
        (Nat.add_mod_right i 2)
    show Harmless opts
    exact harmless_of_fair (List.forall_mem_cons.mp hne).2 htail
  | [(n, [])], i, hne, h => by
    obtain ⟨o, ho, -⟩ := Fair.names_of_empty [] h
    cases ho
  | (n, []) :: (n', []) :: opts, i, hne, h => by
    have hn : n ≠ [] := hne _ List.mem_cons_self
    have hn' : n' ≠ [] := hne _ (List.mem_cons_of_mem _ List.mem_cons_self)
    have htail : Fair (i + 4) opts :=
      Fair.tail [(n, []), (n', [])] [((n, i), (n', i + 2))] h
        (taken_two hn hn') (by omega)
    have hnamed' : Names opts n' := Fair.names_of_empty [(n, [])] h
    refine ⟨?_, hnamed', ?_⟩
    · obtain ⟨o, ho, hname⟩ := Fair.names_of_empty [] h
      rcases List.mem_cons.mp ho with rfl | ho
      · -- the two have one name, which the options behind the second have
        obtain ⟨o, ho, hname'⟩ := hnamed'
        exact ⟨o, ho, hname'.trans hname⟩
      · exact ⟨o, ho, hname⟩
    · exact harmless_of_fair (List.forall_mem_cons.mp (List.forall_mem_cons.mp hne).2).2 htail
  | (n, []) :: (n', c :: v) :: opts, i, hne, h => by
    have hn : n ≠ [] := hne _ List.mem_cons_self
    have hn' : n' ≠ [] := hne _ (List.mem_cons_of_mem _ List.mem_cons_self)
    have htaken := @taken_shifted i n n' v c opts hn hn'
    have hopts : opts = [] := by
      rcases opts with _ | ⟨⟨m, w⟩, opts⟩
      · rfl
      · -- the value would be taken for a name, and `m` for its value
        have hm : m ≠ [] := hne (m, w) (by simp)
        have hmem : ((c :: v, i + 3), (m, i + 4)) ∈
            taken i ((n, []) :: (n', c :: v) :: (m, w) :: opts) := by
          rw [htaken]
          simp [strings, hm, pairUp]
        have hplace := h.names _ hmem
        simp only at hplace
        omega
    subst hopts
    obtain ⟨o, ho, hname⟩ := Fair.names_of_empty [] h
    obtain rfl := List.mem_singleton.mp ho
    refine ⟨rfl, hname.symm, ?_⟩
    have hentered : lastOf (entered (taken i [(n, []), (n', c :: v)])) (lower n) = some n' := by
      rw [htaken]
      simp [entered, pairUp, lastOf, strings]
    have hlast := h.last _ _ hentered
    rw [named_cons, lastOf_cons, named_cons, lastOf_cons, if_pos hname] at hlast
    exact Option.some.inj hlast

/-! ### The request -/

theorem pairUp_map {α β : Type*} (f : α → β) : ∀ xs : List α,
    pairUp (xs.map f) = (pairUp xs).map (Prod.map f f)
  | a :: b :: xs => by
    rw [List.map_cons, List.map_cons, pairUp, pairUp_map f xs]
    rfl
  | [] => rfl
  | [_] => rfl

/-- `assigned` is what goes into the dictionary. -/
theorem options_eq (payload : Bytes) : (parseRequest payload).options =
    Dict.empty.update ((assigned payload).map fun p => (lower (decodeAscii p.1.1), decodeAscii p.2.1)) := by
  have hrest : ((payload.splitOn 0).drop 2).filter (fun p => p ≠ []) =
      ((((payload.splitOn 0).drop 2).zipIdx).filter fun p => p.1 ≠ []).map Prod.fst := by
    conv_lhs => rw [← List.zipIdx_map_fst 0 ((payload.splitOn 0).drop 2), List.filter_map]
    rfl
  unfold parseRequest assigned Dict.update
  simp only [hrest, pairUp_map, List.foldl_map]
  rfl

section Parsed

variable {filename mode : Str} {opts : List (Str × Str)}
  (hplain : ∀ s ∈ filename :: mode :: strings opts, Plain s)

include hplain

theorem assigned_encode : assigned (encodeRequest filename mode opts) =
    (taken 0 opts).map (Prod.map (Prod.map encode id) (Prod.map encode id)) := by
  have hfilter : ((strings opts).map encode ++ [[]]).zipIdx.filter (fun p => p.1 ≠ []) =
      (((strings opts).zipIdx).filter fun p => p.1 ≠ []).map (Prod.map encode id) := by
    rw [List.zipIdx_append, List.filter_append, List.zipIdx_map, List.filter_map]
    simp [Function.comp_def, encode_eq_nil]
  unfold assigned taken
  rw [splitOn_encodeRequest hplain, List.drop_succ_cons, List.drop_succ_cons, List.drop_zero,
    hfilter, pairUp_map]

theorem parseRequest_encode : parseRequest (encodeRequest filename mode opts) =
    ⟨filename, lower mode, Dict.empty.update (entered (taken 0 opts))⟩ := by
  have hpiece : ∀ p ∈ (strings opts).zipIdx, decodeAscii (encode p.1) = p.1 := by
    intro p hp
    have hmem : p.1 ∈ strings opts := List.fst_mem_of_mem_zipIdx hp
    exact decodeAscii_encode (hplain _ (List.mem_cons_of_mem _ (List.mem_cons_of_mem _ hmem)))
  have hoptions : (parseRequest (encodeRequest filename mode opts)).options =
      Dict.empty.update (entered (taken 0 opts)) := by
    rw [options_eq, assigned_encode hplain, List.map_map]
    refine congrArg _ (List.map_congr_left fun p hp => ?_)
    obtain ⟨h1, h2⟩ := mem_of_mem_pairUp hp
    simp only [Function.comp_apply, Prod.map_fst, Prod.map_snd,
      hpiece _ (List.mem_filter.mp h1).1, hpiece _ (List.mem_filter.mp h2).1]
  have hfile : (parseRequest (encodeRequest filename mode opts)).filename = filename := by
    unfold parseRequest
    rw [splitOn_encodeRequest hplain]
    exact decodeAscii_encode (hplain _ List.mem_cons_self)
  have hmode : (parseRequest (encodeRequest filename mode opts)).mode = lower mode := by
    unfold parseRequest
    rw [splitOn_encodeRequest hplain]
    exact congrArg lower (decodeAscii_encode (hplain _ (List.mem_cons_of_mem _ List.mem_cons_self)))
  exact Request.ext hfile hmode hoptions

end Parsed

/-- **When a request is understood.** -/
theorem understood_iff {filename mode : Str} {opts : List (Str × Str)}
    (hplain : ∀ s ∈ filename :: mode :: strings opts, Plain s) (hnames : ∀ o ∈ opts, o.1 ≠ []) :
    Understood filename mode opts ↔ Harmless opts := by
  have hparse := parseRequest_encode hplain
  have hget : ∀ k, (parseRequest (encodeRequest filename mode opts)).options.get? k =
      lastOf (entered (taken 0 opts)) k := by
    intro k
    rw [hparse, Dict.get?_update, Dict.get?_empty, Option.or_none]
    rfl
  have hplaces : (∀ p ∈ assigned (encodeRequest filename mode opts), p.1.2 % 2 = 0) ↔
      ∀ p ∈ taken 0 opts, p.1.2 % 2 = 0 % 2 := by
    rw [assigned_encode hplain]
    simp only [List.forall_mem_map]
    rfl
  constructor
  · intro h
    have hvalues : ∀ k, lastOf (entered (taken 0 opts)) k = lastOf (named opts) k := fun k =>
      (hget k).symm.trans (h.options k)
    refine harmless_of_fair hnames ⟨hplaces.mp h.names, fun k hk => ?_, fun k x hx => ?_⟩
    · exact entered_ne_nil opts 0 k ((hvalues k).trans hk)
    · rw [← hvalues, hx]
  · intro h
    have hright := taken_right (i := 0) hnames h
    exact ⟨by rw [hparse], by rw [hparse], fun k => (hget k).trans (hright.values k),
      hplaces.mpr hright.names⟩

/-- Two options of real clients, and one of no value asked for twice. -/
theorem understood_iff_blksize : Understood "boot.json".toList "OCTET".toList
    [("blksize".toList, "1428".toList), ("TSIZE".toList, "0".toList)] ↔
      Harmless [("blksize".toList, "1428".toList), ("TSIZE".toList, "0".toList)] :=
  understood_iff (by decide) (by decide)

/-- An option with an empty value in front of another: `blksize` becomes a value, and its own value
is left over. -/
theorem not_understood : ¬ ∀ (filename mode : Str) (opts : List (Str × Str)),
    filename ≠ [] → mode ≠ [] → (∀ s ∈ filename :: mode :: strings opts, Plain s) →
      (∀ o ∈ opts, o.1 ≠ []) → Understood filename mode opts := by
  intro h
  have hu := h "boot.bin".toList "octet".toList
    [("multicast".toList, []), ("blksize".toList, "1428".toList)] (by decide) (by decide)
    (by decide) (by decide)
  have hoption := hu.options "blksize".toList
  exact absurd hoption (by decide)

end Tftp
end Xc7Tools
