/-
# Python dictionaries

A `Dict κ α` is a list of items in insertion order, no key twice. `d[k] = v`
is `set`: it replaces the value of a key in its place and appends a new key.
A JSON object is a dictionary from its member names.

Key definitions: `Dict`, `Dict.get?`, `Dict.set`, `Dict.update`.
Key theorems: `Dict.get?_set`, `Dict.get?_eq_some`, `Dict.get?_update`.
-/
import Mathlib.Data.List.Induction
import Mathlib.Data.List.Nodup

namespace Xc7Tools

/-- A dictionary: its items in insertion order, with different keys. -/
structure Dict (κ α : Type*) where
  items : List (κ × α)
  nodup : (items.map Prod.fst).Nodup

namespace Dict

variable {κ α β : Type*}

@[ext] theorem ext {d e : Dict κ α} (h : d.items = e.items) : d = e := by
  cases d; cases e; simp only at h; subst h; rfl

instance [DecidableEq κ] [DecidableEq α] : DecidableEq (Dict κ α) := fun d e =>
  decidable_of_iff (d.items = e.items) ⟨ext, fun h => h ▸ rfl⟩

/-- `{}`. -/
def empty : Dict κ α := ⟨[], List.nodup_nil⟩

instance : Inhabited (Dict κ α) := ⟨empty⟩

/-- `d.keys()`. -/
def keys (d : Dict κ α) : List κ := d.items.map Prod.fst

/-- `d.values()`. -/
def values (d : Dict κ α) : List α := d.items.map Prod.snd

/-- `{k: f(v) for k, v in d.items()}`. -/
def map (f : α → β) (d : Dict κ α) : Dict κ β :=
  ⟨d.items.map fun p => (p.1, f p.2), by
    rw [List.map_map]; exact d.nodup⟩

/-- `k in d`. -/
instance : Membership κ (Dict κ α) := ⟨fun d k => k ∈ d.keys⟩

theorem mem_def {k : κ} {d : Dict κ α} : k ∈ d ↔ k ∈ d.keys := Iff.rfl

theorem not_mem_empty (k : κ) : k ∉ (empty : Dict κ α) := List.not_mem_nil

section Lookup

variable [DecidableEq κ]

instance (k : κ) (d : Dict κ α) : Decidable (k ∈ d) := inferInstanceAs (Decidable (k ∈ d.keys))

/-- `d.get(k)`. -/
def get? (d : Dict κ α) (k : κ) : Option α := (d.items.find? fun p => p.1 = k).map Prod.snd

@[simp] theorem get?_empty (k : κ) : (empty : Dict κ α).get? k = none := rfl

/-- The value under a key is the one item with that key. -/
theorem get?_eq_some {d : Dict κ α} {k : κ} {v : α} : d.get? k = some v ↔ (k, v) ∈ d.items := by
  constructor
  · intro h
    obtain ⟨p, hp, rfl⟩ := Option.map_eq_some_iff.mp h
    have hk : p.1 = k := by simpa using List.find?_some hp
    rw [← hk]
    exact List.mem_of_find?_eq_some hp
  · intro h
    have huniq : ∀ p ∈ d.items, p.1 = k → p = (k, v) := fun p hp hk =>
      List.inj_on_of_nodup_map d.nodup hp h hk
    obtain ⟨p, hp⟩ : ∃ p, d.items.find? (fun p => p.1 = k) = some p :=
      Option.isSome_iff_exists.mp (List.find?_isSome.mpr ⟨_, h, by simp⟩)
    have := huniq p (List.mem_of_find?_eq_some hp) (by simpa using List.find?_some hp)
    rw [get?, hp, this]
    rfl

theorem get?_eq_none {d : Dict κ α} {k : κ} : d.get? k = none ↔ k ∉ d := by
  simp only [get?, Option.map_eq_none_iff, List.find?_eq_none, mem_def, keys, List.mem_map,
    decide_eq_true_eq, not_exists, not_and]

theorem mem_iff {d : Dict κ α} {k : κ} : k ∈ d ↔ ∃ v, d.get? k = some v := by
  rw [← Option.isSome_iff_exists, ← Option.ne_none_iff_isSome, ne_eq, get?_eq_none, not_not]

theorem mem_values {d : Dict κ α} {v : α} : v ∈ d.values ↔ ∃ k, d.get? k = some v := by
  simp [values, get?_eq_some]

theorem get?_map (f : α → β) (d : Dict κ α) (k : κ) : (d.map f).get? k = (d.get? k).map f := by
  simp [get?, map, List.find?_map, Function.comp_def]

/-- The items after `d[k] = v`. -/
def setItems (k : κ) (v : α) : List (κ × α) → List (κ × α)
  | [] => [(k, v)]
  | p :: ps => if p.1 = k then (k, v) :: ps else p :: setItems k v ps

theorem setItems_keys (k : κ) (v : α) : ∀ ps : List (κ × α),
    (setItems k v ps).map Prod.fst =
      if k ∈ ps.map Prod.fst then ps.map Prod.fst else ps.map Prod.fst ++ [k]
  | [] => rfl
  | p :: ps => by
    by_cases h : p.1 = k
    · simp [setItems, h]
    · have h' : ¬ k = p.1 := fun e => h e.symm
      simp only [setItems, h, if_false, List.map_cons, setItems_keys k v ps, List.mem_cons, h',
        false_or]
      split_ifs <;> rfl

/-- `d[k] = v`. -/
def set (d : Dict κ α) (k : κ) (v : α) : Dict κ α :=
  ⟨setItems k v d.items, by
    rw [setItems_keys]
    split_ifs with h
    · exact d.nodup
    · exact List.nodup_append.mpr ⟨d.nodup, List.nodup_singleton k, fun a ha b hb => by
        rw [List.mem_singleton.mp hb]; exact fun e => h (e ▸ ha)⟩⟩

theorem find?_setItems (k k' : κ) (v : α) : ∀ ps : List (κ × α),
    (setItems k v ps).find? (fun p => p.1 = k') =
      if k = k' then some (k, v) else ps.find? fun p => p.1 = k'
  | [] => by by_cases h : k = k' <;> simp [setItems, h]
  | p :: ps => by
    by_cases h : p.1 = k
    · by_cases h' : k = k' <;> simp [setItems, h, h']
    · by_cases h' : p.1 = k'
      · have hne : ¬ k = k' := fun e => h (h'.trans e.symm)
        rw [setItems, if_neg h, if_neg hne, List.find?_cons_of_pos (by simpa using h'),
          List.find?_cons_of_pos (by simpa using h')]
      · simp [setItems, h, h', find?_setItems k k' v ps]

theorem get?_set (d : Dict κ α) (k k' : κ) (v : α) :
    (d.set k v).get? k' = if k = k' then some v else d.get? k' := by
  simp only [get?, set, find?_setItems]
  split_ifs <;> rfl

@[simp] theorem get?_set_self (d : Dict κ α) (k : κ) (v : α) : (d.set k v).get? k = some v := by
  rw [get?_set, if_pos rfl]

theorem get?_set_of_ne (d : Dict κ α) {k k' : κ} (v : α) (h : k ≠ k') :
    (d.set k v).get? k' = d.get? k' := by rw [get?_set, if_neg h]

theorem keys_set (d : Dict κ α) (k : κ) (v : α) :
    (d.set k v).keys = if k ∈ d then d.keys else d.keys ++ [k] := setItems_keys k v d.items

theorem mem_set {d : Dict κ α} {k k' : κ} {v : α} : k' ∈ d.set k v ↔ k' = k ∨ k' ∈ d := by
  rw [mem_def, keys_set]
  split_ifs with h
  · exact ⟨Or.inr, fun h' => h'.elim (fun e => e ▸ h) id⟩
  · simp [mem_def, or_comm]

/-- The number of items after `d[k] = v`. -/
theorem length_set (d : Dict κ α) (k : κ) (v : α) :
    (d.set k v).items.length = d.items.length + if k ∈ d then 0 else 1 := by
  have h := congrArg List.length (keys_set d k v)
  rw [keys, List.length_map] at h
  rw [h]
  split_ifs <;> simp [keys]

/-- `for k, v in ps: d[k] = v`, as `d.update(ps)`. -/
def update (d : Dict κ α) (ps : List (κ × α)) : Dict κ α := ps.foldl (fun d p => d.set p.1 p.2) d

@[simp] theorem update_nil (d : Dict κ α) : d.update [] = d := rfl

theorem update_cons (d : Dict κ α) (p : κ × α) (ps : List (κ × α)) :
    d.update (p :: ps) = (d.set p.1 p.2).update ps := rfl

theorem update_append (d : Dict κ α) (ps qs : List (κ × α)) :
    d.update (ps ++ qs) = (d.update ps).update qs := List.foldl_append

theorem update_concat (d : Dict κ α) (ps : List (κ × α)) (p : κ × α) :
    d.update (ps ++ [p]) = (d.update ps).set p.1 p.2 := by
  rw [update, List.foldl_append]; rfl

/-- The last item with a key wins. -/
theorem get?_update (d : Dict κ α) (ps : List (κ × α)) (k : κ) :
    (d.update ps).get? k =
      ((ps.reverse.find? fun p => p.1 = k).map Prod.snd).or (d.get? k) := by
  induction ps using List.reverseRecOn with
  | nil => rfl
  | append_singleton ps p ih =>
    rw [update_concat, get?_set, ih, List.reverse_concat, List.find?_cons]
    by_cases h : p.1 = k <;> simp [h]

theorem get?_update_of_not_mem (d : Dict κ α) {ps : List (κ × α)} {k : κ}
    (h : k ∉ ps.map Prod.fst) : (d.update ps).get? k = d.get? k := by
  have hnone : ps.reverse.find? (fun p => p.1 = k) = none := by
    simp only [List.find?_eq_none, List.mem_reverse, decide_eq_true_eq]
    exact fun p hp e => h (List.mem_map.mpr ⟨p, hp, e⟩)
  rw [get?_update, hnone]
  rfl

/-- The last item with a key is found when the key stands for one value. -/
theorem find?_reverse_of_mem {ps : List (κ × α)} {k : κ} {v : α} (h : (k, v) ∈ ps)
    (hps : ∀ v', (k, v') ∈ ps → v' = v) :
    ps.reverse.find? (fun p => p.1 = k) = some (k, v) := by
  obtain ⟨p, hp⟩ : ∃ p, ps.reverse.find? (fun p => p.1 = k) = some p :=
    Option.isSome_iff_exists.mp (List.find?_isSome.mpr ⟨_, List.mem_reverse.mpr h, by simp⟩)
  have hk : p.1 = k := by simpa using List.find?_some hp
  have hmem : (k, p.2) ∈ ps := hk ▸ List.mem_reverse.mp (List.mem_of_find?_eq_some hp)
  have hv : p.2 = v := hps p.2 hmem
  rw [hp, ← hk, ← hv]

/-- With different keys every item arrives. -/
theorem get?_update_of_mem (d : Dict κ α) {ps : List (κ × α)} (hps : (ps.map Prod.fst).Nodup)
    {k : κ} {v : α} (h : (k, v) ∈ ps) : (d.update ps).get? k = some v := by
  have hone : ∀ v', (k, v') ∈ ps → v' = v := fun v' hv' =>
    (Prod.mk.inj (List.inj_on_of_nodup_map hps hv' h rfl)).2
  rw [get?_update, find?_reverse_of_mem h hone]
  rfl

/-- Of items with different keys, those with a new key add to the length. -/
theorem length_update (d : Dict κ α) : ∀ {ps : List (κ × α)}, (ps.map Prod.fst).Nodup →
    (d.update ps).items.length = d.items.length + ps.countP fun p => p.1 ∉ d := by
  intro ps
  induction ps generalizing d with
  | nil => exact fun _ => rfl
  | cons p ps ih =>
    intro h
    obtain ⟨hp, hps⟩ := List.nodup_cons.mp h
    have hcount : (ps.countP fun q => q.1 ∉ d.set p.1 p.2) = ps.countP fun q => q.1 ∉ d := by
      refine List.countP_congr fun q hq => ?_
      have hne : q.1 ≠ p.1 := fun e => hp (e ▸ List.mem_map_of_mem hq)
      simp [mem_set, hne]
    rw [update_cons, ih _ hps, hcount, length_set, List.countP_cons]
    by_cases hd : p.1 ∈ d
    · simp [hd]
    · simp [hd]
      omega

/-- The value of the last item of a key is one of the key's. -/
theorem mem_of_find?_reverse {ps : List (κ × α)} {k : κ} {v : α}
    (h : (ps.reverse.find? fun p => p.1 = k).map Prod.snd = some v) : (k, v) ∈ ps := by
  obtain ⟨p, hp, rfl⟩ := Option.map_eq_some_iff.mp h
  have hk : p.1 = k := by simpa using List.find?_some hp
  rw [← hk]
  exact List.mem_reverse.mp (List.mem_of_find?_eq_some hp)

/-- What a dictionary built from items has is one of them. -/
theorem mem_of_get?_update_empty {ps : List (κ × α)} {k : κ} {v : α}
    (h : ((empty : Dict κ α).update ps).get? k = some v) : (k, v) ∈ ps := by
  rw [get?_update, get?_empty, Option.or_none] at h
  exact mem_of_find?_reverse h

/-- A dictionary built from items, where a key stands for one value, has just
these. -/
theorem get?_update_empty {ps : List (κ × α)} {k : κ} {v : α}
    (hps : ∀ v', (k, v) ∈ ps → (k, v') ∈ ps → v' = v) :
    ((empty : Dict κ α).update ps).get? k = some v ↔ (k, v) ∈ ps := by
  refine ⟨mem_of_get?_update_empty, fun h => ?_⟩
  have hone : ∀ v', (k, v') ∈ ps → v' = v := fun v' => hps v' h
  rw [get?_update, find?_reverse_of_mem h hone]
  rfl

theorem mem_update {d : Dict κ α} {ps : List (κ × α)} {k : κ} :
    k ∈ d.update ps ↔ k ∈ ps.map Prod.fst ∨ k ∈ d := by
  induction ps using List.reverseRecOn with
  | nil => simp
  | append_singleton ps p ih =>
    rw [update_concat, mem_set, ih]
    simp only [List.map_append, List.map_cons, List.map_nil, List.mem_append, List.mem_singleton]
    tauto

end Lookup

end Dict

end Xc7Tools
