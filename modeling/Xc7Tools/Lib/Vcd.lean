/-
# Value change dumps

A dump is read line by line: a line declares a variable, dates what follows or
changes a value, and other lines say nothing. A variable has no value before
its first change and keeps its value until the next one.

Key definitions: `Vcd.readLine`, `Vcd.read`, `Vcd.valueAt`, `Vcd.Replays`, `Vcd.Says`.
Key theorems: `Vcd.read_unlines`, `Vcd.readLine_bit`, `Vcd.readLine_bits`, `Vcd.readLine_var`.
-/
import Xc7Tools.Lib.Decimal

namespace Xc7Tools
namespace Vcd

/-- What a line says. -/
inductive Item where
  | var (width : ℕ) (id : Str)
  | time (t : ℕ)
  | change (id : Str) (v : ℕ)

/-- The number of some binary digits. -/
def binary (s : Str) : ℕ := s.foldl (fun n c => 2 * n + (c == '1').toNat) 0

/-- `$var` -/
def varKey : Str := ['$', 'v', 'a', 'r']

/-- `$var <kind> <width> <id> ...` -/
def readVar (l : Str) : Option Item :=
  match l.splitOn ' ' with
  | key :: _ :: width :: id :: _ =>
    if key = varKey then some (.var (Str.value width) id) else none
  | _ => none

/-- `#<time>`, `<bit><id>`, `b<bits> <id>` or a declaration; none is a line that says nothing. -/
def readLine : Str → Option Item
  | '#' :: t => some (.time (Str.value t))
  | '0' :: id => some (.change id 0)
  | '1' :: id => some (.change id 1)
  | 'b' :: r =>
    match r.splitOn ' ' with
    | [bits, id] => some (.change id (binary bits))
    | _ => none
  | l => readVar l

def read (text : Str) : List Item := (text.splitOn '\n').filterMap readLine

/-- The width and the identifier of each variable, in the order of their declarations. -/
def vars (items : List Item) : List (ℕ × Str) := items.filterMap fun
  | .var width id => some (width, id)
  | _ => none

def times (items : List Item) : List ℕ := items.filterMap fun
  | .time t => some t
  | _ => none

/-! ### Values -/

/-- The values of the variables after an item. -/
def Item.apply (cur : Str → Option ℕ) : Item → Str → Option ℕ
  | .change id v => Function.update cur id (some v)
  | _ => cur

/-- And after some items, from no values. -/
def after (items : List Item) : Str → Option ℕ := items.foldl Item.apply fun _ => none

/-- What there is up to a time. -/
def upTo (t : ℕ) (items : List Item) : List Item := items.takeWhile fun
  | .time t' => t' ≤ t
  | _ => true

/-- The value of a variable at a time, if it has one. -/
def valueAt (items : List Item) (t : ℕ) (id : Str) : Option ℕ := after (upTo t items) id

/-- The dump has a variable of its own for each column, a width and a value for each sample, and at
the time of a sample each has the column's value in it. -/
structure Replays (text : Str) (period n : ℕ) (cols : List (ℕ × (ℕ → ℕ))) : Prop where
  widths : (vars (read text)).map Prod.fst = cols.map Prod.fst
  ids : ((vars (read text)).map Prod.snd).Nodup
  times : (times (read text)).Pairwise (· < ·)
  values : ∀ i < n, (vars (read text)).map (fun v => valueAt (read text) (i * period) v.2) =
    cols.map fun c => some (c.2 i)

/-! ### Lines -/

/-- The lines of a text, each with its line break. -/
def unlines (ls : List Str) : Str := ls.flatMap fun l => l ++ ['\n']

/-- Lines without a break in them, and what they say. -/
structure Says (ls : List Str) (items : List Item) : Prop where
  unbroken : ∀ l ∈ ls, '\n' ∉ l
  read : ls.filterMap readLine = items

section Says

variable {ls ls' : List Str} {items items' : List Item}

theorem says_nil : Says [] [] := ⟨fun _ hl => absurd hl List.not_mem_nil, rfl⟩

theorem Says.cons {l : Str} {item : Item} (hl : '\n' ∉ l) (hread : readLine l = some item)
    (h : Says ls items) : Says (l :: ls) (item :: items) := by
  refine ⟨List.forall_mem_cons.mpr ⟨hl, h.unbroken⟩, ?_⟩
  rw [List.filterMap_cons_some hread, h.read]

theorem Says.append (h : Says ls items) (h' : Says ls' items') :
    Says (ls ++ ls') (items ++ items') := by
  refine ⟨List.forall_mem_append.mpr ⟨h.unbroken, h'.unbroken⟩, ?_⟩
  rw [List.filterMap_append, h.read, h'.read]

theorem says_map {α : Type*} {f : α → Str} {g : α → Item} : ∀ {as : List α},
    (∀ a ∈ as, '\n' ∉ f a ∧ readLine (f a) = some (g a)) → Says (as.map f) (as.map g)
  | [], _ => says_nil
  | a :: as, h => by
    obtain ⟨hunbroken, hread⟩ := h a List.mem_cons_self
    exact (says_map fun a' ha' => h a' (List.mem_cons_of_mem _ ha')).cons hunbroken hread

theorem read_unlines (h : Says ls items) : read (unlines ls) = items := by
  have hempty : readLine [] = none := rfl
  rw [read, unlines, Str.splitOn_flatMap h.unbroken, List.filterMap_append,
    List.filterMap_cons_none hempty, List.filterMap_nil, List.append_nil, h.read]

end Says

theorem binary_toDigits (n : ℕ) : binary (Nat.toDigits 2 n) = n := by
  refine Str.toDigits_induction (by decide) (P := fun n s => binary s = n) ?_ ?_ n
  · decide
  · intro n d hd ih
    have hdigit : ∀ d < 2, (d.digitChar == '1').toNat = d := by decide
    rw [binary, List.foldl_append, List.foldl_cons, List.foldl_nil, hdigit d hd]
    rw [binary] at ih
    rw [ih]

/-- Binary digits are digits. -/
theorem mem_toDigits_two (n : ℕ) : ∀ c ∈ Nat.toDigits 2 n, c = '0' ∨ c = '1' := by
  refine Str.toDigits_induction (by decide) (P := fun _ s => ∀ c ∈ s, c = '0' ∨ c = '1') ?_ ?_ n
  · intro d hd c hc
    rw [List.mem_singleton.mp hc]
    have hdigit : ∀ d < 2, d.digitChar = '0' ∨ d.digitChar = '1' := by decide
    exact hdigit d hd
  · intro n d hd ih c hc
    have hdigit : ∀ d < 2, d.digitChar = '0' ∨ d.digitChar = '1' := by decide
    rcases List.mem_append.mp hc with hc | hc
    · exact ih c hc
    · rw [List.mem_singleton.mp hc]
      exact hdigit d hd

theorem readLine_time (t : ℕ) : readLine ('#' :: Nat.toDigits 10 t) = some (.time t) := by
  rw [readLine, Str.value_toDigits]

theorem readLine_bit {v : ℕ} (hv : v < 2) (id : Str) :
    readLine (Nat.toDigits 10 v ++ id) = some (.change id v) := by
  rcases (by omega : v = 0 ∨ v = 1) with rfl | rfl <;> rfl

theorem readLine_bits (v : ℕ) {id : Str} (hid : ' ' ∉ id) :
    readLine ('b' :: Nat.toDigits 2 v ++ ' ' :: id) = some (.change id v) := by
  have hbits : ' ' ∉ Nat.toDigits 2 v := fun h => by
    rcases mem_toDigits_two v _ h with h | h <;> exact absurd h (by decide)
  have hsplit : (Nat.toDigits 2 v ++ ' ' :: id).splitOn ' ' = [Nat.toDigits 2 v, id] := by
    rw [List.splitOn_append_cons_self_of_not_mem hbits, List.splitOn_eq_singleton hid]
  rw [List.cons_append, readLine, hsplit]
  simp only [binary_toDigits]

theorem readLine_var {kind id : Str} (w : ℕ) (hkind : ' ' ∉ kind) (hid : ' ' ∉ id) (rest : Str) :
    readLine (varKey ++ ' ' :: (kind ++ ' ' :: (Nat.toDigits 10 w ++ ' ' :: (id ++ ' ' :: rest)))) =
      some (.var w id) := by
  have hwidth : ' ' ∉ Nat.toDigits 10 w := fun h => absurd (Str.solid_toDigits w _ h) (by decide)
  have hsplit : (varKey ++ ' ' :: (kind ++ ' ' :: (Nat.toDigits 10 w ++ ' ' ::
      (id ++ ' ' :: rest)))).splitOn ' ' =
      varKey :: kind :: Nat.toDigits 10 w :: id :: rest.splitOn ' ' := by
    rw [List.splitOn_append_cons_self_of_not_mem (by decide),
      List.splitOn_append_cons_self_of_not_mem hkind,
      List.splitOn_append_cons_self_of_not_mem hwidth, List.splitOn_append_cons_self_of_not_mem hid]
  have hline : ∀ t, readLine (varKey ++ t) = readVar (varKey ++ t) := fun t => rfl
  rw [hline, readVar, hsplit]
  simp only [if_true, Str.value_toDigits]

end Vcd
end Xc7Tools
