/-
# openila: the probe map

The file `openila_merge.py` writes, a line `<bit> <name>` for each probe bit,
as the script and the GUI read it and make buses of it. The script takes a
line apart at white space and raises a ValueError at one that is not two
fields; the GUI takes it apart at each blank and passes over it then. On the
lines of a map they find the same buses (`busesOf_loadMap`).

Key definitions: `loadMap`, `busesOf`, `MainWindow.loadMap`,
`MainWindow.rebuildTriggerTable`, `MapLine`.
Key theorems: `columns_eq`, `busesOf_loadMap`.
-/
import Mathlib.Data.List.Sort
import Mathlib.Order.Fin.Basic
import Xc7Tools.Lib.Decimal
import Xc7Tools.Lib.Dict

namespace Xc7Tools
namespace Openila

open Str

/-- The name of a bus and its bits, low to high: an item of `buses`, and a `Signal` of `sigs_`. -/
abbrev Bus := Str × List ℤ

/-- `struct Signal` of `waveform.h`, of bits that are not negative: a name and the probe bits, LSB
first. -/
structure Signal where
  name : Str
  bits : List ℕ

/-- `if buses and buses[-1][0] == b: buses[-1][1].append(k)`, `else: buses.append((b, [k]))`; the
GUI does the same with `sigs_.last()`. -/
def appendBit (buses : List Bus) (b : Str) (k : ℤ) : List Bus :=
  match buses.getLast? with
  | some (name, bits) =>
    if name = b then buses.dropLast ++ [(name, bits ++ [k])] else buses ++ [(b, [k])]
  | none => buses ++ [(b, [k])]

/-! ### The script -/

/-- `for l in open(path)`: there is no line after the last line break. -/
def fileLines (text : Str) : List Str :=
  let ls := linesOf text
  if ls.getLast? = some [] then ls.dropLast else ls

/-- `k, n = l.split(); names[int(k)] = n` -/
def loadLine (names : Dict ℤ Str) (l : Str) : Option (Dict ℤ Str) :=
  match fields l with
  | [k, n] => (int? k).map fun k => names.set k n
  | _ => none

/-- `load_map`, of the text of the file; none is a ValueError. -/
def loadMap (text : Str) : Option (Dict ℤ Str) := (fileLines text).foldlM loadLine Dict.empty

/-- `s.rsplit(sep, 1)[0]` -/
def rsplitHead (sep : Char) (s : Str) : Str :=
  if sep ∈ s then (s.rdropWhile (· != sep)).dropLast else s

/-- `n.rsplit('[', 1)[0] if n.endswith(']') else n` -/
def busName (n : Str) : Str := if n.getLast? = some ']' then rsplitHead '[' n else n

/-- `[(k, names[k]) for k in sorted(names)]` -/
def columns (names : Dict ℤ Str) : List (ℤ × Str) :=
  (names.keys.insertionSort (· ≤ ·)).map fun k => (k, (names.get? k).getD [])

/-- `f'p{k}'` -/
def unnamed (k : ℕ) : Str := 'p' :: Nat.toDigits 10 k

/-- `buses_of` -/
def busesOf (names : Dict ℤ Str) (width : ℕ) : List Bus :=
  let cols := if names.items ≠ [] then columns names
    else (List.range width).map fun k : ℕ => ((k : ℤ), unnamed k)
  cols.foldl (fun buses c => appendBit buses (busName c.2) c.1) []

/-! ### The GUI -/

namespace MainWindow

/-- `QString::lastIndexOf(c)` -/
def lastIndexOf (c : Char) (s : Str) : ℤ :=
  match s.reverse.findIdx? (· == c) with
  | some i => (s.length - 1 - i : ℕ)
  | none => -1

/-- `QString::left(n)`: all of the text when `n` is negative or past its end. -/
def left (s : Str) (n : ℤ) : Str := if 0 ≤ n ∧ n ≤ s.length then s.take n.toNat else s

/-- `QString::trimmed()` -/
def trimmed (s : Str) : Str := (s.dropWhile isIntSpace).rdropWhile isIntSpace

/-- The digits of a number, or 0: what is not one, or is none of 32 bits. -/
def intOfDigits (negative : Bool) (ds : Str) : ℤ :=
  let v : ℤ := if negative then -value ds else value ds
  if ds ≠ [] ∧ ds.all isAsciiDigit ∧ -2147483648 ≤ v ∧ v < 2147483648 then v else 0

/-- `QString::toInt()` -/
def toInt (s : Str) : ℤ :=
  match trimmed s with
  | '-' :: ds => intOfDigits true ds
  | '+' :: ds => intOfDigits false ds
  | ds => intOfDigits false ds

/-- `names[k] = n` of a `QMap`, which holds its items in the order of the keys. -/
def qmapSet (k : ℤ) (n : Str) : List (ℤ × Str) → List (ℤ × Str)
  | [] => [(k, n)]
  | p :: ps =>
    if k < p.1 then (k, n) :: p :: ps
    else if k = p.1 then (k, n) :: ps
    else p :: qmapSet k n ps

/-- A line of the file: an empty one is passed over, and one that is not two pieces. -/
def loadLine (names : List (ℤ × Str)) (line : Str) : List (ℤ × Str) :=
  let l := trimmed line
  if l = [] then names
  else
    match l.splitOn ' ' with
    | [k, n] => qmapSet (toInt k) n names
    | _ => names

/-- `n.endsWith(']') ? n.left(n.lastIndexOf('[')) : n` -/
def busName (n : Str) : Str := if n.getLast? = some ']' then left n (lastIndexOf '[' n) else n

/-- `sigs_` of `loadMap`, from the text of a file that opens. -/
def loadMap (text : Str) : List Bus :=
  let names := (text.splitOn '\n').foldl loadLine []
  names.foldl (fun sigs it => appendBit sigs (busName it.2) it.1) []

/-- `sigs_` after `rebuildTriggerTable`. -/
def rebuildTriggerTable (sigs : List Bus) (width : ℕ) : List Bus :=
  if sigs = [] then (List.range width).map fun k => (unnamed k, [(k : ℤ)]) else sigs

end MainWindow

/-! ### A map -/

/-- A line of a probe map: a bit of the probe, which is an `int`, and the name of a net. -/
structure MapLine where
  bit : ℕ
  name : Str
  bit_lt : bit < 2 ^ 31
  name_ne : name ≠ []
  solid : Solid name

/-- `f'{k} {n}\n'` -/
def MapLine.text (l : MapLine) : Str := Nat.toDigits 10 l.bit ++ ' ' :: l.name

/-- The text of a map. -/
def mapText (ls : List MapLine) : Str := ls.flatMap fun l => l.text ++ ['\n']

/-! ### Reading the lines -/

theorem not_isIntSpace_of_not_isSpace {c : Char} (h : isSpace c = false) : isIntSpace c = false := by
  rw [isIntSpace, h, Bool.false_and]

/-- A line of a bit and a name. -/
def lineOf (bit : ℕ) (name : Str) : Str := Nat.toDigits 10 bit ++ ' ' :: name

theorem unbroken_lineOf (bit : ℕ) {name : Str} (h : Solid name) : Unbroken (lineOf bit name) := by
  have hblank : Unbroken [' '] := ⟨by decide, by decide⟩
  have hbit := (solid_toDigits bit).unbroken
  have happ : ∀ {s t : Str}, Unbroken s → Unbroken t → Unbroken (s ++ t) := fun hs ht =>
    ⟨fun hm => (List.mem_append.mp hm).elim hs.1 ht.1, fun hm =>
      (List.mem_append.mp hm).elim hs.2 ht.2⟩
  exact happ hbit (happ hblank h.unbroken)

/-- The script's two fields of a line. -/
theorem fields_lineOf (bit : ℕ) {name : Str} (h : Solid name) (hne : name ≠ []) :
    fields (lineOf bit name) = [Nat.toDigits 10 bit, name] := by
  have hname : name.splitOnP isSpace = [name] := List.splitOnP_eq_singleton h
  rw [fields, lineOf, List.splitOnP_append_cons_of_forall_mem (solid_toDigits bit) ' ' (by decide),
    hname]
  simp [Nat.toDigits_ne_nil, hne]

namespace MapLine

variable (l : MapLine)

theorem unbroken_text : Unbroken l.text := unbroken_lineOf l.bit l.solid

/-- The script's two fields of a line. -/
theorem fields_text : fields l.text = [Nat.toDigits 10 l.bit, l.name] :=
  fields_lineOf l.bit l.solid l.name_ne

/-- The GUI's two pieces of a line. -/
theorem splitOn_text : l.text.splitOn ' ' = [Nat.toDigits 10 l.bit, l.name] := by
  have hbit : ' ' ∉ Nat.toDigits 10 l.bit := fun hm => absurd (solid_toDigits l.bit _ hm) (by decide)
  have hname : ' ' ∉ l.name := fun hm => absurd (l.solid _ hm) (by decide)
  rw [text, List.splitOn_append_cons_self_of_not_mem hbit, List.splitOn_eq_singleton hname]

end MapLine

namespace MainWindow

/-- A text without white space at its ends is not trimmed. -/
theorem trimmed_eq_self {c d : Char} {s t : Str} (hs : c :: s = t ++ [d])
    (hc : isIntSpace c = false) (hd : isIntSpace d = false) : trimmed (c :: s) = c :: s := by
  have hdrop : (c :: s).dropWhile isIntSpace = c :: s := by
    rw [List.dropWhile_cons, hc]
    rfl
  have hrdrop : (t ++ [d]).rdropWhile isIntSpace = t ++ [d] := by
    rw [List.rdropWhile_concat, hd]
    rfl
  rw [trimmed, hdrop, hs, hrdrop]

theorem trimmed_digits (n : ℕ) : trimmed (Nat.toDigits 10 n) = Nat.toDigits 10 n := by
  have hspace : ∀ c ∈ Nat.toDigits 10 n, isIntSpace c = false := fun c hc =>
    not_isIntSpace_of_not_isSpace (solid_toDigits n c hc)
  have hne : Nat.toDigits 10 n ≠ [] := Nat.toDigits_ne_nil
  obtain ⟨c, s, hs⟩ := List.exists_cons_of_ne_nil hne
  have hlast : c :: s = (Nat.toDigits 10 n).dropLast ++ [(Nat.toDigits 10 n).getLast hne] := by
    rw [List.dropLast_append_getLast, hs]
  rw [hs]
  exact trimmed_eq_self hlast (hspace c (hs ▸ List.mem_cons_self)) (hspace _ (List.getLast_mem hne))

/-- `toInt` of the text of an `int`. -/
theorem toInt_toDigits {n : ℕ} (hn : n < 2 ^ 31) : toInt (Nat.toDigits 10 n) = n := by
  have hall : ∀ c ∈ Nat.toDigits 10 n, isAsciiDigit c = true := fun _ =>
    isAsciiDigit_of_mem_toDigits
  have hint : intOfDigits false (Nat.toDigits 10 n) = n := by
    have hcond : Nat.toDigits 10 n ≠ [] ∧ (Nat.toDigits 10 n).all isAsciiDigit ∧
        -2147483648 ≤ (value (Nat.toDigits 10 n) : ℤ) ∧
          (value (Nat.toDigits 10 n) : ℤ) < 2147483648 := by
      refine ⟨Nat.toDigits_ne_nil, List.all_eq_true.mpr hall, ?_⟩
      rw [value_toDigits]
      omega
    rw [intOfDigits]
    simp only [Bool.false_eq_true, if_false]
    rw [if_pos hcond, value_toDigits]
  obtain ⟨c, s, hs⟩ := List.exists_cons_of_ne_nil (Nat.toDigits_ne_nil (n := n) (b := 10))
  have hc : isAsciiDigit c = true := hall c (hs ▸ List.mem_cons_self)
  rw [toInt, trimmed_digits]
  split
  · next r h => exact absurd (List.cons.inj (hs.symm.trans h)).1 (ne_of_isAsciiDigit hc (by decide))
  · next r h => exact absurd (List.cons.inj (hs.symm.trans h)).1 (ne_of_isAsciiDigit hc (by decide))
  · exact hint

/-- A line of a map is one item. -/
theorem loadLine_text (names : List (ℤ × Str)) (l : MapLine) :
    loadLine names l.text = qmapSet l.bit l.name names := by
  obtain ⟨c, s, hs⟩ := List.exists_cons_of_ne_nil (Nat.toDigits_ne_nil (n := l.bit) (b := 10))
  have hc : isIntSpace c = false :=
    not_isIntSpace_of_not_isSpace (solid_toDigits l.bit c (hs ▸ List.mem_cons_self))
  have hd : isIntSpace (l.name.getLast l.name_ne) = false :=
    not_isIntSpace_of_not_isSpace (l.solid _ (List.getLast_mem l.name_ne))
  have htext : l.text = c :: (s ++ ' ' :: l.name) := by rw [MapLine.text, hs, List.cons_append]
  have hlast : c :: (s ++ ' ' :: l.name) =
      (c :: (s ++ ' ' :: l.name.dropLast)) ++ [l.name.getLast l.name_ne] := by
    conv_lhs => rw [← List.dropLast_append_getLast l.name_ne]
    simp
  have htrim : trimmed l.text = l.text := by
    rw [htext]
    exact trimmed_eq_self hlast hc hd
  have hne : l.text ≠ [] := by
    rw [htext]
    exact List.cons_ne_nil _ _
  simp only [loadLine, htrim, if_neg hne, l.splitOn_text, toInt_toDigits l.bit_lt]

end MainWindow

theorem mapText_eq (ls : List MapLine) :
    mapText ls = (ls.map MapLine.text).flatMap (· ++ ['\n']) := by
  rw [mapText, List.flatMap_map]

/-- The lines of the text of a map, with an empty one after the last line break. -/
theorem splitOn_mapText (ls : List MapLine) :
    (mapText ls).splitOn '\n' = ls.map MapLine.text ++ [[]] := by
  rw [mapText_eq, splitOn_flatMap]
  rw [List.forall_mem_map]
  exact fun l _ => l.unbroken_text.1

/-- The lines of a file whose lines are all ended. -/
theorem fileLines_flatMap {ls : List Str} (h : ∀ l ∈ ls, Unbroken l) :
    fileLines (ls.flatMap (· ++ ['\n'])) = ls := by
  have hcr : '\r' ∉ ls.flatMap (· ++ ['\n']) := by
    intro hm
    obtain ⟨l, hl, hm⟩ := List.mem_flatMap.mp hm
    rcases List.mem_append.mp hm with hm | hm
    · exact (h l hl).2 hm
    · exact absurd (List.mem_singleton.mp hm) (by decide)
  have hlines : linesOf (ls.flatMap (· ++ ['\n'])) = ls ++ [[]] := by
    rw [linesOf, universal_of_not_mem hcr, splitOn_flatMap fun l hl => (h l hl).1]
  simp [fileLines, hlines]

theorem fileLines_mapText (ls : List MapLine) : fileLines (mapText ls) = ls.map MapLine.text := by
  rw [mapText_eq, fileLines_flatMap]
  rw [List.forall_mem_map]
  exact fun l _ => l.unbroken_text

/-- The items of a map: a bit and a name each. -/
def mapItems (ls : List MapLine) : List (ℤ × Str) := ls.map fun l => ((l.bit : ℤ), l.name)

/-- The script's dictionary of a map. -/
theorem loadMap_mapText (ls : List MapLine) :
    loadMap (mapText ls) = some (Dict.empty.update (mapItems ls)) := by
  have hline : ∀ (d : Dict ℤ Str) (l : MapLine), loadLine d l.text = some (d.set l.bit l.name) :=
    fun d l => by
      have hlt : l.bit < 10 ^ 20 := l.bit_lt.trans (by decide)
      simp [loadLine, l.fields_text, int?_toDigits_of_lt hlt]
  have hfold : ∀ (ls : List MapLine) (d : Dict ℤ Str),
      (ls.map MapLine.text).foldlM loadLine d = some (d.update (mapItems ls)) := by
    intro ls
    induction ls with
    | nil => exact fun d => rfl
    | cons l ls ih =>
      intro d
      rw [List.map_cons, List.foldlM_cons, hline, Option.bind_eq_bind, Option.bind_some, ih]
      rfl
  rw [loadMap, fileLines_mapText, hfold]

/-- The GUI's items of a map. -/
theorem MainWindow.names_mapText (ls : List MapLine) :
    ((mapText ls).splitOn '\n').foldl MainWindow.loadLine [] =
      (mapItems ls).foldl (fun q p => MainWindow.qmapSet p.1 p.2 q) [] := by
  have hnil : ∀ q, MainWindow.loadLine q [] = q := fun q => rfl
  rw [splitOn_mapText, List.foldl_append, List.foldl_cons, List.foldl_nil, hnil, List.foldl_map,
    mapItems, List.foldl_map]
  simp only [MainWindow.loadLine_text]

/-! ### The items in the order of their bits -/

namespace MainWindow

/-- The items of a `QMap` stand in the order of their keys. -/
def Ordered (q : List (ℤ × Str)) : Prop := q.Pairwise fun p p' => p.1 < p'.1

theorem mem_qmapSet_imp {k : ℤ} {n : Str} {p : ℤ × Str} : ∀ {q : List (ℤ × Str)},
    p ∈ qmapSet k n q → p = (k, n) ∨ p ∈ q
  | [], h => Or.inl (List.mem_singleton.mp h)
  | p₀ :: q, h => by
    unfold qmapSet at h
    split_ifs at h with h1 h2
    · exact List.mem_cons.mp h
    · exact (List.mem_cons.mp h).imp id fun h => List.mem_cons_of_mem _ h
    · rcases List.mem_cons.mp h with rfl | h
      · exact Or.inr List.mem_cons_self
      · exact (mem_qmapSet_imp h).imp id fun h => List.mem_cons_of_mem _ h

theorem ordered_qmapSet {k : ℤ} {n : Str} : ∀ {q : List (ℤ × Str)}, Ordered q →
    Ordered (qmapSet k n q)
  | [], _ => List.pairwise_singleton _ _
  | p₀ :: q, h => by
    obtain ⟨hp, hq⟩ := List.pairwise_cons.mp h
    unfold qmapSet
    split_ifs with h1 h2
    · refine List.pairwise_cons.mpr ⟨fun p hmem => ?_, h⟩
      rcases List.mem_cons.mp hmem with rfl | hmem
      · exact h1
      · exact h1.trans (hp p hmem)
    · exact List.pairwise_cons.mpr ⟨fun p hmem => h2 ▸ hp p hmem, hq⟩
    · refine List.pairwise_cons.mpr ⟨fun p hmem => ?_, ordered_qmapSet hq⟩
      rcases mem_qmapSet_imp hmem with rfl | hmem
      · exact lt_of_le_of_ne (not_lt.mp h1) (Ne.symm h2)
      · exact hp p hmem

/-- What a `QMap` holds after `names[k] = n`. -/
theorem find?_qmapSet (k k' : ℤ) (n : Str) : ∀ q : List (ℤ × Str),
    (qmapSet k n q).find? (fun p => p.1 = k') =
      if k = k' then some (k, n) else q.find? fun p => p.1 = k'
  | [] => by by_cases h : k = k' <;> simp [qmapSet, h]
  | p₀ :: q => by
    unfold qmapSet
    by_cases h1 : k < p₀.1
    · rw [if_pos h1]
      by_cases h : k = k' <;> simp [h]
    · rw [if_neg h1]
      by_cases h2 : k = p₀.1
      · by_cases h : k = k' <;> simp [← h2, h]
      · rw [if_neg h2]
        by_cases h3 : p₀.1 = k'
        · have h : k ≠ k' := fun e => h2 (e.trans h3.symm)
          rw [if_neg h, List.find?_cons_of_pos (by simpa using h3),
            List.find?_cons_of_pos (by simpa using h3)]
        · rw [List.find?_cons_of_neg (by simpa using h3), List.find?_cons_of_neg (by simpa using h3),
            find?_qmapSet k k' n q]

/-- The items of a `QMap` that holds what a dictionary does are the sorted items of that. -/
theorem columns_eq {q : List (ℤ × Str)} (hq : Ordered q) {d : Dict ℤ Str}
    (h : ∀ k, (q.find? fun p => p.1 = k).map Prod.snd = d.get? k) : q = columns d := by
  have hlt : (q.map Prod.fst).SortedLT := List.Pairwise.sortedLT (List.pairwise_map.mpr hq)
  have hget : ∀ k, (⟨q, hlt.nodup⟩ : Dict ℤ Str).get? k = d.get? k := h
  have hkeys : q.map Prod.fst = d.keys.insertionSort (· ≤ ·) := by
    have hsorted : (d.keys.insertionSort (· ≤ ·)).SortedLT := by
      refine (List.pairwise_insertionSort _ _).sortedLE.sortedLT_of_nodup ?_
      exact (List.perm_insertionSort _ d.keys).nodup_iff.mpr d.nodup
    refine hlt.eq_of_mem_iff hsorted fun k => ?_
    rw [List.mem_insertionSort]
    change k ∈ (⟨q, hlt.nodup⟩ : Dict ℤ Str) ↔ k ∈ d
    rw [Dict.mem_iff, Dict.mem_iff, hget]
  rw [columns, ← hkeys, List.map_map]
  conv_lhs => rw [← List.map_id q]
  refine List.map_congr_left fun p hp => ?_
  have hval : d.get? p.1 = some p.2 := by
    rw [← hget]
    exact Dict.get?_eq_some.mpr hp
  simp [hval]

/-- The items of a map, put into a `QMap` and into a dictionary. -/
theorem foldl_qmapSet_eq (ps : List (ℤ × Str)) :
    ps.foldl (fun q p => qmapSet p.1 p.2 q) [] = columns (Dict.empty.update ps) := by
  have hinv : Ordered (ps.foldl (fun q p => qmapSet p.1 p.2 q) []) ∧
      ∀ k, ((ps.foldl (fun q p => qmapSet p.1 p.2 q) []).find? fun p => p.1 = k).map Prod.snd =
        (Dict.empty.update ps).get? k := by
    induction ps using List.reverseRecOn with
    | nil => exact ⟨List.Pairwise.nil, fun k => rfl⟩
    | append_singleton ps p ih =>
      rw [List.foldl_append, List.foldl_cons, List.foldl_nil, Dict.update_concat]
      refine ⟨ordered_qmapSet ih.1, fun k => ?_⟩
      rw [find?_qmapSet, Dict.get?_set, ← ih.2 k]
      split_ifs <;> rfl
  exact columns_eq hinv.1 hinv.2

end MainWindow

/-! ### Buses -/

/-- The two cut a name at its last bracket. -/
theorem left_lastIndexOf (c : Char) (s : Str) :
    MainWindow.left s (MainWindow.lastIndexOf c s) = rsplitHead c s := by
  by_cases hc : c ∈ s
  · obtain ⟨b', a', hs, hb⟩ := List.eq_append_cons_of_mem (List.mem_reverse.mpr hc)
    obtain ⟨a, b, rfl, rfl⟩ : ∃ a b : Str, a' = a.reverse ∧ b' = b.reverse :=
      ⟨a'.reverse, b'.reverse, by simp, by simp⟩
    have hs : s = a ++ c :: b := by
      rw [← List.reverse_reverse s, hs]
      simp
    have hb : ∀ d ∈ b, (d != c) = true := fun d hd => by
      rw [bne_iff_ne]
      rintro rfl
      exact hb (List.mem_reverse.mpr hd)
    have hlast : MainWindow.lastIndexOf c s = a.length := by
      have hfind : s.reverse.findIdx? (· == c) = some b.length := by
        have hnone : b.reverse.findIdx? (· == c) = none :=
          List.findIdx?_eq_none_iff.mpr fun d hd => by
            simpa using hb d (List.mem_reverse.mp hd)
        rw [hs, List.reverse_append, List.reverse_cons, List.append_assoc, List.findIdx?_append,
          hnone]
        simp [List.findIdx?_cons]
      have hlen : s.length - 1 - b.length = a.length := by
        rw [hs, List.length_append, List.length_cons]
        omega
      rw [MainWindow.lastIndexOf, hfind]
      exact congrArg _ hlen
    have hhead : (s.rdropWhile (· != c)).dropLast = a := by
      have hcons : s.rdropWhile (· != c) = a ++ [c] := by
        rw [hs, rdropWhile_append_cons (p := (· != c)) (by simp),
          List.rdropWhile_eq_nil_iff.mpr fun d hd => hb d hd]
      rw [hcons, List.dropLast_concat]
    have hle : (0 : ℤ) ≤ a.length ∧ (a.length : ℤ) ≤ s.length := by
      rw [hs, List.length_append]
      omega
    rw [MainWindow.left, hlast, if_pos hle, Int.toNat_natCast, rsplitHead, if_pos hc, hhead, hs,
      List.take_left]
  · have hnone : s.reverse.findIdx? (· == c) = none := List.findIdx?_eq_none_iff.mpr fun d hd => by
      rw [beq_eq_false_iff_ne]
      rintro rfl
      exact hc (List.mem_reverse.mp hd)
    rw [MainWindow.lastIndexOf, hnone, rsplitHead, if_neg hc]
    rfl

theorem busName_eq (n : Str) : MainWindow.busName n = busName n := by
  rw [MainWindow.busName, busName, left_lastIndexOf]

/-- The buses of some columns. -/
theorem appendBit_ne_nil (buses : List Bus) (b : Str) (k : ℤ) : appendBit buses b k ≠ [] := by
  unfold appendBit
  split
  · split_ifs <;> simp
  · simp

theorem foldl_appendBit_ne_nil {cols : List (ℤ × Str)} (h : cols ≠ []) :
    cols.foldl (fun buses c => appendBit buses (busName c.2) c.1) [] ≠ [] := by
  obtain ⟨init, c, rfl⟩ : ∃ init c, cols = init ++ [c] :=
    ⟨_, _, (List.dropLast_append_getLast h).symm⟩
  rw [List.foldl_append, List.foldl_cons, List.foldl_nil]
  exact appendBit_ne_nil _ _ _

theorem busName_unnamed (k : ℕ) : busName (unnamed k) = unnamed k := by
  have hne : Nat.toDigits 10 k ≠ [] := Nat.toDigits_ne_nil
  have hlast : (unnamed k).getLast? ≠ some ']' := by
    rw [unnamed, List.getLast?_cons_of_ne_nil hne, List.getLast?_eq_some_getLast hne]
    intro h
    have hdigit := isAsciiDigit_of_mem_toDigits (List.getLast_mem hne)
    rw [Option.some.inj h] at hdigit
    cases hdigit
  rw [busName, if_neg hlast]

/-- Without names there is a bus for each bit. -/
theorem foldl_unnamed (width : ℕ) :
    ((List.range width).map fun k : ℕ => ((k : ℤ), unnamed k)).foldl
      (fun buses c => appendBit buses (busName c.2) c.1) [] =
      (List.range width).map fun k => (unnamed k, [(k : ℤ)]) := by
  induction width with
  | zero => rfl
  | succ n ih =>
    rw [List.range_succ, List.map_append, List.foldl_append, ih, List.map_singleton,
      List.foldl_cons, List.foldl_nil, busName_unnamed, List.map_append, List.map_singleton]
    cases n with
    | zero => rfl
    | succ m =>
      -- the bus before has another name
      have hne : unnamed m ≠ unnamed (m + 1) := fun h => by
        have := toDigits_injective (List.cons.inj h).2
        omega
      rw [List.range_succ, List.map_append, List.map_singleton, appendBit, List.getLast?_concat]
      exact if_neg hne

/-- **The script and the GUI make the same buses of a map.** -/
theorem busesOf_loadMap (ls : List MapLine) (width : ℕ) :
    (loadMap (mapText ls)).map (fun names => busesOf names width) =
      some (MainWindow.rebuildTriggerTable (MainWindow.loadMap (mapText ls)) width) := by
  set d : Dict ℤ Str := Dict.empty.update (mapItems ls) with hd
  have hgui : MainWindow.loadMap (mapText ls) =
      (columns d).foldl (fun buses c => appendBit buses (busName c.2) c.1) [] := by
    simp only [MainWindow.loadMap, MainWindow.names_mapText, MainWindow.foldl_qmapSet_eq,
      busName_eq, hd]
  rw [loadMap_mapText, Option.map_some, hgui, ← hd, MainWindow.rebuildTriggerTable, busesOf]
  by_cases hitems : d.items = []
  · have hcols : columns d = [] := by simp [columns, Dict.keys, hitems]
    rw [if_neg (not_not.mpr hitems), hcols, List.foldl_nil, if_pos rfl, foldl_unnamed]
  · have hcols : columns d ≠ [] := by
      have hlen : (columns d).length = d.items.length := by
        simp [columns, Dict.keys, List.length_insertionSort]
      intro h
      rw [h] at hlen
      exact hitems (List.length_eq_zero_iff.mp hlen.symm)
    rw [if_pos hitems, if_neg (foldl_appendBit_ne_nil hcols)]

end Openila
end Xc7Tools
