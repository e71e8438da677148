/-
# Device trees

A device tree is a tree of nodes with named properties, each a string of
bytes: some text with a NUL after every string of a list, or big-endian cells
of 32 bits, or bytes. `Node.text` prints a tree the way `dtc -O dts` does,
guessing which of these a property is. What is looked for in such a text and
found stands at a place of the tree, in the name of a node or in a property.

Key definitions: `Node`, `Node.nodes`, `strings`, `cells`, `Node.text`, `Place`, `Prints`.
Key theorems: `prints_text`, `Prints.place`.
-/
import Xc7Tools.Lib.Lines

namespace Xc7Tools
namespace Payload

open Str

abbrev Bytes := List UInt8

/-- A node: its name with its unit address, its properties and its children. -/
inductive Node where
  | mk (name : Str) (props : List (Str × Bytes)) (children : List Node)

namespace Node

def name : Node → Str
  | mk n _ _ => n

def props : Node → List (Str × Bytes)
  | mk _ ps _ => ps

mutual

/-- The node and the nodes below it. -/
def nodes : Node → List Node
  | mk n ps cs => mk n ps cs :: nodesOf cs

def nodesOf : List Node → List Node
  | [] => []
  | c :: cs => nodes c ++ nodesOf cs

end

/-- The value of a property, empty when the node has none of that name. -/
def prop (n : Node) (k : Str) : Bytes := ((n.props.find? fun p => p.1 = k).map Prod.snd).getD []

end Node

/-- A text, a byte for each character. -/
def bytesOf (s : Str) : Bytes := s.map fun c => c.toNat.toUInt8

/-- The text of some bytes. -/
def textOf (bs : Bytes) : Str := bs.map fun b => Char.ofNat b.toNat

/-- The strings of a list of them: what a NUL follows. -/
def strings (v : Bytes) : List Str := ((v.splitOn 0).dropLast).map textOf

/-- The cells of a value, 32 bits each. -/
def cells : Bytes → List ℕ
  | a :: b :: c :: d :: v =>
    (((a.toNat * 256 + b.toNat) * 256 + c.toNat) * 256 + d.toNat) :: cells v
  | _ => []

/-- `%0wx` of a byte or a cell. -/
def padHex (w n : ℕ) : Str :=
  let s := Nat.toDigits 16 n
  List.replicate (w - s.length) '0' ++ s

/-! ### Printing -/

/-- A list of printable strings, none of them empty. -/
def isStrings (v : Bytes) : Bool :=
  v.getLast? == some 0 && (strings v).all fun s =>
    !s.isEmpty && s.all fun c => 0x20 ≤ c.toNat && c.toNat < 0x7F

/-- A property as `dtc` prints it. -/
def propText (p : Str × Bytes) : Str :=
  if p.2 = [] then p.1 ++ [';']
  else if isStrings p.2 then
    p.1 ++ " = \"".toList ++ "\\0".toList.intercalate (strings p.2) ++ "\";".toList
  else if p.2.length % 4 = 0 then
    p.1 ++ " = <".toList ++
      [' '].intercalate ((cells p.2).map fun n => "0x".toList ++ padHex 2 n) ++ ">;".toList
  else
    p.1 ++ " = [".toList ++ [' '].intercalate (p.2.map fun b => padHex 2 b.toNat) ++ "];".toList

mutual

/-- A node at a depth, as `dtc` prints it. -/
def Node.lines : ℕ → Node → List Str
  | depth, .mk n ps cs =>
    (List.replicate depth '\t' ++ (if n = [] then ['/'] else n) ++ " \x7b".toList) ::
      ps.map (fun p => List.replicate (depth + 1) '\t' ++ propText p) ++
      linesOf (depth + 1) cs ++ [List.replicate depth '\t' ++ "\x7d;".toList]

def Node.linesOf : ℕ → List Node → List Str
  | _, [] => []
  | depth, c :: cs => [] :: Node.lines depth c ++ linesOf depth cs

end

/-- The text of a tree. -/
def Node.text (t : Node) : Str :=
  ["/dts-v1/;".toList, []].flatMap (· ++ ['\n']) ++ (t.lines 0).flatMap (· ++ ['\n'])

/-! ### The places of a text -/

/-- A place of a tree's text: a line around the nodes, the name of a node, or
a property of one. -/
inductive Place where
  | frame (s : Str)
  | name (n : Node)
  | prop (n : Node) (p : Str × Bytes)

def frames : List Str := ["/dts-v1/;".toList, [], "\x7d;".toList]

/-- The places around and in some nodes. -/
def placesOf (ns : List Node) : List Place :=
  frames.map Place.frame ++ ns.flatMap fun n => .name n :: n.props.map (.prop n)

def Node.places (t : Node) : List Place := placesOf t.nodes

/-- What stands at a place, where `shown` is what a property is printed as. -/
def Place.text (shown : Str × Bytes → Str) : Place → Str
  | frame s => s
  | name n => (if n.name = [] then ['/'] else n.name) ++ " \x7b".toList
  | prop _ p => shown p

/-- A line of a text: one of these places behind some tabs. -/
def Shows (shown : Str × Bytes → Str) (ps : List Place) (l : Str) : Prop :=
  ∃ depth, ∃ pl ∈ ps, l = List.replicate depth '\t' ++ pl.text shown

/-- A tree is printed line by line, and there is a place of it in every line. -/
def Prints (shown : Str × Bytes → Str) (print : Node → Str) : Prop :=
  ∀ t, ∃ ls : List Str, print t = ls.flatMap (· ++ ['\n']) ∧ ∀ l ∈ ls, Shows shown t.places l

variable {shown : Str × Bytes → Str} {print : Node → Str}

theorem Shows.mono {ps qs : List Place} {l : Str} (hsub : ps ⊆ qs) (h : Shows shown ps l) :
    Shows shown qs l := by
  obtain ⟨depth, pl, hpl, hl⟩ := h
  exact ⟨depth, pl, hsub hpl, hl⟩

theorem shows_frame {s : Str} (hs : s ∈ frames) (depth : ℕ) (ns : List Node) :
    Shows shown (placesOf ns) (List.replicate depth '\t' ++ s) :=
  ⟨depth, .frame s, List.mem_append_left _ (List.mem_map_of_mem hs), rfl⟩

theorem placesOf_subset {ms ns : List Node} (h : ms ⊆ ns) : placesOf ms ⊆ placesOf ns := by
  refine List.append_subset.mpr ⟨List.subset_append_left _ _, fun pl hpl => ?_⟩
  obtain ⟨n, hn, hpl⟩ := List.mem_flatMap.mp hpl
  exact List.mem_append_right _ (List.mem_flatMap.mpr ⟨n, h hn, hpl⟩)

mutual

theorem shows_lines : ∀ (depth : ℕ) (t : Node), ∀ l ∈ t.lines depth, Shows propText t.places l
  | depth, .mk n ps cs => fun l hl => by
    have hself : Node.mk n ps cs ∈ (Node.mk n ps cs).nodes := by
      rw [Node.nodes]
      exact List.mem_cons_self
    have hplace : ∀ pl ∈ Place.name (.mk n ps cs) :: ps.map (.prop (.mk n ps cs)),
        pl ∈ (Node.mk n ps cs).places := fun pl hpl =>
      List.mem_append_right _ (List.mem_flatMap.mpr ⟨_, hself, hpl⟩)
    simp only [Node.lines, List.mem_append, List.mem_cons, List.mem_map, List.not_mem_nil, or_false] at hl
    obtain ((rfl | ⟨p, hp, rfl⟩) | hl) | rfl := hl
    · refine ⟨depth, _, hplace _ List.mem_cons_self, ?_⟩
      rw [List.append_assoc]
      rfl
    · exact ⟨depth + 1, _, hplace _ (List.mem_cons_of_mem _ (List.mem_map_of_mem hp)), rfl⟩
    · have hsub : Node.nodesOf cs ⊆ (Node.mk n ps cs).nodes := by
        rw [Node.nodes]
        exact List.subset_cons_self _ _
      exact (shows_linesOf (depth + 1) cs l hl).mono (placesOf_subset hsub)
    · exact shows_frame (by decide) depth _

theorem shows_linesOf : ∀ (depth : ℕ) (cs : List Node), ∀ l ∈ Node.linesOf depth cs,
    Shows propText (placesOf (Node.nodesOf cs)) l
  | _, [] => fun l hl => by
    rw [Node.linesOf] at hl
    cases hl
  | depth, c :: cs => fun l hl => by
    simp only [Node.linesOf, List.cons_append, List.mem_cons, List.mem_append] at hl
    rw [Node.nodesOf]
    rcases hl with rfl | hl | hl
    · exact shows_frame (by decide) 0 _
    · exact (shows_lines depth c l hl).mono (placesOf_subset (List.subset_append_left _ _))
    · exact (shows_linesOf depth cs l hl).mono (placesOf_subset (List.subset_append_right _ _))

end

/-- The text of a tree is one. -/
theorem prints_text : Prints propText Node.text := fun t => by
  have hhead : ∀ l ∈ ["/dts-v1/;".toList, []], l ∈ frames := by decide
  refine ⟨["/dts-v1/;".toList, []] ++ t.lines 0, List.flatMap_append.symm, fun l hl => ?_⟩
  rcases List.mem_append.mp hl with hl | hl
  · exact shows_frame (hhead l hl) 0 _
  · exact shows_lines 0 t l hl

/-- **What is found in a printed tree stands at a place of it.** -/
theorem Prints.place (hp : Prints shown print) {t : Node} {w : Str} (hn : '\n' ∉ w) (ht : '\t' ∉ w)
    (h : w <:+: print t) : ∃ pl ∈ t.places, w <:+: pl.text shown := by
  rcases eq_or_ne w [] with rfl | hw
  · exact ⟨.frame [], List.mem_append_left _ (List.mem_map_of_mem (by decide)), List.nil_infix⟩
  obtain ⟨ls, hls, hall⟩ := hp t
  rw [hls] at h
  obtain ⟨l, hl, hin⟩ := infix_of_infix_lines hw hn h
  obtain ⟨depth, pl, hpl, rfl⟩ := hall l hl
  exact ⟨pl, hpl, infix_of_infix_replicate ht hin⟩

end Payload
end Xc7Tools
