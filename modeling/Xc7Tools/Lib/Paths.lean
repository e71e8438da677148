/-
# POSIX paths

Paths, `os.path.join`, and the slashes and components that `os.path.normpath`
keeps. A relative path without `..` stays under the path it is joined to as soon
as it names something (`under_join`), and it does where `os.path.isfile` finds a
file: whatever links a file system has, a path that ends in a slash or a dot is
a directory's (`FileSystem.exists_isName`).

Key definitions: `join`, `normalise`, `Under`, `FileSystem`, `FileSystem.isfile`.
Key theorems: `normalise_join`, `under_join`, `Under.of_join`, `FileSystem.exists_isName`.
-/
import Xc7Tools.Lib.Str

namespace Xc7Tools
namespace Paths

/-! ### os.path -/

def parts (p : Str) : List Str := p.splitOn '/'

/-- `os.path.isabs(p)` -/
def isAbs (p : Str) : Bool := p.head? == some '/'

/-- `os.path.join(p, q)` -/
def join (p q : Str) : Str :=
  if isAbs q then q else if p = [] ∨ p.getLast? = some '/' then p ++ q else p ++ '/' :: q

def dotdot : Str := ['.', '.']

/-- The component is neither empty nor a dot. -/
def isName (c : Str) : Bool := c ≠ [] ∧ c ≠ ['.']

/-- The slashes in front that `os.path.normpath` keeps: two are not the same as one. -/
def leading (p : Str) : ℕ :=
  match (p.takeWhile (· == '/')).length with
  | 0 => 0
  | 2 => 2
  | _ => 1

/-- What `os.path.normpath` does with one component. -/
def step (rooted : Bool) (comps : List Str) (c : Str) : List Str :=
  if !isName c then comps
  else if c ≠ dotdot ∨ (rooted = false ∧ comps = []) ∨ comps.getLast? = some dotdot then comps ++ [c]
  else comps.dropLast

/-- A path as `os.path.normpath` puts it together. -/
structure Normal where
  slashes : ℕ
  comps : List Str
  deriving DecidableEq

def normalise (p : Str) : Normal := ⟨leading p, (parts p).foldl (step (isAbs p)) []⟩

/-- `p` normalised is `root` normalised with more components behind. -/
def Under (root p : Str) : Prop :=
  (normalise p).slashes = (normalise root).slashes ∧
    ∃ more, more ≠ [] ∧ (normalise p).comps = (normalise root).comps ++ more

/-! ### Joining -/

section Join

variable {p q r : Str}

theorem isAbs_append (hp : isAbs p = true) (r : Str) : isAbs (p ++ r) = true := by
  cases p with
  | nil => simp [isAbs] at hp
  | cons c p => exact hp

theorem ne_nil_of_isAbs (hp : isAbs p = true) : p ≠ [] := by
  intro h
  simp [isAbs, h] at hp

/-- A join is the first path, a slash if there is none, and the second path. -/
theorem join_cases (hp : isAbs p = true) (hq : isAbs q = false) :
    (∃ p', p = p' ++ ['/'] ∧ join p q = p ++ q) ∨
      (p.getLast? ≠ some '/' ∧ join p q = p ++ '/' :: q) := by
  simp only [join, hq, Bool.false_eq_true, if_false, ne_nil_of_isAbs hp, false_or]
  by_cases hlast : p.getLast? = some '/'
  · rw [if_pos hlast]
    exact .inl ⟨_, (List.getLast?_eq_some_iff.mp hlast).choose_spec, rfl⟩
  · rw [if_neg hlast]
    exact .inr ⟨hlast, rfl⟩

theorem isAbs_join (hp : isAbs p = true) (hq : isAbs q = false) : isAbs (join p q) = true := by
  rcases join_cases hp hq with ⟨_, _, h⟩ | ⟨_, h⟩
  · rw [h]
    exact isAbs_append hp _
  · rw [h]
    exact isAbs_append hp _

theorem leading_append (hp : p ≠ []) (h : p.getLast? ≠ some '/' ∨ isAbs r = false) :
    leading (p ++ r) = leading p := by
  have htake : (p ++ r).takeWhile (· == '/') = p.takeWhile (· == '/') := by
    rw [List.takeWhile_append]
    split_ifs with hall
    · have hslash : p.takeWhile (· == '/') = p :=
        (List.takeWhile_prefix _).eq_of_length hall
      have hlast : p.getLast? = some '/' := by
        have hmem := List.takeWhile_eq_self_iff.mp hslash _ (List.getLast_mem hp)
        rw [List.getLast?_eq_getLast_of_ne_nil hp, beq_iff_eq.mp hmem]
      have hr : r.takeWhile (· == '/') = [] := by
        cases r with
        | nil => rfl
        | cons c r => simpa [isAbs] using h.resolve_left fun hne => hne hlast
      rw [hr, hslash, List.append_nil]
    · rfl
  rw [leading, leading, htake]

theorem leading_join (hp : isAbs p = true) (hq : isAbs q = false) : leading (join p q) = leading p := by
  have hne := ne_nil_of_isAbs hp
  rcases join_cases hp hq with ⟨_, _, h⟩ | ⟨hlast, h⟩
  · rw [h]
    exact leading_append hne (.inr hq)
  · rw [h]
    exact leading_append hne (.inl hlast)

/-- The components of a join, but for an empty one in between. -/
theorem parts_join (hp : isAbs p = true) (hq : isAbs q = false) :
    ∃ front, parts (join p q) = front ++ parts q ∧ (front = parts p ∨ front ++ [[]] = parts p) := by
  rcases join_cases hp hq with ⟨p', rfl, h⟩ | ⟨_, h⟩
  · refine ⟨parts p', ?_, .inr ?_⟩
    · rw [h, List.append_assoc, List.singleton_append, parts, List.splitOn_append_cons_self]
      rfl
    · rw [parts, parts, List.splitOn_append_cons_self, List.splitOn_nil]
  · refine ⟨parts p, ?_, .inl rfl⟩
    rw [h, parts, List.splitOn_append_cons_self]
    rfl

theorem normalise_join (hp : isAbs p = true) (hq : isAbs q = false) :
    normalise (join p q) = ⟨leading p, (parts q).foldl (step true) (normalise p).comps⟩ := by
  obtain ⟨front, hparts, hfront⟩ := parts_join hp hq
  have hcomps : front.foldl (step true) [] = (parts p).foldl (step true) [] := by
    rcases hfront with h | h
    · rw [h]
    · rw [← h, List.foldl_append]
      rfl
  simp only [normalise, leading_join hp hq, isAbs_join hp hq, hp, hparts, List.foldl_append, hcomps]

/-- Without `..` the names are put behind. -/
theorem foldl_step {rooted : Bool} : ∀ {cs : List Str} (comps : List Str), dotdot ∉ cs →
    cs.foldl (step rooted) comps = comps ++ cs.filter isName
  | [], comps, _ => (List.append_nil comps).symm
  | c :: cs, comps, h => by
    have hc : c ≠ dotdot := fun e => h (e ▸ List.mem_cons_self)
    rw [List.foldl_cons, foldl_step _ fun hm => h (List.mem_cons_of_mem _ hm), step, List.filter_cons]
    by_cases hname : isName c = true
    · simp [hname, hc]
    · simp [hname]

theorem comps_join (hp : isAbs p = true) (hq : isAbs q = false) (hdots : dotdot ∉ parts q) :
    normalise (join p q) = ⟨(normalise p).slashes, (normalise p).comps ++ (parts q).filter isName⟩ := by
  rw [normalise_join hp hq, foldl_step _ hdots]
  rfl

/-- **A path without `..` that names something stays under the path it is joined to.** -/
theorem under_join (hp : isAbs p = true) (hq : isAbs q = false) (hdots : dotdot ∉ parts q)
    (hname : ∃ c ∈ parts q, isName c = true) : Under p (join p q) := by
  obtain ⟨c, hc, hname⟩ := hname
  rw [Under, comps_join hp hq hdots]
  exact ⟨rfl, _, List.ne_nil_of_mem (List.mem_filter.mpr ⟨hc, hname⟩), rfl⟩

/-- What is under a join is under the path in front. -/
theorem Under.of_join (hp : isAbs p = true) (hq : isAbs q = false) (hdots : dotdot ∉ parts q)
    (h : Under (join p q) r) : Under p r := by
  obtain ⟨hslashes, more, hmore, hcomps⟩ := h
  rw [comps_join hp hq hdots] at hslashes hcomps
  have hmore' : (parts q).filter isName ++ more ≠ [] := List.append_ne_nil_of_right_ne_nil _ hmore
  exact ⟨hslashes, _, hmore', hcomps.trans (List.append_assoc _ _ _)⟩

end Join

/-! ### The file system -/

inductive Kind where
  | directory
  | file
  | other
  deriving DecidableEq

/-- What a path finds: `lookup` goes to an entry of a directory and follows it where it is a link. -/
structure FileSystem where
  Node : Type
  top : Node
  cwd : Node
  kind : Node → Kind
  lookup : Node → Str → Option Node
  /-- The path cannot be looked up: it is too long, has a NUL in it or goes where one may not. -/
  refuses : Str → Bool

namespace FileSystem

variable (fs : FileSystem)

def enter (n : fs.Node) (c : Str) : Option fs.Node :=
  if fs.kind n ≠ .directory then none else if isName c then fs.lookup n c else some n

def walk (p : Str) : Option fs.Node := (parts p).foldlM fs.enter (if isAbs p then fs.top else fs.cwd)

/-- `os.path.isfile(p)` -/
def isfile (p : Str) : Bool := !fs.refuses p && (fs.walk p).any fun n => fs.kind n == .file

variable {fs}

/-- The path of a file does not end in a slash or a dot. -/
theorem isName_of_isfile {p c : Str} {front : List Str} (h : fs.isfile p = true)
    (hparts : parts p = front ++ [c]) : isName c = true := by
  obtain ⟨n, hwalk, hfile⟩ := (Option.any_eq_true _ _).mp (Bool.and_eq_true_iff.mp h).2
  rw [walk, hparts, List.foldlM_append] at hwalk
  obtain ⟨d, -, hd⟩ := Option.bind_eq_some_iff.mp hwalk
  rw [List.foldlM_cons] at hd
  obtain ⟨m, hm, hmn⟩ := Option.bind_eq_some_iff.mp hd
  obtain rfl : m = n := Option.some.inj hmn
  by_contra hname
  unfold enter at hm
  split_ifs at hm with hkind
  obtain rfl : d = m := Option.some.inj hm
  rw [Decidable.not_not.mp hkind] at hfile
  exact absurd hfile (by decide)

/-- **Where a file is found, the path joined last names something.** -/
theorem exists_isName {p q : Str} (hp : isAbs p = true) (hq : isAbs q = false)
    (h : fs.isfile (join p q) = true) : ∃ c ∈ parts q, isName c = true := by
  obtain ⟨front, hparts, -⟩ := parts_join hp hq
  have hne : parts q ≠ [] := List.splitOn_ne_nil _ _
  have hlast : parts (join p q) = (front ++ (parts q).dropLast) ++ [(parts q).getLast hne] := by
    rw [hparts, List.append_assoc, List.dropLast_append_getLast]
  exact ⟨_, List.getLast_mem hne, isName_of_isfile h hlast⟩

/-- The file system with these directories and files and no links in it. -/
def ofEntries (dirs files : List (List Str)) : FileSystem where
  Node := List Str
  top := []
  cwd := []
  kind n := if n = [] ∨ n ∈ dirs then .directory else if n ∈ files then .file else .other
  lookup n c :=
    if c = dotdot then some n.dropLast
    else if n ++ [c] ∈ dirs ++ files then some (n ++ [c]) else none
  refuses _ := false

end FileSystem
end Paths
end Xc7Tools
