/-
# nfsroot_dtb: the tokens of the command line

The script is to change one token, that of `root`, and to be applied again when
the tree is to be served from elsewhere. It looks for `root=` wherever it
stands, so it takes the end of `nfsroot=` for it, which it has written itself:
no tree that it writes can be retargeted (`keeps_iff`). On a command line with
one `root=` in it and a server that is no template, the first application is
right (`commandLine_of_tokens`).

Key definitions: `tokens`, `commandLine`, `Served`, `Keeps`, `Refused`.
Key theorems: `refused_iff`, `retargeted`, `keeps_iff`, `commandLine_of_tokens`, `patch_eq`.
-/
import Xc7Tools.NfsrootDtb.Script

namespace Xc7Tools
namespace NfsrootDtb

open Str Checked Pattern

/-! ### What the script is for -/

/-- The tokens between the spaces. -/
def tokens (args : Str) : List Str := args.splitOn ' '

/-- The name of the parameter. -/
def name (token : Str) : Str := token.takeWhile (· != '=')

/-- `nfsroot=<path>,vers=3,tcp,nolock` -/
def nfsToken (nfsroot : Str) : Str :=
  "nfsroot=".toList ++ nfsroot ++ ",vers=3,tcp,nolock".toList

/-- What stands for the token of root. -/
def served (nfsroot : Str) : List Str := ["root=/dev/nfs".toList, "rw".toList, nfsToken nfsroot]

/-- `SERVER:/PATH`, without spaces. -/
def IsServerPath (s : Str) : Prop := isIn ":/".toList s = true ∧ ' ' ∉ s

/-- The command line of the tree written, from that of the tree read. -/
def commandLine (nfsroot args : Str) : Except Error Str := do
  return dropInitrd (← retarget nfsroot args)

/-- One token is replaced, that of root, and there is one of ip. -/
def Served (nfsroot args out : Str) : Prop :=
  ∃ pre t post, tokens args = pre ++ t :: post ∧ name t = "root".toList ∧
    (∀ u ∈ pre ++ post, name u ≠ "root".toList) ∧ tokens out = pre ++ served nfsroot ++ post ∧
    ∃ u ∈ tokens out, name u = "ip".toList

/-- There is one root and one NFS root, on the server. -/
def Once (nfsroot out : Str) : Prop :=
  (tokens out).countP (fun t => name t = "root".toList) = 1 ∧
    (tokens out).countP (fun t => name t = "nfsroot".toList) = 1 ∧ nfsToken nfsroot ∈ tokens out

/-- Only root is changed, also when the tree is served again from another place. -/
structure Keeps (nfsroot args : Str) : Prop where
  served : ∀ out, commandLine nfsroot args = .ok out → Served nfsroot args out
  refused : (∀ t ∈ tokens args, name t ≠ "root".toList) ∨ (∀ t ∈ tokens args, name t ≠ "ip".toList) →
    ∀ out, commandLine nfsroot args ≠ .ok out
  again : ∀ out, commandLine nfsroot args = .ok out → ∀ other, IsServerPath other → other ≠ nfsroot →
    ∃ out', commandLine other out = .ok out' ∧ Once other out'

/-- Nothing is written: there is no `root=`, `re` refuses the server, or there is no `ip=` outside
of what stands behind a `root=` nor in what takes the place of that. -/
def Refused (nfsroot args : Str) : Prop :=
  isIn "root=".toList args = false ∨ parseTemplate (replacement nfsroot) = none ∨
    isIn "ip=".toList (sub (fun _ => [' ']) rootArg args) = false ∧
      ∀ ps, parseTemplate (replacement nfsroot) = some ps →
        ∀ w ∈ hits rootArg args, isIn "ip=".toList (expand ps w) = false

/-! ### When nothing is written -/

theorem commandLine_eq_ok {nfsroot args out : Str} : commandLine nfsroot args = .ok out ↔
    ∃ new, retarget nfsroot args = .ok new ∧ dropInitrd new = out := by
  simp only [commandLine, bind_eq_ok, pure_eq_ok]

/-- The replacement begins and ends with a letter of its own. -/
theorem replacement_ends (nfsroot : Str) :
    (∃ t, replacement nfsroot = 'r' :: t) ∧ (replacement nfsroot).getLast? = some 'k' := by
  have hassoc : ∀ (c : Char) (x y z : Str), (c :: x) ++ y ++ z = c :: (x ++ y ++ z) :=
    fun c x y z => rfl
  have hfront : "root=/dev/nfs rw nfsroot=".toList = 'r' :: "oot=/dev/nfs rw nfsroot=".toList := rfl
  have hback : ",vers=3,tcp,nolock".toList.getLast? = some 'k' := rfl
  have hne : ",vers=3,tcp,nolock".toList ≠ [] := by simp
  exact ⟨⟨_, (congrArg (· ++ nfsroot ++ ",vers=3,tcp,nolock".toList) hfront).trans
    (hassoc 'r' _ nfsroot _)⟩, (List.getLast?_append_of_ne_nil _ hne).trans hback⟩

theorem expand_replacement {nfsroot : Str} {ps : List Part}
    (h : parseTemplate (replacement nfsroot) = some ps) (w : Str) :
    (∃ r, expand ps w = 'r' :: r) ∧ ∃ r, expand ps w = r ++ ['k'] := by
  obtain ⟨⟨t, ht⟩, hlast⟩ := replacement_ends nfsroot
  constructor
  · rw [ht, parseTemplate_cons (by decide)] at h
    obtain ⟨qs, -, rfl⟩ := Option.map_eq_some_iff.mp h
    exact ⟨expand qs w, rfl⟩
  · obtain ⟨qs, rfl⟩ := List.getLast?_eq_some_iff.mp (getLast?_parseTemplate _ ps hlast h)
    exact ⟨expand qs w, List.flatMap_append⟩

theorem mem_hits {p : Pattern Char} {s w : Str} : w ∈ hits p s ↔ .hit w ∈ p.scan s := by
  unfold hits
  rw [List.mem_filterMap]
  constructor
  · rintro ⟨piece, hmem, h⟩
    cases piece with
    | kept c => cases h
    | hit w' => exact Option.some.inj h ▸ hmem
  · exact fun h => ⟨.hit w, h, rfl⟩

theorem isIn_ip {nfsroot args : Str} {ps : List Part}
    (h : parseTemplate (replacement nfsroot) = some ps) :
    isIn "ip=".toList (sub (expand ps) rootArg args) = true ↔
      isIn "ip=".toList (sub (fun _ => [' ']) rootArg args) = true ∨
        ∃ w ∈ hits rootArg args, isIn "ip=".toList (expand ps w) = true := by
  simp only [mem_hits]
  refine isIn_render ' ' (by simp) (by simp) (fun w _ => ?_) fun w _ => ?_
  · obtain ⟨r, hr⟩ := (expand_replacement h w).1
    exact ⟨'r', r, hr, by simp⟩
  · obtain ⟨r, hr⟩ := (expand_replacement h w).2
    exact ⟨r, 'k', hr, by simp⟩

theorem refused_iff (nfsroot args : Str) :
    Refused nfsroot args ↔ ∀ out, commandLine nfsroot args ≠ .ok out := by
  constructor
  · intro hrefused out hout
    obtain ⟨new, hnew, -⟩ := commandLine_eq_ok.mp hout
    obtain ⟨hroot, ps, hps, rfl, hip⟩ := retarget_eq_ok.mp hnew
    rcases hrefused with h | h | ⟨hgaps, hhits⟩
    · exact Bool.false_ne_true (h.symm.trans hroot)
    · exact Option.some_ne_none ps (hps.symm.trans h)
    · rcases (isIn_ip hps).mp hip with h | ⟨w, hw, h⟩
      · exact Bool.false_ne_true (hgaps.symm.trans h)
      · exact Bool.false_ne_true ((hhits ps hps w hw).symm.trans h)
  · intro h
    by_contra hnot
    unfold Refused at hnot
    push Not at hnot
    obtain ⟨hroot, hparse, hip⟩ := hnot
    obtain ⟨ps, hps⟩ := Option.ne_none_iff_exists'.mp hparse
    have hin : isIn "ip=".toList (sub (expand ps) rootArg args) = true := by
      rw [isIn_ip hps]
      by_contra hnone
      rw [not_or, Bool.not_eq_true] at hnone
      obtain ⟨ps', hps', w, hw, hne⟩ := hip hnone.1
      obtain rfl := Option.some.inj (hps.symm.trans hps')
      exact hnone.2 ⟨w, hw, (Bool.not_eq_false _).mp hne⟩
    exact h _ (commandLine_eq_ok.mpr ⟨_, retarget_eq_ok.mpr
      ⟨(Bool.not_eq_false _).mp hroot, ps, hps, rfl, hin⟩, rfl⟩)

/-! ### Where `root=` is found -/

theorem consumes_rootArg : rootArg.consumes = true := rfl

theorem avoids_rootArg : rootArg.avoids ' ' = true := rfl

theorem rootArg_rest {c : Char} (hc : isSpace c = false) (s : Str) :
    rootArg.rest ("root=".toList ++ c :: s) = some (s.dropWhile fun c => !isSpace c) := by
  have hpos : (!isSpace c) = true := by rw [hc, Bool.not_false]
  have hdrop : ((c :: s).dropWhile fun c => !isSpace c) = s.dropWhile fun c => !isSpace c :=
    List.dropWhile_cons_of_pos (p := fun c => !isSpace c) hpos
  rw [rootArg, rest_seq_lit, ← hdrop]
  exact rest_plus_of_pos (p := fun c => !isSpace c) hpos s

theorem rootArg_rest_of_ne {c : Char} (hc : c ≠ 'r') (s : Str) : rootArg.rest (c :: s) = none :=
  rest_seq_lit_of_ne hc _ s _

theorem rootArg_rest_of_space {v : Str} (hv : ∀ c ∈ v.head?, isSpace c = true) :
    rootArg.rest ("root=".toList ++ v) = none := by
  refine (rest_seq_lit _ _ _).trans ?_
  cases v with
  | nil => rfl
  | cons c v =>
    have hneg : (!isSpace c) = false := by rw [hv c rfl, Bool.not_true]
    exact rest_plus_of_neg (p := fun c => !isSpace c) hneg v

/-- The tokens are looked through one by one. -/
theorem sub_intercalate (f : Str → Str) (ts : List Str) :
    sub f rootArg ([' '].intercalate ts) = [' '].intercalate (ts.map (sub f rootArg)) := by
  induction ts with
  | nil => rfl
  | cons t ts ih =>
    rcases eq_or_ne ts [] with rfl | hts
    · simp
    · have hmap : ts.map (sub f rootArg) ≠ [] := fun h => hts (List.map_eq_nil_iff.mp h)
      have hsplit := sub_append_cons (f := f) (u := t) (t := [' '].intercalate ts) consumes_rootArg
        fun v _ => rest_append_cons_of_avoids _ avoids_rootArg v
      rw [List.map_cons, List.intercalate_cons_of_ne_nil hts, List.intercalate_cons_of_ne_nil hmap,
        List.append_assoc, List.singleton_append, hsplit, ih, List.append_assoc,
        List.singleton_append]

/-- The end of the name of an NFS root is taken for the name of a root. -/
theorem sub_nfsToken {f : Str → Str} (hf : ∀ w, ∃ z, f w = "root=".toList ++ z) (v : Str) :
    ∃ y, sub f rootArg ("nfsroot=".toList ++ v) = "nfsroot=".toList ++ y := by
  have hfront : ∀ t : Str, sub f rootArg ('n' :: 'f' :: 's' :: t) =
      'n' :: 'f' :: 's' :: sub f rootArg t := fun t => by
    rw [sub_cons_of_none (rootArg_rest_of_ne (by decide) _),
      sub_cons_of_none (rootArg_rest_of_ne (by decide) _),
      sub_cons_of_none (rootArg_rest_of_ne (by decide) _)]
  have hroot : ∃ y, sub f rootArg ("root=".toList ++ v) = "root=".toList ++ y := by
    by_cases hv : ∀ c ∈ v.head?, isSpace c = true
    · have hnone := rootArg_rest_of_space hv
      have htail : ∀ t : Str, sub f rootArg ('o' :: 'o' :: 't' :: '=' :: t) =
          'o' :: 'o' :: 't' :: '=' :: sub f rootArg t := fun t => by
        rw [sub_cons_of_none (rootArg_rest_of_ne (by decide) _),
          sub_cons_of_none (rootArg_rest_of_ne (by decide) _),
          sub_cons_of_none (rootArg_rest_of_ne (by decide) _),
          sub_cons_of_none (rootArg_rest_of_ne (by decide) _)]
      exact ⟨sub f rootArg v, (sub_cons_of_none hnone).trans (congrArg ('r' :: ·) (htail v))⟩
    · push Not at hv
      obtain ⟨c, hc, hspace⟩ := hv
      cases v with
      | nil => cases hc
      | cons d v =>
        obtain rfl : d = c := Option.some.inj hc
        have hrest := rootArg_rest ((Bool.not_eq_true _).mp hspace) v
        have hsplit : "root=".toList ++ d :: v =
            ("root=".toList ++ d :: v.takeWhile fun c => !isSpace c) ++
              v.dropWhile fun c => !isSpace c := by
          rw [List.append_assoc, List.cons_append, List.takeWhile_append_dropWhile]
        obtain ⟨z, hz⟩ := hf ("root=".toList ++ d :: v.takeWhile fun c => !isSpace c)
        refine ⟨z ++ sub f rootArg (v.dropWhile fun c => !isSpace c), ?_⟩
        rw [hsplit] at hrest ⊢
        rw [sub_of_rest consumes_rootArg hrest, hz, List.append_assoc]
  obtain ⟨y, hy⟩ := hroot
  exact ⟨y, (hfront _).trans (congrArg (fun t => 'n' :: 'f' :: 's' :: t) hy)⟩

/-! ### Where properties of the initrd are found -/

theorem consumes_initrdProp : initrdProp.consumes = true := rfl

theorem avoids_initrdKey : initrdKey.avoids '>' = true := rfl

/-- A property is found with its closing bracket, the first there is. -/
theorem exists_of_initrdProp {s r : Str} (h : initrdProp.rest s = some r) :
    ∃ w, s = w ++ '>' :: ';' :: r ∧ '>' ∉ w := by
  obtain ⟨t, hkey, hbody⟩ := Option.bind_eq_some_iff.mp h
  obtain ⟨t', hstar, hend⟩ := Option.bind_eq_some_iff.mp hbody
  obtain ⟨u, rfl, hu⟩ := exists_word hkey
  obtain ⟨v, rfl, hv⟩ := exists_word hstar
  obtain rfl : t' = '>' :: ';' :: r := rest_lit.mp hend
  refine ⟨u ++ v, (List.append_assoc u v _).symm, ?_⟩
  rw [List.mem_append, not_or]
  exact ⟨notMem_of_avoids avoids_initrdKey hu, notMem_of_avoids (by decide) hv⟩

theorem close_eq_none {s : Str} (hs : s.head? ≠ some ';') :
    (lit ">;".toList).rest ('>' :: s) = none := by
  cases h : (lit ">;".toList).rest ('>' :: s) with
  | none => rfl
  | some r =>
    have hcons : '>' :: s = '>' :: ';' :: r := rest_lit.mp h
    rw [(List.cons.inj hcons).2] at hs
    exact absurd rfl hs

/-- A text with a bracket in it ends a property, or what is behind it does not end one either. -/
theorem close_append {u x : Str} (hu : '>' ∈ u) (hx : x.head? ≠ some ';') :
    (seq (star (· != '>')) (lit ">;".toList)).rest (u ++ x) =
      ((seq (star (· != '>')) (lit ">;".toList)).rest u).map (· ++ x) := by
  obtain ⟨r₁, r₂, rfl, hr₁⟩ := List.eq_append_cons_of_mem hu
  have hdrop : ∀ y : Str, (r₁ ++ '>' :: y).dropWhile (· != '>') = '>' :: y := fun y => by
    rw [List.dropWhile_append_of_pos fun c hc => bne_iff_ne.mpr (ne_of_mem_of_not_mem hc hr₁)]
    exact List.dropWhile_cons_of_neg (by simp)
  rw [List.append_assoc, List.cons_append, rest, rest, rest, rest, Option.bind_some,
    Option.bind_some, hdrop, hdrop]
  cases r₂ with
  | nil =>
    rw [List.nil_append, close_eq_none hx, close_eq_none (by simp)]
    rfl
  | cons d r₂ =>
    have hlong : ">;".toList.length ≤ ('>' :: d :: r₂).length := by simp
    exact rest_lit_append hlong x

/-- A bracket that is not followed by a semicolon keeps matches apart. -/
theorem initrdProp_rest_append {t : Str} (ht : t.head? ≠ some ';') (u : Str) :
    initrdProp.rest (u ++ '>' :: t) = (initrdProp.rest u).map (· ++ '>' :: t) := by
  rw [initrdProp, rest, rest_append_cons_of_avoids t avoids_initrdKey u, rest]
  cases initrdKey.rest u with
  | none => rfl
  | some v =>
    rw [Option.map_some, Option.bind_some, Option.bind_some]
    by_cases hv : '>' ∈ v
    · exact close_append hv (by simp)
    · -- the bracket is the first one
      have hpos : ∀ c ∈ v, (c != '>') = true := fun c hc =>
        bne_iff_ne.mpr (ne_of_mem_of_not_mem hc hv)
      have hdrop : v.dropWhile (· != '>') = [] := List.dropWhile_eq_nil_iff.mpr hpos
      have hdrop' : (v ++ '>' :: t).dropWhile (· != '>') = '>' :: t := by
        rw [List.dropWhile_append_of_pos hpos]
        exact List.dropWhile_cons_of_neg (by simp)
      rw [rest, rest, rest, rest, Option.bind_some, Option.bind_some, hdrop, hdrop',
        close_eq_none ht]
      rfl

/-- A text that no property can end in is left at the end. -/
theorem dropInitrd_append {k : Str} (hk : '>' ∉ k) (hhead : k.head? ≠ some ';') (a : Str) :
    ∃ x, dropInitrd (a ++ k) = x ++ k := by
  have hnone : ∀ v, v <:+ k → initrdProp.rest v = none := by
    intro v hv
    cases h : initrdProp.rest v with
    | none => rfl
    | some r =>
      obtain ⟨w, rfl, -⟩ := exists_of_initrdProp h
      exact absurd (hv.subset (List.mem_append_right w List.mem_cons_self)) hk
  induction hn : a.length using Nat.strong_induction_on generalizing a with
  | _ n ih =>
    subst hn
    rcases eq_or_ne a [] with rfl | ha
    · exact ⟨[], sub_eq_self fun u v huv _ => hnone v ⟨u, huv.symm⟩⟩
    rcases scan_cases (p := initrdProp) consumes_initrdProp (s := a ++ k) (by simp [ha]) with
      ⟨w, r, hw, hne, -, hrest, -⟩ | ⟨c, t, hc, hrest, -⟩
    · obtain ⟨v, hv, hbracket⟩ := exists_of_initrdProp hrest
      -- the match ends in `a`
      obtain ⟨a', ha', hr⟩ : ∃ a', a = v ++ '>' :: ';' :: a' ∧ r = a' ++ k := by
        rcases List.append_eq_append_iff.mp hv with ⟨v', rfl, hk'⟩ | ⟨a', rfl, hr⟩
        · exact absurd (hk' ▸ List.mem_append_right v' List.mem_cons_self) hk
        · cases a' with
          | nil =>
            rw [List.nil_append] at hr
            exact absurd (hr ▸ List.mem_cons_self) hk
          | cons c a' =>
            obtain ⟨hc, hr⟩ : '>' = c ∧ ';' :: r = a' ++ k := List.cons.inj hr
            cases a' with
            | nil =>
              rw [List.nil_append] at hr
              exact absurd (hr ▸ rfl) hhead
            | cons d a' =>
              obtain ⟨hd, hr⟩ : ';' = d ∧ r = a' ++ k := List.cons.inj hr
              exact ⟨a', by rw [hc, hd], hr⟩
      have hlen : a'.length < a.length := by
        rw [ha', List.length_append, List.length_cons, List.length_cons]
        omega
      obtain ⟨x, hx⟩ := ih a'.length hlen a' rfl
      rw [hw] at hrest
      refine ⟨x, ?_⟩
      rw [dropInitrd, hw, sub_of_rest consumes_initrdProp hrest, List.nil_append, hr]
      exact hx
    · cases a with
      | nil => exact absurd rfl ha
      | cons d a =>
        obtain ⟨rfl, rfl⟩ := List.cons.inj hc
        obtain ⟨x, hx⟩ := ih a.length (Nat.lt_succ_self _) a rfl
        refine ⟨d :: x, ?_⟩
        rw [dropInitrd, hc, sub_cons_of_none hrest]
        exact congrArg (d :: ·) hx

/-- No property begins at the front of the text, whatever is behind it. -/
def clear (v : Str) : Bool :=
  match v.dropWhile isSpace with
  | [] => false
  | c :: s => c != 'l' || s.head?.elim false (· != 'i')

theorem initrdProp_rest_of_clear {v : Str} (h : clear v = true) (t : Str) :
    initrdProp.rest (v ++ t) = none := by
  have hlit : (lit "linux,initrd-".toList).rest ((v ++ t).dropWhile isSpace) = none := by
    cases hrest : (lit "linux,initrd-".toList).rest ((v ++ t).dropWhile isSpace) with
    | none => rfl
    | some r =>
      have hcons : (v ++ t).dropWhile isSpace = 'l' :: 'i' :: ("nux,initrd-".toList ++ r) :=
        rest_lit.mp hrest
      unfold clear at h
      cases hv : v.dropWhile isSpace with
      | nil =>
        rw [hv] at h
        cases h
      | cons c s =>
        have hdrop : (v ++ t).dropWhile isSpace = c :: s ++ t := by
          rw [List.dropWhile_append, hv]
          rfl
        rw [hdrop] at hcons
        rw [hv] at h
        obtain ⟨rfl, hs⟩ := List.cons.inj hcons
        cases s with
        | nil => cases h
        | cons d s =>
          obtain ⟨rfl, -⟩ := List.cons.inj hs
          cases h
  rw [initrdProp, rest, initrdKey, all, List.foldr_cons, rest, rest, Option.bind_some,
    List.foldr_cons, rest, hlit, Option.bind_none, Option.bind_none]

theorem dropInitrd_clear {k : Str} (hk : ∀ n < k.length, clear (k.drop n) = true) (t : Str) :
    dropInitrd (k ++ t) = k ++ dropInitrd t := by
  refine sub_append_of_none fun u v huv hv => initrdProp_rest_of_clear ?_ t
  have hlen : u.length < k.length := by
    rw [huv, List.length_append]
    exact Nat.lt_add_of_pos_right (List.length_pos_iff.mpr hv)
  have h := hk u.length hlen
  rwa [huv, List.drop_left] at h

/-! ### Tokens -/

theorem tokens_append_cons (s t : Str) : tokens (s ++ ' ' :: t) = tokens s ++ tokens t :=
  List.splitOn_append_cons_self s t

theorem tokens_eq_singleton {s : Str} (h : ' ' ∉ s) : tokens s = [s] := List.splitOn_eq_singleton h

/-- The first token has what is in front of the first space. -/
theorem exists_tokens_append {s : Str} (hs : ' ' ∉ s) (t : Str) :
    ∃ t₀ ts, tokens (s ++ t) = (s ++ t₀) :: ts := by
  by_cases ht : ' ' ∈ t
  · obtain ⟨t₀, t₁, rfl, ht₀⟩ := List.eq_append_cons_of_mem ht
    refine ⟨t₀, tokens t₁, ?_⟩
    rw [← List.append_assoc]
    exact List.splitOn_append_cons_self_of_not_mem (by simp [hs, ht₀]) t₁
  · exact ⟨t, [], tokens_eq_singleton (by simp [hs, ht])⟩

/-- Part of the tokens is part of the text. -/
theorem intercalate_infix (pre ts post : List Str) (hts : ts ≠ []) :
    ∃ a b, [' '].intercalate (pre ++ ts ++ post) = a ++ [' '].intercalate ts ++ b := by
  have hback : ∃ b, [' '].intercalate (ts ++ post) = [' '].intercalate ts ++ b := by
    rcases eq_or_ne post [] with rfl | hpost
    · exact ⟨[], by rw [List.append_nil, List.append_nil]⟩
    · exact ⟨_, (intercalate_append hts hpost).trans (List.append_assoc _ _ _)⟩
  obtain ⟨b, hb⟩ := hback
  rcases eq_or_ne pre [] with rfl | hpre
  · exact ⟨[], b, hb⟩
  · refine ⟨[' '].intercalate pre ++ [' '], b, ?_⟩
    rw [List.append_assoc, intercalate_append hpre (List.append_ne_nil_of_left_ne_nil hts post), hb,
      List.append_assoc, List.append_assoc, List.append_assoc]

/-! ### A second application -/

/-- Two tokens of one name, where texts that begin so stand behind spaces. -/
theorem two_le_countP {x t u v y n : Str} (ht : ' ' ∉ t) (hu : ' ' ∉ u) (hv : ' ' ∉ v)
    (hname : name t = n) (hname' : ∀ s, name (v ++ s) = n) :
    2 ≤ (tokens (x ++ ' ' :: (t ++ ' ' :: (u ++ ' ' :: (v ++ y))))).countP fun t => name t = n := by
  obtain ⟨y₀, ys, hy⟩ := exists_tokens_append hv y
  have hsecond : 0 < ((v ++ y₀) :: ys).countP fun t => name t = n :=
    List.countP_pos_iff.mpr ⟨_, List.mem_cons_self, decide_eq_true (hname' y₀)⟩
  rw [tokens_append_cons, tokens_append_cons, tokens_append_cons, hy, tokens_eq_singleton ht,
    tokens_eq_singleton hu, List.countP_append, List.countP_append, List.countP_append,
    List.countP_singleton, if_pos (decide_eq_true hname)]
  omega

/-- A server that is not the first one and holds a bracket. -/
def another (nfsroot : Str) : Str := if nfsroot = "a:/>".toList then "a:/>a".toList else "a:/>".toList

theorem another_spec (nfsroot : Str) : IsServerPath (another nfsroot) ∧ another nfsroot ≠ nfsroot ∧
    '\\' ∉ another nfsroot ∧ ∃ z, another nfsroot = "a:/".toList ++ '>' :: z ∧ (z = [] ∨ z = ['a']) := by
  unfold another
  split_ifs with h
  · subst h
    exact ⟨⟨by decide, by decide⟩, by decide, by decide, ['a'], rfl, Or.inr rfl⟩
  · exact ⟨⟨by decide, by decide⟩, Ne.symm h, by decide, [], rfl, Or.inl rfl⟩

theorem notMem_between {c : Char} {x y z : Str} (hx : c ∉ x) (hy : c ∉ y) (hz : c ∉ z) :
    c ∉ x ++ y ++ z := by
  simp [hx, hy, hz]

theorem notMem_replacement {nfsroot : Str} (h : '\\' ∉ nfsroot) : '\\' ∉ replacement nfsroot :=
  notMem_between (by simp) h (by simp)

/-- A server without a backslash is written as it is. -/
theorem retarget_of_plain {nfsroot args new : Str} (hplain : '\\' ∉ nfsroot)
    (h : retarget nfsroot args = .ok new) : new = sub (fun _ => replacement nfsroot) rootArg args := by
  obtain ⟨-, ps, hps, rfl, -⟩ := retarget_eq_ok.mp h
  rw [parseTemplate_of_plain (notMem_replacement hplain)] at hps
  obtain rfl := Option.some.inj hps
  refine congrArg (sub · rootArg args) (funext fun w => ?_)
  exact expand_map_char _ w

/-- Where `root=` and `ip=` are found, a tree is written. -/
theorem commandLine_of_plain {nfsroot args : Str} (hplain : '\\' ∉ nfsroot)
    (hroot : isIn "root=".toList args = true)
    (hip : isIn "ip=".toList (sub (fun _ => replacement nfsroot) rootArg args) = true) :
    commandLine nfsroot args =
      .ok (dropInitrd (sub (fun _ => replacement nfsroot) rootArg args)) := by
  have hsub : sub (expand ((replacement nfsroot).map Part.char)) rootArg args =
      sub (fun _ => replacement nfsroot) rootArg args :=
    congrArg (sub · rootArg args) (funext fun w => expand_map_char _ w)
  exact commandLine_eq_ok.mpr ⟨_, retarget_eq_ok.mpr ⟨hroot, _,
    parseTemplate_of_plain (notMem_replacement hplain), hsub.symm, hip⟩, rfl⟩

/-- What a second application makes of the tokens of the first. -/
theorem sub_served {f : Str → Str} (hf : ∀ w, ∃ z, f w = "root=".toList ++ z) (nfsroot : Str) :
    ∃ y, (served nfsroot).map (sub f rootArg) =
      [f "root=/dev/nfs".toList, "rw".toList, "nfsroot=".toList ++ y] := by
  have hroot : rootArg.rest ("root=/dev/nfs".toList ++ []) = some [] := rfl
  have hfirst : sub f rootArg "root=/dev/nfs".toList = f "root=/dev/nfs".toList :=
    (sub_of_rest consumes_rootArg hroot).trans (List.append_nil _)
  have hsecond : sub f rootArg "rw".toList = "rw".toList := rfl
  obtain ⟨y, hy⟩ := sub_nfsToken hf (nfsroot ++ ",vers=3,tcp,nolock".toList)
  refine ⟨y, ?_⟩
  have hthird : sub f rootArg (nfsToken nfsroot) = "nfsroot=".toList ++ y :=
    (congrArg (sub f rootArg) (List.append_assoc _ _ _)).trans hy
  rw [served, List.map_cons, List.map_cons, List.map_cons, List.map_nil, hfirst, hsecond, hthird]

/-- Between a front that holds no bracket and a text in which no property begins, a bracket is kept
with both. -/
theorem dropInitrd_bracket {F K : Str} (hF : '>' ∉ F) (hFhead : F.head? ≠ some ';')
    (hK : ∀ n < K.length, clear (K.drop n) = true) (hKhead : ∀ y, (K ++ y).head? ≠ some ';')
    (a y : Str) : ∃ x, dropInitrd ((a ++ F) ++ '>' :: (K ++ y)) =
      (x ++ F) ++ '>' :: (K ++ dropInitrd y) := by
  obtain ⟨x, hx⟩ := dropInitrd_append hF hFhead a
  refine ⟨x, ?_⟩
  have hsplit := sub_append_cons (f := fun _ => []) (c := '>') (t := K ++ y) (u := a ++ F)
    consumes_initrdProp fun v _ => initrdProp_rest_append (hKhead y) v
  have hclear := dropInitrd_clear hK y
  unfold dropInitrd at hx hclear ⊢
  rw [hsplit, hx, hclear]

/-- `rw nfsroot=`, behind a space -/
def rwNfsroot (z : Str) : Str :=
  z ++ ",vers=3,tcp,nolock".toList ++ ' ' :: ("rw".toList ++ ' ' :: "nfsroot=".toList)

theorem clear_rwNfsroot {z : Str} (hz : z = [] ∨ z = ['a']) :
    (∀ n < (rwNfsroot z).length, clear ((rwNfsroot z).drop n) = true) ∧
      ∀ y, (rwNfsroot z ++ y).head? ≠ some ';' := by
  rcases hz with rfl | rfl
  · exact ⟨by decide, fun y h => absurd (Option.some.inj h) (by decide)⟩
  · exact ⟨by decide, fun y h => absurd (Option.some.inj h) (by decide)⟩

/-- The replacement of another server, with what follows it, behind some text. -/
theorem dropInitrd_another (nfsroot a y : Str) :
    ∃ x t, dropInitrd (a ++ replacement (another nfsroot) ++
        ' ' :: ("rw".toList ++ ' ' :: ("nfsroot=".toList ++ y))) =
      x ++ ' ' :: (nfsToken (another nfsroot) ++ ' ' :: ("rw".toList ++ ' ' ::
        ("nfsroot=".toList ++ t))) := by
  obtain ⟨-, -, -, z, hz, hz'⟩ := another_spec nfsroot
  have hin : ∀ F B r n : Str, a ++ (F ++ '>' :: z ++ B) ++ ' ' :: (r ++ ' ' :: (n ++ y)) =
      (a ++ F) ++ '>' :: ((z ++ B ++ ' ' :: (r ++ ' ' :: n)) ++ y) := fun F B r n => by simp
  have hout : ∀ x R r m n B y : Str, (x ++ (R ++ ' ' :: (r ++ ' ' :: m))) ++
      '>' :: ((z ++ B ++ ' ' :: (r ++ ' ' :: n)) ++ y) =
      (x ++ R ++ ' ' :: r) ++ ' ' :: ((m ++ '>' :: z ++ B) ++ ' ' :: (r ++ ' ' :: (n ++ y))) :=
    fun x R r m n B y => by simp
  have hassoc : ∀ F S B : Str, F ++ (S ++ '>' :: z) ++ B = (F ++ S) ++ '>' :: z ++ B :=
    fun F S B => by simp
  have hfront : "root=/dev/nfs rw nfsroot=a:/".toList =
      "root=/dev/nfs".toList ++ ' ' :: ("rw".toList ++ ' ' :: "nfsroot=a:/".toList) := by decide
  have hreplacement : replacement (another nfsroot) =
      "root=/dev/nfs rw nfsroot=a:/".toList ++ '>' :: z ++ ",vers=3,tcp,nolock".toList :=
    (congrArg (fun s => "root=/dev/nfs rw nfsroot=".toList ++ s ++ ",vers=3,tcp,nolock".toList)
      hz).trans (hassoc _ _ _)
  have htoken : nfsToken (another nfsroot) =
      "nfsroot=a:/".toList ++ '>' :: z ++ ",vers=3,tcp,nolock".toList :=
    (congrArg (fun s => "nfsroot=".toList ++ s ++ ",vers=3,tcp,nolock".toList) hz).trans
      (hassoc _ _ _)
  obtain ⟨hclear, hhead⟩ := clear_rwNfsroot hz'
  have hnone : '>' ∉ "root=/dev/nfs rw nfsroot=a:/".toList := by simp
  have hr : "root=/dev/nfs rw nfsroot=a:/".toList.head? ≠ some ';' := by simp
  obtain ⟨x, hx⟩ := dropInitrd_bracket hnone hr hclear hhead a y
  rw [hreplacement, htoken, hin, ← rwNfsroot, hx]
  refine ⟨x ++ "root=/dev/nfs".toList ++ ' ' :: "rw".toList, dropInitrd y, ?_⟩
  rw [hfront, rwNfsroot, hout]

/-- **A tree that was served is not served again: there is more than one NFS root on the command line.** -/
theorem retargeted {nfsroot out : Str} {pre post : List Str}
    (h : tokens out = pre ++ served nfsroot ++ post) {out' : Str}
    (hout' : commandLine (another nfsroot) out = .ok out') : ¬ Once (another nfsroot) out' := by
  obtain ⟨⟨-, hspace⟩, -, hplain, -⟩ := another_spec nfsroot
  obtain ⟨new, hnew, rfl⟩ := commandLine_eq_ok.mp hout'
  obtain rfl := retarget_of_plain hplain hnew
  have hroot : ∀ _ : Str, ∃ z, replacement (another nfsroot) = "root=".toList ++ z := fun _ =>
    ⟨"/dev/nfs rw nfsroot=".toList ++ another nfsroot ++ ",vers=3,tcp,nolock".toList, rfl⟩
  obtain ⟨y, hy⟩ := sub_served hroot nfsroot
  obtain ⟨a, b, hab⟩ := intercalate_infix
    (pre.map (sub (fun _ => replacement (another nfsroot)) rootArg))
    [replacement (another nfsroot), "rw".toList, "nfsroot=".toList ++ y]
    (post.map (sub (fun _ => replacement (another nfsroot)) rootArg)) (List.cons_ne_nil _ _)
  have hnew : sub (fun _ => replacement (another nfsroot)) rootArg out =
      a ++ replacement (another nfsroot) ++
        ' ' :: ("rw".toList ++ ' ' :: ("nfsroot=".toList ++ (y ++ b))) := by
    have hassoc : ∀ a e r n y b : Str, a ++ [' '].intercalate [e, r, n ++ y] ++ b =
        a ++ e ++ ' ' :: (r ++ ' ' :: (n ++ (y ++ b))) := fun a e r n y b => by simp
    have hout : out = [' '].intercalate (tokens out) := (List.intercalate_splitOn ' ').symm
    rw [hout, h, sub_intercalate, List.map_append, List.map_append, hy, hab]
    exact hassoc a _ _ _ y b
  obtain ⟨x, t, hdrop⟩ := dropInitrd_another nfsroot a (y ++ b)
  rintro ⟨-, hone, -⟩
  rw [hnew, hdrop] at hone
  have htoken : ' ' ∉ nfsToken (another nfsroot) := notMem_between (by simp) hspace (by simp)
  have htwo : 2 ≤ (tokens (x ++ ' ' :: (nfsToken (another nfsroot) ++ ' ' :: ("rw".toList ++
      ' ' :: ("nfsroot=".toList ++ t))))).countP fun t => name t = "nfsroot".toList :=
    two_le_countP htoken (by simp) (by simp) rfl fun s => rfl
  omega

/-! ### What comes of it -/

theorem keeps_of_refused {nfsroot args : Str} (h : Refused nfsroot args) : Keeps nfsroot args := by
  have hnone := (refused_iff nfsroot args).mp h
  exact ⟨fun out hout => absurd hout (hnone out), fun _ => hnone,
    fun out hout => absurd hout (hnone out)⟩

/-- Wherever a tree is written, it is wrong or cannot be served again. -/
theorem not_keeps_of_ok {nfsroot args out : Str} (h : commandLine nfsroot args = .ok out) :
    ¬ Keeps nfsroot args := by
  intro hkeeps
  obtain ⟨pre, t, post, -, -, -, htokens, -⟩ := hkeeps.served out h
  obtain ⟨hserver, hne, -⟩ := another_spec nfsroot
  obtain ⟨out', hout', honce⟩ := hkeeps.again out h _ hserver hne
  exact retargeted htokens hout' honce

/-- **The script keeps its word on the command lines it refuses, and on no other.** -/
theorem keeps_iff (nfsroot args : Str) : Keeps nfsroot args ↔ Refused nfsroot args := by
  refine ⟨fun h => ?_, keeps_of_refused⟩
  rw [refused_iff]
  exact fun out hout => not_keeps_of_ok hout h

/-- `192.168.1.106:/srv/a`, and then the tree is to be served from `192.168.1.107:/srv/b`. -/
theorem not_keeps : ¬ Keeps "192.168.1.106:/srv/a".toList "root=/dev/ram0 ip=dhcp".toList := by
  intro hkeeps
  have hout : commandLine "192.168.1.106:/srv/a".toList "root=/dev/ram0 ip=dhcp".toList = .ok _ :=
    commandLine_of_plain (by decide) (by decide) (by decide)
  obtain ⟨out', hout', -, hone, -⟩ :=
    hkeeps.again _ hout "192.168.1.107:/srv/b".toList ⟨by decide, by decide⟩ (by decide)
  rw [commandLine_of_plain (by decide) (by decide) (by decide)] at hout'
  obtain rfl := Except.ok.inj hout'
  revert hone
  decide

/-! ### A first application -/

theorem intercalate_replacement (nfsroot : Str) (pre post : List Str) :
    [' '].intercalate (pre ++ replacement nfsroot :: post) =
      [' '].intercalate (pre ++ served nfsroot ++ post) := by
  have hthree : ∀ a b c : Str, [' '].intercalate ((a ++ ' ' :: (b ++ ' ' :: c)) :: post) =
      [' '].intercalate (a :: b :: c :: post) := fun a b c => by
    cases post <;> simp
  have hfront : "root=/dev/nfs rw nfsroot=".toList =
      "root=/dev/nfs".toList ++ ' ' :: ("rw".toList ++ ' ' :: "nfsroot=".toList) := by decide
  have hassoc : ∀ a b c n t : Str, (a ++ ' ' :: (b ++ ' ' :: c)) ++ n ++ t =
      a ++ ' ' :: (b ++ ' ' :: (c ++ n ++ t)) := fun a b c n t => by simp
  have hreplacement : replacement nfsroot =
      "root=/dev/nfs".toList ++ ' ' :: ("rw".toList ++ ' ' :: nfsToken nfsroot) :=
    (congrArg (fun s => s ++ nfsroot ++ ",vers=3,tcp,nolock".toList) hfront).trans
      (hassoc _ _ _ _ _)
  induction pre with
  | nil =>
    rw [hreplacement]
    exact hthree _ _ _
  | cons u pre ih =>
    have hleft : pre ++ replacement nfsroot :: post ≠ [] := by simp
    have hright : pre ++ served nfsroot ++ post ≠ [] := by simp [served]
    rw [List.cons_append, List.cons_append, List.cons_append, List.intercalate_cons_of_ne_nil hleft,
      List.intercalate_cons_of_ne_nil hright, ih]

/-- **One `root=` on the command line, a server that is no template and no property of the initrd on
it: one token is replaced.** -/
theorem commandLine_of_tokens {nfsroot args v : Str} {pre post : List Str} (hplain : '\\' ∉ nfsroot)
    (htokens : tokens args = pre ++ ("root=".toList ++ v) :: post) (hne : v ≠ [])
    (hsolid : ∀ c ∈ v, isSpace c = false) (hroot : ∀ t ∈ pre ++ post, hits rootArg t = [])
    (hip : ∃ t ∈ pre ++ post, isIn "ip=".toList t = true)
    (hinitrd : hits initrdProp ([' '].intercalate (pre ++ served nfsroot ++ post)) = []) :
    commandLine nfsroot args = .ok ([' '].intercalate (pre ++ served nfsroot ++ post)) := by
  have hargs : args = [' '].intercalate (pre ++ ("root=".toList ++ v) :: post) := by
    rw [← htokens]
    exact (List.intercalate_splitOn ' ').symm
  have hkept : ∀ {ts : List Str}, (∀ t ∈ ts, hits rootArg t = []) →
      ts.map (sub (fun _ => replacement nfsroot) rootArg) = ts := fun h =>
    (List.map_congr_left fun t ht => sub_of_hits_eq_nil consumes_rootArg (h t ht)).trans
      (List.map_id _)
  have htoken : sub (fun _ => replacement nfsroot) rootArg ("root=".toList ++ v) =
      replacement nfsroot := by
    obtain ⟨c, v, rfl⟩ := List.exists_cons_of_ne_nil hne
    have hdrop : (v.dropWhile fun c => !isSpace c) = [] := List.dropWhile_eq_nil_iff.mpr fun c hc => by
      rw [hsolid c (List.mem_cons_of_mem _ hc)]
      rfl
    have hrest := rootArg_rest (hsolid c List.mem_cons_self) v
    rw [hdrop, ← List.append_nil ("root=".toList ++ c :: v)] at hrest
    have hsub := sub_of_rest (f := fun _ => replacement nfsroot) consumes_rootArg hrest
    rw [List.append_nil] at hsub
    exact hsub.trans (List.append_nil _)
  have hsub : sub (fun _ => replacement nfsroot) rootArg args =
      [' '].intercalate (pre ++ served nfsroot ++ post) := by
    rw [hargs, sub_intercalate, List.map_append, List.map_cons, htoken,
      hkept fun t ht => hroot t (List.mem_append_left post ht),
      hkept fun t ht => hroot t (List.mem_append_right pre ht), intercalate_replacement]
  have hin : ∀ {x : Str} {ts : List Str} {t : Str}, t ∈ ts → x <:+: t →
      isIn x ([' '].intercalate ts) = true := by
    intro x ts t ht hx
    obtain ⟨before, after, rfl⟩ := List.append_of_mem ht
    obtain ⟨a, b, hab⟩ := intercalate_infix before [t] after (List.cons_ne_nil _ _)
    rw [List.append_assoc, List.singleton_append, List.intercalate_singleton] at hab
    rw [hab, isIn_iff_isInfix]
    exact hx.trans ⟨a, b, rfl⟩
  have hfound : isIn "root=".toList args = true := by
    rw [hargs]
    exact hin (List.mem_append_right pre List.mem_cons_self) (List.prefix_append _ v).isInfix
  have hfound' : isIn "ip=".toList (sub (fun _ => replacement nfsroot) rootArg args) = true := by
    obtain ⟨t, ht, hx⟩ := hip
    rw [hsub]
    refine hin ?_ (isIn_iff_isInfix.mp hx)
    rcases List.mem_append.mp ht with ht | ht
    · exact List.mem_append_left post (List.mem_append_left _ ht)
    · exact List.mem_append_right _ ht
  rw [commandLine_of_plain hplain hfound hfound', hsub, dropInitrd,
    sub_of_hits_eq_nil consumes_initrdProp hinitrd]

/-! ### The tree -/

/-- Behind every opening bracket there is a closing one. -/
def Fenced (s : Str) : Prop := ∀ a b, s = a ++ '<' :: b → '>' ∈ b

theorem initrdProp_rest_fenced {u : Str} (hu : Fenced u) {v : Str} (hv : v <:+ u) (t : Str) :
    initrdProp.rest (v ++ '"' :: t) = (initrdProp.rest v).map (· ++ '"' :: t) := by
  have havoids : initrdKey.avoids '"' = true := rfl
  rw [initrdProp, rest, rest_append_cons_of_avoids t havoids v, rest]
  cases hkey : initrdKey.rest v with
  | none => rfl
  | some r =>
    obtain ⟨k, rfl, hk⟩ := exists_word hkey
    obtain ⟨k', x, rfl, hx⟩ := exists_append_of_lang_all (q := lit "<".toList)
      [star isSpace, lit "linux,initrd-".toList, alt (lit "start".toList) (lit "end".toList),
        star isSpace, lit "=".toList, star isSpace] hk
    obtain rfl := eq_of_lang_lit hx
    obtain ⟨a, ha⟩ := hv
    have hclose : '>' ∈ r := hu (a ++ k') r (by rw [← ha]; simp)
    rw [Option.map_some, Option.bind_some, Option.bind_some]
    exact close_append hclose (by simp)

/-- A quote behind a fenced text keeps the properties on its two sides apart. -/
theorem dropInitrd_quote {u : Str} (hu : Fenced u) (t : Str) :
    dropInitrd (u ++ '"' :: t) = dropInitrd u ++ '"' :: dropInitrd t :=
  sub_append_cons consumes_initrdProp fun _ hv => initrdProp_rest_fenced hu hv t

/-- The text that `bootargs` finds ends in the quoted group. -/
theorem search_bootargs {dts before w after : Str} (h : bootargs.search dts = some (before, w, after)) :
    ∃ key args, w = key ++ '"' :: (args ++ ['"']) ∧ '"' ∉ args ∧
      dts = (before ++ key) ++ '"' :: (args ++ '"' :: after) ∧
      bootargsKey.rest (w ++ after) = some (args ++ '"' :: after) := by
  obtain ⟨rfl, hrest⟩ := search_eq_some h
  obtain ⟨r, hkey, hbody⟩ := Option.bind_eq_some_iff.mp hrest
  obtain ⟨r', hstar, hend⟩ := Option.bind_eq_some_iff.mp hbody
  obtain ⟨r'', hquote, hnil⟩ := Option.bind_eq_some_iff.mp hend
  obtain rfl : r'' = after := Option.some.inj hnil
  obtain rfl : r' = '"' :: r'' := rest_lit.mp hquote
  obtain ⟨k, hk, hlang⟩ := exists_word hkey
  obtain ⟨key, x, rfl, hx⟩ := exists_append_of_lang_all (q := lit ['"'])
    [lit "bootargs".toList, star isSpace, lit "=".toList, star isSpace] hlang
  obtain rfl := eq_of_lang_lit hx
  have hr : r = r.takeWhile (· != '"') ++ '"' :: r'' := by
    conv_lhs => rw [← List.takeWhile_append_dropWhile (p := (· != '"')) (l := r)]
    exact congrArg (_ ++ ·) (Option.some.inj hstar)
  have hw : w = key ++ '"' :: (r.takeWhile (· != '"') ++ ['"']) := by
    have hlong : w ++ r'' = key ++ '"' :: (r.takeWhile (· != '"') ++ ['"']) ++ r'' := by
      rw [hk]
      conv_lhs => rw [hr]
      simp
    exact List.append_cancel_right hlong
  refine ⟨key, r.takeWhile (· != '"'), hw, fun hm => ?_, ?_, hkey.trans (congrArg some hr)⟩
  · simpa using List.mem_takeWhile_imp hm
  · conv_lhs => rw [hw]
    simp

/-- **The script changes the command line as `retarget` does, and takes the properties out.** -/
theorem patch_eq {nfsroot dts out : Str} (h : patch nfsroot dts = .ok out) :
    ∃ before args after new, dts = before ++ '"' :: (args ++ '"' :: after) ∧ '"' ∉ args ∧
      retarget nfsroot args = .ok new ∧ out = dropInitrd (before ++ '"' :: (new ++ '"' :: after)) ∧
      (Fenced before → Fenced new →
        out = dropInitrd before ++ '"' :: (dropInitrd new ++ '"' :: dropInitrd after)) := by
  unfold patch at h
  simp only [bind_eq_ok, pure_eq_ok, orRaise_eq_ok] at h
  obtain ⟨⟨before, w, after⟩, hsearch, new, hnew, rfl⟩ := h
  obtain ⟨key, args, hw, hquote, hdts, hkey⟩ := search_bootargs hsearch
  have hargs : ((bootargsKey.rest (w ++ after)).getD []).takeWhile (· != '"') = args := by
    rw [hkey, Option.getD_some,
      List.takeWhile_append_of_pos fun c hc =>
        bne_iff_ne.mpr (ne_of_mem_of_not_mem hc hquote),
      List.takeWhile_cons_of_neg (by simp), List.append_nil]
  have htake : w.take (w.length - (args.length + 1)) = key ++ ['"'] := by
    have hlen : w.length - (args.length + 1) = (key ++ ['"']).length := by
      rw [hw]
      simp
      omega
    have hsplit : w = (key ++ ['"']) ++ (args ++ ['"']) := by
      rw [hw, List.append_assoc, List.singleton_append]
    rw [hlen, hsplit, List.take_left]
  simp only [hargs] at hnew ⊢
  have hassoc : before ++ (key ++ ['"']) ++ new ++ '"' :: after =
      (before ++ key) ++ '"' :: (new ++ '"' :: after) := by simp
  rw [htake, hassoc]
  refine ⟨before ++ key, args, after, new, hdts, hquote, hnew, rfl, fun hbefore hfenced => ?_⟩
  rw [dropInitrd_quote hbefore, dropInitrd_quote hfenced]

end NfsrootDtb
end Xc7Tools
