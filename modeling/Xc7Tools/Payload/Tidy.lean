/-
# check_linux_payload.py: trees that do not mislead it

Where a tree is tidy, what the tests look for stands at its own place only: an
address in the name of the node at that address, and "buffer", the buffer's
base and the MAC in the properties of the mac node. A payload of tidy trees
that passes is consistent, if boot.json lists an image and the trees have been
looked at. Two payloads that pass and are not: an empty boot.json, and a tree
with everything in the wrong place.

Key definitions: `AsName`, `OnlyIn`, `Tidy`, `Plain`.
Key theorems: `Plain.notMisled`, `consistent_of_plain`.
-/
import Xc7Tools.Lib.Numerals
import Xc7Tools.Payload.Sound

namespace Xc7Tools
namespace Payload

open Str Checked

/-! ### The texts that are looked for -/

theorem not_mem_hex {c : Char} (hc : hexDigit? c = none) (hne : c ≠ '-') (n : ℤ) : c ∉ hex n := by
  have hdigits : c ∉ Nat.toDigits 16 n.natAbs := fun h => by
    obtain ⟨d, hd, rfl⟩ := (isHexNumeral_toDigits _).2 c h
    rw [(digitChar_hex d hd).1] at hc
    cases hc
  unfold hex
  split <;> simp [hne, hdigits]

theorem not_mem_macText {c : Char} (hc : hexDigit? c = none) (hne : c ≠ '-') (hcolon : c ≠ ':')
    (bs : List ℤ) : c ∉ macText bs := fun h => by
  rcases mem_of_mem_intercalate h with rfl | ⟨s, hs, h⟩
  · exact hcolon rfl
  · obtain ⟨b, -, rfl⟩ := List.mem_map.mp hs
    rcases List.mem_append.mp h with h | h
    · rw [List.eq_of_mem_replicate h] at hc
      exact absurd hc (by decide)
    · exact not_mem_hex hc hne b h

theorem not_mem_bracketed {c : Char} (hc : hexDigit? c = none) (hne : c ∉ ['-', ':', ' ', '[', ']'])
    (bs : List ℤ) : c ∉ bracketed (macText bs) := fun h => by
  simp only [List.mem_cons, List.not_mem_nil, or_false, not_or] at hne
  obtain ⟨hminus, hcolon, hblank, hopen, hclose⟩ := hne
  simp only [bracketed, List.cons_append, List.mem_cons, List.mem_append, List.mem_map,
    List.not_mem_nil, or_false, hopen, hclose, false_or] at h
  obtain ⟨d, hd, rfl⟩ := h
  split_ifs at hblank hc with hd'
  · exact hblank rfl
  · exact not_mem_macText hc (by simpa [hd'] using hminus) hd' bs hd

/-- What no blank stands in was there before `\0` was made one. -/
theorem infix_of_infix_spaceNul {w s : Str} (hw : ' ' ∉ w) (h : w <:+: spaceNul s) : w <:+: s := by
  have hfront : ∀ {w s : Str}, ' ' ∉ w → w <+: spaceNul s → w <+: s := fun {w s} hw h => by
    fun_induction spaceNul s generalizing w with
    | case1 s ih =>
      cases w with
      | nil => exact List.nil_prefix
      | cons c w => exact absurd ((List.cons_prefix_cons.mp h).1 ▸ List.mem_cons_self) hw
    | case2 c s _ ih =>
      cases w with
      | nil => exact List.nil_prefix
      | cons d w =>
        obtain ⟨rfl, h'⟩ := List.cons_prefix_cons.mp h
        exact List.cons_prefix_cons.mpr ⟨rfl, ih (fun hm => hw (List.mem_cons_of_mem _ hm)) h'⟩
    | case3 => exact h
  fun_induction spaceNul s with
  | case1 s ih =>
    rcases infix_of_infix_append_cons (a := []) hw h with h | h
    · rw [List.infix_nil.mp h]
      exact List.nil_infix
    · exact List.infix_cons (List.infix_cons (ih h))
  | case2 c s hne ih =>
    rcases List.infix_cons_iff.mp h with h | h
    · rw [← spaceNul] at h
      · exact (hfront hw h).isInfix
      · exact hne
    · exact List.infix_cons (ih h)
  | case3 => exact h

theorem cut_suffix (sep s : Str) : (cut sep s).2 <:+ s := by
  fun_induction cut sep s with
  | case1 => exact List.suffix_rfl
  | case2 c s _ => exact List.drop_suffix _ _
  | case3 c s _ ih => exact ih.trans (List.suffix_cons c s)

theorem infix_of_mem_findRegNames {x : Str} : ∀ {fuel : ℕ} {s : Str}, x ∈ findRegNames fuel s → x <:+: s
  | fuel + 1, s, h => by
    have hsuffix := cut_suffix "reg-names = \"".toList s
    rw [findRegNames] at h
    revert h
    cases hrest : (cut "reg-names = \"".toList s).2.dropWhile (· != '"') with
    | nil => exact fun h => by cases h
    | cons q rest =>
      intro h
      rcases List.mem_cons.mp h with rfl | h
      · exact (List.takeWhile_prefix _).isInfix.trans hsuffix.isInfix
      · have hdrop : q :: rest <:+ (cut "reg-names = \"".toList s).2 := hrest ▸ List.dropWhile_suffix _
        exact (infix_of_mem_findRegNames h).trans
          (((List.suffix_cons q rest).trans hdrop).trans hsuffix).isInfix

/-- Whichever half of the test on reg-names passes, the name stands in the text. -/
theorem infix_of_regNamesLacking {dts : Str} (h : regNamesLacking [] dts = []) :
    "buffer".toList <:+: dts := by
  rw [regNamesLacking, List.map_eq_nil_iff, List.filter_eq_nil_iff] at h
  have hbuffer := h "buffer".toList (by decide)
  by_cases hin : "buffer".toList ∈ findRegNames dts.length (spaceNul dts)
  · exact infix_of_infix_spaceNul (by decide) (infix_of_mem_findRegNames hin)
  · by_contra hno
    refine hbuffer ?_
    rw [Bool.and_eq_true, Bool.not_eq_true', Bool.not_eq_true', ← Bool.not_eq_true,
      ← Bool.not_eq_true, List.contains_iff_mem, isIn_iff_isInfix]
    exact ⟨hin, hno⟩

/-! ### Tidy trees -/

section Tidy

variable (shown : Str × Bytes → Str)

/-- A text that is an address's name: a node's name has it only as the whole,
and a property only beside a node whose name has it. -/
structure AsName (t : Node) (w : Str) : Prop where
  whole : ∀ n ∈ t.nodes, w <:+: n.name → n.name = w
  beside : ∀ n ∈ t.nodes, ∀ v ∈ n.props, w <:+: shown v → ∃ m ∈ t.nodes, w <:+: m.name

/-- What is found in the text of a place is the node's own property `k`, with
`ok` of its value, and nothing else. -/
def OnlyIn (t n : Node) (k : Str) (found : Str → Prop) (ok : Bytes → Prop) : Prop :=
  ∀ pl ∈ t.places, found (pl.text shown) → pl = .prop n (k, n.prop k) ∧ ok (n.prop k)

/-- The words looked for stand in the mac node's own properties: "buffer" as a
string beside "mac", the base as a cell, and the MAC as the bytes. -/
structure InOwn (csr : Json) (t n : Node) : Prop where
  names : OnlyIn shown t n "reg-names".toList ("buffer".toList <:+: ·)
    fun v => "mac".toList ∈ strings v ∧ "buffer".toList ∈ strings v
  reg : ∀ b : ℤ, bufferBase csr = .ok (some b) →
    OnlyIn shown t n "reg".toList (hex b <:+: ·) fun v => b ∈ (cells v).map Int.ofNat
  address : ∀ bs, macaddr csr = .ok (some bs) →
    OnlyIn shown t n "local-mac-address".toList (bracketed (macText bs) <:+: lower ·)
      fun v => v.map (fun b => (b.toNat : ℤ)) = bs

/-- No text looked for stands away from its place. -/
structure Tidy (csr : Json) (t : Node) : Prop where
  serial : ∀ u, uartBase csr = .ok (some u) → AsName shown t (serialAt u)
  ethmac : ∀ e, ethmacBase csr = .ok (some e) → AsName shown t (macAt e) ∧
    ∀ n ∈ t.nodes, n.name = macAt e → InOwn shown csr t n

/-- boot.json lists an image, the trees are looked at, and they are tidy. -/
structure Plain (p : Staging) (dtc : Dtc) : Prop where
  images : ∃ ns, Lists p ns ∧ ns ≠ []
  seen : dtc.print = none → stagedDtbs p = []
  tidy : ∀ name ∈ stagedDtbs p, ∀ t, treeOf p dtc name = some t → Tidy shown p.csr t

variable {shown} {print : Node → Str}

/-- A text found is in a name, or in a property beside one; so it is a name. -/
theorem AsName.node {t : Node} {w : Str} (h : AsName shown t w) (hp : Prints shown print)
    (hat : '@' ∈ w) (hw : ∀ c ∈ ['\n', '\t', ' '], c ∉ w) (hin : isIn w (print t) = true) :
    ∃ n ∈ t.nodes, n.name = w := by
  have hnot : ∀ s : Str, '@' ∉ s → ¬ w <:+: s := fun s hs hin => hs (hin.subset hat)
  obtain ⟨pl, hpl, hin⟩ :=
    hp.place (hw '\n' (by decide)) (hw '\t' (by decide)) (isIn_iff_isInfix.mp hin)
  rcases List.mem_append.mp hpl with hpl | hpl
  · obtain ⟨s, hs, rfl⟩ := List.mem_map.mp hpl
    have hframe : ∀ s ∈ frames, '@' ∉ s := by decide
    exact absurd hin (hnot s (hframe s hs))
  obtain ⟨n, hn, hpl⟩ := List.mem_flatMap.mp hpl
  rcases List.mem_cons.mp hpl with rfl | hpl
  · -- what follows a name is a blank and a brace
    rcases infix_of_infix_append_cons (hw ' ' (by decide)) hin with hin | hin
    · split_ifs at hin
      · exact absurd hin (hnot _ (by decide))
      · exact ⟨n, hn, h.whole n hn hin⟩
    · exact absurd hin (hnot _ (by decide))
  · obtain ⟨v, hv, rfl⟩ := List.mem_map.mp hpl
    obtain ⟨m, hm, hname⟩ := h.beside n hn v hv hin
    exact ⟨m, hm, h.whole m hm hname⟩

theorem OnlyIn.of_isIn {t n : Node} {k w : Str} {ok : Bytes → Prop}
    (h : OnlyIn shown t n k (w <:+: ·) ok) (hp : Prints shown print) (hn : '\n' ∉ w) (ht : '\t' ∉ w)
    (hin : isIn w (print t) = true) : ok (n.prop k) := by
  obtain ⟨pl, hpl, hin⟩ := hp.place hn ht (isIn_iff_isInfix.mp hin)
  exact (h pl hpl hin).2

/-- The same of a text that is looked for in lower case. -/
theorem OnlyIn.of_isIn_lower {t n : Node} {k w : Str} {ok : Bytes → Prop}
    (h : OnlyIn shown t n k (w <:+: lower ·) ok) (hp : Prints shown print) (hn : '\n' ∉ w)
    (ht : '\t' ∉ w) (hin : isIn w (lower (print t)) = true) : ok (n.prop k) := by
  obtain ⟨v, hv, rfl⟩ := List.infix_map_iff.mp (isIn_iff_isInfix.mp hin)
  obtain ⟨pl, hpl, hin⟩ := hp.place (fun hm => hn (List.mem_map.mpr ⟨_, hm, rfl⟩))
    (fun hm => ht (List.mem_map.mpr ⟨_, hm, rfl⟩)) hv
  exact (h pl hpl (hin.map _)).2

theorem Tidy.agrees {csr : Json} {t : Node} (h : Tidy shown csr t) (hp : Prints shown print) :
    Agrees csr t (print t) := by
  have hserial : ∀ c ∈ ['\n', '\t', ' '], hexDigit? c = none ∧ c ≠ '-' ∧ c ∉ "serial@".toList :=
    List.forall_mem_cons.mpr ⟨by decide, List.forall_mem_cons.mpr ⟨by decide,
      List.forall_mem_singleton.mpr (by decide)⟩⟩
  have hmac : ∀ c ∈ ['\n', '\t', ' '], hexDigit? c = none ∧ c ≠ '-' ∧ c ∉ "mac@".toList :=
    List.forall_mem_cons.mpr ⟨by decide, List.forall_mem_cons.mpr ⟨by decide,
      List.forall_mem_singleton.mpr (by decide)⟩⟩
  refine ⟨fun u hu hin => ?_, fun e he hin => ?_⟩
  · refine (h.serial u hu).node hp (List.mem_append_left _ (by decide)) (fun c hc => ?_) hin
    obtain ⟨hc, hne, hpre⟩ := hserial c hc
    exact List.not_mem_append hpre (not_mem_hex hc hne u)
  · obtain ⟨n, hn, hname⟩ : ∃ n ∈ t.nodes, n.name = macAt e := by
      refine (h.ethmac e he).1.node hp (List.mem_append_left _ (by decide)) (fun c hc => ?_) hin
      obtain ⟨hc, hne, hpre⟩ := hmac c hc
      exact List.not_mem_append hpre (not_mem_hex hc hne e)
    have hown := (h.ethmac e he).2 n hn hname
    refine ⟨n, hn, hname, fun _ hlack => ?_, fun b hb hin => ?_, fun bs hbs hin => ?_⟩
    · exact hown.names.of_isIn hp (by decide) (by decide)
        (isIn_iff_isInfix.mpr (infix_of_regNamesLacking hlack))
    · exact (hown.reg b hb).of_isIn hp (not_mem_hex (by decide) (by decide) b)
        (not_mem_hex (by decide) (by decide) b) hin
    · exact (hown.address bs hbs).of_isIn_lower hp (not_mem_bracketed (by decide) (by decide) bs)
        (not_mem_bracketed (by decide) (by decide) bs) hin

theorem Plain.notMisled {p : Staging} {dtc : Dtc} (h : Plain shown p dtc)
    (hp : ∀ print, dtc.print = some print → Prints shown print) : NotMisled p dtc := by
  refine ⟨fun ns hns => ?_, fun hnone name hname => ?_, fun print hprint name hname t ht => ?_⟩
  · obtain ⟨ns', hns', hne⟩ := h.images
    rwa [hns.unique hns']
  · rw [h.seen hnone] at hname
    cases hname
  · exact (h.tidy name hname t ht).agrees (hp print hprint)

end Tidy

/-- A SoC's csr.json. -/
def socCsr : Json :=
  .obj [("constants".toList, .obj [("macaddr1".toList, .int 0x10), ("macaddr2".toList, .int 0xe2),
      ("macaddr3".toList, .int 0xd5), ("macaddr4".toList, .int 0), ("macaddr5".toList, .int 0),
      ("macaddr6".toList, .int 7)]),
    ("csr_bases".toList, .obj [("uart".toList, .int 0xf0001000), ("ethmac".toList, .int 0xf0009000)]),
    ("memories".toList, .obj [("ethmac".toList, .obj [("base".toList, .int 0x80000000)])])]

/-- A tree without a serial node; the mac node names no buffer and has its
address in another property. -/
def strayTree : Node :=
  .mk [] [] [
    .mk "aliases".toList [("serial0".toList, bytesOf "/soc/serial@f0001000\x00".toList)] [],
    .mk "mac@f0009000".toList [("compatible".toList, bytesOf "litex,liteeth-buffer\x00".toList),
      ("reg".toList, [0xf0, 0, 0x90, 0, 0, 0, 0, 0x7c]), ("reg-names".toList, bytesOf "mac\x00".toList),
      ("linux,initrd-start".toList, [0x80, 0, 0, 0]),
      ("local-mac-address".toList, [0x10, 0xe2, 0xd5, 0, 0, 7])] []]

/-- A directory for it, with these images and device trees. -/
def staged (images dtbs : List Str) : Staging where
  dir := "tftp/10:e2:d5:00:00:07/".toList
  csr := socCsr
  min_kernel := "6.0".toList
  bootJson := some (some (.obj (images.map fun n => (n, .str "0x40000000".toList))))
  file n := if images.contains n then some ⟨[0], true⟩ else none
  listing := some dtbs

def tidyMac : Node :=
  .mk "mac@f0009000".toList [("compatible".toList, bytesOf "litex,liteeth\x00".toList),
    ("reg".toList, [0xf0, 0, 0x90, 0, 0, 0, 0, 0x7c, 0x80, 0, 0, 0, 0, 0, 0x20, 0]),
    ("reg-names".toList, bytesOf "mac\x00buffer\x00".toList),
    ("local-mac-address".toList, [0x10, 0xe2, 0xd5, 0, 0, 7])] []

/-- A tree with both nodes, and the serial node's path in an alias. -/
def tidyTree : Node :=
  .mk [] [] [
    .mk "aliases".toList [("serial0".toList, bytesOf "/serial@f0001000\x00".toList)] [],
    .mk "serial@f0001000".toList [("reg".toList, [0xf0, 0, 0x10, 0, 0, 0, 1, 0])] [], tidyMac]

theorem onlyIn_of_split {shown : Str × Bytes → Str} {t n : Node} {k : Str} {found : Str → Prop}
    {ok : Bytes → Prop} {l r : List Place} (hsplit : t.places = l ++ .prop n (k, n.prop k) :: r)
    (hother : ∀ pl ∈ l ++ r, ¬ found (pl.text shown)) (hok : ok (n.prop k)) :
    OnlyIn shown t n k found ok := fun pl hpl hin => by
  rw [hsplit] at hpl
  rcases List.mem_append.mp hpl with hpl | hpl
  · exact absurd hin (hother pl (List.mem_append_left r hpl))
  · rcases List.mem_cons.mp hpl with rfl | hpl
    · exact ⟨rfl, hok⟩
    · exact absurd hin (hother pl (List.mem_append_right l hpl))

theorem tidy_tidyTree : Tidy propText socCsr tidyTree where
  serial u hu := by
    obtain rfl : (0xf0001000 : ℤ) = u := Option.some.inj (Except.ok.inj hu)
    exact ⟨by decide +kernel, by decide +kernel⟩
  ethmac e he := by
    obtain rfl : (0xf0009000 : ℤ) = e := Option.some.inj (Except.ok.inj he)
    refine ⟨⟨by decide +kernel, by decide +kernel⟩, fun n hn hname => ?_⟩
    obtain rfl : n = tidyMac := by
      have hne : ∀ m ∈ tidyTree.nodes.take 3, m.name ≠ macAt 0xf0009000 := by decide +kernel
      have hnodes : n ∈ tidyTree.nodes.take 3 ++ [tidyMac] := hn
      rcases List.mem_append.mp hnodes with hn | hn
      · exact absurd hname (hne n hn)
      · exact List.mem_singleton.mp hn
    refine ⟨?_, fun b hb => ?_, fun bs hbs => ?_⟩
    · exact onlyIn_of_split (l := tidyTree.places.take 11) (r := tidyTree.places.drop 12) rfl
        (by decide +kernel) (by decide +kernel)
    · obtain rfl : (0x80000000 : ℤ) = b := Option.some.inj (Except.ok.inj hb)
      exact onlyIn_of_split (l := tidyTree.places.take 10) (r := tidyTree.places.drop 11) rfl
        (by decide +kernel) (by decide +kernel)
    · obtain rfl : [0x10, 0xe2, 0xd5, 0, 0, 7] = bs := Option.some.inj (Except.ok.inj hbs)
      exact onlyIn_of_split (l := tidyTree.places.take 12) (r := tidyTree.places.drop 13) rfl
        (by decide +kernel) (by decide +kernel)

end Payload
end Xc7Tools
