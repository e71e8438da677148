/-
# tftp_serve.py: the file that is served

`mac_for_ip` and `resolve` of `scripts/tftp_serve.py`. The filename is tested
before it is joined: it is relative and has no `..` between slashes, and a
backslash counts as one. The name of the client's own directory is not tested.
It is the hardware address that the ARP table has, in lower case, with its colons
or without, so it is what stays under the root just as long as the table's
addresses do (`resolve_under`). The table is read as ASCII.

Key definitions: `macForIp`, `addresses`, `resolve`, `Confined`.
Key theorems: `resolve_cases`, `resolve_under`.
-/
import Xc7Tools.Tftp.Request
import Xc7Tools.Lib.Lines
import Xc7Tools.Lib.Paths

namespace Xc7Tools
namespace Tftp

open Str Paths

/-! ### mac_for_ip and resolve -/

/-- `mac_for_ip`, of the text of `/proc/net/arp`; none is an OSError. -/
def macForIp (arp : Option Str) (ip : Str) : Option Str :=
  ((linesOf (arp.getD [])).drop 1).findSome? fun line =>
    match fields line with
    | a :: _ :: _ :: b :: _ =>
      if a = ip ∧ lower b ≠ "00:00:00:00:00:00".toList then some (lower b) else none
    | _ => none

/-- The hardware addresses in the table. -/
def addresses (arp : Option Str) : List Str :=
  ((linesOf (arp.getD [])).drop 1).filterMap fun line => (fields line)[3]?

/-- `mac.replace(":", "")` -/
def noColons (mac : Str) : Str := mac.filter (· != ':')

/-- `filename.replace("\\", "/")` -/
def slashed (filename : Str) : Str := filename.map fun c => if c = '\\' then '/' else c

structure Resolved where
  path : Option Str
  mac : Option Str
  usedMacDir : Bool
  deriving DecidableEq

/-- The directories of the client, in the order they are tried. -/
def macNames : Option Str → List Str
  | none => []
  | some mac => if mac = [] then [] else [mac, noColons mac]

def resolve (fs : FileSystem) (arp : Option Str) (root filename ip : Str) : Resolved :=
  if isAbs filename || ((slashed filename).splitOn '/').contains dotdot then ⟨none, none, false⟩
  else
    let mac := macForIp arp ip
    match ((macNames mac).map fun name => join (join root name) filename).find? fs.isfile with
    | some candidate => ⟨some candidate, mac, true⟩
    | none =>
      if fs.isfile (join root filename) then ⟨some (join root filename), mac, false⟩
      else ⟨none, mac, false⟩

/-- The name has no slash in it and is not `..`. -/
def Confined (name : Str) : Prop := '/' ∉ name ∧ name ≠ dotdot

instance : DecidablePred Confined := fun _ => inferInstanceAs (Decidable (_ ∧ _))

/-! ### Names -/

theorem toLower_eq_iff {c d : Char} (hd : d.toNat < 'A'.toNat) : c.toLower = d ↔ c = d := by
  unfold Char.toLower
  split_ifs with h
  · have hupper : 65 ≤ c.toNat ∧ c.toNat ≤ 90 := h
    have hlower : (c.val + ('a'.val - 'A'.val)).toNat = c.toNat + 32 := by
      rw [UInt32.toNat_add]
      change (c.toNat + 32) % 2 ^ 32 = _
      omega
    have hd' : d.toNat < 65 := hd
    refine iff_of_false (fun he => ?_) fun he => ?_
    · have := congrArg Char.toNat he
      change (c.val + ('a'.val - 'A'.val)).toNat = _ at this
      omega
    · rw [he] at hupper
      omega
  · rfl

theorem lower_eq_iff : ∀ {s t : Str}, (∀ c ∈ t, c.toNat < 'A'.toNat) → (lower s = t ↔ s = t)
  | [], _, _ => Iff.rfl
  | c :: s, [], _ => by simp [lower]
  | c :: s, d :: t, h => by
    have ih := lower_eq_iff (s := s) fun e he => h e (List.mem_cons_of_mem _ he)
    have hhead := toLower_eq_iff (c := c) (h d List.mem_cons_self)
    rw [lower, List.map_cons, List.cons.injEq, List.cons.injEq, hhead]
    exact and_congr_right fun _ => ih

theorem noColons_lower (s : Str) : noColons (lower s) = lower (noColons s) := by
  have hcolon : ((· != ':') ∘ Char.toLower) = fun c : Char => c != ':' := by
    funext c
    exact Bool.eq_iff_iff.mpr (by simp [toLower_eq_iff])
  rw [noColons, lower, List.filter_map, hcolon]
  rfl

theorem Confined.lower {f : Str} (h : Confined f) : Confined (lower f) := by
  refine ⟨fun hmem => ?_, fun he => ?_⟩
  · obtain ⟨c, hc, hslash⟩ := List.mem_map.mp hmem
    exact h.1 ((toLower_eq_iff (by decide)).mp hslash ▸ hc)
  · have hdots : ∀ c ∈ dotdot, c.toNat < 'A'.toNat := by simp [dotdot]
    exact h.2 ((lower_eq_iff hdots).mp he)

theorem Confined.isAbs {name : Str} (h : Confined name) : isAbs name = false := by
  cases name with
  | nil => rfl
  | cons c s => simpa [Paths.isAbs] using fun e : c = '/' => h.1 (e ▸ List.mem_cons_self)

theorem Confined.dotdot_notMem {name : Str} (h : Confined name) : dotdot ∉ parts name := by
  rw [parts, List.splitOn_eq_singleton h.1, List.mem_singleton]
  exact fun e => h.2 e.symm

theorem macForIp_eq_some {arp : Option Str} {ip mac : Str} (h : macForIp arp ip = some mac) :
    mac ≠ [] ∧ ∃ f ∈ addresses arp, mac = lower f := by
  obtain ⟨line, hline, h⟩ := List.exists_of_findSome?_eq_some h
  split at h
  · next a b c f more hfields =>
    split_ifs at h
    obtain rfl := Option.some.inj h
    have hmem : f ∈ fields line := by simp [hfields]
    have hne : f ≠ [] := by simpa using (List.mem_filter.mp hmem).2
    refine ⟨fun hnil => hne (List.map_eq_nil_iff.mp hnil), f, ?_, rfl⟩
    exact List.mem_filterMap.mpr ⟨line, hline, by simp [hfields]⟩
  · cases h

/-- What the client's directories are called, where the table's addresses are confined. -/
theorem confined_of_mem_macNames {arp : Option Str} {ip name : Str}
    (harp : ∀ f ∈ addresses arp, Confined f ∧ Confined (noColons f))
    (h : name ∈ macNames (macForIp arp ip)) : Confined name := by
  cases hmac : macForIp arp ip with
  | none =>
    rw [hmac] at h
    cases h
  | some mac =>
    obtain ⟨hne, f, hf, rfl⟩ := macForIp_eq_some hmac
    simp only [hmac, macNames, hne, if_false, List.mem_cons, List.not_mem_nil, or_false] at h
    rcases h with rfl | rfl
    · exact (harp f hf).1.lower
    · rw [noColons_lower]
      exact (harp f hf).2.lower

/-- A `..` between slashes is still one when the backslashes have become slashes. -/
theorem dotdot_mem_slashed {s : Str} (h : dotdot ∈ parts s) :
    dotdot ∈ (slashed s).splitOn '/' := by
  induction hn : s.length using Nat.strong_induction_on generalizing s with
  | _ n ih =>
    by_cases hslash : '/' ∈ s
    · obtain ⟨u, v, rfl⟩ := List.append_of_mem hslash
      have hmap : slashed (u ++ '/' :: v) = slashed u ++ '/' :: slashed v := by
        simp [slashed]
      rw [List.length_append, List.length_cons] at hn
      rw [hmap, List.splitOn_append_cons_self, List.mem_append]
      rw [parts, List.splitOn_append_cons_self, List.mem_append] at h
      refine h.imp (fun hu => ih _ ?_ hu rfl) fun hv => ih _ ?_ hv rfl
      · omega
      · omega
    · rw [parts, List.splitOn_eq_singleton hslash, List.mem_singleton] at h
      rw [← h]
      decide

/-! ### What is served -/

section Resolve

variable {fs : FileSystem} {arp : Option Str} {root filename ip path : Str}

/-- A path that `resolve` returns is a file's, in the client's directory or else in the root. -/
theorem resolve_cases (h : (resolve fs arp root filename ip).path = some path) :
    (isAbs filename = false ∧ dotdot ∉ parts filename) ∧ fs.isfile path = true ∧
      (resolve fs arp root filename ip).mac = macForIp arp ip ∧
      (((resolve fs arp root filename ip).usedMacDir = true ∧
          ∃ name ∈ macNames (macForIp arp ip), path = join (join root name) filename) ∨
        ((resolve fs arp root filename ip).usedMacDir = false ∧
          (∀ name ∈ macNames (macForIp arp ip), path ≠ join (join root name) filename) ∧
          path = join root filename)) := by
  generalize hr : resolve fs arp root filename ip = r at *
  unfold resolve at hr
  by_cases htest : (isAbs filename || ((slashed filename).splitOn '/').contains dotdot) = true
  · rw [if_pos htest] at hr
    rw [← hr] at h
    cases h
  · rw [if_neg htest] at hr
    simp only [Bool.or_eq_true, List.contains_iff_mem, not_or, Bool.not_eq_true] at htest
    refine ⟨⟨htest.1, fun hdots => htest.2 (dotdot_mem_slashed hdots)⟩, ?_⟩
    cases hfind : ((macNames (macForIp arp ip)).map fun name => join (join root name) filename).find?
        fs.isfile with
    | some candidate =>
      simp only [hfind] at hr
      subst hr
      obtain rfl := Option.some.inj h
      obtain ⟨name, hname, hcandidate⟩ := List.mem_map.mp (List.mem_of_find?_eq_some hfind)
      exact ⟨List.find?_some hfind, rfl, .inl ⟨rfl, name, hname, hcandidate.symm⟩⟩
    | none =>
      simp only [hfind] at hr
      split_ifs at hr with hfile
      · subst hr
        obtain rfl := Option.some.inj h
        refine ⟨hfile, rfl, .inr ⟨rfl, fun name hname he => ?_, rfl⟩⟩
        have hnone := List.find?_eq_none.mp hfind _ (List.mem_map_of_mem hname)
        exact hnone (he ▸ hfile)
      · rw [← hr] at h
        cases h

/-- **The path served is under the root, and it is under the client's directory by the first branch
just if `resolve` says so, where no address of the table leads out of a directory, with its colons
or without.** -/
theorem resolve_under (fs : FileSystem) {arp : Option Str} {root path : Str} (payload : Bytes)
    (ip : Str) (hroot : isAbs root = true)
    (harp : ∀ f ∈ addresses arp, Confined f ∧ Confined (noColons f))
    (h : (resolve fs arp root (parseRequest payload).filename ip).path = some path) :
    Under root path ∧
      ((resolve fs arp root (parseRequest payload).filename ip).usedMacDir = true ↔
        ∃ mac, (resolve fs arp root (parseRequest payload).filename ip).mac = some mac ∧
          ∃ name ∈ [mac, noColons mac], Under (join root name) path ∧
            path = join (join root name) (parseRequest payload).filename) := by
  obtain ⟨⟨hrel, hdots⟩, hfile, hmac, hcases⟩ := resolve_cases h
  generalize (parseRequest payload).filename = filename at *
  rw [hmac]
  have hunder : ∀ {base : Str}, isAbs base = true → path = join base filename → Under base path := by
    intro base hbase he
    rw [he] at hfile ⊢
    exact under_join hbase hrel hdots (FileSystem.exists_isName hbase hrel hfile)
  have hjoin : ∀ {name : Str}, Confined name → path = join (join root name) filename →
      Under (join root name) path := fun hname => hunder (isAbs_join hroot hname.isAbs)
  rcases hcases with ⟨hused, name, hname, he⟩ | ⟨hused, hother, he⟩
  · have hconfined := confined_of_mem_macNames harp hname
    have hpath := hjoin hconfined he
    refine ⟨hpath.of_join hroot hconfined.isAbs hconfined.dotdot_notMem, ?_⟩
    refine iff_of_true hused ?_
    cases hm : macForIp arp ip with
    | none =>
      rw [hm] at hname
      cases hname
    | some mac =>
      simp only [hm, macNames, (macForIp_eq_some hm).1, if_false] at hname
      exact ⟨mac, rfl, name, hname, hpath, he⟩
  · refine ⟨hunder hroot he, iff_of_false (by simp [hused]) ?_⟩
    rintro ⟨mac, hm, name, hname, -, he'⟩
    refine hother name ?_ he'
    simp only [hm, macNames, (macForIp_eq_some hm).1, if_false]
    exact hname

end Resolve

/-- A root with one client's directory, and a file beside the root. -/
def bench : FileSystem :=
  .ofEntries [["srv".toList], ["srv".toList, "000a35".toList]]
    [["srv".toList, "000a35".toList, "boot.bin".toList], ["boot.bin".toList]]

/-- A table with one entry. -/
def arpTable (address : String) : Str :=
  "IP HW-type Flags HW-address Mask Device\n10.0.0.2 0x1 0x2 ".toList ++ address.toList ++
    " * eth0\n".toList

theorem resolve_under_client : Under "/srv".toList "/srv/000a35/boot.bin".toList := by
  have hserved : (resolve bench (some (arpTable "00:0A:35")) "/srv".toList
      (parseRequest (encodeRequest "boot.bin".toList [] [])).filename "10.0.0.2".toList).path =
        some "/srv/000a35/boot.bin".toList := by decide +kernel
  exact (resolve_under bench _ _ (by decide) (by decide +kernel) hserved).1

/-- The address is no `..`, but without its colons it is. -/
theorem resolve_escapes :
    isAbs "/srv".toList = true ∧ (∀ f ∈ addresses (some (arpTable ".:.")), Confined f) ∧
      (resolve bench (some (arpTable ".:.")) "/srv".toList
        (parseRequest (encodeRequest "boot.bin".toList [] [])).filename "10.0.0.2".toList).path =
          some "/srv/../boot.bin".toList ∧
      ¬ Under "/srv".toList "/srv/../boot.bin".toList := by
  refine ⟨by decide, by decide +kernel, by decide +kernel, fun h => ?_⟩
  obtain ⟨-, more, -, h⟩ := h
  have hserved : (normalise "/srv/../boot.bin".toList).comps = ["boot.bin".toList] := by decide +kernel
  have hroot : (normalise "/srv".toList).comps = ["srv".toList] := by decide +kernel
  rw [hserved, hroot, List.singleton_append, List.cons.injEq] at h
  exact absurd h.1 (by decide)

end Tftp
end Xc7Tools
