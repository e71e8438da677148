/-
# check_linux_payload.py: what a passed payload has

The rules on the directory, the files of boot.json, the loader and the kernel
say what they mean: where they are quiet the property holds. The rules on a
device tree look for texts anywhere in what `dtc` prints, so they are right
about a tree exactly when each text they find belongs to the node it should
(`Agrees`). An empty boot.json passes, and without `dtc` no tree is looked at.

Key definitions: `Consistent`, `Accepted`, `TreeOk`, `TextOk`, `Agrees`, `Older`.
Key theorems: `main_eq_zero_iff`, `not_older`, `consistent_iff_notMisled`.
-/
import Xc7Tools.Payload.Check

namespace Xc7Tools
namespace Payload

open Str Checked

/-! ### Quiet rules -/

/-- There is no error among the messages. -/
def Silent (ms : List Message) : Prop := ∀ m ∈ ms, m.isError = false

/-- The rule does not raise, and there is no error. -/
def Quiet (r : Except PyError (List Message)) : Prop := ∃ ms, r = .ok ms ∧ Silent ms

theorem silent_append {ms ns : List Message} : Silent (ms ++ ns) ↔ Silent ms ∧ Silent ns := by
  simp only [Silent, List.mem_append, or_imp, forall_and]

theorem silent_flatMap {α : Type} {xs : List α} {f : α → List Message} :
    Silent (xs.flatMap f) ↔ ∀ x ∈ xs, Silent (f x) := by
  simp only [Silent, List.mem_flatMap, forall_exists_index, and_imp]
  exact ⟨fun h x hx m hm => h m x hx hm, fun h m x hx hm => h x hx m hm⟩

theorem silent_nil : Silent [] := fun _ h => nomatch h

/-- A test that adds an error is quiet when it is passed. -/
theorem silent_test {b : Bool} {m : Message} (hm : m.isError = true) :
    Silent (if !b then [m] else []) ↔ b = true := by
  cases b <;> simp [Silent, hm]

theorem quiet_ok {ms : List Message} : Quiet (.ok ms) ↔ Silent ms := by simp [Quiet]

/-- A loop is quiet when each pass is. -/
theorem quiet_mapM {α : Type} (f : α → Except PyError (List Message)) : ∀ xs : List α,
    (∃ ms, xs.mapM f = .ok ms ∧ Silent ms.flatten) ↔ ∀ x ∈ xs, Quiet (f x)
  | [] => by simp [pure_eq_ok, silent_nil]
  | x :: xs => by
    rw [List.forall_mem_cons, ← quiet_mapM f xs]
    simp only [List.mapM_cons, bind_eq_ok, pure_eq_ok]
    constructor
    · rintro ⟨_, ⟨m, hm, ms, hms, rfl⟩, h⟩
      rw [List.flatten_cons, silent_append] at h
      exact ⟨⟨m, hm, h.1⟩, ms, hms, h.2⟩
    · rintro ⟨⟨m, hm, h⟩, ms, hms, h'⟩
      exact ⟨_, ⟨m, hm, ms, hms, rfl⟩, by rw [List.flatten_cons, silent_append]; exact ⟨h, h'⟩⟩

theorem main_eq_zero {p : Staging} {dtc : Dtc} : main p dtc = .ok 0 ↔ Quiet (messages p dtc) := by
  simp only [main, bind_eq_ok, pure_eq_ok, Quiet, Silent]
  refine exists_congr fun ms => and_congr_right fun _ => ?_
  cases h : ms.any Message.isError with
  | true =>
    obtain ⟨m, hm, he⟩ := List.any_eq_true.mp h
    exact iff_of_false (by simp) fun hall => by rw [hall m hm] at he; cases he
  | false => simpa using h

/-! ### The directory, boot.json and the kernel -/

theorem silent_checkDir {dir : Str} {mac : Option Str} :
    Silent (checkDir dir mac) ↔ ∀ m, mac = some m → lower (base dir) = lower m := by
  cases mac with
  | none => simp [checkDir, Silent, Message.isError]
  | some m => by_cases h : lower (base dir) = lower m <;> simp [checkDir, Silent, Message.isError, h]

theorem silent_checkFile {file : Str → Option File} {name : Str} :
    Silent (checkFile file name) ↔ ∃ f, file name = some f ∧ f.bytes ≠ [] := by
  unfold checkFile
  cases file name with
  | none => simp [Silent, Message.isError]
  | some f => by_cases h : f.bytes = [] <;> simp [Silent, Message.isError, h]

/-- boot.json parses, and lists these names. -/
def Lists (p : Staging) (ns : List Str) : Prop := ∃ v, p.bootJson = some (some v) ∧ v.names = .ok ns

/-- The names are files with something in them, and the last is a loader. -/
def Bootable (p : Staging) (ns : List Str) : Prop :=
  (∀ n ∈ ns, ∃ f, p.file n = some f ∧ f.bytes ≠ []) ∧ ∀ last, ns.getLast? = some last → isLoader last

theorem quiet_checkBoot {p : Staging} :
    Quiet (checkBoot p) ↔ ∃ ns, Lists p ns ∧ Bootable p ns := by
  unfold checkBoot Lists
  match p.bootJson with
  | none => simp [Quiet, pure_eq_ok, Silent, Message.isError]
  | some none => simp [Quiet, pure_eq_ok, Silent, Message.isError]
  | some (some v) =>
    have hlast : ∀ last, Silent (checkLast last) ↔ ∀ l, last = some l → isLoader l = true := fun last => by
      cases last with
      | none => simp [checkLast, Silent]
      | some l =>
        rw [checkLast, silent_test rfl]
        simp
    have hq : ∀ ns : List Str, Silent (ns.flatMap (checkFile p.file) ++ checkLast ns.getLast?) ↔
        Bootable p ns := fun ns => by
      rw [silent_append, silent_flatMap, hlast, Bootable]
      simp only [silent_checkFile]
    simp only [Quiet, bind_eq_ok, pure_eq_ok, Option.some.injEq, exists_eq_left']
    constructor
    · rintro ⟨_, ⟨ns, hns, rfl⟩, h⟩
      exact ⟨ns, hns, (hq ns).mp h⟩
    · rintro ⟨ns, hns, h⟩
      exact ⟨_, ⟨ns, hns, rfl⟩, (hq ns).mpr h⟩

theorem quiet_checkImage {image : Option File} {want : List ℤ} : Quiet (checkImage image want) ↔
    ∀ f, image = some f → f.readable = true ∧ ∃ v, kernel_version f.bytes = .ok v ∧
      ∀ m, v = some m → tupleLt [m.1, m.2] want = false := by
  unfold checkImage
  cases image with
  | none => simp [quiet_ok, silent_nil]
  | some f =>
    cases hr : f.readable with
    | false => simp [quiet_ok, Silent, Message.isError, hr]
    | true =>
      simp only [Quiet, Bool.not_true, Bool.false_eq_true, if_false, bind_eq_ok, pure_eq_ok,
        Option.some.injEq, forall_eq', hr, true_and]
      constructor
      · rintro ⟨_, ⟨v, hv, rfl⟩, hs⟩
        refine ⟨v, hv, fun m hm => ?_⟩
        subst hm
        cases h : tupleLt [(m.1 : ℤ), (m.2 : ℤ)] want with
        | false => rfl
        | true => simp [Silent, Message.isError, h] at hs
      · rintro ⟨v, hv, hs⟩
        refine ⟨_, ⟨v, hv, rfl⟩, ?_⟩
        cases v with
        | none => simp [Silent, Message.isError]
        | some m => simp [Silent, hs m rfl]

/-- The numbers after the second, dots between them. -/
def components (rest : Bytes) : List ℕ :=
  (((rest.takeWhile fun b => isDigitByte b || b == 0x2E).splitOn 0x2E).filter (· ≠ [])).map byteValue

/-- The version in the kernel's banner, all of it. -/
def bannerVersion (blob : Bytes) : Option (List ℕ) :=
  (searchBanner blob).map fun m => byteValue m.1 :: byteValue m.2.1 :: components m.2.2

/-- Component by component, a missing one being 0. -/
def Older (v : List ℕ) (want : List ℤ) : Prop :=
  ∃ i, (v.getD i 0 : ℤ) < want.getD i 0 ∧ ∀ j < i, (v.getD j 0 : ℤ) = want.getD j 0

/-- The comparison of the first two numbers, as tuples, lets no older kernel
pass. -/
theorem not_older {a b : ℕ} {cs : List ℕ} {want : List ℤ}
    (h : tupleLt [(a : ℤ), (b : ℤ)] want = false) : ¬ Older (a :: b :: cs) want := by
  rintro ⟨i, hi, heq⟩
  rcases want with _ | ⟨w₀, _ | ⟨w₁, ws⟩⟩
  · simp only [List.getD_nil] at hi
    omega
  · -- one number: past it the wanted version is all zeros
    simp only [tupleLt, Bool.or_false, Bool.and_false, decide_eq_false_iff_not, not_lt] at h
    rcases i with _ | i
    · simp only [List.getD_cons_zero] at hi
      omega
    · simp only [List.getD_cons_succ, List.getD_nil] at hi
      omega
  · simp only [tupleLt, Bool.or_eq_false_iff, Bool.and_eq_false_iff, decide_eq_false_iff_not,
      beq_eq_false_iff_ne, not_lt] at h
    rcases i with _ | _ | i
    · simp only [List.getD_cons_zero] at hi
      omega
    · have h0 := heq 0 (by omega)
      simp only [List.getD_cons_succ, List.getD_cons_zero] at hi h0
      omega
    · have h0 := heq 0 (by omega)
      have h1 := heq 1 (by omega)
      simp only [List.getD_cons_succ, List.getD_cons_zero] at hi h0 h1
      -- the tuple of two is before a longer one it begins
      obtain ⟨-, h | ⟨-, h | h⟩⟩ := h
      · omega
      · omega
      · cases ws with
        | nil =>
          simp only [List.getD_nil] at hi
          omega
        | cons w ws => simp [tupleLt] at h

/-! ### The device trees -/

/-- What the tests look for in a tree's text. -/
structure TextOk (p : Staging) (mac : Option Str) (dts : Str) : Prop where
  serial : ∃ uart, uartBase p.csr = .ok uart ∧ ∀ u, uart = some u → isIn (serialAt u) dts = true
  ethmac : ∃ eth, ethmacBase p.csr = .ok eth ∧ ∀ e, eth = some e →
    isIn (macAt e) dts = true ∧ ∃ buf, bufferBase p.csr = .ok buf ∧
      isIn "reg-names".toList dts = true ∧ regNamesLacking [] dts = [] ∧
      (∀ b, buf = some b → isIn (hex b) dts = true) ∧
      ∀ m, mac = some m → isIn (bracketed m) (lower dts) = true
  nfs : isIn "root=/dev/nfs".toList dts = true → isIn "ip=".toList dts = true

theorem silent_regNamesLacking {name dts : Str} :
    Silent (regNamesLacking name dts) ↔ regNamesLacking [] dts = [] := by
  unfold regNamesLacking Silent
  rw [List.map_eq_nil_iff, List.forall_mem_map, List.eq_nil_iff_forall_not_mem]
  simp [Message.isError]

theorem silent_checkMac (name : Str) {mac : Option Str} {buf : Option ℤ} {dts : Str} :
    Silent (checkMac mac buf name dts) ↔ isIn "reg-names".toList dts = true ∧
      regNamesLacking [] dts = [] ∧ (∀ b, buf = some b → isIn (hex b) dts = true) ∧
      ∀ m, mac = some m → isIn (bracketed m) (lower dts) = true := by
  have hnames : Silent (if !isIn "reg-names".toList dts then [.noRegNames name]
      else regNamesLacking name dts) ↔
      isIn "reg-names".toList dts = true ∧ regNamesLacking [] dts = [] := by
    cases h : isIn "reg-names".toList dts with
    | false => simp [Silent, Message.isError]
    | true => simp [silent_regNamesLacking]
  have hbuf : Silent (checkBuffer name dts buf) ↔ ∀ b, buf = some b → isIn (hex b) dts = true := by
    cases buf with
    | none => simp [checkBuffer, Silent]
    | some b =>
      rw [checkBuffer, silent_test rfl]
      simp
  have hmac : Silent (checkAddress name dts mac) ↔
      ∀ m, mac = some m → isIn (bracketed m) (lower dts) = true := by
    cases mac with
    | none => simp [checkAddress, Silent]
    | some m =>
      rw [checkAddress, silent_test rfl]
      simp
  have hpoll : Silent (checkInterrupts name dts) := by
    unfold checkInterrupts
    split <;> simp [Silent, Message.isError]
  unfold checkMac
  rw [silent_append, silent_append, silent_append, hnames, hbuf, hmac]
  simp only [hpoll, and_true, and_assoc]

theorem silent_checkSerial {name dts : Str} {uart : Option ℤ} :
    Silent (checkSerial name dts uart) ↔ ∀ u, uart = some u → isIn (serialAt u) dts = true := by
  cases uart with
  | none => simp [checkSerial, Silent]
  | some u =>
    rw [checkSerial, silent_test rfl]
    simp

theorem silent_checkNfs {cpio : Option File} {name dts : Str} : Silent (checkNfs cpio name dts) ↔
    (isIn "root=/dev/nfs".toList dts = true → isIn "ip=".toList dts = true) := by
  have hcpio : Silent (if cpio.isSome then [.cpioUnused name] else []) := by
    split <;> simp [Silent, Message.isError]
  unfold checkNfs
  cases isIn "root=/dev/nfs".toList dts with
  | false => simp [Silent]
  | true =>
    simp only [if_true, silent_append, hcpio, and_true, forall_const]
    exact silent_test rfl

theorem quiet_checkEthmac (name : Str) {csr : Json} {mac : Option Str} {dts : Str}
    {eth : Option ℤ} :
    Quiet (checkEthmac csr mac name dts eth) ↔ ∀ e, eth = some e → isIn (macAt e) dts = true ∧
      ∃ buf, bufferBase csr = .ok buf ∧ isIn "reg-names".toList dts = true ∧
        regNamesLacking [] dts = [] ∧ (∀ b, buf = some b → isIn (hex b) dts = true) ∧
        ∀ m, mac = some m → isIn (bracketed m) (lower dts) = true := by
  unfold checkEthmac
  cases eth with
  | none => simp [quiet_ok, silent_nil]
  | some e =>
    cases h : isIn (macAt e) dts with
    | false => simp [quiet_ok, Silent, Message.isError, h]
    | true =>
      simp only [Quiet, Bool.not_true, Bool.false_eq_true, if_false, bind_eq_ok, pure_eq_ok,
        Option.some.injEq, forall_eq', h, true_and, ← silent_checkMac name]
      exact ⟨fun ⟨_, ⟨buf, hb, hms⟩, hs⟩ => ⟨buf, hb, hms ▸ hs⟩,
        fun ⟨buf, hb, hs⟩ => ⟨_, ⟨buf, hb, rfl⟩, hs⟩⟩

theorem quiet_checkTree {p : Staging} {mac : Option Str} {name dts : Str} :
    Quiet (checkTree p mac name dts) ↔ TextOk p mac dts := by
  constructor
  · rintro ⟨_, h, hs⟩
    simp only [checkTree, bind_eq_ok, pure_eq_ok] at h
    obtain ⟨uart, hu, eth, he, ms, hms, rfl⟩ := h
    rw [silent_append, silent_append, silent_checkSerial, silent_checkNfs] at hs
    exact ⟨⟨uart, hu, hs.1.1⟩, ⟨eth, he, (quiet_checkEthmac name).mp ⟨ms, hms, hs.1.2⟩⟩, hs.2⟩
  · rintro ⟨⟨uart, hu, hus⟩, ⟨eth, he, hes⟩, hn⟩
    obtain ⟨ms, hms, hs⟩ := (quiet_checkEthmac name).mpr hes
    refine ⟨checkSerial name dts uart ++ ms ++ checkNfs (p.file "rootfs.cpio".toList) name dts, ?_, ?_⟩
    · simp only [checkTree, bind_eq_ok, pure_eq_ok]
      exact ⟨uart, hu, eth, he, ms, hms, rfl⟩
    · rw [silent_append, silent_append, silent_checkSerial, silent_checkNfs]
      exact ⟨⟨hus, hs⟩, hn⟩

/-! ### A payload that passes -/

/-- Everything the script looks at passes. -/
structure Accepted (p : Staging) (dtc : Dtc) : Prop where
  rules : ∃ mac, soc_mac p.csr = .ok mac ∧ (∀ m, mac = some m → lower (base p.dir) = lower m) ∧
    ∀ name ∈ stagedDtbs p, ∀ print, dtc.print = some print →
      ∃ t, treeOf p dtc name = some t ∧ TextOk p mac (print t)
  boot : ∃ ns, Lists p ns ∧ Bootable p ns
  kernel : ∃ want, wanted p.min_kernel = .ok want ∧ ∀ f, p.file "Image".toList = some f →
    f.readable = true ∧ ∃ v, kernel_version f.bytes = .ok v ∧
      ∀ m, v = some m → tupleLt [m.1, m.2] want = false

theorem quiet_checkDtb {p : Staging} {dtc : Dtc} {mac : Option Str} {name : Str} :
    Quiet (checkDtb p dtc mac name) ↔ ∀ print, dtc.print = some print →
      ∃ t, treeOf p dtc name = some t ∧ TextOk p mac (print t) := by
  unfold checkDtb
  cases dtc.print with
  | none => simp [quiet_ok, Silent, Message.isError]
  | some print =>
    cases treeOf p dtc name with
    | none => simp [quiet_ok, Silent, Message.isError]
    | some t => simp [quiet_checkTree]

/-- **Status 0 is that every rule passes.** -/
theorem main_eq_zero_iff {p : Staging} {dtc : Dtc} : main p dtc = .ok 0 ↔ Accepted p dtc := by
  rw [main_eq_zero]
  constructor
  · rintro ⟨_, h, hs⟩
    simp only [messages, bind_eq_ok, pure_eq_ok] at h
    obtain ⟨mac, hmac, boot, hboot, want, hwant, image, himage, trees, htrees, rfl⟩ := h
    rw [silent_append, silent_append, silent_append, silent_checkDir] at hs
    obtain ⟨⟨⟨hdir, hb⟩, hi⟩, ht⟩ := hs
    have hall := (quiet_mapM (checkDtb p dtc mac) (stagedDtbs p)).mp ⟨trees, htrees, ht⟩
    simp only [quiet_checkDtb] at hall
    exact ⟨⟨mac, hmac, hdir, hall⟩, quiet_checkBoot.mp ⟨boot, hboot, hb⟩, want, hwant,
      quiet_checkImage.mp ⟨image, himage, hi⟩⟩
  · rintro ⟨⟨mac, hmac, hdir, hall⟩, hboot, want, hwant, himage⟩
    obtain ⟨boot, hboot, hb⟩ := quiet_checkBoot.mpr hboot
    obtain ⟨image, himage, hi⟩ := quiet_checkImage.mpr himage
    simp only [← quiet_checkDtb] at hall
    obtain ⟨trees, htrees, ht⟩ := (quiet_mapM (checkDtb p dtc mac) (stagedDtbs p)).mpr hall
    refine ⟨checkDir p.dir mac ++ boot ++ image ++ trees.flatten, ?_, ?_⟩
    · simp only [messages, bind_eq_ok, pure_eq_ok]
      exact ⟨mac, hmac, boot, hboot, want, hwant, image, himage, trees, htrees, rfl⟩
    · rw [silent_append, silent_append, silent_append, silent_checkDir]
      exact ⟨⟨⟨hdir, hb⟩, hi⟩, ht⟩

/-- The mac node of a tree: named for its address, with both regions named in
its own reg-names, the buffer in its own reg, and the MAC of the SoC. -/
structure MacNode (csr : Json) (e : ℤ) (n : Node) : Prop where
  name : n.name = macAt e
  mac : "mac".toList ∈ strings (n.prop "reg-names".toList)
  buffer : "buffer".toList ∈ strings (n.prop "reg-names".toList)
  reg : ∀ b : ℤ, bufferBase csr = .ok (some b) → b ∈ (cells (n.prop "reg".toList)).map Int.ofNat
  address : ∀ bs, macaddr csr = .ok (some bs) →
    (n.prop "local-mac-address".toList).map (fun b => (b.toNat : ℤ)) = bs

/-- The tree describes the SoC: a serial node at its UART, and a mac node at
its ethmac. -/
structure TreeOk (csr : Json) (t : Node) : Prop where
  serial : ∀ u, uartBase csr = .ok (some u) → ∃ n ∈ t.nodes, n.name = serialAt u
  ethmac : ∀ e, ethmacBase csr = .ok (some e) → ∃ n ∈ t.nodes, MacNode csr e n

/-- The payload is consistent with the SoC. -/
structure Consistent (p : Staging) (dtc : Dtc) : Prop where
  dir : ∀ bs, macaddr p.csr = .ok (some bs) → lower (base p.dir) = lower (macText bs)
  images : ∃ ns last, Lists p ns ∧ (∀ n ∈ ns, ∃ f, p.file n = some f ∧ f.bytes ≠ []) ∧
    ns.getLast? = some last ∧ isLoader last = true
  kernel : ∀ f v want, p.file "Image".toList = some f → bannerVersion f.bytes = some v →
    wanted p.min_kernel = .ok want → ¬ Older v want
  trees : ∀ name ∈ stagedDtbs p, ∃ t, treeOf p dtc name = some t ∧ TreeOk p.csr t

/-- The texts the tests find in a tree's text belong to the nodes they are
about: to a node's name, and to the properties of the mac node. -/
structure Agrees (csr : Json) (t : Node) (dts : Str) : Prop where
  serial : ∀ u, uartBase csr = .ok (some u) → isIn (serialAt u) dts = true →
    ∃ n ∈ t.nodes, n.name = serialAt u
  ethmac : ∀ e, ethmacBase csr = .ok (some e) → isIn (macAt e) dts = true →
    ∃ n ∈ t.nodes, n.name = macAt e ∧
      (isIn "reg-names".toList dts = true → regNamesLacking [] dts = [] →
        "mac".toList ∈ strings (n.prop "reg-names".toList) ∧
        "buffer".toList ∈ strings (n.prop "reg-names".toList)) ∧
      (∀ b : ℤ, bufferBase csr = .ok (some b) → isIn (hex b) dts = true →
        b ∈ (cells (n.prop "reg".toList)).map Int.ofNat) ∧
      ∀ bs, macaddr csr = .ok (some bs) → isIn (bracketed (macText bs)) (lower dts) = true →
        (n.prop "local-mac-address".toList).map (fun b => (b.toNat : ℤ)) = bs

/-- A tree whose text passes is right exactly when the text agrees with it. -/
theorem agrees_iff {p : Staging} {mac : Option Str} {t : Node} {dts : Str}
    (hmac : soc_mac p.csr = .ok mac) (h : TextOk p mac dts) :
    Agrees p.csr t dts ↔ TreeOk p.csr t := by
  obtain ⟨⟨uart, hu, hserial⟩, ⟨eth, he, heth⟩, -⟩ := h
  have hs : ∀ u, uartBase p.csr = .ok (some u) → isIn (serialAt u) dts = true := fun u hu' =>
    hserial u (Except.ok.inj (hu.symm.trans hu'))
  have hb : ∀ bs, macaddr p.csr = .ok (some bs) → mac = some (macText bs) := fun bs hbs => by
    rw [soc_mac, hbs] at hmac
    exact (Except.ok.inj hmac).symm
  constructor
  · intro ha
    refine ⟨fun u hu' => ha.serial u hu' (hs u hu'), fun e he' => ?_⟩
    obtain ⟨hname, buf, hbuf, hrn, hlack, hreg, haddr⟩ := heth e (Except.ok.inj (he.symm.trans he'))
    obtain ⟨n, hn, hnm, h1, h2, h3⟩ := ha.ethmac e he' hname
    exact ⟨n, hn, hnm, (h1 hrn hlack).1, (h1 hrn hlack).2,
      fun b hb' => h2 b hb' (hreg b (Except.ok.inj (hbuf.symm.trans hb'))),
      fun bs hbs => h3 bs hbs (haddr _ (hb bs hbs))⟩
  · intro ht
    refine ⟨fun u hu' _ => ht.serial u hu', fun e he' _ => ?_⟩
    obtain ⟨n, hn, hnode⟩ := ht.ethmac e he'
    exact ⟨n, hn, hnode.name, fun _ _ => ⟨hnode.mac, hnode.buffer⟩, fun b hb' _ => hnode.reg b hb',
      fun bs hbs _ => hnode.address bs hbs⟩

/-- boot.json lists an image; and the staged trees are right where `dtc` is
missing, and agree with their texts where it is not. -/
structure NotMisled (p : Staging) (dtc : Dtc) : Prop where
  images : ∀ ns, Lists p ns → ns ≠ []
  unchecked : dtc.print = none →
    ∀ name ∈ stagedDtbs p, ∃ t, treeOf p dtc name = some t ∧ TreeOk p.csr t
  checked : ∀ print, dtc.print = some print →
    ∀ name ∈ stagedDtbs p, ∀ t, treeOf p dtc name = some t → Agrees p.csr t (print t)

/-- The version of the two numbers is the beginning of the one in the banner. -/
theorem kernel_version_of_banner {blob : Bytes} {vs : List ℕ} {v : Option (ℕ × ℕ)}
    (hvs : bannerVersion blob = some vs) (hv : kernel_version blob = .ok v) :
    ∃ a b cs, v = some (a, b) ∧ vs = a :: b :: cs := by
  have hint : ∀ {ds : Bytes} {n : ℕ}, intOfBytes ds = .ok n → byteValue ds = n := fun {ds n} h => by
    unfold intOfBytes at h
    split_ifs at h
    exact Except.ok.inj h
  obtain ⟨m, hm, rfl⟩ := Option.map_eq_some_iff.mp hvs
  rw [kernel_version, hm] at hv
  simp only [bind_eq_ok, pure_eq_ok] at hv
  obtain ⟨a, ha, b, hb, rfl⟩ := hv
  exact ⟨a, b, components m.2.2, rfl, by rw [hint ha, hint hb]⟩

theorem kernel_of_accepted {p : Staging} {dtc : Dtc} (h : Accepted p dtc) {f : File} {v : List ℕ}
    {want : List ℤ} (hf : p.file "Image".toList = some f) (hv : bannerVersion f.bytes = some v)
    (hw : wanted p.min_kernel = .ok want) : ¬ Older v want := by
  obtain ⟨want', hw', hall⟩ := h.kernel
  obtain rfl : want' = want := Except.ok.inj (hw'.symm.trans hw)
  obtain ⟨-, m, hm, hnew⟩ := hall f hf
  obtain ⟨a, b, cs, rfl, rfl⟩ := kernel_version_of_banner hv hm
  exact not_older (hnew (a, b) rfl)

theorem Lists.unique {p : Staging} {ns ns' : List Str} (h : Lists p ns) (h' : Lists p ns') :
    ns = ns' := by
  obtain ⟨v, hv, hns⟩ := h
  obtain ⟨v', hv', hns'⟩ := h'
  obtain rfl : v = v' := Option.some.inj (Option.some.inj (hv.symm.trans hv'))
  exact Except.ok.inj (hns.symm.trans hns')

/-- A passed payload is consistent when boot.json lists an image and no tree is
taken for what it is not, and only then. -/
theorem consistent_iff_notMisled {p : Staging} {dtc : Dtc} (hacc : Accepted p dtc) :
    Consistent p dtc ↔ NotMisled p dtc := by
  have hkernel := fun f v want => @kernel_of_accepted p dtc hacc f v want
  obtain ⟨⟨mac, hmac, hdir, htext⟩, ⟨ns, hns, hfiles, hlast⟩, -⟩ := hacc
  constructor
  · intro h
    refine ⟨fun ns' hns' => ?_, fun _ => h.trees, fun print hp name hname t ht => ?_⟩
    · obtain ⟨ns₀, last, hns₀, -, hl, -⟩ := h.images
      rw [← hns₀.unique hns']
      rintro rfl
      cases hl
    · obtain ⟨t₁, ht₁, hok⟩ := htext name hname print hp
      obtain rfl : t = t₁ := Option.some.inj (ht.symm.trans ht₁)
      obtain ⟨t₂, ht₂, hright⟩ := h.trees name hname
      obtain rfl : t = t₂ := Option.some.inj (ht.symm.trans ht₂)
      exact (agrees_iff hmac hok).mpr hright
  · intro h
    refine ⟨fun bs hbs => ?_, ?_, hkernel, fun name hname => ?_⟩
    · rw [soc_mac, hbs] at hmac
      exact hdir _ (Except.ok.inj hmac).symm
    · obtain ⟨last, hl⟩ := Option.isSome_iff_exists.mp (List.getLast?_isSome.mpr (h.images ns hns))
      exact ⟨ns, last, hns, hfiles, hl, hlast last hl⟩
    · cases hp : dtc.print with
      | none => exact h.unchecked hp name hname
      | some print =>
        obtain ⟨t, ht, hok⟩ := htext name hname print hp
        exact ⟨t, ht, (agrees_iff hmac hok).mp (h.checked print hp name hname t ht)⟩

end Payload
end Xc7Tools
