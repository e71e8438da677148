/-
# linux_payload: the script

`scripts/linux_payload.py`, from the text of the device tree source to the text
of `rv32.dts` and the entries of `boot.json`. The address of the UART is an
entry of `csr.json` and the rootfs is known by its size; `dtc` is a program of
its own that accepts the tree or does not. What is printed is left out.

Key definitions: `retarget`, `retargetUart`, `setInitrdEnd`, `tree`, `run`.
-/
import Xc7Tools.Lib.Numerals
import Xc7Tools.NfsrootDtb.Script

namespace Xc7Tools
namespace LinuxPayload

open Str Checked Pattern

def kernelAddr : ℕ := 0x40000000

def rootfsAddr : ℕ := 0x40800000

def dtbAddr : ℕ := 0x41000000

def emulatorAddr : ℕ := 0x50000000

/-- The options that go with `--nfsroot`. -/
structure Options where
  ip : Str := "192.168.1.50".toList
  gw : Str := "192.168.1.1".toList
  mask : Str := "255.255.255.0".toList
  iface : Str := "eth0".toList

inductive Error where
  /-- "no rootfs.cpio in {args.images}" -/
  | noRootfs
  /-- `re` refuses the template. -/
  | template (t : Str)
  /-- `check=True` -/
  | dtc
  deriving DecidableEq

/-- `{n:x}` -/
def hex (n : ℕ) : Str := Nat.toDigits 16 n

/-- `{n:08x}` -/
def hex08 (n : ℕ) : Str := zfill 8 (hex n)

/-- `[0-9a-f]` -/
def isHex (c : Char) : Bool := ('0' ≤ c ∧ c ≤ '9') ∨ ('a' ≤ c ∧ c ≤ 'f')

/-- `r"0x[0-9a-f]{8}"` -/
def value : Pattern Char := seq (lit "0x".toList) (times isHex 8)

/-- `r"serial@[0-9a-f]+"` -/
def serialName : Pattern Char := seq (lit "serial@".toList) (plus isHex)

/-- `r"(serial@[0-9a-f]+\s*\{)([^{}]*\})"` -/
def serialNode : Pattern Char :=
  all [serialName, star isSpace, lit ['{'], star fun c => c != '{' && c != '}', lit ['}']]

/-- `r"(linux,initrd-end\s*=\s*<)0x[0-9a-f]+(>)"` -/
def initrdEnd : Pattern Char :=
  all [lit "linux,initrd-end".toList, star isSpace, lit "=".toList, star isSpace, lit "<0x".toList,
    plus isHex, lit ">".toList]

/-- The first group of `serialNode` is the word up to its first bracket. -/
def retarget (uart : ℕ) (w : Str) : Str :=
  (partition '{' w).1 ++ '{' ::
    subOnce (fun _ => "0x".toList ++ hex08 uart) value (partition '{' w).2

/-- The substitutions for the UART: the node, and whatever has its name. -/
def retargetUart (uart : ℕ) (dts : Str) : Str :=
  sub (fun _ => "serial@".toList ++ hex uart) serialName (sub (retarget uart) serialNode dts)

/-- The first group of `initrdEnd` is the word up to its bracket. -/
def setInitrdEnd (n : ℕ) (dts : Str) : Str :=
  sub (fun w => w.takeWhile (· != '<') ++ "<0x".toList ++ hex08 n ++ ['>']) initrdEnd dts

/-- `rootargs` -/
def rootArgs (o : Options) (nfsroot : Str) : Str :=
  "root=/dev/nfs rw nfsroot=".toList ++ nfsroot ++ ",vers=3,tcp,nolock ip=".toList ++ o.ip ++
    ':' :: (partition ':' nfsroot).1 ++ ':' :: o.gw ++ ':' :: o.mask ++ ":vc707:".toList ++
    o.iface ++ ":off".toList

/-- What is written to `rv32.dts`; `--nfsroot` is absent or empty, or it is a server. -/
def tree (o : Options) (nfsroot : Str) (uart : ℕ) (rootfs : Option ℕ) (dts : Str) :
    Except Error Str :=
  if nfsroot = [] then do
    let size ← orRaise .noRootfs rootfs
    return setInitrdEnd (rootfsAddr + size) (retargetUart uart dts)
  else do
    let ps ← orRaise (.template (rootArgs o nfsroot)) (NfsrootDtb.parseTemplate (rootArgs o nfsroot))
    return sub (NfsrootDtb.expand ps) (lit "root=/dev/ram0".toList)
      (NfsrootDtb.dropInitrd (retargetUart uart dts))

/-- The entries of `boot.json`, the emulator last. -/
def boot (nfsroot : Str) : List (Str × ℕ) :=
  ("Image".toList, kernelAddr) :: (if nfsroot = [] then [("rootfs.cpio".toList, rootfsAddr)] else []) ++
    [("rv32.dtb".toList, dtbAddr), ("emulator.bin".toList, emulatorAddr)]

/-- `main`: the tree and the entries, where `dtc` accepts the tree. -/
def run (dtc : Str → Bool) (o : Options) (nfsroot : Str) (uart : ℕ) (rootfs : Option ℕ) (dts : Str) :
    Except Error (Str × List (Str × ℕ)) := do
  let dts ← tree o nfsroot uart rootfs dts
  if dtc dts = false then
    throw .dtc
  return (dts, boot nfsroot)

/-! ### A run without `--nfsroot` -/

theorem tree_of_rootfs (o : Options) (uart size : ℕ) (dts : Str) :
    tree o [] uart (some size) dts =
      .ok (setInitrdEnd (rootfsAddr + size) (retargetUart uart dts)) := rfl

theorem run_eq_ok {dtc : Str → Bool} {o : Options} {nfsroot : Str} {uart : ℕ} {rootfs : Option ℕ}
    {dts : Str} {out : Str × List (Str × ℕ)} : run dtc o nfsroot uart rootfs dts = .ok out ↔
      ∃ t, tree o nfsroot uart rootfs dts = .ok t ∧ dtc t = true ∧ (t, boot nfsroot) = out := by
  simp only [run, bind_eq_ok]
  refine exists_congr fun t => and_congr_right fun _ => ?_
  cases dtc t with
  | false => simp [throw, throwThe, MonadExceptOf.throw, bind, Except.bind]
  | true => simp [pure_eq_ok]

end LinuxPayload
end Xc7Tools
