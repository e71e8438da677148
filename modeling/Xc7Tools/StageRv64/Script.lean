/-
# stage_rv64.sh

`scripts/stage_rv64.sh` checks a payload, saves the rv32 payload of the TFTP
directory under `.rv32` names, and stages the new one over it, in one of two
modes. A directory is what its names hold. `Tftp` has beside it the names whose
file the script has removed or overwritten, which nothing of the script reads.

The payload's boot.json is given by its text and by what `json.load` makes of
it. A check that fails ends the script before it touches the directory.

Key definitions: `Src`, `check`, `Tftp.cp`, `Tftp.rm`, `Tftp.mv`, `staged`, `script`.
-/
import Mathlib.Data.List.Sort
import Mathlib.Logic.Function.Basic
import Xc7Tools.Lib.Numerals
import Xc7Tools.Payload.Check

namespace Xc7Tools
namespace StageRv64

open Str Checked Payload

/-- What the names of a directory hold. -/
abbrev Dir := Str → Option Bytes

/-- `MODE`: "bin", or anything else. -/
inductive Mode where
  | bin
  | bootJson
  deriving DecidableEq

/-- A payload directory, and `json.load` of its boot.json; none is an exception. -/
structure Src where
  files : Dir
  json : Option Json

/-! ### The checks -/

inductive Refused where
  /-- "missing $SRC/..." -/
  | missing (f : Str)
  /-- "boot.bin is only ... bytes; that is not a payload" -/
  | small (sz : ℕ)
  | raised (e : PyError)
  /-- "boot.json names %s, which is not in the payload" -/
  | notInPayload (name : Str)
  /-- "%s (ends 0x%x) overlaps %s (starts 0x%x)" -/
  | overlaps (name : Str) (stop : ℤ) (name' : Str) (start : ℤ)
  /-- "payload has %s but boot.json sets no r1: ..." -/
  | noR1 (dtb : Str)
  /-- "r1 is 0x%x but %s loads at 0x%x" -/
  | wrongR1 (r1 : ℤ) (dtb : Str) (addr : ℤ)
  /-- "%s is not a device tree blob (bad magic)" -/
  | badMagic (dtb : Str)

/-- The exit status. -/
def Refused.status : Refused → ℕ
  | missing _ => 2
  | small _ => 2
  | _ => 1

/-- `int(v, 16)` of a value of the JSON. -/
def intOfJson (v : Json) : Except Refused ℤ :=
  match v with
  | .str s => orRaise (.raised .ValueError) (int16? s)
  | _ => .error (.raised .TypeError)

/-- The members of boot.json that are no images. -/
def registers : List Str := ["r1".toList, "r2".toList, "r3".toList, "addr".toList]

/-- `addrs`, in its order. -/
def addrs (b : Json) : Except Refused (List (Str × ℤ)) :=
  match b with
  | .obj ms => ((Json.dict ms).items.filter fun p => !registers.contains p.1).mapM fun p => do
      return (p.1, ← intOfJson p.2)
  | _ => .error (.raised .AttributeError)

/-- `(a, a + os.path.getsize(path), name)`, for an image that is there. -/
def region (src : Src) (p : Str × ℤ) : Except Refused (ℤ × ℤ × Str) := do
  let c ← orRaise (.notInPayload p.1) (src.files p.1)
  return (p.2, p.2 + c.length, p.1)

/-- `s <= t` on the tuples of `regs`. -/
def regionLe (s t : ℤ × ℤ × Str) : Bool :=
  s.1 < t.1 || (s.1 == t.1 && (s.2.1 < t.2.1 || (s.2.1 == t.2.1 && le s.2.2 t.2.2)))

/-- The first region that reaches into the next one. -/
def checkOverlaps : List (ℤ × ℤ × Str) → Except Refused Unit
  | s :: t :: regs =>
    if t.1 < s.2.1 then .error (.overlaps s.2.2 s.2.1 t.2.2 t.1) else checkOverlaps (t :: regs)
  | _ => .ok ()

/-- The device tree is the one that is handed to the firmware. -/
def checkDtb (src : Src) (b : Json) (dtb : Str × ℤ) : Except Refused Unit := do
  let r1 ← match b with
    | .obj ms => orRaise (.noR1 dtb.1) ((Json.dict ms).get? "r1".toList)
    | _ => .error (.raised .AttributeError)
  let r1 ← intOfJson r1
  if r1 ≠ dtb.2 then .error (.wrongR1 r1 dtb.1 dtb.2)
  else if ((src.files dtb.1).getD []).take 4 ≠ [0xD0, 0x0D, 0xFE, 0xED] then
    .error (.badMagic dtb.1)
  else .ok ()

/-- The Python program of the boot.json mode. -/
def checkJson (src : Src) : Except Refused Unit := do
  let b ← orRaise (.raised .ValueError) src.json
  let images ← addrs b
  let regs ← images.mapM (region src)
  checkOverlaps (regs.insertionSort fun s t => regionLe s t = true)
  match images.find? fun p => ".dtb".toList.isSuffixOf p.1 with
  | none => .ok ()
  | some dtb => checkDtb src b dtb

/-- The files the boot.json mode stages, in the order of `cp`. -/
def threeFiles : List Str :=
  ["Image".toList, "opensbi.bin".toList, "rv64.dtb".toList, "boot.json".toList]

/-- `[ -f "$SRC/$f" ] || { echo "missing ..."; exit 2; }` for each of some files -/
def checkPresent (src : Src) : List Str → Except Refused Unit
  | [] => .ok ()
  | f :: fs => if (src.files f).isSome then checkPresent src fs else .error (.missing f)

/-- The checks of a mode. -/
def check (mode : Mode) (src : Src) : Except Refused Unit :=
  match mode with
  | .bin => do
    let c ← orRaise (.missing "boot.bin".toList) (src.files "boot.bin".toList)
    if 1000000 < c.length then .ok () else .error (.small c.length)
  | .bootJson => do
    checkPresent src threeFiles
    checkJson src

/-! ### The directory -/

structure Tftp where
  files : Dir
  touched : List Str

namespace Tftp

/-- The name's file, if it has one, is removed or overwritten. -/
def touch (d : Tftp) (f : Str) : List Str :=
  if (d.files f).isSome then f :: d.touched else d.touched

/-- `cp -a` of a file with the contents `c` -/
def cp (d : Tftp) (c : Bytes) (f : Str) : Tftp :=
  { files := Function.update d.files f (some c), touched := d.touch f }

/-- `rm -f` -/
def rm (d : Tftp) (f : Str) : Tftp :=
  { files := Function.update d.files f none, touched := d.touch f }

/-- `mv` -/
def mv (d : Tftp) (f g : Str) : Tftp :=
  match d.files f with
  | some c => (d.cp c g).rm f
  | none => d

/-- `[ -f "$DST/$f" ] && ! [ -f "$DST/$g" ] && mv "$DST/$f" "$DST/$g"` -/
def mvOnce (d : Tftp) (f g : Str) : Tftp :=
  if (d.files f).isSome && !(d.files g).isSome then d.mv f g else d

/-- `cp -a "$SRC/$f" "$DST/"` -/
def cpFrom (d : Tftp) (src : Src) (f : Str) : Tftp :=
  match src.files f with
  | some c => d.cp c f
  | none => d

end Tftp

/-- `$f.rv32` -/
def rv32 (f : Str) : Str := f ++ ".rv32".toList

/-- The files that are saved. -/
def saved : List Str := ["Image".toList, "boot.json".toList, "opensbi.bin".toList]

/-- `[ -f "$DST/$f" ] && [ ! -f "$DST/$f.rv32" ] && cp -a "$DST/$f" "$DST/$f.rv32"` -/
def save (d : Tftp) (f : Str) : Tftp :=
  match d.files f, d.files (rv32 f) with
  | some c, none => d.cp c (rv32 f)
  | _, _ => d

/-- boot.json is moved aside once, and removed otherwise. -/
def dropBootJson (d : Tftp) : Tftp :=
  (d.mvOnce "boot.json".toList "boot.json.rv64-3file".toList).rm "boot.json".toList

/-- What an accepted run does to the directory. -/
def staged (mode : Mode) (src : Src) (d : Tftp) : Tftp :=
  let d := (saved.foldl save d).rm "rootfs.cpio".toList
  match mode with
  | .bin => dropBootJson (d.cpFrom src "boot.bin".toList)
  | .bootJson => threeFiles.foldl (fun d f => d.cpFrom src f) d

/-- A run of the script. -/
structure Run where
  mode : Mode
  src : Src

def script (r : Run) (d : Tftp) : Except Refused Unit × Tftp :=
  match check r.mode r.src with
  | .error e => (.error e, d)
  | .ok () => (.ok (), staged r.mode r.src d)

/-- Some runs of the script, in a directory that holds `F`. -/
def runs (F : Dir) (rs : List Run) : Tftp := rs.foldl (fun d r => (script r d).2) ⟨F, []⟩

end StageRv64
end Xc7Tools
