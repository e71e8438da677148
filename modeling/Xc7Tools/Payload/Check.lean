/-
# check_linux_payload.py

`scripts/check_linux_payload.py` compares a staged directory with a SoC's
csr.json: the directory's name, the images of boot.json, the kernel's banner,
and the device trees as `dtc` prints them. Each rule adds an error or a
warning; the status is 1 if there is an error. A csr.json or boot.json of
another shape raises.

The directory is given by what its files hold, boot.json by its JSON value;
`dtc` by the tree a file holds and the text it prints for a tree.

Key definitions: `Json`, `Staging`, `Dtc`, `Message`, `soc_mac`,
`kernel_version`, `checkTree`, `messages`, `main`.
-/
import Mathlib.Data.List.Basic
import Xc7Tools.Lib.Checked
import Xc7Tools.Lib.Dict
import Xc7Tools.Payload.DeviceTree

namespace Xc7Tools
namespace Payload

open Str Checked

/-! ### Python values -/

/-- A value read from JSON; a number that is no integer is its text. -/
inductive Json where
  | null
  | bool (b : Bool)
  | int (n : ℤ)
  | float (text : Str)
  | str (s : Str)
  | arr (js : List Json)
  | obj (members : List (Str × Json))

inductive PyError where
  | KeyError (key : Str)
  | TypeError
  | AttributeError
  | ValueError

namespace Json

/-- The members of an object: the last value of a name, where it first stands. -/
def dict (members : List (Str × Json)) : Dict Str Json := Dict.empty.update members

/-- `j[key]` -/
def item (j : Json) (key : Str) : Except PyError Json :=
  match j with
  | obj ms => orRaise (.KeyError key) ((dict ms).get? key)
  | _ => .error .TypeError

/-- `j.get(key)`, with null for none -/
def get (j : Json) (key : Str) : Except PyError (Option Json) :=
  match j with
  | obj ms => .ok (((dict ms).get? key).filter fun v => !(v matches null))
  | _ => .error .AttributeError

/-- `j.get(key, {})` -/
def getDict (j : Json) (key : Str) : Except PyError Json :=
  match j with
  | obj ms => .ok (((dict ms).get? key).getD (obj []))
  | _ => .error .AttributeError

/-- `key in j` of a text `key`; where `j` is no container, the script has
raised before. -/
def contains (j : Json) (key : Str) : Bool :=
  match j with
  | obj ms => decide (key ∈ dict ms)
  | arr js => js.any fun v => match v with
    | str s => s = key
    | _ => false
  | str s => isIn key s
  | _ => false

/-- The integer `%x` formats. -/
def toInt (j : Json) : Except PyError ℤ :=
  match j with
  | int n => .ok n
  | bool b => .ok (if b then 1 else 0)
  | _ => .error .TypeError

/-- The names `for name in j` goes through, each joined to a path. -/
def names (j : Json) : Except PyError (List Str) :=
  match j with
  | obj ms => .ok (dict ms).keys
  | arr js => js.mapM fun v => match v with
    | str s => .ok s
    | _ => .error .TypeError
  | str s => .ok (s.map fun c => [c])
  | _ => .error .TypeError

end Json

/-- `'%x' % n` -/
def hex (n : ℤ) : Str :=
  if n < 0 then '-' :: Nat.toDigits 16 n.natAbs else Nat.toDigits 16 n.natAbs

/-- `'%02x' % n` -/
def hex02 (n : ℤ) : Str := List.replicate (2 - (hex n).length) '0' ++ hex n

/-- `s.lower()`; the texts it is compared with are of ASCII. -/
def lower (s : Str) : Str := s.map Char.toLower

/-- `s < t` on tuples of integers: a proper prefix comes first. -/
def tupleLt : List ℤ → List ℤ → Bool
  | [], [] => false
  | [], _ :: _ => true
  | _ :: _, [] => false
  | a :: as, b :: bs => a < b || (a == b && tupleLt as bs)

/-- `s.partition(sep)`, without the separator. -/
def cut (sep : Str) : Str → Str × Str
  | [] => ([], [])
  | c :: s =>
    if sep.isPrefixOf (c :: s) then ([], (c :: s).drop sep.length)
    else (c :: (cut sep s).1, (cut sep s).2)

/-- `s.replace('\\0', ' ')`, of a backslash and a zero -/
def spaceNul : Str → Str
  | '\\' :: '0' :: s => ' ' :: spaceNul s
  | c :: s => c :: spaceNul s
  | [] => []

/-- `re.findall(r'reg-names = "([^"]*)"', s)`, looking `fuel` times. -/
def findRegNames : ℕ → Str → List Str
  | 0, _ => []
  | fuel + 1, s =>
    let found := (cut "reg-names = \"".toList s).2
    match found.dropWhile (· != '"') with
    | [] => []
    | _ :: rest => found.takeWhile (· != '"') :: findRegNames fuel rest

/-! ### What the script reads -/

/-- A regular file. -/
structure File where
  bytes : Bytes
  readable : Bool

/-- The arguments and what they lead to. -/
structure Staging where
  dir : Str
  csr : Json
  min_kernel : Str
  /-- none: no such file; `some none`: it does not parse -/
  bootJson : Option (Option Json)
  /-- the regular file that a name leads to from the directory -/
  file : Str → Option File
  /-- `os.listdir`; none: it is no directory -/
  listing : Option (List Str)

/-- `dtc`: the tree a file holds, if it holds one, and the text it prints for
a tree, if it is installed. -/
structure Dtc where
  tree : Bytes → Option Node
  print : Option (Node → Str)

/-- What `err` and `warn` are given. -/
inductive Message where
  | macUnknown
  | wrongDir (base mac : Str)
  | noBootJson
  | badBootJson
  | missing (name : Str)
  | empty (name : Str)
  | lastNotLoader (last : Str)
  | unreadable
  | noBanner
  | oldKernel (version : ℕ × ℕ)
  | noDtc
  | notDecompiled (name : Str)
  | noSerial (name : Str) (uart : ℤ)
  | noMacNode (name : Str) (ethmac : ℤ)
  | noRegNames (name : Str)
  | regNamesLack (name want : Str)
  | noBuffer (name : Str) (buf : ℤ)
  | otherMac (name mac : Str)
  | noInterrupts (name : Str)
  | noIp (name : Str)
  | cpioUnused (name : Str)

/-- `err`, not `warn` -/
def Message.isError : Message → Bool
  | macUnknown | noBanner | noDtc | noInterrupts _ | cpioUnused _ => false
  | _ => true

/-! ### The rules -/

/-- The six `macaddr` constants, or none when one is missing. -/
def macaddr (csr : Json) : Except PyError (Option (List ℤ)) := do
  let constants ← csr.item "constants".toList
  let b ← (List.range' 1 6).mapM fun i => constants.get ("macaddr".toList ++ Nat.toDigits 10 i)
  if b.any Option.isNone then return none
  else return some (← (b.filterMap id).mapM Json.toInt)

def macText (b : List ℤ) : Str := [':'].intercalate (b.map hex02)

def soc_mac (csr : Json) : Except PyError (Option Str) := do return (← macaddr csr).map macText

/-- `os.path.basename(args.dir.rstrip('/'))` -/
def base (dir : Str) : Str := (dir.rdropWhile (· == '/')).rtakeWhile (· != '/')

def checkDir (dir : Str) : Option Str → List Message
  | none => [.macUnknown]
  | some mac => if lower (base dir) ≠ lower mac then [.wrongDir (base dir) mac] else []

/-- What is said about a name boot.json lists. -/
def checkFile (file : Str → Option File) (name : Str) : List Message :=
  match file name with
  | none => [.missing name]
  | some f => if f.bytes = [] then [.empty name] else []

/-- `re.match(r'(emulator|opensbi)', last)` -/
def isLoader (last : Str) : Bool :=
  "emulator".toList.isPrefixOf last || "opensbi".toList.isPrefixOf last

def checkLast : Option Str → List Message
  | some last => if !isLoader last then [.lastNotLoader last] else []
  | none => []

/-- `entries` after boot.json is read. -/
def entries (p : Staging) : Json :=
  match p.bootJson with
  | some (some v) => v
  | _ => .obj []

def checkBoot (p : Staging) : Except PyError (List Message) := do
  match p.bootJson with
  | none => return [.noBootJson]
  | some none => return [.badBootJson]
  | some (some v) =>
    let ns ← v.names
    return ns.flatMap (checkFile p.file) ++ checkLast ns.getLast?

/-- `[0-9]` -/
def isDigitByte (b : UInt8) : Bool := 0x30 ≤ b && b ≤ 0x39

/-- The number that digits denote. -/
def byteValue (ds : Bytes) : ℕ := Nat.ofDigits 10 (ds.map fun b => b.toNat - 0x30).reverse

/-- `int(ds)` of digits -/
def intOfBytes (ds : Bytes) : Except PyError ℕ :=
  if ds.length ≤ maxStrDigits then .ok (byteValue ds) else .error .ValueError

/-- `re.match(rb'Linux version (\d+)\.(\d+)', s)`: the digits of the two
groups, and what follows them. -/
def bannerAt (s : Bytes) : Option (Bytes × Bytes × Bytes) :=
  if (bytesOf "Linux version ".toList).isPrefixOf s then
    let s := s.drop 14
    let a := s.takeWhile isDigitByte
    match s.dropWhile isDigitByte with
    | 0x2E :: s =>
      let b := s.takeWhile isDigitByte
      if a = [] ∨ b = [] then none else some (a, b, s.dropWhile isDigitByte)
    | _ => none
  else none

/-- The first banner. -/
def searchBanner : Bytes → Option (Bytes × Bytes × Bytes)
  | [] => none
  | b :: s => (bannerAt (b :: s)).or (searchBanner s)

def kernel_version (blob : Bytes) : Except PyError (Option (ℕ × ℕ)) :=
  match searchBanner blob with
  | none => return none
  | some m => return some (← intOfBytes m.1, ← intOfBytes m.2.1)

/-- `tuple(int(x) for x in args.min_kernel.split('.'))` -/
def wanted (min_kernel : Str) : Except PyError (List ℤ) :=
  (min_kernel.splitOn '.').mapM fun x => orRaise .ValueError (int? x)

def checkImage (image : Option File) (want : List ℤ) : Except PyError (List Message) :=
  match image with
  | none => .ok []
  | some f =>
    if !f.readable then .ok [.unreadable]
    else return match ← kernel_version f.bytes with
      | none => [.noBanner]
      | some v => if tupleLt [v.1, v.2] want then [.oldKernel v] else []

/-- `csr['csr_bases'].get('uart')` -/
def uartBase (csr : Json) : Except PyError (Option ℤ) := do
  let bases ← csr.item "csr_bases".toList
  let uart ← bases.get "uart".toList
  uart.mapM Json.toInt

/-- `csr['csr_bases']['ethmac']`, if there is one. -/
def ethmacBase (csr : Json) : Except PyError (Option ℤ) := do
  let bases ← csr.item "csr_bases".toList
  if bases.contains "ethmac".toList then return some (← (← bases.item "ethmac".toList).toInt)
  else return none

/-- `csr.get('memories', {}).get('ethmac', {}).get('base')` -/
def bufferBase (csr : Json) : Except PyError (Option ℤ) := do
  let memories ← csr.getDict "memories".toList
  let ethmac ← memories.getDict "ethmac".toList
  let base ← ethmac.get "base".toList
  base.mapM Json.toInt

/-- The text the tests look for. -/
def serialAt (uart : ℤ) : Str := "serial@".toList ++ hex uart

def macAt (ethmac : ℤ) : Str := "mac@".toList ++ hex ethmac

def bracketed (mac : Str) : Str := '[' :: mac.map (fun c => if c = ':' then ' ' else c) ++ [']']

/-- The names missing from every `reg-names` and from the text. -/
def regNamesLacking (name dts : Str) : List Message :=
  (["mac".toList, "buffer".toList].filter fun want =>
    !(findRegNames dts.length (spaceNul dts)).contains want && !isIn want dts).map
      (.regNamesLack name)

def checkBuffer (name dts : Str) : Option ℤ → List Message
  | some buf => if !isIn (hex buf) dts then [.noBuffer name buf] else []
  | none => []

def checkAddress (name dts : Str) : Option Str → List Message
  | some mac => if !isIn (bracketed mac) (lower dts) then [.otherMac name mac] else []
  | none => []

/-- Warns of a node that polls: the text between the first `mac@` and the
next, up to the end of a node. -/
def checkInterrupts (name dts : Str) : List Message :=
  if isIn "interrupts".toList (cut "\x7d;".toList (cut "mac@".toList (cut "mac@".toList dts).2).1).1
  then [] else [.noInterrupts name]

/-- The tests on the mac node, once its name is found. -/
def checkMac (mac : Option Str) (buf : Option ℤ) (name dts : Str) : List Message :=
  (if !isIn "reg-names".toList dts then [.noRegNames name] else regNamesLacking name dts) ++
    checkBuffer name dts buf ++ checkAddress name dts mac ++ checkInterrupts name dts

def checkSerial (name dts : Str) : Option ℤ → List Message
  | some uart => if !isIn (serialAt uart) dts then [.noSerial name uart] else []
  | none => []

def checkEthmac (csr : Json) (mac : Option Str) (name dts : Str) :
    Option ℤ → Except PyError (List Message)
  | some ethmac =>
    if !isIn (macAt ethmac) dts then .ok [.noMacNode name ethmac]
    else do
      let buf ← bufferBase csr
      return checkMac mac buf name dts
  | none => .ok []

def checkNfs (cpio : Option File) (name dts : Str) : List Message :=
  if isIn "root=/dev/nfs".toList dts then
    (if !isIn "ip=".toList dts then [.noIp name] else []) ++
      if cpio.isSome then [.cpioUnused name] else []
  else []

/-- The tests on one device tree. -/
def checkTree (p : Staging) (mac : Option Str) (name dts : Str) : Except PyError (List Message) := do
  let uart ← uartBase p.csr
  let ethmac ← ethmacBase p.csr
  let ms ← checkEthmac p.csr mac name dts ethmac
  return checkSerial name dts uart ++ ms ++ checkNfs (p.file "rootfs.cpio".toList) name dts

/-- The device trees to check: those boot.json lists, or all there are. -/
def stagedDtbs (p : Staging) : List Str :=
  let dtbs := (p.listing.getD []).filter fun f => ".dtb".toList.isSuffixOf f
  let listed := dtbs.filter (entries p).contains
  if listed = [] then dtbs else listed

/-- The tree of a file. -/
def treeOf (p : Staging) (dtc : Dtc) (name : Str) : Option Node :=
  (p.file name).bind fun f => if f.readable then dtc.tree f.bytes else none

/-- A pass of the loop over the device trees. -/
def checkDtb (p : Staging) (dtc : Dtc) (mac : Option Str) (name : Str) :
    Except PyError (List Message) :=
  match dtc.print with
  | none => .ok [.noDtc]
  | some print =>
    match treeOf p dtc name with
    | none => .ok [.notDecompiled name]
    | some t => checkTree p mac name (print t)

/-- What all rules say, in order. -/
def messages (p : Staging) (dtc : Dtc) : Except PyError (List Message) := do
  let mac ← soc_mac p.csr
  let boot ← checkBoot p
  let want ← wanted p.min_kernel
  let image ← checkImage (p.file "Image".toList) want
  let trees ← (stagedDtbs p).mapM (checkDtb p dtc mac)
  return checkDir p.dir mac ++ boot ++ image ++ trees.flatten

/-- The status, or the exception. -/
def main (p : Staging) (dtc : Dtc) : Except PyError ℕ := do
  return if (← messages p dtc).any Message.isError then 1 else 0

end Payload
end Xc7Tools
