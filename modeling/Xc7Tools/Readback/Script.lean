/-
# readback2bit.py

`scripts/readback2bit.py` takes the frames of a raw readback and puts them in
place of the frame payload of a `.bit` file. A file is its bytes; what the script
does with two of them is `readback2bit`, its output file or the exception it
ends with. `--report` prints two numbers.

Key definitions: `fieldE`, `walk`, `readback2bit`.
-/
import Xc7Tools.Lib.Checked
import Xc7Tools.Lib.Struct

namespace Xc7Tools
namespace Readback

open Checked Struct

abbrev Bytes := List UInt8

inductive Error where
  | AssertionError
  | StructError
  | ValueError
  | IndexError
  deriving DecidableEq

/-- `data[a:b]` -/
def slice (data : Bytes) (a b : ℕ) : Bytes := (data.drop a).take (b - a)

/-- `assert` -/
def assert (p : Prop) [Decidable p] : Except Error Unit := if p then .ok () else .error .AssertionError

/-- `struct.unpack` of `count` integers of `size` bytes. -/
def unpack (o : Order) (size count : ℕ) (bs : Bytes) : Except Error (List ℕ) :=
  if bs.length = size * count then .ok (readInts o size count bs) else .error .StructError

/-- `struct.unpack(..., ...)[0]` of one integer. -/
def unpack1 (size : ℕ) (bs : Bytes) : Except Error ℕ :=
  if bs.length = size then .ok (readInt .big bs) else .error .StructError

/-- `struct.pack_into('>%dI' % n, cfg, offset, *new)` -/
def packInto (cfg : Bytes) (offset : ℕ) (new : List ℕ) : Except Error Bytes :=
  if offset + 4 * new.length ≤ cfg.length then
    .ok (cfg.take offset ++ writeInts .big 4 new ++ cfg.drop (offset + 4 * new.length))
  else .error .StructError

/-! ### The fields of the file -/

/-- `field(tag)` of a field other than e: where the next one begins. -/
def field (data : Bytes) (tag : Char) (pos : ℕ) : Except Error ℕ := do
  assert (slice data pos (pos + 1) = [UInt8.ofNat tag.toNat])
  let n ← unpack1 2 (slice data (pos + 1) (pos + 3))
  return pos + 3 + n

/-- `field(b'e')`: where the configuration begins, and its length. -/
def fieldE (data : Bytes) (pos : ℕ) : Except Error (ℕ × ℕ) := do
  assert (slice data pos (pos + 1) = [UInt8.ofNat 'e'.toNat])
  let n ← unpack1 4 (slice data (pos + 1) (pos + 5))
  return (pos + 5, n)

/-- `cfg_start` and `cfg_len` -/
def cfgField (data : Bytes) : Except Error (ℕ × ℕ) := do
  let hdrLen ← unpack1 2 (slice data 0 2)
  let one ← unpack1 2 (slice data (2 + hdrLen) (2 + hdrLen + 2))
  assert (one = 1)
  let pos ← field data 'a' (2 + hdrLen + 2)
  let pos ← field data 'b' pos
  let pos ← field data 'c' pos
  let pos ← field data 'd' pos
  fieldE data pos

/-! ### The packets -/

/-- The sync word. -/
def sync : ℕ := 0xAA995566

/-- `typ` of a header -/
def typ (w : ℕ) : ℕ := w >>> 29

/-- `cnt` of a type-1 header -/
def cnt (w : ℕ) : ℕ := w &&& 0x7FF

/-- `op == 2 and reg == 2 and cnt == 0` -/
def IsFdri (w : ℕ) : Prop := (w >>> 27) &&& 3 = 2 ∧ (w >>> 13) &&& 0x3FFF = 2 ∧ cnt w = 0

instance (w : ℕ) : Decidable (IsFdri w) := inferInstanceAs (Decidable (_ ∧ _ ∧ _))

/-- `n` of a type-2 header -/
def count2 (w : ℕ) : ℕ := w &&& 0x07FFFFFF

/-- `while i < len(words)`: where the payload begins, and its length in words. -/
def walk (words : List ℕ) (i : ℕ) : Except Error (ℕ × ℕ) :=
  if h : i < words.length then
    let w := words[i]
    if typ w = 1 then
      if IsFdri w then
        match words[i + 1]? with
        | none => .error .IndexError
        | some w' => if typ w' = 2 then .ok (i + 2, count2 w') else walk words (i + 1 + cnt w)
      else walk words (i + 1 + cnt w)
    else walk words (i + 1)
  else .error .AssertionError
termination_by words.length - i

/-- `words.index(w)` -/
def index (words : List ℕ) (w : ℕ) : Except Error ℕ :=
  if w ∈ words then .ok (words.idxOf w) else .error .ValueError

/-- Words of a frame. -/
def FRAME : ℕ := 101

structure Output where
  file : Bytes
  /-- What `--report` prints: the payload words, and how many differ. -/
  report : ℕ × ℕ

/-- The script, with the contents of `design.bit` and `readback.rb`. -/
def readback2bit (data rb : Bytes) : Except Error Output := do
  let (cfgStart, cfgLen) ← cfgField data
  let cfg := slice data cfgStart (cfgStart + cfgLen)
  let words ← unpack .big 4 (cfg.length / 4) cfg
  let i ← index words sync
  let (start, n) ← walk words (i + 1)
  let rbw ← unpack .little 4 (rb.length / 4) rb
  assert (FRAME + n ≤ rbw.length)
  let new := (rbw.drop FRAME).take n
  let diff := (((words.drop start).take n).zip new).countP fun p => p.1 ≠ p.2
  let cfg' ← packInto cfg (start * 4) new
  return ⟨slice data 0 cfgStart ++ cfg' ++ data.drop (cfgStart + cfgLen), n, diff⟩

end Readback
end Xc7Tools
