/-
# tftp_serve.py: one transfer

`serve_file` and `send_and_wait` of `scripts/tftp_serve.py`. The two wait for
datagrams and for timeouts, so they are a state and what each of these does to
it: `Server` says where they are, `Transfer.reply` is one round of the inner
`while True` and what follows it up to the next `recvfrom`, `Transfer.timeout`
the `except` branch. Both return the datagrams that are sent. What is logged is
left out.

Key definitions: `packH`, `encode`, `Plain`, `replied`, `Transfer`, `negotiate`, `Transfer.packet`,
`Server`, `Transfer.reply`, `Transfer.timeout`, `Transfer.start`.
-/
import Xc7Tools.Lib.Decimal
import Xc7Tools.Lib.Dict

namespace Xc7Tools
namespace Tftp

abbrev Bytes := List UInt8

/-- `struct.pack("!H", n)` -/
def packH (n : ℕ) : Bytes := [UInt8.ofNat (n / 256), UInt8.ofNat n]

/-- `struct.unpack("!H", bytes([a, b]))` -/
def unpackH (a b : UInt8) : ℕ := 256 * a.toNat + b.toNat

/-- `s.encode()` of a text of ASCII. -/
def encode (s : Str) : Bytes := s.map fun c => UInt8.ofNat c.toNat

/-- A text of ASCII without NUL. -/
def Plain (s : Str) : Prop := ∀ c ∈ s, 0 < c.toNat ∧ c.toNat < 128

instance : DecidablePred Plain := fun s => List.decidableBAll _ s

theorem zero_notMem_encode {s : Str} (h : Plain s) : 0 ∉ encode s := by
  intro hb
  obtain ⟨c, hc, he⟩ := List.mem_map.mp hb
  have hplain := h c hc
  have := congrArg UInt8.toNat he
  rw [UInt8.toNat_ofNat'] at this
  change c.toNat % 2 ^ 8 = 0 at this
  omega

/-- `OP_DATA`, `OP_ACK`, `OP_ERROR` and `OP_OACK` -/
def opData : ℕ := 3

def opAck : ℕ := 4

def opError : ℕ := 5

def opOack : ℕ := 6

/-! ### serve_file -/

/-- What `serve_file` has when it begins to send. -/
structure Transfer where
  data : Bytes
  blockSize : ℕ
  acked : Dict Str Str

/-- The block size asked for, where it is one. -/
def requested? (options : Dict Str Str) : Option ℕ :=
  match options.get? "blksize".toList with
  | none => none
  | some v =>
    match Str.int? v with
    | some requested => if 8 ≤ requested ∧ requested ≤ 65464 then some requested.toNat else none
    | none => none

/-- The options part of `serve_file`. -/
def negotiate (data : Bytes) (options : Dict Str Str) : Transfer :=
  let t : Transfer :=
    match requested? options with
    | some requested =>
      ⟨data, requested, Dict.empty.set "blksize".toList (Nat.toDigits 10 requested)⟩
    | none => ⟨data, 512, Dict.empty⟩
  if "tsize".toList ∈ options then
    { t with acked := t.acked.set "tsize".toList (Nat.toDigits 10 data.length) }
  else t

/-- Where `serve_file` is: at the OACK, or in its loop. -/
inductive Phase where
  | oack
  | data (block offset : ℕ)
  deriving DecidableEq

namespace Transfer

/-- `data[offset:offset + block_size]` -/
def chunk (t : Transfer) (offset : ℕ) : Bytes := (t.data.drop offset).take t.blockSize

/-- The packet of a phase. -/
def packet (t : Transfer) : Phase → Bytes
  | .oack =>
    packH opOack ++ t.acked.items.flatMap fun p => encode p.1 ++ [0] ++ encode p.2 ++ [0]
  | .data block offset => packH opData ++ packH (block % 65536) ++ t.chunk offset

/-- The phase after a packet has been acknowledged; none where `serve_file` returns True. -/
def after (t : Transfer) : Phase → Option Phase
  | .oack => some (.data 1 0)
  | .data block offset =>
    if (t.chunk offset).length < t.blockSize then none
    else some (.data (block + 1) (offset + (t.chunk offset).length))

end Transfer

/-- The block number a phase waits for. -/
def Phase.expect : Phase → ℕ
  | .oack => 0
  | .data block _ => block % 65536

/-! ### send_and_wait -/

def retries : ℕ := 5

/-- What one `recvfrom` comes to: none goes on waiting, else `send_and_wait` returns. `same` says
that the datagram is from the client's address. -/
def replied (expectBlock : ℕ) (same : Bool) (reply : Bytes) : Option Bool :=
  if !same then none
  else
    match reply.take 1024 with
    | a :: b :: c :: d :: _ =>
      if unpackH a b = opError then some false
      else if unpackH a b = opAck ∧ unpackH c d = expectBlock then some true
      else none
    | _ => none

/-- A transfer waits in `send_and_wait`, at one of its attempts, or has returned. -/
inductive Server where
  | waiting (phase : Phase) (attempt : ℕ)
  | returned (ok : Bool)
  deriving DecidableEq

namespace Transfer

/-- `send_and_wait` is called. -/
def enter (t : Transfer) (phase : Phase) : Server × List Bytes := (.waiting phase 0, [t.packet phase])

/-- `serve_file` up to its first `recvfrom`. -/
def start (t : Transfer) : Server × List Bytes :=
  t.enter (if t.acked.items = [] then .data 1 0 else .oack)

/-- `recvfrom` returns. -/
def reply (t : Transfer) (same : Bool) (reply : Bytes) : Server → Server × List Bytes
  | .returned ok => (.returned ok, [])
  | .waiting phase attempt =>
    match replied phase.expect same reply with
    | none => (.waiting phase attempt, [])
    | some false => (.returned false, [])
    | some true =>
      match t.after phase with
      | none => (.returned true, [])
      | some phase' => t.enter phase'

/-- `recvfrom` times out. -/
def timeout (t : Transfer) : Server → Server × List Bytes
  | .returned ok => (.returned ok, [])
  | .waiting phase attempt =>
    if attempt + 1 < retries then (.waiting phase (attempt + 1), [t.packet phase])
    else (.returned false, [])

end Transfer
end Tftp
end Xc7Tools
