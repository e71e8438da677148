/-
# tftp_serve.py: what the client has

A transfer against a lock-step client, over two channels that keep the order
and may lose and duplicate. Block numbers are 16 bits and wrap; the OACK counts
as block 0. A run simulates stop and wait on the blocks themselves, where only
two in a row are ever on their way, and the numbers tell these apart.

Key definitions: `Client.recv`, `World`, `World.step`, `Sim`.
Key theorems: `oackBlockSize_packet`, `Sim.step`, `delivers`.
-/
import Mathlib.Data.List.Induction
import Xc7Tools.Lib.StopAndWait
import Xc7Tools.Tftp.Server

namespace Xc7Tools
namespace Tftp

/-! ### The client -/

/-- The client: what it has accepted, the block number it expects, the block size it goes by, and
whether it has seen a short block. -/
structure Client where
  accepted : Bytes
  next : ℕ
  blockSize : ℕ
  stopped : Bool
  deriving DecidableEq

/-- An ACK. -/
def ack (n : ℕ) : Bytes := packH opAck ++ packH n

def decode (bs : Bytes) : Str := bs.map fun b => Char.ofNat b.toNat

/-- Names and values, in turn. -/
def pairs {α : Type*} : List α → List (α × α)
  | a :: b :: r => (a, b) :: pairs r
  | _ => []

/-- The block size an OACK acknowledges, or the one before. -/
def oackBlockSize (blockSize : ℕ) (payload : Bytes) : ℕ :=
  match (pairs (payload.splitOn 0)).lookup (encode "blksize".toList) with
  | some v => ((Str.int? (decode v)).getD blockSize).toNat
  | none => blockSize

namespace Client

def start : Client := ⟨[], 1, 512, false⟩

/-- A datagram comes: an OACK is answered with ACK 0, a DATA with its own number, and it is accepted
if it is the next. -/
def recv (c : Client) : Bytes → Client × List Bytes
  | a :: b :: payload =>
    if unpackH a b = opOack then
      ({ c with blockSize := oackBlockSize c.blockSize payload }, [ack 0])
    else if unpackH a b = opData then
      match payload with
      | x :: y :: chunk =>
        let c' : Client :=
          if unpackH x y = c.next ∧ c.stopped = false then
            { c with
              accepted := c.accepted ++ chunk
              next := (c.next + 1) % 65536
              stopped := decide (chunk.length < c.blockSize) }
          else c
        (c', [ack (unpackH x y)])
      | _ => (c, [])
    else (c, [])
  | _ => (c, [])

end Client

/-! ### The two of them -/

/-- Server and client, and the datagrams on their way, the oldest first. -/
structure World where
  server : Server
  client : Client
  down : List Bytes
  up : List Bytes
  deriving DecidableEq

inductive Event where
  /-- `recvfrom` times out. -/
  | timeout
  /-- The server takes the next datagram of the client. -/
  | server
  /-- It takes one that is not the client's. -/
  | stray (reply : Bytes)
  /-- The client takes the next datagram. -/
  | client
  | loseDown (i : ℕ)
  | loseUp (i : ℕ)
  | duplicateDown (i : ℕ)
  | duplicateUp (i : ℕ)
  deriving DecidableEq

namespace World

/-- The server's part of a step. -/
def serve (w : World) (r : Server × List Bytes) : World :=
  { w with server := r.1, down := w.down ++ r.2 }

def step (t : Transfer) (w : World) : Event → World
  | .timeout => w.serve (t.timeout w.server)
  | .server =>
    match w.up with
    | [] => w
    | r :: rest => { w with up := rest }.serve (t.reply true r w.server)
  | .stray r => w.serve (t.reply false r w.server)
  | .client =>
    match w.down with
    | [] => w
    | p :: rest =>
      { w with
        client := (w.client.recv p).1
        down := rest
        up := w.up ++ (w.client.recv p).2 }
  | .loseDown i => { w with down := Channel.lose i w.down }
  | .loseUp i => { w with up := Channel.lose i w.up }
  | .duplicateDown i => { w with down := Channel.duplicate i w.down }
  | .duplicateUp i => { w with up := Channel.duplicate i w.up }

def start (t : Transfer) : World := ⟨t.start.1, .start, t.start.2, []⟩

def run (t : Transfer) (es : List Event) : World := es.foldl (step t) (start t)

end World

/-! ### Packets -/

theorem unpackH_packH {n : ℕ} (h : n < 65536) :
    unpackH (UInt8.ofNat (n / 256)) (UInt8.ofNat n) = n := by
  unfold unpackH
  rw [UInt8.toNat_ofNat', UInt8.toNat_ofNat']
  omega

theorem plain_toDigits (n : ℕ) : Plain (Nat.toDigits 10 n) := by
  intro c hc
  have h := Str.isAsciiDigit_of_mem_toDigits hc
  rw [Str.isAsciiDigit_iff] at h
  omega

theorem decode_encode {s : Str} (h : Plain s) : decode (encode s) = s := by
  unfold decode encode
  rw [List.map_map]
  refine (List.map_congr_left fun c hc => ?_).trans (List.map_id s)
  have hlt := (h c hc).2
  change Char.ofNat (UInt8.ofNat c.toNat).toNat = c
  rw [UInt8.toNat_ofNat', Nat.mod_eq_of_lt (by omega), Char.ofNat_toNat]

/-- The fields of the options part of an OACK. -/
theorem pairs_splitOn {items : List (Str × Str)} (h : ∀ p ∈ items, Plain p.1 ∧ Plain p.2) :
    pairs ((items.flatMap fun p => encode p.1 ++ [0] ++ encode p.2 ++ [0]).splitOn 0) =
      items.map fun p => (encode p.1, encode p.2) := by
  induction items with
  | nil => rfl
  | cons p items ih =>
    obtain ⟨hk, hv⟩ := h p List.mem_cons_self
    have ih := ih fun q hq => h q (List.mem_cons_of_mem p hq)
    rw [List.flatMap_cons, List.append_assoc, List.append_assoc, List.append_assoc,
      List.singleton_append, List.splitOn_append_cons_self_of_not_mem (zero_notMem_encode hk),
      List.singleton_append, List.splitOn_append_cons_self_of_not_mem (zero_notMem_encode hv),
      pairs, ih, List.map_cons]

/-! ### The options -/

/-- What `serve_file` acknowledges. -/
def ackedItems (data : Bytes) (options : Dict Str Str) : List (Str × Str) :=
  ((requested? options).map fun n => ("blksize".toList, Nat.toDigits 10 n)).toList ++
    if "tsize".toList ∈ options then [("tsize".toList, Nat.toDigits 10 data.length)] else []

theorem negotiate_acked (data : Bytes) (options : Dict Str Str) :
    (negotiate data options).acked.items = ackedItems data options := by
  unfold negotiate ackedItems
  rcases requested? options with _ | n <;> by_cases ht : "tsize".toList ∈ options <;>
    simp only [ht, if_true, if_false] <;> rfl

theorem negotiate_data (data : Bytes) (options : Dict Str Str) :
    (negotiate data options).data = data := by
  unfold negotiate
  rcases requested? options with _ | n <;> by_cases ht : "tsize".toList ∈ options <;>
    simp only [ht, if_true, if_false]

theorem negotiate_blockSize (data : Bytes) (options : Dict Str Str) :
    (negotiate data options).blockSize = (requested? options).getD 512 := by
  unfold negotiate
  rcases requested? options with _ | n <;> by_cases ht : "tsize".toList ∈ options <;>
    simp only [ht, if_true, if_false] <;> rfl

/-- The block size is one the protocol allows. -/
theorem requested?_bounds {options : Dict Str Str} {n : ℕ} (h : requested? options = some n) :
    8 ≤ n ∧ n ≤ 65464 := by
  unfold requested? at h
  split at h
  · cases h
  · split at h
    · split_ifs at h with hr
      rw [← Option.some.inj h]
      omega
    · cases h

theorem blockSize_pos (data : Bytes) (options : Dict Str Str) :
    0 < (negotiate data options).blockSize := by
  rw [negotiate_blockSize]
  cases hr : requested? options with
  | none => decide
  | some n => exact lt_of_lt_of_le (by decide) (requested?_bounds hr).1

theorem plain_of_all {s : Str} (h : (s.all fun c => decide (0 < c.toNat ∧ c.toNat < 128)) = true) :
    Plain s := fun c hc => of_decide_eq_true (List.all_eq_true.mp h c hc)

theorem plain_blksize : Plain "blksize".toList := plain_of_all rfl

theorem plain_tsize : Plain "tsize".toList := plain_of_all rfl

theorem plain_ackedItems (data : Bytes) (options : Dict Str Str) :
    ∀ p ∈ ackedItems data options, Plain p.1 ∧ Plain p.2 := by
  intro p hp
  rcases List.mem_append.mp hp with hp | hp
  · obtain ⟨n, -, rfl⟩ := Option.map_eq_some_iff.mp (Option.mem_toList.mp hp)
    exact ⟨plain_blksize, plain_toDigits n⟩
  · split_ifs at hp
    · rw [List.mem_singleton.mp hp]
      exact ⟨plain_tsize, plain_toDigits _⟩
    · cases hp

theorem lookup_ackedItems (data : Bytes) (options : Dict Str Str) :
    ((ackedItems data options).map fun p => (encode p.1, encode p.2)).lookup
        (encode "blksize".toList) =
      (requested? options).map fun n => encode (Nat.toDigits 10 n) := by
  unfold ackedItems
  rcases requested? options with _ | n <;> by_cases ht : "tsize".toList ∈ options <;>
    simp only [ht, if_true, if_false] <;> rfl

/-- **The client reads the block size off the OACK.** -/
theorem oackBlockSize_acked (data : Bytes) (options : Dict Str Str) {b : ℕ}
    (hb : b = 512 ∨ b = (negotiate data options).blockSize) :
    oackBlockSize b ((negotiate data options).acked.items.flatMap fun p =>
      encode p.1 ++ [0] ++ encode p.2 ++ [0]) = (negotiate data options).blockSize := by
  rw [negotiate_blockSize] at hb ⊢
  unfold oackBlockSize
  rw [negotiate_acked, pairs_splitOn (plain_ackedItems data options), lookup_ackedItems]
  cases hr : requested? options with
  | none =>
    rw [hr] at hb
    exact or_self_iff.mp hb
  | some n =>
    change ((Str.int? (decode (encode (Nat.toDigits 10 n)))).getD b).toNat = n
    have hlt : n < 10 ^ 20 := (requested?_bounds hr).2.trans_lt (by decide)
    rw [decode_encode (plain_toDigits n), Str.int?_toDigits_of_lt hlt]
    rfl

/-! ### Blocks -/

/-- A transfer whose block size the client learns. -/
structure Agreed (t : Transfer) : Prop where
  pos : 0 < t.blockSize
  plain : t.acked.items = [] → t.blockSize = 512
  oack : ∀ b, b = 512 ∨ b = t.blockSize →
    oackBlockSize b (t.acked.items.flatMap fun p => encode p.1 ++ [0] ++ encode p.2 ++ [0]) =
      t.blockSize

theorem agreed_negotiate (data : Bytes) (options : Dict Str Str) :
    Agreed (negotiate data options) := by
  refine ⟨blockSize_pos data options, fun h => ?_, fun b hb => oackBlockSize_acked data options hb⟩
  rw [negotiate_acked] at h
  rw [negotiate_blockSize]
  cases hr : requested? options with
  | none => rfl
  | some n =>
    rw [ackedItems, hr] at h
    cases h

/-- The 16 bits of a block number. -/
def num (i : ℕ) : ℕ := i % 65536

theorem num_lt (i : ℕ) : num i < 65536 := Nat.mod_lt i (by decide)

theorem distinct_num : StopAndWait.Distinct num := by
  intro i
  unfold num
  omega

namespace Transfer

/-- The number of the short block. -/
def lastBlock (t : Transfer) : ℕ := t.data.length / t.blockSize + 1

/-- Block 0 is the OACK, block `n + 1` begins at byte `n * blockSize`. -/
def phaseAt (t : Transfer) : ℕ → Phase
  | 0 => .oack
  | n + 1 => .data (n + 1) (n * t.blockSize)

def packetAt (t : Transfer) (i : ℕ) : Bytes := t.packet (t.phaseAt i)

end Transfer

variable {t : Transfer}

theorem expect_phaseAt (t : Transfer) (i : ℕ) : (t.phaseAt i).expect = num i := by
  cases i <;> rfl

/-- A block within the file is short where it is the last. -/
theorem chunk_lt_iff (ht : Agreed t) {n : ℕ} (hn : n < t.lastBlock) :
    (t.chunk (n * t.blockSize)).length < t.blockSize ↔ n + 1 = t.lastBlock := by
  have hpos := ht.pos
  have hle : n * t.blockSize ≤ t.data.length :=
    (Nat.le_div_iff_mul_le hpos).mp (Nat.lt_succ_iff.mp hn)
  have hlt : t.data.length / t.blockSize < n + 1 ↔ t.data.length < (n + 1) * t.blockSize :=
    Nat.div_lt_iff_lt_mul hpos
  have hsucc : (n + 1) * t.blockSize = n * t.blockSize + t.blockSize := Nat.succ_mul _ _
  unfold Transfer.chunk
  unfold Transfer.lastBlock at hn ⊢
  rw [List.length_take, List.length_drop]
  omega

theorem chunk_length (ht : Agreed t) {n : ℕ} (hn : n + 1 < t.lastBlock) :
    (t.chunk (n * t.blockSize)).length = t.blockSize := by
  have hshort := chunk_lt_iff ht (show n < t.lastBlock by omega)
  have hle : (t.chunk (n * t.blockSize)).length ≤ t.blockSize := List.length_take_le _ _
  omega

/-- The block that follows. -/
theorem after_phaseAt (ht : Agreed t) {i : ℕ} (hi : i < t.lastBlock) :
    t.after (t.phaseAt i) = some (t.phaseAt (i + 1)) := by
  rcases i with _ | n
  · change some (Phase.data 1 0) = some (Phase.data 1 (0 * t.blockSize))
    rw [Nat.zero_mul]
  · have hlen := chunk_length ht hi
    change (if _ then _ else _) = _
    rw [hlen, if_neg (lt_irrefl _), ← Nat.succ_mul]
    rfl

/-- None follows the last. -/
theorem after_last (ht : Agreed t) : t.after (t.phaseAt t.lastBlock) = none :=
  if_pos ((chunk_lt_iff ht (Nat.lt_succ_self _)).mpr rfl)

/-- The bytes of the first blocks, and the next. -/
theorem take_append_chunk (t : Transfer) (n : ℕ) :
    t.data.take (n * t.blockSize) ++ t.chunk (n * t.blockSize) =
      t.data.take ((n + 1) * t.blockSize) := by
  unfold Transfer.chunk
  rw [Nat.succ_mul, List.take_add]

theorem take_last (ht : Agreed t) : t.data.take (t.lastBlock * t.blockSize) = t.data := by
  apply List.take_of_length_le
  exact (Nat.lt_mul_of_div_lt (Nat.lt_succ_self _) ht.pos).le

/-! ### One datagram -/

theorem replied_ack (e : ℕ) {k : ℕ} (hk : k < 65536) :
    replied e true (ack k) = if k = e then some true else none := by
  have hack : unpackH (UInt8.ofNat (opAck / 256)) (UInt8.ofNat opAck) = opAck :=
    unpackH_packH (by decide)
  change (if unpackH (UInt8.ofNat (opAck / 256)) (UInt8.ofNat opAck) = opError then some false
    else if unpackH (UInt8.ofNat (opAck / 256)) (UInt8.ofNat opAck) = opAck ∧
      unpackH (UInt8.ofNat (k / 256)) (UInt8.ofNat k) = e then some true else none) = _
  rw [hack, unpackH_packH hk, if_neg (by decide)]
  simp

/-- The client gets an OACK. -/
theorem recv_oack (c : Client) (payload : Bytes) :
    c.recv (packH opOack ++ payload) =
      ({ c with blockSize := oackBlockSize c.blockSize payload }, [ack 0]) := by
  have hop : unpackH (UInt8.ofNat (opOack / 256)) (UInt8.ofNat opOack) = opOack :=
    unpackH_packH (by decide)
  have hbytes : packH opOack ++ payload =
      UInt8.ofNat (opOack / 256) :: UInt8.ofNat opOack :: payload := rfl
  rw [hbytes]
  unfold Client.recv
  exact if_pos hop

/-- It gets a DATA. -/
theorem recv_data (c : Client) {k : ℕ} (hk : k < 65536) (chunk : Bytes) :
    c.recv (packH opData ++ packH k ++ chunk) =
      (if k = c.next ∧ c.stopped = false then
        { c with
          accepted := c.accepted ++ chunk
          next := (c.next + 1) % 65536
          stopped := decide (chunk.length < c.blockSize) }
      else c, [ack k]) := by
  have hop : unpackH (UInt8.ofNat (opData / 256)) (UInt8.ofNat opData) = opData :=
    unpackH_packH (by decide)
  have hbytes : packH opData ++ packH k ++ chunk = UInt8.ofNat (opData / 256) ::
      UInt8.ofNat opData :: UInt8.ofNat (k / 256) :: UInt8.ofNat k :: chunk := rfl
  rw [hbytes, Client.recv, hop, if_neg (by decide), if_pos rfl]
  simp only [unpackH_packH hk]

/-! ### The simulation -/

/-- The server has a packet out, or every block has been taken when it has returned True. -/
def ServerAt (t : Transfer) (a : StopAndWait.State) : Server → Prop
  | .waiting phase _ => phase = t.phaseAt a.cur
  | .returned true => a.got = t.lastBlock
  | .returned false => True

/-- The client has taken the blocks up to `got`. -/
structure ClientAt (t : Transfer) (got : ℕ) (c : Client) : Prop where
  accepted : c.accepted = t.data.take (got * t.blockSize)
  next : c.next = num (got + 1)
  stopped : c.stopped = decide (got = t.lastBlock)
  blockSize : c.blockSize = 512 ∨ c.blockSize = t.blockSize

/-- The world is stop and wait on the blocks. -/
structure Sim (t : Transfer) (w : World) (a : StopAndWait.State) : Prop where
  inv : StopAndWait.Inv a
  cur_le : a.cur ≤ t.lastBlock
  down : w.down = a.data.map t.packetAt
  up : w.up = a.acks.map fun j => ack (num j)
  server : ServerAt t a w.server
  client : ClientAt t a.got w.client
  agreed : 1 ≤ a.cur ∨ 0 ∈ a.acks → w.client.blockSize = t.blockSize

variable {w : World} {a : StopAndWait.State}

theorem ServerAt.mono {a' : StopAndWait.State} {s : Server} (h : ServerAt t a s)
    (hcur : a'.cur = a.cur) (hgot : a.got = t.lastBlock → a'.got = t.lastBlock) :
    ServerAt t a' s := by
  rcases s with ⟨phase, attempt⟩ | _ | _
  · exact h.trans (congrArg t.phaseAt hcur.symm)
  · trivial
  · exact hgot h

theorem serve_nil (w : World) (s : Server) : w.serve (s, []) = { w with server := s } := by
  unfold World.serve
  rw [List.append_nil]

theorem Sim.start (ht : Agreed t) : ∃ a, Sim t (.start t) a := by
  have hclient : ClientAt t 0 Client.start :=
    ⟨by rw [Nat.zero_mul]; rfl, rfl, (decide_eq_false (Nat.succ_ne_zero _).symm).symm, Or.inl rfl⟩
  have hinv : ∀ n ≤ 1, StopAndWait.Inv ⟨n, 0, [n], []⟩ := by
    intro n hn
    refine ⟨List.pairwise_singleton _ _, fun i hi => ?_, ⟨hn, Nat.zero_le n⟩, fun j hj => nomatch hj⟩
    rw [List.mem_singleton.mp hi]
    exact ⟨Nat.le_succ n, Nat.le_refl n⟩
  unfold World.start Transfer.start Transfer.enter
  by_cases hnil : t.acked.items = []
  · have hphase : Phase.data 1 0 = t.phaseAt 1 := by
      change _ = Phase.data 1 (0 * t.blockSize)
      rw [Nat.zero_mul]
    rw [if_pos hnil]
    exact ⟨⟨1, 0, [1], []⟩, hinv 1 (Nat.le_refl 1), Nat.succ_le_succ (Nat.zero_le _),
      by rw [hphase]; rfl, rfl, hphase, hclient, fun _ => (ht.plain hnil).symm⟩
  · rw [if_neg hnil]
    refine ⟨⟨0, 0, [0], []⟩, hinv 0 (Nat.zero_le 1), Nat.zero_le _, rfl, rfl, rfl, hclient, ?_⟩
    rintro (h | h)
    · exact absurd h (by decide)
    · cases h

/-- `recvfrom` times out: the packet is sent again, or the transfer is given up. -/
theorem Sim.timeout (h : Sim t w a) : ∃ a', Sim t (w.step t .timeout) a' := by
  change ∃ a', Sim t (w.serve (t.timeout w.server)) a'
  have hserver := h.server
  cases hw : w.server with
  | returned ok =>
    refine ⟨a, ?_⟩
    rw [Transfer.timeout, serve_nil, ← hw]
    exact h
  | waiting phase attempt =>
    rw [hw] at hserver
    obtain rfl : phase = t.phaseAt a.cur := hserver
    rw [Transfer.timeout]
    split_ifs
    · exact ⟨_, h.inv.resend, h.cur_le, by simp [World.serve, h.down, Transfer.packetAt], h.up,
        rfl, h.client, h.agreed⟩
    · rw [serve_nil]
      exact ⟨a, h.inv, h.cur_le, h.down, h.up, trivial, h.client, h.agreed⟩

/-- A datagram that is not the client's changes nothing. -/
theorem Sim.stray (h : Sim t w a) (r : Bytes) : Sim t (w.step t (.stray r)) a := by
  have hsame : t.reply false r w.server = (w.server, []) := by
    cases w.server <;> rfl
  change Sim t (w.serve (t.reply false r w.server)) a
  rw [hsame, serve_nil]
  exact h

/-- An acknowledgement comes that is not the server's own: it is ignored. -/
theorem Sim.ignore (h : Sim t w a) {j : ℕ} {rest : List ℕ} (ha : a.acks = j :: rest) :
    Sim t { w with up := rest.map fun j => ack (num j) } { a with acks := rest } :=
  ⟨h.inv.discard ha, h.cur_le, h.down, rfl, h.server.mono rfl id, h.client,
    fun hc => h.agreed (hc.imp_right fun h0 => ha ▸ List.mem_cons_of_mem j h0)⟩

/-- **The server goes on**, or has sent every block. -/
theorem Sim.acked (ht : Agreed t) (h : Sim t w a) {rest : List ℕ} (ha : a.acks = a.cur :: rest) :
    ∃ a', Sim t ({ w with up := rest.map fun j => ack (num j) }.serve
      (match t.after (t.phaseAt a.cur) with
        | none => (.returned true, [])
        | some phase => t.enter phase)) a' := by
  have hgot : a.got = a.cur := h.inv.got_eq (ha ▸ List.mem_cons_self)
  have hagreed : w.client.blockSize = t.blockSize := by
    apply h.agreed
    by_cases h0 : a.cur = 0
    · exact Or.inr (h0 ▸ ha ▸ List.mem_cons_self)
    · exact Or.inl (Nat.one_le_iff_ne_zero.mpr h0)
  rcases h.cur_le.lt_or_eq with hlt | heq
  · rw [after_phaseAt ht hlt]
    refine ⟨_, h.inv.advance ha, hlt, ?_, rfl, rfl, h.client, fun _ => hagreed⟩
    simp [World.serve, Transfer.enter, Transfer.packetAt, h.down]
  · rw [heq, after_last ht]
    change ∃ a', Sim t (World.serve _ (.returned true, [])) a'
    rw [serve_nil]
    exact ⟨_, h.inv.discard ha, h.cur_le, h.down, rfl, hgot.trans heq, h.client, fun _ => hagreed⟩

/-- The server takes a datagram of the client. -/
theorem Sim.serverRecv (ht : Agreed t) (h : Sim t w a) : ∃ a', Sim t (w.step t .server) a' := by
  rcases hacks : a.acks with _ | ⟨j, rest⟩
  · have hup : w.up = [] := by rw [h.up, hacks]; rfl
    refine ⟨a, ?_⟩
    unfold World.step
    rw [hup]
    exact h
  · have hup : w.up = ack (num j) :: rest.map fun j => ack (num j) := by rw [h.up, hacks]; rfl
    have hignore := h.ignore hacks
    have hserver := h.server
    have hmem : j ∈ a.acks := hacks ▸ List.mem_cons_self
    unfold World.step
    rw [hup]
    change ∃ a', Sim t (World.serve _ (t.reply true (ack (num j)) w.server)) a'
    cases hw : w.server with
    | returned ok =>
      rw [Transfer.reply, serve_nil, ← hw]
      exact ⟨_, hignore⟩
    | waiting phase attempt =>
      rw [hw] at hserver
      obtain rfl : phase = t.phaseAt a.cur := hserver
      rw [Transfer.reply, expect_phaseAt, replied_ack _ (num_lt j)]
      by_cases hj : num j = num a.cur
      · obtain rfl := (h.inv.acked_iff distinct_num hmem).mp hj
        rw [if_pos rfl]
        exact h.acked ht hacks
      · rw [if_neg hj]
        change ∃ a', Sim t (World.serve _ (.waiting _ attempt, [])) a'
        rw [serve_nil, ← hw]
        exact ⟨_, hignore⟩

/-- The client gets block `i`: it takes it, or has it. -/
theorem ClientAt.recv (ht : Agreed t) {got i : ℕ} {c : Client} (h : ClientAt t got c)
    (hi : num i = num (got + 1) ↔ i = got + 1) (hle : i ≤ got + 1) (hlast : i ≤ t.lastBlock)
    (hsize : 1 ≤ i → c.blockSize = t.blockSize) :
    ClientAt t (max got i) (c.recv (t.packetAt i)).1 ∧
      (c.recv (t.packetAt i)).2 = [ack (num i)] ∧
      (c.blockSize = t.blockSize ∨ i = 0 →
        (c.recv (t.packetAt i)).1.blockSize = t.blockSize) := by
  rcases i with _ | n
  · have hrecv : c.recv (t.packetAt 0) = ({ c with blockSize := t.blockSize }, [ack 0]) := by
      change c.recv (packH opOack ++ _) = _
      rw [recv_oack, ht.oack _ h.blockSize]
    rw [hrecv, Nat.max_zero]
    exact ⟨⟨h.accepted, h.next, h.stopped, Or.inr rfl⟩, rfl, fun _ => rfl⟩
  · have hbs := hsize (Nat.succ_le_succ (Nat.zero_le n))
    have hrecv : c.recv (t.packetAt (n + 1)) = _ := recv_data c (num_lt (n + 1)) _
    rw [hrecv]
    by_cases hnext : n = got
    · subst hnext
      -- the next block: the file goes on with it
      have hopen : c.stopped = false := by
        rw [h.stopped, decide_eq_false (by omega)]
      rw [if_pos ⟨h.next.symm, hopen⟩, Nat.max_eq_right (Nat.le_succ n)]
      refine ⟨⟨?_, ?_, ?_, Or.inr hbs⟩, rfl, fun _ => hbs⟩
      · change c.accepted ++ t.chunk (n * t.blockSize) = _
        rw [h.accepted, take_append_chunk]
      · change (c.next + 1) % 65536 = num (n + 1 + 1)
        rw [h.next]
        unfold num
        omega
      · change decide ((t.chunk (n * t.blockSize)).length < c.blockSize) = _
        rw [hbs]
        exact decide_eq_decide.mpr (chunk_lt_iff ht hlast)
    · have hne : ¬ (num (n + 1) = c.next ∧ c.stopped = false) := by
        rintro ⟨he, -⟩
        rw [h.next, hi] at he
        omega
      rw [if_neg hne, Nat.max_eq_left (by omega)]
      exact ⟨h, rfl, fun _ => hbs⟩

/-- The client takes a datagram. -/
theorem Sim.clientRecv (ht : Agreed t) (h : Sim t w a) : ∃ a', Sim t (w.step t .client) a' := by
  rcases hdata : a.data with _ | ⟨i, rest⟩
  · have hdown : w.down = [] := by rw [h.down, hdata]; rfl
    refine ⟨a, ?_⟩
    unfold World.step
    rw [hdown]
    exact h
  · have hdown : w.down = t.packetAt i :: rest.map t.packetAt := by rw [h.down, hdata]; rfl
    have hmem : i ∈ a.data := hdata ▸ List.mem_cons_self
    obtain ⟨hlo, hhi⟩ := h.inv.window i (List.mem_append_right _ hmem)
    obtain ⟨hgot, -⟩ := h.inv.got
    have hcur := h.cur_le
    obtain ⟨hclient, hack, hsize⟩ := h.client.recv ht (h.inv.expected_iff distinct_num hmem)
      (by omega) (by omega) fun hi => h.agreed (Or.inl (by omega))
    have hserver : ServerAt t { a with got := max a.got i } w.server :=
      h.server.mono rfl fun hall => (congrArg (max · i) hall).trans (Nat.max_eq_left (by omega))
    unfold World.step
    rw [hdown]
    refine ⟨_, h.inv.receive hdata, h.cur_le, rfl, ?_, hserver.mono rfl id, hclient, fun hc => ?_⟩
    · change w.up ++ _ = _
      rw [hack, h.up, List.map_append]
      rfl
    · apply hsize
      rcases hc with hc | hc
      · exact Or.inl (h.agreed (Or.inl hc))
      · rcases List.mem_append.mp hc with hc | hc
        · exact Or.inl (h.agreed (Or.inr hc))
        · exact Or.inr (List.mem_singleton.mp hc).symm

/-- The channels lose and duplicate. -/
theorem Sim.loseDown (h : Sim t w a) (i : ℕ) : ∃ a', Sim t (w.step t (.loseDown i)) a' :=
  ⟨_, h.inv.lose_data i, h.cur_le, by
    rw [← Channel.lose_map, ← h.down]
    rfl, h.up, h.server.mono rfl id, h.client, h.agreed⟩

theorem Sim.loseUp (h : Sim t w a) (i : ℕ) : ∃ a', Sim t (w.step t (.loseUp i)) a' :=
  ⟨_, h.inv.lose_acks i, h.cur_le, h.down, by
    rw [← Channel.lose_map, ← h.up]
    rfl, h.server.mono rfl id, h.client,
    fun hc => h.agreed (hc.imp_right fun h0 => (Channel.lose_sublist i a.acks).subset h0)⟩

theorem Sim.duplicateDown (h : Sim t w a) (i : ℕ) :
    ∃ a', Sim t (w.step t (.duplicateDown i)) a' :=
  ⟨_, h.inv.duplicate_data i, h.cur_le, by
    rw [← Channel.duplicate_map, ← h.down]
    rfl, h.up, h.server.mono rfl id, h.client, h.agreed⟩

theorem Sim.duplicateUp (h : Sim t w a) (i : ℕ) : ∃ a', Sim t (w.step t (.duplicateUp i)) a' :=
  ⟨_, h.inv.duplicate_acks i, h.cur_le, h.down, by
    rw [← Channel.duplicate_map, ← h.up]
    rfl, h.server.mono rfl id, h.client,
    fun hc => h.agreed (hc.imp_right Channel.mem_of_mem_duplicate)⟩

/-- **A step of the world is one of stop and wait.** -/
theorem Sim.step (ht : Agreed t) (h : Sim t w a) (e : Event) : ∃ a', Sim t (w.step t e) a' := by
  cases e with
  | timeout => exact h.timeout
  | server => exact h.serverRecv ht
  | stray r => exact ⟨a, h.stray r⟩
  | client => exact h.clientRecv ht
  | loseDown i => exact h.loseDown i
  | loseUp i => exact h.loseUp i
  | duplicateDown i => exact h.duplicateDown i
  | duplicateUp i => exact h.duplicateUp i

theorem Sim.run (ht : Agreed t) (es : List Event) : ∃ a, Sim t (World.run t es) a := by
  induction es using List.reverseRecOn with
  | nil => exact Sim.start ht
  | append_singleton es e ih =>
    obtain ⟨a, ha⟩ := ih
    have hrun : World.run t (es ++ [e]) = (World.run t es).step t e :=
      List.foldl_concat _ _ _ _
    rw [hrun]
    exact ha.step ht e

/-- **TFTP delivery is exact**: what the client has accepted is a prefix of the file, and it is the
whole file, with its short block, when `serve_file` has returned True. -/
theorem delivers (data : Bytes) (options : Dict Str Str) (es : List Event) :
    (World.run (negotiate data options) es).client.accepted <+: data ∧
      ((World.run (negotiate data options) es).server = .returned true →
        (World.run (negotiate data options) es).client.accepted = data ∧
          (World.run (negotiate data options) es).client.stopped = true) := by
  have ht := agreed_negotiate data options
  obtain ⟨a, h⟩ := Sim.run ht es
  have haccepted := h.client.accepted
  rw [negotiate_data] at haccepted
  refine ⟨by rw [haccepted]; exact List.take_prefix _ _, fun hret => ?_⟩
  have hgot : a.got = (negotiate data options).lastBlock := by
    have hserver := h.server
    rw [hret] at hserver
    exact hserver
  have hall := take_last ht
  rw [negotiate_data] at hall
  exact ⟨by rw [haccepted, hgot, hall], by rw [h.client.stopped, decide_eq_true hgot]⟩

/-- An OACK, a full block and the empty one, with an acknowledgement that comes twice. -/
example : (World.run (negotiate [1, 2, 3, 4, 5, 6, 7, 8]
    (Dict.empty.set "blksize".toList "8".toList))
      [.client, .duplicateUp 0, .server, .server, .client, .server, .client, .server]).server =
    .returned true := by
  decide

end Tftp
end Xc7Tools
