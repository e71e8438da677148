/-
# readback2bit.py: the frames and nothing else

A `.bit` file is its fields, and the words of its configuration the sync word
and the packets behind it, the frames in the payload of the first type-2 packet
(`Config`, `BitFile`). The walk takes one packet after another, whatever its
payload looks like (`walk_packets`), so the output is the file with that payload
replaced (`readback2bit_bytes`).

Key definitions: `Packet`, `Config`, `BitFile`.
Key theorems: `walk_packets`, `cfgField_bytes`, `readback2bit_bytes`, `payload_replaced`.
-/
import Xc7Tools.Readback.Script

namespace Xc7Tools
namespace Readback

open Checked Struct

/-! ### The file -/

/-- A packet before the frames: of type 1 with its payload, or a word of another type. -/
inductive Packet where
  | type1 (header : ℕ) (payload : List ℕ)
  | other (header : ℕ)

namespace Packet

def words : Packet → List ℕ
  | type1 header payload => header :: payload
  | other header => [header]

/-- The header is of the packet's type, and counts the payload; there is no type-2 packet. -/
def WellFormed : Packet → Prop
  | type1 header payload => typ header = 1 ∧ payload.length = cnt header
  | other header => typ header ≠ 1 ∧ typ header ≠ 2

end Packet

/-- The words of a configuration. -/
structure Config where
  /-- What stands before the sync word. -/
  before : List ℕ
  packets : List Packet
  /-- The FDRI write that announces the type-2 packet. -/
  fdri : ℕ
  header2 : ℕ
  payload : List ℕ
  rest : List ℕ
  no_sync : sync ∉ before
  packets_ok : ∀ p ∈ packets, p.WellFormed
  fdri_typ : typ fdri = 1
  fdri_ok : IsFdri fdri
  header2_typ : typ header2 = 2
  payload_length : payload.length = count2 header2

namespace Config

variable (c : Config)

/-- The words before the payload. -/
def front : List ℕ :=
  c.before ++ sync :: c.packets.flatMap Packet.words ++ [c.fdri, c.header2]

def words : List ℕ := c.front ++ c.payload ++ c.rest

end Config

/-- The bytes of a field other than e. -/
def fieldBytes (tag : Char) (s : Bytes) : Bytes :=
  UInt8.ofNat tag.toNat :: writeInt .big 2 s.length ++ s

/-- A `.bit` file. -/
structure BitFile where
  header : Bytes
  a : Bytes
  b : Bytes
  c : Bytes
  d : Bytes
  config : Config
  trailing : Bytes
  lengths : ∀ s ∈ [header, a, b, c, d], s.length < 2 ^ 16
  words_lt : ∀ w ∈ config.words, w < 2 ^ 32
  config_lt : 4 * config.words.length < 2 ^ 32

namespace BitFile

variable (f : BitFile)

/-- The bytes before the configuration. -/
def front : Bytes :=
  writeInt .big 2 f.header.length ++ f.header ++ writeInt .big 2 1 ++ fieldBytes 'a' f.a ++
    fieldBytes 'b' f.b ++ fieldBytes 'c' f.c ++ fieldBytes 'd' f.d ++
    UInt8.ofNat 'e'.toNat :: writeInt .big 4 (4 * f.config.words.length)

def bytes : Bytes := f.front ++ writeInts .big 4 f.config.words ++ f.trailing

/-- Where the payload begins in the file. -/
def payloadAt : ℕ := f.front.length + 4 * f.config.front.length

/-- The length of the payload in words. -/
def n : ℕ := f.config.payload.length

end BitFile

/-! ### The fields are found -/

section Fields

variable {data s rest : Bytes} {p q : ℕ}

theorem slice_eq (h : data.drop p = s ++ rest) (hq : q = p + s.length) : slice data p q = s := by
  rw [slice, h, hq, Nat.add_sub_cancel_left, List.take_left]

theorem drop_eq (h : data.drop p = s ++ rest) (hq : q = p + s.length) : data.drop q = rest := by
  rw [hq, ← List.drop_drop, h, List.drop_left]

theorem unpack1_slice {size m : ℕ} (hm : m < 256 ^ size)
    (h : data.drop p = writeInt .big size m ++ rest) (hq : q = p + size) :
    unpack1 size (slice data p q) = .ok m := by
  have hlen := length_writeInt .big size m
  rw [slice_eq h (by rw [hq, hlen]), unpack1, if_pos hlen, readInt_writeInt .big hm]

theorem assert_ok {P : Prop} [Decidable P] (h : P) : assert P = .ok () := if_pos h

theorem length_fieldBytes (tag : Char) (s : Bytes) : (fieldBytes tag s).length = 3 + s.length := by
  rw [fieldBytes, List.length_append, List.length_cons, length_writeInt]

theorem field_bytes {tag : Char} (hs : s.length < 2 ^ 16)
    (h : data.drop p = fieldBytes tag s ++ rest) :
    field data tag p = .ok (p + (fieldBytes tag s).length) := by
  have htag : data.drop p = [UInt8.ofNat tag.toNat] ++
      (writeInt .big 2 s.length ++ (s ++ rest)) := by
    rw [h, fieldBytes, List.append_assoc, List.cons_append]
    rfl
  have hslice : slice data p (p + 1) = [UInt8.ofNat tag.toNat] := slice_eq htag rfl
  have hlen : unpack1 2 (slice data (p + 1) (p + 3)) = .ok s.length :=
    unpack1_slice hs (drop_eq htag rfl) rfl
  unfold field
  rw [length_fieldBytes, ← Nat.add_assoc]
  exact bind_eq_ok.mpr ⟨(), assert_ok hslice, bind_eq_ok.mpr ⟨s.length, hlen, rfl⟩⟩

theorem fieldE_bytes {m : ℕ} (hm : m < 2 ^ 32)
    (h : data.drop p = [UInt8.ofNat 'e'.toNat] ++ (writeInt .big 4 m ++ rest)) :
    fieldE data p = .ok (p + 5, m) := by
  have hslice : slice data p (p + 1) = [UInt8.ofNat 'e'.toNat] := slice_eq h rfl
  have hlen : unpack1 4 (slice data (p + 1) (p + 5)) = .ok m :=
    unpack1_slice hm (drop_eq h rfl) rfl
  unfold fieldE
  exact bind_eq_ok.mpr ⟨(), assert_ok hslice, bind_eq_ok.mpr ⟨m, hlen, rfl⟩⟩

end Fields

theorem cfgField_bytes (f : BitFile) :
    cfgField f.bytes = .ok (f.front.length, 4 * f.config.words.length) := by
  have hlens := f.lengths
  simp only [List.forall_mem_cons] at hlens
  obtain ⟨hh, ha, hb, hc, hd, -⟩ := hlens
  have h0 : f.bytes.drop 0 = writeInt .big 2 f.header.length ++ (f.header ++ (writeInt .big 2 1 ++
      (fieldBytes 'a' f.a ++ (fieldBytes 'b' f.b ++ (fieldBytes 'c' f.c ++ (fieldBytes 'd' f.d ++
        ([UInt8.ofNat 'e'.toNat] ++ (writeInt .big 4 (4 * f.config.words.length) ++
          (writeInts .big 4 f.config.words ++ f.trailing))))))))) := by
    simp only [List.drop_zero, BitFile.bytes, BitFile.front, List.append_assoc, List.cons_append,
      List.nil_append]
  have h1 := drop_eq h0 (q := 2) (by rw [length_writeInt])
  have h2 := drop_eq h1 rfl
  have h3 := drop_eq h2 (q := 2 + f.header.length + 2) (by rw [length_writeInt])
  have h4 := drop_eq h3 rfl
  have h5 := drop_eq h4 rfl
  have h6 := drop_eq h5 rfl
  have h7 := drop_eq h6 rfl
  have hend : 2 + f.header.length + 2 + (fieldBytes 'a' f.a).length + (fieldBytes 'b' f.b).length +
      (fieldBytes 'c' f.c).length + (fieldBytes 'd' f.d).length + 5 = f.front.length := by
    simp only [BitFile.front, List.length_append, List.length_cons, length_writeInt]
  unfold cfgField
  refine bind_eq_ok.mpr ⟨f.header.length, unpack1_slice hh h0 rfl, ?_⟩
  refine bind_eq_ok.mpr ⟨1, unpack1_slice (by decide) h2 rfl, ?_⟩
  refine bind_eq_ok.mpr ⟨(), assert_ok rfl, ?_⟩
  refine bind_eq_ok.mpr ⟨_, field_bytes ha h3, ?_⟩
  refine bind_eq_ok.mpr ⟨_, field_bytes hb h4, ?_⟩
  refine bind_eq_ok.mpr ⟨_, field_bytes hc h5, ?_⟩
  refine bind_eq_ok.mpr ⟨_, field_bytes hd h6, ?_⟩
  rw [fieldE_bytes f.config_lt h7, hend]

/-! ### The walk -/

/-- What follows a packet that is not the last begins with no type-2 header. -/
theorem head_typ {ps : List Packet} (hps : ∀ p ∈ ps, p.WellFormed) {fdri : ℕ}
    (hf : typ fdri = 1) (tail : List ℕ) :
    ∃ w ws, ps.flatMap Packet.words ++ fdri :: tail = w :: ws ∧ typ w ≠ 2 := by
  cases ps with
  | nil => exact ⟨fdri, tail, rfl, by rw [hf]; decide⟩
  | cons p ps =>
    have hp := hps p List.mem_cons_self
    cases p with
    | type1 header payload =>
      refine ⟨header, payload ++ (ps.flatMap Packet.words ++ fdri :: tail), ?_, ?_⟩
      · simp [Packet.words]
      · rw [hp.1]
        decide
    | other header => exact ⟨header, ps.flatMap Packet.words ++ fdri :: tail, by simp [Packet.words], hp.2⟩

theorem walk_of_lt {words : List ℕ} {i : ℕ} {w : ℕ} (h : words[i]? = some w) :
    walk words i = if typ w = 1 then
      if IsFdri w then
        match words[i + 1]? with
        | none => .error .IndexError
        | some w' => if typ w' = 2 then .ok (i + 2, count2 w') else walk words (i + 1 + cnt w)
      else walk words (i + 1 + cnt w)
    else walk words (i + 1) := by
  obtain ⟨hi, hw⟩ := List.getElem?_eq_some_iff.mp h
  subst hw
  exact (walk.eq_1 words i).trans (dif_pos hi)

/-- **No payload word is taken for a header, and no header is skipped.** -/
theorem walk_packets {fdri header2 : ℕ} (hf : typ fdri = 1) (hfdri : IsFdri fdri)
    (h2 : typ header2 = 2) (tail : List ℕ) : ∀ (ps : List Packet) (front : List ℕ),
    (∀ p ∈ ps, p.WellFormed) →
    walk (front ++ (ps.flatMap Packet.words ++ fdri :: header2 :: tail)) front.length =
      .ok (front.length + (ps.flatMap Packet.words).length + 2, count2 header2)
  | [], front, _ => by
    have h0 : (front ++ (fdri :: header2 :: tail))[front.length]? = some fdri := by simp
    have h1 : (front ++ (fdri :: header2 :: tail))[front.length + 1]? = some header2 := by simp
    rw [List.flatMap_nil, List.nil_append, walk_of_lt h0, if_pos hf, if_pos hfdri, h1]
    exact if_pos h2
  | .other w :: ps, front, hps => by
    have hw := hps _ List.mem_cons_self
    have ih := walk_packets hf hfdri h2 tail ps (front ++ [w]) fun p hp =>
      hps p (List.mem_cons_of_mem _ hp)
    have h0 : (front ++ (w :: (ps.flatMap Packet.words ++ fdri :: header2 :: tail)))[front.length]? =
        some w := by simp
    simp only [List.append_assoc, List.length_append, List.cons_append, List.nil_append] at ih
    simp only [List.flatMap_cons, Packet.words, List.cons_append, List.nil_append]
    rw [walk_of_lt h0, if_neg hw.1]
    exact ih.trans (by simp; omega)
  | .type1 w payload :: ps, front, hps => by
    obtain ⟨hw, hlen⟩ := hps _ List.mem_cons_self
    have hps' : ∀ p ∈ ps, p.WellFormed := fun p hp => hps p (List.mem_cons_of_mem _ hp)
    have ih := walk_packets hf hfdri h2 tail ps (front ++ w :: payload) hps'
    set rest := ps.flatMap Packet.words ++ fdri :: header2 :: tail with hrest
    have h0 : (front ++ (w :: (payload ++ rest)))[front.length]? = some w := by simp
    have hnext : walk (front ++ (w :: (payload ++ rest))) (front.length + 1 + cnt w) =
        .ok (front.length + (w :: payload ++ ps.flatMap Packet.words).length + 2,
          count2 header2) := by
      have hpos : (front ++ w :: payload).length = front.length + 1 + cnt w := by
        rw [List.length_append, List.length_cons, hlen]
        omega
      rw [hpos, List.append_assoc, List.cons_append] at ih
      rw [ih, List.length_append, List.length_cons, hlen]
      congr 2
      omega
    simp only [List.flatMap_cons, Packet.words, List.cons_append, List.append_assoc]
    rw [walk_of_lt h0, if_pos hw]
    by_cases hwf : IsFdri w
    · obtain ⟨w', ws, hhead, ht⟩ := head_typ hps' hf (header2 :: tail)
      have hnil : payload = [] := List.eq_nil_of_length_eq_zero (hlen.trans hwf.2.2)
      have h1 : (front ++ (w :: (payload ++ rest)))[front.length + 1]? = some w' := by
        rw [hnil, hrest, hhead]
        simp
      rw [if_pos hwf, h1]
      exact (if_neg ht).trans hnext
    · rw [if_neg hwf]
      exact hnext

theorem Config.index_sync (c : Config) : index c.words sync = .ok c.before.length := by
  have hwords : c.words = c.before ++ sync :: (c.packets.flatMap Packet.words ++
      ([c.fdri, c.header2] ++ (c.payload ++ c.rest))) := by
    simp [Config.words, Config.front]
  have hmem : sync ∈ c.words := by
    rw [hwords]
    exact List.mem_append_right _ List.mem_cons_self
  rw [index, if_pos hmem, hwords, List.idxOf_append_of_notMem c.no_sync, List.idxOf_cons_self,
    Nat.add_zero]

theorem Config.walk_words (c : Config) :
    walk c.words (c.before.length + 1) = .ok (c.front.length, c.payload.length) := by
  have hwords : c.words = (c.before ++ [sync]) ++ (c.packets.flatMap Packet.words ++
      c.fdri :: c.header2 :: (c.payload ++ c.rest)) := by
    simp [Config.words, Config.front]
  have hpos : c.before.length + 1 = (c.before ++ [sync]).length := by
    rw [List.length_append, List.length_singleton]
  rw [hpos, hwords, walk_packets c.fdri_typ c.fdri_ok c.header2_typ _ _ _ c.packets_ok,
    c.payload_length]
  congr 2
  simp [Config.front]
  omega

/-! ### The output -/

/-- The words of the readback behind its dummy frame. -/
def newFrames (m n : ℕ) (rb : Bytes) : List ℕ := ((readInts .little 4 m rb).drop FRAME).take n

theorem length_newFrames {m n : ℕ} (h : FRAME + n ≤ m) (rb : Bytes) :
    (newFrames m n rb).length = n := by
  rw [newFrames, List.length_take, List.length_drop, length_readInts]
  omega

/-- The file with a payload. -/
def BitFile.withPayload (f : BitFile) (ws : List ℕ) : Bytes :=
  f.front ++ writeInts .big 4 f.config.front ++ writeInts .big 4 ws ++
    writeInts .big 4 f.config.rest ++ f.trailing

theorem BitFile.withPayload_payload (f : BitFile) : f.withPayload f.config.payload = f.bytes := by
  simp only [BitFile.withPayload, BitFile.bytes, Config.words, writeInts_append,
    List.append_assoc]

/-- **The script replaces the payload.** -/
theorem readback2bit_bytes (f : BitFile) {m : ℕ} {rb : Bytes} (hrb : rb.length = 4 * m)
    (hm : FRAME + f.n ≤ m) : readback2bit f.bytes rb =
      .ok ⟨f.withPayload (newFrames m f.n rb), f.n,
        (f.config.payload.zip (newFrames m f.n rb)).countP fun p => p.1 ≠ p.2⟩ := by
  have hdrop : f.bytes.drop f.front.length =
      writeInts .big 4 f.config.words ++ f.trailing := by
    rw [BitFile.bytes, List.append_assoc, List.drop_left]
  have hlen : (writeInts .big 4 f.config.words).length = 4 * f.config.words.length :=
    length_writeInts .big 4 _
  have hcfg := slice_eq hdrop (q := f.front.length + 4 * f.config.words.length) (by rw [hlen])
  have hrest := drop_eq hdrop (q := f.front.length + 4 * f.config.words.length) (by rw [hlen])
  have hread := readInts_writeInts .big 4 f.words_lt []
  rw [List.append_nil] at hread
  have hunpack : unpack .big 4 ((writeInts .big 4 f.config.words).length / 4)
      (writeInts .big 4 f.config.words) = .ok f.config.words := by
    rw [hlen, Nat.mul_div_cancel_left _ (by decide), unpack, if_pos hlen, hread]
  have hrbw : unpack .little 4 (rb.length / 4) rb = .ok (readInts .little 4 m rb) := by
    rw [hrb, Nat.mul_div_cancel_left _ (by decide), unpack, if_pos hrb]
  have hpayload : (f.config.words.drop f.config.front.length).take f.n = f.config.payload := by
    rw [Config.words, List.append_assoc, List.drop_left, BitFile.n, List.take_left]
  have hpack : packInto (writeInts .big 4 f.config.words) (f.config.front.length * 4)
      (newFrames m f.n rb) = .ok (writeInts .big 4 f.config.front ++
        writeInts .big 4 (newFrames m f.n rb) ++ writeInts .big 4 f.config.rest) := by
    have hnew := length_newFrames hm rb
    have hsplit : writeInts .big 4 f.config.words = writeInts .big 4 f.config.front ++
        (writeInts .big 4 f.config.payload ++ writeInts .big 4 f.config.rest) := by
      rw [Config.words, writeInts_append, writeInts_append, List.append_assoc]
    have hfront := length_writeInts .big 4 f.config.front
    have hpay := length_writeInts .big 4 f.config.payload
    have hle : f.config.front.length * 4 + 4 * (newFrames m f.n rb).length ≤
        (writeInts .big 4 f.config.words).length := by
      rw [hlen, hnew, Config.words, List.length_append, List.length_append, BitFile.n]
      omega
    rw [packInto, if_pos hle, hnew, hsplit, Nat.mul_comm, ← List.drop_drop, ← hfront,
      List.take_left, List.drop_left, BitFile.n, ← hpay, List.drop_left]
  unfold readback2bit
  refine bind_eq_ok.mpr ⟨_, cfgField_bytes f, ?_⟩
  simp only [hcfg]
  refine bind_eq_ok.mpr ⟨_, hunpack, ?_⟩
  refine bind_eq_ok.mpr ⟨_, f.config.index_sync, ?_⟩
  refine bind_eq_ok.mpr ⟨_, f.config.walk_words, ?_⟩
  refine bind_eq_ok.mpr ⟨_, hrbw, ?_⟩
  refine bind_eq_ok.mpr ⟨(), assert_ok (by rw [length_readInts]; exact hm), ?_⟩
  refine bind_eq_ok.mpr ⟨_, hpack, ?_⟩
  have hstart : slice f.bytes 0 f.front.length = f.front := by
    rw [slice, List.drop_zero, BitFile.bytes, List.append_assoc, Nat.sub_zero, List.take_left]
  simp only [hstart, hrest, BitFile.withPayload, List.append_assoc]
  exact congrArg (fun ws : List ℕ => Except.ok (Output.mk _ (f.n,
    (ws.zip (newFrames m f.n rb)).countP fun p => p.1 ≠ p.2))) hpayload

theorem drop_withPayload (f : BitFile) (ws : List ℕ) : (f.withPayload ws).drop f.payloadAt =
    writeInts .big 4 ws ++ (writeInts .big 4 f.config.rest ++ f.trailing) := by
  have hat : (f.front ++ writeInts .big 4 f.config.front).length = f.payloadAt := by
    rw [List.length_append, length_writeInts, BitFile.payloadAt]
  rw [BitFile.withPayload, List.append_assoc, List.append_assoc, List.drop_left' hat]

theorem length_withPayload (f : BitFile) {ws : List ℕ} (h : ws.length = f.n) :
    (f.withPayload ws).length = f.bytes.length := by
  rw [← f.withPayload_payload]
  simp only [BitFile.withPayload, List.length_append, length_writeInts, h, BitFile.n]

/-- The bytes outside the payload do not depend on it. -/
theorem getElem?_withPayload (f : BitFile) {ws : List ℕ} (h : ws.length = f.n) {k : ℕ}
    (hk : k < f.payloadAt ∨ f.payloadAt + 4 * f.n ≤ k) :
    (f.withPayload ws)[k]? = f.bytes[k]? := by
  rw [← f.withPayload_payload]
  rcases hk with hk | hk
  · have hat : (f.front ++ writeInts .big 4 f.config.front).length = f.payloadAt := by
      rw [List.length_append, length_writeInts, BitFile.payloadAt]
    have hfront : ∀ ws, (f.withPayload ws)[k]? =
        (f.front ++ writeInts .big 4 f.config.front)[k]? := fun ws => by
      rw [BitFile.withPayload, List.append_assoc, List.append_assoc,
        List.getElem?_append_left (by rwa [hat])]
    rw [hfront, hfront]
  · have hrest : ∀ {ws}, ws.length = f.n → (f.withPayload ws)[k]? =
        (writeInts .big 4 f.config.rest ++ f.trailing)[k - (f.payloadAt + 4 * f.n)]? := by
      intro ws h
      have hws : (writeInts .big 4 ws).length = 4 * f.n := by rw [length_writeInts, h]
      have hdrop : (f.withPayload ws).drop (f.payloadAt + 4 * f.n) =
          writeInts .big 4 f.config.rest ++ f.trailing := by
        rw [← List.drop_drop, drop_withPayload, List.drop_left' hws]
      rw [← hdrop, List.getElem?_drop, Nat.add_sub_cancel' hk]
    rw [hrest h, hrest rfl]

theorem readInt_withPayload (f : BitFile) {ws : List ℕ} (h : ∀ w ∈ ws, w < 2 ^ 32) {j : ℕ}
    (hj : j < ws.length) :
    readInt .big (slice (f.withPayload ws) (f.payloadAt + 4 * j) (f.payloadAt + 4 * j + 4)) =
      ws[j] := by
  rw [slice, Nat.add_sub_cancel_left, ← List.drop_drop, drop_withPayload]
  exact readInt_writeInts .big 4 h _ hj

theorem getElem_newFrames {m n : ℕ} (h : FRAME + n ≤ m) {rb : Bytes} {j : ℕ}
    (hj : j < (newFrames m n rb).length) : (newFrames m n rb)[j] =
      readInt .little (slice rb (4 * (FRAME + j)) (4 * (FRAME + j) + 4)) := by
  have hj' : FRAME + j < (readInts .little 4 m rb).length := by
    rw [length_readInts]
    rw [length_newFrames h] at hj
    omega
  have hword : (newFrames m n rb)[j] = (readInts .little 4 m rb)[FRAME + j] := by
    simp only [newFrames, List.getElem_take, List.getElem_drop]
  rw [hword, getElem_readInts .little 4 hj', slice, Nat.add_sub_cancel_left]

/-- A readback of a dummy frame and some frames. -/
theorem newFrames_of_frames {m : ℕ} {rb dummy more : Bytes} {ws : List ℕ}
    (hm : FRAME + ws.length ≤ m) (hws : ∀ w ∈ ws, w < 2 ^ 32) (hdummy : dummy.length = 4 * FRAME)
    (hrb : rb = dummy ++ writeInts .little 4 ws ++ more) : newFrames m ws.length rb = ws := by
  apply List.ext_getElem (length_newFrames hm rb)
  intro j hj hj'
  have hdrop : rb.drop (4 * FRAME) = writeInts .little 4 ws ++ more := by
    rw [hrb, List.append_assoc, List.drop_left' hdummy]
  rw [getElem_newFrames hm hj, slice, Nat.add_sub_cancel_left, Nat.mul_add, ← List.drop_drop, hdrop]
  exact readInt_writeInts .little 4 hws more hj'

/-- **The frame payload is replaced, and nothing else.** A readback of a dummy frame and the
design's own frames gives the file back. -/
theorem payload_replaced (f : BitFile) {rb : Bytes} {m : ℕ} (hrb : rb.length = 4 * m)
    (hm : FRAME + f.n ≤ m) :
    ∃ out, readback2bit f.bytes rb = .ok out ∧ out.file.length = f.bytes.length ∧
      (∀ k, k < f.payloadAt ∨ f.payloadAt + 4 * f.n ≤ k → out.file[k]? = f.bytes[k]?) ∧
      (∀ j < f.n, readInt .big (slice out.file (f.payloadAt + 4 * j) (f.payloadAt + 4 * j + 4)) =
        readInt .little (slice rb (4 * (FRAME + j)) (4 * (FRAME + j) + 4))) ∧
      ∀ dummy more : Bytes, dummy.length = 4 * FRAME →
        rb = dummy ++ writeInts .little 4 f.config.payload ++ more → out.file = f.bytes := by
  have hlen := length_newFrames hm rb
  have hlt : ∀ w ∈ newFrames m f.n rb, w < 2 ^ 32 := fun w hw =>
    readInts_lt .little 4 w (List.mem_of_mem_drop (List.mem_of_mem_take hw))
  refine ⟨_, readback2bit_bytes f hrb hm, length_withPayload f hlen,
    fun k hk => getElem?_withPayload f hlen hk, fun j hj => ?_, fun dummy more hdummy hrb' => ?_⟩
  · rw [readInt_withPayload f hlt (by rwa [hlen]), getElem_newFrames hm]
  · have hws : ∀ w ∈ f.config.payload, w < 2 ^ 32 := fun w hw =>
      f.words_lt w (List.mem_append_left _ (List.mem_append_right _ hw))
    have hnew : newFrames m f.n rb = f.config.payload := newFrames_of_frames hm hws hdummy hrb'
    show f.withPayload (newFrames m f.n rb) = f.bytes
    rw [hnew, f.withPayload_payload]

/-- Two frame words behind a packet whose payload looks like their header. -/
def smallConfig : Config where
  before := [0xFFFFFFFF]
  packets := [.type1 0x20000000 [], .type1 0x30008001 [0x30004000], .other 0]
  fdri := 0x30004000
  header2 := 0x50000002
  payload := [0x11223344, 0xAA995566]
  rest := [0x20000000]
  no_sync := by decide
  packets_ok := by simp [Packet.WellFormed, typ, cnt]
  fdri_typ := rfl
  fdri_ok := by decide
  header2_typ := rfl
  payload_length := rfl

def smallBit : BitFile where
  header := [0x0F, 0xF0]
  a := [0x78, 0]
  b := []
  c := [0x31]
  d := []
  config := smallConfig
  trailing := [0xFF]
  lengths := by simp
  words_lt := by decide
  config_lt := by decide

/-- Its own frames, read back. -/
theorem payload_replaced_small : ∃ out, readback2bit smallBit.bytes
    (List.replicate 404 0 ++ writeInts .little 4 smallConfig.payload ++ [0, 0, 0, 0]) = .ok out ∧
      out.file = smallBit.bytes := by
  have hlen : (List.replicate 404 (0 : UInt8) ++ writeInts .little 4 smallConfig.payload ++
      [0, 0, 0, 0]).length = 4 * 104 := by
    rw [List.length_append, List.length_append, List.length_replicate, length_writeInts]
    rfl
  obtain ⟨out, hout, -, -, -, hown⟩ := payload_replaced smallBit hlen (by decide)
  exact ⟨out, hout, hown _ _ List.length_replicate rfl⟩

end Readback
end Xc7Tools
