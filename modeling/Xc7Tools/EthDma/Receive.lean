/-
# eth_stream_dma: what is received

The RX process packs a frame into words and commits a word to the memory on
the edge after its last byte. On a good end of frame it hands the window to
the CPU, and takes no beat until the CPU's answer has come back. `Seen` watches
a run for the frame in progress and the one handed over last.

The window holds that frame, with its length and its flag, in every run whose
events are `Clear`: the word of the last beat is not lost to a transmission
that starts, nor read too early; no word is lost in a pause of the stream;
the length does not wrap; and `rx_trunc` is neither left from an earlier frame
nor cleared by a later one.

Key definitions: `Seen`, `Clear`, `Delivered`.
Key theorems: `Inv.eth`, `Inv.cpu`, `delivered`.
-/
import Mathlib.Data.List.Induction
import Xc7Tools.EthDma.Gateware
import Xc7Tools.Lib.Toggle

namespace Xc7Tools
namespace EthDma

/-! ### The frames of a run -/

/-- A frame of the stream; a good one ended without `tuser`. -/
structure Frame where
  bytes : List (BitVec 8)
  good : Bool
  deriving DecidableEq

/-- What has been seen of the stream: the bytes of the frame in progress, the frame handed over
last, and whether the last beat committed a word on the edge on which a transmission started. -/
structure Seen where
  cur : List (BitVec 8)
  last : Option Frame
  startled : Bool
  deriving DecidableEq

namespace Rx

/-- `rx_window_free && !tx_run`: a beat is taken. -/
def taking (s : Rx) (txRun : Bool) : Bool := s.windowFree && !txRun

/-- The beat ends a frame that is handed over. -/
def handsOver (s : Rx) (txRun : Bool) (i : EthIn) : Bool :=
  i.rxTvalid && i.rxTlast && !(i.rxTuser || s.rxPoison || !s.windowFree || txRun)

end Rx

/-- The edge starts a transmission. -/
def Tx.starts (s : Tx) : Bool := !s.txRun && s.txGoS2 != s.txDoneTog

/-- A beat within a frame that is not poisoned commits a word, on an edge that starts a
transmission. -/
def Dma.startles (p : Params) (s : Dma) : Bool :=
  s.rx.taking s.tx.txRun && !s.rx.rxPoison && s.rx.rxByte == 3 && s.rx.room p && s.tx.starts

def Seen.next (p : Params) (s : Dma) (g : Seen) : Event → Seen
  | .eth i =>
    if i.rxTvalid then
      let bytes := g.cur ++ [i.rxTdata]
      if i.rxTlast then
        { cur := []
          last := if s.rx.handsOver s.tx.txRun i then some ⟨bytes, !i.rxTuser⟩ else g.last
          startled := false }
      else { g with cur := bytes, startled := s.startles p }
    else g
  | .cpu _ => g

/-- What has been seen at the end of a run. -/
def Seen.watch (p : Params) : Dma → Seen → List Event → Seen
  | _, g, [] => g
  | s, g, e :: es => watch p (s.step p e) (g.next p s e) es

/-- Byte `k` of the RX window. -/
def rxByteAt (p : Params) (mem : Mem) (k : ℕ) : BitVec 8 :=
  (mem (ab (p.rxWordBase + BitVec.ofNat 14 (k / 4)))).extractLsb' (8 * (k % 4)) 8

/-- While `rx_valid` shows a frame, it is the one handed over last: the window holds it, or what
fits of it, with its length and its flag, and no edge hands over another. -/
def Delivered (p : Params) (s : Dma) (g : Seen) : Prop :=
  s.cpu.rxValid = true → ∃ f, g.last = some f ∧ f.good = true ∧
    (∀ k < f.bytes.length, k < 4 * p.windowWords → f.bytes[k]? = some (rxByteAt p s.mem k)) ∧
    (f.bytes.length ≤ 4 * p.windowWords → s.rx.rxLenQ.toNat = f.bytes.length) ∧
    (s.rx.rxTruncQ = true ↔ 4 * p.windowWords < f.bytes.length) ∧
    ∀ e, (g.next p s e).last = g.last

/-- What an edge must not meet. -/
def Clear (p : Params) (s : Dma) (g : Seen) : Event → Prop
  | .eth i =>
    -- a frame that fits is handed over: its last word is not lost, its length does not wrap, and
    -- no flag is left from a frame before
    (s.rx.handsOver s.tx.txRun i = true → s.rx.room p = true →
      s.tx.starts = false ∧ 4 * s.rx.rxWord.toNat + s.rx.rxByte.toNat + 1 < 2048 ∧
        s.rx.rxTruncQ = false) ∧
    -- a word was lost to a transmission: that still runs at the next beat
    (i.rxTvalid = true → g.startled = true → s.tx.txRun = true) ∧
    -- a frame ends: the CPU does not hold one that was truncated
    (i.rxTvalid = true → i.rxTlast = true → s.rx.rxTog ≠ s.cpu.rxAckTogQ → s.rx.rxTruncQ = false)
  | .cpu _ =>
    -- `rx_valid` does not rise before the last word is written
    s.rx.rxMwe = true → s.cpu.rxTogS1 = s.cpu.rxAckTogQ

/-! ### Words and bytes -/

theorem extractLsb'_ushiftRight (x : BitVec 32) (k a : ℕ) :
    (x >>> k).extractLsb' a 8 = x.extractLsb' (a + k) 8 := by
  refine BitVec.eq_of_getLsbD_eq fun i hi => ?_
  rw [BitVec.getLsbD_extractLsb', BitVec.getLsbD_extractLsb', BitVec.getLsbD_ushiftRight]
  congr 2
  omega

/-- A byte of `rx_full`. -/
theorem full_byte (r : Rx) (b : BitVec 8) {m : ℕ} (hm : m ≤ 3) :
    (r.full b).extractLsb' (8 * m) 8 = if m = 3 then b else r.rxHold.extractLsb' (8 * m) 8 := by
  refine BitVec.eq_of_getLsbD_eq fun i hi => ?_
  rw [Rx.full, BitVec.getLsbD_extractLsb', BitVec.getLsbD_append]
  split_ifs with h1 h2 h2
  · omega
  · rw [BitVec.getLsbD_extractLsb']
  · subst h2
    simp [hi]
  · omega

/-- A byte of the word a beat commits: the beat's own, or one that is held. -/
theorem word_byte (r : Rx) (b : BitVec 8) {m : ℕ} (hm : m ≤ r.rxByte.toNat) :
    (r.word b).extractLsb' (8 * m) 8 =
      if m = r.rxByte.toNat then b else r.rxHold.extractLsb' (8 * (m + 3 - r.rxByte.toNat)) 8 := by
  have hlt : r.rxByte.toNat < 4 := r.rxByte.isLt
  have hshift : (r.word b).extractLsb' (8 * m) 8 =
      (r.full b).extractLsb' (8 * (m + 3 - r.rxByte.toNat)) 8 := by
    rw [Rx.word]
    split_ifs with h3
    · have h : r.rxByte.toNat = 3 := by rw [h3]; rfl
      rw [h, Nat.add_sub_cancel]
    · rw [extractLsb'_ushiftRight]
      congr 1
      omega
  rw [hshift, full_byte r b (by omega)]
  exact if_congr (by omega) rfl rfl

/-- A byte that is held after a beat. -/
theorem hold_byte (r : Rx) (b : BitVec 8) {j : ℕ} (hj : j < 3) :
    (b ++ r.rxHold.extractLsb' 8 16).extractLsb' (8 * (2 - j)) 8 =
      if j = 0 then b else r.rxHold.extractLsb' (8 * (2 - (j - 1))) 8 := by
  refine BitVec.eq_of_getLsbD_eq fun i hi => ?_
  rw [BitVec.getLsbD_extractLsb', BitVec.getLsbD_append]
  split_ifs with h1 h2 h2
  · omega
  · rw [BitVec.getLsbD_extractLsb', BitVec.getLsbD_extractLsb']
    have h16 : 8 * (2 - j) + i < 16 := h1
    rw [decide_eq_true h16, show 8 + (8 * (2 - j) + i) = 8 * (2 - (j - 1)) + i by omega]
    simp [hi]
  · subst h2
    simp [hi]
  · omega

/-- Two words of the window have two addresses. -/
theorem addr_injective (base : BitVec 14) {i j : ℕ} (hi : i < 1024) (hj : j < 1024)
    (h : ab (base + BitVec.ofNat 14 i) = ab (base + BitVec.ofNat 14 j)) : i = j := by
  have hnat := congrArg BitVec.toNat h
  simp only [ab, BitVec.extractLsb'_toNat, BitVec.toNat_add, BitVec.toNat_ofNat] at hnat
  omega

/-! ### The RX process on one edge -/

theorem eth_rx (p : Params) (s : Dma) (i : EthIn) : (s.step p (.eth i)).rx =
    s.rx.clk p false s.cpu.rxAckTogQ s.tx.txRun i := rfl

variable {p : Params} {s : Dma} {i : EthIn}

/-- An edge without a beat. -/
theorem rx_rest (hv : i.rxTvalid = false) : (s.step p (.eth i)).rx =
    { s.rx with
      rxMen := false
      rxMwe := false
      rxAckS1 := s.cpu.rxAckTogQ
      rxAckS2 := s.rx.rxAckS1 } := by
  simp [eth_rx, Rx.clk, hv]

/-- A beat that is not taken poisons its frame, and its last discards it. -/
theorem rx_skip (hv : i.rxTvalid = true) (ht : s.rx.taking s.tx.txRun = false) :
    (s.step p (.eth i)).rx =
      { s.rx with
        rxMen := false
        rxMwe := false
        rxAckS1 := s.cpu.rxAckTogQ
        rxAckS2 := s.rx.rxAckS1
        rxPoison := !i.rxTlast
        rxWord := if i.rxTlast then 0 else s.rx.rxWord
        rxCount := if i.rxTlast then 0 else s.rx.rxCount
        rxByte := if i.rxTlast then 0 else s.rx.rxByte
        rxTruncQ := if i.rxTlast then false else s.rx.rxTruncQ } := by
  have hnot : (!s.rx.windowFree || s.tx.txRun) = true := by
    rw [Rx.taking] at ht
    cases hw : s.rx.windowFree <;> cases hr : s.tx.txRun <;> simp_all
  have hnot' : (s.rx.windowFree && !s.tx.txRun) = false := ht
  cases hl : i.rxTlast
  · simp only [eth_rx, Rx.clk, Rx.beat, hv, hl, hnot, hnot', if_true, if_false,
      Bool.false_eq_true, Bool.not_false]
  · have hend : (i.rxTuser || s.rx.rxPoison || !s.rx.windowFree || s.tx.txRun) = true := by
      rw [Bool.or_assoc, hnot, Bool.or_true]
    simp only [eth_rx, Rx.clk, Rx.beat, Rx.finish, hv, hl, hnot, hnot', hend, if_true, if_false,
      Bool.false_eq_true, Bool.not_true]

/-- A beat that is taken, within a frame. -/
theorem rx_mid (hv : i.rxTvalid = true) (ht : s.rx.taking s.tx.txRun = true)
    (hl : i.rxTlast = false) : (s.step p (.eth i)).rx =
      { s.rx with
        rxMen := s.rx.rxByte == 3 && s.rx.room p
        rxMwe := s.rx.rxByte == 3 && s.rx.room p
        rxAckS1 := s.cpu.rxAckTogQ
        rxAckS2 := s.rx.rxAckS1
        rxCount := s.rx.rxCount + 1
        rxHold := i.rxTdata ++ s.rx.rxHold.extractLsb' 8 16
        rxByte := if s.rx.rxByte = 3 then 0 else s.rx.rxByte + 1
        rxWord := if s.rx.rxByte = 3 ∧ s.rx.room p then s.rx.rxWord + 1 else s.rx.rxWord
        rxMaddr := if s.rx.rxByte = 3 ∧ s.rx.room p then p.rxWordBase + s.rx.rxWord.setWidth 14
          else s.rx.rxMaddr
        rxMdata := if s.rx.rxByte = 3 ∧ s.rx.room p then s.rx.word i.rxTdata else s.rx.rxMdata
        rxTruncQ := if s.rx.rxByte = 3 ∧ s.rx.room p = false then true else s.rx.rxTruncQ } := by
  obtain ⟨hw, hr⟩ : s.rx.windowFree = true ∧ s.tx.txRun = false := by simpa [Rx.taking] using ht
  by_cases h3 : s.rx.rxByte = 3#2 <;> cases hroom : s.rx.room p <;>
    simp [eth_rx, Rx.clk, Rx.beat, Rx.take, hv, hl, hw, hr, h3, hroom]

/-- A beat that is taken and ends its frame. -/
theorem rx_end (hv : i.rxTvalid = true) (ht : s.rx.taking s.tx.txRun = true)
    (hl : i.rxTlast = true) : (s.step p (.eth i)).rx =
      { s.rx with
        rxMen := s.rx.room p
        rxMwe := s.rx.room p
        rxAckS1 := s.cpu.rxAckTogQ
        rxAckS2 := s.rx.rxAckS1
        rxHold := i.rxTdata ++ s.rx.rxHold.extractLsb' 8 16
        rxByte := 0
        rxWord := 0
        rxCount := 0
        rxPoison := false
        rxMaddr := if s.rx.room p then p.rxWordBase + s.rx.rxWord.setWidth 14 else s.rx.rxMaddr
        rxMdata := if s.rx.room p then s.rx.word i.rxTdata else s.rx.rxMdata
        rxTruncQ := s.rx.handsOver s.tx.txRun i && (!s.rx.room p || s.rx.rxTruncQ)
        rxLenQ := if s.rx.handsOver s.tx.txRun i then s.rx.rxCount + 1 else s.rx.rxLenQ
        rxTog := s.rx.rxTog ^^ s.rx.handsOver s.tx.txRun i } := by
  obtain ⟨hw, hr⟩ : s.rx.windowFree = true ∧ s.tx.txRun = false := by simpa [Rx.taking] using ht
  cases hu : i.rxTuser || s.rx.rxPoison <;> cases hroom : s.rx.room p <;>
    simp [eth_rx, Rx.clk, Rx.beat, Rx.take, Rx.finish, Rx.handsOver, hv, hl, hw, hr, hu, hroom]

theorem taking_of_handsOver (h : s.rx.handsOver s.tx.txRun i = true) :
    i.rxTvalid = true ∧ i.rxTlast = true ∧ s.rx.taking s.tx.txRun = true ∧ i.rxTuser = false ∧
      s.rx.rxPoison = false := by
  simp only [Rx.handsOver, Bool.and_eq_true, Bool.not_eq_true', Bool.or_eq_false_iff] at h
  obtain ⟨⟨hv, hl⟩, ⟨⟨hu, hp⟩, hw⟩, hr⟩ := h
  exact ⟨hv, hl, by rw [Rx.taking, hr]; simpa using hw, hu, hp⟩

/-- The toggle flips when a frame is handed over, and only then. -/
theorem rxTog_eth (p : Params) (s : Dma) (i : EthIn) :
    (s.step p (.eth i)).rx.rxTog = (s.rx.rxTog ^^ s.rx.handsOver s.tx.txRun i) := by
  by_cases hh : s.rx.handsOver s.tx.txRun i = true
  · obtain ⟨hv, hl, ht, -⟩ := taking_of_handsOver hh
    rw [rx_end hv ht hl]
  · have hh : s.rx.handsOver s.tx.txRun i = false := by simpa using hh
    rw [hh, Bool.xor_false]
    cases hv : i.rxTvalid with
    | false => rw [rx_rest hv]
    | true =>
      cases ht : s.rx.taking s.tx.txRun with
      | false => rw [rx_skip hv ht]
      | true =>
        cases hl : i.rxTlast with
        | false => rw [rx_mid hv ht hl]
        | true => rw [rx_end hv ht hl, hh, Bool.xor_false]

theorem rxAck_eth (p : Params) (s : Dma) (i : EthIn) :
    (s.step p (.eth i)).rx.rxAckS1 = s.cpu.rxAckTogQ ∧
      (s.step p (.eth i)).rx.rxAckS2 = s.rx.rxAckS1 := by
  cases hv : i.rxTvalid with
  | false => rw [rx_rest hv]; exact ⟨rfl, rfl⟩
  | true =>
    cases ht : s.rx.taking s.tx.txRun with
    | false => rw [rx_skip hv ht]; exact ⟨rfl, rfl⟩
    | true =>
      cases hl : i.rxTlast with
      | false => rw [rx_mid hv ht hl]; exact ⟨rfl, rfl⟩
      | true => rw [rx_end hv ht hl]; exact ⟨rfl, rfl⟩

/-! ### The memory -/

/-- A word waits to be written. -/
def Dma.pending (s : Dma) : Bool := s.rx.rxMen && s.rx.rxMwe

/-- The memory with the word that waits. -/
def Dma.settled (s : Dma) : Mem :=
  if s.pending then Function.update s.mem (ab s.rx.rxMaddr) s.rx.rxMdata else s.mem

/-- The next edge writes it, unless a transmission has the port. -/
theorem mem_eth (p : Params) (s : Dma) (i : EthIn) :
    (s.step p (.eth i)).mem = if s.tx.txRun then s.mem else s.settled := by
  cases hr : s.tx.txRun <;>
    simp [Dma.step, Dma.ethClk, Dma.memEn, Dma.memWe, Dma.memAddr, Dma.settled, Dma.pending, hr]

theorem mem_eq_settled (hp : s.pending = true → s.tx.txRun = false) :
    (s.step p (.eth i)).mem = s.settled := by
  rw [mem_eth]
  cases hr : s.tx.txRun with
  | false => rfl
  | true =>
    have hno : s.pending = false := by
      by_contra h
      have := hp (by simpa using h)
      rw [hr] at this
      cases this
    rw [Dma.settled, hno]
    rfl

/-- The first `m` bytes of a frame are in the window, as far as it goes. -/
def Stored (p : Params) (mem : Mem) (f : List (BitVec 8)) (m : ℕ) : Prop :=
  ∀ k < m, k < 4 * p.windowWords → f[k]? = some (rxByteAt p mem k)

/-- The counters within a frame. -/
structure Counters (p : Params) (r : Rx) (cur : List (BitVec 8)) : Prop where
  rxByte : r.rxByte = BitVec.ofNat 2 cur.length
  rxWord : r.rxWord = BitVec.ofNat 10 (min (cur.length / 4) p.windowWords)
  rxCount : r.rxCount = BitVec.ofNat 11 cur.length
  hold : ∀ j < 3, j < cur.length →
    cur[cur.length - 1 - j]? = some (r.rxHold.extractLsb' (8 * (2 - j)) 8)
  trunc : p.windowWords < cur.length / 4 → r.rxTruncQ = true

namespace Counters

variable {r : Rx} {cur : List (BitVec 8)}

theorem byte_toNat (h : Counters p r cur) : r.rxByte.toNat = cur.length % 4 := by
  rw [h.rxByte, BitVec.toNat_ofNat]

theorem byte_eq_three (h : Counters p r cur) : r.rxByte = 3 ↔ cur.length % 4 = 3 := by
  rw [← BitVec.toNat_inj, h.byte_toNat]
  rfl

theorem word_toNat (h : Counters p r cur) :
    r.rxWord.toNat = min (cur.length / 4) p.windowWords := by
  have := p.windowWords_lt
  rw [h.rxWord, BitVec.toNat_ofNat]
  exact Nat.mod_eq_of_lt (by omega)

theorem room_iff (h : Counters p r cur) : r.room p = true ↔ cur.length / 4 < p.windowWords := by
  rw [Rx.room, decide_eq_true_iff, h.word_toNat]
  omega

/-- A word is committed: all bytes so far are in the window. -/
theorem commit (h : Counters p r cur) (hroom : r.room p = true) {mem : Mem}
    (hs : Stored p mem cur (4 * (cur.length / 4))) (b : BitVec 8) :
    Stored p (Function.update mem (ab (p.rxWordBase + r.rxWord.setWidth 14)) (r.word b)) (cur ++ [b])
      (cur.length + 1) := by
  intro k hk hk4
  have hlt := h.room_iff.mp hroom
  have hwin := p.windowWords_lt
  have haddr : r.rxWord.setWidth 14 = BitVec.ofNat 14 (cur.length / 4) := by
    apply BitVec.eq_of_toNat_eq
    rw [BitVec.toNat_setWidth, h.word_toNat, BitVec.toNat_ofNat, Nat.min_eq_left hlt.le]
  rw [haddr, rxByteAt]
  by_cases hword : k / 4 = cur.length / 4
  · rw [hword, Function.update_self, word_byte r b (by rw [h.byte_toNat]; omega), h.byte_toNat]
    by_cases hlast : k = cur.length
    · rw [hlast, if_pos rfl, List.getElem?_concat_length]
    · have hget := h.hold (cur.length - 1 - k) (by omega) (by omega)
      rw [if_neg (by omega), List.getElem?_append_left (by omega)]
      rw [show cur.length - 1 - (cur.length - 1 - k) = k by omega] at hget
      rw [hget]
      congr 2
      omega
  · have hne : ab (p.rxWordBase + BitVec.ofNat 14 (k / 4)) ≠
        ab (p.rxWordBase + BitVec.ofNat 14 (cur.length / 4)) := fun e =>
      hword (addr_injective _ (by omega) (by omega) e)
    rw [Function.update_of_ne hne, List.getElem?_append_left (by omega)]
    exact hs k (by omega) hk4

end Counters

theorem Stored.mono {mem : Mem} {f : List (BitVec 8)} {m m' : ℕ} (h : Stored p mem f m)
    (hm : m' ≤ m) : Stored p mem f m' := fun k hk => h k (lt_of_lt_of_le hk hm)

/-- Bytes that are stored stay so as the frame goes on. -/
theorem Stored.concat {mem : Mem} {f : List (BitVec 8)} {m : ℕ} (h : Stored p mem f m)
    (b : BitVec 8) : Stored p mem (f ++ [b]) m := by
  intro k hk hk4
  have hget := h k hk hk4
  have hlt : k < f.length := (List.getElem?_eq_some_iff.mp hget).1
  rw [List.getElem?_append_left hlt, hget]

/-! ### The invariant -/

/-- A frame in progress that is not poisoned: its words are in the window, but for one that was
lost to a transmission. -/
structure Mid (p : Params) (s : Dma) (g : Seen) : Prop where
  counters : Counters p s.rx g.cur
  free : g.cur ≠ [] → s.rx.windowFree = true
  stored : g.cur ≠ [] → g.startled = false →
    Stored p s.settled g.cur (4 * (g.cur.length / 4))
  pending : g.cur ≠ [] → g.startled = false → s.pending = true → s.tx.txRun = false

/-- A frame that was handed over. -/
structure Held (p : Params) (s : Dma) (g : Seen) (f : Frame) : Prop where
  last : g.last = some f
  good : f.good = true
  stored : Stored p s.settled f.bytes f.bytes.length
  length : f.bytes.length ≤ 4 * p.windowWords → s.rx.rxLenQ.toNat = f.bytes.length
  trunc : s.rx.rxTruncQ = true ↔ 4 * p.windowWords < f.bytes.length
  pending : s.pending = true → s.tx.txRun = false ∧ s.cpu.rxTogS2 = s.cpu.rxAckTogQ

/-- The toggles of the RX side. -/
def RxRing (s : Dma) : Prop :=
  Toggle.Ring s.rx.rxTog s.cpu.rxTogS1 s.cpu.rxTogS2 s.cpu.rxAckTogQ s.rx.rxAckS1 s.rx.rxAckS2

structure Inv (p : Params) (s : Dma) (g : Seen) : Prop where
  ring : RxRing s
  mid : s.rx.rxPoison = false → Mid p s g
  held : s.rx.rxTog ≠ s.cpu.rxAckTogQ → ∃ f, Held p s g f

variable {g : Seen}

theorem RxRing.eth (h : RxRing s) (i : EthIn) : RxRing (s.step p (.eth i)) := by
  obtain ⟨h1, h2⟩ := rxAck_eth p s i
  rw [RxRing, h1, h2, rxTog_eth]
  cases hh : s.rx.handsOver s.tx.txRun i with
  | false =>
    rw [Bool.xor_false]
    exact h.back
  | true =>
    have hfree : s.rx.rxTog = s.rx.rxAckS2 := by
      have ht := (taking_of_handsOver hh).2.2.1
      simp only [Rx.taking, Rx.windowFree, Bool.and_eq_true, beq_iff_eq] at ht
      exact ht.1
    rw [Bool.xor_true]
    exact h.flip hfree

theorem RxRing.cpu (h : RxRing s) (i : CpuIn) : RxRing (s.step p (.cpu i)) := by
  have hack : (s.step p (.cpu i)).cpu.rxAckTogQ = s.cpu.rxAckTogQ ∨
      (s.step p (.cpu i)).cpu.rxAckTogQ = s.cpu.rxTogS2 := by
    simp only [Dma.step, Dma.cpuClk, Cpu.clk, Bool.false_eq_true, if_false]
    split_ifs with hv
    · right
      have hne := (Bool.and_eq_true_iff.mp hv).2
      revert hne
      rw [Cpu.rxValid]
      cases s.cpu.rxTogS2 <;> cases s.cpu.rxAckTogQ <;> decide
    · exact Or.inl rfl
  exact h.answer _ hack

/-- A window that is free is so until a frame is handed over. -/
theorem windowFree_eth (hring : RxRing s) (hfree : s.rx.windowFree = true)
    (hh : s.rx.handsOver s.tx.txRun i = false) : (s.step p (.eth i)).rx.windowFree = true := by
  have heq : s.rx.rxTog = s.rx.rxAckS2 := by simpa [Rx.windowFree] using hfree
  obtain ⟨-, -, -, hack⟩ := hring.settled heq
  obtain ⟨-, h2⟩ := rxAck_eth p s i
  rw [Rx.windowFree, h2, rxTog_eth, hh, Bool.xor_false, hack, beq_self_eq_true]

/-- The whole words so far are stored, before the first beat as well. -/
theorem Mid.words (h : Mid p s g) (hstart : g.startled = false) :
    Stored p s.settled g.cur (4 * (g.cur.length / 4)) := by
  by_cases hne : g.cur = []
  · rw [hne]
    exact fun k hk => absurd hk (Nat.not_lt_zero k)
  · exact h.stored hne hstart

/-- The start of a frame. -/
theorem Mid.start {s : Dma} {g : Seen} (hcur : g.cur = []) (hbyte : s.rx.rxByte = 0)
    (hword : s.rx.rxWord = 0) (hcount : s.rx.rxCount = 0) : Mid p s g := by
  have hc : Counters p s.rx g.cur := by
    rw [hcur]
    exact ⟨hbyte, by rw [hword]; simp, hcount, fun j _ hj => absurd hj (Nat.not_lt_zero j),
      fun h => absurd h (Nat.not_lt_zero _)⟩
  exact ⟨hc, fun h => absurd hcur h, fun h => absurd hcur h, fun h => absurd hcur h⟩

/-! ### One edge of `eth_clk` -/

/-- A process that does not run starts on this edge, or not. -/
theorem txRun_eth (hr : s.tx.txRun = false) : (s.step p (.eth i)).tx.txRun = s.tx.starts := by
  change (s.tx.clk p false s.cpu.txTog s.cpu.txLenQ s.rdata i.txTready).txRun = s.tx.starts
  by_cases hgo : s.tx.txGoS2 = s.tx.txDoneTog <;> simp [Tx.clk, Tx.starts, hr, hgo]

theorem not_pending_settled (hp : s.pending = false) : s.settled = s.mem := by
  rw [Dma.settled, hp]
  rfl

/-- A taken beat counts. -/
theorem Counters.take {cur : List (BitVec 8)} (h : Counters p s.rx cur) (hv : i.rxTvalid = true)
    (ht : s.rx.taking s.tx.txRun = true) (hl : i.rxTlast = false) :
    Counters p (s.step p (.eth i)).rx (cur ++ [i.rxTdata]) := by
  have hwin := p.windowWords_lt
  have h3 := h.byte_eq_three
  have hroom := h.room_iff
  rw [rx_mid hv ht hl]
  constructor
  · simp only [List.length_append, List.length_singleton]
    split_ifs with hb
    · have hmod := h3.mp hb
      apply BitVec.eq_of_toNat_eq
      rw [BitVec.toNat_ofNat]
      change 0 = _
      omega
    · rw [h.rxByte, BitVec.ofNat_add]
      rfl
  · simp only [List.length_append, List.length_singleton]
    split_ifs with hb
    · have hmod := h3.mp hb.1
      have hlt := hroom.mp hb.2
      rw [h.rxWord, Nat.min_eq_left hlt.le, show min ((cur.length + 1) / 4) p.windowWords =
        cur.length / 4 + 1 by omega, BitVec.ofNat_add]
      rfl
    · have hsame : min ((cur.length + 1) / 4) p.windowWords =
          min (cur.length / 4) p.windowWords := by
        by_cases hmod : cur.length % 4 = 3
        · have hfull : ¬ cur.length / 4 < p.windowWords := fun hlt =>
            hb ⟨h3.mpr hmod, hroom.mpr hlt⟩
          omega
        · omega
      rw [h.rxWord, hsame]
  · rw [h.rxCount, List.length_append, BitVec.ofNat_add]
    rfl
  · intro j hj hlt
    simp only [List.length_append, List.length_singleton] at hlt ⊢
    rw [hold_byte s.rx i.rxTdata hj]
    by_cases hj0 : j = 0
    · subst hj0
      rw [if_pos rfl, Nat.add_sub_cancel, Nat.sub_zero, List.getElem?_concat_length]
    · have hget := h.hold (j - 1) (by omega) (by omega)
      rw [if_neg hj0, List.getElem?_append_left (by omega),
        show cur.length + 1 - 1 - j = cur.length - 1 - (j - 1) by omega, hget]
  · simp only [List.length_append, List.length_singleton]
    intro hlt
    split_ifs with hb
    · rfl
    · refine h.trunc ?_
      by_contra hge
      have hmod : cur.length % 4 = 3 := by omega
      refine hb ⟨h3.mpr hmod, ?_⟩
      have hno : ¬ s.rx.room p = true := fun hr => by
        have := hroom.mp hr
        omega
      simpa using hno

/-- The frame in progress on an edge. -/
theorem Mid.eth (hring : RxRing s) (h : s.rx.rxPoison = false → Mid p s g)
    (hclear : i.rxTvalid = true → g.startled = true → s.tx.txRun = true)
    (hpoison : (s.step p (.eth i)).rx.rxPoison = false) :
    Mid p (s.step p (.eth i)) (g.next p s (.eth i)) := by
  cases hv : i.rxTvalid with
  | false =>
    have hrx := rx_rest (p := p) (s := s) hv
    have hnext : g.next p s (.eth i) = g := by simp [Seen.next, hv]
    have hm := h (by rw [hrx] at hpoison; exact hpoison)
    have hpend : (s.step p (.eth i)).pending = false := by rw [Dma.pending, hrx]; rfl
    have hhand : s.rx.handsOver s.tx.txRun i = false := by simp [Rx.handsOver, hv]
    rw [hnext]
    refine ⟨?_, fun hne => windowFree_eth hring (hm.free hne) hhand, fun hne hs => ?_,
      fun _ _ hp => absurd (hpend.symm.trans hp) Bool.false_ne_true⟩
    · rw [hrx]
      exact ⟨hm.counters.rxByte, hm.counters.rxWord, hm.counters.rxCount, hm.counters.hold,
        hm.counters.trunc⟩
    · rw [not_pending_settled hpend, mem_eq_settled (hm.pending hne hs)]
      exact hm.stored hne hs
  | true =>
    cases hl : i.rxTlast with
    | true =>
      -- the next frame begins
      have hcur : (g.next p s (.eth i)).cur = [] := by simp [Seen.next, hv, hl]
      cases ht : s.rx.taking s.tx.txRun with
      | false =>
        have hrx := rx_skip (p := p) hv ht
        exact Mid.start hcur (by rw [hrx, hl]; rfl) (by rw [hrx, hl]; rfl) (by rw [hrx, hl]; rfl)
      | true =>
        have hrx := rx_end (p := p) hv ht hl
        exact Mid.start hcur (by rw [hrx]) (by rw [hrx]) (by rw [hrx])
    | false =>
      cases ht : s.rx.taking s.tx.txRun with
      | false =>
        rw [rx_skip hv ht, hl] at hpoison
        cases hpoison
      | true =>
        obtain ⟨hfree, hrun⟩ : s.rx.windowFree = true ∧ s.tx.txRun = false := by
          simpa [Rx.taking] using ht
        have hrx := rx_mid (p := p) hv ht hl
        have hclean : s.rx.rxPoison = false := by rw [hrx] at hpoison; exact hpoison
        have hm := h hclean
        have hhand : s.rx.handsOver s.tx.txRun i = false := by simp [Rx.handsOver, hl]
        have hstart : g.startled = false := by
          by_contra hs
          have := hclear hv (by simpa using hs)
          rw [hrun] at this
          cases this
        have hnext : g.next p s (.eth i) =
            { g with cur := g.cur ++ [i.rxTdata], startled := s.startles p } := by
          simp [Seen.next, hv, hl]
        have hmem : (s.step p (.eth i)).mem = s.settled := by
          rw [mem_eth, hrun]
          rfl
        rw [hnext]
        refine ⟨hm.counters.take hv ht hl, fun _ => windowFree_eth hring hfree hhand,
          fun _ hs => ?_, fun _ hs hp => ?_⟩
        · -- the word of this beat, if it is one
          have hbefore := hm.words hstart
          by_cases hc : s.rx.rxByte = 3 ∧ s.rx.room p = true
          · have hpend : (s.step p (.eth i)).settled = Function.update s.settled
                (ab (p.rxWordBase + s.rx.rxWord.setWidth 14)) (s.rx.word i.rxTdata) := by
              rw [Dma.settled, Dma.pending, hmem, hrx]
              simp [hc.1, hc.2]
            rw [hpend]
            refine (hm.counters.commit hc.2 hbefore i.rxTdata).mono ?_
            rw [List.length_append, List.length_singleton]
            omega
          · have hpend : (s.step p (.eth i)).pending = false := by
              rw [Dma.pending, hrx]
              simpa using hc
            rw [not_pending_settled hpend, hmem]
            intro k hk hk4
            refine hbefore.concat i.rxTdata k ?_ hk4
            rw [List.length_append, List.length_singleton] at hk
            by_cases hmod : g.cur.length % 4 = 3
            · have hfull : ¬ g.cur.length / 4 < p.windowWords := fun hlt =>
                hc ⟨hm.counters.byte_eq_three.mpr hmod, hm.counters.room_iff.mpr hlt⟩
              omega
            · omega
        · rw [txRun_eth hrun]
          rw [Dma.pending, hrx] at hp
          simp only [Bool.and_self, Bool.and_eq_true] at hp
          simpa only [Dma.startles, ht, hclean, hp.1, hp.2, Bool.not_false, Bool.true_and] using hs

/-- A frame is handed over. -/
theorem Mid.handOver (hring : RxRing s) (h : Mid p s g)
    (hh : s.rx.handsOver s.tx.txRun i = true) (hclear : Clear p s g (.eth i)) :
    Held p (s.step p (.eth i)) (g.next p s (.eth i)) ⟨g.cur ++ [i.rxTdata], !i.rxTuser⟩ := by
  obtain ⟨hv, hl, ht, hu, hclean⟩ := taking_of_handsOver hh
  obtain ⟨hfree, hrun⟩ : s.rx.windowFree = true ∧ s.tx.txRun = false := by
    simpa [Rx.taking] using ht
  obtain ⟨hlast, hbeat, -⟩ := hclear
  have hrx := rx_end (p := p) hv ht hl
  have hc := h.counters
  have hstart : g.startled = false := by
    by_contra hs
    have := hbeat hv (by simpa using hs)
    rw [hrun] at this
    cases this
  have hbefore := h.words hstart
  have hmem : (s.step p (.eth i)).mem = s.settled := by
    rw [mem_eth, hrun]
    rfl
  have hlen : (g.cur ++ [i.rxTdata]).length = g.cur.length + 1 := by simp
  obtain ⟨-, hs2, hack, -⟩ := hring.settled (by simpa [Rx.windowFree] using hfree)
  refine ⟨by simp [Seen.next, hv, hl, hh], by rw [hu]; rfl, ?_, ?_, ?_, fun hp => ⟨?_, ?_⟩⟩
  · rw [hlen]
    by_cases hroom : s.rx.room p = true
    · have hpend : (s.step p (.eth i)).settled = Function.update s.settled
          (ab (p.rxWordBase + s.rx.rxWord.setWidth 14)) (s.rx.word i.rxTdata) := by
        rw [Dma.settled, Dma.pending, hmem, hrx]
        simp [hroom]
      rw [hpend]
      exact hc.commit hroom hbefore i.rxTdata
    · have hroom : s.rx.room p = false := by simpa using hroom
      have hpend : (s.step p (.eth i)).pending = false := by rw [Dma.pending, hrx, hroom]; rfl
      rw [not_pending_settled hpend, hmem]
      intro k hk hk4
      have hfull : ¬ g.cur.length / 4 < p.windowWords := fun hlt => by
        have := hc.room_iff.mpr hlt
        rw [hroom] at this
        cases this
      exact hbefore.concat i.rxTdata k (by omega) hk4
  · rw [hlen]
    intro hfit
    have hroom := hc.room_iff.mpr (show g.cur.length / 4 < p.windowWords by omega)
    obtain ⟨-, hshort, -⟩ := hlast hh hroom
    rw [hc.word_toNat, hc.byte_toNat] at hshort
    have hwin := hc.room_iff.mp hroom
    rw [hrx]
    simp only [hh, if_true, hc.rxCount]
    rw [BitVec.toNat_add, BitVec.toNat_ofNat]
    change (g.cur.length % 2048 + 1) % 2048 = _
    omega
  · rw [hlen, hrx]
    simp only [hh, Bool.true_and]
    by_cases hroom : s.rx.room p = true
    · have hwin := hc.room_iff.mp hroom
      rw [hroom, (hlast hh hroom).2.2]
      exact iff_of_false (by decide) (by omega)
    · have hwin : ¬ g.cur.length / 4 < p.windowWords := fun hlt => hroom (hc.room_iff.mpr hlt)
      have hroom : s.rx.room p = false := by simpa using hroom
      rw [hroom]
      exact iff_of_true rfl (by omega)
  · rw [Dma.pending, hrx] at hp
    rw [txRun_eth hrun]
    exact (hlast hh (by simpa using hp)).1
  · exact hs2.trans hack.symm

/-- While the CPU has the window no beat is taken. -/
theorem not_taking (hring : RxRing s) (hheld : s.rx.rxTog ≠ s.cpu.rxAckTogQ) :
    s.rx.taking s.tx.txRun = false := by
  obtain ⟨-, hack⟩ := hring.unanswered hheld
  have hfree : s.rx.windowFree = false := by
    rw [Rx.windowFree, hack]
    simpa using hheld
  rw [Rx.taking, hfree, Bool.false_and]

theorem last_eth (g : Seen) (hh : s.rx.handsOver s.tx.txRun i = false) :
    (g.next p s (.eth i)).last = g.last := by
  simp only [Seen.next, hh, Bool.false_eq_true, if_false]
  split_ifs <;> rfl

/-- A frame that was handed over, on an edge. -/
theorem Held.eth {f : Frame} (hring : RxRing s) (hheld : s.rx.rxTog ≠ s.cpu.rxAckTogQ)
    (h : Held p s g f) (hclear : Clear p s g (.eth i)) :
    Held p (s.step p (.eth i)) (g.next p s (.eth i)) f := by
  have ht := not_taking hring hheld
  have hhand : s.rx.handsOver s.tx.txRun i = false := by
    by_contra hh
    have := (taking_of_handsOver (by simpa using hh)).2.2.1
    rw [ht] at this
    cases this
  have hlast := last_eth (p := p) g hhand
  have hmem := mem_eq_settled (p := p) (s := s) (i := i) fun hp => (h.pending hp).1
  have hrx : (s.step p (.eth i)).pending = false ∧ (s.step p (.eth i)).rx.rxLenQ = s.rx.rxLenQ ∧
      (s.step p (.eth i)).rx.rxTruncQ = s.rx.rxTruncQ := by
    cases hv : i.rxTvalid with
    | false =>
      rw [Dma.pending, rx_rest hv]
      exact ⟨rfl, rfl, rfl⟩
    | true =>
      rw [Dma.pending, rx_skip hv ht]
      refine ⟨rfl, rfl, ?_⟩
      cases hl : i.rxTlast with
      | false => rfl
      | true => exact (hclear.2.2 hv hl hheld).symm
  obtain ⟨hpend, hlen, htrunc⟩ := hrx
  refine ⟨hlast.trans h.last, h.good, ?_, by rw [hlen]; exact h.length, by rw [htrunc]; exact h.trunc,
    fun hp => absurd (hpend.symm.trans hp) Bool.false_ne_true⟩
  rw [not_pending_settled hpend, hmem]
  exact h.stored

theorem Inv.eth (h : Inv p s g) (hclear : Clear p s g (.eth i)) :
    Inv p (s.step p (.eth i)) (g.next p s (.eth i)) := by
  refine ⟨h.ring.eth i, Mid.eth h.ring h.mid hclear.2.1, fun hheld => ?_⟩
  cases hh : s.rx.handsOver s.tx.txRun i with
  | true =>
    have hclean := (taking_of_handsOver hh).2.2.2.2
    exact ⟨_, (h.mid hclean).handOver h.ring hh hclear⟩
  | false =>
    have hheld : s.rx.rxTog ≠ s.cpu.rxAckTogQ := by
      rw [rxTog_eth, hh, Bool.xor_false] at hheld
      exact hheld
    obtain ⟨f, hf⟩ := h.held hheld
    exact ⟨f, hf.eth h.ring hheld hclear⟩

/-- An edge of `cpu_clk`. -/
theorem Inv.cpu (h : Inv p s g) {i : CpuIn} (hclear : Clear p s g (.cpu i)) :
    Inv p (s.step p (.cpu i)) (g.next p s (.cpu i)) := by
  refine ⟨h.ring.cpu i, fun hclean => ?_, fun hheld => ?_⟩
  · obtain ⟨hc, hfree, hs, hp⟩ := h.mid hclean
    exact ⟨hc, hfree, hs, hp⟩
  · -- the CPU answers only what it has seen, which is then the toggle
    have hack : (s.step p (.cpu i)).cpu.rxAckTogQ = s.cpu.rxAckTogQ := by
      simp only [Dma.step, Dma.cpuClk, Cpu.clk, Bool.false_eq_true, if_false] at hheld ⊢
      by_cases hv : (i.rxAck && s.cpu.rxValid) = true
      · have hvalid : s.cpu.rxTogS2 ≠ s.cpu.rxAckTogQ := by
          simpa [Cpu.rxValid] using (Bool.and_eq_true_iff.mp hv).2
        obtain ⟨-, -, hnot, -⟩ := h.ring.arrived hvalid
        rw [if_pos hv, hnot, Bool.not_not] at hheld
        exact absurd rfl hheld
      · rw [if_neg hv]
    rw [hack] at hheld
    obtain ⟨f, hf⟩ := h.held hheld
    refine ⟨f, hf.last, hf.good, hf.stored, hf.length, hf.trunc, fun hp => ⟨(hf.pending hp).1, ?_⟩⟩
    rw [hack]
    exact hclear (Bool.and_eq_true_iff.mp hp).2

/-! ### A run -/

theorem Inv.reset {s : Dma} (h : Dma.Reset s) : Inv p s ⟨[], none, false⟩ := by
  obtain ⟨hs1, hs2⟩ := h.rxAck
  refine ⟨?_, fun _ => Mid.start rfl h.rxByte h.rxWord h.rxCount, fun hheld => ?_⟩
  · rw [RxRing, h.cpu, h.rxTog, hs1, hs2]
    decide
  · rw [h.cpu, h.rxTog] at hheld
    exact absurd rfl hheld

/-- What `rx_valid` shows. -/
theorem Inv.shown (h : Inv p s g) : Delivered p s g := by
  intro hv
  have hvalid : s.cpu.rxTogS2 ≠ s.cpu.rxAckTogQ := by simpa [Cpu.rxValid] using hv
  obtain ⟨-, hs2, -⟩ := h.ring.arrived hvalid
  have hheld : s.rx.rxTog ≠ s.cpu.rxAckTogQ := by rwa [← hs2]
  obtain ⟨f, hf⟩ := h.held hheld
  have hpend : s.pending = false := by
    by_contra hp
    exact hvalid (hf.pending (by simpa using hp)).2
  have hstored := hf.stored
  rw [not_pending_settled hpend] at hstored
  refine ⟨f, hf.last, hf.good, hstored, hf.length, hf.trunc, fun e => ?_⟩
  cases e with
  | cpu i => rfl
  | eth i =>
    refine last_eth g ?_
    by_contra hh
    have ht := (taking_of_handsOver (by simpa using hh)).2.2.1
    rw [not_taking h.ring hheld] at ht
    cases ht

/-- The events of a run are all clear. -/
def ClearRun (p : Params) : Dma → Seen → List Event → Prop
  | _, _, [] => True
  | s, g, e :: es => Clear p s g e ∧ ClearRun p (s.step p e) (g.next p s e) es

instance decidableClear (p : Params) (s : Dma) (g : Seen) : ∀ e, Decidable (Clear p s g e)
  | .eth _ => inferInstanceAs (Decidable (_ ∧ _ ∧ _))
  | .cpu _ => inferInstanceAs (Decidable (_ → _))

instance decidableClearRun (p : Params) : ∀ s g es, Decidable (ClearRun p s g es)
  | _, _, [] => isTrue trivial
  | s, g, e :: es =>
    have := decidableClearRun p (s.step p e) (g.next p s e) es
    inferInstanceAs (Decidable (_ ∧ _))

theorem Inv.run {es : List Event} : ∀ {s : Dma} {g : Seen}, Inv p s g → ClearRun p s g es →
    Inv p (s.run p es) (g.watch p s es) := by
  induction es with
  | nil => exact fun h _ => h
  | cons e es ih =>
    intro s g h hc
    cases e with
    | eth i => exact ih (h.eth hc.1) hc.2
    | cpu i => exact ih (h.cpu hc.1) hc.2

/-- **eth_stream_dma delivers received frames intact** in a run whose events are clear. -/
theorem delivered {s₀ : Dma} (h0 : Dma.Reset s₀) {es : List Event}
    (hclear : ClearRun p s₀ ⟨[], none, false⟩ es) :
    Delivered p (s₀.run p es) (Seen.watch p s₀ ⟨[], none, false⟩ es) :=
  ((Inv.reset h0).run hclear).shown

/-! ### Frames of the board -/

/-- An edge of each clock on which nothing is asked for. -/
def idleEth : Event := .eth ⟨0, false, false, false, true⟩

def idleCpu : Event := .cpu ⟨false, 0, false⟩

/-- A beat; `last` ends a good frame. -/
def beat (b : BitVec 8) (last : Bool) : Event := .eth ⟨b, true, last, false, true⟩

/-- A frame of nine bytes, with a pause in it; the CPU acknowledges it, and a frame of five follows. -/
def twoFrames : List Event :=
  [beat 1 false, beat 2 false, beat 3 false, idleEth, beat 4 false, beat 5 false, beat 6 false,
    beat 7 false, beat 8 false, beat 9 true, idleEth, idleCpu, idleCpu, .cpu ⟨true, 0, false⟩,
    idleEth, idleEth, beat 0xA1 false, beat 0xA2 false, beat 0xA3 false, beat 0xA4 false,
    beat 0xA5 true, idleEth, idleCpu, idleCpu]

theorem delivered_five :
    (afterReset.run defaults twoFrames).cpu.rxValid = true ∧
      (Seen.watch defaults afterReset ⟨[], none, false⟩ twoFrames).last =
        some ⟨[0xA1, 0xA2, 0xA3, 0xA4, 0xA5], true⟩ ∧
      Delivered defaults (afterReset.run defaults twoFrames)
        (Seen.watch defaults afterReset ⟨[], none, false⟩ twoFrames) :=
  ⟨by decide +kernel, by decide +kernel, delivered reset_afterReset (by decide +kernel)⟩

/-- The frame of one byte ends as a transmission starts. -/
def lostWord : List Event :=
  [.cpu ⟨false, 1, true⟩, idleEth, idleEth, beat 0xAA true, idleEth, idleCpu, idleCpu]

/-- A frame of five bytes, more than a window of one word holds; the CPU acknowledges it, and a
frame of one byte follows. -/
def staleFlag : List Event :=
  [beat 1 false, beat 2 false, beat 3 false, beat 4 false, beat 5 true, idleEth, idleCpu, idleCpu,
    .cpu ⟨true, 0, false⟩, idleEth, idleEth, beat 6 true, idleEth, idleCpu, idleCpu]

/-- The first frame is shown without its byte, the second with the flag of the one before. -/
theorem not_delivered :
    ¬ Delivered defaults (afterReset.run defaults lostWord)
        (Seen.watch defaults afterReset ⟨[], none, false⟩ lostWord) ∧
      ¬ Delivered { defaults with windowWords := 1, windowWords_lt := by decide }
        (afterReset.run { defaults with windowWords := 1, windowWords_lt := by decide } staleFlag)
        (Seen.watch { defaults with windowWords := 1, windowWords_lt := by decide } afterReset
          ⟨[], none, false⟩ staleFlag) := by
  refine ⟨fun h => ?_, fun h => ?_⟩
  · obtain ⟨f, hlast, -, hbytes, -⟩ := h (by decide)
    obtain rfl : (⟨[0xAA], true⟩ : Frame) = f := by
      have hf : (Seen.watch defaults afterReset ⟨[], none, false⟩ lostWord).last =
          some ⟨[0xAA], true⟩ := by decide
      exact Option.some.inj (hf.symm.trans hlast)
    have hbyte := hbytes 0 (by decide) (by decide)
    revert hbyte
    decide
  · obtain ⟨f, hlast, -, -, -, htrunc, -⟩ := h (by decide)
    obtain rfl : (⟨[6], true⟩ : Frame) = f := by
      have hf : (Seen.watch { defaults with windowWords := 1, windowWords_lt := by decide }
          afterReset ⟨[], none, false⟩ staleFlag).last = some ⟨[6], true⟩ := by decide
      exact Option.some.inj (hf.symm.trans hlast)
    revert htrunc
    decide

end EthDma
end Xc7Tools
