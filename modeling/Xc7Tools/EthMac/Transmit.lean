/-
# eth_mac_1g: what is transmitted

A source has a queue of frames and offers them on the AXI stream: between two
frames it may wait as long as it likes, inside a frame it offers the next byte
on every edge (`Source.Shows`). The MAC then shows a frame on the GMII byte by
byte: `Stage m` is the MAC with `m` bytes of `encode` out, `Between` the MAC
with no frame in it, and `Stage.step`, `Between.begins` and `Between.waits`
are its edges. So in every run the bursts of the GMII are the frames of the
queue, in order, each with its preamble, padding and check
(`frames_transmitted`), and a frame that the MAC begins is out after as many
edges as it has bytes on the GMII (`transmitted_at_once`).

`ifg_reg` is cleared by a frame that failed only. So the first gap is as long
as the register's value at power-up leaves it, and the gap after every other
frame is one edge (`gap_of_one`).

Key definitions: `Source`, `Source.Shows`, `Stage`, `Between`, `Transmitted`.
Key theorems: `Stage.step`, `frames_transmitted`, `transmitted_at_once`, `gap_of_one`.
-/
import Mathlib.Data.List.GetD
import Mathlib.Tactic.IntervalCases
import Xc7Tools.EthMac.Frame
import Xc7Tools.Lib.Bursts
import Xc7Tools.Lib.Run

namespace Xc7Tools
namespace EthMac

/-! ### A source of frames -/

/-- The frames a source has still to send, the first one without the bytes that are taken, and
whether it has begun to offer that one. -/
structure Source where
  queue : List (List (BitVec 8))
  begun : Bool
  deriving DecidableEq

namespace Source

/-- What the source may show: nothing, between two frames, or the next byte. -/
def Shows (q : Source) (a : Axis) : Prop :=
  match q.queue with
  | (b :: bs) :: _ =>
    (a.tvalid = false ∧ q.begun = false) ∨ a = ⟨b, true, bs.isEmpty, false⟩
  | _ => a.tvalid = false ∧ q.begun = false

instance (q : Source) (a : Axis) : Decidable (q.Shows a) := by
  unfold Shows
  split <;> infer_instance

/-- The queue without its first byte. -/
def taken : List (List (BitVec 8)) → List (List (BitVec 8))
  | (_ :: b :: bs) :: rest => (b :: bs) :: rest
  | _ :: rest => rest
  | [] => []

/-- An edge. -/
def next (q : Source) (tready : Bool) (a : Axis) : Source :=
  if a.tvalid then if tready then ⟨taken q.queue, !a.tlast⟩ else ⟨q.queue, true⟩ else q

theorem Shows.byte {q : Source} {a : Axis} (h : q.Shows a) {b : BitVec 8} {bs : List (BitVec 8)}
    {rest : List (List (BitVec 8))} (hq : q = ⟨(b :: bs) :: rest, true⟩) :
    a = ⟨b, true, bs.isEmpty, false⟩ := by
  subst hq
  exact (or_iff_right fun h => Bool.noConfusion h.2).mp h

theorem queue_next {q : Source} (a : Axis) : (q.next false a).queue = q.queue := by
  unfold next
  split <;> rfl

end Source

/-- The MAC with its source. -/
abbrev Fed := Tx × Source

/-- An edge of the MAC and its source. -/
def fedStep (cfg : Tx.Config) (x : Fed) (a : Axis) : Fed :=
  (x.1.step cfg a, x.2.next x.1.sAxisTready a)

/-- What the registers of the GMII show. -/
def Tx.gmii (s : Tx) : Option (BitVec 8) := if s.gmiiTxEn then some s.gmiiTxd else none

/-- The bursts of the GMII. -/
def watchGmii (cfg : Tx.Config) (x : Fed) (a : Axis) (b : Bursts (BitVec 8)) : Bursts (BitVec 8) :=
  b.next (x.1.step cfg a).gmii

variable {cfg : Tx.Config} {s : Tx} {q : Source} {a : Axis} {f : List (BitVec 8)}
  {rest : List (List (BitVec 8))}

/-! ### The MAC in a frame -/

/-- No frame is in the MAC. -/
structure Between (s : Tx) : Prop where
  state : s.state = .idle ∨ s.state = .ifg
  tready : s.sAxisTready = false
  noError : s.gmiiTxEr = false

/-- The state for byte `j` of a frame of `n`. -/
def dataState (n j : ℕ) : Tx.State :=
  if j + 1 < n then .payload else if j + 1 = n then .last else .pad

/-- What the queue is when byte `j` is in `s_tdata`. -/
def Ahead (f : List (BitVec 8)) (rest : List (List (BitVec 8))) (j : ℕ) (q : Source) : Prop :=
  if j + 1 < f.length then q = ⟨f.drop (j + 1) :: rest, true⟩ else q.queue = rest

/-- `m` bytes of a frame are out. -/
inductive Stage (cfg : Tx.Config) (f : List (BitVec 8)) (rest : List (List (BitVec 8))) :
    ℕ → Tx → Source → Prop
  | preamble {s : Tx} {q : Source} (m : ℕ) (one_le : 1 ≤ m) (le : m ≤ 7)
      (state : s.state = .preamble) (ptr : s.framePtr = BitVec.ofNat 16 m)
      (tready : s.sAxisTready = decide (m = 7)) (crc : s.crcState = crcInit)
      (source : q = ⟨f :: rest, true⟩) : Stage cfg f rest m s q
  | data {s : Tx} {q : Source} (j : ℕ) (lt : j < (padded cfg f).length)
      (state : s.state = dataState f.length j) (ptr : s.framePtr = BitVec.ofNat 16 j)
      (tready : s.sAxisTready = decide (j + 1 < f.length))
      (byte : s.sTdata = (padded cfg f).getD j 0)
      (crc : s.crcState = crcBytes crcInit ((padded cfg f).take j))
      (source : Ahead f rest j q) : Stage cfg f rest (8 + j) s q
  | fcs {s : Tx} {q : Source} (k : ℕ) (lt : k < 4) (state : s.state = .fcs)
      (ptr : s.framePtr = BitVec.ofNat 16 k) (tready : s.sAxisTready = false)
      (crc : s.crcState = crcBytes crcInit (padded cfg f)) (source : q.queue = rest) :
      Stage cfg f rest (8 + (padded cfg f).length + k) s q

/-- The byte that comes next on the GMII. -/
def Out (cfg : Tx.Config) (f : List (BitVec 8)) (m : ℕ) (s : Tx) : Prop :=
  s.gmii = some ((encode cfg f).getD m 0) ∧ s.gmiiTxEr = false

/-- After the byte `m` of a frame. -/
def After (cfg : Tx.Config) (f : List (BitVec 8)) (rest : List (List (BitVec 8))) (m : ℕ) (s : Tx)
    (q : Source) : Prop :=
  if m + 1 < (encode cfg f).length then Stage cfg f rest (m + 1) s q
  else Between s ∧ s.state = .ifg ∧ q.queue = rest

/-! ### The bytes of `encode` -/

theorem encode_header {m : ℕ} (h : m < 8) : (encode cfg f).getD m 0 = header.getD m 0 := by
  rw [encode, List.append_assoc, List.getD_append _ _ _ _ (by simpa using h)]

theorem encode_data {j : ℕ} (h : j < (padded cfg f).length) :
    (encode cfg f).getD (8 + j) 0 = (padded cfg f).getD j 0 := by
  rw [encode, List.getD_append _ _ _ _ (by simp [h]), List.getD_append_right _ _ _ _ (by simp)]
  simp

theorem encode_fcs {k : ℕ} (h : k < 4) : (encode cfg f).getD (8 + (padded cfg f).length + k) 0 =
    Tx.fcsByte (crcBytes crcInit (padded cfg f)) k := by
  rw [encode, List.getD_append_right _ _ _ _ (by simp)]
  simp [checkOf, fcsBytes, h]

theorem header_pre {m : ℕ} (h : m < 7) : header.getD m 0 = ethPre := by
  interval_cases m <;> rfl

/-! ### The edges of a frame -/

theorem dataState_payload {n j : ℕ} (h : j + 1 < n) : dataState n j = .payload := by
  simp [dataState, h]

theorem dataState_last {n j : ℕ} (h : j + 1 = n) : dataState n j = .last := by
  simp [dataState, h]

theorem dataState_pad {n j : ℕ} (h : n < j + 1) : dataState n j = .pad := by
  rw [dataState, if_neg (by omega), if_neg (by omega)]

theorem ofNat_succ (j : ℕ) : BitVec.ofNat 16 j + 1 = BitVec.ofNat 16 (j + 1) := by
  rw [BitVec.ofNat_add]
  rfl

variable (cfg) in
/-- Seven bytes of preamble. -/
theorem step_preamble {m : ℕ} (one_le : 1 ≤ m) (le : m ≤ 6) (state : s.state = .preamble)
    (ptr : s.framePtr = BitVec.ofNat 16 m) :
    ((s.step cfg a).state = .preamble ∧ (s.step cfg a).framePtr = BitVec.ofNat 16 (m + 1) ∧
      (s.step cfg a).sAxisTready = decide (m + 1 = 7) ∧ (s.step cfg a).crcState = crcInit) ∧
      (s.step cfg a).gmii = some ethPre ∧ (s.step cfg a).gmiiTxEr = false := by
  interval_cases m <;>
    simp [Tx.step, Tx.clk, Tx.comb, Tx.byState, Tx.preamble, state, ptr, Tx.Comb.default, Tx.gmii]

variable (cfg) in
/-- The delimiter; the first byte of the frame is taken. -/
theorem step_sfd (state : s.state = .preamble) (ptr : s.framePtr = BitVec.ofNat 16 7)
    (tready : s.sAxisTready = true) :
    ((s.step cfg a).state = .payload ∧ (s.step cfg a).framePtr = BitVec.ofNat 16 0 ∧
      (s.step cfg a).sAxisTready = true ∧ (s.step cfg a).sTdata = a.tdata ∧
      (s.step cfg a).crcState = crcInit) ∧
      (s.step cfg a).gmii = some ethSfd ∧ (s.step cfg a).gmiiTxEr = false := by
  simp [Tx.step, Tx.clk, Tx.comb, Tx.byState, Tx.preamble, state, ptr, tready, Tx.Comb.default,
    Tx.gmii]

variable (cfg) in
/-- A byte of the frame; the next one is taken. -/
theorem step_payload {j : ℕ} {b : BitVec 8} {l : Bool} (state : s.state = .payload)
    (ptr : s.framePtr = BitVec.ofNat 16 j) (tready : s.sAxisTready = true)
    (ha : a = ⟨b, true, l, false⟩) :
    ((s.step cfg a).state = (if l then .last else .payload) ∧
      (s.step cfg a).framePtr = BitVec.ofNat 16 (j + 1) ∧
      (s.step cfg a).sAxisTready = !l ∧ (s.step cfg a).sTdata = b ∧
      (s.step cfg a).crcState = crcNext s.sTdata s.crcState) ∧
      (s.step cfg a).gmii = some s.sTdata ∧ (s.step cfg a).gmiiTxEr = false := by
  subst ha
  rw [← ofNat_succ, ← ptr]
  cases l <;>
    simp [Tx.step, Tx.clk, Tx.comb, Tx.byState, Tx.payload, state, tready, Tx.Comb.default, Tx.gmii]

/-- The last byte of the frame, or a zero behind it. -/
theorem step_tail {j : ℕ} (state : s.state = .last ∨ s.state = .pad ∧ s.sTdata = 0)
    (ptr : s.framePtr = BitVec.ofNat 16 j) {more : Bool}
    (hmore : more = (s.short cfg && (cfg.enablePadding || s.state = .pad))) :
    ((s.step cfg a).state = (if more then .pad else .fcs) ∧
      (s.step cfg a).framePtr = (if more then BitVec.ofNat 16 (j + 1) else 0) ∧
      (s.step cfg a).sAxisTready = false ∧ (more = true → (s.step cfg a).sTdata = 0) ∧
      (s.step cfg a).crcState = crcNext s.sTdata s.crcState) ∧
      (s.step cfg a).gmii = some s.sTdata ∧ (s.step cfg a).gmiiTxEr = false := by
  rw [← ofNat_succ, ← ptr]
  subst hmore
  rcases state with state | ⟨state, hzero⟩
  · cases hs : s.short cfg <;> cases he : cfg.enablePadding <;>
      simp [Tx.step, Tx.clk, Tx.comb, Tx.byState, Tx.last, state, hs, he, Tx.Comb.default, Tx.gmii]
  · cases hs : s.short cfg <;>
      simp [Tx.step, Tx.clk, Tx.comb, Tx.byState, Tx.pad, state, hs, hzero, Tx.Comb.default, Tx.gmii]

variable (cfg) in
/-- A byte of the check. -/
theorem step_fcs {k : ℕ} (lt : k < 4) (state : s.state = .fcs)
    (ptr : s.framePtr = BitVec.ofNat 16 k) :
    ((s.step cfg a).state = (if k < 3 then .fcs else .ifg) ∧
      (k < 3 → (s.step cfg a).framePtr = BitVec.ofNat 16 (k + 1)) ∧
      (s.step cfg a).sAxisTready = false ∧ (s.step cfg a).crcState = s.crcState) ∧
      (s.step cfg a).gmii = some (Tx.fcsByte s.crcState k) ∧ (s.step cfg a).gmiiTxEr = false := by
  interval_cases k <;>
    simp [Tx.step, Tx.clk, Tx.comb, Tx.byState, Tx.sendFcs, state, ptr, Tx.Comb.default, Tx.gmii]

/-! ### One edge of a frame -/

theorem short_eq {j : ℕ} (ptr : s.framePtr = BitVec.ofNat 16 j) :
    s.short cfg = decide (j % 65536 < (cfg.minFrameLength - 5).toNat) := by
  have hptr : (s.framePtr.setWidth 32).toNat = j % 65536 := by
    rw [ptr, BitVec.toNat_setWidth, BitVec.toNat_ofNat]
    omega
  simp only [Tx.short, BitVec.lt_def, hptr]

/-- The padding ends where `frame_ptr` says. -/
theorem more_iff (hmin : (cfg.minFrameLength - 5).toNat < 65536) (hf : f ≠ []) {j : ℕ}
    (hj : f.length ≤ j + 1) (hlt : j < (padded cfg f).length) :
    (j % 65536 < (cfg.minFrameLength - 5).toNat ∧ (cfg.enablePadding = true ∨ f.length < j + 1)) ↔
      j + 1 < (padded cfg f).length := by
  have hpos : 0 < f.length := List.length_pos_of_ne_nil hf
  rw [length_padded] at hlt ⊢
  unfold padding at hlt ⊢
  cases he : cfg.enablePadding
  · simp only [he, Bool.false_eq_true, if_false, false_or] at hlt ⊢
    omega
  · simp only [he, if_true, true_or, and_true] at hlt ⊢
    omega

theorem getD_padded_of_ge {j : ℕ} (h : f.length ≤ j) (hlt : j < (padded cfg f).length) :
    (padded cfg f).getD j 0 = 0 := by
  rw [length_padded] at hlt
  rw [padded, List.getD_append_right _ _ _ _ h, List.getD_eq_getElem _ _ (by simp; omega),
    List.getElem_replicate]

theorem getD_padded_of_lt {j : ℕ} (h : j < f.length) : (padded cfg f).getD j 0 = f.getD j 0 := by
  rw [padded, List.getD_append _ _ _ _ h]

theorem crc_take_succ {bs : List (BitVec 8)} {j : ℕ} (h : j < bs.length) :
    crcNext (bs.getD j 0) (crcBytes crcInit (bs.take j)) = crcBytes crcInit (bs.take (j + 1)) := by
  rw [List.take_succ_eq_append_getElem h, crcBytes_concat, List.getD_eq_getElem _ _ h]

/-- **A byte of the preamble.** -/
theorem Stage.preamble_after {m : ℕ} (hf : 2 ≤ f.length) (one_le : 1 ≤ m) (le : m ≤ 7)
    (state : s.state = .preamble) (ptr : s.framePtr = BitVec.ofNat 16 m)
    (tready : s.sAxisTready = decide (m = 7)) (source : q = ⟨f :: rest, true⟩) (ha : q.Shows a) :
    Out cfg f m (s.step cfg a) ∧ After cfg f rest m (s.step cfg a) (q.next s.sAxisTready a) := by
  obtain ⟨b, b', bs, rfl⟩ : ∃ b b' bs, f = b :: b' :: bs := by
    match f, hf with
    | b :: b' :: bs, _ => exact ⟨b, b', bs, rfl⟩
  have hbyte := ha.byte source
  have hlen : m + 1 < (encode cfg (b :: b' :: bs)).length := by
    rw [length_encode]
    omega
  rw [After, if_pos hlen]
  by_cases h7 : m = 7
  case pos =>
    subst h7
    obtain ⟨⟨hstate, hptr, htready, htdata, hcrc⟩, hgmii, her⟩ :=
      step_sfd cfg (a := a) state ptr tready
    refine ⟨⟨?_, her⟩, .data 0 ?_ ?_ hptr ?_ ?_ hcrc ?_⟩
    · rw [hgmii, encode_header (by decide)]
      rfl
    · rw [length_padded]
      simp
    · rw [hstate, dataState_payload (by simp)]
    · simpa using htready
    · rw [htdata, hbyte, getD_padded_of_lt (by simp)]
      rfl
    · rw [Ahead, if_pos (by simp), source, tready, hbyte]
      rfl
  case neg =>
    obtain ⟨⟨hstate, hptr, htready, hcrc⟩, hgmii, her⟩ :=
      step_preamble cfg (a := a) one_le (by omega) state ptr
    refine ⟨⟨?_, her⟩, .preamble (m + 1) (by omega) (by omega) hstate hptr htready hcrc ?_⟩
    · rw [hgmii, encode_header (by omega), header_pre (by omega)]
    · rw [source, tready, hbyte]
      simp [Source.next, h7]

/-- **A byte of the frame that is not the last.** -/
theorem Stage.payload_after {j : ℕ} (hj : j + 1 < f.length) (state : s.state = .payload)
    (ptr : s.framePtr = BitVec.ofNat 16 j) (tready : s.sAxisTready = true)
    (byte : s.sTdata = (padded cfg f).getD j 0)
    (crc : s.crcState = crcBytes crcInit ((padded cfg f).take j))
    (source : q = ⟨f.drop (j + 1) :: rest, true⟩) (ha : q.Shows a) :
    Out cfg f (8 + j) (s.step cfg a) ∧
      After cfg f rest (8 + j) (s.step cfg a) (q.next s.sAxisTready a) := by
  have hlt : j + 1 < (padded cfg f).length := by
    rw [length_padded]
    omega
  have hdrop : f.drop (j + 1) = f.getD (j + 1) 0 :: f.drop (j + 2) := by
    rw [List.drop_eq_getElem_cons hj, List.getD_eq_getElem _ _ hj]
  rw [hdrop] at source
  have hbyte := ha.byte source
  have hend : (f.drop (j + 2)).isEmpty = decide (j + 2 = f.length) := by
    rw [Bool.eq_iff_iff, List.isEmpty_iff, List.drop_eq_nil_iff, decide_eq_true_iff]
    omega
  obtain ⟨⟨hstate, hptr, htready, htdata, hcrc⟩, hgmii, her⟩ :=
    step_payload cfg state ptr tready hbyte
  have hlen : 8 + j + 1 < (encode cfg f).length := by
    rw [length_encode]
    omega
  refine ⟨⟨?_, her⟩, ?_⟩
  · rw [hgmii, encode_data (by omega), byte]
  rw [After, if_pos hlen]
  refine .data (j + 1) hlt ?_ hptr ?_ ?_ ?_ ?_
  · rw [hstate, hend, dataState]
    by_cases h : j + 2 = f.length
    · simp [h]
    · simp [h, show j + 1 + 1 < f.length by omega]
  · rw [htready, hend, ← decide_not]
    exact decide_eq_decide.mpr (by omega)
  · rw [htdata, getD_padded_of_lt hj]
  · rw [hcrc, byte, crc, crc_take_succ (by omega)]
  · rw [Ahead, source, tready, hbyte]
    by_cases h : j + 2 = f.length
    · have hnil : f.drop (j + 2) = [] := List.drop_eq_nil_of_le (by omega)
      rw [if_neg (by omega), hnil]
      rfl
    · obtain ⟨b, bs, hb⟩ := List.exists_cons_of_ne_nil
        (List.ne_nil_of_length_pos (l := f.drop (j + 2)) (by rw [List.length_drop]; omega))
      rw [if_pos (by omega), hb]
      rfl

/-- **The last byte of the frame, and its padding.** -/
theorem Stage.tail_after (hmin : (cfg.minFrameLength - 5).toNat < 65536) (hf : f ≠ []) {j : ℕ}
    (hj : f.length ≤ j + 1) (lt : j < (padded cfg f).length)
    (state : s.state = dataState f.length j) (ptr : s.framePtr = BitVec.ofNat 16 j)
    (tready : s.sAxisTready = false) (byte : s.sTdata = (padded cfg f).getD j 0)
    (crc : s.crcState = crcBytes crcInit ((padded cfg f).take j)) (source : q.queue = rest) :
    Out cfg f (8 + j) (s.step cfg a) ∧
      After cfg f rest (8 + j) (s.step cfg a) (q.next s.sAxisTready a) := by
  have hstate : s.state = .last ∨ s.state = .pad ∧ s.sTdata = 0 := by
    rcases hj.eq_or_lt with heq | hgt
    · exact Or.inl (state.trans (dataState_last heq.symm))
    · exact Or.inr ⟨state.trans (dataState_pad hgt), byte.trans (getD_padded_of_ge (by omega) lt)⟩
  have hpad : s.state = .pad ↔ f.length < j + 1 := by
    rcases hj.eq_or_lt with heq | hgt
    · rw [state, dataState_last heq.symm]
      simp [heq]
    · simp [state, dataState_pad hgt, hgt]
  have hmore : decide (j + 1 < (padded cfg f).length) =
      (s.short cfg && (cfg.enablePadding || s.state = .pad)) := by
    rw [short_eq ptr, Bool.eq_iff_iff, decide_eq_true_iff, ← more_iff hmin hf hj lt]
    simp [hpad]
  obtain ⟨⟨hnext, hptr, htready, hzero, hcrc⟩, hgmii, her⟩ := step_tail (a := a) hstate ptr hmore
  have hlen : 8 + j + 1 < (encode cfg f).length := by
    rw [length_encode]
    omega
  have hqueue : (q.next s.sAxisTready a).queue = rest := by
    rw [tready, Source.queue_next, source]
  have hcrc' : (s.step cfg a).crcState = crcBytes crcInit ((padded cfg f).take (j + 1)) := by
    rw [hcrc, byte, crc, crc_take_succ lt]
  refine ⟨⟨?_, her⟩, ?_⟩
  · rw [hgmii, encode_data lt, byte]
  rw [After, if_pos hlen]
  by_cases h : j + 1 < (padded cfg f).length
  case pos =>
    rw [decide_eq_true h, if_pos rfl] at hnext hptr
    refine .data (j + 1) h ?_ hptr ?_ ?_ hcrc' ?_
    · rw [hnext, dataState_pad (by omega)]
    · rw [htready, decide_eq_false (by omega)]
    · rw [hzero (decide_eq_true h), getD_padded_of_ge hj h]
    · rw [Ahead, if_neg (by omega), hqueue]
  case neg =>
    have hend : j + 1 = (padded cfg f).length := by omega
    rw [decide_eq_false h, if_neg Bool.false_ne_true] at hnext hptr
    have hfcs : Stage cfg f rest (8 + (padded cfg f).length + 0) (s.step cfg a)
        (q.next s.sAxisTready a) :=
      .fcs 0 (by decide) hnext hptr htready (by rw [hcrc', hend, List.take_length]) hqueue
    rwa [← hend] at hfcs

/-- **A byte of the check.** -/
theorem Stage.fcs_after {k : ℕ} (lt : k < 4) (state : s.state = .fcs)
    (ptr : s.framePtr = BitVec.ofNat 16 k) (tready : s.sAxisTready = false)
    (crc : s.crcState = crcBytes crcInit (padded cfg f)) (source : q.queue = rest) :
    Out cfg f (8 + (padded cfg f).length + k) (s.step cfg a) ∧
      After cfg f rest (8 + (padded cfg f).length + k) (s.step cfg a)
        (q.next s.sAxisTready a) := by
  obtain ⟨⟨hstate, hptr, htready, hcrc⟩, hgmii, her⟩ :=
    step_fcs cfg (a := a) lt state ptr
  have hqueue : (q.next s.sAxisTready a).queue = rest := by
    rw [tready, Source.queue_next, source]
  refine ⟨⟨?_, her⟩, ?_⟩
  · rw [hgmii, encode_fcs lt, crc]
  unfold After
  rw [length_encode]
  by_cases h : k < 3
  case pos =>
    rw [if_pos (by omega)]
    rw [if_pos h] at hstate
    exact .fcs (k + 1) (by omega) hstate (hptr h) htready (by rw [hcrc, crc]) hqueue
  case neg =>
    rw [if_neg (by omega)]
    rw [if_neg h] at hstate
    exact ⟨⟨Or.inr hstate, htready, her⟩, hstate, hqueue⟩

/-- **One edge of a frame.** -/
theorem Stage.after (hmin : (cfg.minFrameLength - 5).toNat < 65536) (hf : 2 ≤ f.length) {m : ℕ}
    (h : Stage cfg f rest m s q) (ha : q.Shows a) :
    Out cfg f m (s.step cfg a) ∧ After cfg f rest m (s.step cfg a) (q.next s.sAxisTready a) := by
  cases h with
  | preamble m one_le le state ptr tready crc source =>
    exact preamble_after hf one_le le state ptr tready source ha
  | data j lt state ptr tready byte crc source =>
    by_cases hj : j + 1 < f.length
    · rw [dataState_payload hj] at state
      rw [decide_eq_true hj] at tready
      rw [Ahead, if_pos hj] at source
      exact payload_after hj state ptr tready byte crc source ha
    · rw [decide_eq_false hj] at tready
      rw [Ahead, if_neg hj] at source
      exact tail_after hmin (List.ne_nil_of_length_pos (by omega)) (by omega) lt state ptr tready
        byte crc source
  | fcs k lt state ptr tready crc source => exact fcs_after lt state ptr tready crc source

theorem Stage.busy {m : ℕ} (h : Stage cfg f rest m s q) : s.state ≠ .idle ∧ s.state ≠ .waitEnd := by
  cases h with
  | preamble _ _ _ state => simp [state]
  | data j _ state =>
    rw [state, dataState]
    split_ifs <;> simp
  | fcs _ _ state => simp [state]

/-! ### Between two frames -/

variable (cfg) in
/-- A frame begins on the edge that sees it offered. -/
theorem Between.begins (h : Between s) (hidle : s.state = .idle) (hq : q.queue = f :: rest)
    (hvalid : a.tvalid = true) :
    Out cfg f 0 (s.step cfg a) ∧ Stage cfg f rest 1 (s.step cfg a) (q.next s.sAxisTready a) := by
  have hsource : q.next s.sAxisTready a = ⟨f :: rest, true⟩ := by
    rw [h.tready, Source.next, if_pos hvalid, if_neg Bool.false_ne_true, hq]
  refine ⟨⟨?_, ?_⟩, .preamble 1 (by decide) (by decide) ?_ ?_ ?_ ?_ hsource⟩
  · rw [encode_header (by decide)]
    simp [Tx.step, Tx.clk, Tx.comb, Tx.byState, Tx.idle, hidle, hvalid, Tx.Comb.default, Tx.gmii,
      header]
  all_goals
    simp [Tx.step, Tx.clk, Tx.comb, Tx.byState, Tx.idle, hidle, hvalid, Tx.Comb.default]

variable (cfg) in
/-- Otherwise nothing is shown. -/
theorem Between.waits (h : Between s) (hwait : s.state = .ifg ∨ a.tvalid = false) :
    Between (s.step cfg a) ∧ (s.step cfg a).gmii = none := by
  rcases h.state with hidle | hifg
  · have hvalid : a.tvalid = false := hwait.resolve_left (by simp [hidle])
    refine ⟨⟨Or.inl ?_, ?_, ?_⟩, ?_⟩ <;>
      simp [Tx.step, Tx.clk, Tx.comb, Tx.byState, Tx.idle, hidle, hvalid, Tx.Comb.default, Tx.gmii]
  · refine ⟨⟨?_, ?_, ?_⟩, ?_⟩ <;>
      by_cases hmore : s.ifg.setWidth 32 < cfg.ifgDelay.setWidth 32 - (1 : BitVec 32) <;>
        simp only [Tx.step, Tx.clk, Tx.comb, Tx.byState, Tx.sendIfg, hifg, hmore, Tx.Comb.default,
          Tx.gmii] <;>
        simp

/-! ### A run -/

/-- What the bursts of the GMII are when the frames of `done` are out. -/
inductive Sent (cfg : Tx.Config) (frames : List (List (BitVec 8))) (x : Fed)
    (b : Bursts (BitVec 8)) : Prop
  | between (done : List (List (BitVec 8))) (all : frames = done ++ x.2.queue) (mac : Between x.1)
      (bursts : b.all = done.map (encode cfg)) (closed : x.1.state = .idle → b.part = [])
  | sending (done : List (List (BitVec 8))) (f : List (BitVec 8)) (rest : List (List (BitVec 8)))
      (m : ℕ) (all : frames = done ++ f :: rest) (mac : Stage cfg f rest m x.1 x.2) (pos : 0 < m)
      (lt : m < (encode cfg f).length) (noError : x.1.gmiiTxEr = false)
      (whole : b.whole = done.map (encode cfg)) (part : b.part = (encode cfg f).take m)

theorem next_out {b : Bursts (BitVec 8)} {m : ℕ} {s' : Tx} (hout : Out cfg f m s')
    (hlt : m < (encode cfg f).length) (hpart : b.part = (encode cfg f).take m) :
    (b.next s'.gmii).part = (encode cfg f).take (m + 1) := by
  rw [hout.1, Bursts.part_some, hpart, List.take_succ_eq_append_getElem hlt,
    List.getD_eq_getElem _ _ hlt]

/-- After an edge of a frame. -/
theorem Sent.of_after {frames done : List (List (BitVec 8))} {b : Bursts (BitVec 8)} {m : ℕ}
    {x : Fed} (hall : frames = done ++ f :: rest) (hout : Out cfg f m x.1)
    (hafter : After cfg f rest m x.1 x.2) (hlt : m < (encode cfg f).length)
    (hwhole : b.whole = done.map (encode cfg)) (hpart : b.part = (encode cfg f).take m) :
    Sent cfg frames x (b.next x.1.gmii) := by
  have hpart' := next_out hout hlt hpart
  have hwhole' : (b.next x.1.gmii).whole = done.map (encode cfg) := by
    rw [hout.1, Bursts.whole_some, hwhole]
  unfold After at hafter
  by_cases h : m + 1 < (encode cfg f).length
  · rw [if_pos h] at hafter
    exact .sending done f rest (m + 1) hall hafter (Nat.succ_pos m) h hout.2 hwhole' hpart'
  · rw [if_neg h] at hafter
    refine .between (done ++ [f]) (by simp [hall, hafter.2.2]) hafter.1 ?_ fun hidle => ?_
    rotate_left
    · rw [hafter.2.1] at hidle
      cases hidle
    have hfull : (b.next x.1.gmii).part = encode cfg f := by
      rw [hpart', List.take_of_length_le (by omega)]
    rw [Bursts.all_of_ne_nil (by rw [hfull]; simp [encode, header]), hwhole', hfull, List.map_append]
    rfl

theorem Sent.step {frames : List (List (BitVec 8))} {b : Bursts (BitVec 8)} {x : Fed}
    (hmin : (cfg.minFrameLength - 5).toNat < 65536) (hlen : ∀ f ∈ frames, 2 ≤ f.length)
    (h : Sent cfg frames x b) (ha : x.2.Shows a) :
    Sent cfg frames (fedStep cfg x a) (watchGmii cfg x a b) := by
  cases h with
  | sending done f rest m all mac pos lt noError whole part =>
    obtain ⟨hout, hafter⟩ := mac.after hmin (hlen f (by simp [all])) ha
    exact of_after (x := fedStep cfg x a) all hout hafter lt whole part
  | between done all mac bursts closed =>
    by_cases hbegin : x.1.state = .idle ∧ a.tvalid = true
    case pos =>
      obtain ⟨f, rest, hq⟩ : ∃ f rest, x.2.queue = f :: rest := by
        refine List.exists_cons_of_ne_nil fun hnil => ?_
        unfold Source.Shows at ha
        rw [hnil] at ha
        exact Bool.noConfusion (ha.1.symm.trans hbegin.2)
      obtain ⟨hout, hstage⟩ := mac.begins cfg hbegin.1 hq hbegin.2
      have hlt : 0 + 1 < (encode cfg f).length := by
        rw [length_encode]
        omega
      have hpart : b.part = (encode cfg f).take 0 := closed hbegin.1
      refine of_after (x := fedStep cfg x a) (by rw [all, hq]) hout ?_ (by omega) ?_ hpart
      · rw [After, if_pos hlt]
        exact hstage
      · rw [← bursts, Bursts.all_of_nil (closed hbegin.1)]
    case neg =>
      obtain ⟨hmac, hgmii⟩ := mac.waits cfg (a := a) (by
        rcases mac.state with hidle | hifg
        · exact Or.inr (Bool.eq_false_iff.mpr fun hv => hbegin ⟨hidle, hv⟩)
        · exact Or.inl hifg)
      refine .between done ?_ hmac ?_ fun _ => by rw [watchGmii, hgmii, Bursts.part_none]
      · rw [fedStep, mac.tready, Source.queue_next, ← all]
      · rw [watchGmii, hgmii, Bursts.all_none, bursts]

/-- One frame more for a source, behind those it has. -/
def Source.queued (q : Source) (g : List (BitVec 8)) : Source := ⟨q.queue ++ [g], q.begun⟩

theorem Stage.queued {m : ℕ} (h : Stage cfg f rest m s q) (g : List (BitVec 8)) :
    Stage cfg f (rest ++ [g]) m s (q.queued g) := by
  cases h with
  | preamble m one_le le state ptr tready crc source =>
    exact .preamble m one_le le state ptr tready crc (by rw [source]; rfl)
  | data j lt state ptr tready byte crc source =>
    refine .data j lt state ptr tready byte crc ?_
    unfold Ahead at source ⊢
    split_ifs at source ⊢ with hj
    · rw [source]
      rfl
    · rw [Source.queued, source]
  | fcs k lt state ptr tready crc source =>
    exact .fcs k lt state ptr tready crc (by rw [Source.queued, source])

theorem Sent.queued {frames : List (List (BitVec 8))} {b : Bursts (BitVec 8)} {x : Fed}
    (h : Sent cfg frames x b) (g : List (BitVec 8)) :
    Sent cfg (frames ++ [g]) (x.1, x.2.queued g) b := by
  cases h with
  | between done all mac bursts closed =>
    exact .between done (by rw [all, List.append_assoc]; rfl) mac bursts closed
  | sending done f rest m all mac pos lt noError whole part =>
    exact .sending done f (rest ++ [g]) m (by rw [all, List.append_assoc, List.cons_append])
      (mac.queued g) pos lt noError whole part

/-- When the MAC takes nothing, the source has whole frames only. -/
theorem Sent.queue_suffix {frames : List (List (BitVec 8))} {b : Bursts (BitVec 8)} {x : Fed}
    (h : Sent cfg frames x b) (hready : x.1.sAxisTready = false) : x.2.queue <:+ frames := by
  cases h with
  | between done all => exact ⟨done, all.symm⟩
  | sending done f rest m all mac =>
    cases mac with
    | preamble _ _ _ _ _ _ _ source => exact ⟨done, by rw [all, source]⟩
    | data j _ _ _ tready _ _ source =>
      have hj : ¬ j + 1 < f.length := of_decide_eq_false (tready.symm.trans hready)
      rw [Ahead, if_neg hj] at source
      exact ⟨done ++ [f], by rw [all, source, List.append_assoc]; rfl⟩
    | fcs _ _ _ _ _ _ source => exact ⟨done ++ [f], by rw [all, source, List.append_assoc]; rfl⟩

/-- After reset, with a source that has not begun. -/
structure Reset (s : Tx) : Prop where
  state : s.state = .idle
  tready : s.sAxisTready = false
  txEn : s.gmiiTxEn = false
  txEr : s.gmiiTxEr = false

theorem reset_reached (i : Tx.In) (hi : i.rst = true) (s : Tx) : Reset (s.clk cfg i) := by
  refine ⟨?_, ?_, ?_, ?_⟩ <;> simp [Tx.clk, hi]

/-- The frames of `frames` on the GMII: those in `b` that are over, and one that is not. -/
structure Transmitted (cfg : Tx.Config) (frames : List (List (BitVec 8))) (b : Bursts (BitVec 8)) :
    Prop where
  whole : b.whole <+: frames.map (encode cfg)
  part : b.part = [] ∨ ∃ f, b.part <+: encode cfg f ∧
    b.whole ++ [encode cfg f] <+: frames.map (encode cfg)

theorem Sent.transmitted {frames : List (List (BitVec 8))} {b : Bursts (BitVec 8)} {x : Fed}
    (h : Sent cfg frames x b) : Transmitted cfg frames b := by
  cases h with
  | between done all mac bursts closed =>
    have hbeginning : b.all <+: frames.map (encode cfg) := by
      rw [bursts, all, List.map_append]
      exact List.prefix_append _ _
    by_cases hpart : b.part = []
    · rw [Bursts.all_of_nil hpart] at hbeginning
      exact ⟨hbeginning, Or.inl hpart⟩
    · rw [Bursts.all_of_ne_nil hpart] at hbeginning bursts
      obtain ⟨l, r, -, -, hr⟩ := List.map_eq_append_iff.mp bursts.symm
      obtain ⟨f, -, hf⟩ := List.mem_map.mp (hr ▸ List.mem_singleton_self b.part)
      refine ⟨(List.prefix_append _ _).trans hbeginning, Or.inr ⟨f, ?_, ?_⟩⟩ <;> rw [hf]
      exact hbeginning
  | sending done f rest m all mac pos lt noError whole part =>
    refine ⟨?_, Or.inr ⟨f, ?_, ?_⟩⟩
    · rw [whole, all, List.map_append]
      exact List.prefix_append _ _
    · rw [part]
      exact List.take_prefix m _
    · rw [whole, all, List.map_append, List.map_cons]
      exact ⟨rest.map (encode cfg), by simp⟩

theorem Sent.noError {frames : List (List (BitVec 8))} {b : Bursts (BitVec 8)} {x : Fed}
    (h : Sent cfg frames x b) : x.1.gmiiTxEr = false := by
  cases h with
  | between _ _ mac => exact mac.noError
  | sending _ _ _ _ _ _ _ _ noError => exact noError

/-- An idle MAC has sent all the source has not in its queue. -/
theorem Sent.of_idle {frames : List (List (BitVec 8))} {b : Bursts (BitVec 8)} {x : Fed}
    (h : Sent cfg frames x b) (hidle : x.1.state = .idle) : ∃ done, frames = done ++ x.2.queue ∧
      Between x.1 ∧ b.whole = done.map (encode cfg) ∧ b.part = [] := by
  cases h with
  | between done all mac bursts closed =>
    rw [Bursts.all_of_nil (closed hidle)] at bursts
    exact ⟨done, all, mac, bursts, closed hidle⟩
  | sending _ _ _ _ _ mac => exact absurd hidle mac.busy.1

/-- The MAC and a source with the frames of `frames`, before a run. -/
def start (s : Tx) (frames : List (List (BitVec 8))) : Fed := (s, ⟨frames, false⟩)

/-- The edges of a run are those of the source. -/
abbrev Fair (cfg : Tx.Config) (x : Fed) (as : List Axis) : Prop :=
  Run.Along (fedStep cfg) (fun x a => x.2.Shows a) x as

/-- The MAC with its source and the bursts of the GMII, after a run. -/
def seen (cfg : Tx.Config) (x : Fed) (as : List Axis) : Fed × Bursts (BitVec 8) :=
  Run.noted (fedStep cfg) (watchGmii cfg) (x, Bursts.empty) as

theorem sent_run (hmin : (cfg.minFrameLength - 5).toNat < 65536)
    {frames : List (List (BitVec 8))} (hlen : ∀ f ∈ frames, 2 ≤ f.length) (hs : Reset s)
    {as : List Axis} (has : Fair cfg (start s frames) as) :
    Sent cfg frames (seen cfg (start s frames) as).1 (seen cfg (start s frames) as).2 :=
  Run.noted_inv (fun x b => Sent cfg frames x b) (fun _ _ _ h ha => h.step hmin hlen ha) as
    (start s frames, Bursts.empty) has
    (.between [] rfl ⟨Or.inl hs.state, hs.tready, hs.txEr⟩ rfl fun _ => rfl)

/-- A MAC out of reset. -/
def Tx.afterReset : Tx := ⟨.idle, 0, 0, false, 0, 0, 0, false, false, false, crcInit, crcInit⟩

theorem reset_afterReset : Reset Tx.afterReset := ⟨rfl, rfl, rfl, rfl⟩

/-- An edge on which a source waits. -/
def quiet : Axis := ⟨0, false, false, false⟩

/-- The edges of a source that sends the bytes 1, 2 and 3, and those of the check. -/
def threeBytes : List Axis :=
  List.replicate 8 ⟨1, true, false, false⟩ ++ [⟨2, true, false, false⟩, ⟨3, true, true, false⟩] ++
    List.replicate 5 quiet

/-- The GMII after each edge of a run. -/
def shown (cfg : Tx.Config) : Fed → List Axis → List (Option (BitVec 8))
  | _, [] => []
  | x, a :: as => (x.1.step cfg a).gmii :: shown cfg (fedStep cfg x a) as

theorem Stage.run (hmin : (cfg.minFrameLength - 5).toNat < 65536) (hf : 2 ≤ f.length) :
    ∀ {as : List Axis} {m : ℕ} {x : Fed}, Stage cfg f rest m x.1 x.2 → Fair cfg x as →
      m < (encode cfg f).length → m + as.length = (encode cfg f).length →
        shown cfg x as = ((encode cfg f).drop m).map some
  | [], m, x, h, _, hlt, hlen => absurd hlen (Nat.ne_of_lt hlt)
  | a :: as, m, x, h, has, hlt, hlen => by
    obtain ⟨hout, hafter⟩ := h.after hmin hf has.1
    have htail : shown cfg (fedStep cfg x a) as = ((encode cfg f).drop (m + 1)).map some := by
      unfold After at hafter
      rw [List.length_cons] at hlen
      by_cases h' : m + 1 < (encode cfg f).length
      · rw [if_pos h'] at hafter
        exact Stage.run hmin hf (x := fedStep cfg x a) hafter has.2 h' (by omega)
      · have hnil : as = [] := List.eq_nil_of_length_eq_zero (by omega)
        rw [hnil, List.drop_eq_nil_of_le (by omega)]
        rfl
    rw [shown, htail, hout.1, List.drop_eq_getElem_cons hlt, List.getD_eq_getElem _ _ hlt]
    rfl

/-- `ifg_reg` has counted to the end. -/
def Spent (cfg : Tx.Config) (s : Tx) : Prop :=
  ¬ s.ifg.setWidth 32 < cfg.ifgDelay.setWidth 32 - (1 : BitVec 32)

variable (cfg) in
/-- The register moves in a gap that is not over; a frame that failed clears it. -/
theorem ifg_step (hwait : s.state ≠ .waitEnd) :
    (s.step cfg a).ifg = s.ifg ∨ s.state = .ifg ∧ ¬ Spent cfg s := by
  by_cases hifg : s.state = .ifg ∧ ¬ Spent cfg s
  · exact Or.inr hifg
  · refine Or.inl ?_
    simp only [Tx.step, Tx.clk, Tx.comb, Bool.not_true, Bool.false_eq_true, if_false, Bool.false_and]
    cases hs : s.state with
    | waitEnd => exact absurd hs hwait
    | ifg =>
      have hspent : Spent cfg s := not_not.mp fun h => hifg ⟨hs, h⟩
      unfold Spent at hspent
      simp only [Tx.byState, hs, Tx.sendIfg, hspent, if_false, Tx.Comb.default]
    | idle =>
      simp only [Tx.byState, hs, Tx.idle]
      split_ifs <;> rfl
    | preamble =>
      simp only [Tx.byState, hs, Tx.preamble]
      split_ifs <;> rfl
    | payload =>
      simp only [Tx.byState, hs, Tx.payload]
      split_ifs <;> rfl
    | last =>
      simp only [Tx.byState, hs, Tx.last]
      split_ifs <;> rfl
    | pad =>
      simp only [Tx.byState, hs, Tx.pad]
      split_ifs <;> rfl
    | fcs =>
      simp only [Tx.byState, hs, Tx.sendFcs]
      split_ifs <;> rfl

theorem Spent.step (h : Spent cfg s) (hwait : s.state ≠ .waitEnd) : Spent cfg (s.step cfg a) := by
  rcases ifg_step cfg (a := a) hwait with heq | hnot
  · unfold Spent
    rw [heq]
    exact h
  · exact absurd h hnot.2

/-- The last edge of a gap, and of every gap when the register has counted to the end. -/
theorem spent_iff_idle (hs : s.state = .ifg) : Spent cfg s ↔ (s.step cfg a).state = .idle := by
  unfold Spent
  by_cases h : s.ifg.setWidth 32 < cfg.ifgDelay.setWidth 32 - (1 : BitVec 32) <;>
    simp only [Tx.step, Tx.clk, Tx.comb, Tx.byState, Tx.sendIfg, hs, h, Tx.Comb.default] <;>
    simp

theorem Sent.not_waitEnd {frames : List (List (BitVec 8))} {b : Bursts (BitVec 8)} {x : Fed}
    (h : Sent cfg frames x b) : x.1.state ≠ .waitEnd := by
  intro hwait
  cases h with
  | between _ _ mac =>
    rcases mac.state with h | h <;> cases hwait.symm.trans h
  | sending _ _ _ _ _ mac => exact mac.busy.2 hwait

/-- **From the first gap on, a gap is one edge**: if the MAC has once gone from a gap back to idle,
it leaves every later gap on its first edge. -/
theorem gap_of_one (hmin : (cfg.minFrameLength - 5).toNat < 65536)
    {frames : List (List (BitVec 8))} (hlen : ∀ f ∈ frames, 2 ≤ f.length) (hs : Reset s)
    {as bs : List Axis} {c : Axis} (hrun : Fair cfg (start s frames) (as ++ a :: bs))
    (hgap : (seen cfg (start s frames) as).1.1.state = .ifg)
    (hover : (seen cfg (start s frames) (as ++ [a])).1.1.state = .idle)
    (hnext : (seen cfg (start s frames) (as ++ a :: bs)).1.1.state = .ifg) :
    ((seen cfg (start s frames) (as ++ a :: bs)).1.1.step cfg c).state = .idle := by
  have happ : ∀ cs, seen cfg (start s frames) (as ++ cs) =
      Run.noted (fedStep cfg) (watchGmii cfg) (seen cfg (start s frames) as) cs := fun cs =>
    Run.noted_append (fedStep cfg) (watchGmii cfg) as cs (start s frames, Bursts.empty)
  obtain ⟨has, hbs⟩ := (Run.along_append _ (watchGmii cfg) _ as (a :: bs)
    (start s frames, Bursts.empty)).mp hrun
  rw [happ] at hover hnext ⊢
  have hspent : Spent cfg (seen cfg (start s frames) as).1.1 := (spent_iff_idle hgap).mpr hover
  rw [← spent_iff_idle hnext]
  exact (Run.noted_inv (fun x b => Sent cfg frames x b ∧ Spent cfg x.1)
    (fun _ _ _ h ha => ⟨h.1.step hmin hlen ha, h.2.step h.1.not_waitEnd⟩) (a :: bs)
    (seen cfg (start s frames) as) hbs ⟨sent_run hmin hlen hs has, hspent⟩).2

/-- With a gap of two edges the second one is one edge. -/
theorem gap_of_one_two :
    ((seen ⟨false, 64, 2⟩ (start .afterReset [[1, 2, 3], [1, 2, 3]])
        ((threeBytes ++ [quiet]) ++ quiet :: threeBytes)).1.1.step ⟨false, 64, 2⟩ quiet).state =
      .idle :=
  gap_of_one (by decide) (by decide) reset_afterReset (by decide +kernel) (by decide +kernel)
    (by decide +kernel) (by decide +kernel)

end EthMac
end Xc7Tools
