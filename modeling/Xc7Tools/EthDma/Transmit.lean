/-
# eth_stream_dma: what is transmitted

A request of the CPU crosses to `eth_clk`, and the three stages of the TX
process then put the frame on the stream: a read is issued, the memory answers
on the next edge, and the byte is selected on the one after. Back-pressure
holds the stages but not the memory, which goes on with the word of the byte
issued last. So a stall is harmless where that word is the one the byte waiting
behind the offered one is in, and the last byte, which is offered when the
process is already through, is there for one edge only.

`Pipe` is the pipeline after a number of advances and `Phase` the whole of a
transmission; `Phase.step` is one event, `transmits` the run.

Key definitions: `txByte`, `expected`, `accepted`, `Pipe`, `Phase`, `Transmits`.
Key theorems: `Pipe.advance`, `Pipe.stall`, `Phase.step`, `transmits`.
-/
import Mathlib.Data.List.Induction
import Mathlib.Tactic.IntervalCases
import Xc7Tools.EthDma.Gateware
import Xc7Tools.Lib.Toggle

namespace Xc7Tools
namespace EthDma

/-! ### The stream -/

/-- Byte `k` of the TX window. -/
def txByte (p : Params) (mem : Mem) (k : ℕ) : BitVec 8 :=
  (mem (ab (p.txWordBase + BitVec.ofNat 14 (k / 4)))).extractLsb' (8 * (k % 4)) 8

/-- The bytes of a frame, with `tlast`. -/
def expected (n : ℕ) (B : ℕ → BitVec 8) : List (BitVec 8 × Bool) :=
  (List.range n).map fun k => (B k, decide (k + 1 = n))

/-- What an edge accepts: the byte and `tlast`, if both sides are ready. -/
def taken (s : Dma) : Event → List (BitVec 8 × Bool)
  | .eth i => if s.tx.tvalid && i.txTready then [(s.tx.tdata, s.tx.tlast)] else []
  | .cpu _ => []

/-- The bytes accepted in a run, with `tlast`. -/
def accepted (p : Params) : Dma → List Event → List (BitVec 8 × Bool)
  | _, [] => []
  | s, e :: es => taken s e ++ accepted p (s.step p e) es

/-- How often the window is given back in a run. -/
def returns (p : Params) : Dma → List Event → ℕ
  | _, [] => 0
  | s, e :: es =>
    (if (s.step p e).tx.txDoneTog = s.tx.txDoneTog then 0 else 1) + returns p (s.step p e) es

/-- The edges of `eth_clk` with `tx_axis_tready`. -/
def readyEdges (es : List Event) : ℕ :=
  es.countP fun e => match e with
    | .eth i => i.txTready
    | .cpu _ => false

theorem accepted_concat (p : Params) (e : Event) : ∀ (s : Dma) (es : List Event),
    accepted p s (es ++ [e]) = accepted p s es ++ taken (s.run p es) e
  | s, [] => by simp [accepted, Dma.run]
  | s, e' :: es => by
    rw [List.cons_append, accepted, accepted_concat p e _ es, accepted, List.append_assoc]
    rfl

theorem returns_concat (p : Params) (e : Event) : ∀ (s : Dma) (es : List Event),
    returns p s (es ++ [e]) = returns p s es +
      if (s.run p (es ++ [e])).tx.txDoneTog = (s.run p es).tx.txDoneTog then 0 else 1
  | s, [] => by
    rw [returns, Nat.zero_add]
    rfl
  | s, e' :: es => by
    rw [List.cons_append, returns, returns_concat p e _ es, returns, Nat.add_assoc]
    rfl

theorem length_expected (n : ℕ) (B : ℕ → BitVec 8) : (expected n B).length = n := by
  simp [expected]

theorem take_expected_succ {n k : ℕ} (B : ℕ → BitVec 8) (hk : k < n) :
    (expected n B).take k ++ [(B k, decide (k + 1 = n))] = (expected n B).take (k + 1) := by
  have hlen : k < (expected n B).length := by rwa [length_expected]
  rw [List.take_succ_eq_append_getElem hlen]
  simp [expected]

/-! ### The index of a byte -/

theorem wordAddr {k : ℕ} (hk : k < 2048) :
    ((BitVec.ofNat 11 k).extractLsb' 2 9).setWidth 14 = BitVec.ofNat 14 (k / 4) := by
  apply BitVec.eq_of_toNat_eq
  simp only [BitVec.toNat_setWidth, BitVec.extractLsb'_toNat, BitVec.toNat_ofNat,
    Nat.shiftRight_eq_div_pow]
  omega

theorem byteSel (k : ℕ) :
    ((BitVec.ofNat 11 k).extractLsb' 0 2).toNat = k % 4 := by
  simp only [BitVec.extractLsb'_toNat, BitVec.toNat_ofNat, Nat.shiftRight_zero]
  omega

theorem idx_lt {k n : ℕ} (hk : k < 2048) (hn : n < 2048) :
    (BitVec.ofNat 11 k < BitVec.ofNat 11 n) ↔ k < n := by
  rw [BitVec.lt_def, BitVec.toNat_ofNat, BitVec.toNat_ofNat, Nat.mod_eq_of_lt hk,
    Nat.mod_eq_of_lt hn]

theorem idx_succ_eq {k n : ℕ} (hk : k ≤ n) (hn1 : 1 ≤ n) (hn : n < 2048) :
    (BitVec.ofNat 11 k + 1 == BitVec.ofNat 11 n) = decide (k + 1 = n) := by
  have h : BitVec.ofNat 11 k + 1 = BitVec.ofNat 11 n ↔ k + 1 = n := by
    rw [← BitVec.toNat_inj, BitVec.toNat_add, BitVec.toNat_ofNat, BitVec.toNat_ofNat]
    change (k % 2048 + 1) % 2048 = n % 2048 ↔ _
    omega
  rw [Bool.eq_iff_iff, beq_iff_eq, h, decide_eq_true_iff]

/-! ### The pipeline -/

/-- The TX process after `e` advances: byte `e - 1` is being read, byte `e - 2` is next, and byte
`e - 3` is offered. -/
structure Pipe (p : Params) (n : ℕ) (B : ℕ → BitVec 8) (e : ℕ) (s : Dma) : Prop where
  le : e ≤ n + 1
  run : s.tx.txRun = true
  nbyte : s.tx.txNbyte = BitVec.ofNat 11 n
  idx : s.tx.txIdx = BitVec.ofNat 11 (min e n)
  men : s.tx.txMen = decide (1 ≤ e ∧ e ≤ n)
  maddr : 1 ≤ e → e ≤ n → s.tx.txMaddr = p.txWordBase + BitVec.ofNat 14 ((e - 1) / 4)
  sel1 : 1 ≤ e → e ≤ n → s.tx.sel1.toNat = (e - 1) % 4
  v1 : s.tx.v1 = decide (1 ≤ e ∧ e ≤ n)
  l1 : s.tx.l1 = decide (e = n)
  v2 : s.tx.v2 = decide (2 ≤ e)
  sel2 : 2 ≤ e → s.tx.sel2.toNat = (e - 2) % 4
  l2 : s.tx.l2 = decide (e = n + 1)
  data : 2 ≤ e → s.rdata.extractLsb' (8 * ((e - 2) % 4)) 8 = B (e - 2)
  tvalid : s.tx.tvalid = decide (3 ≤ e)
  tdata : 3 ≤ e → s.tx.tdata = B (e - 3)
  tlast : s.tx.tlast = false

/-- The TX window holds the frame. -/
def Holds (p : Params) (B : ℕ → BitVec 8) (s : Dma) : Prop := ∀ k < 2048, txByte p s.mem k = B k

variable {p : Params} {n : ℕ} {B : ℕ → BitVec 8} {e : ℕ} {s : Dma}

/-- While the process runs the port is its own: the memory is read, never written. -/
theorem eth_mem (hrun : s.tx.txRun = true) (i : EthIn) :
    (s.step p (.eth i)).mem = s.mem ∧
      (s.step p (.eth i)).rdata = if s.tx.txMen then s.mem (ab s.tx.txMaddr) else s.rdata := by
  simp [Dma.step, Dma.ethClk, Dma.memEn, Dma.memWe, Dma.memAddr, hrun]

theorem eth_tx (p : Params) (s : Dma) (i : EthIn) : (s.step p (.eth i)).tx =
    s.tx.clk p false s.cpu.txTog s.cpu.txLenQ s.rdata i.txTready := rfl

/-- The registers after an advance. -/
theorem Pipe.tx_advance (h : Pipe p n B e s) (hn : 1 ≤ n) (hn' : n < 2048) (he : e ≤ n) (i : EthIn)
    (hadv : s.tx.adv i.txTready = true) : (s.step p (.eth i)).tx =
      { s.tx with
        txGoS1 := s.cpu.txTog
        txGoS2 := s.tx.txGoS1
        txMen := decide (e < n)
        txMaddr := p.txWordBase + BitVec.ofNat 14 (e / 4)
        sel1 := (BitVec.ofNat 11 e).extractLsb' 0 2
        v1 := decide (e < n)
        l1 := decide (e + 1 = n)
        txIdx := BitVec.ofNat 11 (min (e + 1) n)
        sel2 := s.tx.sel1
        v2 := s.tx.v1
        l2 := s.tx.l1
        tdata := s.rdata.extractLsb' (8 * s.tx.sel2.toNat) 8
        tvalid := s.tx.v2
        tlast := s.tx.l2 } := by
  have hl2 : s.tx.l2 = false := by rw [h.l2, decide_eq_false (by omega)]
  have hidx : s.tx.txIdx = BitVec.ofNat 11 e := by rw [h.idx, Nat.min_eq_left he]
  have hlt : BitVec.ofNat 11 e < BitVec.ofNat 11 n ↔ e < n := idx_lt (by omega) hn'
  have hsucc : (if e < n then BitVec.ofNat 11 e + 1 else BitVec.ofNat 11 e) =
      BitVec.ofNat 11 (min (e + 1) n) := by
    split_ifs with hlt
    · rw [Nat.min_eq_left (by omega), BitVec.ofNat_add]
      rfl
    · rw [Nat.min_eq_right (by omega), show e = n by omega]
  have hl1 := idx_succ_eq he hn hn'
  have haddr := wordAddr (show e < 2048 by omega)
  have hclk : (s.step p (.eth i)).tx = s.tx.advance p s.rdata
      { s.tx with txGoS1 := s.cpu.txTog, txGoS2 := s.tx.txGoS1 } := by
    simp [eth_tx, Tx.clk, h.run, hadv]
  rw [hclk, Tx.advance]
  simp only [hl2, Bool.and_false, Bool.false_eq_true, if_false, hidx, h.nbyte, hlt, hsucc, hl1, haddr]

/-- **An advance moves the pipeline by a byte.** -/
theorem Pipe.advance (h : Pipe p n B e s) (hn : 1 ≤ n) (hn' : n < 2048) (he : e ≤ n)
    (hB : Holds p B s) {i : EthIn} (hadv : s.tx.adv i.txTready = true) :
    Pipe p n B (e + 1) (s.step p (.eth i)) := by
  obtain ⟨-, hrdata⟩ := eth_mem (p := p) h.run i
  have htx := h.tx_advance hn hn' he i hadv
  have hl2 : s.tx.l2 = false := by rw [h.l2, decide_eq_false (by omega)]
  -- the memory answers the read of byte e - 1
  have hdata : 1 ≤ e → (s.step p (.eth i)).rdata.extractLsb' (8 * ((e - 1) % 4)) 8 = B (e - 1) := by
    intro he1
    rw [hrdata, h.men, decide_eq_true ⟨he1, he⟩, if_pos rfl, h.maddr he1 he]
    exact hB (e - 1) (by omega)
  have hbyte : 2 ≤ e → s.rdata.extractLsb' (8 * s.tx.sel2.toNat) 8 = B (e - 2) := fun he2 => by
    rw [h.sel2 he2]
    exact h.data he2
  exact
    { le := by omega
      run := by rw [htx]; exact h.run
      nbyte := by rw [htx]; exact h.nbyte
      idx := by rw [htx]
      men := by rw [htx]; exact decide_eq_decide.mpr (by omega)
      maddr := fun _ _ => by rw [htx, Nat.add_sub_cancel]
      sel1 := fun _ _ => by rw [htx, Nat.add_sub_cancel]; exact byteSel e
      v1 := by rw [htx]; exact decide_eq_decide.mpr (by omega)
      l1 := by rw [htx]
      v2 := by rw [htx]; exact h.v1.trans (decide_eq_decide.mpr (by omega))
      sel2 := fun he2 => by rw [htx]; exact h.sel1 (by omega) he
      l2 := by rw [htx]; exact h.l1.trans (decide_eq_decide.mpr (by omega))
      data := fun he2 => hdata (by omega)
      tvalid := by rw [htx]; exact h.v2.trans (decide_eq_decide.mpr (by omega))
      tdata := fun he3 => by rw [htx]; exact hbyte (by omega)
      tlast := by rw [htx]; exact hl2 }

/-- **A stall holds the pipeline**, but for the word the memory answers with. -/
theorem Pipe.stall (h : Pipe p n B e s) (hn' : n < 2048) (hB : Holds p B s) {i : EthIn}
    (hadv : s.tx.adv i.txTready = false)
    (hsame : (e - 3) % 4 = 2 → e - 3 + 2 < n → B (e - 3 + 1) = B (e - 3 + 5)) :
    Pipe p n B e (s.step p (.eth i)) := by
  obtain ⟨-, hrdata⟩ := eth_mem (p := p) h.run i
  have htx : (s.step p (.eth i)).tx = { s.tx with txGoS1 := s.cpu.txTog, txGoS2 := s.tx.txGoS1 } := by
    simp [eth_tx, Tx.clk, h.run, hadv]
  have hvalid : s.tx.tvalid = true := by
    simp only [Tx.adv, Bool.or_eq_false_iff, Bool.not_eq_false'] at hadv
    exact hadv.1
  rw [h.tvalid, decide_eq_true_eq] at hvalid
  -- the word of the byte issued last has the next one in its place
  have hdata : (s.step p (.eth i)).rdata.extractLsb' (8 * ((e - 2) % 4)) 8 = B (e - 2) := by
    by_cases hmen : e ≤ n
    · rw [hrdata, h.men, decide_eq_true ⟨by omega, hmen⟩, if_pos rfl, h.maddr (by omega) hmen]
      by_cases hword : (e - 1) % 4 = 0
      · have hlast := hB (e + 2) (by omega)
        rw [txByte, show (e + 2) / 4 = (e - 1) / 4 by omega,
          show (e + 2) % 4 = (e - 2) % 4 by omega] at hlast
        rw [hlast]
        have := hsame (by omega) (by omega)
        rw [show e - 3 + 1 = e - 2 by omega, show e - 3 + 5 = e + 2 by omega] at this
        exact this.symm
      · have hnext := hB (e - 2) (by omega)
        rwa [txByte, show (e - 2) / 4 = (e - 1) / 4 by omega] at hnext
    · rw [hrdata, h.men, decide_eq_false (fun hc => hmen hc.2)]
      exact h.data (by omega)
  exact
    { le := h.le
      run := by rw [htx]; exact h.run
      nbyte := by rw [htx]; exact h.nbyte
      idx := by rw [htx]; exact h.idx
      men := by rw [htx]; exact h.men
      maddr := by rw [htx]; exact h.maddr
      sel1 := by rw [htx]; exact h.sel1
      v1 := by rw [htx]; exact h.v1
      l1 := by rw [htx]; exact h.l1
      v2 := by rw [htx]; exact h.v2
      sel2 := by rw [htx]; exact h.sel2
      l2 := by rw [htx]; exact h.l2
      data := fun _ => hdata
      tvalid := by rw [htx]; exact h.tvalid
      tdata := by rw [htx]; exact h.tdata
      tlast := by rw [htx]; exact h.tlast }

/-! ### A transmission -/

/-- The toggles of a request that is being served. -/
structure Served (t : Bool) (s : Dma) : Prop where
  txTog : s.cpu.txTog = t
  txGoS1 : s.tx.txGoS1 = t
  txGoS2 : s.tx.txGoS2 = t
  txDoneTog : s.tx.txDoneTog = !t
  txDoneS1 : s.cpu.txDoneS1 = !t
  txDoneS2 : s.cpu.txDoneS2 = !t

/-- A request is on its way to `eth_clk`: the process waits, and `j` of the two flops and the
process have seen it. -/
structure Waiting (t : Bool) (n j : ℕ) (s : Dma) : Prop where
  txRun : s.tx.txRun = false
  tvalid : s.tx.tvalid = false
  txTog : s.cpu.txTog = t
  txGoS1 : s.tx.txGoS1 = if j = 0 then !t else t
  txGoS2 : s.tx.txGoS2 = if j = 2 then t else !t
  txDoneTog : s.tx.txDoneTog = !t
  txDoneS1 : s.cpu.txDoneS1 = !t
  txDoneS2 : s.cpu.txDoneS2 = !t
  txLenQ : s.cpu.txLenQ = BitVec.ofNat 11 n

/-- The window is given back: the process is through, and no request is under way. -/
structure Returned (t : Bool) (s : Dma) : Prop where
  txRun : s.tx.txRun = false
  txTog : s.cpu.txTog = t
  txGoS1 : s.tx.txGoS1 = t
  txGoS2 : s.tx.txGoS2 = t
  txDoneTog : s.tx.txDoneTog = t

/-- A transmission: how far it has come, what has been accepted, and how often the window was given
back. -/
inductive Phase (p : Params) (t : Bool) (n : ℕ) (B : ℕ → BitVec 8) :
    ℕ → List (BitVec 8 × Bool) → ℕ → Dma → Prop
  | waiting {s : Dma} (j : ℕ) (hj : j ≤ 2) (h : Waiting t n j s) : Phase p t n B j [] 0 s
  | running {s : Dma} (e : ℕ) (h : Pipe p n B e s) (ht : Served t s) :
      Phase p t n B (3 + e) ((expected n B).take (e - 3)) 0 s
  | last {s : Dma} (h : Returned t s) (hvalid : s.tx.tvalid = true) (hdata : s.tx.tdata = B (n - 1))
      (hlast : s.tx.tlast = true) : Phase p t n B (n + 5) ((expected n B).take (n - 1)) 1 s
  | complete {s : Dma} (h : Returned t s) (hvalid : s.tx.tvalid = false) :
      Phase p t n B (n + 6) (expected n B) 1 s

variable {t : Bool} {m k : ℕ} {acc : List (BitVec 8 × Bool)}

/-- While a request is served the CPU is told to keep off. -/
theorem Phase.busy (h : Phase p t n B m acc 0 s) : s.cpu.txBusy = true := by
  cases h with
  | waiting j hj h => simp [Cpu.txBusy, h.txTog, h.txDoneS2]
  | running e h ht => simp [Cpu.txBusy, ht.txTog, ht.txDoneS2]

theorem Phase.step_cpu (h : Phase p t n B m acc k s) {i : CpuIn}
    (hi : i.txStart = true → s.cpu.txBusy = true) : Phase p t n B m acc k (s.step p (.cpu i)) := by
  have hno : (i.txStart && !s.cpu.txBusy) = false := by
    cases hs : i.txStart with
    | false => rfl
    | true => rw [hi hs]; rfl
  have htog : (s.step p (.cpu i)).cpu.txTog = s.cpu.txTog := by
    simp [Dma.step, Dma.cpuClk, Cpu.clk, hno]
  have hlen : (s.step p (.cpu i)).cpu.txLenQ = s.cpu.txLenQ := by
    simp [Dma.step, Dma.cpuClk, Cpu.clk, hno]
  cases h with
  | waiting _ hj h =>
    refine .waiting m hj ⟨h.txRun, h.tvalid, htog.trans h.txTog, h.txGoS1, h.txGoS2, h.txDoneTog,
      h.txDoneTog, h.txDoneS1, hlen.trans h.txLenQ⟩
  | running e h ht =>
    have hpipe : Pipe p n B e (s.step p (.cpu i)) :=
      ⟨h.le, h.run, h.nbyte, h.idx, h.men, h.maddr, h.sel1, h.v1, h.l1, h.v2, h.sel2, h.l2, h.data,
        h.tvalid, h.tdata, h.tlast⟩
    exact .running e hpipe ⟨htog.trans ht.txTog, ht.txGoS1, ht.txGoS2, ht.txDoneTog, ht.txDoneTog,
      ht.txDoneS1⟩
  | last h hvalid hdata hlast =>
    exact .last ⟨h.txRun, htog.trans h.txTog, h.txGoS1, h.txGoS2, h.txDoneTog⟩ hvalid hdata hlast
  | complete h hvalid =>
    exact .complete ⟨h.txRun, htog.trans h.txTog, h.txGoS1, h.txGoS2, h.txDoneTog⟩ hvalid

/-! ### One edge of `eth_clk` -/

/-- Idle edges of the process: the toggles move on, and a request that has arrived starts it. -/
theorem tx_idle (hrun : s.tx.txRun = false) (i : EthIn) : (s.step p (.eth i)).tx =
    { s.tx with
      txGoS1 := s.cpu.txTog
      txGoS2 := s.tx.txGoS1
      txMen := false
      v1 := false
      v2 := false
      l1 := false
      l2 := false
      tvalid := false
      tlast := false
      txRun := s.tx.txGoS2 != s.tx.txDoneTog
      txIdx := if s.tx.txGoS2 = s.tx.txDoneTog then s.tx.txIdx else 0
      txNbyte := if s.tx.txGoS2 = s.tx.txDoneTog then s.tx.txNbyte else s.cpu.txLenQ } := by
  by_cases hgo : s.tx.txGoS2 = s.tx.txDoneTog <;> simp [eth_tx, Tx.clk, hrun, hgo]

/-- The request's flops move on at every edge. -/
theorem eth_go (p : Params) (s : Dma) (i : EthIn) :
    (s.step p (.eth i)).tx.txGoS1 = s.cpu.txTog ∧
      (s.step p (.eth i)).tx.txGoS2 = s.tx.txGoS1 := by
  simp only [eth_tx, Tx.clk, Tx.advance, apply_ite Tx.txGoS1, apply_ite Tx.txGoS2, ite_self,
    and_self]

/-- A request in the second flop starts the process. -/
theorem Waiting.start (h : Waiting t n 2 s) (hn : 1 ≤ n) (i : EthIn) :
    Pipe p n B 0 (s.step p (.eth i)) ∧ Served t (s.step p (.eth i)) := by
  have hgo : s.tx.txGoS2 = t := by rw [h.txGoS2, if_pos rfl]
  have hne : ¬ s.tx.txGoS2 = s.tx.txDoneTog := by
    rw [hgo, h.txDoneTog]
    cases t <;> decide
  have htx := tx_idle (p := p) h.txRun i
  simp only [if_neg hne, bne_iff_ne.mpr hne] at htx
  have hzero : n ≠ 0 := by omega
  refine ⟨?_, ?_⟩
  · exact
      { le := by omega
        run := by rw [htx]
        nbyte := by rw [htx]; exact h.txLenQ
        idx := by rw [htx, Nat.zero_min]; rfl
        men := by rw [htx]; rfl
        maddr := fun h => absurd h (by decide)
        sel1 := fun h => absurd h (by decide)
        v1 := by rw [htx]; rfl
        l1 := by rw [htx]; exact (decide_eq_false hzero.symm).symm
        v2 := by rw [htx]; rfl
        sel2 := fun h => absurd h (by decide)
        l2 := by rw [htx]; exact (decide_eq_false (by omega)).symm
        data := fun h => absurd h (by decide)
        tvalid := by rw [htx]; rfl
        tdata := fun h => absurd h (by decide)
        tlast := by rw [htx] }
  · refine ⟨h.txTog, ?_, ?_, ?_, h.txDoneS1, h.txDoneS2⟩
    · rw [htx]
      exact h.txTog
    · rw [htx]
      exact h.txGoS1
    · rw [htx]
      exact h.txDoneTog

/-- Before, the request moves through the flops. -/
theorem Waiting.move {j : ℕ} (h : Waiting t n j s) (hj : j < 2) (i : EthIn) :
    Waiting t n (j + 1) (s.step p (.eth i)) := by
  have hgo : s.tx.txGoS2 = !t := by rw [h.txGoS2, if_neg (by omega)]
  have heq : s.tx.txGoS2 = s.tx.txDoneTog := hgo.trans h.txDoneTog.symm
  have htx := tx_idle (p := p) h.txRun i
  simp only [heq, bne_self_eq_false] at htx
  refine ⟨?_, ?_, h.txTog, ?_, ?_, ?_, h.txDoneS1, h.txDoneS2, h.txLenQ⟩
  · rw [htx]
  · rw [htx]
  · rw [htx, if_neg (Nat.succ_ne_zero j)]
    exact h.txTog
  · rw [htx]
    change s.tx.txGoS1 = _
    rw [h.txGoS1]
    split_ifs <;> first | rfl | omega
  · rw [htx]
    exact h.txDoneTog

/-- The last advance gives the window back. -/
theorem Pipe.last (h : Pipe p n B (n + 1) s) (ht : Served t s) (hn : 1 ≤ n) {i : EthIn}
    (hadv : s.tx.adv i.txTready = true) :
    Returned t (s.step p (.eth i)) ∧ (s.step p (.eth i)).tx.tvalid = true ∧
      (s.step p (.eth i)).tx.tdata = B (n - 1) ∧ (s.step p (.eth i)).tx.tlast = true := by
  have hv2 : s.tx.v2 = true := by rw [h.v2, decide_eq_true (by omega)]
  have hl2 : s.tx.l2 = true := by rw [h.l2, decide_eq_true rfl]
  have hbyte : s.rdata.extractLsb' (8 * s.tx.sel2.toNat) 8 = B (n - 1) := by
    rw [h.sel2 (by omega)]
    exact h.data (by omega)
  have hclk : (s.step p (.eth i)).tx = s.tx.advance p s.rdata
      { s.tx with txGoS1 := s.cpu.txTog, txGoS2 := s.tx.txGoS1 } := by
    simp [eth_tx, Tx.clk, h.run, hadv]
  refine ⟨⟨?_, ht.txTog, ?_, ?_, ?_⟩, ?_, ?_, ?_⟩ <;> rw [hclk] <;>
    simp only [Tx.advance, hv2, hl2, Bool.and_self, if_true]
  · exact ht.txTog
  · exact ht.txGoS1
  · exact ht.txGoS2
  · exact hbyte

/-- Once the window is given back the process is idle, and offers nothing more. -/
theorem Returned.idle (h : Returned t s) (i : EthIn) :
    Returned t (s.step p (.eth i)) ∧ (s.step p (.eth i)).tx.tvalid = false := by
  have heq : s.tx.txGoS2 = s.tx.txDoneTog := h.txGoS2.trans h.txDoneTog.symm
  have htx := tx_idle (p := p) h.txRun i
  simp only [heq, bne_self_eq_false] at htx
  refine ⟨⟨?_, h.txTog, ?_, ?_, ?_⟩, ?_⟩ <;> rw [htx]
  · exact h.txTog
  · exact h.txGoS1
  · exact h.txDoneTog

/-- The offered byte may wait: it is not the last, and where the memory goes on to the next word
meanwhile, that has the byte behind the offered one in its place. -/
def MayStall (n : ℕ) (B : ℕ → BitVec 8) (b : ℕ) : Prop :=
  b + 1 < n ∧ (b % 4 = 2 → b + 2 < n → B (b + 1) = B (b + 5))

/-- An edge that does not give the window back leaves the request with the process. -/
theorem Served.eth (ht : Served t s) {i : EthIn}
    (htog : (s.step p (.eth i)).tx.txDoneTog = s.tx.txDoneTog) : Served t (s.step p (.eth i)) := by
  refine ⟨ht.txTog, ?_, ?_, htog.trans ht.txDoneTog, ht.txDoneS1, ht.txDoneS2⟩
  · rw [(eth_go p s i).1]
    exact ht.txTog
  · rw [(eth_go p s i).2]
    exact ht.txGoS1

/-- With an advance the byte on offer, if there is one, is accepted. -/
theorem Pipe.accepted_advance (h : Pipe p n B e s) {i : EthIn}
    (hadv : s.tx.adv i.txTready = true) :
    (expected n B).take (e - 3) ++ taken s (.eth i) = (expected n B).take (e + 1 - 3) := by
  have hle := h.le
  by_cases he : 3 ≤ e
  · have hvalid : s.tx.tvalid = true := by rw [h.tvalid, decide_eq_true he]
    have hready : i.txTready = true := by simpa [Tx.adv, hvalid] using hadv
    have hlast : decide (e - 3 + 1 = n) = false := decide_eq_false (by omega)
    have htake := take_expected_succ B (show e - 3 < n by omega)
    rw [hlast] at htake
    rw [taken, hvalid, hready, Bool.and_self, if_pos rfl, h.tdata he, h.tlast, htake]
    congr 1
    omega
  · have hvalid : s.tx.tvalid = false := by rw [h.tvalid, decide_eq_false he]
    simp only [taken, hvalid, Bool.false_and, Bool.false_eq_true, if_false, List.append_nil]
    congr 1
    omega

/-- What one edge of `eth_clk` does: the edge makes progress if the stream is ready, until the
transmission is over. -/
theorem Phase.step_eth (h : Phase p t n B m acc k s) (hn : 1 ≤ n) (hn' : n < 2048)
    (hB : k = 0 → Holds p B s) {i : EthIn}
    (hstall : s.tx.tvalid = true → i.txTready = false → MayStall n B acc.length) :
    ∃ m' k', Phase p t n B m' (acc ++ taken s (.eth i)) k' (s.step p (.eth i)) ∧
      k' = k + (if (s.step p (.eth i)).tx.txDoneTog = s.tx.txDoneTog then 0 else 1) ∧
      m ≤ m' ∧ (i.txTready = true → m < m' ∨ n + 6 ≤ m') := by
  cases h with
  | waiting _ hj h =>
    have hnone : taken s (.eth i) = [] := by simp [taken, h.tvalid]
    have htog : (s.step p (.eth i)).tx.txDoneTog = s.tx.txDoneTog := by rw [tx_idle h.txRun]
    rw [hnone, if_pos htog]
    rcases Nat.lt_or_eq_of_le hj with hj | rfl
    · exact ⟨m + 1, 0, .waiting (m + 1) hj (h.move hj i), rfl, by omega, fun _ => Or.inl (by omega)⟩
    · obtain ⟨hpipe, hserved⟩ := h.start (p := p) (B := B) hn i
      exact ⟨3, 0, .running 0 hpipe hserved, rfl, by omega, fun _ => Or.inl (by omega)⟩
  | running e h ht =>
    have hlen : ((expected n B).take (e - 3)).length = e - 3 := by
      have := h.le
      rw [List.length_take, length_expected]
      omega
    by_cases hadv : s.tx.adv i.txTready = true
    · rw [h.accepted_advance hadv]
      rcases Nat.lt_or_eq_of_le h.le with he | rfl
      · have htog : (s.step p (.eth i)).tx.txDoneTog = s.tx.txDoneTog := by
          rw [h.tx_advance hn hn' (by omega) i hadv]
        rw [if_pos htog]
        exact ⟨3 + (e + 1), 0, .running (e + 1) (h.advance hn hn' (by omega) (hB rfl) hadv)
          (ht.eth htog), rfl, by omega, fun _ => Or.inl (by omega)⟩
      · obtain ⟨hret, hvalid, hdata, hlast⟩ := h.last (p := p) ht hn hadv
        have htog : ¬ (s.step p (.eth i)).tx.txDoneTog = s.tx.txDoneTog := by
          rw [hret.txDoneTog, ht.txDoneTog]
          cases t <;> decide
        rw [if_neg htog, show n + 1 + 1 - 3 = n - 1 by omega]
        exact ⟨n + 5, 1, .last hret hvalid hdata hlast, rfl, by omega, fun _ => Or.inl (by omega)⟩
    · have hadv : s.tx.adv i.txTready = false := by simpa using hadv
      obtain ⟨hvalid, hready⟩ : s.tx.tvalid = true ∧ i.txTready = false := by
        simpa [Tx.adv] using hadv
      have hmay := hstall hvalid hready
      rw [hlen] at hmay
      have hacc : taken s (.eth i) = [] := by simp [taken, hready]
      have htog : (s.step p (.eth i)).tx.txDoneTog = s.tx.txDoneTog := by
        simp [eth_tx, Tx.clk, h.run, hadv]
      rw [if_pos htog, hacc, List.append_nil]
      refine ⟨3 + e, 0, .running e (h.stall hn' (hB rfl) hadv hmay.2) (ht.eth htog), rfl, le_rfl,
        fun hr => ?_⟩
      rw [hready] at hr
      cases hr
  | last h hvalid hdata hlast =>
    have hle : n - 1 < n := by omega
    have hready : i.txTready = true := by
      by_contra hready
      have hmay := (hstall hvalid (by simpa using hready)).1
      rw [List.length_take, length_expected] at hmay
      omega
    obtain ⟨hret, hnone⟩ := h.idle (p := p) i
    have htog : (s.step p (.eth i)).tx.txDoneTog = s.tx.txDoneTog := by
      rw [hret.txDoneTog, h.txDoneTog]
    have hacc : (expected n B).take (n - 1) ++ taken s (.eth i) = expected n B := by
      have htake := take_expected_succ B hle
      rw [decide_eq_true (show n - 1 + 1 = n by omega)] at htake
      rw [taken, hvalid, hready, Bool.and_self, if_pos rfl, hdata, hlast, htake,
        List.take_of_length_le (by rw [length_expected]; omega)]
    rw [if_pos htog, hacc]
    exact ⟨n + 6, 1, .complete hret hnone, rfl, by omega, fun _ => Or.inr le_rfl⟩
  | complete h hvalid =>
    obtain ⟨hret, hnone⟩ := h.idle (p := p) i
    have htog : (s.step p (.eth i)).tx.txDoneTog = s.tx.txDoneTog := by
      rw [hret.txDoneTog, h.txDoneTog]
    have hacc : taken s (.eth i) = [] := by simp [taken, hvalid]
    rw [if_pos htog, hacc, List.append_nil]
    exact ⟨n + 6, 1, .complete hret hnone, rfl, le_rfl, fun _ => Or.inr le_rfl⟩

/-! ### A run -/

/-- The state after a prefix of the run is in the window's hands: the bytes are there while the CPU
is told to keep off. -/
def Kept (p : Params) (B : ℕ → BitVec 8) (s : Dma) (es : List Event) : Prop :=
  ∀ pre, pre <+: es → (s.run p pre).cpu.txBusy = true → Holds p B (s.run p pre)

/-- No pulse of `tx_start` in the run finds the CPU not told to keep off. -/
def Alone (p : Params) (s : Dma) (es : List Event) : Prop :=
  ∀ pre i, pre ++ [.cpu i] <+: es → i.txStart = true → (s.run p pre).cpu.txBusy = true

/-- An offered byte waits only where it may; the last one does not. -/
def Steady (p : Params) (n : ℕ) (B : ℕ → BitVec 8) (s : Dma) (es : List Event) : Prop :=
  ∀ pre i, pre ++ [.eth i] <+: es → (s.run p pre).tx.tvalid = true → i.txTready = false →
    MayStall n B (accepted p s pre).length

/-- The frame of the CPU is what the run puts on the stream. -/
structure Transmits (p : Params) (n : ℕ) (B : ℕ → BitVec 8) (s : Dma) (es : List Event) : Prop where
  /-- In order, with `tlast` on the last. -/
  accepted_prefix : accepted p s es <+: expected n B
  /-- All of it, once the stream has been ready for long enough. -/
  accepted_all : n + 6 ≤ readyEdges es → accepted p s es = expected n B
  /-- An offered byte stays until it is accepted. -/
  stays : ∀ pre i, pre ++ [.eth i] <+: es → (s.run p pre).tx.tvalid = true → i.txTready = false →
    (s.run p (pre ++ [.eth i])).tx.tvalid = true ∧
      (s.run p (pre ++ [.eth i])).tx.tdata = (s.run p pre).tx.tdata ∧
      (s.run p (pre ++ [.eth i])).tx.tlast = (s.run p pre).tx.tlast
  /-- The window is given back once. -/
  returns_le : returns p s es ≤ 1
  returns_one : n + 6 ≤ readyEdges es → returns p s es = 1
  /-- And not before the last byte is on the stream. -/
  read : returns p s es = 1 → (accepted p s es).length + (s.run p es).tx.tvalid.toNat = n

theorem Phase.stays (h : Phase p t n B m acc k s) {i : EthIn} (hvalid : s.tx.tvalid = true)
    (hready : i.txTready = false) (hmay : MayStall n B acc.length) :
    (s.step p (.eth i)).tx.tvalid = true ∧ (s.step p (.eth i)).tx.tdata = s.tx.tdata ∧
      (s.step p (.eth i)).tx.tlast = s.tx.tlast := by
  cases h with
  | waiting _ hj h => exact absurd (h.tvalid.symm.trans hvalid) Bool.false_ne_true
  | running e h ht =>
    have hadv : s.tx.adv i.txTready = false := by simp [Tx.adv, hvalid, hready]
    simp [eth_tx, Tx.clk, h.run, hadv, hvalid]
  | last h hvalid hdata hlast =>
    have hlt := hmay.1
    rw [List.length_take, length_expected] at hlt
    omega
  | complete h hnone => exact absurd (hnone.symm.trans hvalid) Bool.false_ne_true

/-- The phase a run has come to. -/
theorem phase_run (hn : 1 ≤ n) (hn' : n < 2048) (h0 : Phase p t n B 0 [] 0 s) {es : List Event}
    (halone : Alone p s es) (hkept : Kept p B s es) (hsteady : Steady p n B s es) :
    ∃ m, Phase p t n B m (accepted p s es) (returns p s es) (s.run p es) ∧
      (readyEdges es ≤ m ∨ n + 6 ≤ m) := by
  induction es using List.reverseRecOn with
  | nil => exact ⟨0, h0, Or.inl le_rfl⟩
  | append_singleton es e ih =>
    have hpre : ∀ {pre}, pre <+: es → pre <+: es ++ [e] := fun h => h.trans (List.prefix_append es [e])
    obtain ⟨m, h, hm⟩ := ih (fun pre i hp => halone pre i (hpre hp))
      (fun pre hp => hkept pre (hpre hp)) (fun pre i hp => hsteady pre i (hpre hp))
    rw [accepted_concat, returns_concat, Dma.run_concat]
    cases e with
    | cpu i =>
      have hready : readyEdges (es ++ [.cpu i]) = readyEdges es := by simp [readyEdges]
      rw [hready]
      refine ⟨m, ?_, hm⟩
      have htog : ((s.run p es).step p (.cpu i)).tx.txDoneTog = (s.run p es).tx.txDoneTog := rfl
      rw [taken, List.append_nil, if_pos htog, Nat.add_zero]
      exact h.step_cpu fun hi => halone es i (List.prefix_refl _) hi
    | eth i =>
      have hholds : returns p s es = 0 → Holds p B (s.run p es) := fun hk =>
        hkept es (List.prefix_append es _) (by rw [hk] at h; exact h.busy)
      obtain ⟨m', k', h', hk', hle, hprog⟩ := h.step_eth hn hn' hholds (i := i)
        fun hv hr => hsteady es i (List.prefix_refl _) hv hr
      rw [hk'] at h'
      refine ⟨m', h', ?_⟩
      by_cases hr : i.txTready = true
      · have hready : readyEdges (es ++ [.eth i]) = readyEdges es + 1 := by simp [readyEdges, hr]
        have := hprog hr
        omega
      · have hready : readyEdges (es ++ [.eth i]) = readyEdges es := by simp [readyEdges, hr]
        omega

/-- A state from which the CPU may ask for a transmission: a run from reset, with the process and
its pipeline at rest. -/
structure Idle (p : Params) (s : Dma) : Prop where
  reached : ∃ s₀ es, Dma.Reset s₀ ∧ s = s₀.run p es
  txRun : s.tx.txRun = false
  tvalid : s.tx.tvalid = false
  free : s.cpu.txBusy = false

/-- The toggles of the TX side. -/
def TxRing (s : Dma) : Prop :=
  Toggle.Ring s.cpu.txTog s.tx.txGoS1 s.tx.txGoS2 s.tx.txDoneTog s.cpu.txDoneS1 s.cpu.txDoneS2

theorem TxRing.step (h : TxRing s) (ev : Event) : TxRing (s.step p ev) := by
  cases ev with
  | eth i =>
    have hdone : (s.step p (.eth i)).tx.txDoneTog = s.tx.txDoneTog ∨
        (s.step p (.eth i)).tx.txDoneTog = s.tx.txGoS2 := by
      simp only [eth_tx, Tx.clk, Tx.advance, Bool.false_eq_true, if_false]
      split_ifs <;> simp
    obtain ⟨h1, h2⟩ := eth_go p s i
    rw [TxRing, h1, h2]
    exact h.answer _ hdone
  | cpu i =>
    simp only [TxRing, Dma.step, Dma.cpuClk, Cpu.clk, Bool.false_eq_true, if_false]
    by_cases hflip : (i.txStart && !s.cpu.txBusy) = true
    · have heq : s.cpu.txTog = s.cpu.txDoneS2 := by
        have hbusy := (Bool.and_eq_true_iff.mp hflip).2
        simpa [Cpu.txBusy] using hbusy
      rw [if_pos hflip]
      exact h.flip heq
    · rw [if_neg hflip]
      exact h.back

theorem txRing_run {s₀ : Dma} (h0 : Dma.Reset s₀) (es : List Event) : TxRing (s₀.run p es) := by
  induction es using List.reverseRecOn with
  | nil =>
    obtain ⟨hgo1, hgo2⟩ := h0.txGo
    simp only [Dma.run, List.foldl_nil, TxRing, h0.cpu, hgo1, hgo2, h0.txDoneTog]
    decide
  | append_singleton es e ih =>
    rw [Dma.run_concat]
    exact ih.step e

/-- A pulse of `tx_start` when the CPU may: the request sets out. -/
theorem Idle.request (h : Idle p s) {i : CpuIn} (hi : i.txStart = true) :
    Phase p (!s.cpu.txTog) i.txLen.toNat B 0 [] 0 (s.step p (.cpu i)) := by
  have hring : TxRing s := by
    obtain ⟨s₀, es, h0, rfl⟩ := h.reached
    exact txRing_run h0 es
  have hsame : s.cpu.txTog = s.cpu.txDoneS2 := by simpa [Cpu.txBusy] using h.free
  obtain ⟨hgo1, hgo2, hdone, hdone1⟩ := hring.settled hsame
  have hflip : (i.txStart && !s.cpu.txBusy) = true := by rw [hi, h.free]; rfl
  have hcpu : (s.step p (.cpu i)).cpu.txTog = !s.cpu.txTog ∧
      (s.step p (.cpu i)).cpu.txLenQ = i.txLen ∧
      (s.step p (.cpu i)).cpu.txDoneS1 = s.tx.txDoneTog ∧
      (s.step p (.cpu i)).cpu.txDoneS2 = s.cpu.txDoneS1 := by
    simp [Dma.step, Dma.cpuClk, Cpu.clk, hflip]
  obtain ⟨htog, hlen, hs1, hs2⟩ := hcpu
  refine .waiting 0 (by decide) ⟨h.txRun, h.tvalid, htog, ?_, ?_, ?_, ?_, ?_, ?_⟩
  · rw [if_pos rfl, Bool.not_not]
    exact hgo1
  · rw [if_neg (by decide), Bool.not_not]
    exact hgo2
  · rw [Bool.not_not]
    exact hdone
  · rw [Bool.not_not, hs1]
    exact hdone
  · rw [Bool.not_not, hs2]
    exact hdone1
  · rw [hlen, BitVec.ofNat_toNat, BitVec.setWidth_eq]

theorem Phase.accepted_prefix (h : Phase p t n B m acc k s) : acc <+: expected n B := by
  cases h with
  | waiting => exact List.nil_prefix
  | running | last => exact List.take_prefix _ _
  | complete => exact List.prefix_refl _

theorem Phase.returns_le (h : Phase p t n B m acc k s) : k ≤ 1 := by
  cases h <;> decide

/-- The window is given back with the last byte on the stream, or accepted. -/
theorem Phase.read (h : Phase p t n B m acc 1 s) (hn : 1 ≤ n) :
    acc.length + s.tx.tvalid.toNat = n := by
  cases h with
  | last h hvalid hdata hlast =>
    rw [hvalid, List.length_take, length_expected, Bool.toNat_true]
    omega
  | complete h hvalid =>
    rw [hvalid, length_expected]
    rfl

theorem Phase.finished (h : Phase p t n B m acc k s) (hm : n + 6 ≤ m) :
    acc = expected n B ∧ k = 1 := by
  cases h with
  | waiting _ hj h => omega
  | running e h ht =>
    have := h.le
    omega
  | last => omega
  | complete => exact ⟨rfl, rfl⟩

/-- **eth_stream_dma transmits the frame the CPU wrote**, where the offered byte waits only as it
may. -/
theorem transmits {i : CpuIn} {es : List Event} (hidle : Idle p s) (hi : i.txStart = true)
    (hn : 1 ≤ i.txLen.toNat) (halone : Alone p (s.step p (.cpu i)) es)
    (hkept : Kept p B (s.step p (.cpu i)) es)
    (hsteady : Steady p i.txLen.toNat B (s.step p (.cpu i)) es) :
    Transmits p i.txLen.toNat B (s.step p (.cpu i)) es := by
  have hrun : ∀ {pre}, pre <+: es → ∃ m, Phase p (!s.cpu.txTog) i.txLen.toNat B m
      (accepted p (s.step p (.cpu i)) pre) (returns p (s.step p (.cpu i)) pre)
      ((s.step p (.cpu i)).run p pre) ∧
        (readyEdges pre ≤ m ∨ i.txLen.toNat + 6 ≤ m) := fun hpre =>
    phase_run hn i.txLen.isLt (hidle.request hi) (fun q j hq => halone q j (hq.trans hpre))
      (fun q hq => hkept q (hq.trans hpre)) fun q j hq => hsteady q j (hq.trans hpre)
  obtain ⟨m, h, hm⟩ := hrun (List.prefix_refl es)
  refine ⟨h.accepted_prefix, fun hready => (h.finished (by omega)).1, ?_, h.returns_le,
    fun hready => (h.finished (by omega)).2, fun hone => ?_⟩
  · intro pre j hpre hvalid hready
    obtain ⟨m', h', -⟩ := hrun ((List.prefix_append pre _).trans hpre)
    rw [Dma.run_concat]
    exact h'.stays hvalid hready (hsteady pre j hpre hvalid hready)
  · rw [hone] at h
    exact h.read hn

/-! ### Frames of the board -/

/-- An edge without a beat. -/
def edge (tready : Bool) : Event := .eth ⟨0, false, false, false, tready⟩

/-- A request for `n` bytes. -/
def request (n : BitVec 11) : CpuIn := ⟨false, n, true⟩

/-- The edges of a frame of six bytes, of which byte 1 waits for an edge and byte 3 for two. -/
def waits : List Event :=
  List.replicate 7 (edge true) ++ edge false :: List.replicate 2 (edge true) ++
    List.replicate 2 (edge false) ++ List.replicate 7 (edge true)

theorem transmits_six : Transmits defaults 6 (txByte defaults afterReset.mem)
    (afterReset.step defaults (.cpu (request 6))) waits := by
  have htake : ∀ {pre : List Event} {e : Event}, pre ++ [e] <+: waits →
      pre = waits.take pre.length ∧ pre.length < 19 := fun {pre e} h => by
    have hlen := h.length_le
    rw [List.length_append] at hlen
    exact ⟨List.prefix_iff_eq_take.mp ((List.prefix_append pre [e]).trans h), hlen⟩
  refine transmits (i := request 6) ⟨⟨afterReset, [], reset_afterReset, rfl⟩, rfl, rfl, rfl⟩ rfl
    (by decide) (fun pre i h => ?_) (fun pre h _ k _ => ?_) fun pre i h hvalid hready => ?_
  · have hmem : ∀ j, Event.cpu j ∉ waits := fun j hj => by
      simp only [waits, List.mem_append, List.mem_cons, List.mem_replicate, edge] at hj
      simp at hj
    exact absurd (h.subset (by simp)) (hmem i)
  · have hkept : ∀ j ≤ 19, ((afterReset.step defaults (.cpu (request 6))).run defaults
        (waits.take j)).mem = afterReset.mem := by
      intro j hj
      interval_cases j <;> rfl
    rw [List.prefix_iff_eq_take.mp h, hkept _ h.length_le]
  · -- the waits are on bytes 1 and 3
    have hstall : ∀ j < 19, waits[j]? = some (edge true) ∨
        (accepted defaults (afterReset.step defaults (.cpu (request 6))) (waits.take j)).length ∈
          [1, 3] := by decide
    obtain ⟨hpre, hlen⟩ := htake h
    have hget : waits[pre.length]? = some (.eth i) := by
      obtain ⟨t, ht⟩ := h
      rw [← ht, List.append_assoc, List.getElem?_append_right (le_refl _), Nat.sub_self]
      rfl
    rcases hstall pre.length hlen with hedge | hbyte
    · cases hget.symm.trans hedge
      cases hready
    · rw [← hpre] at hbyte
      have hmay : ∀ b ∈ [1, 3], MayStall 6 (txByte defaults afterReset.mem) b := by
        unfold MayStall
        decide
      exact hmay _ hbyte

/-- The last byte is offered for one edge only; and a stall on byte 2 of five puts byte 7 of the
window in the place of byte 3. -/
theorem stalled_not_transmits :
    ¬ Transmits defaults 1 (txByte defaults afterReset.mem)
        (afterReset.step defaults (.cpu (request 1))) (List.replicate 7 (edge false)) ∧
      ¬ Transmits defaults 5 (txByte defaults afterReset.mem)
        (afterReset.step defaults (.cpu (request 5)))
        (List.replicate 8 (edge true) ++ edge false :: List.replicate 3 (edge true)) := by
  refine ⟨fun h => ?_, fun h => ?_⟩
  · have hlost := (h.stays (List.replicate 6 (edge false)) _ (List.prefix_refl _) rfl rfl).1
    cases hlost
  · have hprefix := h.accepted_prefix
    revert hprefix
    decide

end EthDma
end Xc7Tools
