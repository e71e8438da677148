/-
# eth_pkt_buf256: filling and draining

What a packet buffer holds while a frame is written to it, and what it still
holds of a frame while that is read: a write changes one address, so a frame
that is being read is safe from writes behind the read address.

Key definitions: `HoldsFrom`, `Handed`, `PktBuf.Filled`.
Key theorems: `PktBuf.clk_fill`, `HoldsFrom.write`, `PktBuf.Filled.fill`.
-/
import Xc7Tools.EthGmii.Gateware

namespace Xc7Tools
namespace EthGmii

/-- The bytes of a frame from byte `j` on are in the memory, at their own addresses. -/
def HoldsFrom (mem : BitVec 11 → BitVec 9) (f : List (BitVec 8)) (j : ℕ) : Prop :=
  ∀ k, j ≤ k → k < f.length → f[k]? = some ((mem (BitVec.ofNat 11 k)).setWidth 8)

/-- Addresses of the buffer are distinct. -/
theorem ofNat_inj {i j : ℕ} (hi : i < 2048) (hj : j < 2048)
    (h : BitVec.ofNat 11 i = BitVec.ofNat 11 j) : i = j := by
  have := congrArg BitVec.toNat h
  rw [BitVec.toNat_ofNat, BitVec.toNat_ofNat] at this
  omega

theorem ofNat_succ (n : ℕ) : BitVec.ofNat 11 n + 1 = BitVec.ofNat 11 (n + 1) := by
  rw [BitVec.ofNat_add]
  rfl

/-- The end of a burst: `raddr + 1'b1 >= n`. -/
theorem succ_ge_iff {j n : ℕ} (hj : j < n) (hn : n ≤ 2047) :
    BitVec.ofNat 11 j + 1 ≥ BitVec.ofNat 11 n ↔ n ≤ j + 1 := by
  rw [ofNat_succ, ge_iff_le, BitVec.le_def, BitVec.toNat_ofNat, BitVec.toNat_ofNat,
    Nat.mod_eq_of_lt (show n < 2048 by omega), Nat.mod_eq_of_lt (show j + 1 < 2048 by omega)]

variable {mem : BitVec 11 → BitVec 9} {f : List (BitVec 8)} {j : ℕ}

theorem HoldsFrom.mono (h : HoldsFrom mem f j) {i : ℕ} (hij : j ≤ i) : HoldsFrom mem f i :=
  fun k hk hlen => h k (hij.trans hk) hlen

/-- A write behind byte `j` leaves the bytes from `j` on. -/
theorem HoldsFrom.write (h : HoldsFrom mem f j) (hf : f.length ≤ 2047) {a : ℕ} (ha : a < j)
    (v : BitVec 9) : HoldsFrom (Function.update mem (BitVec.ofNat 11 a) v) f j := by
  intro k hk hlen
  have hne : BitVec.ofNat 11 k ≠ BitVec.ofNat 11 a := by
    intro he
    have := ofNat_inj (by omega) (by omega) he
    omega
  rw [Function.update_of_ne hne]
  exact h k hk hlen

/-- A write at the end of a frame adds a byte to it. -/
theorem HoldsFrom.append (h : HoldsFrom mem f 0) (hf : f.length < 2047) (d : BitVec 8) :
    HoldsFrom (Function.update mem (BitVec.ofNat 11 f.length) (d.setWidth 9)) (f ++ [d]) 0 := by
  intro k _ hlen
  rw [List.length_append, List.length_singleton] at hlen
  by_cases hk : k = f.length
  · subst hk
    rw [Function.update_self, List.getElem?_append_right (Nat.le_refl _), Nat.sub_self]
    exact congrArg some (by simp)
  · have hlt : k < f.length := by omega
    have hne : BitVec.ofNat 11 k ≠ BitVec.ofNat 11 f.length := by
      intro he
      exact hk (ofNat_inj (by omega) (by omega) he)
    rw [Function.update_of_ne hne, List.getElem?_append_left hlt]
    exact h k (Nat.zero_le k) hlt

/-- The reader goes on while there is a byte after the one at its address. -/
theorem still_reading {r n : BitVec 11} (hr : r = BitVec.ofNat 11 j)
    (hn : n = BitVec.ofNat 11 f.length) (hj : j < f.length) (hf : f.length ≤ 2047) :
    (!decide (r + 1 ≥ n)) = decide (j + 1 < f.length) := by
  have hend : r + 1 ≥ n ↔ f.length ≤ j + 1 := by
    rw [hr, hn]
    exact succ_ge_iff hj hf
  rw [decide_eq_decide.mpr hend, ← decide_not]
  exact decide_eq_decide.mpr not_le

/-- A frame that has been handed over: its length, and its bytes. -/
structure Handed (len : BitVec 11) (mem : BitVec 11 → BitVec 9) (f : List (BitVec 8)) : Prop where
  pos : 1 ≤ f.length
  length : f.length ≤ 2047
  len : len = BitVec.ofNat 11 f.length
  holds : HoldsFrom mem f 0

theorem Handed.len_toNat {len : BitVec 11} (h : Handed len mem f) : len.toNat = f.length := by
  have hlen := h.length
  rw [h.len, BitVec.toNat_ofNat, Nat.mod_eq_of_lt (by omega)]

/-- The bytes of a frame that have been read, and the next one. -/
theorem take_concat {α : Type*} {l : List α} {n : ℕ} {a : α} (hn : 1 ≤ n)
    (ha : l[n - 1]? = some a) : l.take (n - 1) ++ [a] = l.take n := by
  calc l.take (n - 1) ++ [a] = l.take (n - 1) ++ l[n - 1]?.toList := by rw [ha]; rfl
    _ = l.take (n - 1 + 1) := List.take_add_one.symm
    _ = l.take n := by rw [Nat.sub_add_cancel hn]

namespace PktBuf

/-- The buffer while a frame is written: so many bytes, at their addresses. -/
structure Filled (s : PktBuf) (f : List (BitVec 8)) : Prop where
  waddr : s.waddr = BitVec.ofNat 11 f.length
  wrCount : s.wrCount = BitVec.ofNat 11 f.length
  holds : HoldsFrom s.mem f 0

variable {s : PktBuf}

theorem Filled.handed (h : s.Filled f) (hnil : f ≠ []) (hlen : f.length ≤ 2047) :
    Handed s.wrCount s.mem f := ⟨List.length_pos_of_ne_nil hnil, hlen, h.wrCount, h.holds⟩

/-- An edge on which nothing is written. -/
theorem clk_idle (d : BitVec 8) : s.clk false false false d = s := rfl

/-- The two clocks at one time: what is read was there before. -/
theorem clk_rdClk (rst wrStart wrEn : Bool) (d : BitVec 8) (a : BitVec 11) :
    (s.rdClk a).clk rst wrStart wrEn d =
      { s.clk rst wrStart wrEn d with rdQ := (s.rdClk a).rdQ } := by
  have hroom : (s.rdClk a).wrRoom wrStart = s.wrRoom wrStart := rfl
  unfold clk
  rw [hroom]
  cases wrEn && s.wrRoom wrStart <;> cases rst <;> cases wrStart <;> rfl

theorem clk_rdQ (rst wrStart wrEn : Bool) (d : BitVec 8) :
    (s.clk rst wrStart wrEn d).rdQ = s.rdQ := by
  unfold clk
  cases wrEn && s.wrRoom wrStart <;> cases rst <;> cases wrStart <;> rfl

/-- **A byte is written**; the first one rewinds the buffer. -/
theorem clk_fill (h : f ≠ [] → s.Filled f) (hf : f.length < 2047) (d : BitVec 8) :
    s.clk false (decide (f = [])) true d =
      { s with
        waddr := BitVec.ofNat 11 (f.length + 1)
        wrCount := BitVec.ofNat 11 (f.length + 1)
        mem := Function.update s.mem (BitVec.ofNat 11 f.length) (d.setWidth 9) } := by
  by_cases hnil : f = []
  · subst hnil
    rfl
  · obtain ⟨hw, hc, -⟩ := h hnil
    have hroom : s.wrRoom false = true := by
      unfold wrRoom
      rw [Bool.false_or, bne_iff_ne, hc]
      intro he
      have := ofNat_inj (show f.length < 2048 by omega) (show 2047 < 2048 by omega) he
      omega
    unfold clk
    rw [decide_eq_false hnil]
    simp only [hroom, waddrEff, hw, hc, ofNat_succ, Bool.and_true, Bool.false_eq_true, if_true,
      if_false]

/-- The buffer after it. -/
theorem Filled.fill (h : f ≠ [] → s.Filled f) (hf : f.length < 2047) (d : BitVec 8) :
    (s.clk false (decide (f = [])) true d).Filled (f ++ [d]) := by
  rw [clk_fill h hf]
  have hlen : (f ++ [d]).length = f.length + 1 := by simp
  refine ⟨by rw [hlen], by rw [hlen], HoldsFrom.append ?_ hf d⟩
  intro k hk hlt
  by_cases hnil : f = []
  · subst hnil
    exact absurd hlt (Nat.not_lt_zero k)
  · exact (h hnil).holds k hk hlt

/-- The byte that an edge of `rd_clk` reads. -/
theorem rdData_rdClk (h : HoldsFrom s.mem f j) (hj : j < f.length) :
    f[j]? = some (s.rdClk (BitVec.ofNat 11 j)).rdData := h j (Nat.le_refl j) hj

end PktBuf
end EthGmii
end Xc7Tools
