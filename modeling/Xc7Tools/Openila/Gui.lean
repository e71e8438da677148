/-
# openila GUI: the driver

`class Ila` of `examples/openila/gui/ila.cpp`, which drives the same gateware
as `scripts/openila.py` with bit vectors of bytes where the script has
integers. The two build the same control word (`ctlWord_toNat`) and decode a
scan of the control register alike (`decodeStatus_eq`). They read the header
of a data scan from different bits: the script cuts it out as the first word,
the GUI takes as many bits as a status has. The gateware asks for a WIDTH that
holds a status, and then they read the same (`read_eq`), as long as the number
of bits of a capture is a C++ `int`.

Key definitions: `IlaConfig`, `IlaConfig.ctlWord`, `IlaConfig.decodeStatus`, `IlaConfig.read`.
Key theorems: `ctlWord_toNat`, `decodeStatus_eq`, `read_eq`.
-/
import Mathlib.Data.List.Rotate
import Xc7Tools.Openila.Bits
import Xc7Tools.Openila.Host

namespace Xc7Tools
namespace Openila

/-- `IlaConfig`: the settings the formats depend on; a C++ `int` each, and so is
what the size of the control register is computed from (`cw() + 7`, where `aw()` is at most 31). -/
structure IlaConfig where
  width : ℕ
  depth : ℕ
  depth_lt : depth < 2 ^ 31
  width_lt : 2 * width + 47 < 2 ^ 31

/-- `IlaStatus` -/
structure IlaStatus where
  waddr : ℕ
  armed : Bool
  trig : Bool
  done : Bool
  keyOk : Bool
  deriving DecidableEq

namespace IlaConfig

/-- `int a = 0; while ((1 << a) < depth) a++;`, at most `fuel` times -/
def awLoop (depth : ℕ) : ℕ → ℕ → ℕ
  | 0, a => a
  | fuel + 1, a => if 1 <<< a < depth then awLoop depth fuel (a + 1) else a

def aw (cfg : IlaConfig) : ℕ :=
  let a := awLoop cfg.depth cfg.depth 0
  if a < 1 then 1 else a

def cw (cfg : IlaConfig) : ℕ := 2 * cfg.width + cfg.aw + 9

def ctlWord (cfg : IlaConfig) (mask value : Bits) (post : ℕ) (arm : Bool) : Bits :=
  let W := cfg.width
  let AW := cfg.aw
  let w := (List.range W).foldl (fun w i =>
    (w.set i (decide (i < mask.size) && mask.get i)).set (W + i)
      (decide (i < value.size) && value.get i)) (Bits.zeros cfg.cw)
  let w := w.put (2 * W) AW post
  let w := w.set (2 * W + AW) arm
  w.put (2 * W + AW + 1) 8 0x5A

def decodeStatus (cfg : IlaConfig) (b : Bits) (lsb : ℕ) : IlaStatus :=
  let AW := cfg.aw
  { waddr := b.field lsb AW
    armed := b.get (lsb + AW)
    trig := b.get (lsb + AW + 1)
    done := b.get (lsb + AW + 2)
    keyOk := b.field (lsb + AW + 3) 8 == 0x1A }

/-- `read` and its callback: the status, and the samples oldest first. The scan is of
`n = (D + 1) * W` bits in `(n + 7) / 8` bytes, all of them `int`: past `2 ^ 31` they overflow,
which is undefined (`none`). -/
def read (cfg : IlaConfig) (rx : Bits) : Option (IlaStatus × List Bits) :=
  let W := cfg.width
  let D := cfg.depth
  if (D + 1) * W + 7 < 2 ^ 31 then
    let st := cfg.decodeStatus rx 0
    let raw := (List.range D).map fun i => (Bits.zeros W).setAll 0 W fun k => rx.get (W * (i + 1) + k)
    some (st, (List.range D).map fun i => raw.getD ((st.waddr + i) % D) (Bits.zeros W))
  else none

/-! ### The address width -/

theorem awLoop_two_pow {AW : ℕ} : ∀ fuel a, a ≤ AW → AW ≤ a + fuel →
    awLoop (2 ^ AW) fuel a = AW
  | 0, a, h, h' => by
    rw [awLoop]
    omega
  | fuel + 1, a, h, h' => by
    have hiff : 2 ^ a < 2 ^ AW ↔ a < AW := Nat.pow_lt_pow_iff_right (by decide)
    rw [awLoop, Nat.one_shiftLeft]
    split_ifs with hlt
    · exact awLoop_two_pow fuel (a + 1) (hiff.mp hlt) (by omega)
    · rw [hiff] at hlt
      omega

/-- The GUI finds the gateware's address width. -/
theorem aw_eq {cfg : IlaConfig} {AW : ℕ} (h : 1 ≤ AW) (hd : cfg.depth = 2 ^ AW) : cfg.aw = AW := by
  have hloop : awLoop cfg.depth cfg.depth 0 = AW := by
    have hfuel : AW ≤ 2 ^ AW := Nat.lt_two_pow_self.le
    rw [hd]
    exact awLoop_two_pow _ 0 (Nat.zero_le AW) (by omega)
  simp only [aw, hloop]
  rw [if_neg (by omega)]

theorem aw_lt {cfg : IlaConfig} {AW : ℕ} (hd : cfg.depth = 2 ^ AW) : AW < 31 := by
  have h := cfg.depth_lt
  rw [hd, Nat.pow_lt_pow_iff_right (by decide)] at h
  exact h

end IlaConfig

/-- The script's object for the same gateware. -/
def IlaConfig.host (cfg : IlaConfig) : Host := ⟨cfg.width, cfg.depth⟩

theorem IlaConfig.host_AW {cfg : IlaConfig} {AW : ℕ} (h : 1 ≤ AW) (hd : cfg.depth = 2 ^ AW) :
    cfg.host.AW = AW := by
  rw [IlaConfig.host, hd]
  exact Host.AW_two_pow h cfg.width

/-! ### The control word -/

section Word

open Bits

/-- A vector gives nothing past its size. -/
theorem lt_size_and_get (x : Bits) (i : ℕ) : (decide (i < x.size) && x.get i) = x.get i := by
  by_cases h : i < x.size
  · simp [h]
  · simp [get_of_size_le (not_lt.mp h)]

/-- The loop that copies the two words side by side. -/
theorem get_copyLoop {w : Bits} {W : ℕ} (f g : ℕ → Bool) (h : 2 * W ≤ w.size) (j : ℕ) : ∀ n ≤ W,
    ((List.range n).foldl (fun w i => (w.set i (f i)).set (W + i) (g i)) w).size = w.size ∧
      ((List.range n).foldl (fun w i => (w.set i (f i)).set (W + i) (g i)) w).get j =
        if j < n then f j else if W ≤ j ∧ j < W + n then g (j - W) else w.get j
  | 0, _ => by
    refine ⟨rfl, ?_⟩
    rw [if_neg (Nat.not_lt_zero j), if_neg (by omega)]
    rfl
  | n + 1, hn => by
    obtain ⟨hsize, hget⟩ := get_copyLoop f g h j n (by omega)
    rw [List.range_succ, List.foldl_append, List.foldl_cons, List.foldl_nil]
    refine ⟨by rw [size_set, size_set, hsize], ?_⟩
    rw [get_set (by rw [size_set, hsize]; omega), get_set (by rw [hsize]; omega), hget]
    by_cases h1 : W + n = j
    · have hj : j - W = n := by omega
      rw [if_pos h1, if_neg (by omega), if_pos ⟨by omega, by omega⟩, hj]
    · by_cases h2 : n = j
      · rw [if_neg h1, if_pos h2, if_pos (by omega), h2]
      · rw [if_neg h1, if_neg h2]
        refine if_congr (by omega) rfl (if_congr (by omega) rfl rfl)

variable {cfg : IlaConfig} {AW : ℕ}

/-- The bits of the word the GUI builds. -/
theorem get_ctlWord (mask value : Bits) (post : ℕ) (arm : Bool) (j : ℕ) :
    (cfg.ctlWord mask value post arm).get j =
      if j < cfg.width then mask.get j
      else if j < 2 * cfg.width then value.get (j - cfg.width)
      else if j < 2 * cfg.width + cfg.aw then post.testBit (j - 2 * cfg.width)
      else if j = 2 * cfg.width + cfg.aw then arm
      else if j < 2 * cfg.width + cfg.aw + 9 then Nat.testBit 0x5A (j - (2 * cfg.width + cfg.aw + 1))
      else false := by
  have hz : 2 * cfg.width + cfg.aw + 9 ≤ (zeros cfg.cw).size := size_zeros cfg.cw
  obtain ⟨hsize, hcopy⟩ := get_copyLoop (w := zeros cfg.cw) (W := cfg.width)
    (fun i => decide (i < mask.size) && mask.get i) (fun i => decide (i < value.size) && value.get i)
    (by omega) j cfg.width le_rfl
  simp only [IlaConfig.ctlWord, put]
  rw [get_setAll _ _ (by simp only [size_set, size_setAll, hsize]; omega),
    get_set (by simp only [size_setAll, hsize]; omega),
    get_setAll _ _ (by rw [hsize]; omega), hcopy, get_zeros]
  simp only [lt_size_and_get]
  by_cases h1 : j < cfg.width
  · rw [if_neg (by omega), if_neg (by omega), if_neg (by omega), if_pos h1, if_pos h1]
  by_cases h2 : j < 2 * cfg.width
  · rw [if_neg (by omega), if_neg (by omega), if_neg (by omega), if_neg h1, if_pos (by omega),
      if_neg h1, if_pos h2]
  by_cases h3 : j < 2 * cfg.width + cfg.aw
  · rw [if_neg (by omega), if_neg (by omega), if_pos (by omega), if_neg h1, if_neg h2, if_pos h3]
  by_cases h4 : j = 2 * cfg.width + cfg.aw
  · rw [if_neg (by omega), if_pos h4.symm, if_neg h1, if_neg h2, if_neg h3, if_pos h4]
  by_cases h5 : j < 2 * cfg.width + cfg.aw + 9
  · rw [if_pos (by omega), if_neg h1, if_neg h2, if_neg h3, if_neg h4, if_pos h5]
  · rw [if_neg (by omega), if_neg (by omega), if_neg (by omega), if_neg h1, if_neg (by omega),
      if_neg h1, if_neg h2, if_neg h3, if_neg h4, if_neg h5]

/-- The bits of the word the script builds. -/
theorem testBit_ctlWord (o : Host) (mask value post : ℕ) (arm : Bool) (j : ℕ) :
    (o.ctlWord mask value post arm.toNat).testBit j =
      if j < o.W then mask.testBit j
      else if j < 2 * o.W then value.testBit (j - o.W)
      else if j < 2 * o.W + o.AW then post.testBit (j - 2 * o.W)
      else if j = 2 * o.W + o.AW then arm
      else if j < 2 * o.W + o.AW + 9 then Nat.testBit 0x5A (j - (2 * o.W + o.AW + 1))
      else false := by
  have harm : ∀ k, (arm.toNat).testBit k = (decide (k = 0) && arm) := fun k => by
    cases k <;> cases arm <;> simp [Nat.testBit_succ]
  have hkey : ∀ k, 8 ≤ k → Nat.testBit 0x5A k = false := fun k hk =>
    Nat.testBit_lt_two_pow (lt_of_lt_of_le (by decide) (Nat.pow_le_pow_right (by decide) hk))
  simp only [Host.ctlWord, Nat.testBit_or, Nat.testBit_shiftLeft, Nat.testBit_and,
    Nat.one_shiftLeft, Nat.testBit_two_pow_sub_one, harm]
  by_cases h1 : j < o.W
  · have f1 : ¬ o.W ≤ j := by omega
    have f2 : ¬ 2 * o.W ≤ j := by omega
    have f3 : ¬ 2 * o.W + o.AW ≤ j := by omega
    have f4 : ¬ 2 * o.W + o.AW + 1 ≤ j := by omega
    simp [h1, f1, f2, f3, f4]
  by_cases h2 : j < 2 * o.W
  · have f1 : o.W ≤ j := by omega
    have f2 : ¬ 2 * o.W ≤ j := by omega
    have f3 : ¬ 2 * o.W + o.AW ≤ j := by omega
    have f4 : ¬ 2 * o.W + o.AW + 1 ≤ j := by omega
    have f5 : j - o.W < o.W := by omega
    simp [h1, h2, f1, f2, f3, f4, f5]
  have g1 : ¬ j - o.W < o.W := by omega
  by_cases h3 : j < 2 * o.W + o.AW
  · have f2 : 2 * o.W ≤ j := by omega
    have f3 : ¬ 2 * o.W + o.AW ≤ j := by omega
    have f4 : ¬ 2 * o.W + o.AW + 1 ≤ j := by omega
    have f5 : j - 2 * o.W < o.AW := by omega
    simp [h1, h2, h3, g1, f2, f3, f4, f5]
  have g2 : ¬ j - 2 * o.W < o.AW := by omega
  by_cases h4 : j = 2 * o.W + o.AW
  · have f3 : 2 * o.W + o.AW ≤ j := h4.ge
    have f4 : ¬ 2 * o.W + o.AW + 1 ≤ j := by omega
    have f5 : j - (2 * o.W + o.AW) = 0 := by omega
    simp only [h1, h2, h3, g1, g2, f3, f4, f5, if_pos h4, decide_false, decide_true, Bool.false_and,
      Bool.and_false, Bool.false_or, Bool.true_and, Bool.or_false, if_false]
  have f3 : 2 * o.W + o.AW + 1 ≤ j := by omega
  have g3 : ¬ j - (2 * o.W + o.AW) = 0 := by omega
  simp only [h1, h2, h3, g1, g2, g3, f3, if_neg h4, decide_false, decide_true, Bool.false_and,
    Bool.and_false, Bool.false_or, Bool.true_and, if_false]
  split_ifs with h5
  · rfl
  · exact hkey _ (by omega)

/-- **The control words are one integer.** -/
theorem ctlWord_toNat (h : 1 ≤ AW) (hd : cfg.depth = 2 ^ AW) (mask value : Bits) (post : ℕ)
    (arm : Bool) : (cfg.ctlWord mask value post arm).toNat =
      cfg.host.ctlWord mask.toNat value.toNat post arm.toNat := by
  refine Nat.eq_of_testBit_eq fun j => ?_
  rw [testBit_toNat, get_ctlWord, testBit_ctlWord, IlaConfig.host_AW h hd, IlaConfig.aw_eq h hd]
  simp only [testBit_toNat]
  rfl

/-! ### The status -/

/-- The GUI's status as the script's dictionary. -/
def IlaStatus.toStatus (st : IlaStatus) : Status where
  waddr := st.waddr
  armed := st.armed.toNat
  trig := st.trig.toNat
  done := st.done.toNat
  keyOk := st.keyOk

/-- The script decodes an integer by its bits. -/
theorem Host.decodeStatus_eq (o : Host) (s : ℕ) : o.decodeStatus s =
    { waddr := s % 2 ^ o.AW
      armed := (s.testBit o.AW).toNat
      trig := (s.testBit (o.AW + 1)).toNat
      done := (s.testBit (o.AW + 2)).toNat
      keyOk := s / 2 ^ (o.AW + 3) % 2 ^ 8 == 0x1A } := by
  have hbit : ∀ k < 11, (s % 2 ^ (o.AW + 11) / 2 ^ (o.AW + k)) % 2 = (s.testBit (o.AW + k)).toNat := by
    intro k hk
    rw [← Nat.toNat_testBit, Nat.testBit_mod_two_pow]
    simp [hk]
  have hkey : s % 2 ^ (o.AW + 11) / 2 ^ (o.AW + 3) = s / 2 ^ (o.AW + 3) % 2 ^ 8 := by
    rw [show o.AW + 11 = (o.AW + 3) + 8 by omega, pow_add 2 (o.AW + 3) 8,
      Nat.mod_mul_right_div_self]
  have hwaddr : s % 2 ^ (o.AW + 11) % 2 ^ o.AW = s % 2 ^ o.AW :=
    Nat.mod_mod_of_dvd s (Nat.pow_dvd_pow 2 (by omega))
  have h0 := hbit 0 (by decide)
  simp only [Nat.add_zero] at h0
  simp only [decodeStatus, SW, Nat.one_shiftLeft, Nat.and_two_pow_sub_one_eq_mod,
    Nat.shiftRight_eq_div_pow, Nat.and_one_is_mod, hwaddr, h0, hbit 1 (by decide),
    hbit 2 (by decide), hkey]

/-- A field that fits a word, as a number. -/
theorem field_eq {x : Bits} {lsb n : ℕ} (hn : n ≤ 64) :
    x.field lsb n = x.toNat / 2 ^ lsb % 2 ^ n := by
  refine Nat.eq_of_testBit_eq fun j => ?_
  rw [testBit_field, Nat.testBit_mod_two_pow, Nat.testBit_div_two_pow, testBit_toNat,
    Nat.min_eq_left hn, Nat.add_comm]

/-- **The two decode a scan alike.** -/
theorem decodeStatus_eq (h : 1 ≤ AW) (hd : cfg.depth = 2 ^ AW) (rx : Bits) :
    (cfg.decodeStatus rx 0).toStatus = cfg.host.decodeStatus rx.toNat := by
  have hAW := IlaConfig.aw_lt hd
  rw [Host.decodeStatus_eq, IlaConfig.host_AW h hd]
  simp only [IlaStatus.toStatus, IlaConfig.decodeStatus, IlaConfig.aw_eq h hd, Nat.zero_add,
    field_eq (show AW ≤ 64 by omega), field_eq (show 8 ≤ 64 by decide), pow_zero, Nat.div_one,
    testBit_toNat]

/-! ### The capture -/

/-- A bit string's vector denotes its number. -/
theorem toNat_ofBits {n : ℕ} (v : BitVec n) : (ofBits v).toNat = v.toNat :=
  Nat.eq_of_testBit_eq fun i => by rw [testBit_toNat, get_ofBits, BitVec.testBit_toNat]

/-- A sample the GUI cuts out of a scan is the word the script does. -/
theorem toNat_sample (W i : ℕ) (rx : Bits) :
    ((zeros W).setAll 0 W fun k => rx.get (W * i + k)).toNat =
      (rx.toNat >>> (W * i)) &&& ((1 <<< W) - 1) := by
  refine Nat.eq_of_testBit_eq fun j => ?_
  have hsize : 0 + W ≤ (zeros W).size := by
    rw [Nat.zero_add]
    exact size_zeros W
  rw [testBit_toNat, get_setAll _ _ hsize, get_zeros, Nat.testBit_and, Nat.one_shiftLeft,
    Nat.testBit_two_pow_sub_one, Nat.testBit_shiftRight, testBit_toNat]
  by_cases hj : j < W <;> simp [hj]

/-- A WIDTH that holds a status: the first word decodes as the scan does. -/
theorem decodeStatus_mod {o : Host} (hW : o.AW + 11 ≤ o.W) (s : ℕ) :
    o.decodeStatus (s % 2 ^ o.W) = o.decodeStatus s := by
  have hmask : s % 2 ^ o.W % 2 ^ (o.AW + 11) = s % 2 ^ (o.AW + 11) :=
    Nat.mod_mod_of_dvd s (Nat.pow_dvd_pow 2 hW)
  simp only [Host.decodeStatus, Host.SW, Nat.one_shiftLeft, Nat.and_two_pow_sub_one_eq_mod, hmask]

/-- Reading a list from an index on, around its end, is rotating it. -/
theorem rotate_eq_map {α : Type} (l : List α) (d : α) {n : ℕ} (hn : n ≤ l.length) :
    l.drop n ++ l.take n = (List.range l.length).map fun i => l.getD ((n + i) % l.length) d := by
  rw [← List.rotate_eq_drop_append_take hn]
  refine List.ext_getElem (by simp) fun i hi hi' => ?_
  have hlen : i < l.length := by simpa using hi
  have hmod : (n + i) % l.length < l.length := Nat.mod_lt _ (by omega)
  rw [List.getElem_rotate, List.getElem_map, List.getElem_range, List.getD_eq_getElem _ _ hmod]
  congr 2
  exact Nat.add_comm i n

/-- **The two read a capture alike** where a word holds a status and an `int` the
number of bits. -/
theorem read_eq (h : 1 ≤ AW) (hd : cfg.depth = 2 ^ AW) (hW : AW + 11 ≤ cfg.width)
    (hint : (cfg.depth + 1) * cfg.width + 7 < 2 ^ 31) (rx : Bits) :
    (cfg.read rx).map (fun r => (r.1.toStatus, r.2.map Bits.toNat)) =
      some (cfg.host.read false rx.toNat) := by
  have hAW := IlaConfig.host_AW h hd
  have hst := decodeStatus_eq h hd rx
  -- the script's words: the header, and the samples
  have hhead : ((cfg.host.words rx.toNat).headD 0) = rx.toNat % 2 ^ cfg.width := by
    simp [Host.words, IlaConfig.host, List.range_succ_eq_map, Nat.one_shiftLeft,
      Nat.and_two_pow_sub_one_eq_mod]
  have htail : (cfg.host.words rx.toNat).tail =
      (List.range cfg.depth).map fun i =>
        (rx.toNat >>> (cfg.width * (i + 1))) &&& ((1 <<< cfg.width) - 1) := by
    simp [Host.words, IlaConfig.host, List.range_succ_eq_map, Function.comp_def]
  have hdec : cfg.host.decodeStatus ((cfg.host.words rx.toNat).headD 0) =
      (cfg.decodeStatus rx 0).toStatus := by
    rw [hst, hhead]
    exact decodeStatus_mod (o := cfg.host) (by rw [hAW]; exact hW) rx.toNat
  have hwaddr : (cfg.decodeStatus rx 0).toStatus.waddr ≤ cfg.depth := by
    rw [hst, Host.decodeStatus_eq, hAW, hd]
    exact (Nat.mod_lt _ (Nat.two_pow_pos AW)).le
  have hD : 0 < cfg.depth := by
    rw [hd]
    exact Nat.two_pow_pos AW
  rw [IlaConfig.read, if_pos hint]
  simp only [Host.read, hdec, Bool.false_eq_true, if_false, Option.map_some, Option.some.injEq,
    Prod.mk.injEq, true_and]
  rw [htail, rotate_eq_map _ 0 (by simpa using hwaddr), List.length_map, List.length_range,
    List.map_map]
  refine List.map_congr_left fun i hi => ?_
  have hmod : ((cfg.decodeStatus rx 0).waddr + i) % cfg.depth < cfg.depth := Nat.mod_lt _ hD
  simp only [Function.comp_apply, IlaStatus.toStatus]
  rw [List.getD_eq_getElem _ _ (by simpa using hmod), List.getD_eq_getElem _ _ (by simpa using hmod),
    List.getElem_map, List.getElem_map, List.getElem_range, toNat_sample]

end Word

end Openila
end Xc7Tools
