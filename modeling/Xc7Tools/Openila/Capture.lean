/-
# openila: the capture window

A capture of `openila.v`'s FSM, seen over a whole run. The FSM arms in cycle
`a`, looks at the samples `s_1, s_2, ...` of the cycles after it, meets its
trigger at `s_t` and stops `post` samples later. `capture_window` says what
is then in the ring: exactly `s_1 .. s_(t + post)` were stored, the trigger
sample is row `DEPTH - 1 - post` of the view the host rotates by `waddr`, and
the buffer holds until the FSM is disarmed.

The invariant is `Filling`: the FSM is armed, and the memory is the ring of
`Ring.fill` with the samples looked at so far. On top of it the run has two
phases, `Waiting` before the trigger and `Counting` after it.

Key definitions: `Held`, `stored`, `Window`.
Key theorems: `Filling.clk`, `Counting.clk`, `waiting`, `counting`, `holding`,
`capture_window`.
-/
import Mathlib.Tactic.IntervalCases
import Mathlib.Tactic.Push
import Xc7Tools.Lib.Ring
import Xc7Tools.Lib.Run
import Xc7Tools.Openila.Gateware

namespace Xc7Tools
namespace Openila

variable {W AW : ℕ}

namespace Cap

/-! ### One cycle

What `clk` does in each state of the FSM, once and for all. -/

/-- The memory takes the sample on the cycles with `we`, in any state. -/
theorem clk_mem (c : Ctl W AW) (p : BitVec W) (s : Cap W AW) :
    (s.clk c p).mem = if s.we then Function.update s.mem s.waddr s.sample else s.mem := by
  simp only [clk, apply_ite Cap.mem, ite_self]

/-- The synchroniser takes the TAP's level in, in any state. -/
theorem clk_armS (c : Ctl W AW) (p : BitVec W) (s : Cap W AW) :
    (s.clk c p).armS = s.armS.extractLsb' 0 2 ++ BitVec.ofBool c.armT := by
  simp only [clk, apply_ite Cap.armS, ite_self]

theorem clk_low (c : Ctl W AW) (p : BitVec W) {s : Cap W AW} (ha : s.arm = false) :
    (s.clk c p).armed = false ∧ (s.clk c p).trig = false ∧ (s.clk c p).done = false := by
  simp [clk, ha]

theorem clk_arm (c : Ctl W AW) (p : BitVec W) {s : Cap W AW} (ha : s.arm = true)
    (hi : s.armed = false) :
    (s.clk c p).armed = true ∧ (s.clk c p).trig = false ∧ (s.clk c p).done = false ∧
      (s.clk c p).left = c.post ∧ (s.clk c p).waddr = s.waddr := by
  simp [clk, ha, hi]

/-- An armed FSM stays armed and, until it is done, moves on by one slot. -/
theorem clk_run (c : Ctl W AW) (p : BitVec W) {s : Cap W AW} (ha : s.arm = true)
    (hi : s.armed = true) (hd : s.done = false) :
    (s.clk c p).armed = true ∧ (s.clk c p).waddr = s.waddr + 1 := by
  simp only [clk, ha, hi, hd, Bool.not_true, Bool.not_false, Bool.false_eq_true, ↓reduceIte]
  split_ifs <;> exact ⟨rfl, rfl⟩

theorem clk_wait (c : Ctl W AW) (p : BitVec W) {s : Cap W AW} (ha : s.arm = true)
    (hi : s.armed = true) (hd : s.done = false) (ht : s.trig = false) (hh : s.hit c = false) :
    (s.clk c p).trig = false ∧ (s.clk c p).done = false ∧ (s.clk c p).left = s.left := by
  simp [clk, ha, hi, hd, ht, hh]

theorem clk_hit (c : Ctl W AW) (p : BitVec W) {s : Cap W AW} (ha : s.arm = true)
    (hi : s.armed = true) (hd : s.done = false) (ht : s.trig = false) (hh : s.hit c = true) :
    (s.clk c p).trig = true ∧ (s.clk c p).done = decide (c.post = 0) ∧
      (s.clk c p).left = s.left := by
  simp [clk, ha, hi, hd, ht, hh]

/-- After the trigger the counter runs down, and its last cycle is the one
that finds it at 1. -/
theorem clk_count (c : Ctl W AW) (p : BitVec W) {s : Cap W AW} (ha : s.arm = true)
    (hi : s.armed = true) (hd : s.done = false) (ht : s.trig = true) :
    (s.clk c p).trig = true ∧ (s.clk c p).done = decide (s.left.toNat = 1) ∧
      (s.left.toNat ≠ 1 → (s.clk c p).left = s.left - 1) := by
  by_cases h1 : s.left.toNat = 1 <;> simp [clk, ha, hi, hd, ht, h1]

/-- A finished capture holds while `arm` is high. -/
theorem clk_hold (c : Ctl W AW) (p : BitVec W) {s : Cap W AW} (ha : s.arm = true)
    (hi : s.armed = true) (hd : s.done = true) :
    (s.clk c p).armed = true ∧ (s.clk c p).done = true ∧ (s.clk c p).waddr = s.waddr ∧
      (s.clk c p).mem = s.mem := by
  simp [clk, ha, hi, hd, we]

theorem hit_congr {c c' : Ctl W AW} (s : Cap W AW) (hm : c'.mask = c.mask)
    (hv : c'.value = c.value) : s.hit c' = s.hit c := by
  simp only [hit, hm, hv]

/-! ### Runs -/

/-- One cycle of `clk`: the TAP's registers and the probe are its input. -/
def cycle (s : Cap W AW) (i : Ctl W AW × BitVec W) : Cap W AW := s.clk i.1 i.2

/-- The state before cycle `n`. -/
abbrev before (inp : ℕ → Ctl W AW × BitVec W) (s : Cap W AW) (n : ℕ) : Cap W AW :=
  Run.stateAt cycle inp s n

theorem before_succ (inp : ℕ → Ctl W AW × BitVec W) (s : Cap W AW) (n : ℕ) :
    before inp s (n + 1) = (before inp s n).clk (inp n).1 (inp n).2 := rfl

/-- The synchronised level is `arm_t` three cycles ago. -/
theorem arm_at (inp : ℕ → Ctl W AW × BitVec W) (s : Cap W AW) (n : ℕ) :
    (before inp s (n + 3)).arm = (inp n).1.armT := by
  simp only [arm, before_succ, clk_armS, BitVec.getLsbD_append, BitVec.getLsbD_extractLsb',
    BitVec.getLsbD_ofBool]
  simp

/-- The samples stored in cycles `a .. a + n - 1`, oldest first. -/
def stored (inp : ℕ → Ctl W AW × BitVec W) (s : Cap W AW) (a : ℕ) : ℕ → List (BitVec W)
  | 0 => []
  | n + 1 => stored inp s a n ++
      if (before inp s (a + n)).we then [(before inp s (a + n)).sample] else []

/-- Row `r` of the view the host shows: `mem[(waddr + r) mod DEPTH]`. -/
def row (s : Cap W AW) (r : ℕ) : BitVec W := s.mem (BitVec.ofNat AW (s.waddr.toNat + r))

theorem row_eq (s : Cap W AW) (r : ℕ) : s.row r = s.mem (s.waddr + BitVec.ofNat AW r) := by
  rw [row, BitVec.ofNat_add, BitVec.ofNat_toNat, BitVec.setWidth_eq]

end Cap

open Cap

/-! ### The phases of a capture -/

/-- In the cycles `a .. a + n` the registers hold `c`'s mask, value and post,
and the synchronised arm level is high. -/
structure Held (c : Ctl W AW) (inp : ℕ → Ctl W AW × BitVec W) (s : Cap W AW) (a n : ℕ) :
    Prop where
  mask : ∀ k ≤ n, (inp (a + k)).1.mask = c.mask
  value : ∀ k ≤ n, (inp (a + k)).1.value = c.value
  post : ∀ k ≤ n, (inp (a + k)).1.post = c.post
  arm : ∀ k ≤ n, (before inp s (a + k)).arm = true

/-- The level the TAP side holds, `arm_t`, is the synchronised one three cycles
later. -/
theorem held_of_armT {c : Ctl W AW} {inp : ℕ → Ctl W AW × BitVec W} {a n : ℕ} (s : Cap W AW)
    (hmask : ∀ k ≤ n, (inp (a + 3 + k)).1.mask = c.mask)
    (hvalue : ∀ k ≤ n, (inp (a + 3 + k)).1.value = c.value)
    (hpost : ∀ k ≤ n, (inp (a + 3 + k)).1.post = c.post)
    (harm : ∀ k ≤ n, (inp (a + k)).1.armT = true) : Held c inp s (a + 3) n := by
  refine ⟨hmask, hvalue, hpost, fun k hk => ?_⟩
  have hsync : (before inp s (a + k + 3)).arm = (inp (a + k)).1.armT := arm_at inp s (a + k)
  rw [show a + 3 + k = a + k + 3 by omega, hsync]
  exact harm k hk

/-- The samples `s_1 .. s_j` of the capture that armed in cycle `a`. -/
def seen (inp : ℕ → Ctl W AW × BitVec W) (s : Cap W AW) (a j : ℕ) : List (BitVec W) :=
  (List.range j).map fun i => (before inp s (a + 1 + i)).sample

@[simp] theorem seen_length (inp : ℕ → Ctl W AW × BitVec W) (s : Cap W AW) (a j : ℕ) :
    (seen inp s a j).length = j := by simp [seen]

theorem seen_succ (inp : ℕ → Ctl W AW × BitVec W) (s : Cap W AW) (a j : ℕ) :
    seen inp s a (j + 1) = seen inp s a j ++ [(before inp s (a + 1 + j)).sample] := by
  simp [seen, List.range_succ]

/-- The FSM is armed, and since it was `s0` it stored `xs` and nothing else. -/
structure Filling (s0 : Cap W AW) (xs : List (BitVec W)) (s : Cap W AW) : Prop where
  armed : s.armed = true
  waddr : s.waddr = s0.waddr + BitVec.ofNat AW xs.length
  mem : s.mem = Ring.fill s0.mem s0.waddr xs

/-- A cycle of a running capture stores one sample. -/
theorem Filling.clk {s0 s : Cap W AW} {xs : List (BitVec W)} (h : Filling s0 xs s)
    (c : Ctl W AW) (p : BitVec W) (ha : s.arm = true) (hd : s.done = false) :
    Filling s0 (xs ++ [s.sample]) (s.clk c p) := by
  obtain ⟨h1, h2⟩ := clk_run c p ha h.armed hd
  refine ⟨h1, ?_, ?_⟩
  · rw [h2, h.waddr, List.length_append, List.length_singleton, BitVec.ofNat_add,
      BitVec.add_assoc]
    rfl
  · have hw : s.we = true := by simp [we, h.armed, hd]
    rw [clk_mem, if_pos hw, Ring.fill_concat, h.waddr, h.mem]

/-- Before the trigger: the counter still holds `post`. -/
structure Waiting (c : Ctl W AW) (s0 : Cap W AW) (xs : List (BitVec W)) (s : Cap W AW) : Prop
    extends Filling s0 xs s where
  trig : s.trig = false
  done : s.done = false
  left : s.left = c.post

/-- After the trigger with `m` samples to go: the counter holds `m`, and the
capture is done when none is left. -/
structure Counting (s0 : Cap W AW) (xs : List (BitVec W)) (m : ℕ) (s : Cap W AW) : Prop
    extends Filling s0 xs s where
  trig : s.trig = true
  done : s.done = decide (m = 0)
  left : m ≠ 0 → s.left.toNat = m

section Capture

variable {c : Ctl W AW} {inp : ℕ → Ctl W AW × BitVec W} {s : Cap W AW} {a t : ℕ}

/-- The first cycle of the capture. -/
theorem waiting_start (hidle : (before inp s a).armed = false)
    (hheld : Held c inp s a (t + c.post.toNat)) :
    Waiting c (before inp s a) (seen inp s a 0) (before inp s (a + 1)) := by
  obtain ⟨h1, h2, h3, h4, h5⟩ := clk_arm (inp a).1 (inp a).2 (hheld.arm 0 (Nat.zero_le _)) hidle
  have hp := hheld.post 0 (Nat.zero_le _)
  refine ⟨⟨h1, ?_, ?_⟩, h2, h3, h4.trans hp⟩
  · simpa [before_succ, seen] using h5
  · simp [before_succ, seen, clk_mem, we, hidle]

theorem waiting (hidle : (before inp s a).armed = false)
    (hheld : Held c inp s a (t + c.post.toNat))
    (hfirst : ∀ k, 1 ≤ k → k < t → (before inp s (a + k)).hit c = false) (j : ℕ) (hj : j < t) :
    Waiting c (before inp s a) (seen inp s a j) (before inp s (a + 1 + j)) := by
  apply Run.inv_from cycle (fun j => Waiting c (before inp s a) (seen inp s a j))
  · exact waiting_start hidle hheld
  · intro i hi ih
    have e : a + (1 + i) = a + 1 + i := by omega
    have ha := hheld.arm (1 + i) (by omega)
    have hh : (before inp s (a + 1 + i)).hit (inp (a + 1 + i)).1 = false := by
      rw [← e, hit_congr _ (hheld.mask _ (by omega)) (hheld.value _ (by omega))]
      exact hfirst _ (by omega) (by omega)
    rw [e] at ha
    obtain ⟨h1, h2, h3⟩ :=
      clk_wait (inp (a + 1 + i)).1 (inp (a + 1 + i)).2 ha ih.armed ih.done ih.trig hh
    rw [seen_succ]
    exact ⟨ih.toFilling.clk _ _ ha ih.done, h1, h2, h3.trans ih.left⟩

/-- The trigger cycle. -/
theorem counting_start (hidle : (before inp s a).armed = false) (ht : 1 ≤ t)
    (hheld : Held c inp s a (t + c.post.toNat))
    (hfirst : ∀ k, 1 ≤ k → k < t → (before inp s (a + k)).hit c = false)
    (hhit : (before inp s (a + t)).hit c = true) :
    Counting (before inp s a) (seen inp s a t) c.post.toNat (before inp s (a + 1 + t)) := by
  obtain ⟨j, rfl⟩ : ∃ j, t = j + 1 := ⟨t - 1, by omega⟩
  have hw := waiting hidle hheld hfirst j (by omega)
  have e : a + (j + 1) = a + 1 + j := by omega
  have ha := hheld.arm (j + 1) (by omega)
  have hp := hheld.post (j + 1) (by omega)
  have hh : (before inp s (a + 1 + j)).hit (inp (a + 1 + j)).1 = true := by
    rw [← e, hit_congr _ (hheld.mask _ (by omega)) (hheld.value _ (by omega))]
    exact hhit
  rw [e] at ha hp
  obtain ⟨h1, h2, h3⟩ :=
    clk_hit (inp (a + 1 + j)).1 (inp (a + 1 + j)).2 ha hw.armed hw.done hw.trig hh
  rw [seen_succ]
  refine ⟨hw.toFilling.clk _ _ ha hw.done, h1, ?_, fun _ => ?_⟩
  · rw [← Nat.add_assoc, before_succ, h2, hp]
    simp [← BitVec.toNat_inj]
  · rw [← Nat.add_assoc, before_succ, h3, hw.left]

/-- One cycle after the trigger. -/
theorem Counting.clk {s0 s : Cap W AW} {xs : List (BitVec W)} {m : ℕ} (h : Counting s0 xs m s)
    (c : Ctl W AW) (p : BitVec W) (ha : s.arm = true) (hm : m ≠ 0) :
    Counting s0 (xs ++ [s.sample]) (m - 1) (s.clk c p) := by
  have hd : s.done = false := by rw [h.done]; simp [hm]
  have hl := h.left hm
  obtain ⟨h1, h2, h3⟩ := clk_count c p ha h.armed hd h.trig
  refine ⟨h.toFilling.clk c p ha hd, h1, ?_, fun hne => ?_⟩
  · rw [h2, hl, decide_eq_decide]
    omega
  · -- two or more were left, so 1 is a value of the counter
    have hlt := s.left.isLt
    have hone : (1 : BitVec AW).toNat = 1 := by
      show 1 % 2 ^ AW = 1
      exact Nat.mod_eq_of_lt (by omega)
    rw [h3 (by omega), BitVec.toNat_sub_of_le (by rw [BitVec.le_def, hone]; omega), hl, hone]

/-- The trigger cycle and the `post` cycles after it. -/
theorem counting (hidle : (before inp s a).armed = false) (ht : 1 ≤ t)
    (hheld : Held c inp s a (t + c.post.toNat))
    (hfirst : ∀ k, 1 ≤ k → k < t → (before inp s (a + k)).hit c = false)
    (hhit : (before inp s (a + t)).hit c = true) (i : ℕ) (hi : i ≤ c.post.toNat) :
    Counting (before inp s a) (seen inp s a (t + i)) (c.post.toNat - i)
      (before inp s (a + 1 + (t + i))) := by
  rw [← Nat.add_assoc (a + 1) t i]
  apply Run.inv_from cycle
    (fun i => Counting (before inp s a) (seen inp s a (t + i)) (c.post.toNat - i))
  · exact counting_start hidle ht hheld hfirst hhit
  · intro i' hi' ih
    have e : a + (1 + (t + i')) = a + 1 + t + i' := by omega
    have ha := hheld.arm (1 + (t + i')) (by omega)
    rw [e] at ha
    have hseen : seen inp s a (t + (i' + 1)) =
        seen inp s a (t + i') ++ [(before inp s (a + 1 + t + i')).sample] := by
      rw [← Nat.add_assoc t i' 1, seen_succ, ← Nat.add_assoc (a + 1) t i']
    rw [hseen, Nat.sub_add_eq]
    exact ih.clk _ _ ha (by omega)

/-- Every cycle from `s_1` to `s_(t + post)` is one of a running capture. -/
theorem running (hidle : (before inp s a).armed = false) (ht : 1 ≤ t)
    (hheld : Held c inp s a (t + c.post.toNat))
    (hfirst : ∀ k, 1 ≤ k → k < t → (before inp s (a + k)).hit c = false)
    (hhit : (before inp s (a + t)).hit c = true) (n : ℕ) (hn : n < t + c.post.toNat) :
    (before inp s (a + 1 + n)).armed = true ∧ (before inp s (a + 1 + n)).done = false := by
  rcases Nat.lt_or_ge n t with hlt | hge
  · have hw := waiting hidle hheld hfirst n hlt
    exact ⟨hw.armed, hw.done⟩
  · obtain ⟨i, rfl⟩ := Nat.exists_eq_add_of_le hge
    have hc := counting hidle ht hheld hfirst hhit i (by omega)
    refine ⟨hc.armed, ?_⟩
    rw [hc.done, decide_eq_false_iff_not]
    omega

/-- A finished capture, with the memory and `waddr` of `s0`. -/
structure Finished (s0 s : Cap W AW) : Prop where
  armed : s.armed = true
  done : s.done = true
  waddr : s.waddr = s0.waddr
  mem : s.mem = s0.mem

/-- A finished capture holds as long as `arm` is high. -/
theorem holding {e : ℕ} (hi : (before inp s e).armed = true) (hd : (before inp s e).done = true)
    (n : ℕ) (harm : ∀ i < n, (before inp s (e + i)).arm = true) :
    Finished (before inp s e) (before inp s (e + n)) := by
  apply Run.inv_from cycle (fun _ => Finished (before inp s e))
  · exact ⟨hi, hd, rfl, rfl⟩
  · intro i hlt ih
    obtain ⟨h1, h2, h3, h4⟩ :=
      clk_hold (inp (e + i)).1 (inp (e + i)).2 (harm i hlt) ih.armed ih.done
    exact ⟨h1, h2, h3.trans ih.waddr, h4.trans ih.mem⟩

theorem stored_running (hidle : (before inp s a).armed = false) : ∀ n,
    (∀ i < n, (before inp s (a + 1 + i)).we = true) → stored inp s a (1 + n) = seen inp s a n
  | 0, _ => by simp [stored, seen, we, hidle]
  | n + 1, h => by
    rw [← Nat.add_assoc 1 n 1, stored, stored_running hidle n fun i hi => h i (by omega),
      seen_succ, ← Nat.add_assoc a 1 n, if_pos (h n (by omega))]

theorem stored_add (m : ℕ) : ∀ n, (∀ i < n, (before inp s (a + (m + i))).we = false) →
    stored inp s a (m + n) = stored inp s a m
  | 0, _ => rfl
  | n + 1, h => by
    rw [← Nat.add_assoc, stored, h n (by omega), stored_add m n fun i hi => h i (by omega)]
    simp

end Capture

/-! ### The window -/

/-- What a capture with the trigger at `s_t` leaves behind, `s_k` being the
sample of cycle `a + k`. It is over in cycle `a + t + post + 1`. -/
structure Window (c : Ctl W AW) (inp : ℕ → Ctl W AW × BitVec W) (s : Cap W AW) (a t : ℕ) :
    Prop where
  /-- `s_k` is the sample of the `k`-th cycle with `armed && !done`. -/
  cycles : ∀ k, 1 ≤ k → k ≤ t + c.post.toNat → (before inp s (a + k)).we = true
  /-- Exactly `s_1 .. s_(t + post)` are stored until the FSM is disarmed. -/
  exact : ∀ n, (∀ i < n, (before inp s (a + t + c.post.toNat + 1 + i)).arm = true) →
    stored inp s a (t + c.post.toNat + 1 + n) = seen inp s a (t + c.post.toNat)
  notDone : ∀ k, 1 ≤ k → k ≤ t + c.post.toNat → (before inp s (a + k)).done = false
  done : (before inp s (a + t + c.post.toNat + 1)).done = true
  row : ∀ k : ℤ, -(min ((t : ℤ) - 1) (2 ^ AW - 1 - c.post.toNat)) ≤ k → k ≤ c.post.toNat →
    (before inp s (a + t + c.post.toNat + 1)).row (2 ^ AW - 1 - c.post.toNat + k).toNat =
      (before inp s (a + (t + k).toNat)).sample
  hold : ∀ n, (∀ i < n, (before inp s (a + t + c.post.toNat + 1 + i)).arm = true) →
    (before inp s (a + t + c.post.toNat + 1 + n)).mem =
        (before inp s (a + t + c.post.toNat + 1)).mem ∧
      (before inp s (a + t + c.post.toNat + 1 + n)).waddr =
        (before inp s (a + t + c.post.toNat + 1)).waddr

/-- Row `r` of a ring that has taken `n` samples is sample `j` (from 0) when
`r + n = j + DEPTH`. -/
theorem row_of_fill {s : Cap W AW} {m : BitVec AW → BitVec W} {a : BitVec AW}
    {xs : List (BitVec W)} (hwaddr : s.waddr = a + BitVec.ofNat AW xs.length)
    (hmem : s.mem = Ring.fill m a xs) {r j : ℕ} (hj : j < xs.length)
    (hr : r + xs.length = j + 2 ^ AW) : s.row r = xs[j] := by
  have hturn : BitVec.ofNat AW (2 ^ AW) = BitVec.ofNat AW 0 :=
    BitVec.eq_of_toNat_eq
      (by rw [BitVec.toNat_ofNat, BitVec.toNat_ofNat, Nat.mod_self, Nat.zero_mod])
  have hslot : s.waddr + BitVec.ofNat AW r = a + BitVec.ofNat AW j := by
    rw [hwaddr, BitVec.add_assoc, ← BitVec.ofNat_add, Nat.add_comm, hr, BitVec.ofNat_add, hturn,
      BitVec.add_zero]
  rw [Cap.row_eq, hslot, hmem]
  exact Ring.fill_get m a xs j hj (by omega)

theorem row_fill {s0 s : Cap W AW} {xs : List (BitVec W)} (h : Filling s0 xs s) {r j : ℕ}
    (hj : j < xs.length) (hr : r + xs.length = j + 2 ^ AW) : s.row r = xs[j] :=
  row_of_fill h.waddr h.mem hj hr

/-- **The capture window.** From any state, whatever its `waddr` and memory:
if the FSM arms in cycle `a`, the registers and the arm level are held until
the capture is over, and `s_t` is the first sample that meets the trigger,
then the ring holds the window of `post` samples after it. -/
theorem capture_window (c : Ctl W AW) (inp : ℕ → Ctl W AW × BitVec W) (s : Cap W AW) (a t : ℕ)
    (hidle : (before inp s a).armed = false) (ht : 1 ≤ t)
    (hheld : Held c inp s a (t + c.post.toNat))
    (hfirst : ∀ k, 1 ≤ k → k < t → (before inp s (a + k)).hit c = false)
    (hhit : (before inp s (a + t)).hit c = true) : Window c inp s a t := by
  have hrun := running hidle ht hheld hfirst hhit
  have hend := counting hidle ht hheld hfirst hhit c.post.toNat le_rfl
  have hlen : c.post.toNat < 2 ^ AW := c.post.isLt
  have e : a + 1 + (t + c.post.toNat) = a + t + c.post.toNat + 1 := by omega
  have e1 : ∀ k, 1 ≤ k → a + k = a + 1 + (k - 1) := fun k _ => by omega
  rw [e] at hend
  have hdone : (before inp s (a + t + c.post.toNat + 1)).done = true := by rw [hend.done]; simp
  have hhold := holding hend.armed hdone
  have hwe : ∀ n < t + c.post.toNat, (before inp s (a + 1 + n)).we = true := fun n hn => by
    simp [we, hrun n hn]
  refine ⟨fun k h1 h2 => ?_, fun n hn => ?_, fun k h1 h2 => ?_, hdone, fun k h1 h2 => ?_,
    fun n hn => ⟨(hhold n hn).mem, (hhold n hn).waddr⟩⟩
  · rw [e1 k h1]; exact hwe _ (by omega)
  · rw [stored_add _ n fun i hi => ?_, Nat.add_comm _ 1, stored_running hidle _ hwe]
    have := hhold i fun j hj => hn j (by omega)
    rw [show a + (t + c.post.toNat + 1 + i) = a + t + c.post.toNat + 1 + i by omega]
    simp [we, this.done]
  · rw [e1 k h1]; exact (hrun _ (by omega)).2
  · -- sample `j` counted from 0, in the list of the samples stored
    have hD : ((2 ^ AW : ℕ) : ℤ) = 2 ^ AW := by push_cast; rfl
    obtain ⟨j, hj⟩ : ∃ j : ℕ, (t : ℤ) + k = j + 1 := ⟨(t + k - 1).toNat, by omega⟩
    have hjlt : j < (seen inp s a (t + c.post.toNat)).length := by rw [seen_length]; omega
    rw [row_fill hend.toFilling (r := (2 ^ AW - 1 - c.post.toNat + k).toNat) hjlt
      (by rw [seen_length]; omega), hj]
    simp only [seen, List.getElem_map, List.getElem_range]
    congr 2
    omega

/-- A capture of four-bit samples in a ring of four: triggered by the second
sample, one sample kept after it. -/
theorem capture_window_instance :
    Window (⟨0xF#4, 8#4, 1#2, true⟩ : Ctl 4 2)
      (fun n => (⟨0xF#4, 8#4, 1#2, true⟩, BitVec.ofNat 4 (7 + n)))
      ⟨7#4, 7#3, false, false, false, 3#2, 0#2, fun _ => 0#4⟩ 0 2 := by
  refine capture_window _ _ _ 0 2 (by decide) (by decide)
    ⟨fun _ _ => rfl, fun _ _ => rfl, fun _ _ => rfl, fun k hk => ?_⟩ (fun k h1 h2 => ?_) (by decide)
  · have : k ≤ 3 := hk
    interval_cases k <;> decide
  · interval_cases k; decide

end Openila
end Xc7Tools
