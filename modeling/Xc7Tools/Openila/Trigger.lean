/-
# openila GUI: the trigger word

`MainWindow::triggerWord` reads a condition on each signal, a hexadecimal text
in a cell of the trigger table, and sets the signal's bits in the mask and in
the value that the gateware compares a sample with. It shifts a 64-bit number
once for each bit of the signal, and a shift by 64 places or more is undefined:
such a bit is a parameter here. The word means what the conditions say whatever
those bits come out as, exactly when no condition is put on a signal of more
than 64 bits (`means_iff`).

Key definitions: `MainWindow.triggerWord`, `MainWindow.Holds`, `MainWindow.Means`.
Key theorems: `agrees_setBits`, `MainWindow.triggerWord_eq`, `MainWindow.means_iff`.
-/
import Xc7Tools.Lib.Pick
import Xc7Tools.Openila.Bits
import Xc7Tools.Openila.Condition
import Xc7Tools.Openila.Gateware

namespace Xc7Tools
namespace Openila

open Str

/-! ### Mask and value -/

/-- `mask.set(k, true); value.set(k, v)` -/
def setBit (mv : Bits × Bits) (p : ℕ × Bool) : Bits × Bits := (mv.1.set p.1 true, mv.2.set p.1 p.2)

/-- The sample has the value's bit wherever the mask is set. -/
def Agrees {W : ℕ} (mv : Bits × Bits) (s : BitVec W) : Prop :=
  ∀ j < W, mv.1.get j = true → s.getLsbD j = mv.2.get j

/-- A bit vector, as the word that goes into the control register. -/
def Bits.word (W : ℕ) (x : Bits) : BitVec W := BitVec.ofNat W x.toNat

/-- The gateware's comparison. -/
theorem hit_iff {W AW : ℕ} {mv : Bits × Bits} {c : Ctl W AW} {s : Cap W AW}
    (hm : c.mask = mv.1.word W) (hv : c.value = mv.2.word W) :
    s.hit c = true ↔ Agrees mv s.sample := by
  have hword : ∀ (x : Bits) (j), (x.word W).getLsbD j = (decide (j < W) && x.get j) := fun x j => by
    rw [Bits.word, BitVec.getLsbD_ofNat, Bits.testBit_toNat]
  unfold Cap.hit
  rw [beq_iff_eq, hm, hv]
  constructor
  · intro h j hj hmask
    have hbit : (s.sample &&& mv.1.word W).getLsbD j = (mv.2.word W &&& mv.1.word W).getLsbD j :=
      congrArg (fun x => x.getLsbD j) h
    rw [BitVec.getLsbD_and, BitVec.getLsbD_and, hword, hword, decide_eq_true hj, hmask] at hbit
    simpa only [Bool.and_true, Bool.true_and] using hbit
  · intro h
    apply BitVec.eq_of_getLsbD_eq
    intro j hj
    have hbit := h j hj
    rw [BitVec.getLsbD_and, BitVec.getLsbD_and, hword, hword, decide_eq_true hj, Bool.true_and,
      Bool.true_and]
    cases hmask : mv.1.get j with
    | false => rw [Bool.and_false, Bool.and_false]
    | true => rw [hbit hmask]

/-- One more bit of the word is one more condition on a sample. -/
theorem agrees_setBit {W : ℕ} {mv : Bits × Bits} {p : ℕ × Bool} (hm : W ≤ mv.1.size)
    (hv : W ≤ mv.2.size) (hp : p.1 < W) (hfresh : mv.1.get p.1 = false) (s : BitVec W) :
    Agrees (setBit mv p) s ↔ s.getLsbD p.1 = p.2 ∧ Agrees mv s := by
  have hget : ∀ j, (setBit mv p).1.get j = (if p.1 = j then true else mv.1.get j) ∧
      (setBit mv p).2.get j = if p.1 = j then p.2 else mv.2.get j := fun j =>
    ⟨Bits.get_set (hp.trans_le hm) _ j, Bits.get_set (hp.trans_le hv) _ j⟩
  constructor
  · intro h
    constructor
    · have hbit := h p.1 hp
      rw [(hget p.1).1, (hget p.1).2, if_pos rfl, if_pos rfl] at hbit
      exact hbit rfl
    · intro j hj hmask
      have hne : p.1 ≠ j := by
        rintro rfl
        rw [hfresh] at hmask
        exact Bool.false_ne_true hmask
      have hbit := h j hj
      rw [(hget j).1, (hget j).2, if_neg hne, if_neg hne] at hbit
      exact hbit hmask
  · rintro ⟨hbit, h⟩ j hj hmask
    rw [(hget j).1] at hmask
    rw [(hget j).2]
    by_cases heq : p.1 = j
    · rw [if_pos heq, ← heq, hbit]
    · rw [if_neg heq] at hmask ⊢
      exact h j hj hmask

theorem agrees_setBits {W : ℕ} (s : BitVec W) : ∀ (ps : List (ℕ × Bool)) (mv : Bits × Bits),
    W ≤ mv.1.size → W ≤ mv.2.size → (∀ p ∈ ps, p.1 < W) → (ps.map Prod.fst).Nodup →
    (∀ p ∈ ps, mv.1.get p.1 = false) →
    (Agrees (ps.foldl setBit mv) s ↔ (∀ p ∈ ps, s.getLsbD p.1 = p.2) ∧ Agrees mv s)
  | [], mv, _, _, _, _, _ => by simp
  | p :: ps, mv, hm, hv, hlt, hnodup, hfresh => by
    obtain ⟨hnotMem, hnodup⟩ := List.nodup_cons.mp hnodup
    have hp : p.1 < W := hlt p List.mem_cons_self
    have hfresh' : ∀ q ∈ ps, (setBit mv p).1.get q.1 = false := by
      intro q hq
      have hne : p.1 ≠ q.1 := fun h => hnotMem (h ▸ List.mem_map_of_mem hq)
      unfold setBit
      rw [Bits.get_set (hp.trans_le hm), if_neg hne]
      exact hfresh q (List.mem_cons_of_mem _ hq)
    have ih := agrees_setBits s ps (setBit mv p) (by simpa [setBit] using hm)
      (by simpa [setBit] using hv) (fun q hq => hlt q (List.mem_cons_of_mem _ hq)) hnodup hfresh'
    rw [List.foldl_cons, ih, agrees_setBit hm hv hp (hfresh p List.mem_cons_self),
      List.forall_mem_cons, and_left_comm, and_assoc]

/-- On an empty word there is no condition. -/
theorem agrees_zeros {W : ℕ} (s : BitVec W) : Agrees (Bits.zeros W, Bits.zeros W) s := by
  intro j _ hmask
  rw [Bits.get_zeros] at hmask
  exact absurd hmask Bool.false_ne_true

namespace MainWindow

/-! ### The loop -/

/-- `err`: which of the two it is, and what its places are filled with. -/
inductive TriggerError where
  /-- "%1: '%2' is not x, 0/1 or a hex value" -/
  | notHex (name c : Str)
  /-- "%1: %2 does not fit in %3 bits" -/
  | doesNotFit (name c : Str) (bits : ℕ)

/-- `(v >> i) & 1` of a `quint64`: from 64 places on it is undefined, and `ub` is what comes out. -/
def shiftedBit (ub : ℕ → ℕ → Bool) (v i : ℕ) : Bool := if i < 64 then v.testBit i else ub v i

/-- The bits a signal of the value `v` sets: `bits[i]` to `(v >> i) & 1`. -/
def rowBits (ub : ℕ → ℕ → Bool) (v : ℕ) (bits : List ℕ) : List (ℕ × Bool) :=
  bits.zipIdx.map fun p => (p.1, shiftedBit ub v p.2)

/-- A signal with the item in its third column. -/
abbrev Row := Signal × Option Str

/-- The body of the loop. -/
def triggerRow (ub : ℕ → ℕ → Bool) (mv : Bits × Bits) (r : Row) :
    Except TriggerError (Bits × Bits) :=
  let c := condition r.2
  if anyValue c then .ok mv
  else
    let c := dropHexPrefix c
    match toULongLong16 c with
    | none => .error (.notHex r.1.name c)
    | some v =>
      let bits := r.1.bits
      if bits.length < 64 ∧ v >>> bits.length ≠ 0 then .error (.doesNotFit r.1.name c bits.length)
      else .ok ((rowBits ub v bits).foldl setBit mv)

/-- `triggerWord(mask, value, err)` -/
def triggerWord (ub : ℕ → ℕ → Bool) (W : ℕ) (rows : List Row) : Except TriggerError (Bits × Bits) :=
  rows.foldlM (triggerRow ub) (Bits.zeros W, Bits.zeros W)

/-! ### What is asked for -/

/-- The row has a condition. -/
def Asks (r : Row) : Prop := anyValue (condition r.2) = false

/-- In the sample, the signal has the value its text denotes if it has a condition. -/
def Holds {W : ℕ} (s : BitVec W) (r : Row) : Prop :=
  Asks r → Denotes (condition r.2) (pick s.getLsbD r.1.bits)

/-- The word means what was asked for, and a value that does not fit its signal is refused. -/
structure Means (ub : ℕ → ℕ → Bool) (W : ℕ) (rows : List Row) : Prop where
  hit : ∀ mv, triggerWord ub W rows = .ok mv → ∀ (AW : ℕ) (c : Ctl W AW) (s : Cap W AW),
    c.mask = mv.1.word W → c.value = mv.2.word W →
    (s.hit c = true ↔ ∀ r ∈ rows, Holds s.sample r)
  refused : ∀ r ∈ rows, Asks r → ∀ v, Denotes (condition r.2) v → 2 ^ r.1.bits.length ≤ v →
    ∀ mv, triggerWord ub W rows ≠ .ok mv

/-- The signals' bits are different ones of the probe. -/
structure Placed (W : ℕ) (rows : List Row) : Prop where
  nodup : (rows.flatMap fun r => r.1.bits).Nodup
  lt : ∀ k ∈ rows.flatMap fun r => r.1.bits, k < W

/-- The text of a row with a condition is a number of 64 bits that fits the signal. -/
def Accepted (r : Row) : Prop :=
  Asks r → ∃ v, Denotes (condition r.2) v ∧ v < 2 ^ 64 ∧ v < 2 ^ r.1.bits.length

/-! ### The word -/

/-- The value read from the row's text. -/
def denoted (r : Row) : Option ℕ := hexNumber (dropHexPrefix (condition r.2))

theorem denoted_eq_some {r : Row} {v : ℕ} : denoted r = some v ↔ Denotes (condition r.2) v := denotes_iff

/-- The bits a row sets, if its text is a number. -/
def assigned (ub : ℕ → ℕ → Bool) (r : Row) : List (ℕ × Bool) :=
  if anyValue (condition r.2) then [] else ((denoted r).map fun v => rowBits ub v r.1.bits).getD []

/-- An accepted row sets its bits. -/
theorem triggerRow_of_accepted {ub : ℕ → ℕ → Bool} {r : Row} (h : Accepted r) (mv : Bits × Bits) :
    triggerRow ub mv r = .ok ((assigned ub r).foldl setBit mv) := by
  unfold triggerRow assigned
  by_cases hany : anyValue (condition r.2) = true
  · rw [if_pos hany, if_pos hany]
    rfl
  · obtain ⟨v, hv, h64, hfit⟩ := h (Bool.eq_false_of_not_eq_true hany)
    rw [← denoted_eq_some] at hv
    have hread : toULongLong16 (dropHexPrefix (condition r.2)) = some v := by
      unfold denoted at hv
      rw [toULongLong16, hv, Option.filter_some, if_pos (by simpa using h64)]
    have hshift : ¬(r.1.bits.length < 64 ∧ v >>> r.1.bits.length ≠ 0) := by
      rintro ⟨_, hne⟩
      rw [Nat.shiftRight_eq_div_pow, Nat.div_eq_of_lt hfit] at hne
      exact hne rfl
    simp only [if_neg hany, hread, if_neg hshift, hv, Option.map_some, Option.getD_some]

/-- And one that is not accepted ends the loop. -/
theorem triggerRow_of_not_accepted {ub : ℕ → ℕ → Bool} {r : Row} (h : ¬ Accepted r)
    (mv mv' : Bits × Bits) : triggerRow ub mv r ≠ .ok mv' := by
  intro hrow
  apply h
  intro hasks
  unfold triggerRow at hrow
  rw [if_neg (by rw [hasks]; exact Bool.false_ne_true)] at hrow
  cases hread : toULongLong16 (dropHexPrefix (condition r.2)) with
  | none => simp only [hread, reduceCtorEq] at hrow
  | some v =>
    obtain ⟨hv, h64⟩ := Option.filter_eq_some_iff.mp hread
    have h64 : v < 2 ^ 64 := of_decide_eq_true h64
    refine ⟨v, denotes_iff.mp hv, h64, ?_⟩
    by_contra hfit
    have hlen : r.1.bits.length < 64 := by
      by_contra hge
      exact hfit (h64.trans_le (Nat.pow_le_pow_right two_pos (not_lt.mp hge)))
    have hshift : v >>> r.1.bits.length ≠ 0 := by
      rw [Nat.shiftRight_eq_div_pow]
      exact (Nat.div_pos (not_lt.mp hfit) (by positivity)).ne'
    simp only [hread, if_pos (And.intro hlen hshift), reduceCtorEq] at hrow

theorem foldlM_triggerRow {ub : ℕ → ℕ → Bool} : ∀ (rows : List Row), (∀ r ∈ rows, Accepted r) →
    ∀ mv, rows.foldlM (triggerRow ub) mv = .ok ((rows.flatMap (assigned ub)).foldl setBit mv)
  | [], _, mv => rfl
  | r :: rows, h, mv => by
    obtain ⟨hr, hrows⟩ := List.forall_mem_cons.mp h
    rw [List.foldlM_cons, triggerRow_of_accepted hr, List.flatMap_cons, List.foldl_append]
    exact foldlM_triggerRow rows hrows _

theorem forall_accepted {ub : ℕ → ℕ → Bool} : ∀ (rows : List Row) (mv mv' : Bits × Bits),
    rows.foldlM (triggerRow ub) mv = .ok mv' → ∀ r ∈ rows, Accepted r
  | [], _, _, _ => by simp
  | r :: rows, mv, mv', h => by
    rw [List.foldlM_cons] at h
    cases hrow : triggerRow ub mv r with
    | error e =>
      rw [hrow] at h
      cases h
    | ok mv₁ =>
      rw [hrow] at h
      have hr : Accepted r := by
        by_contra hr
        exact triggerRow_of_not_accepted hr mv mv₁ hrow
      exact List.forall_mem_cons.mpr ⟨hr, forall_accepted rows mv₁ mv' h⟩

/-- The word of a list of accepted rows; no other list has one. -/
theorem triggerWord_eq {ub : ℕ → ℕ → Bool} {W : ℕ} {rows : List Row} {mv : Bits × Bits} :
    triggerWord ub W rows = .ok mv ↔ (∀ r ∈ rows, Accepted r) ∧
      mv = (rows.flatMap (assigned ub)).foldl setBit (Bits.zeros W, Bits.zeros W) := by
  constructor
  · intro h
    have hall := forall_accepted rows _ mv h
    refine ⟨hall, ?_⟩
    unfold triggerWord at h
    rw [foldlM_triggerRow rows hall] at h
    exact (Except.ok.inj h).symm
  · rintro ⟨hall, rfl⟩
    exact foldlM_triggerRow rows hall _

/-- A row sets bits of its signal. -/
theorem assigned_sublist (ub : ℕ → ℕ → Bool) (r : Row) :
    ((assigned ub r).map Prod.fst).Sublist r.1.bits := by
  have hrow : ∀ v, (rowBits ub v r.1.bits).map Prod.fst = r.1.bits := fun v => by
    rw [rowBits, List.map_map]
    exact List.zipIdx_map_fst 0 r.1.bits
  unfold assigned
  split_ifs
  · exact List.nil_sublist _
  · cases denoted r with
    | none => exact List.nil_sublist _
    | some v =>
      rw [Option.map_some, Option.getD_some, hrow]

theorem flatMap_assigned_sublist (ub : ℕ → ℕ → Bool) : ∀ rows : List Row,
    ((rows.flatMap (assigned ub)).map Prod.fst).Sublist (rows.flatMap fun r => r.1.bits)
  | [] => List.Sublist.refl _
  | r :: rows => by
    rw [List.flatMap_cons, List.flatMap_cons, List.map_append]
    exact (assigned_sublist ub r).append (flatMap_assigned_sublist ub rows)

/-- A sample agrees with the word when it has each bit that a row set. -/
theorem agrees_word {ub : ℕ → ℕ → Bool} {W : ℕ} {rows : List Row} (h : Placed W rows)
    (s : BitVec W) :
    Agrees ((rows.flatMap (assigned ub)).foldl setBit (Bits.zeros W, Bits.zeros W)) s ↔
      ∀ r ∈ rows, ∀ p ∈ assigned ub r, s.getLsbD p.1 = p.2 := by
  have hsub := flatMap_assigned_sublist ub rows
  have hlt : ∀ p ∈ rows.flatMap (assigned ub), p.1 < W := fun p hp =>
    h.lt p.1 (hsub.subset (List.mem_map_of_mem hp))
  have hmem : (∀ p ∈ rows.flatMap (assigned ub), s.getLsbD p.1 = p.2) ↔
      ∀ r ∈ rows, ∀ p ∈ assigned ub r, s.getLsbD p.1 = p.2 := by
    rw [List.forall_mem_flatMap]
  have hset := agrees_setBits s (rows.flatMap (assigned ub)) (Bits.zeros W, Bits.zeros W)
    (Bits.size_zeros W) (Bits.size_zeros W) hlt (h.nodup.sublist hsub) fun p _ =>
      Bits.get_zeros W p.1
  rw [hset, hmem, and_iff_left (agrees_zeros s)]

/-- The bits a row sets are those of its value, if each comes out as the value's. -/
theorem holds_iff {ub : ℕ → ℕ → Bool} {W : ℕ} {r : Row} (hacc : Accepted r)
    (hub : Asks r → ∀ v, Denotes (condition r.2) v → ∀ i < r.1.bits.length,
      shiftedBit ub v i = v.testBit i) (s : BitVec W) :
    Holds s r ↔ ∀ p ∈ assigned ub r, s.getLsbD p.1 = p.2 := by
  unfold Holds assigned
  by_cases hasks : Asks r
  · obtain ⟨v, hv, _, hfit⟩ := hacc hasks
    have hbits : (∀ p ∈ rowBits ub v r.1.bits, s.getLsbD p.1 = p.2) ↔
        ∀ p ∈ r.1.bits.zipIdx, s.getLsbD p.1 = v.testBit p.2 := by
      unfold rowBits
      rw [List.forall_mem_map]
      refine forall₂_congr fun p hp => ?_
      have hidx : p.2 < r.1.bits.length := by
        obtain ⟨hlt, _⟩ := List.getElem?_eq_some_iff.mp (List.mem_zipIdx_iff_getElem?.mp hp)
        exact hlt
      rw [hub hasks v hv p.2 hidx]
    rw [← denoted_eq_some] at hv
    rw [if_neg (by rw [hasks]; exact Bool.false_ne_true), imp_iff_right hasks, ← denoted_eq_some, hv,
      Option.map_some, Option.getD_some, hbits, Option.some_inj, eq_comm, pick_eq_iff, and_iff_right hfit]
  · have hany : anyValue (condition r.2) = true := Bool.eq_true_of_not_eq_false hasks
    simp [hasks, hany]

/-- The word means what was asked for if each bit comes out as its value's. -/
theorem hit_iff_holds {ub : ℕ → ℕ → Bool} {W : ℕ} {rows : List Row} (h : Placed W rows)
    (hub : ∀ r ∈ rows, Asks r → ∀ v, Denotes (condition r.2) v → ∀ i < r.1.bits.length,
      shiftedBit ub v i = v.testBit i)
    {mv : Bits × Bits} (hword : triggerWord ub W rows = .ok mv) (s : BitVec W) :
    Agrees mv s ↔ ∀ r ∈ rows, Holds s r := by
  obtain ⟨hall, rfl⟩ := triggerWord_eq.mp hword
  rw [agrees_word h]
  exact forall₂_congr fun r hr => (holds_iff (hall r hr) (hub r hr) s).symm

/-- A value that does not fit is refused, whatever comes out of a shift. -/
theorem refused {ub : ℕ → ℕ → Bool} {W : ℕ} {rows : List Row} {r : Row} (hr : r ∈ rows)
    (hasks : Asks r) {v : ℕ} (hv : Denotes (condition r.2) v) (hfit : 2 ^ r.1.bits.length ≤ v)
    (mv : Bits × Bits) : triggerWord ub W rows ≠ .ok mv := by
  intro hword
  obtain ⟨v', hv', _, hlt⟩ := (triggerWord_eq.mp hword).1 r hr hasks
  rw [← denoted_eq_some] at hv hv'
  rw [hv] at hv'
  rw [← Option.some.inj hv'] at hlt
  exact absurd hlt (not_lt.mpr hfit)

/-- A state of the capture with a given sample. -/
def sampled {W : ℕ} (s : BitVec W) : Cap W 1 :=
  { sample := s, armS := 0, armed := false, trig := false, done := false, waddr := 0, left := 0,
    mem := fun _ => 0 }

/-- The word's registers. -/
def registers (W : ℕ) (mv : Bits × Bits) : Ctl W 1 := ⟨mv.1.word W, mv.2.word W, 0, true⟩

theorem Means.agrees {ub : ℕ → ℕ → Bool} {W : ℕ} {rows : List Row} (h : Means ub W rows)
    {mv : Bits × Bits} (hword : triggerWord ub W rows = .ok mv) (s : BitVec W) :
    Agrees mv s ↔ ∀ r ∈ rows, Holds s r := by
  exact (hit_iff rfl rfl).symm.trans (h.hit mv hword 1 (registers W mv) (sampled s) rfl rfl)

/-- A sample that a word of unspecified bits agrees with whatever they are would have both. -/
theorem length_le_of_means {W : ℕ} {rows : List Row} (hplaced : Placed W rows)
    (h : ∀ ub, Means ub W rows) (hall : ∀ r ∈ rows, Accepted r) {r : Row} (hr : r ∈ rows)
    (hasks : Asks r) : r.1.bits.length ≤ 64 := by
  by_contra hlong
  have hlt : 64 < r.1.bits.length := not_le.mp hlong
  obtain ⟨v, hv, _, _⟩ := hall r hr hasks
  have hword : ∀ ub, triggerWord ub W rows =
      .ok ((rows.flatMap (assigned ub)).foldl setBit (Bits.zeros W, Bits.zeros W)) := fun ub =>
    triggerWord_eq.mpr ⟨hall, rfl⟩
  -- the value itself is a sample the ideal word agrees with
  set s : BitVec W := (((rows.flatMap (assigned Nat.testBit)).foldl setBit
    (Bits.zeros W, Bits.zeros W)).2).word W with hs
  have hself : Agrees ((rows.flatMap (assigned Nat.testBit)).foldl setBit
      (Bits.zeros W, Bits.zeros W)) s := by
    intro j hj _
    rw [hs, Bits.word, BitVec.getLsbD_ofNat, Bits.testBit_toNat, decide_eq_true hj, Bool.true_and]
  have hholds := ((h _).agrees (hword _) s).mp hself
  -- so every word agrees with it, and that gives bit 64 two values
  have hbit : ∀ ub : ℕ → ℕ → Bool, s.getLsbD r.1.bits[64] = ub v 64 := by
    intro ub
    have hagrees := ((h ub).agrees (hword ub) s).mpr hholds
    have hmem : (r.1.bits[64], ub v 64) ∈ assigned ub r := by
      have hrow : (r.1.bits[64], shiftedBit ub v 64) ∈ rowBits ub v r.1.bits :=
        List.mem_map.mpr ⟨(r.1.bits[64], 64),
          List.mem_zipIdx_iff_getElem?.mpr (List.getElem?_eq_getElem hlt), rfl⟩
      unfold assigned
      rw [if_neg (by rw [hasks]; exact Bool.false_ne_true), denoted_eq_some.mpr hv]
      exact hrow
    exact (agrees_word hplaced s).mp hagrees r hr _ hmem
  have htrue := hbit fun _ _ => true
  rw [hbit fun _ _ => false] at htrue
  exact Bool.false_ne_true htrue

/-- **The trigger word means what was asked for, unless a condition is put on a signal of more than
64 bits.** -/
theorem means_iff {W : ℕ} {rows : List Row} (hplaced : Placed W rows) :
    (∀ ub, Means ub W rows) ↔
      ((∀ r ∈ rows, Accepted r) → ∀ r ∈ rows, Asks r → r.1.bits.length ≤ 64) := by
  constructor
  · intro h hall r hr hasks
    exact length_le_of_means hplaced h hall hr hasks
  · intro h ub
    refine ⟨fun mv hword AW c s hm hv => ?_, fun r hr hasks v hv hfit mv => refused hr hasks hv hfit mv⟩
    have hshort := h (triggerWord_eq.mp hword).1
    rw [hit_iff hm hv]
    refine hit_iff_holds hplaced (fun r hr hasks v _ i hi => ?_) hword s.sample
    exact if_pos (hi.trans_le (hshort r hr hasks))

/-- A condition on a signal of two bits, and none on another. -/
def fewRows : List Row := [(⟨"state".toList, [2, 0]⟩, some " 0x3 ".toList),
  (⟨"busy".toList, [1]⟩, some "X".toList)]

theorem means_iff_few : Placed 3 fewRows ∧ ((∀ ub, Means ub 3 fewRows) ↔
    ((∀ r ∈ fewRows, Accepted r) → ∀ r ∈ fewRows, Asks r → r.1.bits.length ≤ 64)) :=
  ⟨⟨by decide, by decide⟩, means_iff ⟨by decide, by decide⟩⟩

/-- A signal of 65 bits that is to be 1. -/
def wideRow : Row := (⟨"count".toList, List.range 65⟩, some "1".toList)

/-- A machine that shifts by the count modulo 64 asks for bit 64 as well. -/
theorem not_means : ¬ Means (fun v i => v.testBit (i % 64)) 65 [wideRow] := by
  intro h
  have hdenoted : denoted wideRow = some 1 := by decide
  have hacc : ∀ r ∈ [wideRow], Accepted r := by
    rw [List.forall_mem_singleton]
    exact fun _ => ⟨1, denoted_eq_some.mp hdenoted, by decide, by decide⟩
  have hplaced : Placed 65 [wideRow] := by
    have hbits : ([wideRow].flatMap fun r => r.1.bits) = List.range 65 := List.flatMap_singleton _ _
    constructor
    · rw [hbits]
      exact List.nodup_range
    · rw [hbits]
      exact fun k hk => List.mem_range.mp hk
  have hholds : ∀ r ∈ [wideRow], Holds 1#65 r := by
    rw [List.forall_mem_singleton]
    have hpick : pick (1#65).getLsbD wideRow.1.bits = 1 :=
      pick_eq_iff.mpr ⟨by decide, by decide⟩
    intro _
    rw [hpick]
    exact denoted_eq_some.mp hdenoted
  have hagrees := (h.agrees (triggerWord_eq.mpr ⟨hacc, rfl⟩) 1#65).mpr hholds
  have hbit := (agrees_word hplaced 1#65).mp hagrees wideRow List.mem_cons_self (64, true) (by decide)
  cases hbit

end MainWindow

end Openila
end Xc7Tools
