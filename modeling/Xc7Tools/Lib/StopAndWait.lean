/-
# Stop and wait

A sender has one packet out at a time: it repeats it until an acknowledgement
with its number comes back, and goes on to the next one. A receiver
acknowledges every packet by its number and takes the ones it expects. The two
channels between them keep the order, and may lose and duplicate.

Packets are counted here; what they carry is a number, which may wrap. Round
the two channels only the packet that is out and the one before it are ever on
their way, the older ones first. So it is enough that the numbers tell three
packets in a row apart.

Key definitions: `Channel.lose`, `Channel.duplicate`, `StopAndWait.State`,
`StopAndWait.Inv`, `StopAndWait.Distinct`.
Key theorems: `StopAndWait.Inv.receive`, `StopAndWait.Inv.advance`,
`StopAndWait.Inv.expected_iff`, `StopAndWait.Inv.acked_iff`.
-/
import Mathlib.Data.List.InsertIdx
import Mathlib.Order.Nat
import Mathlib.Tactic.Common

namespace Xc7Tools

/-! ### Channels -/

namespace Channel

variable {α β : Type*} {l : List α} {a : α}

/-- Datagram `i` is lost. -/
def lose (i : ℕ) (l : List α) : List α := l.eraseIdx i

/-- Datagram `i` comes twice. -/
def duplicate (i : ℕ) (l : List α) : List α := l.take (i + 1) ++ l.drop i

theorem lose_map (f : α → β) (i : ℕ) (l : List α) : lose i (l.map f) = (lose i l).map f :=
  List.eraseIdx_map f l i

theorem duplicate_map (f : α → β) (i : ℕ) (l : List α) :
    duplicate i (l.map f) = (duplicate i l).map f := by
  unfold duplicate
  rw [List.map_append, List.map_take, List.map_drop]

theorem lose_sublist (i : ℕ) (l : List α) : (lose i l).Sublist l := List.eraseIdx_sublist l i

theorem mem_of_mem_duplicate {i : ℕ} (h : a ∈ duplicate i l) : a ∈ l := by
  rcases List.mem_append.mp h with h | h
  · exact List.mem_of_mem_take h
  · exact List.mem_of_mem_drop h

/-- An order in which a datagram may stand beside itself is kept. -/
theorem pairwise_duplicate {R : α → α → Prop} (hrefl : ∀ a, R a a) (h : l.Pairwise R) (i : ℕ) :
    (duplicate i l).Pairwise R := by
  induction l generalizing i with
  | nil => simp [duplicate]
  | cons a l ih =>
    obtain ⟨ha, hl⟩ := List.pairwise_cons.mp h
    rcases i with _ | i
    · refine List.pairwise_cons.mpr ⟨fun b hb => ?_, h⟩
      rcases List.mem_cons.mp hb with rfl | hb
      · exact hrefl b
      · exact ha b hb
    · exact List.pairwise_cons.mpr ⟨fun b hb => ha b (mem_of_mem_duplicate hb), ih hl i⟩

end Channel

/-! ### The protocol -/

namespace StopAndWait

open Channel

/-- Packet `cur` is out, packets up to `got` have been taken, and these are on their way. -/
structure State where
  cur : ℕ
  got : ℕ
  data : List ℕ
  acks : List ℕ

/-- Only two packets are on their way, the older one first, and what is acknowledged has been
taken. -/
structure Inv (s : State) : Prop where
  sorted : (s.acks ++ s.data).Pairwise (· ≤ ·)
  window : ∀ i ∈ s.acks ++ s.data, s.cur ≤ i + 1 ∧ i ≤ s.cur
  got : s.cur ≤ s.got + 1 ∧ s.got ≤ s.cur
  taken : ∀ j ∈ s.acks, j ≤ s.got

/-- Numbers that tell three packets in a row apart. -/
def Distinct {β : Type*} (num : ℕ → β) : Prop := ∀ i, num i ≠ num (i + 1) ∧ num i ≠ num (i + 2)

namespace Inv

variable {s : State} {i j : ℕ} {rest : List ℕ}

/-- The sender sends its packet, for the first time or again. -/
theorem resend (h : Inv s) : Inv { s with data := s.data ++ [s.cur] } := by
  refine ⟨?_, fun i hi => ?_, h.got, h.taken⟩
  · change (s.acks ++ (s.data ++ [s.cur])).Pairwise (· ≤ ·)
    rw [← List.append_assoc, List.pairwise_append]
    refine ⟨h.sorted, List.pairwise_singleton _ _, fun i hi j hj => ?_⟩
    rw [List.mem_singleton.mp hj]
    exact (h.window i hi).2
  · rw [← List.append_assoc, List.mem_append, List.mem_singleton] at hi
    rcases hi with hi | rfl
    · exact h.window i hi
    · exact ⟨Nat.le_succ _, Nat.le_refl _⟩

/-- The receiver gets a packet: it takes it, or has it, and acknowledges it. -/
theorem receive (h : Inv s) (hd : s.data = i :: rest) :
    Inv { s with got := max s.got i, data := rest, acks := s.acks ++ [i] } := by
  have hsame : s.acks ++ [i] ++ rest = s.acks ++ s.data := by
    rw [hd, List.append_assoc, List.singleton_append]
  have hi := h.window i (by simp [hd])
  refine ⟨?_, fun k hk => ?_, ?_, fun k hk => ?_⟩
  · change (s.acks ++ [i] ++ rest).Pairwise (· ≤ ·)
    rw [hsame]
    exact h.sorted
  · rw [hsame] at hk
    exact h.window k hk
  · have hgot := h.got
    change s.cur ≤ max s.got i + 1 ∧ max s.got i ≤ s.cur
    omega
  · change k ≤ max s.got i
    rcases List.mem_append.mp hk with hk | hk
    · exact (h.taken k hk).trans (Nat.le_max_left _ _)
    · rw [List.mem_singleton.mp hk]
      exact Nat.le_max_right _ _

/-- The sender gets an acknowledgement and does not go on. -/
theorem discard (h : Inv s) (ha : s.acks = j :: rest) : Inv { s with acks := rest } := by
  have hsub : (rest ++ s.data).Sublist (s.acks ++ s.data) := by
    rw [ha]
    exact List.sublist_cons_self j _
  refine ⟨h.sorted.sublist hsub, fun i hi => h.window i (hsub.subset hi), h.got, fun k hk => ?_⟩
  apply h.taken
  rw [ha]
  exact List.mem_cons_of_mem j hk

/-- What has been acknowledged has been taken. -/
theorem got_eq (h : Inv s) (hc : s.cur ∈ s.acks) : s.got = s.cur :=
  le_antisymm h.got.2 (h.taken _ hc)

/-- **The sender goes on**: nothing older than the packet acknowledged is on its way. -/
theorem advance (h : Inv s) (ha : s.acks = s.cur :: rest) :
    Inv { s with cur := s.cur + 1, acks := rest, data := s.data ++ [s.cur + 1] } := by
  have hgot := h.got_eq (ha ▸ List.mem_cons_self)
  have hd := h.discard ha
  have hnew : ∀ i ∈ rest ++ s.data, i = s.cur := by
    intro i hi
    have hsorted := h.sorted
    rw [ha, List.cons_append, List.pairwise_cons] at hsorted
    exact le_antisymm (hd.window i hi).2 (hsorted.1 i hi)
  refine ⟨?_, fun i hi => ?_, ?_, fun j hj => ?_⟩
  · change (rest ++ (s.data ++ [s.cur + 1])).Pairwise (· ≤ ·)
    rw [← List.append_assoc, List.pairwise_append]
    refine ⟨hd.sorted, List.pairwise_singleton _ _, fun i hi j hj => ?_⟩
    rw [hnew i hi, List.mem_singleton.mp hj]
    exact Nat.le_succ _
  · rw [← List.append_assoc, List.mem_append, List.mem_singleton] at hi
    rcases hi with hi | rfl
    · rw [hnew i hi]
      exact ⟨Nat.le_refl _, Nat.le_succ _⟩
    · exact ⟨Nat.le_succ _, Nat.le_refl _⟩
  · change s.cur + 1 ≤ s.got + 1 ∧ s.got ≤ s.cur + 1
    omega
  · exact hd.taken j hj

/-- The channels lose. -/
theorem lose_data (h : Inv s) (i : ℕ) : Inv { s with data := lose i s.data } := by
  have hsub : (s.acks ++ lose i s.data).Sublist (s.acks ++ s.data) :=
    (lose_sublist i s.data).append_left s.acks
  exact ⟨h.sorted.sublist hsub, fun k hk => h.window k (hsub.subset hk), h.got, h.taken⟩

theorem lose_acks (h : Inv s) (i : ℕ) : Inv { s with acks := lose i s.acks } := by
  have hsub : (lose i s.acks ++ s.data).Sublist (s.acks ++ s.data) :=
    (lose_sublist i s.acks).append_right s.data
  exact ⟨h.sorted.sublist hsub, fun k hk => h.window k (hsub.subset hk), h.got,
    fun j hj => h.taken j ((lose_sublist i s.acks).subset hj)⟩

/-- And they duplicate. -/
theorem duplicate_data (h : Inv s) (i : ℕ) : Inv { s with data := duplicate i s.data } := by
  obtain ⟨ha, hd, hle⟩ := List.pairwise_append.mp h.sorted
  refine ⟨List.pairwise_append.mpr ⟨ha, pairwise_duplicate Nat.le_refl hd i, fun j hj k hk => ?_⟩,
    fun k hk => ?_, h.got, h.taken⟩
  · exact hle j hj k (mem_of_mem_duplicate hk)
  · apply h.window
    rcases List.mem_append.mp hk with hk | hk
    · exact List.mem_append_left _ hk
    · exact List.mem_append_right _ (mem_of_mem_duplicate hk)

theorem duplicate_acks (h : Inv s) (i : ℕ) : Inv { s with acks := duplicate i s.acks } := by
  obtain ⟨ha, hd, hle⟩ := List.pairwise_append.mp h.sorted
  refine ⟨List.pairwise_append.mpr ⟨pairwise_duplicate Nat.le_refl ha i, hd, fun j hj k hk => ?_⟩,
    fun k hk => ?_, h.got, fun j hj => h.taken j (mem_of_mem_duplicate hj)⟩
  · exact hle j (mem_of_mem_duplicate hj) k hk
  · apply h.window
    rcases List.mem_append.mp hk with hk | hk
    · exact List.mem_append_left _ (mem_of_mem_duplicate hk)
    · exact List.mem_append_right _ hk

/-! ### Numbers -/

variable {β : Type*} {num : ℕ → β}

/-- **The receiver takes the packet it expects**, if it goes by the numbers. -/
theorem expected_iff (h : Inv s) (hn : Distinct num) (hi : i ∈ s.data) :
    num i = num (s.got + 1) ↔ i = s.got + 1 := by
  obtain ⟨hlo, hhi⟩ := h.window i (List.mem_append_right _ hi)
  obtain ⟨hgot, hgot'⟩ := h.got
  refine ⟨fun heq => ?_, fun heq => by rw [heq]⟩
  by_contra hne
  rcases (by omega : s.got = i ∨ s.got = i + 1) with hg | hg
  · rw [hg] at heq
    exact (hn i).1 heq
  · rw [hg] at heq
    exact (hn i).2 heq

/-- **The sender goes on with its own acknowledgement**, if it goes by the numbers. -/
theorem acked_iff (h : Inv s) (hn : Distinct num) (hj : j ∈ s.acks) :
    num j = num s.cur ↔ j = s.cur := by
  obtain ⟨hlo, hhi⟩ := h.window j (List.mem_append_left _ hj)
  refine ⟨fun heq => ?_, fun heq => by rw [heq]⟩
  by_contra hne
  rw [show s.cur = j + 1 by omega] at heq
  exact (hn j).1 heq

end Inv
end StopAndWait
end Xc7Tools
