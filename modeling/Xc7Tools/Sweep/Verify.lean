/-
# verify_examples.sh: the sweep and its exit status

`scripts/verify_examples.sh` takes names of designs, all of its table when
there are none, builds each, proves the bitstream's netlist against the
synthesis, and exits 0 when nothing has failed. What yosys, nextpnr, the
extractor and the equivalence tool do with a design is a `Build`; the script
reads the tool's own line of text to tell a proof from a difference.

A design is `PROVED` exactly when its one result line reports a positive
number of obligations and 0 of them differing (`designRow_eq_proved`). A name
that is in no table counts neither as a pass nor as a failure, and nothing
else slips through (`sweep_sound_iff`).

Key definitions: `Build`, `designRow`, `blockedRow`, `Tally`, `main`, `Proves`, `Sound`.
Key theorems: `designRow_eq_proved`, `fail_eq_zero`, `sweep_sound_iff`.
-/
import Xc7Tools.Sweep.Shell

namespace Xc7Tools
namespace Sweep

open Str Shell

/-! ### The tables -/

/-- A row of `BLOCKED`: what stops the design, and how to recognise it. -/
structure Blocked where
  name : Str
  stage : Str
  marker : Str

/-- The three tables; a row of `DESIGNS` and of `NOT_YET` is its name here,
the other columns go to the tools and the printed notes. -/
structure Tables where
  DESIGNS : List Str
  NOT_YET : List Str
  BLOCKED : List Blocked

/-- The script's tables. -/
def tables : Tables where
  DESIGNS := ["vc707-johnson".toList, "vc707-telegraph".toList, "vc707-multibufg".toList,
    "arty-a35".toList, "johnson-sonata".toList, "blinky-sonata".toList, "arty-blinky".toList,
    "vc707-hp-diffio".toList, "vc707-idelay".toList, "vc707-gtrefclk".toList,
    "vc707-serv-sd".toList, "vc707-gatedcount".toList, "vc707-sdtest".toList,
    "vc707-litex".toList, "vc707-ethmin".toList, "vc707-ocaml".toList, "vc707-smpsd".toList,
    "vc707-litex-eth".toList]
  NOT_YET := []
  BLOCKED := []

/-! ### One design -/

/-- What the tools do with a design: whether synthesis, place and route and
extraction end with status 0, the log up to there, and the lines the
equivalence tool prints before it ends or runs out of time. -/
structure Build where
  synth : Bool
  pnr : Bool
  log : List Str
  extract : Bool
  equiv : List Str

/-- `grep -E '^[0-9]+ proved'` -/
def isResult (line : Str) : Bool :=
  !(line.takeWhile isAsciiDigit).isEmpty &&
    " proved".toList.isPrefixOf (line.dropWhile isAsciiDigit)

/-- The RESULT column. -/
inductive Shown where
  | FAIL
  | PROVED
  | DIFFER
  | blocked
  | UNBLOCKED
  | skipped
  deriving DecidableEq

/-- `$proved` and `$differ` -/
def verdict (b : Build) : Str × Str :=
  let res := b.equiv.filter isResult
  (capture (res.map (awk 1)), capture (res.map (awk 3)))

/-- A pass of the loop over `DESIGNS`. -/
def designRow (b : Build) : Shown :=
  if !b.synth then .FAIL
  else if !b.pnr then .FAIL
  else if !b.extract then .FAIL
  else
    let (proved, differ) := verdict b
    if orDefault ['1'] differ = ['0'] ∧ positive (orDefault ['0'] proved) then .PROVED else .DIFFER

/-- A pass of the loop over `BLOCKED`. -/
def blockedRow (row : Blocked) (b : Build) : Shown :=
  if !b.synth then .FAIL
  else if !b.pnr then
    if row.stage = "pnr".toList ∧ b.log.any fun l => isIn row.marker l then .blocked else .FAIL
  else if row.stage = "pnr".toList then .UNBLOCKED
  else if !b.extract then .FAIL
  else
    let (_, differ) := verdict b
    if differ = [] then .blocked else if positive differ then .blocked else .UNBLOCKED

/-! ### The sweep -/

/-- The counters, and the table printed so far. -/
structure Tally where
  pass : ℕ
  fail : ℕ
  unblocked : ℕ
  rows : List (Str × Shown)

/-- A row is printed and counted. -/
def Tally.add (t : Tally) (name : Str) (s : Shown) : Tally where
  pass := if s = .PROVED then t.pass + 1 else t.pass
  fail := if s = .FAIL ∨ s = .DIFFER then t.fail + 1 else t.fail
  unblocked := if s = .UNBLOCKED then t.unblocked + 1 else t.unblocked
  rows := t.rows ++ [(name, s)]

/-- `wanted "$1"` -/
def wanted (names : List Str) (name : Str) : Bool := names.isEmpty || names.contains name

/-- The rows the three loops print, in order. -/
def shown (t : Tables) (names : List Str) (tools : Str → Build) : List (Str × Shown) :=
  ((t.DESIGNS.filter (wanted names)).map fun n => (n, designRow (tools n))) ++
    ((t.BLOCKED.filter fun r => wanted names r.name).map fun r =>
      (r.name, blockedRow r (tools r.name))) ++
    (t.NOT_YET.filter (wanted names)).map fun n => (n, .skipped)

/-- The three loops. -/
def sweep (t : Tables) (names : List Str) (tools : Str → Build) : Tally :=
  (shown t names tools).foldl (fun tally r => tally.add r.1 r.2) ⟨0, 0, 0, []⟩

/-- A run of the script on its arguments: its exit status, and the tally if it
gets that far. `pinned` is whether `pinned_yosys.sh` finds a yosys. -/
def main (t : Tables) (args : List Str) (pinned : Bool) (tools : Str → Build) : ℕ × Option Tally :=
  if args.head? = some "--list".toList then (0, none)
  else if !pinned then (2, none)
  else
    let tally := sweep t args tools
    (if 0 < tally.fail then 1 else 0, some tally)

/-! ### What `PROVED` means -/

/-- The design went through every tool, and the equivalence tool printed one
result line: a positive number of proved obligations, and 0 that differ. -/
def Proves (b : Build) : Prop :=
  b.synth = true ∧ b.pnr = true ∧ b.extract = true ∧
    ∃ line, b.equiv.filter isResult = [line] ∧
      0 < value (line.takeWhile isAsciiDigit) ∧
      fits64 (value (line.takeWhile isAsciiDigit)) = true ∧ awk 3 line = ['0']

/-- A result line is some digits and what follows a blank. -/
theorem isResult_iff {line : Str} (h : isResult line = true) :
    ∃ ds rest, line = ds ++ ' ' :: rest ∧ ds ≠ [] ∧ (∀ c ∈ ds, isAsciiDigit c = true) ∧
      line.takeWhile isAsciiDigit = ds := by
  simp only [isResult, Bool.and_eq_true, Bool.not_eq_true', List.isEmpty_eq_false_iff,
    List.isPrefixOf_iff_prefix] at h
  obtain ⟨hne, rest, hrest⟩ := h
  refine ⟨line.takeWhile isAsciiDigit, "proved".toList ++ rest, ?_, hne,
    fun c hc => List.mem_takeWhile_imp hc, rfl⟩
  calc line = line.takeWhile isAsciiDigit ++ line.dropWhile isAsciiDigit :=
        List.takeWhile_append_dropWhile.symm
    _ = line.takeWhile isAsciiDigit ++ ' ' :: ("proved".toList ++ rest) := by rw [← hrest]; rfl

/-- Its first field is the digits. -/
theorem awk_one_of_isResult {line : Str} (h : isResult line = true) :
    awk 1 line = line.takeWhile isAsciiDigit := by
  obtain ⟨ds, rest, hline, hne, hds, htake⟩ := isResult_iff h
  rw [htake, hline]
  exact awk_one hne fun c hc => not_isAwkBlank_of_isAsciiDigit (hds c hc)

/-- `$proved` is a positive number exactly when there is one result line, with
a positive number. -/
theorem positive_capture {res : List Str} (hres : ∀ line ∈ res, isResult line = true) :
    positive (orDefault ['0'] (capture (res.map (awk 1)))) = true ↔
      ∃ line, res = [line] ∧ 0 < value (line.takeWhile isAsciiDigit) ∧
        fits64 (value (line.takeWhile isAsciiDigit)) = true := by
  rcases res with _ | ⟨line, _ | ⟨line', res⟩⟩
  · exact iff_of_false (by decide) (by rintro ⟨_, h, -⟩; cases h)
  · obtain ⟨ds, rest, -, hne, hds, htake⟩ := isResult_iff (hres line List.mem_cons_self)
    have hnum := @testInt?_append ds [] hne hds rfl
    have hcap : capture ([line].map (awk 1)) = ds := by
      rw [List.map_singleton, capture_singleton (not_mem_awk 1 line),
        awk_one_of_isResult (hres line List.mem_cons_self), htake]
    rw [List.append_nil] at hnum
    rw [hcap, orDefault, if_neg hne, positive, hnum]
    simp only [List.all_nil, true_and, List.cons.injEq, and_true, exists_eq_left', htake]
    split_ifs with hfit
    · simp [hfit]
    · simp [hfit]
  · -- a second line puts a newline in the middle of the number
    refine iff_of_false ?_ (by rintro ⟨_, h, -⟩; cases h)
    obtain ⟨ds, rest, -, hne, hds, htake⟩ := isResult_iff (hres line List.mem_cons_self)
    have hrest : capture ((line' :: res).map (awk 1)) ≠ [] := by
      refine capture_ne_nil (by simp) fun f hf => ?_
      obtain ⟨l, hl, rfl⟩ := List.mem_map.mp hf
      obtain ⟨ds', -, -, hne', -, htake'⟩ := isResult_iff (hres l (List.mem_cons_of_mem _ hl))
      refine ⟨?_, not_mem_awk 1 l⟩
      rw [awk_one_of_isResult (hres l (List.mem_cons_of_mem _ hl)), htake']
      exact hne'
    have hcap : capture ((line :: line' :: res).map (awk 1)) =
        ds ++ '\n' :: capture ((line' :: res).map (awk 1)) := by
      rw [List.map_cons, capture_cons _ hrest, awk_one_of_isResult (hres line List.mem_cons_self), htake]
    rw [hcap, orDefault, if_neg (by simp), positive, testInt?_append hne hds rfl]
    simp [isBlank]

/-- **A design is shown as `PROVED` exactly when it is proved.** -/
theorem designRow_eq_proved (b : Build) : designRow b = .PROVED ↔ Proves b := by
  unfold designRow Proves verdict
  cases b.synth with
  | false => simp
  | true =>
  cases b.pnr with
  | false => simp
  | true =>
  cases b.extract with
  | false => simp
  | true =>
    have hres : ∀ line ∈ b.equiv.filter isResult, isResult line = true := fun _ h =>
      (List.mem_filter.mp h).2
    have hiff : (if orDefault ['1'] (capture ((b.equiv.filter isResult).map (awk 3))) = ['0'] ∧
        positive (orDefault ['0'] (capture ((b.equiv.filter isResult).map (awk 1)))) = true
        then Shown.PROVED else Shown.DIFFER) = .PROVED ↔
        orDefault ['1'] (capture ((b.equiv.filter isResult).map (awk 3))) = ['0'] ∧
        positive (orDefault ['0'] (capture ((b.equiv.filter isResult).map (awk 1)))) = true := by
      split_ifs with h
      · exact iff_of_true rfl h
      · exact iff_of_false (by decide) h
    refine hiff.trans ?_
    rw [positive_capture hres]
    simp only [true_and]
    constructor
    · rintro ⟨hd, line, hline, hpos, hfit⟩
      refine ⟨line, hline, hpos, hfit, ?_⟩
      rw [hline, List.map_singleton, capture_singleton (not_mem_awk 3 line), orDefault] at hd
      split_ifs at hd with h
      · exact absurd hd (by decide)
      · exact hd
    · rintro ⟨line, hline, hpos, hfit, hd⟩
      refine ⟨?_, line, hline, hpos, hfit⟩
      rw [hline, List.map_singleton, capture_singleton (not_mem_awk 3 line), hd]
      rfl

/-! ### The counters -/

/-- A row that counts as a failure. -/
def Failing (s : Shown) : Prop := s = .FAIL ∨ s = .DIFFER

theorem foldl_add_fail : ∀ (rs : List (Str × Shown)) (t : Tally),
    (rs.foldl (fun tally r => tally.add r.1 r.2) t).fail = 0 ↔ t.fail = 0 ∧ ∀ r ∈ rs, ¬ Failing r.2
  | [], t => by simp
  | r :: rs, t => by
    have hadd : (t.add r.1 r.2).fail = 0 ↔ t.fail = 0 ∧ ¬ Failing r.2 := by
      unfold Tally.add Failing
      by_cases h : r.2 = .FAIL ∨ r.2 = .DIFFER <;> simp [h]
    rw [List.foldl_cons, foldl_add_fail rs, hadd, List.forall_mem_cons, and_assoc]

theorem foldl_add_rows : ∀ (rs : List (Str × Shown)) (t : Tally),
    (rs.foldl (fun tally r => tally.add r.1 r.2) t).rows = t.rows ++ rs
  | [], t => by simp
  | r :: rs, t => by
    rw [List.foldl_cons, foldl_add_rows rs]
    simp [Tally.add]

/-- Nothing failed when no row of any table did. -/
theorem fail_eq_zero (t : Tables) (names : List Str) (tools : Str → Build) :
    (sweep t names tools).fail = 0 ↔ ∀ r ∈ shown t names tools, ¬ Failing r.2 := by
  rw [sweep, foldl_add_fail]
  simp

theorem rows_sweep (t : Tables) (names : List Str) (tools : Str → Build) :
    (sweep t names tools).rows = shown t names tools := by
  rw [sweep, foldl_add_rows, List.nil_append]

/-- The first loop shows a design as proved or as failed. -/
theorem not_failing_designRow (b : Build) : ¬ Failing (designRow b) ↔ Proves b := by
  rw [← designRow_eq_proved]
  have h : designRow b = .FAIL ∨ designRow b = .PROVED ∨ designRow b = .DIFFER := by
    unfold designRow
    cases b.synth <;> cases b.pnr <;> cases b.extract <;> simp
  unfold Failing
  rcases h with h | h | h <;> simp [h]

/-! ### The exit status -/

/-- The designs the arguments ask for. -/
def requested (t : Tables) (args : List Str) : List Str := if args = [] then t.DESIGNS else args

/-- If the script exits 0, every requested name is a design of the table that
was run and shown as `PROVED`, and its result line says so. -/
def Sound (t : Tables) (args : List Str) (pinned : Bool) (tools : Str → Build) : Prop :=
  (main t args pinned tools).1 = 0 → ∀ w ∈ requested t args, w ∈ t.DESIGNS ∧ Proves (tools w) ∧
    ∃ tally, (main t args pinned tools).2 = some tally ∧ (w, Shown.PROVED) ∈ tally.rows

theorem wanted_iff {names : List Str} {n : Str} : wanted names n = true ↔ names = [] ∨ n ∈ names := by
  simp [wanted]

/-- The rows of the script's own tables are the requested designs. -/
theorem shown_tables (names : List Str) (tools : Str → Build) : shown tables names tools =
    (tables.DESIGNS.filter (wanted names)).map fun n => (n, designRow (tools n)) := by
  simp [shown, tables]

/-- A design of the table is run when it is asked for. -/
theorem wanted_iff_requested {args : List Str} {n : Str} (hn : n ∈ tables.DESIGNS) :
    wanted args n = true ↔ n ∈ requested tables args := by
  rw [wanted_iff, requested]
  split_ifs with h
  · exact iff_of_true (Or.inl h) hn
  · simp [h]

/-- Past the two early exits, status 0 is a proof of every requested design of
the table. -/
theorem status_eq_zero (args : List Str) (tools : Str → Build) :
    (if 0 < (sweep tables args tools).fail then 1 else 0) = 0 ↔
      ∀ n ∈ tables.DESIGNS, n ∈ requested tables args → Proves (tools n) := by
  have hzero : (if 0 < (sweep tables args tools).fail then 1 else 0) = 0 ↔
      (sweep tables args tools).fail = 0 := by
    split_ifs with h
    · exact iff_of_false (by decide) (by omega)
    · exact iff_of_true rfl (by omega)
  rw [hzero, fail_eq_zero, shown_tables]
  simp only [List.forall_mem_map, List.mem_filter, and_imp, not_failing_designRow]
  exact forall₂_congr fun n hn => by rw [wanted_iff_requested hn]

/-- **When the sweep cannot pass unproved.** Its first argument is not
`--list`, and yosys is not the pinned one, or a requested design of the table
is not proved, or every name given is in the table. -/
theorem sweep_sound_iff (args : List Str) (pinned : Bool) (tools : Str → Build) :
    Sound tables args pinned tools ↔ args.head? ≠ some "--list".toList ∧
      (pinned = false ∨ (∃ n ∈ tables.DESIGNS, n ∈ requested tables args ∧ ¬ Proves (tools n)) ∨
        ∀ n ∈ args, n ∈ tables.DESIGNS) := by
  by_cases hlist : args.head? = some "--list".toList
  · -- the table is printed, nothing is run
    refine iff_of_false (fun h => ?_) fun h => h.1 hlist
    have hmain : main tables args pinned tools = (0, none) := if_pos hlist
    obtain ⟨w, ws, rfl⟩ := List.exists_cons_of_ne_nil
      (show args ≠ [] by rintro rfl; cases hlist)
    obtain ⟨-, -, tally, ht, -⟩ := h (by rw [hmain]) w (by simp [requested])
    rw [hmain] at ht
    cases ht
  cases pinned with
  | false =>
    have hmain : (main tables args false tools).1 = 2 := by rw [main, if_neg hlist]; rfl
    exact iff_of_true (fun h => by rw [hmain] at h; cases h) ⟨hlist, Or.inl rfl⟩
  | true =>
    have hmain : main tables args true tools =
        (if 0 < (sweep tables args tools).fail then 1 else 0, some (sweep tables args tools)) := by
      rw [main, if_neg hlist]
      rfl
    have hshown : ∀ w ∈ requested tables args, w ∈ tables.DESIGNS → Proves (tools w) →
        (w, Shown.PROVED) ∈ (sweep tables args tools).rows := by
      intro w hw hd hp
      rw [rows_sweep, shown_tables, List.mem_map]
      exact ⟨w, List.mem_filter.mpr ⟨hd, (wanted_iff_requested hd).mpr hw⟩,
        by rw [(designRow_eq_proved _).mpr hp]⟩
    unfold Sound
    rw [hmain, status_eq_zero]
    simp only [hlist, ne_eq, not_false_eq_true, true_and, Bool.true_eq_false, false_or,
      Option.some.injEq, exists_eq_left']
    constructor
    · intro h
      by_cases hall : ∀ n ∈ tables.DESIGNS, n ∈ requested tables args → Proves (tools n)
      · refine Or.inr fun n hn => (h hall n ?_).1
        rw [requested, if_neg (List.ne_nil_of_mem hn)]
        exact hn
      · push Not at hall
        exact Or.inl hall
    · rintro (⟨n, hn, hr, hp⟩ | hargs) hall w hw
      · exact absurd (hall n hn hr) hp
      · have hd : w ∈ tables.DESIGNS := by
          rw [requested] at hw
          split_ifs at hw
          · exact hw
          · exact hargs w hw
        exact ⟨hd, hall w hd hw, hshown w hw hd (hall w hd hw)⟩

/-- A name that is no design passes. -/
theorem not_sound : ¬ Sound tables ["vc707-jonson".toList] true
    fun _ => ⟨false, false, [], false, []⟩ := by
  intro h
  have hmem := (h (by decide) "vc707-jonson".toList List.mem_cons_self).1
  revert hmem
  decide

end Sweep
end Xc7Tools
