/-
# ethmin_vm_core: the boot sequencer loads one image

An image is a program with its heap and globals: the one in the ROMs, or what
the header in the staging RAM says is behind it. Every cycle with `resetn`
low begins the load of the resident image, every BOOT that of the staged one;
`Boots` notes which, with the writes on the load port since. When the VM
leaves reset the writes are the image's `loads`, each word once and in order,
and what the fetch unit gives it are the image's words (`runs_its_image`).

The sequencer reads word `i` of a section in the cycle before it writes it:
`Stands` says for each of its states how far the load has come.

Key definitions: `Image.resident`, `Image.staged`, `Image.Fits`, `Image.loads`,
`Boots.note`, `Stands`.
Key theorems: `runs_its_image`, `boot_time`.
-/
import Xc7Tools.EthminVm.Trap

namespace Xc7Tools
namespace EthminVm

/-! ### Images -/

/-- A program with its heap and globals. -/
structure Image where
  fromStage : Bool
  code : List (BitVec 32)
  heap : List (BitVec 32)
  globals : List (BitVec 32)
  deriving DecidableEq

/-- A write on the load port of the VM. -/
structure Load where
  globals : Bool
  addr : BitVec 15
  data : BitVec 32
  deriving DecidableEq

/-- `n` words from `a` on. -/
def words (mem : ℕ → BitVec 32) (a n : ℕ) : List (BitVec 32) :=
  (List.range n).map fun k => mem (a + k)

theorem length_words (mem : ℕ → BitVec 32) (a n : ℕ) : (words mem a n).length = n := by
  simp [words]

theorem getD_words {mem : ℕ → BitVec 32} {a n k : ℕ} (d : BitVec 32) (hk : k < n) :
    (words mem a n).getD k d = mem (a + k) := by
  simp [words, hk]

namespace Image

/-- The image in the ROMs. -/
def resident (p : Params) : Image where
  fromStage := false
  code := words (fun k => p.codeRom (BitVec.ofNat 15 k)) 0 p.programWords
  heap := words (fun k => (p.heapRom (BitVec.ofNat 16 k)).setWidth 32) 0 p.heapWords
  globals := words (fun k => (p.globalsRom (BitVec.ofNat 16 k)).setWidth 32) 0 p.globalsWords

/-- The image in the staging RAM: three counts in words 2 to 4, the sections from word 8 on. -/
def staged (ram : BitVec 15 → BitVec 32) : Image :=
  let mem := fun k => ram (BitVec.ofNat 15 k)
  let c := (ram 2).toNat
  let h := (ram 3).toNat
  { fromStage := true
    code := words mem 8 c
    heap := words mem (8 + c) h
    globals := words mem (8 + c + h) (ram 4).toNat }

theorem resident_lengths (p : Params) : (resident p).code.length = p.programWords ∧
    (resident p).heap.length = p.heapWords ∧ (resident p).globals.length = p.globalsWords := by
  simp [resident, length_words]

theorem staged_lengths (ram : BitVec 15 → BitVec 32) : (staged ram).code.length = (ram 2).toNat ∧
    (staged ram).heap.length = (ram 3).toNat ∧ (staged ram).globals.length = (ram 4).toNat := by
  simp [staged, length_words]

/-- The image fits the memories: the code RAM or ROM, the heap, the globals,
and a staged one the window of the staging RAM. -/
structure Fits (m : Image) : Prop where
  code : m.code.length ≤ 2 ^ 15
  heap : m.heap.length < 2 ^ 15
  globals : m.globals.length ≤ 2 ^ 13
  stage : m.fromStage = true → 8 + m.code.length + m.heap.length + m.globals.length ≤ 16384

/-- The write of heap word `k`. -/
def heapLoad (m : Image) (k : ℕ) : Load := ⟨false, BitVec.ofNat 15 k, m.heap.getD k 1⟩

/-- The write of global `k`: from the image, and 1 behind it. -/
def globalLoad (m : Image) (k : ℕ) : Load := ⟨true, BitVec.ofNat 15 k, m.globals.getD k 1⟩

/-- What loads the image. -/
def loads (m : Image) : List Load :=
  (List.range m.heap.length).map m.heapLoad ++ (List.range (2 ^ 13)).map m.globalLoad

/-- The word at a `pc`. -/
def word (m : Image) (pc : BitVec 24) : BitVec 32 := m.code.getD pc.toNat 0xDEADBEEF

end Image

/-- The write on the load port, if there is one. -/
def Seq.loadPort (s : Seq) : List Load :=
  if s.loadWe then [⟨s.loadGlobals, s.loadAddr, s.loadData⟩] else []

/-! ### What is noted of a run -/

/-- The image of the last reset or BOOT, the writes on the load port since,
and the image of the last cycle the VM was out of reset in. -/
structure Boots where
  image : Image
  log : List Load
  ran : Image

namespace Boots

def note (p : Params) (c : Core) (e : Edge) (g : Boots) : Boots :=
  match e with
  | .eth _ => g
  | .sys i =>
    let ran := if c.vmReset i then g.ran else g.image
    if !i.resetn then ⟨.resident p, [], ran⟩
    else if c.io.bootReq then ⟨.staged c.staging.stageRam, [], ran⟩
    else ⟨g.image, g.log ++ c.seq.loadPort, ran⟩

/-- After an edge with `resetn` low. -/
def start (p : Params) : Boots := ⟨.resident p, [], .resident p⟩

/-- The image that runs in a cycle, or ran last when the VM is in reset. -/
def running (g : Boots) (c : Core) (i : SysIn) : Image := if c.vmReset i then g.ran else g.image

end Boots

/-! ### How far the load has come -/

/-- The word read last cycle from the source of the image. -/
def Seq.word (s : Seq) : BitVec 32 := if s.seqFromStage then s.seqQ else s.romQ

/-- Word `seq_i` of the section `ws` of `n` words is the next to be read, and
the one before it was read last cycle. -/
structure Copying (n : ℕ) (ws : List (BitVec 32)) (s : Seq) : Prop where
  length : s.seqN.toNat = n
  le : s.seqI.toNat ≤ n
  ready : s.seqDataReady = decide (0 < s.seqI.toNat)
  word : ∀ k, s.seqI.toNat = k + 1 → k < ws.length → s.word = ws.getD k 1

/-- The header is read. -/
structure Counts (m : Image) (s : Seq) : Prop where
  code : s.stageCode.toNat = m.code.length
  heap : s.stageHeap.toNat = m.heap.length
  globals : s.stageGlobals.toNat = m.globals.length

/-- The first `n` words of the program are in the code RAM. -/
def CodeIn (m : Image) (n : ℕ) (s : Seq) : Prop :=
  ∀ k < n, s.progCode (BitVec.ofNat 15 k) = m.code.getD k 1

/-- The header, word by word. -/
structure InHeader (m : Image) (s : Seq) : Prop where
  ready : s.seqDataReady = decide (0 < s.hdrI.toNat)
  q1 : s.hdrI = 1 → (s.seqQ.setWidth 16).toNat = m.code.length
  code : 2 ≤ s.hdrI → s.stageCode.toNat = m.code.length
  q2 : s.hdrI = 2 → (s.seqQ.setWidth 16).toNat = m.heap.length
  heap : 3 ≤ s.hdrI → s.stageHeap.toNat = m.heap.length
  q3 : s.hdrI = 3 → (s.seqQ.setWidth 16).toNat = m.globals.length

/-- The program is in place; of a staged image the counts are, too. -/
def Placed (m : Image) (s : Seq) : Prop :=
  s.seqFromStage = m.fromStage ∧ (m.fromStage = true → Counts m s ∧ CodeIn m m.code.length s)

/-- How far the load of `m` has come, with `done` the writes so far. -/
def Stands (m : Image) (done : List Load) (s : Seq) : Prop :=
  match s.seqState with
  | .resident => m.fromStage = false ∧ s.seqFromStage = false ∧ done = []
  | .header => m.fromStage = true ∧ s.seqFromStage = true ∧ InHeader m s ∧ done = []
  | .code =>
    m.fromStage = true ∧ s.seqFromStage = true ∧ Counts m s ∧ Copying m.code.length m.code s ∧
      CodeIn m (s.seqI.toNat - 1) s ∧ done = []
  | .heap =>
    Placed m s ∧ Copying m.heap.length m.heap s ∧
      done = (List.range (s.seqI.toNat - 1)).map m.heapLoad
  | .globals =>
    Placed m s ∧ Copying (2 ^ 13) m.globals s ∧ s.globCount.toNat = m.globals.length ∧
      done = (List.range m.heap.length).map m.heapLoad ++
        (List.range (s.seqI.toNat - 1)).map m.globalLoad
  | .start => Placed m s ∧ done = m.loads
  | .run =>
    s.loadWe = false ∧ s.imageWords.toNat = m.heap.length ∧ s.codeBank = m.fromStage ∧
      (m.fromStage = true → s.progWords.toNat = m.code.length ∧ CodeIn m m.code.length s) ∧
      done = m.loads
  | .unused => False

/-! ### The sequencer, edge by edge -/

namespace Seq

variable (p : Params) (ram : BitVec 15 → BitVec 32) (s : Seq)

theorem clk_resident {bootReq : Bool} (hs : s.seqState = .resident) :
    s.clk p ram true bootReq =
      { s.latched p ram with
        seqN := BitVec.ofNat 16 p.heapWords
        seqI := 0
        seqDataReady := false
        seqState := .heap } := by
  unfold clk
  simp only [hs]
  rfl

/-- A section copy after the write of the word read last cycle. -/
def stored : Seq := if s.seqDataReady then s.store (s.latched p ram) else s.latched p ram

theorem clk_copy {bootReq : Bool}
    (hs : s.seqState = .code ∨ s.seqState = .heap ∨ s.seqState = .globals) :
    s.clk p ram true bootReq = s.advance p (s.stored p ram) := by
  unfold clk
  rcases hs with hs | hs | hs <;> simp only [hs] <;> rfl

/-- The write changes the load port and the code RAM only. -/
theorem stored_frame :
    (s.stored p ram).seqState = s.seqState ∧ (s.stored p ram).seqFromStage = s.seqFromStage ∧
      (s.stored p ram).seqN = s.seqN ∧ (s.stored p ram).stageCode = s.stageCode ∧
      (s.stored p ram).stageHeap = s.stageHeap ∧ (s.stored p ram).stageGlobals = s.stageGlobals ∧
      (s.stored p ram).globCount = s.globCount ∧ (s.stored p ram).vmHold = s.vmHold ∧
      (s.stored p ram).seqQ = (s.latched p ram).seqQ ∧
      (s.stored p ram).romQ = (s.latched p ram).romQ := by
  unfold stored store
  split_ifs <;> exact ⟨rfl, rfl, rfl, rfl, rfl, rfl, rfl, rfl, rfl, rfl⟩

theorem stored_progWords : (s.stored p ram).progWords = s.progWords := by
  unfold stored store
  split_ifs <;> rfl

theorem stored_word : (s.stored p ram).word = (s.latched p ram).word := by
  obtain ⟨-, hfrom, -, -, -, -, -, -, hq, hrom⟩ := s.stored_frame p ram
  have hfrom' : (s.latched p ram).seqFromStage = s.seqFromStage := rfl
  rw [word, word, hfrom, hq, hrom, hfrom']

/-- Heap and globals go to the load port. -/
theorem stored_load (hs : s.seqState ≠ .code) :
    (s.stored p ram).progCode = s.progCode ∧
      (s.stored p ram).loadPort = if s.seqDataReady then
        [⟨decide (s.seqState = .globals), (s.seqI - 1).setWidth 15,
          if s.seqState = .globals ∧ s.globCount.setWidth 32 ≤ s.seqI.setWidth 32 - 1 then 1
          else s.word⟩] else [] := by
  unfold stored
  cases s.seqDataReady with
  | false => exact ⟨rfl, rfl⟩
  | true =>
    rw [if_pos rfl, if_pos rfl, store, if_neg hs]
    exact ⟨rfl, rfl⟩

/-- The program goes to the code RAM. -/
theorem stored_code (hs : s.seqState = .code) :
    (s.stored p ram).loadPort = [] ∧
      (s.stored p ram).progCode =
        if s.seqDataReady = true ∧ s.seqI.setWidth 15 ≠ 0 then
          Function.update s.progCode (s.seqI.setWidth 15 - 1) s.seqQ
        else s.progCode := by
  unfold stored
  cases s.seqDataReady with
  | false => exact ⟨rfl, by simp [latched]⟩
  | true =>
    rw [if_pos rfl, store, if_pos hs]
    by_cases hz : s.seqI.setWidth 15 = 0
    · rw [if_pos hz, if_neg fun h => h.2 hz]
      exact ⟨rfl, rfl⟩
    · rw [if_neg hz, if_pos ⟨rfl, hz⟩]
      exact ⟨rfl, rfl⟩

end Seq

/-- An index that does not wrap. -/
theorem toNat_next {x : BitVec 16} (h : x.toNat + 1 < 2 ^ 16) : (x + 1).toNat = x.toNat + 1 :=
  BitVec.toNat_add_of_lt h

/-- What the images are made of. -/
def Source (p : Params) (ram : BitVec 15 → BitVec 32) (m : Image) : Prop :=
  if m.fromStage then m = .staged ram else m = .resident p

section Reading

variable {p : Params} {ram : BitVec 15 → BitVec 32} {m : Image} {s : Seq}

theorem Source.staged (h : Source p ram m) (hm : m.fromStage = true) : m = .staged ram := by
  rwa [Source, if_pos hm] at h

theorem Source.resident (h : Source p ram m) (hm : m.fromStage = false) : m = .resident p := by
  rwa [Source, if_neg (ne_true_of_eq_false hm)] at h

/-- Where the words of a staged image are. -/
theorem staged_getD (h : m = .staged ram) (k : ℕ) :
    (k < m.code.length → m.code.getD k 1 = ram (BitVec.ofNat 15 (8 + k))) ∧
      (k < m.heap.length → m.heap.getD k 1 = ram (BitVec.ofNat 15 (8 + m.code.length + k))) ∧
      (k < m.globals.length → m.globals.getD k 1 =
        ram (BitVec.ofNat 15 (8 + m.code.length + m.heap.length + k))) := by
  subst h
  simp only [Image.staged, length_words]
  exact ⟨fun h => getD_words _ h, fun h => getD_words _ h, fun h => getD_words _ h⟩

theorem resident_getD (h : m = .resident p) {k : BitVec 16} :
    (k.toNat < m.heap.length → m.heap.getD k.toNat 1 = (p.heapRom k).setWidth 32) ∧
      (k.toNat < m.globals.length → m.globals.getD k.toNat 1 = (p.globalsRom k).setWidth 32) := by
  subst h
  simp only [Image.resident, length_words]
  constructor <;> intro h <;>
    rw [getD_words _ h, Nat.zero_add, BitVec.ofNat_toNat, BitVec.setWidth_eq]

theorem latched_resident (hs : s.seqFromStage = false) : (s.latched p ram).word =
    (if s.seqState = .globals then p.globalsRom s.seqI else p.heapRom s.seqI).setWidth 32 := by
  have hword : (s.latched p ram).word = (s.latched p ram).romQ :=
    if_neg (ne_true_of_eq_false hs)
  exact hword

/-- The word read behind the header and `x + y` words of earlier sections. -/
theorem latched_staged (hs : s.seqFromStage = true) {x y : BitVec 16}
    (haddr : s.seqAddr = (8 + s.seqI + x + y).setWidth 14)
    (hlt : 8 + x.toNat + y.toNat + s.seqI.toNat < 2 ^ 14) :
    (s.latched p ram).word = ram (BitVec.ofNat 15 (8 + x.toNat + y.toNat + s.seqI.toNat)) := by
  have hword : (s.latched p ram).word = ram (s.seqAddr.setWidth 15) := if_pos hs
  have h8 : (8 : BitVec 16).toNat = 8 := rfl
  rw [hword, haddr]
  apply congrArg ram
  apply BitVec.eq_of_toNat_eq
  simp only [BitVec.toNat_setWidth, BitVec.toNat_add, BitVec.toNat_ofNat, h8]
  omega

/-- The word of the program read in `SEQ_CODE`. -/
theorem read_code (hS : Source p ram m) (hF : m.Fits) (hm : m.fromStage = true)
    (hfrom : s.seqFromStage = true) (hs : s.seqState = .code)
    (hi : s.seqI.toNat < m.code.length) :
    (s.latched p ram).word = m.code.getD s.seqI.toNat 1 := by
  have hfit := hF.stage hm
  have h0 : (0 : BitVec 16).toNat = 0 := rfl
  have haddr : s.seqAddr = (8 + s.seqI + 0 + 0).setWidth 14 := by
    rw [Seq.seqAddr, if_neg (by simp [hs]), if_neg (by simp [hs]), if_neg (by simp [hs])]
  rw [latched_staged hfrom haddr (by omega), ((staged_getD (hS.staged hm) _).1 hi), h0]

/-- The word read in `SEQ_HEAP`. -/
theorem read_heap (hS : Source p ram m) (hF : m.Fits) (hP : Placed m s)
    (hs : s.seqState = .heap) (hi : s.seqI.toNat < m.heap.length) :
    (s.latched p ram).word = m.heap.getD s.seqI.toNat 1 := by
  rcases Bool.eq_false_or_eq_true m.fromStage with hm | hm
  · have hfit := hF.stage hm
    have hc := (hP.2 hm).1.code
    have h0 : (0 : BitVec 16).toNat = 0 := rfl
    have haddr : s.seqAddr = (8 + s.seqI + s.stageCode + 0).setWidth 14 := by
      rw [Seq.seqAddr, if_neg (by simp [hs]), if_pos (by simp [hs]), if_neg (by simp [hs])]
    rw [latched_staged (hP.1.trans hm) haddr (by omega), (staged_getD (hS.staged hm) _).2.1 hi, hc,
      h0, Nat.add_zero]
  · rw [latched_resident (hP.1.trans hm), if_neg (by simp [hs]),
      (resident_getD (hS.resident hm)).1 hi]

/-- The word read in `SEQ_GLOBALS`. -/
theorem read_globals (hS : Source p ram m) (hF : m.Fits) (hP : Placed m s)
    (hs : s.seqState = .globals) (hi : s.seqI.toNat < m.globals.length) :
    (s.latched p ram).word = m.globals.getD s.seqI.toNat 1 := by
  rcases Bool.eq_false_or_eq_true m.fromStage with hm | hm
  · have hfit := hF.stage hm
    have hc := (hP.2 hm).1.code
    have hh := (hP.2 hm).1.heap
    have haddr : s.seqAddr = (8 + s.seqI + s.stageCode + s.stageHeap).setWidth 14 := by
      rw [Seq.seqAddr, if_neg (by simp [hs]), if_pos (by simp [hs]), if_pos hs]
    rw [latched_staged (hP.1.trans hm) haddr (by omega), (staged_getD (hS.staged hm) _).2.2 hi, hc,
      hh]
  · rw [latched_resident (hP.1.trans hm), if_pos hs, (resident_getD (hS.resident hm)).2 hi]

end Reading

/-! ### The load, edge by edge -/

section

variable {p : Params} {ram : BitVec 15 → BitVec 32} {m : Image} {s s' : Seq} {n : ℕ}
  {ws : List (BitVec 32)} {done : List Load}

/-- A section begins. -/
theorem Copying.first (hN : s.seqN.toNat = n) (hI : s.seqI = 0) (hr : s.seqDataReady = false) :
    Copying n ws s := by
  have h0 : s.seqI.toNat = 0 := by
    rw [hI]
    rfl
  refine ⟨hN, by omega, ?_, fun k hk => by omega⟩
  rw [hr, h0]
  rfl

/-- A section goes on. -/
theorem Copying.next (h : Copying n ws s) (hlt : s.seqI < s.seqN) (hN : s'.seqN = s.seqN)
    (hI : s'.seqI = s.seqI + 1) (hr : s'.seqDataReady = true)
    (hw : s.seqI.toNat < ws.length → s'.word = ws.getD s.seqI.toNat 1) : Copying n ws s' := by
  have hlt' : s.seqI.toNat < n := by
    rw [← h.length]
    exact hlt
  have hn : n < 2 ^ 16 := by
    rw [← h.length]
    exact s.seqN.isLt
  have hsucc : s'.seqI.toNat = s.seqI.toNat + 1 := by
    rw [hI, toNat_next (by omega)]
  refine ⟨hN ▸ h.length, by omega, ?_, fun k hk hlen => ?_⟩
  · rw [hr, hsucc, decide_eq_true (Nat.succ_pos _)]
  · obtain rfl : k = s.seqI.toNat := by omega
    exact hw hlen

/-- A section is done when its last word has been read. -/
theorem Copying.last (h : Copying n ws s) (hlt : ¬ s.seqI < s.seqN) : s.seqI.toNat = n := by
  have hge : s.seqN.toNat ≤ s.seqI.toNat := Nat.le_of_not_lt hlt
  rw [h.length] at hge
  exact Nat.le_antisymm h.le hge

/-- With the word read last cycle written, all words read are. -/
theorem Copying.written (h : Copying n ws s) {f : ℕ → Load} {port : List Load}
    (hport : ∀ k, s.seqI.toNat = k + 1 → s.seqDataReady = true → port = [f k])
    (hnone : s.seqDataReady = false → port = []) :
    (List.range (s.seqI.toNat - 1)).map f ++ port = (List.range s.seqI.toNat).map f := by
  rcases Nat.eq_zero_or_pos s.seqI.toNat with h0 | hpos
  · have hr := h.ready
    rw [h0] at hr
    rw [hnone hr, h0]
    rfl
  · obtain ⟨k, hk⟩ := Nat.exists_eq_succ_of_ne_zero (Nat.pos_iff_ne_zero.mp hpos)
    have hr := h.ready
    rw [decide_eq_true hpos] at hr
    rw [hport k hk hr, hk, Nat.succ_sub_one, List.range_succ, List.map_append, List.map_singleton]

/-- The slot of the word read last cycle. -/
theorem slot_eq {x : BitVec 16} {k : ℕ} (h : x.toNat = k + 1) :
    (x - 1).setWidth 15 = BitVec.ofNat 15 k := by
  have hx := x.isLt
  have hone : (1 : BitVec 16).toNat = 1 := rfl
  apply BitVec.eq_of_toNat_eq
  rw [BitVec.toNat_setWidth, BitVec.toNat_sub, hone, BitVec.toNat_ofNat, h]
  omega

theorem Counts.congr (h : Counts m s) (hc : s'.stageCode = s.stageCode)
    (hh : s'.stageHeap = s.stageHeap) (hg : s'.stageGlobals = s.stageGlobals) : Counts m s' :=
  ⟨hc ▸ h.code, hh ▸ h.heap, hg ▸ h.globals⟩

theorem Placed.congr (h : Placed m s) (hfrom : s'.seqFromStage = s.seqFromStage)
    (hc : s'.stageCode = s.stageCode) (hh : s'.stageHeap = s.stageHeap)
    (hg : s'.stageGlobals = s.stageGlobals) (hp : s'.progCode = s.progCode) : Placed m s' := by
  refine ⟨hfrom.trans h.1, fun hm => ?_⟩
  obtain ⟨hC, hin⟩ := h.2 hm
  exact ⟨hC.congr hc hh hg, fun k hk => hp ▸ hin k hk⟩

variable (p ram) in
/-- Heap words go to the load port in their order. -/
theorem heap_written (hs : s.seqState = .heap) (h : Copying m.heap.length m.heap s) :
    (List.range (s.seqI.toNat - 1)).map m.heapLoad ++ (s.stored p ram).loadPort =
      (List.range s.seqI.toNat).map m.heapLoad := by
  have hload := (s.stored_load p ram (by simp [hs])).2
  have hle := h.le
  apply h.written
  · intro k hk hr
    rw [hload, hr, if_pos rfl, slot_eq hk, if_neg (by simp [hs]), h.word k hk (by omega)]
    simp [Image.heapLoad, hs]
  · intro hr
    rw [hload, hr, if_neg Bool.false_ne_true]

variable (p ram) in
/-- Globals go to the load port in their order, then ones. -/
theorem globals_written (hs : s.seqState = .globals) (h : Copying (2 ^ 13) m.globals s)
    (hg : s.globCount.toNat = m.globals.length) :
    (List.range (s.seqI.toNat - 1)).map m.globalLoad ++ (s.stored p ram).loadPort =
      (List.range s.seqI.toNat).map m.globalLoad := by
  have hload := (s.stored_load p ram (by simp [hs])).2
  apply h.written
  · intro k hk hr
    have hone : (1 : BitVec 32).toNat = 1 := rfl
    have hcmp : s.globCount.setWidth 32 ≤ s.seqI.setWidth 32 - 1 ↔ m.globals.length ≤ k := by
      have hi := s.seqI.isLt
      have hc := s.globCount.isLt
      rw [BitVec.le_def, BitVec.toNat_sub, BitVec.toNat_setWidth, BitVec.toNat_setWidth, hone, hg, hk]
      omega
    rw [hload, hr, if_pos rfl, slot_eq hk, decide_eq_true hs]
    by_cases hlen : m.globals.length ≤ k
    · rw [if_pos ⟨hs, hcmp.mpr hlen⟩, Image.globalLoad, List.getD_eq_getElem?_getD,
        List.getElem?_eq_none hlen, Option.getD_none]
    · rw [if_neg fun h => hlen (hcmp.mp h.2), h.word k hk (by omega)]
      rfl
  · intro hr
    rw [hload, hr, if_neg Bool.false_ne_true]

/-- Words of the program go to the code RAM in their order. -/
theorem code_written (hs : s.seqState = .code) (hfrom : s.seqFromStage = true)
    (hlen : m.code.length < 2 ^ 15) (h : Copying m.code.length m.code s)
    (hin : CodeIn m (s.seqI.toNat - 1) s) : CodeIn m s.seqI.toNat (s.stored p ram) := by
  have hstored := (s.stored_code p ram hs).2
  have hle := h.le
  rcases Nat.eq_zero_or_pos s.seqI.toNat with h0 | hpos
  · rw [h0]
    exact fun k hk => absurd hk (Nat.not_lt_zero k)
  · obtain ⟨j, hj⟩ := Nat.exists_eq_succ_of_ne_zero (Nat.pos_iff_ne_zero.mp hpos)
    have hr := h.ready
    rw [decide_eq_true hpos] at hr
    have hword : s.seqQ = m.code.getD j 1 := by
      rw [← h.word j hj (by omega)]
      exact (if_pos hfrom).symm
    have hslot : s.seqI.setWidth 15 - 1 = BitVec.ofNat 15 j := by
      rw [← slot_eq hj]
      apply BitVec.eq_of_toNat_eq
      have hone : (1 : BitVec 16).toNat = 1 := rfl
      have hone' : (1 : BitVec 15).toNat = 1 := rfl
      rw [BitVec.toNat_sub, BitVec.toNat_setWidth, BitVec.toNat_setWidth, BitVec.toNat_sub, hone,
        hone', hj]
      omega
    have hne : s.seqI.setWidth 15 ≠ 0 := by
      intro h0
      have := congrArg BitVec.toNat h0
      rw [BitVec.toNat_setWidth, hj, Nat.mod_eq_of_lt (by omega)] at this
      exact Nat.succ_ne_zero j this
    rw [if_pos ⟨hr, hne⟩, hslot, hword] at hstored
    intro k hk
    rw [hstored]
    rcases Nat.lt_or_ge k j with hlt | hge
    · -- an earlier slot
      rw [Function.update_of_ne]
      · exact hin k (by omega)
      · intro heq
        have := congrArg BitVec.toNat heq
        rw [BitVec.toNat_ofNat, BitVec.toNat_ofNat, Nat.mod_eq_of_lt (by omega),
          Nat.mod_eq_of_lt (by omega)] at this
        omega
    · obtain rfl : k = j := by omega
      rw [Function.update_self]

variable {bootReq : Bool}

theorem stands_resident (hS : Source p ram m) (hF : m.Fits) (hs : s.seqState = .resident)
    (h : Stands m done s) :
    Stands m (done ++ (s.clk p ram true bootReq).loadPort) (s.clk p ram true bootReq) := by
  unfold Stands at h
  rw [hs] at h
  obtain ⟨hm, hfrom, rfl⟩ := h
  have hclk : s.clk p ram true bootReq = _ := s.clk_resident p ram hs
  have hlen : m.heap.length = p.heapWords := by
    rw [hS.resident hm]
    exact (Image.resident_lengths p).2.1
  have hN : (BitVec.ofNat 16 p.heapWords).toNat = m.heap.length := by
    have := hF.heap
    rw [BitVec.toNat_ofNat, hlen, Nat.mod_eq_of_lt (by omega)]
  rw [hclk]
  refine ⟨⟨hfrom.trans hm.symm, fun h => ?_⟩, Copying.first hN rfl rfl, rfl⟩
  rw [hm] at h
  cases h

theorem stands_header (hS : Source p ram m) (hF : m.Fits) (hs : s.seqState = .header)
    (h : Stands m done s) :
    Stands m (done ++ (s.clk p ram true bootReq).loadPort) (s.clk p ram true bootReq) := by
  unfold Stands at h
  rw [hs] at h
  obtain ⟨hm, hfrom, hH, rfl⟩ := h
  have hclk : s.clk p ram true bootReq = s.header (s.latched p ram) := by
    unfold Seq.clk
    simp only [hs]
    rfl
  have hfit := hF.stage hm
  -- the counts are in the low halves of words 2 to 4
  have hcounts : m.code.length = (ram 2).toNat ∧ m.heap.length = (ram 3).toNat ∧
      m.globals.length = (ram 4).toNat := by
    rw [hS.staged hm]
    exact Image.staged_lengths ram
  have hlow {x : BitVec 32} {n : ℕ} (hx : n = x.toNat) (hn : n ≤ 16384) :
      (x.setWidth 16).toNat = n := by
    rw [BitVec.toNat_setWidth, ← hx, Nat.mod_eq_of_lt (by omega)]
  have hq : (s.latched p ram).seqQ = ram ((2 + s.hdrI.setWidth 14).setWidth 15) := by
    rw [Seq.latched, Seq.seqAddr, if_pos hs]
  have hr := hH.ready
  have hcases : s.hdrI = 0 ∨ s.hdrI = 1 ∨ s.hdrI = 2 ∨ s.hdrI = 3 := by
    generalize s.hdrI = x
    revert x
    decide
  have hword {k : BitVec 2} {x : BitVec 15} {n : ℕ} (hi : s.hdrI = k)
      (hx : (2 + k.setWidth 14).setWidth 15 = x) (hn : n = (ram x).toNat) (hle : n ≤ 16384) :
      ((s.latched p ram).seqQ.setWidth 16).toNat = n := by
    rw [hq, hi, hx]
    exact hlow hn hle
  have hready {k : BitVec 2} (hi : s.hdrI = k) (hk : 0 < k.toNat) : s.seqDataReady = true := by
    rw [hr, hi, decide_eq_true hk]
  have hsame : (s.latched p ram) = { s.latched p ram with seqState := .header } := by
    rw [← hs]
    rfl
  have hno {k l : BitVec 2} {P : Prop} (h : k ≠ l) : k = l → P := fun he => absurd he h
  rw [hclk, Seq.header, hsame]
  rcases hcases with hi | hi | hi | hi
  · rw [hr, hi, if_neg (by decide)]
    refine ⟨hm, hfrom, ⟨rfl, fun _ => hword hi rfl hcounts.1 (by omega), ?_, ?_, ?_, ?_⟩, rfl⟩
    · exact fun h => absurd h (show ¬ (2 : BitVec 2) ≤ 1 by decide)
    · exact hno (show (1 : BitVec 2) ≠ 2 by decide)
    · exact fun h => absurd h (show ¬ (3 : BitVec 2) ≤ 1 by decide)
    · exact hno (show (1 : BitVec 2) ≠ 3 by decide)
  · rw [hready hi (by decide), if_pos rfl, hi, if_pos rfl]
    refine ⟨hm, hfrom, ⟨rfl, hno (show (2 : BitVec 2) ≠ 1 by decide), fun _ => hH.q1 hi,
      fun _ => hword hi rfl hcounts.2.1 (by omega), ?_, ?_⟩, rfl⟩
    · exact fun h => absurd h (show ¬ (3 : BitVec 2) ≤ 2 by decide)
    · exact hno (show (2 : BitVec 2) ≠ 3 by decide)
  · rw [hready hi (by decide), if_pos rfl, hi, if_neg (by decide), if_pos rfl]
    refine ⟨hm, hfrom, ⟨rfl, hno (show (3 : BitVec 2) ≠ 1 by decide),
      fun _ => hH.code (by rw [hi]; decide), hno (show (3 : BitVec 2) ≠ 2 by decide),
      fun _ => hH.q2 hi, fun _ => hword hi rfl hcounts.2.2 (by omega)⟩, rfl⟩
  · have hcode := hH.code (by rw [hi]; decide)
    rw [hready hi (by decide), if_pos rfl, hi, if_neg (by decide), if_neg (by decide), if_pos rfl]
    refine ⟨hm, hfrom, ⟨hcode, hH.heap (by rw [hi]; decide), hH.q3 hi⟩, Copying.first hcode rfl rfl, ?_, rfl⟩
    exact fun k hk => absurd hk (Nat.not_lt_zero k)

/-- A section goes on after the write of the word read last cycle. -/
theorem clk_word (hs : s.seqState = .code ∨ s.seqState = .heap ∨ s.seqState = .globals)
    (hlt : s.seqI < s.seqN) : s.clk p ram true bootReq =
      { s.stored p ram with
        seqState := s.seqState, seqI := s.seqI + 1, seqDataReady := true } := by
  rw [s.clk_copy p ram hs, Seq.advance, if_pos hlt, ← (s.stored_frame p ram).1]

theorem succ_pred {x : BitVec 16} (h : x.toNat < 2 ^ 15) : (x + 1).toNat - 1 = x.toNat := by
  rw [toNat_next (by omega), Nat.add_sub_cancel]

theorem stands_code (hS : Source p ram m) (hF : m.Fits) (hs : s.seqState = .code)
    (h : Stands m done s) :
    Stands m (done ++ (s.clk p ram true bootReq).loadPort) (s.clk p ram true bootReq) := by
  unfold Stands at h
  rw [hs] at h
  obtain ⟨hm, hfrom, hC, hcopy, hin, rfl⟩ := h
  have hfit := hF.stage hm
  have hin' : CodeIn m s.seqI.toNat (s.stored p ram) := code_written hs hfrom (by omega) hcopy hin
  have hport : (s.stored p ram).loadPort = [] := (s.stored_code p ram hs).1
  obtain ⟨-, hfrom', hN, hc, hh, hg, -⟩ := s.stored_frame p ram
  by_cases hlt : s.seqI < s.seqN
  · have hlt' : s.seqI.toNat < m.code.length := by
      rw [← hcopy.length]
      exact hlt
    rw [clk_word (Or.inl hs) hlt, hs]
    refine ⟨hm, hfrom'.trans hfrom, hC.congr hc hh hg, hcopy.next hlt hN rfl rfl fun hlen => ?_,
      ?_, hport⟩
    · rw [← read_code hS hF hm hfrom hs hlen]
      exact s.stored_word p ram
    · intro k hk
      apply hin' k
      rw [← succ_pred (x := s.seqI) (by omega)]
      exact hk
  · have hlast := hcopy.last hlt
    rw [s.clk_copy p ram (Or.inl hs), Seq.advance, if_neg hlt, hs]
    refine ⟨⟨(hfrom'.trans hfrom).trans hm.symm, fun _ => ⟨hC.congr hc hh hg, ?_⟩⟩,
      Copying.first hC.heap rfl rfl, hport⟩
    rw [← hlast]
    exact hin'

theorem stands_heap (hS : Source p ram m) (hF : m.Fits) (hs : s.seqState = .heap)
    (h : Stands m done s) :
    Stands m (done ++ (s.clk p ram true bootReq).loadPort) (s.clk p ram true bootReq) := by
  unfold Stands at h
  rw [hs] at h
  obtain ⟨hP, hcopy, rfl⟩ := h
  have hheap := hF.heap
  have hle := hcopy.le
  have hwritten := heap_written p ram hs hcopy
  have hprog := (s.stored_load p ram (by simp [hs])).1
  obtain ⟨-, hfrom', hN, hc, hh, hg, -⟩ := s.stored_frame p ram
  by_cases hlt : s.seqI < s.seqN
  · rw [clk_word (Or.inr (Or.inl hs)) hlt, hs]
    refine ⟨hP.congr hfrom' hc hh hg hprog, hcopy.next hlt hN rfl rfl fun hlen => ?_, ?_⟩
    · rw [← read_heap hS hF hP hs hlen]
      exact s.stored_word p ram
    · change (List.range (s.seqI.toNat - 1)).map m.heapLoad ++ (s.stored p ram).loadPort =
        (List.range ((s.seqI + 1).toNat - 1)).map m.heapLoad
      rw [hwritten, succ_pred (by omega)]
  · have hlast := hcopy.last hlt
    rw [s.clk_copy p ram (Or.inr (Or.inl hs)), Seq.advance, if_neg hlt, hs]
    refine ⟨hP.congr hfrom' hc hh hg hprog, Copying.first rfl rfl rfl, ?_, ?_⟩
    · -- the count of globals, from the header or the build
      have hglobals := hF.globals
      rcases Bool.eq_false_or_eq_true m.fromStage with hm | hm
      · refine (congrArg BitVec.toNat (if_pos (hP.1.trans hm))).trans ?_
        exact (hP.2 hm).1.globals
      · refine (congrArg BitVec.toNat (if_neg ?_)).trans ?_
        · rw [hP.1, hm]
          exact Bool.false_ne_true
        · have hlen : m.globals.length = p.globalsWords := by
            rw [hS.resident hm]
            exact (Image.resident_lengths p).2.2
          rw [BitVec.toNat_ofNat, hlen, Nat.mod_eq_of_lt (by omega)]
    · refine hwritten.trans ?_
      rw [hlast]
      exact (List.append_nil _).symm

theorem stands_globals (hS : Source p ram m) (hF : m.Fits) (hs : s.seqState = .globals)
    (h : Stands m done s) :
    Stands m (done ++ (s.clk p ram true bootReq).loadPort) (s.clk p ram true bootReq) := by
  unfold Stands at h
  rw [hs] at h
  obtain ⟨hP, hcopy, hcount, rfl⟩ := h
  have hle := hcopy.le
  have hwritten := globals_written p ram hs hcopy hcount
  have hprog := (s.stored_load p ram (by simp [hs])).1
  obtain ⟨-, hfrom', hN, hc, hh, hg, hcount', -⟩ := s.stored_frame p ram
  by_cases hlt : s.seqI < s.seqN
  · rw [clk_word (Or.inr (Or.inr hs)) hlt, hs]
    refine ⟨hP.congr hfrom' hc hh hg hprog, hcopy.next hlt hN rfl rfl fun hlen => ?_,
      hcount' ▸ hcount, ?_⟩
    · rw [← read_globals hS hF hP hs hlen]
      exact s.stored_word p ram
    · change _ ++ (List.range (s.seqI.toNat - 1)).map m.globalLoad ++ (s.stored p ram).loadPort =
        _ ++ (List.range ((s.seqI + 1).toNat - 1)).map m.globalLoad
      rw [List.append_assoc, hwritten, succ_pred (by omega)]
  · have hlast := hcopy.last hlt
    rw [s.clk_copy p ram (Or.inr (Or.inr hs)), Seq.advance, if_neg hlt, hs]
    refine ⟨hP.congr hfrom' hc hh hg hprog, ?_⟩
    rw [List.append_assoc]
    refine (congrArg _ hwritten).trans ?_
    rw [hlast]
    rfl

theorem stands_start (hS : m.fromStage = false → m = .resident p) (hF : m.Fits)
    (hs : s.seqState = .start) (h : Stands m done s) :
    Stands m (done ++ (s.clk p ram true bootReq).loadPort) (s.clk p ram true bootReq) := by
  unfold Stands at h
  rw [hs] at h
  obtain ⟨hP, rfl⟩ := h
  have hclk : s.clk p ram true bootReq =
      { s.latched p ram with
        imageWords :=
          if s.seqFromStage then s.stageHeap.setWidth 15 else BitVec.ofNat 15 p.heapWords
        codeBank := s.seqFromStage
        progWords := s.stageCode
        seqState := .run } := by
    unfold Seq.clk
    simp only [hs]
    rfl
  have hheap := hF.heap
  rw [hclk]
  refine ⟨rfl, ?_, hP.1, fun hm => ⟨(hP.2 hm).1.code, (hP.2 hm).2⟩, List.append_nil _⟩
  rcases Bool.eq_false_or_eq_true m.fromStage with hm | hm
  · refine (congrArg BitVec.toNat (if_pos (hP.1.trans hm))).trans ?_
    rw [BitVec.toNat_setWidth, (hP.2 hm).1.heap, Nat.mod_eq_of_lt (by omega)]
  · refine (congrArg BitVec.toNat (if_neg ?_)).trans ?_
    · rw [hP.1, hm]
      exact Bool.false_ne_true
    · have hlen : m.heap.length = p.heapWords := by
        rw [hS hm]
        exact (Image.resident_lengths p).2.1
      rw [BitVec.toNat_ofNat, hlen, Nat.mod_eq_of_lt (by omega)]

theorem stands_run (hs : s.seqState = .run) (h : Stands m done s) :
    Stands m (done ++ (s.clk p ram true false).loadPort) (s.clk p ram true false) := by
  unfold Stands at h
  rw [hs] at h
  obtain ⟨-, hwords, hbank, hprog, rfl⟩ := h
  have hclk : s.clk p ram true false =
      { s.latched p ram with seqState := .run, vmHold := false } := by
    unfold Seq.clk
    simp only [hs]
    rw [← hs]
    rfl
  rw [hclk]
  exact ⟨rfl, hwords, hbank, hprog, List.append_nil _⟩

/-- **The load comes on.** An edge without reset or BOOT. -/
theorem Stands.clk (hS : s.seqState ≠ .start → s.seqState ≠ .run → Source p ram m)
    (hres : m.fromStage = false → m = .resident p) (hF : m.Fits)
    (hb : s.seqState = .run → bootReq = false) (h : Stands m done s) :
    Stands m (done ++ (s.clk p ram true bootReq).loadPort) (s.clk p ram true bootReq) := by
  have hsource (h₁ : s.seqState ≠ .start) (h₂ : s.seqState ≠ .run) := hS h₁ h₂
  cases hs : s.seqState with
  | resident => exact stands_resident (hsource (by simp [hs]) (by simp [hs])) hF hs h
  | header => exact stands_header (hsource (by simp [hs]) (by simp [hs])) hF hs h
  | code => exact stands_code (hsource (by simp [hs]) (by simp [hs])) hF hs h
  | heap => exact stands_heap (hsource (by simp [hs]) (by simp [hs])) hF hs h
  | globals => exact stands_globals (hsource (by simp [hs]) (by simp [hs])) hF hs h
  | start => exact stands_start hres hF hs h
  | run =>
    rw [hb hs]
    exact stands_run hs h
  | unused =>
    unfold Stands at h
    rw [hs] at h
    exact h.elim

end

/-! ### BOOT, and what stands still -/

namespace Seq

variable {p : Params} {ram : BitVec 15 → BitVec 32} {s : Seq} {resetn bootReq : Bool}

/-- Only a running sequencer lets go of the VM. -/
theorem hold_clk (h : s.seqState ≠ .run → s.vmHold = true) :
    (s.clk p ram resetn bootReq).seqState ≠ .run → (s.clk p ram resetn bootReq).vmHold = true := by
  cases resetn with
  | false => exact fun _ => rfl
  | true =>
    intro hne
    cases hs : s.seqState with
    | run =>
      cases bootReq with
      | true =>
        unfold clk
        simp only [hs]
        rfl
      | false =>
        refine absurd ?_ hne
        unfold clk
        simp only [hs]
        exact hs
    | _ =>
      have hv := h (by simp [hs])
      unfold clk
      simp only [hs, Bool.not_true, Bool.false_eq_true, if_false, header_vmHold, advance_vmHold]
      first
        | exact hv
        | (split <;> simp [hv])

/-- A started program stays. -/
theorem run_clk (hs : s.seqState = .start ∨ s.seqState = .run ∧ bootReq = false) :
    (s.clk p ram true bootReq).seqState = .run := by
  unfold clk
  rcases hs with hs | ⟨hs, rfl⟩
  · simp only [hs]
    rfl
  · simp only [hs]
    exact hs

theorem run_codeBank (hs : s.seqState = .run) :
    (s.clk p ram true bootReq).codeBank = s.codeBank := by
  unfold clk
  simp only [hs]
  cases bootReq <;> rfl

end Seq

namespace Core

variable {p : Params} {c : Core} {i : SysIn}

theorem bootReq_accept : (c.accept p i c.io.lowered).bootReq = false ∨
    (c.accept p i c.io.lowered).ioState = .done := by
  unfold accept
  dsimp only
  split
  · split <;> exact Or.inl rfl
  · split
    · exact Or.inl rfl
    · exact Or.inr rfl

/-- BOOT is asked for in `IO_DONE`. -/
theorem bootReq_clkIo : (c.clkIo p i).bootReq = true → (c.clkIo p i).ioState = .done := by
  have h : (c.clkIo p i).bootReq = false ∨ (c.clkIo p i).ioState = .done := by
    unfold clkIo
    dsimp only
    split
    · split <;> exact Or.inl rfl
    · split
      · split
        · exact bootReq_accept
        · exact Or.inl rfl
      · exact Or.inr rfl
      · exact Or.inr rfl
      · split
        · exact Or.inr rfl
        · exact Or.inl rfl
      · split <;> exact Or.inl rfl
      · exact Or.inl rfl
  intro hb
  exact h.resolve_left (by rw [hb]; exact Bool.noConfusion)

/-- BOOT is asked for by a new request only. -/
theorem bootReq_of_ioNew (h : c.ioNew i = false) : (c.clkIo p i).bootReq = false := by
  unfold clkIo
  dsimp only
  rw [h]
  split
  · split <;> rfl
  · split <;> first | rfl | (split <;> rfl)

/-- Without a new request the staging RAM stands still. -/
theorem stageRam_of_ioNew (h : c.ioNew i = false) :
    (c.clkSys p i).staging.stageRam = c.staging.stageRam := by
  refine clkStaging_stageRam.trans (if_neg ?_)
  rw [h, Bool.false_and]
  exact Bool.false_ne_true

/-- The staging RAM stands still while the VM is held, and in the cycle that takes BOOT. -/
theorem stageRam_clkSys (h : c.vmReset i = true ∨ c.io.ioState = .done) :
    (c.clkSys p i).staging.stageRam = c.staging.stageRam :=
  stageRam_of_ioNew (by rcases h with h | h <;> simp [ioNew, h])

end Core

/-! ### What is fetched -/

/-- The word fetched from the program that runs. -/
theorem fetch_word {p : Params} {m : Image} {done : List Load} {q : Seq} (hF : m.Fits)
    (hres : m.fromStage = false → m = .resident p) (hs : q.seqState = .run)
    (h : Stands m done q) (f : Fetch) (vmReset : Bool) (pc : BitVec 24) :
    (f.clk p q vmReset pc).codeRdata q.codeBank = m.word (f.clk p q vmReset pc).codeQPc := by
  unfold Stands at h
  rw [hs] at h
  obtain ⟨-, -, hbank, hprog, -⟩ := h
  have hcode := hF.code
  change (if (!(if q.codeBank = true then
      decide (f.fetchPc pc < q.progWords.setWidth 24)
    else decide ((f.fetchPc pc).setWidth 32 < BitVec.ofNat 32 p.programWords))) = true then
      0xDEADBEEF
    else if q.codeBank = true then q.progCode ((f.fetchPc pc).setWidth 15)
    else p.codeRom ((f.fetchPc pc).setWidth 15)) = m.word (f.fetchPc pc)
  generalize f.fetchPc pc = a
  have ha := a.isLt
  have haddr : a.setWidth 15 = BitVec.ofNat 15 a.toNat := by
    apply BitVec.eq_of_toNat_eq
    simp
  have hout (h : m.code.length ≤ a.toNat) : m.word a = 0xDEADBEEF := by
    rw [Image.word, List.getD_eq_getElem?_getD, List.getElem?_eq_none h, Option.getD_none]
  have hin (h : a.toNat < m.code.length) : m.word a = m.code.getD a.toNat 1 := by
    simp [Image.word, h]
  rw [hbank]
  rcases Bool.eq_false_or_eq_true m.fromStage with hm | hm
  · obtain ⟨hlen, hmem⟩ := hprog hm
    have hlt : a < q.progWords.setWidth 24 ↔ a.toNat < m.code.length := by
      rw [BitVec.lt_def, BitVec.toNat_setWidth, hlen, Nat.mod_eq_of_lt (by omega)]
    simp only [hm, if_true, haddr]
    by_cases h : a.toNat < m.code.length
    · rw [decide_eq_true (hlt.mpr h), if_neg (by simp), hin h]
      exact hmem _ h
    · rw [decide_eq_false (fun h' => h (hlt.mp h')), if_pos (by simp), hout (by omega)]
  · have hlen : m.code.length = p.programWords := by
      rw [hres hm]
      exact (Image.resident_lengths p).1
    have hlt : a.setWidth 32 < BitVec.ofNat 32 p.programWords ↔ a.toNat < m.code.length := by
      rw [BitVec.lt_def, BitVec.toNat_setWidth, BitVec.toNat_ofNat, hlen,
        Nat.mod_eq_of_lt (by omega), Nat.mod_eq_of_lt (by omega)]
    simp only [hm, Bool.false_eq_true, if_false, haddr]
    by_cases h : a.toNat < m.code.length
    · rw [decide_eq_true (hlt.mpr h), if_neg (by simp), hin h]
      rw [hres hm] at h ⊢
      rw [(Image.resident_lengths p).1] at h
      rw [Image.resident, getD_words _ h, Nat.zero_add]
    · rw [decide_eq_false (fun h' => h (hlt.mp h')), if_pos (by simp), hout (by omega)]

/-! ### Along a run -/

namespace Boots

/-- The invariant; an image that does not fit is loaded all the same, but
nothing is said of it. -/
structure Inv (p : Params) (c : Core) (g : Boots) : Prop where
  hold : c.seq.seqState ≠ .run → c.seq.vmHold = true
  boot : c.io.bootReq = true → c.io.ioState = .done ∧ c.seq.seqState = .run
  resident : g.image.fromStage = false → g.image = .resident p
  source : c.seq.seqState ≠ .start → c.seq.seqState ≠ .run →
    Source p c.staging.stageRam g.image
  stands : g.image.Fits → Stands g.image (g.log ++ c.seq.loadPort) c.seq
  ran : c.fetch.codeQValid = true → c.seq.vmHold = false → g.ran = g.image
  fetch : c.fetch.codeQValid = true → g.ran.Fits →
    c.fetch.codeRdata c.seq.codeBank = g.ran.word c.fetch.codeQPc

variable {p : Params} {c : Core} {i : SysIn} {g : Boots}

/-- BOOT is asked for by a running program, so the sequencer is there to take it. -/
theorem boot_clkSys (hhold : c.seq.seqState ≠ .run → c.seq.vmHold = true)
    (hboot : c.io.bootReq = true → c.io.ioState = .done) (hb : (c.clkSys p i).io.bootReq = true) :
    (c.clkSys p i).io.ioState = .done ∧ (c.clkSys p i).seq.seqState = .run := by
  refine ⟨Core.bootReq_clkIo hb, ?_⟩
  have hnew : c.ioNew i = true := by
    by_contra hnew
    rw [show (c.clkSys p i).io.bootReq = false from
      Core.bootReq_of_ioNew (Bool.eq_false_iff.mpr hnew)] at hb
    cases hb
  have hall : ((i.trapValid = true ∧ (i.ioRead = true ∨ i.ioWrite = true)) ∧
      c.io.ioState = .idle) ∧ c.vmReset i = false := by
    simpa [Core.ioNew] using hnew
  obtain ⟨⟨-, hidle⟩, hv⟩ := hall
  obtain ⟨hr, hh⟩ := Bool.or_eq_false_iff.mp hv
  have hr : i.resetn = true := by simpa using hr
  have hs : c.seq.seqState = .run := by
    by_contra hne
    rw [hhold hne] at hh
    cases hh
  have hb' : c.io.bootReq = false := by
    rw [Bool.eq_false_iff]
    intro hb'
    rw [hboot hb'] at hidle
    cases hidle
  change (c.seq.clk p c.staging.stageRam i.resetn c.io.bootReq).seqState = .run
  rw [hr, hb']
  exact Seq.run_clk (Or.inr ⟨hs, rfl⟩)

/-- A cycle with `resetn` low; what came before does not matter. -/
theorem inv_reset (hr : i.resetn = false) : Inv p (c.clkSys p i) (note p c (.sys i) g) := by
  have hseq : (c.clkSys p i).seq =
      { c.seq.latched p c.staging.stageRam with
        seqState := .resident
        seqFromStage := false
        seqI := 0
        seqDataReady := false
        vmHold := true
        codeBank := false } := by
    change c.seq.clk p c.staging.stageRam i.resetn c.io.bootReq = _
    rw [hr]
    rfl
  have hvalid : (c.clkSys p i).fetch.codeQValid = false := by
    change (!c.vmReset i) = false
    simp [Core.vmReset, hr]
  have hnote : note p c (.sys i) g = ⟨.resident p, [], if c.vmReset i then g.ran else g.image⟩ := by
    simp [note, hr]
  have hvacuous {P : Prop} (h : (c.clkSys p i).fetch.codeQValid = true) : P := by
    rw [hvalid] at h
    cases h
  rw [hnote]
  have hboot : (c.clkSys p i).io.bootReq = false := by
    apply Core.bootReq_of_ioNew
    simp [Core.ioNew, Core.vmReset, hr]
  refine ⟨fun _ => by rw [hseq], fun hb => ?_, fun _ => rfl, fun _ _ => rfl, fun _ => ?_,
    hvacuous, hvacuous⟩
  · rw [hboot] at hb
    cases hb
  · rw [hseq]
    exact ⟨rfl, rfl, rfl⟩

/-- What is fetched in a cycle is right in the next. -/
theorem fetch_clkSys (h : Inv p c g) (hr : i.resetn = true) :
    (c.clkSys p i).fetch.codeQValid = true →
      (if c.vmReset i then g.ran else g.image).Fits →
        (c.clkSys p i).fetch.codeRdata (c.clkSys p i).seq.codeBank =
          (if c.vmReset i then g.ran else g.image).word (c.clkSys p i).fetch.codeQPc := by
  intro hvalid hF
  have hv : c.vmReset i = false := by
    have hvalid : (!c.vmReset i) = true := hvalid
    simpa using hvalid
  have hs : c.seq.seqState = .run := by
    by_contra hne
    rw [Core.vmReset, h.hold hne, Bool.or_true] at hv
    cases hv
  rw [hv, if_neg Bool.false_ne_true] at hF ⊢
  have hbank : (c.clkSys p i).seq.codeBank = c.seq.codeBank := by
    change (c.seq.clk p c.staging.stageRam i.resetn c.io.bootReq).codeBank = _
    rw [hr]
    exact Seq.run_codeBank hs
  rw [hbank]
  exact fetch_word hF h.resident hs (h.stands hF) c.fetch (c.vmReset i) i.pc

/-- The cycle that takes BOOT. -/
theorem inv_boot (h : Inv p c g) (hr : i.resetn = true) (hb : c.io.bootReq = true) :
    Inv p (c.clkSys p i) (note p c (.sys i) g) := by
  obtain ⟨hdone, hs⟩ := h.boot hb
  have hseq : (c.clkSys p i).seq =
      { c.seq.latched p c.staging.stageRam with
        vmHold := true
        seqFromStage := true
        hdrI := 0
        seqDataReady := false
        seqState := .header } := by
    change c.seq.clk p c.staging.stageRam i.resetn c.io.bootReq = _
    rw [hr, hb, Seq.clk]
    simp only [hs]
    rfl
  have hram : (c.clkSys p i).staging.stageRam = c.staging.stageRam :=
    Core.stageRam_clkSys (Or.inr hdone)
  have hnote : note p c (.sys i) g =
      ⟨.staged c.staging.stageRam, [], if c.vmReset i then g.ran else g.image⟩ := by
    simp [note, hr, hb]
  rw [hnote]
  refine ⟨fun _ => by rw [hseq], boot_clkSys h.hold fun hb => (h.boot hb).1, fun h => ?_,
    fun _ _ => ?_, fun _ => ?_, fun _ hv => ?_, fetch_clkSys h hr⟩
  · cases h
  · rw [hram]
    rfl
  · rw [hseq]
    refine ⟨rfl, rfl, ⟨rfl, ?_, ?_, ?_, ?_, ?_⟩, rfl⟩
    · exact fun h => absurd h (show (0 : BitVec 2) ≠ 1 by decide)
    · exact fun h => absurd h (show ¬ (2 : BitVec 2) ≤ 0 by decide)
    · exact fun h => absurd h (show (0 : BitVec 2) ≠ 2 by decide)
    · exact fun h => absurd h (show ¬ (3 : BitVec 2) ≤ 0 by decide)
    · exact fun h => absurd h (show (0 : BitVec 2) ≠ 3 by decide)
  · rw [hseq] at hv
    cases hv

/-- Any other cycle. -/
theorem inv_cycle (h : Inv p c g) (hr : i.resetn = true) (hb : c.io.bootReq = false) :
    Inv p (c.clkSys p i) (note p c (.sys i) g) := by
  have hseq : (c.clkSys p i).seq = c.seq.clk p c.staging.stageRam true c.io.bootReq := by
    rw [← hr]
    rfl
  have hnote : note p c (.sys i) g =
      ⟨g.image, g.log ++ c.seq.loadPort, if c.vmReset i then g.ran else g.image⟩ := by
    simp [note, hr, hb]
  rw [hnote]
  refine ⟨?_, boot_clkSys h.hold fun hb => (h.boot hb).1, h.resident, fun h₁ h₂ => ?_,
    fun hF => ?_, fun hvalid _ => ?_, fetch_clkSys h hr⟩
  · rw [hseq]
    exact Seq.hold_clk h.hold
  · -- a load that goes on reads the staging RAM as it was
    have hne : c.seq.seqState ≠ .start ∧ c.seq.seqState ≠ .run := by
      rw [hseq] at h₂
      exact ⟨fun hs => h₂ (Seq.run_clk (Or.inl hs)), fun hs => h₂ (Seq.run_clk (Or.inr ⟨hs, hb⟩))⟩
    have hv : c.vmReset i = true := by
      rw [Core.vmReset, h.hold hne.2, Bool.or_true]
    rw [Core.stageRam_clkSys (Or.inl hv)]
    exact h.source hne.1 hne.2
  · rw [hseq]
    exact (h.stands hF).clk h.source h.resident hF fun _ => hb
  · have hv : c.vmReset i = false := by
      have hvalid : (!c.vmReset i) = true := hvalid
      simpa using hvalid
    exact if_neg (ne_true_of_eq_false hv)

theorem Inv.step (h : Inv p c g) (e : Edge) : Inv p (c.step p e) (note p c e g) := by
  cases e with
  | eth b =>
    obtain ⟨hseq, hfetch, -, -, hio, hstaging, -⟩ := c.ethClk_frame b
    change Inv p (c.ethClk b) g
    constructor
    case hold => rw [hseq]; exact h.hold
    case boot => rw [hseq, hio]; exact h.boot
    case resident => exact h.resident
    case source => rw [hseq, hstaging]; exact h.source
    case stands => rw [hseq]; exact h.stands
    case ran => rw [hseq, hfetch]; exact h.ran
    case fetch => rw [hseq, hfetch]; exact h.fetch
  | sys i =>
    rcases Bool.eq_false_or_eq_true i.resetn with hr | hr
    · rcases Bool.eq_false_or_eq_true c.io.bootReq with hb | hb
      · exact inv_boot h hr hb
      · exact inv_cycle h hr hb
    · exact inv_reset hr

end Boots

/-- The module after a cycle with `resetn` low. -/
def Core.reset (p : Params) (c : Core) (i : SysIn) : Core := c.clkSys p { i with resetn := false }

/-- **The VM runs the image it was given.** In every run from a reset on, with
any resets and BOOTs in it: a VM out of reset has been given the writes that
load the image of the last reset or BOOT, in their order and no others, with
`image_words`, `code_bank`, and of a staged image `prog_words` and the code
RAM, as the image has them; and where `code_valid` is high the word is that of
the image that runs. -/
theorem runs_its_image (p : Params) (c₀ : Core) (i₀ : SysIn) (es : List Edge) :
    let r := Run.noted (Core.step p) (Boots.note p) (c₀.reset p i₀, Boots.start p) es
    let c := r.1
    let g := r.2
    ∀ i : SysIn,
      (c.vmReset i = false → g.image.Fits →
        g.log = g.image.loads ∧ c.seq.loadWe = false ∧
          c.seq.imageWords.toNat = g.image.heap.length ∧ c.seq.codeBank = g.image.fromStage ∧
          (g.image.fromStage = true → c.seq.progWords.toNat = g.image.code.length ∧
            ∀ k < g.image.code.length,
              c.seq.progCode (BitVec.ofNat 15 k) = g.image.code.getD k 1)) ∧
        (c.fetch.codeValid i.pc = true → (g.running c i).Fits →
          c.fetch.codeRdata c.seq.codeBank = (g.running c i).word i.pc) := by
  intro r c g i
  have h₀ : Boots.Inv p (c₀.reset p i₀) (Boots.start p) :=
    Boots.inv_reset (c := c₀) (g := Boots.start p) rfl
  have h : Boots.Inv p c g :=
    Run.noted_inv (Boots.Inv p) (fun c e g h _ => h.step e) es (c₀.reset p i₀, Boots.start p)
      (Run.along_of_forall _ (fun _ _ => True) (fun _ _ => trivial) es _) h₀
  constructor
  · intro hv hF
    have hhold : c.seq.vmHold = false := (Bool.or_eq_false_iff.mp hv).2
    have hs : c.seq.seqState = .run := by
      by_contra hne
      rw [h.hold hne] at hhold
      cases hhold
    have hstands := h.stands hF
    unfold Stands at hstands
    rw [hs] at hstands
    obtain ⟨hload, hwords, hbank, hprog, hdone⟩ := hstands
    rw [Seq.loadPort, hload, if_neg Bool.false_ne_true, List.append_nil] at hdone
    exact ⟨hdone, hload, hwords, hbank, hprog⟩
  · intro hvalid hF
    obtain ⟨hq, hpc⟩ : c.fetch.codeQValid = true ∧ c.fetch.codeQPc = i.pc := by
      simpa [Fetch.codeValid] using hvalid
    have hrunning : g.running c i = g.ran := by
      unfold Boots.running
      split
      · rfl
      · rename_i hv
        have hv : c.vmReset i = false := Bool.eq_false_iff.mpr hv
        exact (h.ran hq (Bool.or_eq_false_iff.mp hv).2).symm
    rw [hrunning] at hF ⊢
    rw [← hpc]
    exact h.fetch hq hF

/-! ### How long the resident image takes -/

namespace Seq

variable (p : Params) (ram : BitVec 15 → BitVec 32) (s : Seq)

/-- The cycles until the VM is out of reset, while the resident image is loaded. -/
def left : ℕ :=
  match s.seqState with
  | .resident => (BitVec.ofNat 16 p.heapWords).toNat + 8197
  | .heap => s.seqN.toNat - s.seqI.toNat + 8196
  | .globals => s.seqN.toNat - s.seqI.toNat + 3
  | .start => 2
  | _ => s.vmHold.toNat

/-- The resident image is being loaded, or runs. -/
def OnWay : Prop :=
  match s.seqState with
  | .resident | .start => s.vmHold = true
  | .heap | .globals => s.vmHold = true ∧ s.seqI.toNat ≤ s.seqN.toNat
  | .run => True
  | _ => False

theorem left_step {n : ℕ} (hn : s.seqI < s.seqN) :
    (s.seqI + 1).toNat ≤ s.seqN.toNat ∧
      s.seqN.toNat - (s.seqI + 1).toNat + n + 1 = s.seqN.toNat - s.seqI.toNat + n := by
  have hlt : s.seqI.toNat < s.seqN.toNat := hn
  have hN := s.seqN.isLt
  rw [toNat_next (by omega)]
  omega

/-- Each cycle of the load of the resident image takes one off. -/
theorem left_clk (h : s.OnWay) (hpos : 0 < s.left p) : s.vmHold = true ∧
    (s.clk p ram true false).OnWay ∧ (s.clk p ram true false).left p + 1 = s.left p := by
  obtain ⟨-, -, hN, -, -, -, -, hv, -⟩ := s.stored_frame p ram
  cases hs : s.seqState with
  | resident =>
    have hhold : s.vmHold = true := by
      unfold OnWay at h
      rwa [hs] at h
    rw [s.clk_resident p ram hs]
    refine ⟨hhold, ⟨hhold, Nat.zero_le _⟩, ?_⟩
    have h0 : (0 : BitVec 16).toNat = 0 := rfl
    unfold left
    rw [hs]
    dsimp only
    rw [h0, Nat.sub_zero]
  | heap =>
    unfold OnWay at h
    rw [hs] at h
    obtain ⟨hhold, hle⟩ := h
    by_cases hlt : s.seqI < s.seqN
    · obtain ⟨hle', hleft⟩ := s.left_step (n := 8196) hlt
      rw [clk_word (Or.inr (Or.inl hs)) hlt, hs]
      refine ⟨hhold, ⟨hv.trans hhold, hN ▸ hle'⟩, ?_⟩
      unfold left
      rw [hs, ← hleft]
      dsimp only
      rw [hN]
    · have hge : s.seqN.toNat ≤ s.seqI.toNat := Nat.le_of_not_lt hlt
      rw [s.clk_copy p ram (Or.inr (Or.inl hs)), advance, if_neg hlt, hs]
      refine ⟨hhold, ⟨hv.trans hhold, Nat.zero_le _⟩, ?_⟩
      have h0 : (0 : BitVec 16).toNat = 0 := rfl
      have hslots : ((1 : BitVec 16) <<< 13).toNat = 8192 := rfl
      unfold left
      rw [hs, Nat.sub_eq_zero_of_le hge]
      dsimp only
      rw [h0, hslots]
  | globals =>
    unfold OnWay at h
    rw [hs] at h
    obtain ⟨hhold, hle⟩ := h
    by_cases hlt : s.seqI < s.seqN
    · obtain ⟨hle', hleft⟩ := s.left_step (n := 3) hlt
      rw [clk_word (Or.inr (Or.inr hs)) hlt, hs]
      refine ⟨hhold, ⟨hv.trans hhold, hN ▸ hle'⟩, ?_⟩
      unfold left
      rw [hs, ← hleft]
      dsimp only
      rw [hN]
    · have hge : s.seqN.toNat ≤ s.seqI.toNat := Nat.le_of_not_lt hlt
      rw [s.clk_copy p ram (Or.inr (Or.inr hs)), advance, if_neg hlt, hs]
      refine ⟨hhold, hv.trans hhold, ?_⟩
      unfold left
      rw [hs, Nat.sub_eq_zero_of_le hge]
  | start =>
    have hhold : s.vmHold = true := by
      unfold OnWay at h
      rwa [hs] at h
    have hstate : (s.clk p ram true false).seqState = .run := run_clk (Or.inl hs)
    have hhold' : (s.clk p ram true false).vmHold = true := by
      unfold clk
      simp only [hs]
      exact hhold
    unfold left OnWay
    rw [hstate, hs]
    dsimp only
    rw [hhold']
    exact ⟨hhold, trivial, rfl⟩
  | run =>
    have hhold : s.vmHold = true := by
      unfold left at hpos
      rw [hs] at hpos
      by_contra hv
      rw [Bool.eq_false_iff.mpr hv] at hpos
      exact lt_irrefl _ hpos
    have hstate : (s.clk p ram true false).seqState = .run := run_clk (Or.inr ⟨hs, rfl⟩)
    have hhold' : (s.clk p ram true false).vmHold = false := by
      unfold clk
      simp only [hs]
      rfl
    unfold left OnWay
    rw [hstate, hs]
    dsimp only
    rw [hhold', hhold]
    exact ⟨rfl, trivial, rfl⟩
  | _ =>
    unfold OnWay at h
    rw [hs] at h
    exact h.elim

theorem held_of_left (h : s.OnWay) : s.vmHold = false ↔ s.left p = 0 := by
  constructor
  · intro hv
    by_contra hne
    have := (s.left_clk p (fun _ => 0) h (Nat.pos_of_ne_zero hne)).1
    rw [hv] at this
    cases this
  · intro h0
    unfold left at h0
    unfold OnWay at h
    cases hs : s.seqState <;> rw [hs] at h h0 <;> dsimp only at h h0
    case run => exact Bool.toNat_eq_zero.mp h0
    all_goals omega

/-- A VM that is out of reset has its image. -/
theorem run_of_onWay {s : Seq} (h : s.OnWay) (hv : s.vmHold = false) : s.seqState = .run := by
  unfold OnWay at h
  cases hs : s.seqState <;> rw [hs] at h <;> dsimp only at h
  all_goals simp [hv] at h

/-- A cycle without BOOT, of the load or after it. -/
theorem onWay_clk (h : s.OnWay) :
    (s.clk p ram true false).OnWay ∧ (s.clk p ram true false).left p = s.left p - 1 := by
  rcases Nat.eq_zero_or_pos (s.left p) with h0 | hpos
  · have hv := (s.held_of_left p h).mpr h0
    have hs : s.seqState = .run := run_of_onWay h hv
    have hstate : (s.clk p ram true false).seqState = .run := run_clk (Or.inr ⟨hs, rfl⟩)
    have hv' := vmHold_clk p s ram rfl hv
    unfold OnWay left
    rw [hstate, hs]
    dsimp only
    rw [hv', hv]
    exact ⟨trivial, rfl⟩
  · obtain ⟨-, hway, hleft⟩ := s.left_clk p ram h hpos
    exact ⟨hway, by omega⟩

end Seq

/-- A run without reset and without a request; `J` is what else is known of the sequencer. -/
theorem boot_run {p : Params} (J : Seq → Prop)
    (hJ : ∀ s ram, s.OnWay → J s → J (s.clk p ram true false)) : ∀ (es : List Edge) (c : Core)
      (g : Boots), (∀ i, .sys i ∈ es → i.resetn = true ∧ i.trapValid = false) → c.seq.OnWay →
      c.io.bootReq = false → J c.seq →
        let r := Run.noted (Core.step p) (Boots.note p) (c, g) es
        r.1.seq.OnWay ∧ J r.1.seq ∧ r.1.seq.left p = c.seq.left p - es.countP Edge.isSys ∧
          r.2.image = g.image
  | [], _, _, _, hway, _, hj => ⟨hway, hj, rfl, rfl⟩
  | .eth b :: es, c, g, hes, hway, hb, hj => by
    obtain ⟨hseq, -, -, -, hio, -⟩ := c.ethClk_frame b
    have hcount : (Edge.eth b :: es).countP Edge.isSys = es.countP Edge.isSys :=
      List.countP_cons_of_neg Bool.false_ne_true
    rw [hcount, ← hseq]
    exact boot_run J hJ es (c.ethClk b) g (fun i hi => hes i (List.mem_cons_of_mem _ hi))
      (hseq ▸ hway) (hio ▸ hb) (hseq ▸ hj)
  | .sys i :: es, c, g, hes, hway, hb, hj => by
    obtain ⟨hr, ht⟩ := hes i List.mem_cons_self
    obtain ⟨hway', hleft⟩ := c.seq.onWay_clk p c.staging.stageRam hway
    have hseq : (c.clkSys p i).seq = c.seq.clk p c.staging.stageRam true false := by
      change c.seq.clk p c.staging.stageRam i.resetn c.io.bootReq = _
      rw [hr, hb]
    have hb' : (c.clkSys p i).io.bootReq = false := by
      apply Core.bootReq_of_ioNew
      simp [Core.ioNew, ht]
    have himage : (Boots.note p c (.sys i) g).image = g.image := by
      simp [Boots.note, hr, hb]
    have hcount : (Edge.sys i :: es).countP Edge.isSys = es.countP Edge.isSys + 1 :=
      List.countP_cons_of_pos rfl
    obtain ⟨h₁, h₂, h₃, h₄⟩ := boot_run J hJ es (c.clkSys p i) (Boots.note p c (.sys i) g)
      (fun i hi => hes i (List.mem_cons_of_mem _ hi)) (hseq ▸ hway') hb'
      (hseq ▸ hJ _ _ hway hj)
    refine ⟨h₁, h₂, h₃.trans ?_, h₄.trans himage⟩
    rw [hseq, hleft, hcount]
    omega

/-- **The load of the resident image takes `HEAP_WORDS` and 8197 cycles.** -/
theorem boot_time (p : Params) (hp : p.heapWords < 2 ^ 16) (c₀ : Core) (i₀ : SysIn)
    (es : List Edge) (hes : ∀ i, .sys i ∈ es → i.resetn = true ∧ i.trapValid = false) :
    (es.foldl (Core.step p) (c₀.reset p i₀)).seq.vmHold = false ↔
      p.heapWords + 8197 ≤ es.countP Edge.isSys := by
  have hleft : (c₀.reset p i₀).seq.left p = p.heapWords + 8197 := by
    change (BitVec.ofNat 16 p.heapWords).toNat + 8197 = _
    rw [BitVec.toNat_ofNat, Nat.mod_eq_of_lt hp]
  obtain ⟨hway, -, hsub, -⟩ := boot_run (p := p) (fun _ => True) (fun _ _ _ _ => trivial) es
    (c₀.reset p i₀) (Boots.start p) hes rfl rfl trivial
  rw [Run.noted_fst] at hway hsub
  rw [Seq.held_of_left p _ hway, hsub, hleft]
  omega

/-- Only `SEQ_START` writes `prog_words`, from the last header read. -/
theorem Seq.progWords_clk (p : Params) (ram : BitVec 15 → BitVec 32) (s : Seq) (h : s.OnWay) :
    (s.clk p ram true false).stageCode = s.stageCode ∧
      ((s.clk p ram true false).progWords = s.progWords ∨
        (s.clk p ram true false).progWords = s.stageCode) := by
  obtain ⟨-, -, -, hc, -⟩ := s.stored_frame p ram
  have hw := s.stored_progWords p ram
  have hcopy (hs : s.seqState = .code ∨ s.seqState = .heap ∨ s.seqState = .globals) :
      (s.clk p ram true false).stageCode = s.stageCode ∧
        ((s.clk p ram true false).progWords = s.progWords ∨
          (s.clk p ram true false).progWords = s.stageCode) := by
    rw [s.clk_copy p ram hs, Seq.advance]
    by_cases hlt : s.seqI < s.seqN
    · rw [if_pos hlt]
      exact ⟨hc, Or.inl hw⟩
    · rw [if_neg hlt]
      rcases hs with hs | hs | hs <;> rw [hs] <;> exact ⟨hc, Or.inl hw⟩
  unfold Seq.OnWay at h
  cases hs : s.seqState with
  | heap => exact hcopy (Or.inr (Or.inl hs))
  | globals => exact hcopy (Or.inr (Or.inr hs))
  | start =>
    unfold Seq.clk
    simp only [hs]
    exact ⟨rfl, Or.inr rfl⟩
  | resident | run =>
    unfold Seq.clk
    simp only [hs]
    exact ⟨rfl, Or.inl rfl⟩
  | _ =>
    rw [hs] at h
    exact h.elim

/-- Without a BOOT `prog_words` is what the last header left, or power-up. -/
theorem progWords_kept (p : Params) (hp : p.heapWords < 2 ^ 16) (c₀ : Core) (i₀ : SysIn)
    (h₀ : c₀.seq.stageCode = 0 ∧ c₀.seq.progWords = 0) (es : List Edge)
    (hes : ∀ i, .sys i ∈ es → i.resetn = true ∧ i.trapValid = false)
    (hlong : p.heapWords + 8197 ≤ es.countP Edge.isSys) :
    let r := Run.noted (Core.step p) (Boots.note p) (c₀.reset p i₀, Boots.start p) es
    r.1.vmReset .rest = false ∧ r.2.image = .resident p ∧ r.1.seq.progWords = 0 := by
  intro r
  have hJ (s : Seq) (ram : BitVec 15 → BitVec 32) (hway : s.OnWay)
      (hj : s.stageCode = 0 ∧ s.progWords = 0) :
      (s.clk p ram true false).stageCode = 0 ∧ (s.clk p ram true false).progWords = 0 := by
    obtain ⟨hc, hw⟩ := s.progWords_clk p ram hway
    exact ⟨hc.trans hj.1, hw.elim (fun h => h.trans hj.2) fun h => h.trans hj.1⟩
  obtain ⟨-, hj, -, himage⟩ := boot_run (p := p) (fun s => s.stageCode = 0 ∧ s.progWords = 0) hJ es
    (c₀.reset p i₀) (Boots.start p) hes rfl rfl h₀
  have htime := (boot_time p hp c₀ i₀ es hes).mpr hlong
  have hcore : r.1 = _ := Run.noted_fst _ _ _ _
  refine ⟨?_, himage, hj.2⟩
  rw [hcore, Core.vmReset, htime]
  rfl

/-- `n` cycles in which nothing comes in. -/
def restful (n : ℕ) : List Edge := List.replicate n (.sys .rest)

theorem restful_quiet (n : ℕ) : ∀ i, Edge.sys i ∈ restful n → i.resetn = true ∧ i.trapValid = false := by
  intro i hi
  have h := List.eq_of_mem_replicate hi
  injection h with h
  rw [h]
  exact ⟨rfl, rfl⟩

theorem restful_count (n : ℕ) : (restful n).countP Edge.isSys = n := by
  rw [restful, List.countP_replicate]
  rfl

theorem ioState_rest (p : Params) {c : Core} (hio : c.io.ioState = .idle) :
    (c.clkSys p .rest).io.ioState = .idle := by
  rcases Bool.eq_false_or_eq_true (c.vmReset .rest) with hv | hv
  · exact congrArg Io.ioState (clkIo_of_vmReset rfl hv)
  · exact (congrArg Io.ioState (clkIo_of_idle rfl hv hio)).trans hio

/-- Cycles in which nothing comes in, without a BOOT before them. -/
theorem restful_run (p : Params) : ∀ (n : ℕ) (c : Core) (g : Boots), c.io.ioState = .idle →
    c.io.bootReq = false →
      let r := Run.noted (Core.step p) (Boots.note p) (c, g) (restful n)
      r.1.io.ioState = .idle ∧ r.1.io.bootReq = false ∧
        r.1.staging.stageRam = c.staging.stageRam ∧
        r.1.seq = (fun s => s.clk p c.staging.stageRam true false)^[n] c.seq ∧ r.2.image = g.image
  | 0, _, _, hio, hb => ⟨hio, hb, rfl, rfl, rfl⟩
  | n + 1, c, g, hio, hb => by
    have hnew : c.ioNew .rest = false := rfl
    have hio' := ioState_rest p hio
    have hram : (c.clkSys p .rest).staging.stageRam = c.staging.stageRam :=
      Core.stageRam_of_ioNew hnew
    have hseq : (c.clkSys p .rest).seq = c.seq.clk p c.staging.stageRam true false := by
      change c.seq.clk p c.staging.stageRam true c.io.bootReq = _
      rw [hb]
    have himage : (Boots.note p c (.sys .rest) g).image = g.image := by
      simp [Boots.note, hb, SysIn.rest]
    obtain ⟨h₁, h₂, h₃, h₄, h₅⟩ := restful_run p n (c.clkSys p .rest)
      (Boots.note p c (.sys .rest) g) hio' (Core.bootReq_of_ioNew hnew)
    rw [hram, hseq] at h₄
    exact ⟨h₁, h₂, h₃.trans hram, h₄, h₅.trans himage⟩

/-- Enough of them, and the VM is out of reset. -/
theorem restful_ready {p : Params} {c : Core} (g : Boots) {k : ℕ} (hway : c.seq.OnWay)
    (hb : c.io.bootReq = false) (hk : c.seq.left p ≤ k) :
    let r := Run.noted (Core.step p) (Boots.note p) (c, g) (restful k)
    r.1.seq.OnWay ∧ r.1.seq.vmHold = false := by
  intro r
  obtain ⟨hway', -, hleft, -⟩ := boot_run (p := p) (fun _ => True) (fun _ _ _ _ => trivial)
    (restful k) c g (restful_quiet k) hway hb trivial
  rw [restful_count, Nat.sub_eq_zero_of_le hk] at hleft
  exact ⟨hway', (Seq.held_of_left p _ hway').mpr hleft⟩

/-- BOOT of an image with one word of code: six cycles later its heap is read. -/
theorem Seq.boots (p : Params) (s : Seq) {ram : BitVec 15 → BitVec 32} (hs : s.seqState = .run)
    (hcode : (ram 2#15).setWidth 16 = 1#16) :
    let s' := (fun s => s.clk p ram true false)^[6] (s.clk p ram true true)
    s'.seqState = .heap ∧ s'.vmHold = true ∧ s'.seqI = 0 ∧ s'.seqN = (ram 3#15).setWidth 16 := by
  obtain ⟨seqState⟩ := s
  subst hs
  simp [Function.iterate_succ, Seq.clk, Seq.latched, Seq.header, Seq.seqAddr, Seq.advance,
    Seq.store, hcode]

/-- A cycle that asks for BOOT. -/
def bootRequest : SysIn := { SysIn.rest with trapValid := true, trapPrim := 2, trapArg0 := 0x1007 }

/-- The request, and the cycle that takes BOOT. -/
theorem boot_taken (p : Params) {c : Core} (g : Boots) (hs : c.seq.seqState = .run)
    (hv : c.seq.vmHold = false) (hio : c.io.ioState = .idle) (hb : c.io.bootReq = false) :
    let r := Run.noted (Core.step p) (Boots.note p) (c, g) [.sys bootRequest, .sys .rest]
    r.1.io.ioState = .idle ∧ r.1.io.bootReq = false ∧
      r.1.staging.stageRam = c.staging.stageRam ∧ r.2.image = .staged c.staging.stageRam ∧
      ∃ s : Seq, s.seqState = .run ∧ r.1.seq = s.clk p c.staging.stageRam true true := by
  have hnew : c.ioNew bootRequest = true := by
    simp [Core.ioNew, Core.vmReset, hv, hio, bootRequest, SysIn.rest, SysIn.ioWrite]
  have hreset : c.vmReset bootRequest = false := by
    rw [Core.vmReset, hv]
    rfl
  obtain ⟨hdone, hreq⟩ : (c.clkSys p bootRequest).io.ioState = .done ∧
      (c.clkSys p bootRequest).io.bootReq = true := by
    have h : (c.clkSys p bootRequest).io = c.accept p bootRequest c.io.lowered :=
      (clkIo_of_idle rfl hreset hio).trans (if_pos hnew)
    rw [h]
    exact ⟨rfl, rfl⟩
  have hram : (c.clkSys p bootRequest).staging.stageRam = c.staging.stageRam := by
    refine clkStaging_stageRam.trans (if_neg ?_)
    rw [hnew]
    decide
  have hseq : (c.clkSys p bootRequest).seq = c.seq.clk p c.staging.stageRam true false := by
    change c.seq.clk p c.staging.stageRam true c.io.bootReq = _
    rw [hb]
  have hstate : (c.clkSys p bootRequest).seq.seqState = .run := by
    rw [hseq]
    exact Seq.run_clk (Or.inr ⟨hs, rfl⟩)
  have hv' : (c.clkSys p bootRequest).vmReset .rest = false := by
    rw [Core.vmReset, hseq, Seq.vmHold_clk p c.seq _ rfl hv]
    rfl
  refine ⟨?_, ?_, ?_, ?_, (c.clkSys p bootRequest).seq, hstate, ?_⟩
  · change ((c.clkSys p bootRequest).clkSys p .rest).io.ioState = .idle
    exact congrArg Io.ioState (clkIo_of_done rfl hv' hdone)
  · exact Core.bootReq_of_ioNew rfl
  · exact (Core.stageRam_of_ioNew rfl).trans hram
  · simp [Run.noted, Boots.note, Core.step, hreq, hram, SysIn.rest]
  · change (c.clkSys p bootRequest).seq.clk p (c.clkSys p bootRequest).staging.stageRam true
      (c.clkSys p bootRequest).io.bootReq = _
    rw [hram, hreq]

/-- Enough cycles after each, the VM runs the resident image and then the one it boots. -/
theorem booted (p : Params) (hp : p.heapWords < 2 ^ 16) {ram : BitVec 15 → BitVec 32}
    (hcode : (ram 2#15).setWidth 16 = 1#16) {n m : ℕ} (hn : p.heapWords + 8197 ≤ n)
    (hm : ((ram 3#15).setWidth 16).toNat + 8203 ≤ m) :
    let x := (Core.reset p { Core.powerUp with staging := ⟨ram, 0⟩ } .rest, Boots.start p)
    let r := Run.noted (Core.step p) (Boots.note p) x (restful n)
    let r' := Run.noted (Core.step p) (Boots.note p) x
      (restful n ++ .sys bootRequest :: restful m)
    (r.1.vmReset .rest = false ∧ r.2.image = .resident p) ∧
      r'.1.vmReset .rest = false ∧ r'.2.image = .staged ram := by
  intro x r r'
  obtain ⟨m, rfl⟩ := Nat.exists_eq_add_of_le (by omega : 7 ≤ m)
  -- the resident image
  have hleft₀ : x.1.seq.left p ≤ n := by
    change (BitVec.ofNat 16 p.heapWords).toNat + 8197 ≤ n
    rwa [BitVec.toNat_ofNat, Nat.mod_eq_of_lt hp]
  obtain ⟨hway, hhold⟩ := restful_ready (c := x.1) x.2 rfl rfl hleft₀
  obtain ⟨hio, hb, hram, -, himage⟩ := restful_run p n x.1 x.2 rfl rfl
  have hram : r.1.staging.stageRam = ram := hram
  have hvm : r.1.vmReset .rest = false := by
    rw [Core.vmReset]
    exact Bool.or_eq_false_iff.mpr ⟨rfl, hhold⟩
  refine ⟨⟨hvm, himage⟩, ?_⟩
  -- the request and BOOT
  obtain ⟨hio₁, hb₁, hram₁, himage₁, s, hs, hseq₁⟩ :=
    boot_taken p r.2 (Seq.run_of_onWay hway hhold) hhold hio hb
  rw [hram] at hram₁ himage₁ hseq₁
  generalize hr₁ : Run.noted (Core.step p) (Boots.note p) (r.1, r.2)
    [.sys bootRequest, .sys .rest] = r₁ at *
  -- the header and the code
  obtain ⟨hio₂, hb₂, hram₂, hseq₂, himage₂⟩ := restful_run p 6 r₁.1 r₁.2 hio₁ hb₁
  rw [hram₁, hseq₁] at hseq₂
  obtain ⟨hstate, hheld, hI, hN⟩ := Seq.boots p s hs hcode
  rw [← hseq₂] at hstate hheld hI hN
  generalize hr₂ : Run.noted (Core.step p) (Boots.note p) (r₁.1, r₁.2) (restful 6) = r₂ at *
  -- the heap and the globals
  have hway₂ : r₂.1.seq.OnWay := by
    unfold Seq.OnWay
    rw [hstate]
    exact ⟨hheld, by rw [hI]; exact Nat.zero_le _⟩
  have hleft₂ : r₂.1.seq.left p ≤ m := by
    unfold Seq.left
    rw [hstate, hI, hN]
    change ((ram 3#15).setWidth 16).toNat + 8196 ≤ m
    omega
  obtain ⟨-, hhold₃⟩ := restful_ready r₂.2 hway₂ hb₂ hleft₂
  obtain ⟨-, -, -, -, himage₃⟩ := restful_run p m r₂.1 r₂.2 hio₂ hb₂
  have hr' : r' = Run.noted (Core.step p) (Boots.note p) r₂ (restful m) := by
    have hsplit : .sys bootRequest :: restful (7 + m) =
        [.sys bootRequest, .sys .rest] ++ (restful 6 ++ restful m) := by
      rw [restful, restful, restful, ← List.replicate_add, List.cons_append, List.cons_append,
        List.nil_append, ← List.replicate_succ, Nat.add_right_comm]
    change Run.noted _ _ x _ = _
    rw [hsplit, Run.noted_append, Run.noted_append, Run.noted_append, ← hr₂, ← hr₁]
  rw [hr']
  refine ⟨?_, himage₃.trans (himage₂.trans himage₁)⟩
  rw [Core.vmReset]
  exact Bool.or_eq_false_iff.mpr ⟨rfl, hhold₃⟩

/-- A resident program with two words of heap and one global. -/
def Params.small : Params :=
  { Params.blank with
    heapWords := 2, globalsWords := 1, heapRom := fun a => a.setWidth 36 + 5, globalsRom := fun _ => 7 }

/-- A staged image with a word of code, of heap and of globals. -/
def oneEach (a : BitVec 15) : BitVec 32 :=
  BitVec.ofNat 32 ([0, 0, 1, 1, 1, 0, 0, 0, 10, 11, 12].getD a.toNat 0)

/-- The small resident program runs, and after a BOOT the staged one. -/
theorem runs_its_image_booted :
    let x := (Core.reset .small { Core.powerUp with staging := ⟨oneEach, 0⟩ } .rest,
      Boots.start .small)
    let r := Run.noted (Core.step .small) (Boots.note .small) x (restful 9000)
    let r' := Run.noted (Core.step .small) (Boots.note .small) x
      (restful 9000 ++ .sys bootRequest :: restful 9000)
    (r.1.vmReset .rest = false ∧ r.2.log = (Image.resident .small).loads) ∧
      r'.1.vmReset .rest = false ∧ r'.2.log = (Image.staged oneEach).loads ∧
        r'.1.seq.imageWords.toNat = 1 ∧ r'.1.seq.progCode 0 = 10 := by
  have h (n m : ℕ) (hn : 8199 ≤ n) (hm : 8204 ≤ m) :
      let x := (Core.reset .small { Core.powerUp with staging := ⟨oneEach, 0⟩ } .rest,
        Boots.start .small)
      let r := Run.noted (Core.step .small) (Boots.note .small) x (restful n)
      let r' := Run.noted (Core.step .small) (Boots.note .small) x
        (restful n ++ .sys bootRequest :: restful m)
      (r.1.vmReset .rest = false ∧ r.2.log = (Image.resident .small).loads) ∧
        r'.1.vmReset .rest = false ∧ r'.2.log = (Image.staged oneEach).loads ∧
          r'.1.seq.imageWords.toNat = 1 ∧ r'.1.seq.progCode 0 = 10 := by
    intro x r r'
    obtain ⟨⟨hv, himage⟩, hv', himage'⟩ :=
      booted .small (by decide) (by decide : (oneEach 2#15).setWidth 16 = 1#16) hn hm
    have hfits : (Image.resident .small).Fits := by
      obtain ⟨hc, hh, hg⟩ := Image.resident_lengths .small
      exact ⟨hc ▸ by decide, hh ▸ by decide, hg ▸ by decide, fun h => by cases h⟩
    have hfits' : (Image.staged oneEach).Fits := by
      obtain ⟨hc, hh, hg⟩ := Image.staged_lengths oneEach
      refine ⟨?_, ?_, ?_, fun _ => ?_⟩ <;> simp only [hc, hh, hg] <;> decide
    obtain ⟨hlog, -⟩ := (runs_its_image .small { Core.powerUp with staging := ⟨oneEach, 0⟩ } .rest
      (restful n) .rest).1 hv (himage ▸ hfits)
    obtain ⟨hlog', -, hwords, -, hprog⟩ :=
      (runs_its_image .small { Core.powerUp with staging := ⟨oneEach, 0⟩ } .rest
        (restful n ++ .sys bootRequest :: restful m) .rest).1 hv' (himage' ▸ hfits')
    rw [himage'] at hlog' hwords hprog
    exact ⟨⟨hv, hlog.trans (congrArg Image.loads himage)⟩, hv', hlog', hwords,
      (hprog rfl).2 0 (by decide)⟩
  exact h 9000 9000 (by decide) (by decide)

/-- The resident program runs, and `prog_words` is not its length; nor can
`image_words` be that of a heap of 2^15 words. -/
theorem not_resident_described :
    let r := Run.noted (Core.step .blank) (Boots.note .blank)
      (Core.powerUp.reset .blank .rest, Boots.start .blank) (restful 9000)
    let p := { Params.blank with heapWords := 2 ^ 15 }
    let r' := Run.noted (Core.step p) (Boots.note p)
      (Core.powerUp.reset p .rest, Boots.start p) (restful 41000)
    (r.1.vmReset .rest = false ∧ r.1.seq.progWords.toNat ≠ r.2.image.code.length) ∧
      (r'.1.vmReset .rest = false ∧ r'.1.seq.imageWords.toNat ≠ r'.2.image.heap.length) := by
  have h (p : Params) (hp : p.heapWords < 2 ^ 16) (n : ℕ) (hn : p.heapWords + 8197 ≤ n) :
      let r := Run.noted (Core.step p) (Boots.note p) (Core.powerUp.reset p .rest, Boots.start p)
        (restful n)
      r.1.vmReset .rest = false ∧
        (0 < p.programWords → r.1.seq.progWords.toNat ≠ r.2.image.code.length) ∧
        (2 ^ 15 ≤ p.heapWords → r.1.seq.imageWords.toNat ≠ r.2.image.heap.length) := by
    intro r
    obtain ⟨hv, himage, hwords⟩ := progWords_kept p hp .powerUp .rest ⟨rfl, rfl⟩
      (restful n) (restful_quiet n) (by rw [restful_count]; exact hn)
    refine ⟨hv, fun hpos => ?_, fun hbig => ?_⟩
    · rw [himage, hwords, (Image.resident_lengths p).1]
      exact Nat.ne_of_lt hpos
    · rw [himage, (Image.resident_lengths p).2.1]
      exact Nat.ne_of_lt (lt_of_lt_of_le r.1.seq.imageWords.isLt hbig)
  obtain ⟨hv, hwords, -⟩ := h .blank (by decide) 9000 (by decide)
  obtain ⟨hv', -, hheap⟩ := h { Params.blank with heapWords := 2 ^ 15 } (by decide) 41000 (by decide)
  exact ⟨⟨hv, hwords (by decide)⟩, hv', hheap (by decide)⟩

end EthminVm
end Xc7Tools
