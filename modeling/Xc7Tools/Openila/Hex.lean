/-
# openila GUI: bit vectors as hexadecimal text

`Bits::hex` and `Bits::fromHex` of `examples/openila/gui/ila.cpp`, and the width
and samples of a capture as `saveCapture` and `loadCapture` of `mainwindow.cpp`
write and read them. The text is the vector's number; reading takes four bits
from each digit, up to the size in whole bytes. So vectors survive at their own
width. What `saveCapture` writes beside the samples is the width in the box,
which may have been changed since: the samples come back the same just if that
makes as many bytes (`faithful_iff`).

Key definitions: `Bits.hex`, `Bits.Of`, `saveCapture`, `loadCapture`, `Faithful`.
Key theorems: `Bits.hex_eq`, `Bits.get_fromHex`, `Bits.fromHex_eq`, `faithful_iff`.
-/
import Xc7Tools.Openila.Jobs
import Xc7Tools.Lib.Numerals

namespace Xc7Tools
namespace Openila

open Str

namespace Bits

/-- `QString("%1").arg(int(c), 2, 16, QChar('0'))` -/
def byteHex (c : BitVec 8) : Str := zfill 2 (Nat.toDigits 16 c.toNat)

/-- `Bits::hex` -/
def hex (x : Bits) : Str := dropZeros (x.b.reverse.flatMap byteHex)

/-- A vector of `n` bits: the bits that fill up the last byte are 0. -/
structure Of (n : ℕ) (x : Bits) : Prop where
  bytes : x.b.length = (n + 7) / 8
  padding : ∀ i, n ≤ i → x.get i = false

/-! ### hex -/

theorem isHexNumeral_byteHex (c : BitVec 8) : IsHexNumeral (byteHex c) :=
  (isHexNumeral_toDigits _).zfill 2

theorem hexValue_byteHex (c : BitVec 8) : hexValue (byteHex c) = c.toNat := by
  rw [byteHex, hexValue_zfill, hexValue_toDigits]

theorem length_byteHex (c : BitVec 8) : (byteHex c).length = 2 := by
  have hlt : c.toNat < 16 ^ 2 := c.isLt
  have hle := (Nat.length_toDigits_le_iff (by decide : 1 < 16) (by decide : 0 < 2)).mpr hlt
  rw [byteHex, zfill, List.length_append, List.length_replicate]
  omega

theorem isSome_of_isHexNumeral {ds : Str} (h : IsHexNumeral ds) :
    ∀ c ∈ ds, (hexDigit? c).isSome = true := by
  intro c hc
  obtain ⟨d, hd, rfl⟩ := h.2 c hc
  rw [(digitChar_hex d hd).1]
  rfl

theorem hexValue_bytes : ∀ l : List (BitVec 8),
    hexValue (l.reverse.flatMap byteHex) = Nat.ofDigits 256 (l.map BitVec.toNat)
  | [] => rfl
  | c :: l => by
    have ih := hexValue_bytes l
    have hlen := List.filterMap_length_eq_length.mpr (isSome_of_isHexNumeral (isHexNumeral_byteHex c))
    rw [length_byteHex] at hlen
    rw [List.reverse_cons, List.flatMap_append, List.flatMap_singleton, hexValue_append, hlen, ih,
      hexValue_byteHex, List.map_cons, Nat.ofDigits_cons, Nat.add_comm]
    rfl

/-- **The text is the vector's number, in lower case and without leading zeros.** -/
theorem hex_eq {x : Bits} (h : x.b ≠ []) : x.hex = Nat.toDigits 16 x.toNat := by
  have hnumeral : IsHexNumeral (x.b.reverse.flatMap byteHex) := by
    constructor
    · obtain ⟨c, hc⟩ := List.exists_mem_of_ne_nil _ h
      intro hnil
      have hbyte := List.flatMap_eq_nil_iff.mp hnil c (List.mem_reverse.mpr hc)
      exact (isHexNumeral_byteHex c).1 hbyte
    · intro d hd
      obtain ⟨c, -, hd⟩ := List.mem_flatMap.mp hd
      exact (isHexNumeral_byteHex c).2 d hd
  rw [hex, dropZeros_eq_toDigits hnumeral, hexValue_bytes]
  rfl

/-! ### fromHex -/

/-- One round of the loop, at digit `k` from the right. -/
def putDigit (r : Bits) (c : Char) (k : ℕ) : Bits :=
  if 4 * k < r.size then
    match hex? c with
    | some v => r.setAll (4 * k) (min 4 (r.size - 4 * k)) v.testBit
    | none => r
  else r

theorem fromHex_eq_foldl (h : Str) (n : ℕ) :
    fromHex h n = h.reverse.zipIdx.foldl (fun r p => putDigit r p.1 p.2) (zeros n) := rfl

@[simp] theorem size_putDigit (r : Bits) (c : Char) (k : ℕ) : (putDigit r c k).size = r.size := by
  unfold putDigit
  split_ifs
  · cases hex? c with
    | none => rfl
    | some v => exact size_setAll _ _ _ _
  · rfl

theorem get_putDigit {r : Bits} {c : Char} {v : ℕ} (hc : hex? c = some v) (k i : ℕ) :
    (putDigit r c k).get i =
      if 4 * k ≤ i ∧ i < 4 * k + 4 ∧ i < r.size then v.testBit (i - 4 * k) else r.get i := by
  unfold putDigit
  simp only [hc]
  by_cases hk : 4 * k < r.size
  · rw [if_pos hk, get_setAll _ _ (by omega)]
    exact if_congr (by omega) rfl rfl
  · rw [if_neg hk, if_neg (by omega)]

/-- The digits from `k` on, where no bit from there on has been set yet. -/
theorem get_foldl_putDigit (i : ℕ) : ∀ {cs : Str} {r : Bits} {k : ℕ},
    (∀ c ∈ cs, (hex? c).isSome = true) → (∀ j, 4 * k ≤ j → r.get j = false) →
    ((cs.zipIdx k).foldl (fun r p => putDigit r p.1 p.2) r).get i =
      if 4 * k ≤ i ∧ i < r.size then (Nat.ofDigits 16 (cs.filterMap hexDigit?)).testBit (i - 4 * k)
      else r.get i
  | [], r, k, _, hr => by
    split_ifs with hi
    · simp [hr i hi.1]
    · rfl
  | c :: cs, r, k, hcs, hr => by
    obtain ⟨v, hv⟩ := Option.isSome_iff_exists.mp (hcs c List.mem_cons_self)
    have hdigit : hexDigit? c = some v := by rw [hexDigit?, hv, Option.some_or]
    have hlt : v < 2 ^ 4 := hex?_lt hv
    have hnext : ∀ j, 4 * (k + 1) ≤ j → (putDigit r c k).get j = false := by
      intro j hj
      rw [get_putDigit hv, if_neg (by omega), hr j (by omega)]
    have hvalue : Nat.ofDigits 16 ((c :: cs).filterMap hexDigit?) =
        2 ^ 4 * Nat.ofDigits 16 (cs.filterMap hexDigit?) + v := by
      rw [List.filterMap_cons_some hdigit, Nat.ofDigits_cons, Nat.add_comm]
      rfl
    have ih := get_foldl_putDigit i (fun d hd => hcs d (List.mem_cons_of_mem _ hd)) hnext
    rw [List.zipIdx_cons, List.foldl_cons, ih, size_putDigit, get_putDigit hv, hvalue,
      Nat.testBit_two_pow_mul_add _ hlt]
    by_cases hi : 4 * k ≤ i ∧ i < r.size
    · rw [if_pos hi]
      by_cases hdigit : i < 4 * k + 4
      · rw [if_neg (by omega), if_pos ⟨hi.1, hdigit, hi.2⟩, if_pos (by omega)]
      · rw [if_pos (by omega), if_neg (by omega), Nat.mul_succ, Nat.sub_sub]
    · rw [if_neg hi, if_neg (by omega), if_neg (by omega)]

/-- **What is read has the bits of the number, as far as it goes.** -/
theorem get_fromHex {h : Str} (hh : ∀ c ∈ h, (hex? c).isSome = true) (n i : ℕ) :
    (fromHex h n).get i = (decide (i < (zeros n).size) && (hexValue h).testBit i) := by
  have hrev : ∀ c ∈ h.reverse, (hex? c).isSome = true := fun c hc => hh c (List.mem_reverse.mp hc)
  rw [fromHex_eq_foldl, get_foldl_putDigit i hrev fun j _ => get_zeros n j, hexValue,
    List.filterMap_reverse]
  by_cases hi : i < (zeros n).size
  · simp [hi]
  · simp [hi]

theorem length_fromHex (h : Str) (n : ℕ) : (fromHex h n).b.length = (n + 7) / 8 := by
  have hsize : ∀ (ps : List (Char × ℕ)) (r : Bits),
      (ps.foldl (fun r p => putDigit r p.1 p.2) r).size = r.size := by
    intro ps
    induction ps with
    | nil => exact fun r => rfl
    | cons p ps ih => exact fun r => (ih _).trans (size_putDigit r p.1 p.2)
  have h8 : (fromHex h n).size = (zeros n).size := hsize _ _
  simp only [size, zeros, List.length_replicate] at h8
  omega

/-- A vector is its bytes, so its number and how many bytes it has. -/
theorem eq_of_toNat {x y : Bits} (hlen : x.b.length = y.b.length) (h : x.toNat = y.toNat) : x = y := by
  have hlt : ∀ l : List (BitVec 8), ∀ d ∈ l.map BitVec.toNat, d < 256 := by
    intro l d hd
    obtain ⟨c, -, rfl⟩ := List.mem_map.mp hd
    exact c.isLt
  have hmap := Nat.ofDigits_inj_of_len_eq (by decide) (by simpa using hlen) (hlt x.b) (hlt y.b) h
  have hb : x.b = y.b := List.map_injective_iff.mpr (fun _ _ => BitVec.eq_of_toNat_eq) hmap
  cases x
  cases y
  exact congrArg Bits.mk hb

/-- **Text of a vector's number is read as the vector**, if it is read with a width of as many
bytes. -/
theorem fromHex_eq {x : Bits} {h : Str} {n : ℕ} (hlen : x.b.length = (n + 7) / 8)
    (hh : ∀ c ∈ h, (hex? c).isSome = true) (hvalue : hexValue h = x.toNat) : fromHex h n = x := by
  have hsize : (zeros n).size = x.size := by simp [size, zeros, hlen]
  refine eq_of_toNat ((length_fromHex h n).trans hlen.symm) (Nat.eq_of_testBit_eq fun i => ?_)
  rw [testBit_toNat, testBit_toNat, get_fromHex hh, hvalue, testBit_toNat, hsize]
  by_cases hi : i < x.size
  · simp [hi]
  · simp [hi, get_of_size_le (Nat.not_lt.mp hi)]

theorem isSome_hex?_of_isHexNumeral {ds : Str} (h : IsHexNumeral ds) :
    ∀ c ∈ ds, (hex? c).isSome = true := by
  have hdigit : ∀ d < 16, (hex? d.digitChar).isSome = true := by decide
  intro c hc
  obtain ⟨d, hd, rfl⟩ := h.2 c hc
  exact hdigit d hd

/-- A vector's own text, read with a width of as many bytes. -/
theorem fromHex_hex {x : Bits} {n : ℕ} (hn : 1 ≤ n) (hlen : x.b.length = (n + 7) / 8) :
    fromHex x.hex n = x := by
  have hne : x.b ≠ [] := List.ne_nil_of_length_pos (by omega)
  rw [hex_eq hne]
  exact fromHex_eq hlen (isSome_hex?_of_isHexNumeral (isHexNumeral_toDigits _)) (hexValue_toDigits _)

end Bits

/-! ### Captures -/

/-- The width and the samples of a capture's file. -/
structure SavedCapture where
  width : ℕ
  samples : List Str

/-- `saveCapture`, with the width in the box; without samples there is nothing to save. -/
def saveCapture (widthSpin : ℕ) (samples : List Bits) : Option SavedCapture :=
  if samples = [] then none else some ⟨widthSpin, samples.map Bits.hex⟩

/-- `loadCapture` -/
def loadCapture (o : SavedCapture) : List Bits := o.samples.map fun v => Bits.fromHex v o.width

/-- What the text form is for: vectors of `n` bits survive it, in a scan and in a capture that is
saved while `widthSpin` is in the box. -/
structure Faithful (n widthSpin : ℕ) (samples : List Bits) : Prop where
  inverse : ∀ x, Bits.Of n x → Bits.fromHex x.hex n = x
  numeral : ∀ x, Bits.Of n x → x.hex = Nat.toDigits 16 x.toNat
  number : ∀ h : Str, (∀ c ∈ h, (hex? c).isSome = true) →
    ∀ i < n, (Bits.fromHex h n).get i = (hexValue h % 2 ^ n).testBit i
  /-- The cable is handed the vector's number, and one it prints is read as the vector. -/
  scan : ∀ x, Bits.Of n x → hexValue x.hex = x.toNat ∧
    ∀ key out digits, capture key out = some digits → hexValue digits = x.toNat →
      Bits.fromHex digits n = x
  reload : ∀ o, saveCapture widthSpin samples = some o → loadCapture o = samples

theorem isSome_of_capture {key out digits : Str} (h : capture key out = some digits) :
    ∀ c ∈ digits, (hex? c).isSome = true := by
  induction out with
  | nil => cases h
  | cons c out ih =>
    rw [capture] at h
    split_ifs at h with hmatch
    · rw [← Option.some.inj h]
      intro d hd
      have hdigit := List.mem_takeWhile_imp hd
      exact hdigit
    · exact ih h

/-- **The text form does what it is for just if the width in the box makes as many bytes as the
samples have, or nothing is saved.** -/
theorem faithful_iff {n widthSpin : ℕ} {samples : List Bits} (hn : 1 ≤ n)
    (hsamples : ∀ x ∈ samples, Bits.Of n x) :
    Faithful n widthSpin samples ↔ samples = [] ∨ (widthSpin + 7) / 8 = (n + 7) / 8 := by
  have hnonempty : ∀ {x}, Bits.Of n x → x.b ≠ [] := fun hx =>
    List.ne_nil_of_length_pos (by have := hx.bytes; omega)
  constructor
  · intro h
    by_cases hnil : samples = []
    · exact .inl hnil
    · obtain ⟨x, hx⟩ := List.exists_mem_of_ne_nil _ hnil
      have hload := h.reload _ (if_neg hnil)
      obtain ⟨v, -, hv⟩ := List.mem_map.mp (hload.symm ▸ hx : x ∈ loadCapture _)
      refine .inr ?_
      rw [← (hsamples x hx).bytes, ← hv, Bits.length_fromHex]
  · intro hwidth
    constructor
    · exact fun x hx => Bits.fromHex_hex hn hx.bytes
    · exact fun x hx => Bits.hex_eq (hnonempty hx)
    · intro h hh i hi
      have hsize : i < (Bits.zeros n).size := lt_of_lt_of_le hi (Bits.size_zeros n)
      simp [Bits.get_fromHex hh, hsize, Nat.testBit_mod_two_pow, hi]
    · intro x hx
      refine ⟨?_, fun key out digits hcapture hvalue => ?_⟩
      · rw [Bits.hex_eq (hnonempty hx), hexValue_toDigits]
      · exact Bits.fromHex_eq hx.bytes (isSome_of_capture hcapture) hvalue
    · intro o ho
      by_cases hnil : samples = []
      · simp [saveCapture, hnil] at ho
      · rw [saveCapture, if_neg hnil] at ho
        rw [← Option.some.inj ho, loadCapture, List.map_map]
        refine (List.map_congr_left fun x hx => ?_).trans (List.map_id _)
        have hbytes := (hsamples x hx).bytes
        have hbox := hwidth.resolve_left hnil
        have hpos : 1 ≤ widthSpin := by omega
        exact Bits.fromHex_hex hpos (hbytes.trans hbox.symm)

/-- Samples of 20 bits, saved while 24 is in the box. -/
theorem faithful_narrow : Faithful 20 24 [⟨[0x5A, 0xC3, 0x0F]⟩, ⟨[0x01, 0x00, 0x08]⟩] :=
  (faithful_iff (by decide) fun x hx => by
    have hbits : ∀ y ∈ [(⟨[0x5A, 0xC3, 0x0F]⟩ : Bits), ⟨[0x01, 0x00, 0x08]⟩],
        y.size = 24 ∧ ∀ i < 24, 20 ≤ i → y.get i = false := by decide
    obtain ⟨hsize, hlow⟩ := hbits x hx
    refine ⟨?_, fun i hi => ?_⟩
    · unfold Bits.size at hsize
      omega
    · rcases Nat.lt_or_ge i 24 with hlt | hge
      · exact hlow i hlt hi
      · exact Bits.get_of_size_le (hsize.trans_le hge)).mpr (.inr rfl)

/-- A sample of 64 bits, with bit 20 set. -/
def wide : Bits := ⟨[0, 0, 0x10, 0, 0, 0, 0, 0]⟩

/-- It is saved after 16 was put in the box, and the bit is lost. -/
theorem not_faithful_narrowed : Bits.Of 64 wide ∧ wide.get 20 = true ∧
    (saveCapture 16 [wide]).map (fun o => (loadCapture o).map fun x => x.get 20) = some [false] ∧
    ¬ Faithful 64 16 [wide] := by
  refine ⟨⟨by decide, fun i hi => Bits.get_of_size_le hi⟩, by decide, by decide, fun h => ?_⟩
  have hload := h.reload _ rfl
  exact absurd (congrArg (fun xs => xs.map fun x => x.get 20) hload) (by decide)

end Openila
end Xc7Tools
