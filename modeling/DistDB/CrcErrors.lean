import DistDB.Crc32
import DistDB.ShiftRegister

/-!
What the CRC-32 of `storage/crc32.cpp` is, and which errors it sees: it is the remainder of the
bits one by one (`crc32_eq_bitwise`), and byte strings of one length that differ within four
consecutive bytes have different ones (`crc32_ne`).
-/

namespace DistDB.CrcErrors

open Crc32 ShiftRegister

def polynomial : BitVec 32 := 0xEDB88320#32

/-- The bits of a byte, the lowest first. -/
def bitsOf (b : UInt8) : List Bool := (List.range 8).map b.toBitVec.getLsbD

/-- The reflected CRC-32, bit by bit. -/
def crc32Bitwise (bytes : Bytes) : BitVec 32 :=
  feedAll polynomial 0xFFFFFFFF#32 (bytes.flatMap bitsOf) ^^^ 0xFFFFFFFF#32

lemma polynomial_top : polynomial.getLsbD (32 - 1) = true := by decide

lemma bitStep_eq_feed (c : BitVec 32) : bitStep c = feed polynomial c false := by
  have hbit : c &&& 1#32 ≠ 0#32 ↔ (c.getLsbD 0 ^^ false) = true := by
    rw [BitVec.and_one_eq_setWidth_ofBool_getLsbD]
    cases c.getLsbD 0 <;> decide
  unfold bitStep feed
  by_cases h : c &&& 1#32 ≠ 0#32
  · rw [if_pos h, if_pos (hbit.mp h), BitVec.xor_comm]
    rfl
  · rw [if_neg h, if_neg fun h' => h (hbit.mpr h')]

lemma computeTableEntry_eq (n : BitVec 32) : computeTableEntry n = turn polynomial 8 n := by
  simp only [computeTableEntry, bitStep_eq_feed]
  rfl

lemma crcTable_low (x : BitVec 32) :
    crcTable.getD (x &&& 0xFF#32).toNat 0 = turn polynomial 8 (x &&& 0xFF#32) := by
  have hlt : (x &&& 0xFF#32).toNat < 256 := by
    rw [BitVec.toNat_and]
    exact Nat.and_lt_two_pow _ (by decide : (0xFF#32).toNat < 2 ^ 8)
  rw [crcTable, List.getD_eq_getElem?_getD, List.getElem?_map, List.getElem?_range hlt]
  show computeTableEntry (BitVec.ofNat 32 (x &&& 0xFF#32).toNat) = _
  rw [BitVec.ofNat_toNat, BitVec.setWidth_eq, computeTableEntry_eq]

lemma getLsbD_low : ∀ i < 32, (0xFF#32).getLsbD i = decide (i < 8) := by decide

lemma getLsbD_byte (b : UInt8) (i : ℕ) :
    (b.toBitVec.setWidth 32).getLsbD i = (bitsOf b).getD i false := by
  rw [BitVec.getLsbD_setWidth, bitsOf, List.getD_eq_getElem?_getD, List.getElem?_map]
  by_cases hi : i < 8
  · rw [List.getElem?_range hi, decide_eq_true (by omega)]
    rfl
  · rw [List.getElem?_eq_none (by simpa using hi), BitVec.getLsbD_of_ge _ _ (by omega)]
    simp

/-- **A byte at once**: the table step feeds the bits of the byte. -/
theorem byteStep_eq (crc : BitVec 32) (b : UInt8) :
    byteStep crc b = feedAll polynomial crc (bitsOf b) := by
  rw [byteStep, crcTable_low, feedAll_eq_turn polynomial (getLsbD_byte b)]
  show _ = turn polynomial 8 _
  rw [turn_split polynomial 8 (crc ^^^ b.toBitVec.setWidth 32) 0xFF#32 getLsbD_low,
    BitVec.ushiftRight_xor_distrib]
  have hbyte : b.toBitVec.setWidth 32 >>> 8 = 0#32 := by
    apply BitVec.eq_of_getLsbD_eq
    intro i _
    rw [BitVec.getLsbD_ushiftRight, BitVec.getLsbD_setWidth, BitVec.getLsbD_of_ge b.toBitVec _
      (by omega), Bool.and_false, BitVec.getLsbD_zero]
  rw [hbyte, BitVec.xor_zero]

lemma foldl_byteStep (crc : BitVec 32) (bytes : Bytes) :
    bytes.foldl byteStep crc = feedAll polynomial crc (bytes.flatMap bitsOf) := by
  induction bytes generalizing crc with
  | nil => rfl
  | cons b bytes ih =>
    rw [List.foldl_cons, ih, byteStep_eq, List.flatMap_cons, feedAll_append]

/-- The table computes the CRC-32. -/
theorem crc32_eq_bitwise (bytes : Bytes) : crc32 bytes = crc32Bitwise bytes := by
  rw [crc32, foldl_byteStep]
  rfl

/-! ### Errors -/

/-- Two different strings of one length that are alike but for `n` consecutive bytes. -/
structure DifferWithin (n : ℕ) (s s' : Bytes) : Prop where
  ne : s ≠ s'
  length : s.length = s'.length
  place : ∃ i, ∀ j, s[j]? ≠ s'[j]? → i ≤ j ∧ j < i + n

lemma DifferWithin.cons {n : ℕ} {s s' : Bytes} (h : DifferWithin n s s') (b : UInt8) :
    DifferWithin n (b :: s) (b :: s') where
  ne heq := h.ne (List.cons_injective heq)
  length := by simp [h.length]
  place := by
    obtain ⟨i, hi⟩ := h.place
    refine ⟨i + 1, fun j hj => ?_⟩
    cases j with
    | zero => exact absurd rfl hj
    | succ j =>
      obtain ⟨hle, hlt⟩ := hi j hj
      omega

lemma DifferWithin.split {n : ℕ} {s s' : Bytes} (h : DifferWithin n s s') :
    ∃ before x y after, s = before ++ x ++ after ∧ s' = before ++ y ++ after ∧
      x.length = y.length ∧ x.length ≤ n ∧ x ≠ y := by
  obtain ⟨i, hi⟩ := h.place
  have hbefore : s'.take i = s.take i := by
    refine List.ext_getElem? fun j => ?_
    rw [List.getElem?_take, List.getElem?_take]
    split
    · by_contra hne
      have := hi j (Ne.symm hne)
      omega
    · rfl
  have hafter : s'.drop (i + n) = s.drop (i + n) := by
    refine List.ext_getElem? fun j => ?_
    rw [List.getElem?_drop, List.getElem?_drop]
    by_contra hne
    have := hi _ (Ne.symm hne)
    omega
  have hparts : ∀ l : Bytes, l = l.take i ++ (l.drop i).take n ++ l.drop (i + n) := by
    intro l
    rw [← List.drop_drop, List.append_assoc, List.take_append_drop, List.take_append_drop]
  have hs' := hparts s'
  rw [hbefore, hafter] at hs'
  refine ⟨s.take i, (s.drop i).take n, (s'.drop i).take n, s.drop (i + n), hparts s, hs',
    by simp [h.length], List.length_take_le _ _, fun heq => h.ne ?_⟩
  rw [hparts s, heq]
  exact hs'.symm

lemma bitsOf_injective : Function.Injective bitsOf := by
  intro a b h
  apply UInt8.eq_of_toBitVec_eq
  apply BitVec.eq_of_getLsbD_eq
  intro i hi
  have hbit := congrArg (fun bits => bits[i]?) h
  simpa [bitsOf, List.getElem?_range hi] using hbit

lemma length_bits (bytes : Bytes) : (bytes.flatMap bitsOf).length = 8 * bytes.length := by
  induction bytes with
  | nil => rfl
  | cons b bytes ih =>
    rw [List.flatMap_cons, List.length_append, ih, List.length_cons]
    simp [bitsOf]
    omega

lemma bits_injective {x y : Bytes} (h : x.flatMap bitsOf = y.flatMap bitsOf) : x = y := by
  induction x generalizing y with
  | nil =>
    have hlen := congrArg List.length h
    rw [length_bits, length_bits] at hlen
    exact (List.length_eq_zero_iff.mp (by simpa using hlen.symm)).symm
  | cons a x ih =>
    cases y with
    | nil =>
      have hlen := congrArg List.length h
      rw [length_bits, length_bits] at hlen
      simp at hlen
    | cons b y =>
      rw [List.flatMap_cons, List.flatMap_cons] at h
      obtain ⟨hbyte, hrest⟩ := List.append_inj h (by simp [bitsOf])
      rw [bitsOf_injective hbyte, ih hrest]

/-- **An error within four consecutive bytes** is seen. -/
theorem crc32_ne {s s' : Bytes} (h : DifferWithin 4 s s') : crc32 s ≠ crc32 s' := by
  obtain ⟨before, x, y, after, rfl, rfl, hlen, hfour, hne⟩ := h.split
  intro heq
  rw [crc32, crc32, BitVec.xor_left_inj, foldl_byteStep, foldl_byteStep] at heq
  simp only [List.flatMap_append, feedAll_append] at heq
  have hword := feedAll_injective polynomial_top heq
  refine hne (bits_injective (feedAll_word_injective polynomial_top ?_ ?_ hword))
  · rw [length_bits, length_bits, hlen]
  · rw [length_bits]
    omega

end DistDB.CrcErrors
