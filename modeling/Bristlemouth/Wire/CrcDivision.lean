import Bristlemouth.Lib.ShiftRegister
import Bristlemouth.Wire.Crc

/-!
# The CRCs as divisions

A step of `crc16_ccitt` is eight steps of the shift register of `0x8408`, one of `crc32_ieee` twice four
steps of that of `0xedb88320`. Both are linear, so that the table need only be right on a nibble.
-/

set_option autoImplicit false

namespace Bristlemouth

open ShiftRegister Polynomial

/-- `0x1021`, reflected. -/
def ccittPoly : BitVec 16 := 0x8408#16

def ieeePoly : BitVec 32 := 0xedb88320#32

/-- What `crc16_ccitt` adds for the low byte of its state. -/
def crc16Tail (e : UInt8) : UInt16 :=
  let f := (e ^^^ (e <<< 4)).toUInt16
  (f <<< 8) ^^^ (f <<< 3) ^^^ (f >>> 4)

theorem crc16Tail_eq (e : UInt8) :
    (crc16Tail e).toBitVec = shifts ccittPoly 8 (BitVec.ofNat 16 e.toNat) := by
  have hall : ∀ n : Fin 256, (crc16Tail (UInt8.ofNat n)).toBitVec = shifts ccittPoly 8 (BitVec.ofNat 16 n) := by
    decide +kernel
  have he := hall ⟨e.toNat, e.toNat_lt⟩
  rwa [UInt8.ofNat_toNat] at he

theorem crc32Table_eq {n : Nat} (h : n < 16) :
    (crc32Table.getD n 0).toBitVec = shifts ieeePoly 4 (BitVec.ofNat 32 n) := by
  have hall : ∀ n : Fin 16, (crc32Table.getD n 0).toBitVec = shifts ieeePoly 4 (BitVec.ofNat 32 n) := by
    decide +kernel
  exact hall ⟨n, h⟩

theorem getLsbD_byte {w : Nat} (byte : UInt8) {i : Nat} (h : 8 ≤ i) :
    (byte.toBitVec.setWidth w).getLsbD i = false := by
  rw [BitVec.getLsbD_setWidth, BitVec.getLsbD_of_ge _ _ h, Bool.and_false]

theorem byteBits_eq {w : Nat} (byte : UInt8) (hw : 8 ≤ w) :
    byteBits byte = (List.range 8).map (byte.toBitVec.setWidth w).getLsbD := by
  refine List.map_congr_left fun i hi => ?_
  have hlt := List.mem_range.mp hi
  rw [BitVec.getLsbD_setWidth, decide_eq_true (by omega), Bool.true_and]

/-- A byte of `crc16_ccitt` is eight bits of the division. -/
theorem crc16Step_eq (crc : UInt16) (byte : UInt8) :
    (crc16Step crc byte).toBitVec = feedBits ccittPoly crc.toBitVec (byteBits byte) := by
  have hxor : (crc ^^^ byte.toUInt16).toBitVec = crc.toBitVec ^^^ byte.toBitVec.setWidth 16 := rfl
  have hlow : ((crc.toBitVec ^^^ byte.toBitVec.setWidth 16) &&& BitVec.ofNat 16 (2 ^ 8 - 1))
      = BitVec.ofNat 16 (crc ^^^ byte.toUInt16).toUInt8.toNat := by
    apply BitVec.eq_of_toNat_eq
    rw [← hxor, BitVec.toNat_and, UInt16.toNat_toBitVec, BitVec.toNat_ofNat, BitVec.toNat_ofNat,
      UInt16.toNat_toUInt8, Nat.mod_eq_of_lt (by decide : 2 ^ 8 - 1 < 2 ^ 16),
      Nat.and_two_pow_sub_one_eq_mod]
    omega
  have hhigh : (crc.toBitVec ^^^ byte.toBitVec.setWidth 16) >>> 8 = (crc >>> 8).toBitVec := by
    apply BitVec.eq_of_getLsbD_eq
    intro i hi
    rw [BitVec.getLsbD_ushiftRight, BitVec.getLsbD_xor, getLsbD_byte byte (by omega), Bool.xor_false]
    exact (BitVec.getLsbD_ushiftRight crc.toBitVec 8 i).symm
  rw [byteBits_eq byte (by decide : 8 ≤ 16), feedBits_range ccittPoly 8 _ _ (fun i hi => getLsbD_byte byte hi),
    shifts_split, hlow, hhigh, ← crc16Tail_eq]
  change ((crc >>> 8) ^^^ _ ^^^ _ ^^^ _).toBitVec = _
  rw [UInt16.toBitVec_xor, UInt16.toBitVec_xor, UInt16.toBitVec_xor, BitVec.xor_assoc, BitVec.xor_assoc]
  rw [crc16Tail, UInt16.toBitVec_xor, UInt16.toBitVec_xor, BitVec.xor_assoc]

theorem crc16Ccitt_eq (data : Bytes) : ∀ seed : UInt16,
    (crc16Ccitt seed data).toBitVec = feed ccittPoly seed.toBitVec data := by
  induction data with
  | nil => exact fun _ => rfl
  | cons byte data ih =>
    intro seed
    rw [feed_cons, ← crc16Step_eq, ← ih]
    rfl

/-- A nibble of `crc32_ieee`, whose higher bits do not matter, is four bits of the division. -/
theorem crc32Nibble_eq (crc nibble : UInt32) : (crc32Nibble crc nibble).toBitVec
    = feedBits ieeePoly crc.toBitVec ((List.range 4).map nibble.toBitVec.getLsbD) := by
  have hbits : (List.range 4).map nibble.toBitVec.getLsbD
      = (List.range 4).map (nibble.toBitVec &&& BitVec.ofNat 32 (2 ^ 4 - 1)).getLsbD := by
    refine List.map_congr_left fun i hi => ?_
    have hlt := List.mem_range.mp hi
    rw [BitVec.getLsbD_and, BitVec.getLsbD_ofNat, Nat.testBit_two_pow_sub_one, decide_eq_true hlt,
      decide_eq_true (by omega), Bool.and_true, Bool.and_true]
  have hclear : ∀ i, 4 ≤ i → (nibble.toBitVec &&& BitVec.ofNat 32 (2 ^ 4 - 1)).getLsbD i = false := by
    intro i hi
    rw [BitVec.getLsbD_and, BitVec.getLsbD_ofNat, Nat.testBit_two_pow_sub_one,
      show decide (i < 4) = false from decide_eq_false (by omega), Bool.and_false, Bool.and_false]
  have hhigh : (crc.toBitVec ^^^ (nibble.toBitVec &&& BitVec.ofNat 32 (2 ^ 4 - 1))) >>> 4
      = (crc >>> 4).toBitVec := by
    apply BitVec.eq_of_getLsbD_eq
    intro i hi
    rw [BitVec.getLsbD_ushiftRight, BitVec.getLsbD_xor, hclear _ (by omega), Bool.xor_false]
    exact (BitVec.getLsbD_ushiftRight crc.toBitVec 4 i).symm
  have hlow : (crc.toBitVec ^^^ (nibble.toBitVec &&& BitVec.ofNat 32 (2 ^ 4 - 1)))
      &&& BitVec.ofNat 32 (2 ^ 4 - 1) = BitVec.ofNat 32 ((crc ^^^ nibble) &&& 0x0f).toNat := by
    have hand : ((crc ^^^ nibble) &&& 0x0f).toBitVec
        = (crc.toBitVec ^^^ nibble.toBitVec) &&& BitVec.ofNat 32 (2 ^ 4 - 1) := rfl
    have hnat : BitVec.ofNat 32 ((crc ^^^ nibble) &&& 0x0f).toNat = ((crc ^^^ nibble) &&& 0x0f).toBitVec := by
      rw [← UInt32.toNat_toBitVec, BitVec.ofNat_toNat, BitVec.setWidth_eq]
    rw [hnat, hand]
    apply BitVec.eq_of_getLsbD_eq
    intro i hi
    rw [BitVec.getLsbD_and, BitVec.getLsbD_and, BitVec.getLsbD_xor, BitVec.getLsbD_xor, BitVec.getLsbD_and]
    cases (BitVec.ofNat 32 (2 ^ 4 - 1)).getLsbD i <;> simp
  have hlt : ((crc ^^^ nibble) &&& 0x0f).toNat < 16 := by
    rw [UInt32.toNat_and]
    exact Nat.lt_of_le_of_lt Nat.and_le_right (by decide)
  rw [hbits, feedBits_range ieeePoly 4 _ _ hclear, shifts_split, hlow, hhigh, ← crc32Table_eq hlt]
  rfl

theorem crc32Step_eq (crc : UInt32) (byte : UInt8) :
    (crc32Step crc byte).toBitVec = feedBits ieeePoly crc.toBitVec (byteBits byte) := by
  have hsplit : byteBits byte = (List.range 4).map byte.toUInt32.toBitVec.getLsbD
      ++ (List.range 4).map (byte.toUInt32 >>> 4).toBitVec.getLsbD := by
    have hall : ∀ n : Fin 256, byteBits (UInt8.ofNat n)
        = (List.range 4).map (UInt8.ofNat n).toUInt32.toBitVec.getLsbD
          ++ (List.range 4).map ((UInt8.ofNat n).toUInt32 >>> 4).toBitVec.getLsbD := by
      decide +kernel
    have hbyte := hall ⟨byte.toNat, byte.toNat_lt⟩
    rwa [UInt8.ofNat_toNat] at hbyte
  rw [hsplit, feedBits_append, crc32Step, crc32Nibble_eq, crc32Nibble_eq]

theorem foldl_crc32Step_eq (data : Bytes) : ∀ crc : UInt32,
    (data.foldl crc32Step crc).toBitVec = feed ieeePoly crc.toBitVec data := by
  induction data with
  | nil => exact fun _ => rfl
  | cons byte data ih =>
    intro crc
    rw [feed_cons, ← crc32Step_eq, ← ih]
    rfl

theorem crc32IeeeUpdate_eq (crc : UInt32) (data : Bytes) :
    (crc32IeeeUpdate crc data).toBitVec = ~~~ feed ieeePoly (~~~ crc.toBitVec) data := by
  rw [crc32IeeeUpdate, UInt32.toBitVec_not, foldl_crc32Step_eq, UInt32.toBitVec_not]

theorem crc32IeeeUpdate_append (crc : UInt32) (a b : Bytes) :
    crc32IeeeUpdate crc (a ++ b) = crc32IeeeUpdate (crc32IeeeUpdate crc a) b := by
  rw [crc32IeeeUpdate, crc32IeeeUpdate, crc32IeeeUpdate, List.foldl_append, UInt32.not_not]

theorem generator_ccittPoly : generator ccittPoly = X ^ 16 + X ^ 12 + X ^ 5 + 1 := by
  have hbit : ∀ i, i < 16 → ccittPoly.getLsbD i = decide (i = 15 ∨ i = 10 ∨ i = 3) := by decide
  have hsum : toPoly ccittPoly
      = ∑ i ∈ Finset.range 16, if i = 15 ∨ i = 10 ∨ i = 3 then (X : (ZMod 2)[X]) ^ (16 - 1 - i) else 0 := by
    refine Finset.sum_congr rfl fun i hi => ?_
    rw [hbit i (Finset.mem_range.mp hi)]
    simp only [decide_eq_true_eq]
  rw [generator, hsum]
  simp [Finset.sum_range_succ]
  ring

theorem generator_ieeePoly : generator ieeePoly = X ^ 32 + X ^ 26 + X ^ 23 + X ^ 22 + X ^ 16 + X ^ 12 + X ^ 11
    + X ^ 10 + X ^ 8 + X ^ 7 + X ^ 5 + X ^ 4 + X ^ 2 + X + 1 := by
  have hbit : ∀ i, i < 32 → ieeePoly.getLsbD i = decide (i ∈ [5, 8, 9, 15, 19, 20, 21, 23, 24, 26, 27, 29, 30, 31]) := by
    decide
  have hsum : toPoly ieeePoly = ∑ i ∈ Finset.range 32,
      if i ∈ [5, 8, 9, 15, 19, 20, 21, 23, 24, 26, 27, 29, 30, 31] then (X : (ZMod 2)[X]) ^ (32 - 1 - i) else 0 := by
    refine Finset.sum_congr rfl fun i hi => ?_
    rw [hbit i (Finset.mem_range.mp hi)]
    simp only [decide_eq_true_eq]
  rw [generator, hsum]
  simp [Finset.sum_range_succ]
  ring

/-- Both CRCs chain, and both are the bit-by-bit division by their polynomials. -/
theorem crc_divides (seed : UInt16) (crc : UInt32) (a b : Bytes) :
    crc16Ccitt (crc16Ccitt seed a) b = crc16Ccitt seed (a ++ b) ∧
    crc32IeeeUpdate (crc32IeeeUpdate crc a) b = crc32IeeeUpdate crc (a ++ b) ∧
    (crc16Ccitt seed a).toBitVec = feed ccittPoly seed.toBitVec a ∧
    (crc32IeeeUpdate crc a).toBitVec = ~~~ feed ieeePoly (~~~ crc.toBitVec) a ∧
    toPoly (crc16Ccitt seed a).toBitVec = (toPoly seed.toBitVec * X ^ (bitsOf a).length
      + message (bitsOf a) * X ^ 16) %ₘ generator ccittPoly ∧
    toPoly (~~~ (crc32IeeeUpdate crc a).toBitVec) = (toPoly (~~~ crc.toBitVec) * X ^ (bitsOf a).length
      + message (bitsOf a) * X ^ 32) %ₘ generator ieeePoly ∧
    generator ccittPoly = X ^ 16 + X ^ 12 + X ^ 5 + 1 ∧
    generator ieeePoly = X ^ 32 + X ^ 26 + X ^ 23 + X ^ 22 + X ^ 16 + X ^ 12 + X ^ 11
      + X ^ 10 + X ^ 8 + X ^ 7 + X ^ 5 + X ^ 4 + X ^ 2 + X + 1 := by
  refine ⟨(crc16Ccitt_append seed a b).symm, (crc32IeeeUpdate_append crc a b).symm, crc16Ccitt_eq a seed,
    crc32IeeeUpdate_eq crc a, ?_, ?_, generator_ccittPoly, generator_ieeePoly⟩
  · rw [crc16Ccitt_eq]
    exact toPoly_feedBits (by decide) _ _ _
  · rw [crc32IeeeUpdate_eq, BitVec.not_not]
    exact toPoly_feedBits (by decide) _ _ _

end Bristlemouth
