import Bristlemouth.Lib.OnesComplement
import Bristlemouth.Wire.Frame

/-!
# The IPv6 pseudo-header checksum

`checksum.rs`: a one's-complement sum in 32 bits, folded, complemented and
byte-swapped.
-/

set_option autoImplicit false

namespace Bristlemouth

/-- The loop over the big-endian pairs of `data`, an odd last byte padded on the low side. -/
def sumPairs (sum : UInt32) : Bytes → UInt32
  | hi :: lo :: rest => sumPairs (sum + (u16FromBe [hi, lo]).toUInt32) rest
  | [last] => sum + (last.toUInt32 <<< 8)
  | [] => sum

theorem toNat_and_low (sum : UInt32) : (sum &&& (0xFFFF : UInt32)).toNat = sum.toNat % 65536 := by
  rw [UInt32.toNat_and]
  exact Nat.and_two_pow_sub_one_eq_mod _ 16

theorem toNat_shiftRight_high (sum : UInt32) : (sum >>> (16 : UInt32)).toNat = sum.toNat / 65536 := by
  rw [UInt32.toNat_shiftRight]
  exact Nat.shiftRight_eq_div_pow _ 16

theorem shiftRight_high_eq_zero {sum : UInt32} :
    sum >>> (16 : UInt32) = 0 ↔ sum.toNat / 65536 = 0 := by
  rw [← toNat_shiftRight_high, ← UInt32.toNat_inj]
  rfl

theorem toNat_foldCarries_step (sum : UInt32) :
    ((sum &&& (0xFFFF : UInt32)) + (sum >>> (16 : UInt32))).toNat =
      sum.toNat % 65536 + sum.toNat / 65536 := by
  have hlt := sum.toNat_lt
  rw [UInt32.toNat_add, toNat_and_low, toNat_shiftRight_high]
  omega

/-- Fold the carries down into 16 bits. -/
def foldCarries (sum : UInt32) : UInt32 :=
  if _h : sum >>> (16 : UInt32) = 0 then sum
  else foldCarries ((sum &&& (0xFFFF : UInt32)) + (sum >>> (16 : UInt32)))
termination_by sum.toNat
decreasing_by
  rw [shiftRight_high_eq_zero] at _h
  rw [toNat_foldCarries_step]
  omega

def swapBytes (x : UInt16) : UInt16 := (x <<< 8) ||| (x >>> 8)

def ipv6PseudoChecksum (src dst : BmIpAddr) (nextHeader : UInt8) (data : Bytes) : UInt16 :=
  let length := UInt32.ofNat data.length
  let sum := sumPairs (sumPairs 0 src.octets) dst.octets
  let sum := sum + ((length >>> 16) &&& 0xFFFF)
  let sum := sum + (length &&& 0xFFFF)
  let sum := sum + nextHeader.toUInt32
  let sum := sumPairs sum data
  swapBytes (~~~(foldCarries sum).toUInt16)

/-! ### The sum as a number -/

/-- The sum of the big-endian words of `data`. -/
def wordSum : Bytes → Nat
  | hi :: lo :: rest => hi.toNat * 256 + lo.toNat + wordSum rest
  | [last] => last.toNat * 256
  | [] => 0

/-- Everything the checksum covers, before any folding. -/
def pseudoSum (src dst : BmIpAddr) (nextHeader : UInt8) (data : Bytes) : Nat :=
  wordSum src.octets + wordSum dst.octets + data.length / 65536 + data.length % 65536
    + nextHeader.toNat + wordSum data

theorem wordSum_le (data : Bytes) : wordSum data ≤ 65535 * ((data.length + 1) / 2) := by
  induction data using wordSum.induct with
  | case1 hi lo rest ih =>
    have h₁ := hi.toNat_lt
    have h₂ := lo.toNat_lt
    simp only [wordSum, List.length_cons]
    omega
  | case2 last =>
    have h := last.toNat_lt
    simp only [wordSum, List.length_cons, List.length_nil]
    omega
  | case3 => simp [wordSum]

theorem wordSum_append {a b : Bytes} (h : a.length % 2 = 0) : wordSum (a ++ b) = wordSum a + wordSum b := by
  induction a using wordSum.induct with
  | case1 hi lo rest ih =>
    rw [List.length_cons, List.length_cons] at h
    rw [List.cons_append, List.cons_append, wordSum, wordSum, ih (by omega)]
    omega
  | case2 last => cases h
  | case3 => rw [List.nil_append, wordSum, Nat.zero_add]

theorem toNat_pair (hi lo : UInt8) : (u16FromBe [hi, lo]).toUInt32.toNat = hi.toNat * 256 + lo.toNat := by
  have h₁ := hi.toNat_lt
  have h₂ := lo.toNat_lt
  simp only [u16FromBe, Bytes.beNat, List.reverse_cons, List.reverse_nil, List.nil_append,
    List.singleton_append, Bytes.leNat, UInt16.toNat_toUInt32, UInt16.toNat_ofNat']
  omega

theorem toNat_last (last : UInt8) : (last.toUInt32 <<< 8).toNat = last.toNat * 256 := by
  have h := last.toNat_lt
  rw [UInt32.toNat_shiftLeft]
  simp [Nat.shiftLeft_eq]
  omega

theorem toNat_sumPairs (sum : UInt32) (data : Bytes) (h : sum.toNat + wordSum data < 2 ^ 32) :
    (sumPairs sum data).toNat = sum.toNat + wordSum data := by
  induction data using wordSum.induct generalizing sum with
  | case1 hi lo rest ih =>
    have hw := toNat_pair hi lo
    simp only [wordSum] at h ⊢
    have hs : (sum + (u16FromBe [hi, lo]).toUInt32).toNat = sum.toNat + (hi.toNat * 256 + lo.toNat) := by
      rw [UInt32.toNat_add, hw]
      omega
    rw [sumPairs, ih _ (by omega), hs]
    omega
  | case2 last =>
    have hw := toNat_last last
    simp only [wordSum] at h ⊢
    rw [sumPairs, UInt32.toNat_add, hw]
    omega
  | case3 => simp [sumPairs, wordSum]

theorem toNat_foldCarries (sum : UInt32) :
    (foldCarries sum).toNat = OnesComplement.fold sum.toNat := by
  induction sum using foldCarries.induct with
  | case1 sum h =>
    rw [foldCarries, dif_pos h, OnesComplement.fold, dif_pos (shiftRight_high_eq_zero.mp h)]
  | case2 sum h ih =>
    have h' : ¬ sum.toNat / 65536 = 0 := fun he => h (shiftRight_high_eq_zero.mpr he)
    rw [foldCarries, dif_neg h, ih, toNat_foldCarries_step, OnesComplement.fold.eq_def sum.toNat,
      dif_neg h']

theorem toNat_swapBytes (x : UInt16) : (swapBytes x).toNat = OnesComplement.swap x.toNat := by
  have hlt := x.toNat_lt
  have hl : (x <<< 8).toNat = 2 ^ 8 * (x.toNat % 256) := by
    rw [UInt16.toNat_shiftLeft]
    simp [Nat.shiftLeft_eq]
    omega
  have hr : (x >>> 8).toNat = x.toNat / 256 := by
    rw [UInt16.toNat_shiftRight]
    exact Nat.shiftRight_eq_div_pow _ 8
  rw [swapBytes, UInt16.toNat_or, hl, hr, ← Nat.two_pow_add_eq_or_of_lt (by omega),
    OnesComplement.swap]
  omega

/-- Over 64 KiB and less nothing overflows. -/
theorem toNat_ipv6PseudoChecksum_of_le (src dst : BmIpAddr) (nextHeader : UInt8) {data : Bytes}
    (h : data.length ≤ 65536) :
    (ipv6PseudoChecksum src dst nextHeader data).toNat =
      65535 - OnesComplement.swap (OnesComplement.fold (pseudoSum src dst nextHeader data)) := by
  have hs := wordSum_le src.octets
  have hd := wordSum_le dst.octets
  have hw := wordSum_le data
  have hn := nextHeader.toNat_lt
  rw [src.length_octets] at hs
  rw [dst.length_octets] at hd
  simp only [ipv6AddressSize] at hs hd
  have hlen : (UInt32.ofNat data.length).toNat = data.length := UInt32.toNat_ofNat_of_lt (Nat.lt_of_le_of_lt h (by decide))
  have hhi : ((UInt32.ofNat data.length >>> 16) &&& (0xFFFF : UInt32)).toNat = data.length / 65536 := by
    rw [toNat_and_low, toNat_shiftRight_high, hlen]
    omega
  have hlo : (UInt32.ofNat data.length &&& (0xFFFF : UInt32)).toNat = data.length % 65536 := by
    rw [toNat_and_low, hlen]
  have h₁ : (sumPairs 0 src.octets).toNat = wordSum src.octets := by
    rw [toNat_sumPairs _ _ (by simp; omega)]
    simp
  have h₂ : (sumPairs (sumPairs 0 src.octets) dst.octets).toNat =
      wordSum src.octets + wordSum dst.octets := by
    rw [toNat_sumPairs _ _ (by omega), h₁]
  have h₃ : (sumPairs (sumPairs 0 src.octets) dst.octets
      + ((UInt32.ofNat data.length >>> 16) &&& 0xFFFF) + (UInt32.ofNat data.length &&& 0xFFFF)
      + nextHeader.toUInt32).toNat =
      wordSum src.octets + wordSum dst.octets + data.length / 65536 + data.length % 65536
        + nextHeader.toNat := by
    rw [UInt32.toNat_add, UInt32.toNat_add, UInt32.toNat_add, h₂, hhi, hlo, UInt8.toNat_toUInt32]
    omega
  have hsum := toNat_sumPairs _ data (by rw [h₃]; omega)
  rw [h₃] at hsum
  have hfold := toNat_foldCarries (sumPairs (sumPairs (sumPairs 0 src.octets) dst.octets
      + ((UInt32.ofNat data.length >>> 16) &&& 0xFFFF) + (UInt32.ofNat data.length &&& 0xFFFF)
      + nextHeader.toUInt32) data)
  rw [hsum] at hfold
  have hlt := OnesComplement.fold_lt (pseudoSum src dst nextHeader data)
  unfold ipv6PseudoChecksum
  rw [toNat_swapBytes, UInt16.toNat_not, UInt32.toNat_toUInt16, hfold]
  rw [← pseudoSum, Nat.mod_eq_of_lt hlt]
  exact OnesComplement.swap_compl hlt

theorem toNat_ipv6PseudoChecksum (src dst : BmIpAddr) (nextHeader : UInt8) {data : Bytes}
    (h : data.length < 65536) :
    (ipv6PseudoChecksum src dst nextHeader data).toNat =
      65535 - OnesComplement.swap (OnesComplement.fold (pseudoSum src dst nextHeader data)) :=
  toNat_ipv6PseudoChecksum_of_le src dst nextHeader h.le

end Bristlemouth
