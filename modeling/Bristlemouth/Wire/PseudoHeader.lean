import Bristlemouth.Wire.Checksum

/-!
# The checksum as a one's-complement sum

What the checksum is for: the pseudo-header of RFC 2460 and the payload, cut into big-endian words and
added with end-around carry. The code defers the carries; `checked` is the same code with every addition
as a build with overflow checks has it.
-/

set_option autoImplicit false

namespace Bristlemouth

open Bytes

/-! ### Every addition checked -/

def addChecked (a b : UInt32) : Option UInt32 := if a.toNat + b.toNat < 2 ^ 32 then some (a + b) else none

def sumPairsChecked (sum : UInt32) : Bytes → Option UInt32
  | hi :: lo :: rest => do sumPairsChecked (← addChecked sum (u16FromBe [hi, lo]).toUInt32) rest
  | [last] => addChecked sum (last.toUInt32 <<< 8)
  | [] => some sum

def foldCarriesChecked (sum : UInt32) : Option UInt32 :=
  if _h : sum >>> (16 : UInt32) = 0 then some sum
  else if (sum &&& (0xFFFF : UInt32)).toNat + (sum >>> (16 : UInt32)).toNat < 2 ^ 32 then
    foldCarriesChecked ((sum &&& (0xFFFF : UInt32)) + (sum >>> (16 : UInt32)))
  else none
termination_by sum.toNat
decreasing_by
  rw [shiftRight_high_eq_zero] at _h
  rw [toNat_foldCarries_step]
  omega

/-- `ipv6_pseudo_checksum`, where an overflow is a panic. -/
def ipv6PseudoChecksumChecked (src dst : BmIpAddr) (nextHeader : UInt8) (data : Bytes) : Option UInt16 := do
  let length := UInt32.ofNat data.length
  let sum ← sumPairsChecked 0 src.octets
  let sum ← sumPairsChecked sum dst.octets
  let sum ← addChecked sum ((length >>> 16) &&& 0xFFFF)
  let sum ← addChecked sum (length &&& 0xFFFF)
  let sum ← addChecked sum nextHeader.toUInt32
  let sum ← sumPairsChecked sum data
  let sum ← foldCarriesChecked sum
  return swapBytes (~~~sum.toUInt16)

theorem addChecked_eq {a b : UInt32} (h : a.toNat + b.toNat < 2 ^ 32) : addChecked a b = some (a + b) := if_pos h

theorem foldCarriesChecked_eq (sum : UInt32) : foldCarriesChecked sum = some (foldCarries sum) := by
  induction sum using foldCarries.induct with
  | case1 sum h => rw [foldCarriesChecked, dif_pos h, foldCarries, dif_pos h]
  | case2 sum h ih =>
    have hlt := sum.toNat_lt
    have hfit : (sum &&& (0xFFFF : UInt32)).toNat + (sum >>> (16 : UInt32)).toNat < 2 ^ 32 := by
      rw [toNat_and_low, toNat_shiftRight_high]
      omega
    rw [foldCarriesChecked, dif_neg h, if_pos hfit, ih, foldCarries.eq_def sum, dif_neg h]

theorem sumPairsChecked_eq {sum : UInt32} {data : Bytes} (h : sum.toNat + wordSum data < 2 ^ 32) :
    sumPairsChecked sum data = some (sumPairs sum data) := by
  induction data using wordSum.induct generalizing sum with
  | case1 hi lo rest ih =>
    have hpair := toNat_pair hi lo
    rw [wordSum] at h
    have hadd : addChecked sum (u16FromBe [hi, lo]).toUInt32 = some (sum + (u16FromBe [hi, lo]).toUInt32) :=
      addChecked_eq (by omega)
    have hsum : (sum + (u16FromBe [hi, lo]).toUInt32).toNat = sum.toNat + (hi.toNat * 256 + lo.toNat) := by
      rw [UInt32.toNat_add, hpair]
      omega
    rw [sumPairsChecked, hadd, Option.bind_eq_bind, Option.bind_some, ih (by omega), sumPairs]
  | case2 last =>
    rw [wordSum] at h
    exact addChecked_eq (by rw [toNat_last]; exact h)
  | case3 => rfl

/-- No addition overflows over 64 KiB. -/
theorem ipv6PseudoChecksumChecked_eq (src dst : BmIpAddr) (nextHeader : UInt8) {data : Bytes}
    (h : data.length ≤ 65536) :
    ipv6PseudoChecksumChecked src dst nextHeader data = some (ipv6PseudoChecksum src dst nextHeader data) := by
  have hs := wordSum_le src.octets
  have hd := wordSum_le dst.octets
  have hw := wordSum_le data
  have hn := nextHeader.toNat_lt
  rw [src.length_octets] at hs
  rw [dst.length_octets] at hd
  simp only [ipv6AddressSize] at hs hd
  have hlow : ∀ x : UInt32, (x &&& (0xFFFF : UInt32)).toNat < 65536 := by
    intro x
    rw [toNat_and_low]
    exact Nat.mod_lt _ (by decide)
  have hhigh := hlow (UInt32.ofNat data.length >>> 16)
  have hlength := hlow (UInt32.ofNat data.length)
  have hzero : (0 : UInt32).toNat = 0 := rfl
  have h₁ : (sumPairs 0 src.octets).toNat = wordSum src.octets := by
    rw [toNat_sumPairs _ _ (by omega), hzero, Nat.zero_add]
  have h₂ : (sumPairs (sumPairs 0 src.octets) dst.octets).toNat = wordSum src.octets + wordSum dst.octets := by
    rw [toNat_sumPairs _ _ (by omega), h₁]
  generalize hhighword : (UInt32.ofNat data.length >>> 16) &&& (0xFFFF : UInt32) = high at hhigh
  generalize hlowword : UInt32.ofNat data.length &&& (0xFFFF : UInt32) = low at hlength
  have h₃ : (sumPairs (sumPairs 0 src.octets) dst.octets + high).toNat =
      wordSum src.octets + wordSum dst.octets + high.toNat := by
    rw [UInt32.toNat_add, h₂]
    omega
  have h₄ : (sumPairs (sumPairs 0 src.octets) dst.octets + high + low).toNat =
      wordSum src.octets + wordSum dst.octets + high.toNat + low.toNat := by
    rw [UInt32.toNat_add, h₃]
    omega
  have h₅ : (sumPairs (sumPairs 0 src.octets) dst.octets + high + low + nextHeader.toUInt32).toNat =
      wordSum src.octets + wordSum dst.octets + high.toNat + low.toNat + nextHeader.toNat := by
    rw [UInt32.toNat_add, h₄, UInt8.toNat_toUInt32]
    omega
  have hnext : nextHeader.toUInt32.toNat = nextHeader.toNat := UInt8.toNat_toUInt32 nextHeader
  simp only [ipv6PseudoChecksumChecked, ipv6PseudoChecksum, hhighword, hlowword, Option.bind_eq_bind]
  rw [sumPairsChecked_eq (by omega), Option.bind_some, sumPairsChecked_eq (by omega), Option.bind_some,
    addChecked_eq (by omega), Option.bind_some, addChecked_eq (by omega), Option.bind_some,
    addChecked_eq (by omega), Option.bind_some, sumPairsChecked_eq (by omega), Option.bind_some,
    foldCarriesChecked_eq]
  rfl

/-! ### The one's-complement sum -/

/-- The words of the sum, a last odd byte in the high half of a word of its own. -/
def words : Bytes → List Nat
  | hi :: lo :: rest => (hi.toNat * 256 + lo.toNat) :: words rest
  | [last] => [last.toNat * 256]
  | [] => []

/-- The addresses, the payload's length in four bytes, three zeros and the next header. -/
def pseudoHeader (src dst : BmIpAddr) (nextHeader : UInt8) (length : Nat) : Bytes :=
  src.octets ++ (dst.octets ++ (beBytes 4 length ++ [0, 0, 0, nextHeader]))

/-- The one's-complement sum of the pseudo-header and the payload. -/
def onesComplementSum (src dst : BmIpAddr) (nextHeader : UInt8) (data : Bytes) : Nat :=
  OnesComplement.sum (words (pseudoHeader src dst nextHeader data.length ++ data))

theorem sum_words (data : Bytes) : (words data).sum = wordSum data := by
  induction data using wordSum.induct with
  | case1 hi lo rest ih => rw [words, wordSum, List.sum_cons, ih]
  | case2 last => rw [words, wordSum, List.sum_singleton]
  | case3 => rfl

theorem words_lt (data : Bytes) : ∀ w ∈ words data, w < 65536 := by
  induction data using wordSum.induct with
  | case1 hi lo rest ih =>
    intro w hw
    have h₁ := hi.toNat_lt
    have h₂ := lo.toNat_lt
    rw [words] at hw
    rcases List.mem_cons.mp hw with rfl | hw
    · omega
    · exact ih w hw
  | case2 last =>
    intro w hw
    have h := last.toNat_lt
    rw [words, List.mem_singleton] at hw
    omega
  | case3 =>
    intro w hw
    cases hw

theorem wordSum_pseudoHeader (src dst : BmIpAddr) (nextHeader : UInt8) {data : Bytes}
    (h : data.length ≤ 65536) :
    wordSum (pseudoHeader src dst nextHeader data.length ++ data) = pseudoSum src dst nextHeader data := by
  have hsrc : src.octets.length % 2 = 0 := by rw [src.length_octets]; rfl
  have hdst : dst.octets.length % 2 = 0 := by rw [dst.length_octets]; rfl
  have htail : (beBytes 4 data.length ++ [0, 0, 0, nextHeader]).length % 2 = 0 := by
    rw [List.length_append, length_beBytes, List.length_cons, List.length_cons, List.length_cons,
      List.length_singleton]
  have hwords : wordSum (beBytes 4 data.length ++ [0, 0, 0, nextHeader]) =
      data.length / 65536 + data.length % 65536 + nextHeader.toNat := by
    simp only [beBytes, leBytes, List.reverse_cons, List.reverse_nil, List.nil_append, List.cons_append,
      wordSum, UInt8.toNat_ofNat', UInt8.toNat_zero]
    omega
  rw [pseudoHeader, List.append_assoc, List.append_assoc, wordSum_append hsrc, wordSum_append hdst,
    wordSum_append htail, hwords, pseudoSum]
  omega

theorem onesComplementSum_eq (src dst : BmIpAddr) (nextHeader : UInt8) {data : Bytes}
    (h : data.length ≤ 65536) :
    onesComplementSum src dst nextHeader data = OnesComplement.fold (pseudoSum src dst nextHeader data) := by
  rw [onesComplementSum, OnesComplement.sum_eq_fold (words_lt _), sum_words,
    wordSum_pseudoHeader src dst nextHeader h]

/-! ### The field that holds the checksum -/

/-- A field at an even place counts as the word it holds. -/
theorem wordSum_copyAt {data field : Bytes} {k : Nat} (hk : k % 2 = 0) (hfield : field.length = 2)
    (hzero : data.slice k 2 = [0, 0]) : wordSum (data.copyAt k field) = wordSum data + wordSum field := by
  have hfit : k + 2 ≤ data.length := by
    have hlen := congrArg List.length hzero
    simp only [slice, List.length_take, List.length_drop, List.length_cons, List.length_nil] at hlen
    omega
  have htake : (data.take k).length = k := by
    rw [List.length_take]
    omega
  have hfront : (data.take k).length % 2 = 0 := by omega
  have hdata : data = data.take k ++ ([0, 0] ++ data.drop (k + 2)) := by
    rw [← hzero, slice, ← List.drop_drop, List.take_append_drop, List.take_append_drop]
  have hcopy : data.copyAt k field = data.take k ++ (field ++ data.drop (k + 2)) := by rw [copyAt, hfield]
  have hbefore : wordSum data = wordSum (data.take k) + wordSum (data.drop (k + 2)) := by
    conv_lhs => rw [hdata, wordSum_append hfront, wordSum_append (by rfl)]
    simp [wordSum]
  rw [hcopy, wordSum_append hfront, wordSum_append (by rw [hfield]), hbefore]
  omega

theorem wordSum_u16ToLe (x : UInt16) : wordSum (u16ToLe x) = OnesComplement.swap x.toNat := by
  have hlt := x.toNat_lt
  simp only [u16ToLe, leBytes, wordSum, UInt8.toNat_ofNat', OnesComplement.swap]
  omega

/--
The checksum is the byte-swapped complement of the one's-complement sum, computed without an overflow.
Stored little-endian into a zeroed field at an even place it makes the sum all ones.
-/
theorem pseudo_checksum_is_ones_complement (src dst : BmIpAddr) (nextHeader : UInt8) (data : Bytes)
    (h : data.length ≤ 65536) :
    ipv6PseudoChecksumChecked src dst nextHeader data = some (ipv6PseudoChecksum src dst nextHeader data) ∧
    (ipv6PseudoChecksum src dst nextHeader data).toNat =
      OnesComplement.swap (65535 - onesComplementSum src dst nextHeader data) ∧
    ∀ k, k % 2 = 0 → data.slice k 2 = [0, 0] →
      onesComplementSum src dst nextHeader
          (data.copyAt k (u16ToLe (ipv6PseudoChecksum src dst nextHeader data))) = 65535 ∧
        ipv6PseudoChecksum src dst nextHeader
          (data.copyAt k (u16ToLe (ipv6PseudoChecksum src dst nextHeader data))) = 0 := by
  have hvalue := toNat_ipv6PseudoChecksum_of_le src dst nextHeader h
  have hfold := OnesComplement.fold_lt (pseudoSum src dst nextHeader data)
  refine ⟨ipv6PseudoChecksumChecked_eq src dst nextHeader h, ?_, fun k hk hzero => ?_⟩
  · rw [hvalue, onesComplementSum_eq src dst nextHeader h, OnesComplement.swap_compl hfold]
  · generalize hsum : ipv6PseudoChecksum src dst nextHeader data = checksum at hvalue
    have hfit : k + 2 ≤ data.length := by
      have hlen := congrArg List.length hzero
      simp only [slice, List.length_take, List.length_drop, List.length_cons, List.length_nil] at hlen
      omega
    have hlength : (data.copyAt k (u16ToLe checksum)).length = data.length := length_copyAt _ _ _ (by simp; omega)
    have hwritten : (data.copyAt k (u16ToLe checksum)).length ≤ 65536 := by rw [hlength]; exact h
    -- the stored bytes read as a word are the complement of the folded sum
    have hstored : wordSum (u16ToLe checksum) = 65535 - OnesComplement.fold (pseudoSum src dst nextHeader data) := by
      rw [wordSum_u16ToLe, hvalue, OnesComplement.swap_compl (OnesComplement.swap_lt _),
        OnesComplement.swap_swap hfold]
    have htotal : pseudoSum src dst nextHeader (data.copyAt k (u16ToLe checksum)) =
        pseudoSum src dst nextHeader data +
          (65535 - OnesComplement.fold (pseudoSum src dst nextHeader data)) := by
      rw [pseudoSum, hlength, wordSum_copyAt hk (by simp) hzero, hstored, pseudoSum]
      omega
    have hones : OnesComplement.fold (pseudoSum src dst nextHeader (data.copyAt k (u16ToLe checksum))) = 65535 := by
      have hclass : OnesComplement.fold (pseudoSum src dst nextHeader data) % 65535 =
          pseudoSum src dst nextHeader data % 65535 := OnesComplement.fold_modEq _
      rw [htotal]
      apply OnesComplement.fold_eq_ones
      · by_cases hpos : 0 < pseudoSum src dst nextHeader data
        · omega
        · rw [Nat.eq_zero_of_not_pos hpos, OnesComplement.fold_of_lt (by decide : 0 < 65536)]
          decide
      · omega
    constructor
    · rw [onesComplementSum_eq src dst nextHeader hwritten, hones]
    · rw [← UInt16.toNat_inj, toNat_ipv6PseudoChecksum_of_le src dst nextHeader hwritten, hones]
      rfl

theorem pseudo_checksum_is_ones_complement_odd :
    slice [0x11, 0x22, 0, 0, 0x33] 2 2 = [0, 0] ∧
      onesComplementSum BmIpAddr.linkLocalMulticast BmIpAddr.linkLocalMulticast 17
        (copyAt [0x11, 0x22, 0, 0, 0x33] 2 (u16ToLe (ipv6PseudoChecksum BmIpAddr.linkLocalMulticast
          BmIpAddr.linkLocalMulticast 17 [0x11, 0x22, 0, 0, 0x33]))) = 65535 :=
  ⟨rfl, ((pseudo_checksum_is_ones_complement BmIpAddr.linkLocalMulticast BmIpAddr.linkLocalMulticast 17
    [0x11, 0x22, 0, 0, 0x33] (by decide)).2.2 2 rfl rfl).1⟩

end Bristlemouth
