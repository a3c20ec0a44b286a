import Mathlib
import Bristlemouth.Lib.Bytes

/-!
# Division by a polynomial, bit by bit

A shift register whose low bit is the highest coefficient. What it holds after some bits is a
remainder: of the seed and the bits, as polynomials over the field of two elements.
-/

set_option autoImplicit false

namespace Bristlemouth.ShiftRegister

open Polynomial

variable {w : Nat}

/-- One step of the division by the polynomial whose lower coefficients `p` are. -/
def shift (p c : BitVec w) : BitVec w := if c.getLsbD 0 then (c >>> 1) ^^^ p else c >>> 1

def bit (b : Bool) : BitVec w := if b then 1#w else 0#w

/-- A bit of the message enters at the highest coefficient. -/
def feedBit (p c : BitVec w) (b : Bool) : BitVec w := shift p (c ^^^ bit b)

def feedBits (p c : BitVec w) (bits : List Bool) : BitVec w := bits.foldl (feedBit p) c

/-- The bits of a byte, the low one first. -/
def byteBits (b : UInt8) : List Bool := (List.range 8).map b.toBitVec.getLsbD

def bitsOf (data : Bytes) : List Bool := data.flatMap byteBits

/-- The register after a message. -/
def feed (p c : BitVec w) (data : Bytes) : BitVec w := feedBits p c (bitsOf data)

def shifts (p : BitVec w) : Nat → BitVec w → BitVec w
  | 0, c => c
  | n + 1, c => shifts p n (shift p c)

/-! ### Bits of a shifted register -/

theorem feedBits_append (p c : BitVec w) (as bs : List Bool) :
    feedBits p c (as ++ bs) = feedBits p (feedBits p c as) bs := List.foldl_append

theorem feed_cons (p c : BitVec w) (b : UInt8) (data : Bytes) :
    feed p c (b :: data) = feed p (feedBits p c (byteBits b)) data := by
  rw [feed, bitsOf, List.flatMap_cons, feedBits_append]
  rfl

theorem shift_eq (p c : BitVec w) : shift p c = (c >>> 1) ^^^ (if c.getLsbD 0 then p else 0#w) := by
  unfold shift
  split
  · rfl
  · rw [BitVec.xor_zero]

theorem xor_cancel (p : BitVec w) (a b : Bool) :
    (if a != b then p else 0#w) = (if a then p else 0#w) ^^^ (if b then p else 0#w) := by
  cases a <;> cases b <;> simp

theorem shift_xor (p a b : BitVec w) : shift p (a ^^^ b) = shift p a ^^^ shift p b := by
  rw [shift_eq, shift_eq, shift_eq, BitVec.ushiftRight_xor_distrib, BitVec.getLsbD_xor, xor_cancel]
  ac_rfl

theorem shifts_xor (p : BitVec w) (n : Nat) : ∀ a b : BitVec w,
    shifts p n (a ^^^ b) = shifts p n a ^^^ shifts p n b := by
  induction n with
  | zero => exact fun _ _ => rfl
  | succ n ih =>
    intro a b
    rw [shifts, shift_xor, ih]
    rfl

/-- Where the low bits are clear the division only shifts. -/
theorem shifts_of_clear (p : BitVec w) (n : Nat) : ∀ {c : BitVec w},
    (∀ i, i < n → c.getLsbD i = false) → shifts p n c = c >>> n := by
  induction n with
  | zero =>
    intro c _
    exact (BitVec.ushiftRight_zero c).symm
  | succ n ih =>
    intro c hclear
    have hlow : shift p c = c >>> 1 := by
      rw [shift, hclear 0 (Nat.succ_pos n)]
      rfl
    have hrest : ∀ i, i < n → (c >>> 1).getLsbD i = false := by
      intro i hi
      rw [BitVec.getLsbD_ushiftRight]
      exact hclear (1 + i) (by omega)
    rw [shifts, hlow, ih hrest, ← BitVec.shiftRight_add, Nat.add_comm]

/-- The register in two: its low `n` bits are divided, the others move down. -/
theorem shifts_split (p : BitVec w) (n : Nat) (c : BitVec w) :
    shifts p n c = (c >>> n) ^^^ shifts p n (c &&& BitVec.ofNat w (2 ^ n - 1)) := by
  have hbit : ∀ i, (BitVec.ofNat w (2 ^ n - 1)).getLsbD i = (decide (i < w) && decide (i < n)) := by
    intro i
    rw [BitVec.getLsbD_ofNat, Nat.testBit_two_pow_sub_one]
  have hsplit : c = (c &&& ~~~BitVec.ofNat w (2 ^ n - 1)) ^^^ (c &&& BitVec.ofNat w (2 ^ n - 1)) := by
    apply BitVec.eq_of_getLsbD_eq
    intro i hi
    rw [BitVec.getLsbD_xor, BitVec.getLsbD_and, BitVec.getLsbD_and, BitVec.getLsbD_not]
    cases c.getLsbD i <;> cases (BitVec.ofNat w (2 ^ n - 1)).getLsbD i <;> simp [hi]
  have hclear : ∀ i, i < n → (c &&& ~~~BitVec.ofNat w (2 ^ n - 1)).getLsbD i = false := by
    intro i hi
    rw [BitVec.getLsbD_and, BitVec.getLsbD_not, hbit]
    by_cases hw : i < w
    · simp [hw, hi]
    · simp [hw]
  have hhigh : (c &&& ~~~BitVec.ofNat w (2 ^ n - 1)) >>> n = c >>> n := by
    apply BitVec.eq_of_getLsbD_eq
    intro i hi
    rw [BitVec.getLsbD_ushiftRight, BitVec.getLsbD_ushiftRight, BitVec.getLsbD_and, BitVec.getLsbD_not,
      hbit]
    by_cases hw : n + i < w
    · simp [hw]
    · rw [BitVec.getLsbD_of_ge c _ (by omega), Bool.false_and]
  conv => lhs; rw [hsplit]
  rw [shifts_xor, shifts_of_clear p n hclear, hhigh]

theorem shift_shiftLeft (p : BitVec w) {v : BitVec w} (h : v.getLsbD (w - 1) = false) :
    shift p (v <<< 1) = v := by
  have hlow : (v <<< 1).getLsbD 0 = false := by simp
  rw [shift, hlow]
  apply BitVec.eq_of_getLsbD_eq
  intro i hi
  simp only [Bool.false_eq_true, if_false, BitVec.getLsbD_ushiftRight, BitVec.getLsbD_shiftLeft]
  by_cases hlast : 1 + i < w
  · simp [hlast]
  · rw [show i = w - 1 by omega, h]
    simp
    omega

/-- The low bit of a register and the rest of it. -/
theorem bit_xor_shiftLeft (v : BitVec w) : v = bit (v.getLsbD 0) ^^^ ((v >>> 1) <<< 1) := by
  apply BitVec.eq_of_getLsbD_eq
  intro i hi
  have hbit : (bit (v.getLsbD 0) : BitVec w).getLsbD i = (v.getLsbD 0 && decide (i = 0)) := by
    unfold bit
    cases v.getLsbD 0 with
    | true =>
      rw [if_pos rfl, BitVec.getLsbD_one]
      simp
      omega
    | false => simp
  rw [BitVec.getLsbD_xor, hbit, BitVec.getLsbD_shiftLeft, BitVec.getLsbD_ushiftRight]
  cases i with
  | zero => simp
  | succ i => simp [hi, Nat.add_comm]

/-- Feeding the low `n` bits of `v` is adding `v` and dividing `n` times. -/
theorem feedBits_range (p : BitVec w) (n : Nat) : ∀ c v : BitVec w, (∀ i, n ≤ i → v.getLsbD i = false) →
    feedBits p c ((List.range n).map v.getLsbD) = shifts p n (c ^^^ v) := by
  induction n with
  | zero =>
    intro c v hv
    have hzero : v = 0#w := by
      apply BitVec.eq_of_getLsbD_eq
      intro i _
      rw [hv i (Nat.zero_le i), BitVec.getLsbD_zero]
    rw [hzero, BitVec.xor_zero]
    rfl
  | succ n ih =>
    intro c v hv
    have hrest : ∀ i, n ≤ i → (v >>> 1).getLsbD i = false := by
      intro i hi
      rw [BitVec.getLsbD_ushiftRight]
      exact hv (1 + i) (by omega)
    have hlast : (v >>> 1).getLsbD (w - 1) = false := by
      rw [BitVec.getLsbD_ushiftRight]
      exact BitVec.getLsbD_of_ge v _ (by omega)
    have hbits : (List.range (n + 1)).map v.getLsbD
        = v.getLsbD 0 :: (List.range n).map (v >>> 1).getLsbD := by
      rw [List.range_succ_eq_map, List.map_cons, List.map_map]
      refine congrArg _ (List.map_congr_left fun i _ => ?_)
      rw [Function.comp_apply, BitVec.getLsbD_ushiftRight, Nat.add_comm]
    have hshift : shift p (c ^^^ v) = feedBit p c (v.getLsbD 0) ^^^ (v >>> 1) := by
      conv => lhs; rw [bit_xor_shiftLeft v, ← BitVec.xor_assoc, shift_xor, shift_shiftLeft p hlast]
      rfl
    rw [hbits, shifts, hshift, ← ih (feedBit p c (v.getLsbD 0)) (v >>> 1) hrest]
    rfl

/-! ### As polynomials -/

/-- The polynomial a register holds: its low bit is the coefficient of `X ^ (w - 1)`. -/
noncomputable def toPoly (c : BitVec w) : (ZMod 2)[X] :=
  ∑ i ∈ Finset.range w, if c.getLsbD i then X ^ (w - 1 - i) else 0

/-- What is divided by. -/
noncomputable def generator (p : BitVec w) : (ZMod 2)[X] := X ^ w + toPoly p

/-- The message, its first bit the highest coefficient. -/
noncomputable def message (bits : List Bool) : (ZMod 2)[X] :=
  bits.foldl (fun q b => X * q + if b then 1 else 0) 0

theorem toPoly_xor (a b : BitVec w) : toPoly (a ^^^ b) = toPoly a + toPoly b := by
  rw [toPoly, toPoly, toPoly, ← Finset.sum_add_distrib]
  refine Finset.sum_congr rfl fun i _ => ?_
  rw [BitVec.getLsbD_xor]
  cases a.getLsbD i <;> cases b.getLsbD i <;> simp [CharTwo.add_self_eq_zero]

theorem toPoly_zero : toPoly (0#w) = 0 := by simp [toPoly]

theorem toPoly_bit (hw : 0 < w) (b : Bool) :
    toPoly (bit b : BitVec w) = (if b then 1 else 0) * X ^ (w - 1) := by
  cases b with
  | false => simp [bit, toPoly_zero]
  | true =>
    rw [if_pos rfl, one_mul, toPoly, Finset.sum_eq_single 0]
    · simp [bit, hw]
    · intro i hi hne
      simp [bit, BitVec.getLsbD_one, hne]
    · intro hnot
      exact absurd (Finset.mem_range.mpr hw) hnot

theorem degree_toPoly_lt (c : BitVec w) : (toPoly c).degree < w := by
  refine (degree_sum_le _ _).trans_lt ((Finset.sup_lt_iff (WithBot.bot_lt_coe w)).mpr ?_)
  intro i hi
  have hlt := Finset.mem_range.mp hi
  split
  · rw [degree_X_pow]
    exact WithBot.coe_lt_coe.mpr (by omega : w - 1 - i < w)
  · rw [degree_zero]
    exact WithBot.bot_lt_coe w

theorem monic_generator (p : BitVec w) : (generator p).Monic :=
  monic_X_pow_add (degree_toPoly_lt p)

theorem degree_generator (p : BitVec w) : (generator p).degree = w := by
  rw [generator, degree_add_eq_left_of_degree_lt, degree_X_pow]
  rw [degree_X_pow]
  exact degree_toPoly_lt p

/-- A step of the register is a multiplication by `X`, up to the generator. -/
theorem X_mul_toPoly (hw : 0 < w) (p c : BitVec w) :
    X * toPoly c = (if c.getLsbD 0 then 1 else 0 : (ZMod 2)[X]) * generator p + toPoly (shift p c) := by
  have hshifted :
      X * toPoly c = (if c.getLsbD 0 then 1 else 0 : (ZMod 2)[X]) * X ^ w + toPoly (c >>> 1) := by
    obtain ⟨n, rfl⟩ : ∃ n, w = n + 1 := ⟨w - 1, by omega⟩
    rw [toPoly, toPoly, Finset.mul_sum, Finset.sum_range_succ']
    rw [Finset.sum_range_succ (fun i => if (c >>> 1).getLsbD i then X ^ (n + 1 - 1 - i) else 0)]
    have hlast : (c >>> 1).getLsbD n = false := by
      rw [BitVec.getLsbD_ushiftRight]
      exact BitVec.getLsbD_of_ge c _ (by omega)
    rw [hlast, if_neg Bool.false_ne_true, add_zero, add_comm]
    congr 1
    · split
      · rw [one_mul, ← pow_succ']
        congr 1
      · simp
    · refine Finset.sum_congr rfl fun i hi => ?_
      have hlt := Finset.mem_range.mp hi
      rw [BitVec.getLsbD_ushiftRight, Nat.add_comm 1 i]
      split
      · rw [← pow_succ']
        congr 1
        omega
      · rw [mul_zero]
  rw [hshifted, shift_eq, toPoly_xor, generator]
  split
  · have htwo := CharTwo.add_self_eq_zero (toPoly p)
    linear_combination -htwo
  · rw [toPoly_zero]
    ring

theorem dvd_feedBits (hw : 0 < w) (p : BitVec w) (bits : List Bool) : ∀ c : BitVec w,
    ∀ q : (ZMod 2)[X], generator p ∣
      toPoly c * X ^ bits.length + (bits.foldl (fun q b => X * q + if b then 1 else 0) q) * X ^ w
        - q * X ^ (bits.length + w) - toPoly (feedBits p c bits) := by
  induction bits with
  | nil =>
    intro c q
    refine ⟨0, ?_⟩
    rw [feedBits, List.foldl_nil, List.foldl_nil, List.length_nil, pow_zero, Nat.zero_add]
    ring
  | cons b bits ih =>
    intro c q
    obtain ⟨r, hr⟩ := ih (feedBit p c b) (X * q + if b then 1 else 0)
    have hstep := X_mul_toPoly hw p (c ^^^ bit b)
    rw [toPoly_xor, toPoly_bit hw] at hstep
    have hpow : (X : (ZMod 2)[X]) * X ^ (w - 1) = X ^ w := by
      rw [← pow_succ']
      congr 1
      omega
    refine ⟨r + (if (c ^^^ bit b).getLsbD 0 then 1 else 0) * X ^ bits.length, ?_⟩
    rw [feedBits, List.foldl_cons, List.foldl_cons, List.length_cons]
    rw [feedBits, feedBit] at hr
    rw [feedBit]
    linear_combination hr + X ^ bits.length * hstep - (if b then 1 else 0) * X ^ bits.length * hpow

/-- The register is the remainder of the seed, moved up past the message, and the message, moved up
past the register. -/
theorem toPoly_feedBits (hw : 0 < w) (p c : BitVec w) (bits : List Bool) : toPoly (feedBits p c bits)
    = (toPoly c * X ^ bits.length + message bits * X ^ w) %ₘ generator p := by
  have hdvd := dvd_feedBits hw p bits c 0
  rw [zero_mul, sub_zero] at hdvd
  have hself : toPoly (feedBits p c bits) %ₘ generator p = toPoly (feedBits p c bits) := by
    rw [modByMonic_eq_self_iff (monic_generator p), degree_generator]
    exact degree_toPoly_lt _
  rw [← hself]
  exact (modByMonic_eq_of_dvd_sub (monic_generator p) hdvd).symm

end Bristlemouth.ShiftRegister
