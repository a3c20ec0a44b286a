import Bristlemouth.Lib.Bytes

/-!
# Field reads shared by the codecs

`le.rs`, the codecs' error type, and the fixed-width conversions they use.
-/

set_option autoImplicit false

namespace Bristlemouth

inductive BmWireError where
  | truncated
  | invalid
deriving DecidableEq, Repr

/-- `le::prefix`: the first `n` bytes. -/
def lePrefix (n : Nat) (buf : Bytes) : Except BmWireError Bytes :=
  if n ≤ buf.length then .ok (buf.take n) else .error .truncated

def u16FromLe (b : Bytes) : UInt16 := UInt16.ofNat (Bytes.leNat b)

def u16FromBe (b : Bytes) : UInt16 := UInt16.ofNat (Bytes.beNat b)

def u32FromLe (b : Bytes) : UInt32 := UInt32.ofNat (Bytes.leNat b)

def u64FromLe (b : Bytes) : UInt64 := UInt64.ofNat (Bytes.leNat b)

def u64FromBe (b : Bytes) : UInt64 := UInt64.ofNat (Bytes.beNat b)

def u16ToLe (x : UInt16) : Bytes := Bytes.leBytes 2 x.toNat

def u16ToBe (x : UInt16) : Bytes := Bytes.beBytes 2 x.toNat

def u32ToLe (x : UInt32) : Bytes := Bytes.leBytes 4 x.toNat

def u32ToBe (x : UInt32) : Bytes := Bytes.beBytes 4 x.toNat

def u64ToLe (x : UInt64) : Bytes := Bytes.leBytes 8 x.toNat

def u64ToBe (x : UInt64) : Bytes := Bytes.beBytes 8 x.toNat

def u16At (buf : Bytes) (off : Nat) : UInt16 := u16FromLe (buf.slice off 2)

def u32At (buf : Bytes) (off : Nat) : UInt32 := u32FromLe (buf.slice off 4)

def u64At (buf : Bytes) (off : Nat) : UInt64 := u64FromLe (buf.slice off 8)

@[simp] theorem length_u16ToLe (x : UInt16) : (u16ToLe x).length = 2 := Bytes.length_leBytes _ _

@[simp] theorem length_u16ToBe (x : UInt16) : (u16ToBe x).length = 2 := Bytes.length_beBytes _ _

@[simp] theorem length_u32ToLe (x : UInt32) : (u32ToLe x).length = 4 := Bytes.length_leBytes _ _

@[simp] theorem length_u32ToBe (x : UInt32) : (u32ToBe x).length = 4 := Bytes.length_beBytes _ _

@[simp] theorem length_u64ToLe (x : UInt64) : (u64ToLe x).length = 8 := Bytes.length_leBytes _ _

@[simp] theorem length_u64ToBe (x : UInt64) : (u64ToBe x).length = 8 := Bytes.length_beBytes _ _

@[simp] theorem u16FromLe_u16ToLe (x : UInt16) : u16FromLe (u16ToLe x) = x := by
  have h := x.toNat_lt
  rw [u16FromLe, u16ToLe, Bytes.leNat_leBytes, Nat.mod_eq_of_lt (by omega), UInt16.ofNat_toNat]

@[simp] theorem u16FromBe_u16ToBe (x : UInt16) : u16FromBe (u16ToBe x) = x := by
  have h := x.toNat_lt
  rw [u16FromBe, u16ToBe, Bytes.beNat_beBytes, Nat.mod_eq_of_lt (by omega), UInt16.ofNat_toNat]

@[simp] theorem u32FromLe_u32ToLe (x : UInt32) : u32FromLe (u32ToLe x) = x := by
  have h := x.toNat_lt
  rw [u32FromLe, u32ToLe, Bytes.leNat_leBytes, Nat.mod_eq_of_lt (by omega), UInt32.ofNat_toNat]

@[simp] theorem u64FromLe_u64ToLe (x : UInt64) : u64FromLe (u64ToLe x) = x := by
  have h := x.toNat_lt
  rw [u64FromLe, u64ToLe, Bytes.leNat_leBytes, Nat.mod_eq_of_lt (by omega), UInt64.ofNat_toNat]

@[simp] theorem u64FromBe_u64ToBe (x : UInt64) : u64FromBe (u64ToBe x) = x := by
  have h := x.toNat_lt
  rw [u64FromBe, u64ToBe, Bytes.beNat_beBytes, Nat.mod_eq_of_lt (by omega), UInt64.ofNat_toNat]

theorem u16ToLe_u16FromLe {b : Bytes} (h : b.length = 2) : u16ToLe (u16FromLe b) = b := by
  have hlt := Bytes.leNat_lt b
  rw [h] at hlt
  have hn : (u16FromLe b).toNat = Bytes.leNat b := UInt16.toNat_ofNat_of_lt' hlt
  rw [u16ToLe, hn, ← h]
  exact Bytes.leBytes_leNat b

theorem u32ToLe_u32FromLe {b : Bytes} (h : b.length = 4) : u32ToLe (u32FromLe b) = b := by
  have hlt := Bytes.leNat_lt b
  rw [h] at hlt
  have hn : (u32FromLe b).toNat = Bytes.leNat b := UInt32.toNat_ofNat_of_lt' hlt
  rw [u32ToLe, hn, ← h]
  exact Bytes.leBytes_leNat b

theorem toNat_sub_of_toNat_le {a b : UInt32} (h : b.toNat ≤ a.toNat) :
    (a - b).toNat = a.toNat - b.toNat :=
  UInt32.toNat_sub_of_le _ _ (UInt32.le_iff_toNat_le.mpr h)

/-- Clearing bits takes away what those bits are worth. -/
theorem toNat_and_not (x m : UInt32) : (x &&& ~~~m).toNat = x.toNat - (x &&& m).toNat := by
  have hzero : (x &&& ~~~m).toBitVec &&& (x &&& m).toBitVec = 0#32 := by
    ext i hi
    simp
    grind
  have hor : (x &&& ~~~m).toBitVec ||| (x &&& m).toBitVec = x.toBitVec := by
    ext i hi
    simp
    cases x.toBitVec[i] <;> simp
  have hadd := BitVec.add_eq_or_of_and_eq_zero _ _ hzero
  rw [hor] at hadd
  have hle : (x &&& m).toNat ≤ x.toNat := by
    rw [UInt32.toNat_and]
    exact Nat.and_le_left
  have h := congrArg BitVec.toNat hadd
  rw [BitVec.toNat_add] at h
  simp only [UInt32.toNat_toBitVec] at h
  have h₁ := (x &&& ~~~m).toNat_lt
  have h₂ := (x &&& m).toNat_lt
  have h₃ := x.toNat_lt
  omega

end Bristlemouth
