import Bristlemouth.Lib.Fields
import Bristlemouth.Wire.Le

/-!
# Bodies as records

What the body encoders share: a prefix of the buffer that the whole body has to fit, and fields that are
copied into it. A copy outside the prefix is a panic.
-/

set_option autoImplicit false

namespace Bristlemouth

inductive EncodeError where
  | error (e : BmWireError)
  | panic
deriving DecidableEq

/-- `fields` into `buf[..len]`: the buffer after the call, and the length. -/
def encodeRecord (fields : Fields) (len : Nat) (buf : Bytes) : Except EncodeError (Bytes × Nat) :=
  if buf.length < len then .error (.error .truncated)
  else match fields.write len buf with
    | some written => .ok (written, len)
    | none => .error .panic

/-- What the encoder and the decoder of one kind of body have to do with each other. -/
abbrev BodyCodec (M : Type) := Codec M EncodeError BmWireError

theorem encodeRecord_of_write {fields : Fields} {len : Nat} {buf written : Bytes}
    (h : fields.write len buf = some written) (hroom : len ≤ buf.length) :
    encodeRecord fields len buf = .ok (written, len) := by
  rw [encodeRecord, if_neg (by omega), h]

theorem encodeRecord_adjacent {fields : Fields} (h : fields.Adjacent 0) {len : Nat}
    (hlen : fields.bytes.length = len) (buf : Bytes) : encodeRecord fields len buf =
      if buf.length < len then .error (.error .truncated)
      else .ok (buf.copyAt 0 fields.bytes, len) := by
  unfold encodeRecord
  split
  · rfl
  · rw [Fields.write_adjacent h hlen (by omega), Bytes.copyAt, List.take_zero, List.nil_append,
      Nat.zero_add, hlen]

/-! ### One field -/

section

variable {buf : Bytes} {off : Nat}

theorem slice_u64At (h : off + 8 ≤ buf.length) : buf.slice off 8 = u64ToLe (u64At buf off) := by
  have hlen := Bytes.length_slice h
  have hlt := Bytes.leNat_lt (buf.slice off 8)
  rw [hlen] at hlt
  have hn : (u64At buf off).toNat = Bytes.leNat (buf.slice off 8) := UInt64.toNat_ofNat_of_lt' hlt
  have hle := Bytes.leBytes_leNat (buf.slice off 8)
  rw [hlen] at hle
  rw [u64ToLe, hn, hle]

theorem slice_u32At (h : off + 4 ≤ buf.length) : buf.slice off 4 = u32ToLe (u32At buf off) :=
  (u32ToLe_u32FromLe (Bytes.length_slice h)).symm

theorem slice_u16At (h : off + 2 ≤ buf.length) : buf.slice off 2 = u16ToLe (u16At buf off) :=
  (u16ToLe_u16FromLe (Bytes.length_slice h)).symm

theorem u32At_slice {n i : Nat} (h : i + 4 ≤ n) : u32At (buf.slice off n) i = u32At buf (off + i) := by
  rw [u32At, u32At, Bytes.slice_slice h]

theorem u64At_slice {n i : Nat} (h : i + 8 ≤ n) : u64At (buf.slice off n) i = u64At buf (off + i) := by
  rw [u64At, u64At, Bytes.slice_slice h]

theorem u16At_slice {n i : Nat} (h : i + 2 ≤ n) : u16At (buf.slice off n) i = u16At buf (off + i) := by
  rw [u16At, u16At, Bytes.slice_slice h]

theorem u64At_of_slice {x : UInt64} (h : buf.slice off 8 = u64ToLe x) : u64At buf off = x := by
  rw [u64At, h, u64FromLe_u64ToLe]

theorem u32At_of_slice {x : UInt32} (h : buf.slice off 4 = u32ToLe x) : u32At buf off = x := by
  rw [u32At, h, u32FromLe_u32ToLe]

theorem u16At_of_slice {x : UInt16} (h : buf.slice off 2 = u16ToLe x) : u16At buf off = x := by
  rw [u16At, h, u16FromLe_u16ToLe]

theorem slice_eq_u64ToLe (h : off + 8 ≤ buf.length) {x : UInt64} :
    buf.slice off 8 = u64ToLe x ↔ u64At buf off = x :=
  ⟨u64At_of_slice, fun hx => hx ▸ slice_u64At h⟩

theorem slice_eq_u32ToLe (h : off + 4 ≤ buf.length) {x : UInt32} :
    buf.slice off 4 = u32ToLe x ↔ u32At buf off = x :=
  ⟨u32At_of_slice, fun hx => hx ▸ slice_u32At h⟩

theorem slice_eq_u16ToLe (h : off + 2 ≤ buf.length) {x : UInt16} :
    buf.slice off 2 = u16ToLe x ↔ u16At buf off = x :=
  ⟨u16At_of_slice, fun hx => hx ▸ slice_u16At h⟩

theorem slice_eq_byte (h : off + 1 ≤ buf.length) {x : UInt8} :
    buf.slice off 1 = [x] ↔ buf.byteAt off = x := by
  rw [Bytes.slice_one h, List.singleton_inj]

theorem byteAt_of_slice {x : UInt8} (h : buf.slice off 1 = [x]) : buf.byteAt off = x := by
  have hbyte := @Bytes.byteAt_slice buf off 1 0 Nat.zero_lt_one
  rw [h] at hbyte
  exact hbyte.symm

end

theorem toNat_ofNat_u8 {n : Nat} (h : n ≤ 255) : (UInt8.ofNat n).toNat = n :=
  UInt8.toNat_ofNat_of_lt' (Nat.lt_succ_of_le h)

theorem toNat_ofNat_u16 {n : Nat} (h : n ≤ 65535) : (UInt16.ofNat n).toNat = n :=
  UInt16.toNat_ofNat_of_lt' (Nat.lt_succ_of_le h)

theorem toNat_ofNat_u32 {n : Nat} (h : n ≤ 0xFFFFFFFF) : (UInt32.ofNat n).toNat = n :=
  UInt32.toNat_ofNat_of_lt' (Nat.lt_succ_of_le h)

/-! ### Booleans -/

/-- `u8::from` of a boolean. -/
def boolByte (b : Bool) : UInt8 := if b then 1 else 0

/-- The byte at `off` as the boolean it is read as is written. -/
def normalBool (off : Nat) (buf : Bytes) : Bytes := buf.modify off fun b => boolByte (b ≠ 0)

theorem take_normalBool (off n : Nat) (buf : Bytes) :
    (normalBool off buf).take n = normalBool off (buf.take n) := by
  apply List.ext_getElem?
  intro i
  simp only [normalBool, List.getElem?_take, List.getElem?_modify]
  split <;> simp

theorem length_normalBool (off : Nat) (buf : Bytes) : (normalBool off buf).length = buf.length :=
  List.length_modify _ _ _

theorem normalBool_append_right {a b : Bytes} {off : Nat} (h : a.length ≤ off) :
    normalBool off (a ++ b) = a ++ normalBool (off - a.length) b := by
  apply List.ext_getElem?
  intro i
  simp only [normalBool, List.getElem?_modify, List.getElem?_append]
  by_cases hi : i < a.length
  · have hne : off ≠ i := by omega
    simp [if_pos hi, hne]
  · have hiff : off - a.length = i - a.length ↔ off = i := by omega
    simp only [if_neg hi, hiff]

theorem slice_normalBool_of_ne {buf : Bytes} {i off n : Nat} (h : off + n ≤ i ∨ i < off) :
    (normalBool i buf).slice off n = buf.slice off n := by
  apply List.ext_getElem?
  intro j
  rw [Bytes.getElem?_slice, Bytes.getElem?_slice]
  split
  · have hne : ¬i = off + j := by omega
    simp only [normalBool, List.getElem?_modify, if_neg hne]
    exact id_map _
  · rfl

theorem slice_normalBool {buf : Bytes} {i : Nat} (h : i < buf.length) :
    (normalBool i buf).slice i 1 = [boolByte (buf.byteAt i ≠ 0)] := by
  rw [Bytes.slice_one (by rw [length_normalBool]; exact h), Bytes.byteAt, Bytes.byteAt, normalBool,
    List.getD_eq_getElem?_getD, List.getD_eq_getElem?_getD, List.getElem?_modify_eq,
    List.getElem?_eq_getElem h]
  rfl

theorem boolByte_injective : Function.Injective boolByte := by
  intro a b h
  revert h
  cases a <;> cases b <;> decide

end Bristlemouth
