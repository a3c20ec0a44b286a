import Bristlemouth.Config.Getters

/-!
# Values in a slot

A typed setter leaves the shortest encoding of its value at the front of the slot, and the matching
getter reads that value back from any definite encoding at the front of a slot.
-/

set_option autoImplicit false

namespace Bristlemouth.Config

open Bytes

/-- The argument of a typed setter. -/
inductive TypedValue where
  | uint (value : UInt32)
  | int (value : Int32)
  | float (bits : UInt32)
  | str (value : Bytes)
  | bytes (value : Bytes)
deriving DecidableEq

/-- The head `set_config_int` writes. -/
def intHeader (value : Int32) : Header :=
  if value.toInt64 < 0 then .negative (~~~ value.toInt64).toUInt64
  else .positive value.toInt64.toUInt64

namespace TypedValue

def type : TypedValue → ValueType
  | uint _ => .uint32
  | int _ => .int32
  | float _ => .float
  | str _ => .str
  | bytes _ => .bytes

def encode [Cbor2] : TypedValue → Bytes → Bool × Bytes
  | uint v, slot => push slot (.positive v.toUInt64)
  | int v, slot => push slot (intHeader v)
  | float bits, slot => pushF32Wide slot bits
  | str v, slot => pushString slot (.text v.length) v
  | bytes v, slot => pushString slot (.bytes v.length) v

/-- The item a value is stored as. -/
def item : TypedValue → Cbor.Scalar
  | uint v => .unsigned v.toNat
  | int v => if v.toInt64 < 0 then .negative (~~~ v.toInt64).toUInt64.toNat
      else .unsigned v.toInt64.toUInt64.toNat
  | float bits => .single bits
  | str v => .text v
  | bytes v => .bytes v

/-- What a refused encode leaves at the front of the slot. -/
def headBytes : TypedValue → Bytes
  | str v => (Header.text v.length).encode
  | bytes v => (Header.bytes v.length).encode
  | v => v.item.encode

end TypedValue

def ConfigPartition.set [Cbor2] (p : ConfigPartition) (key : Key) :
    TypedValue → Option (Bool × ConfigPartition)
  | .uint v => p.setUint key v
  | .int v => p.setInt key v
  | .float bits => p.setFloat key bits
  | .str v => p.setString key v
  | .bytes v => p.setBuffer key v

theorem ConfigPartition.set_eq [Cbor2] (p : ConfigPartition) (key : Key) (v : TypedValue) :
    p.set key v = p.setTyped key v.type v.encode := by cases v <;> rfl

theorem length_encode_le (h : Header) : h.encode.length ≤ 9 := Cbor.length_preferredHead_le ..

theorem item_uint (v : UInt32) :
    (TypedValue.uint v).item.encode = (Header.positive v.toUInt64).encode := by
  simp [TypedValue.item, Cbor.Scalar.encode, Header.encode, Header.major, Header.arg]

theorem item_int (v : Int32) : (TypedValue.int v).item.encode = (intHeader v).encode := by
  simp only [TypedValue.item, intHeader]
  split_ifs <;> rfl

/-- The head a value starts with is short. -/
theorem length_headBytes_le (v : TypedValue) : v.headBytes.length ≤ 9 := by
  cases v with
  | uint v => exact (congrArg List.length (item_uint v)).trans_le (length_encode_le _)
  | int v => exact (congrArg List.length (item_int v)).trans_le (length_encode_le _)
  | float bits => simp [TypedValue.headBytes, TypedValue.item, Cbor.Scalar.encode]
  | str v | bytes v => exact length_encode_le _

theorem copyAt_append (buf a b : Bytes) :
    (buf.copyAt 0 a).copyAt a.length b = buf.copyAt 0 (a ++ b) := by
  have hbehind := copyAt_behind a b (Nat.zero_le buf.length)
  rwa [Nat.zero_add] at hbehind

section

variable [Cbor2] [Cbor2.Minimal]

theorem push_eq {slot : Bytes} (hslot : slot.length = slotLen) (h : Header) :
    push slot h = (true, slot.copyAt 0 h.encode) := by
  have hle := length_encode_le h
  have hfifty : slotLen = 50 := rfl
  rw [push, Cbor2.Minimal.push_eq h slot (by omega)]

theorem pushF32Wide_eq {slot : Bytes} (hslot : slot.length = slotLen) (bits : UInt32) :
    pushF32Wide slot bits = (true, slot.copyAt 0 (0xfa :: beBytes 4 bits.toNat)) := by
  have hfifty : slotLen = 50 := rfl
  rw [pushF32Wide, Cbor2.Minimal.writeAll_eq _ slot (by simp [hslot, hfifty])]

theorem pushString_eq {slot : Bytes} (hslot : slot.length = slotLen) (h : Header) (body : Bytes) :
    pushString slot h body =
      if h.encode.length + body.length ≤ slotLen then (true, slot.copyAt 0 (h.encode ++ body))
      else (false, slot.copyAt 0 h.encode) := by
  have hle := length_encode_le h
  have hfifty : slotLen = 50 := rfl
  have htake : List.take h.encode.length (copyAt (List.replicate 9 0) 0 h.encode) = h.encode := by
    simp [copyAt]
  have hlen : (slot.copyAt 0 h.encode).length = slotLen := by rw [length_copyAt _ _ _ (by omega), hslot]
  rw [pushString, Cbor2.Minimal.push_eq h _ (by simpa using hle)]
  simp only [if_true, htake, hlen]
  split_ifs with hfit
  · rw [copyAt_append]
  · rfl

/-- What a typed setter writes into a slot. -/
theorem TypedValue.encode_eq (v : TypedValue) {slot : Bytes} (hslot : slot.length = slotLen) :
    v.encode slot = if v.item.encode.length ≤ slotLen then (true, slot.copyAt 0 v.item.encode)
      else (false, slot.copyAt 0 v.headBytes) := by
  have hfifty : slotLen = 50 := rfl
  have hhead : v.headBytes.length ≤ slotLen := (length_headBytes_le v).trans (by omega)
  cases v with
  | uint v =>
    rw [TypedValue.encode, push_eq hslot,
      if_pos (show (TypedValue.uint v).item.encode.length ≤ slotLen from hhead), item_uint]
  | int v =>
    rw [TypedValue.encode, push_eq hslot,
      if_pos (show (TypedValue.int v).item.encode.length ≤ slotLen from hhead), item_int]
  | float bits =>
    rw [TypedValue.encode, pushF32Wide_eq hslot,
      if_pos (show (TypedValue.float bits).item.encode.length ≤ slotLen from hhead)]
    rfl
  | str v =>
    rw [TypedValue.encode, pushString_eq hslot]
    simp only [item, Cbor.Scalar.encode, List.length_append]
    rfl
  | bytes v =>
    rw [TypedValue.encode, pushString_eq hslot]
    simp only [item, Cbor.Scalar.encode, List.length_append]
    rfl

theorem length_encode (v : TypedValue) {slot : Bytes} (hslot : slot.length = slotLen) :
    (v.encode slot).2.length = slotLen := by
  have hfifty : slotLen = 50 := rfl
  rw [v.encode_eq hslot]
  split_ifs with hfit
  · rw [length_copyAt _ _ _ (by omega), hslot]
  · have hhead := length_headBytes_le v
    rw [length_copyAt _ _ _ (by omega), hslot]

end

/-! ## Reading a value back -/

namespace Cell

variable {c : Cell} {rest : Bytes}

theorem head_of_isHead {major arg : Nat} {h : Bytes} (hh : Cbor.IsHead major arg h) (hm : major < 7)
    (hslot : c.slot = h ++ rest) :
    ∃ info, info ≠ 31 ∧ c.head = some ⟨UInt8.ofNat major, info, arg⟩ := by
  rw [head, hslot]
  exact Head.parse_isHead hh hm rest

theorem getUint_unsigned {n : Nat} {h : Bytes} (hh : (Cbor.Scalar.unsigned n).Encodes h)
    (hslot : c.slot = h ++ rest) : c.getUint = some (UInt32.ofNat n) := by
  cases hh with
  | unsigned hh =>
    obtain ⟨info, -, hhead⟩ := head_of_isHead hh (by omega) hslot
    simp [getUint, hhead]

theorem getInt_unsigned {n : Nat} {h : Bytes} (hh : (Cbor.Scalar.unsigned n).Encodes h)
    (hslot : c.slot = h ++ rest) : c.getInt = some (UInt64.ofNat n).toInt64.toInt32 := by
  cases hh with
  | unsigned hh =>
    obtain ⟨info, -, hhead⟩ := head_of_isHead hh (by omega) hslot
    simp [getInt, hhead]

theorem getInt_negative {n : Nat} {h : Bytes} (hh : (Cbor.Scalar.negative n).Encodes h)
    (hslot : c.slot = h ++ rest) :
    c.getInt = some (-(UInt64.ofNat n).toInt64 - 1).toInt32 := by
  cases hh with
  | negative hh =>
    obtain ⟨info, -, hhead⟩ := head_of_isHead hh (by omega) hslot
    simp [getInt, hhead]

theorem getFloat_single {bits : UInt32} {h : Bytes} (hh : (Cbor.Scalar.single bits).Encodes h)
    (hslot : c.slot = h ++ rest) : c.getFloat = some bits := by
  cases hh with
  | single =>
    have hhead : c.head = some ⟨7, 26, bits.toNat⟩ := by
      rw [head, hslot]
      exact Head.parse_single bits rest
    simp [getFloat, hhead]

theorem getStrLike_isHead {major : Nat} {h body : Bytes} (hh : Cbor.IsHead major body.length h)
    (hm : major < 7) (hbody : body.length < 2 ^ 32) (hslot : c.slot = h ++ body ++ rest) (u : Usize)
    {out : Bytes} (hout : body.length ≤ out.length) :
    ∃ out', c.getStrLike u (UInt8.ofNat major) out = (.ok body.length, out') ∧
      out'.take body.length = body := by
  obtain ⟨info, -, hhead⟩ := head_of_isHead hh hm (hslot.trans (List.append_assoc ..))
  obtain ⟨out', hcopy, htake⟩ := copyString_isHead (u := u) hh hm hbody rest hout
  refine ⟨out', ?_, htake⟩
  rw [getStrLike, hhead, hslot]
  simp only [ne_eq, not_true_eq_false, if_false, hcopy]

/-- The typed getter of a value, and what it answers. A string is copied whole into any buffer that
holds it. -/
def Reads (c : Cell) : TypedValue → Prop
  | .uint v => c.getUint = some v
  | .int v => c.getInt = some v
  | .float bits => c.getFloat = some bits
  | .str v => ∀ u out, v.length ≤ out.length →
      ∃ out', c.getStrLike u 3 out = (.ok v.length, out') ∧ out'.take v.length = v
  | .bytes v => ∀ u out, v.length ≤ out.length →
      ∃ out', c.getStrLike u 2 out = (.ok v.length, out') ∧ out'.take v.length = v

end Cell

theorem toInt32_not (v : Int64) : (-(~~~ v) - 1).toInt32 = v.toInt32 := by
  rw [Int64.neg_eq_not_add, Int64.not_not, Int64.add_sub_cancel]

/-- The value at the front of a slot is the one its getter reads. -/
theorem Cell.reads_item {c : Cell} {v : TypedValue} {rest : Bytes}
    (hslot : c.slot = v.item.encode ++ rest) (hfit : v.item.encode.length ≤ slotLen) :
    c.Reads v := by
  have hfifty : slotLen = 50 := rfl
  cases v with
  | uint v =>
    have henc : (Cbor.Scalar.unsigned v.toNat).Encodes (TypedValue.uint v).item.encode :=
      Cbor.Scalar.encodes_encode (lt_trans v.toNat_lt (by decide))
    rw [Cell.Reads, getUint_unsigned henc hslot, UInt32.ofNat_toNat]
  | int v =>
    rw [Cell.Reads]
    by_cases hneg : v.toInt64 < 0
    · have hitem : (TypedValue.int v).item = .negative (~~~ v.toInt64).toUInt64.toNat := if_pos hneg
      have henc : (Cbor.Scalar.negative (~~~ v.toInt64).toUInt64.toNat).Encodes
          (TypedValue.int v).item.encode := by
        rw [hitem]
        exact Cbor.Scalar.encodes_encode (UInt64.toNat_lt _)
      rw [getInt_negative henc hslot, UInt64.ofNat_toNat, Int64.toInt64_toUInt64, toInt32_not]
      simp
    · have hitem : (TypedValue.int v).item = .unsigned v.toInt64.toUInt64.toNat := if_neg hneg
      have henc : (Cbor.Scalar.unsigned v.toInt64.toUInt64.toNat).Encodes
          (TypedValue.int v).item.encode := by
        rw [hitem]
        exact Cbor.Scalar.encodes_encode (UInt64.toNat_lt _)
      rw [getInt_unsigned henc hslot, UInt64.ofNat_toNat]
      simp
  | float bits =>
    exact getFloat_single (Cbor.Scalar.encodes_encode (s := .single bits) trivial) hslot
  | str v =>
    intro u out hout
    simp only [TypedValue.item, Cbor.Scalar.encode, List.length_append] at hfit
    exact getStrLike_isHead (Cbor.isHead_preferredHead 3 (by omega)) (by omega) (by omega) hslot u hout
  | bytes v =>
    intro u out hout
    simp only [TypedValue.item, Cbor.Scalar.encode, List.length_append] at hfit
    exact getStrLike_isHead (Cbor.isHead_preferredHead 2 (by omega)) (by omega) (by omega) hslot u hout

end Bristlemouth.Config
