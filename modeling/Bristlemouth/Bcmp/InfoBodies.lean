import Bristlemouth.Stack.DeviceInfo
import Bristlemouth.Wire.Record

/-!
# Device info and neighbour tables

The bodies of `info.rs` and `neighbors.rs`: a request names a node, a device info reply ends with two
strings, and a neighbour table reply with two counted arrays.
-/

set_option autoImplicit false

namespace Bristlemouth

/-- `DeviceInfoRequest` and `NeighborTableRequest`: the node that is asked, zero for all of them. -/
structure TargetRequest where
  targetNodeId : UInt64

namespace TargetRequest

def len : Nat := 8

def fields (r : TargetRequest) : Fields := [(0, u64ToLe r.targetNodeId)]

def encodeInto (r : TargetRequest) (buf : Bytes) : Except EncodeError (Bytes × Nat) :=
  encodeRecord r.fields len buf

def decode (buf : Bytes) : Except BmWireError TargetRequest := do
  let bytes ← lePrefix len buf
  .ok ⟨u64FromLe bytes⟩

theorem decode_iff (buf : Bytes) (r : TargetRequest) : decode buf = .ok r ↔
    True ∧ len ≤ buf.length ∧ r.fields.In buf := by
  rw [decode, lePrefix, len, true_and]
  by_cases hroom : 8 ≤ buf.length
  · obtain ⟨target⟩ := r
    have hread : buf.slice 0 8 = u64ToLe target ↔ u64At buf 0 = target :=
      ⟨u64At_of_slice, fun h => h ▸ slice_u64At (by omega)⟩
    rw [if_pos hroom]
    simp only [fields, Fields.in_cons, Fields.in_nil, and_true, length_u64ToLe, hread, hroom, true_and, bind,
      Except.bind, Except.ok.injEq, TargetRequest.mk.injEq]
    rfl
  · rw [if_neg hroom]
    refine iff_of_false ?_ (fun h => hroom h.1)
    intro h
    cases h

def codec : BodyCodec TargetRequest where
  Fits _ := True
  encodedLen _ := len
  encode := encodeInto
  decode := decode

theorem roundTrips : codec.RoundTrips := by
  apply Codec.roundTrips_of_fields fields
  · exact Codec.normal_id rfl _
  · intro r _
    simp [fields]
  · intro r _
    simp [fields, codec, len]
  · intro r _ buf written hwrite hroom
    exact encodeRecord_of_write hwrite hroom
  · exact decode_iff

end TargetRequest

abbrev DeviceInfoRequest := TargetRequest
abbrev NeighborTableRequest := TargetRequest

/-! ### Device info -/

def DeviceInfo.fields (i : DeviceInfo) : Fields :=
  [(0, u64ToLe i.nodeId), (8, u16ToLe i.vendorId), (10, u16ToLe i.productId), (12, i.serialNum),
    (28, u32ToLe i.gitSha), (32, [i.verMajor]), (33, [i.verMinor]), (34, [i.verRev]), (35, [i.verHw])]

namespace DeviceInfoReply

def maxStringLen : Nat := 255

def encodedLen (r : DeviceInfoReply) : Nat := headerLen + r.versionString.length + r.deviceName.length

def fields (r : DeviceInfoReply) : Fields :=
  r.info.fields ++ [(DeviceInfo.len, [UInt8.ofNat r.versionString.length]),
    (DeviceInfo.len + 1, [UInt8.ofNat r.deviceName.length]), (headerLen, r.versionString),
    (headerLen + r.versionString.length, r.deviceName)]

def encodeInto (r : DeviceInfoReply) (buf : Bytes) : Except EncodeError (Bytes × Nat) :=
  if r.versionString.length > maxStringLen ∨ r.deviceName.length > maxStringLen then .error (.error .invalid)
  else encodeRecord r.fields r.encodedLen buf

/-- The serial number is an array of 16, and the strings have a byte for their lengths. -/
def Fits (r : DeviceInfoReply) : Prop :=
  r.info.serialNum.length = 16 ∧ r.versionString.length ≤ maxStringLen ∧ r.deviceName.length ≤ maxStringLen

end DeviceInfoReply

theorem DeviceInfo.decode_slice {buf : Bytes} {n : Nat} (hn : DeviceInfo.len ≤ n) (hroom : n ≤ buf.length) :
    DeviceInfo.decode (buf.slice 0 n) = .ok {
      nodeId := u64At buf 0
      vendorId := u16At buf 8
      productId := u16At buf 10
      serialNum := buf.slice 12 16
      gitSha := u32At buf 28
      verMajor := buf.byteAt 32
      verMinor := buf.byteAt 33
      verRev := buf.byteAt 34
      verHw := buf.byteAt 35 } := by
  have hhead : (buf.slice 0 n).take DeviceInfo.len = buf.slice 0 36 := by
    rw [Bytes.slice, Bytes.slice, List.take_take, Nat.min_eq_left hn]
    rfl
  rw [DeviceInfo.decode, lePrefix, if_pos (by rw [Bytes.length_slice (by omega)]; exact hn), hhead]
  simp [bind, Except.bind, pure, Except.pure, u64At_slice, u32At_slice, u16At_slice, Bytes.byteAt_slice,
    Bytes.slice_slice]

theorem DeviceInfo.in_fields_iff (i : DeviceInfo) (hserial : i.serialNum.length = 16) {buf : Bytes}
    (hroom : DeviceInfo.len ≤ buf.length) :
    i.fields.In buf ↔ i = {
      nodeId := u64At buf 0
      vendorId := u16At buf 8
      productId := u16At buf 10
      serialNum := buf.slice 12 16
      gitSha := u32At buf 28
      verMajor := buf.byteAt 32
      verMinor := buf.byteAt 33
      verRev := buf.byteAt 34
      verHw := buf.byteAt 35 } := by
  obtain ⟨nodeId, vendorId, productId, serialNum, gitSha, verMajor, verMinor, verRev, verHw⟩ := i
  dsimp only at hserial
  simp only [DeviceInfo.len] at hroom
  simp only [fields, Fields.in_cons, Fields.in_nil, and_true, length_u64ToLe, length_u32ToLe,
    length_u16ToLe, List.length_singleton, hserial,
    slice_eq_u64ToLe (show 0 + 8 ≤ buf.length by omega),
    slice_eq_u16ToLe (show 8 + 2 ≤ buf.length by omega),
    slice_eq_u16ToLe (show 10 + 2 ≤ buf.length by omega),
    slice_eq_u32ToLe (show 28 + 4 ≤ buf.length by omega),
    slice_eq_byte (show 32 + 1 ≤ buf.length by omega), slice_eq_byte (show 33 + 1 ≤ buf.length by omega),
    slice_eq_byte (show 34 + 1 ≤ buf.length by omega), slice_eq_byte (show 35 + 1 ≤ buf.length by omega),
    DeviceInfo.mk.injEq, eq_comm]

namespace DeviceInfoReply

theorem decode_eq (buf : Bytes) : decode buf =
    if 38 + (buf.byteAt 36).toNat + (buf.byteAt 37).toNat ≤ buf.length then
      .ok {
        info := {
          nodeId := u64At buf 0
          vendorId := u16At buf 8
          productId := u16At buf 10
          serialNum := buf.slice 12 16
          gitSha := u32At buf 28
          verMajor := buf.byteAt 32
          verMinor := buf.byteAt 33
          verRev := buf.byteAt 34
          verHw := buf.byteAt 35 }
        versionString := buf.slice 38 (buf.byteAt 36).toNat
        deviceName := buf.slice (38 + (buf.byteAt 36).toNat) (buf.byteAt 37).toNat }
    else .error .truncated := by
  unfold decode
  by_cases hhead : 38 ≤ buf.length
  · have hversion : (buf.slice 0 38).byteAt 36 = buf.byteAt 36 := by
      rw [Bytes.byteAt_slice (by decide)]
    have hname : (buf.slice 0 38).byteAt 37 = buf.byteAt 37 := by
      rw [Bytes.byteAt_slice (by decide)]
    rw [Bytes.slice?_of_le (show 0 + headerLen ≤ buf.length from (Nat.zero_add _).le.trans hhead)]
    dsimp only
    rw [DeviceInfo.decode_slice (show DeviceInfo.len ≤ headerLen by decide) hhead]
    simp only [bind, Except.bind, pure, Except.pure, headerLen, DeviceInfo.len, hversion, hname]
    by_cases hroom : 38 + (buf.byteAt 36).toNat + (buf.byteAt 37).toNat ≤ buf.length
    · rw [if_pos hroom, Bytes.slice?_of_le (by omega)]
      dsimp only
      congr 2
      · rw [Bytes.slice, Bytes.slice, List.take_take, Nat.min_eq_left (Nat.le_add_right _ _)]
      · rw [Bytes.slice, Bytes.slice, List.drop_take, List.drop_drop]
        congr 1
        omega
    · rw [if_neg hroom, Bytes.slice?, if_neg (by omega)]
  · have hshort : ¬(0 + headerLen ≤ buf.length) := by
      rw [Nat.zero_add]
      exact hhead
    rw [Bytes.slice?, if_neg hshort, if_neg (by omega)]

theorem decode_iff (buf : Bytes) (r : DeviceInfoReply) : decode buf = .ok r ↔
    r.Fits ∧ r.encodedLen ≤ buf.length ∧ r.fields.In buf := by
  rw [decode_eq, Fits, encodedLen, maxStringLen, fields, Fields.in_append, headerLen, DeviceInfo.len]
  constructor
  · intro h
    split at h
    · rename_i hroom
      cases h
      have hversion : (buf.slice 38 (buf.byteAt 36).toNat).length = (buf.byteAt 36).toNat :=
        Bytes.length_slice (by omega)
      have hname : (buf.slice (38 + (buf.byteAt 36).toNat) (buf.byteAt 37).toNat).length =
          (buf.byteAt 37).toNat := Bytes.length_slice hroom
      have hserial : (buf.slice 12 16).length = 16 := Bytes.length_slice (by omega)
      have hfirst := (buf.byteAt 36).toNat_lt
      have hsecond := (buf.byteAt 37).toNat_lt
      dsimp only
      refine ⟨⟨hserial, by omega, by omega⟩, by omega, ?_, ?_⟩
      · exact (DeviceInfo.in_fields_iff _ hserial (show 36 ≤ buf.length by omega)).mpr rfl
      · simp [hversion, hname, Bytes.slice_one (show 36 < buf.length by omega),
          Bytes.slice_one (show 37 < buf.length by omega)]
    · cases h
  · rintro ⟨⟨hserial, hversionFits, hnameFits⟩, hroom, hinfo, hin⟩
    obtain ⟨info, version, name⟩ := r
    dsimp only at *
    have heq := (DeviceInfo.in_fields_iff info hserial (show 36 ≤ buf.length by omega)).mp hinfo
    simp only [Fields.in_cons, Fields.in_nil, and_true] at hin
    obtain ⟨hversionLen, hnameLen, hversion, hname⟩ := hin
    have hn : (buf.byteAt 36).toNat = version.length := by
      rw [byteAt_of_slice hversionLen, toNat_ofNat_u8 hversionFits]
    have hm : (buf.byteAt 37).toNat = name.length := by
      rw [byteAt_of_slice hnameLen, toNat_ofNat_u8 hnameFits]
    rw [hn, hm, if_pos (by omega), hversion, hname, ← heq]

def codec : BodyCodec DeviceInfoReply where
  Fits := Fits
  encodedLen := encodedLen
  encode := encodeInto
  decode := decode

theorem roundTrips : codec.RoundTrips := by
  apply Codec.roundTrips_of_fields fields
  · exact Codec.normal_id rfl _
  · rintro r ⟨hserial, -, -⟩
    simp [fields, DeviceInfo.fields, hserial, headerLen, DeviceInfo.len]
  · rintro r ⟨hserial, -, -⟩
    simp [fields, DeviceInfo.fields, hserial, codec, encodedLen, headerLen, DeviceInfo.len]
    omega
  · rintro r ⟨-, hversion, hname⟩ buf written hwrite hroom
    change encodeInto r buf = .ok (written, r.encodedLen)
    rw [encodeInto, if_neg (by omega)]
    exact encodeRecord_of_write hwrite hroom
  · exact decode_iff

end DeviceInfoReply

end Bristlemouth
