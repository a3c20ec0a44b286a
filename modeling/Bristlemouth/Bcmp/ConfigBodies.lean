import Bristlemouth.Bcmp.Bodies
import Bristlemouth.Wire.Record

/-!
# Config bodies

`bcmp/config.rs`: the layouts of the config messages. Every body starts with a `ConfigHeader`; a field
that follows is written, and read, at an offset of its own, and a key or a value has its length in a
field before it. The status response is not here: it is written from a partition.
-/

set_option autoImplicit false

namespace Bristlemouth

namespace ConfigBody

/-- `slice`: `buf[start..start + len]`. -/
def slice (buf : Bytes) (start len : Nat) : Except BmWireError Bytes :=
  match buf.slice? start len with
  | some bytes => .ok bytes
  | none => .error .truncated

/-- `len_u8`: a length that has to fit a one-byte field. -/
def lenU8 (len : Nat) : Except EncodeError UInt8 :=
  if len ≤ 255 then .ok (UInt8.ofNat len) else .error (.error .invalid)

/-- `len_u32`: a length that has to fit a four-byte field. -/
def lenU32 (len : Nat) : Except EncodeError UInt32 :=
  if len ≤ 0xFFFFFFFF then .ok (UInt32.ofNat len) else .error (.error .invalid)

theorem slice_bind {α : Type} (buf : Bytes) (start len : Nat) (next : Bytes → Except BmWireError α) :
    (slice buf start len >>= next) =
      if start + len ≤ buf.length then next (buf.slice start len) else .error .truncated := by
  unfold slice Bytes.slice?
  by_cases h : start + len ≤ buf.length
  · rw [if_pos h, if_pos h]
    rfl
  · rw [if_neg h, if_neg h]
    rfl

end ConfigBody

namespace ConfigHeader

@[simp] def len : Nat := 16

def fields (h : ConfigHeader) : Fields := [(0, u64ToLe h.targetNodeId), (8, u64ToLe h.sourceNodeId)]

def decode (buf : Bytes) : Except BmWireError ConfigHeader := do
  let buf ← ConfigBody.slice buf 0 len
  .ok ⟨u64At buf 0, u64At buf 8⟩

end ConfigHeader

/-! ### The layouts -/

namespace ConfigKeyRequest

def fields (r : ConfigKeyRequest) (keyLength : UInt8) : Fields :=
  r.header.fields ++ [(16, [r.partitionByte]), (17, [keyLength]), (headLen, r.key)]

/-- `encode`, each field at its own offset. -/
def encodeInto (r : ConfigKeyRequest) (buf : Bytes) : Except EncodeError (Bytes × Nat) := do
  let keyLength ← ConfigBody.lenU8 r.key.length
  encodeRecord (r.fields keyLength) r.len buf

def decode (buf : Bytes) : Except BmWireError ConfigKeyRequest := do
  let header ← ConfigHeader.decode buf
  let head ← ConfigBody.slice buf 0 headLen
  let key ← ConfigBody.slice buf headLen (head.byteAt 17).toNat
  .ok { header, partitionByte := head.byteAt 16, key }

end ConfigKeyRequest

structure ConfigValue where
  header : ConfigHeader
  partitionByte : UInt8
  data : Bytes

namespace ConfigValue

def headLen : Nat := 21

def len (v : ConfigValue) : Nat := headLen + v.data.length

def fields (v : ConfigValue) (dataLength : UInt32) : Fields :=
  v.header.fields ++ [(16, [v.partitionByte]), (17, u32ToLe dataLength), (headLen, v.data)]

def encodeInto (v : ConfigValue) (buf : Bytes) : Except EncodeError (Bytes × Nat) := do
  let dataLength ← ConfigBody.lenU32 v.data.length
  encodeRecord (v.fields dataLength) v.len buf

def decode (buf : Bytes) : Except BmWireError ConfigValue := do
  let header ← ConfigHeader.decode buf
  let head ← ConfigBody.slice buf 0 headLen
  let data ← ConfigBody.slice buf headLen (u32At head 17).toNat
  .ok { header, partitionByte := head.byteAt 16, data }

end ConfigValue

namespace ConfigSet

def fields (r : ConfigSet) (keyLength : UInt8) (dataLength : UInt32) : Fields :=
  r.header.fields ++ [(16, [r.partitionByte]), (17, [keyLength]), (18, u32ToLe dataLength),
    (headLen, r.key), (headLen + r.key.length, r.data)]

def encodeInto (r : ConfigSet) (buf : Bytes) : Except EncodeError (Bytes × Nat) := do
  let keyLength ← ConfigBody.lenU8 r.key.length
  let dataLength ← ConfigBody.lenU32 r.data.length
  encodeRecord (r.fields keyLength dataLength) r.len buf

def decode (buf : Bytes) : Except BmWireError ConfigSet := do
  let header ← ConfigHeader.decode buf
  let head ← ConfigBody.slice buf 0 headLen
  let keyLength := (head.byteAt 17).toNat
  let dataLength := (u32At head 18).toNat
  let key ← ConfigBody.slice buf headLen keyLength
  let data ← ConfigBody.slice buf (headLen + keyLength) dataLength
  .ok { header, partitionByte := head.byteAt 16, key, data }

end ConfigSet

namespace ConfigPartitionRequest

def fields (r : ConfigPartitionRequest) : Fields := r.header.fields ++ [(16, [r.partitionByte])]

def encodeInto (r : ConfigPartitionRequest) (buf : Bytes) : Except EncodeError (Bytes × Nat) :=
  encodeRecord r.fields len buf

def decode (buf : Bytes) : Except BmWireError ConfigPartitionRequest := do
  let header ← ConfigHeader.decode buf
  let buf ← ConfigBody.slice buf 0 len
  .ok { header, partitionByte := buf.byteAt 16 }

end ConfigPartitionRequest

structure ConfigDeleteResponse where
  header : ConfigHeader
  success : Bool
  partitionByte : UInt8
  key : Bytes

namespace ConfigDeleteResponse

def headLen : Nat := 19

def len (r : ConfigDeleteResponse) : Nat := headLen + r.key.length

def fields (r : ConfigDeleteResponse) (keyLength : UInt8) : Fields :=
  r.header.fields ++ [(16, [boolByte r.success]), (17, [r.partitionByte]), (18, [keyLength]),
    (headLen, r.key)]

def encodeInto (r : ConfigDeleteResponse) (buf : Bytes) : Except EncodeError (Bytes × Nat) := do
  let keyLength ← ConfigBody.lenU8 r.key.length
  encodeRecord (r.fields keyLength) r.len buf

def decode (buf : Bytes) : Except BmWireError ConfigDeleteResponse := do
  let header ← ConfigHeader.decode buf
  let head ← ConfigBody.slice buf 0 headLen
  let key ← ConfigBody.slice buf headLen (head.byteAt 18).toNat
  .ok { header, success := head.byteAt 16 ≠ 0, partitionByte := head.byteAt 17, key }

end ConfigDeleteResponse

structure ConfigClearResponse where
  header : ConfigHeader
  success : Bool
  partitionByte : UInt8

namespace ConfigClearResponse

def len : Nat := 18

def fields (r : ConfigClearResponse) : Fields :=
  r.header.fields ++ [(16, [boolByte r.success]), (17, [r.partitionByte])]

def encodeInto (r : ConfigClearResponse) (buf : Bytes) : Except EncodeError (Bytes × Nat) :=
  encodeRecord r.fields len buf

def decode (buf : Bytes) : Except BmWireError ConfigClearResponse := do
  let header ← ConfigHeader.decode buf
  let buf ← ConfigBody.slice buf 0 len
  .ok { header, success := buf.byteAt 16 ≠ 0, partitionByte := buf.byteAt 17 }

end ConfigClearResponse

/-! ### Reading a body back -/

namespace ConfigHeader

theorem decode_bind {α : Type} (buf : Bytes) (next : ConfigHeader → Except BmWireError α) :
    (decode buf >>= next) =
      if 16 ≤ buf.length then next ⟨u64At buf 0, u64At buf 8⟩ else .error .truncated := by
  rw [decode, ConfigBody.slice_bind]
  simp only [len, Nat.zero_add]
  split
  · simp only [bind, Except.bind, u64At]
    rw [Bytes.slice_slice (by omega), Bytes.slice_slice (by omega)]
  · rfl

theorem adjacent_append (h : ConfigHeader) {more : Fields} (hmore : more.Adjacent 16) :
    (h.fields ++ more).Adjacent 0 := by
  refine Fields.Adjacent.append ?_ ?_
  · simp [fields]
  · simpa [fields] using hmore

theorem bytes_append (h : ConfigHeader) (more : Fields) :
    (h.fields ++ more).bytes = h.toBytes ++ more.bytes := by
  rw [Fields.bytes_append]
  simp [fields, toBytes]

theorem in_append_iff (h : ConfigHeader) {more : Fields} {buf : Bytes} (hlen : 16 ≤ buf.length) :
    (h.fields ++ more).In buf ↔ h = ⟨u64At buf 0, u64At buf 8⟩ ∧ more.In buf := by
  rw [Fields.in_append]
  apply and_congr_left'
  obtain ⟨target, source⟩ := h
  simp only [fields, Fields.in_cons, Fields.in_nil, and_true, length_u64ToLe, ConfigHeader.mk.injEq]
  constructor
  · rintro ⟨htarget, hsource⟩
    exact ⟨(u64At_of_slice htarget).symm, (u64At_of_slice hsource).symm⟩
  · rintro ⟨rfl, rfl⟩
    exact ⟨slice_u64At (by omega), slice_u64At (by omega)⟩

end ConfigHeader

namespace ConfigKeyRequest

theorem decode_eq (buf : Bytes) : decode buf =
    if 18 + (buf.byteAt 17).toNat ≤ buf.length then
      .ok {
        header := ⟨u64At buf 0, u64At buf 8⟩
        partitionByte := buf.byteAt 16
        key := buf.slice 18 (buf.byteAt 17).toNat }
    else .error .truncated := by
  rw [decode, ConfigHeader.decode_bind, ConfigBody.slice_bind]
  simp only [ConfigBody.slice_bind, headLen, Nat.zero_add, Bytes.byteAt_slice, Nat.reduceLT]
  by_cases hroom : 18 + (buf.byteAt 17).toNat ≤ buf.length
  · rw [if_pos hroom, if_pos (by omega), if_pos (by omega)]
  · rw [if_neg hroom, ite_self, ite_self]

theorem decode_iff (buf : Bytes) (r : ConfigKeyRequest) : decode buf = .ok r ↔
    r.key.length ≤ 255 ∧ r.len ≤ buf.length ∧ (r.fields (UInt8.ofNat r.key.length)).In buf := by
  rw [decode_eq, len, headLen]
  constructor
  · intro h
    split at h
    · rename_i hroom
      cases h
      have hkey : (buf.slice 18 (buf.byteAt 17).toNat).length = (buf.byteAt 17).toNat := Bytes.length_slice hroom
      have hbyte := (buf.byteAt 17).toNat_lt
      dsimp only
      rw [fields, ConfigHeader.in_append_iff _ (by omega)]
      refine ⟨by omega, by omega, rfl, ?_⟩
      simp [hkey, headLen, Bytes.slice_one (show 16 < buf.length by omega),
        Bytes.slice_one (show 17 < buf.length by omega)]
    · cases h
  · rintro ⟨hfits, hroom, hin⟩
    obtain ⟨header, partitionByte, key⟩ := r
    dsimp only at hfits hroom
    rw [fields, ConfigHeader.in_append_iff _ (by omega)] at hin
    obtain ⟨rfl, hin⟩ := hin
    simp only [Fields.in_cons, Fields.in_nil, and_true, headLen] at hin
    obtain ⟨hpartition, hlength, hkey⟩ := hin
    have hn : (buf.byteAt 17).toNat = key.length := by
      rw [byteAt_of_slice hlength, toNat_ofNat_u8 hfits]
    rw [hn, if_pos hroom, hkey, byteAt_of_slice hpartition]

def codec : BodyCodec ConfigKeyRequest where
  Fits r := r.key.length ≤ 255
  encodedLen := len
  encode := encodeInto
  decode := decode

theorem adjacent_fields (r : ConfigKeyRequest) (keyLength : UInt8) : (r.fields keyLength).Adjacent 0 :=
  r.header.adjacent_append (by simp [headLen])

theorem bytes_fields (r : ConfigKeyRequest) (keyLength : UInt8) :
    (r.fields keyLength).bytes = r.header.toBytes ++ ([r.partitionByte, keyLength] ++ r.key) := by
  rw [fields, ConfigHeader.bytes_append]
  simp

theorem length_fields (r : ConfigKeyRequest) (keyLength : UInt8) :
    (r.fields keyLength).bytes.length = r.len := by
  rw [bytes_fields]
  simp [len, headLen]
  omega

theorem roundTrips : codec.RoundTrips := by
  apply Codec.roundTrips_of_fields (fun r => r.fields (UInt8.ofNat r.key.length))
  · exact Codec.normal_id rfl _
  · intro r _
    exact r.adjacent_fields _
  · intro r _
    exact r.length_fields _
  · intro r hfits buf written hwrite hroom
    change r.key.length ≤ 255 at hfits
    change encodeInto r buf = _
    rw [encodeInto, ConfigBody.lenU8, if_pos hfits]
    exact encodeRecord_of_write hwrite hroom
  · exact decode_iff

end ConfigKeyRequest

namespace ConfigValue

theorem decode_eq (buf : Bytes) : decode buf =
    if 21 + (u32At buf 17).toNat ≤ buf.length then
      .ok {
        header := ⟨u64At buf 0, u64At buf 8⟩
        partitionByte := buf.byteAt 16
        data := buf.slice 21 (u32At buf 17).toNat }
    else .error .truncated := by
  rw [decode, ConfigHeader.decode_bind, ConfigBody.slice_bind]
  simp only [ConfigBody.slice_bind, headLen, Nat.zero_add, Bytes.byteAt_slice, Nat.reduceLT, u32At_slice,
    Nat.reduceAdd, Nat.reduceLeDiff]
  by_cases hroom : 21 + (u32At buf 17).toNat ≤ buf.length
  · rw [if_pos hroom, if_pos (by omega), if_pos (by omega)]
  · rw [if_neg hroom, ite_self, ite_self]

theorem decode_iff (buf : Bytes) (v : ConfigValue) : decode buf = .ok v ↔
    v.data.length ≤ 0xFFFFFFFF ∧ v.len ≤ buf.length ∧
      (v.fields (UInt32.ofNat v.data.length)).In buf := by
  rw [decode_eq, len, headLen]
  constructor
  · intro h
    split at h
    · rename_i hroom
      cases h
      have hdata : (buf.slice 21 (u32At buf 17).toNat).length = (u32At buf 17).toNat :=
        Bytes.length_slice hroom
      have hword := (u32At buf 17).toNat_lt
      dsimp only
      rw [fields, ConfigHeader.in_append_iff _ (by omega)]
      refine ⟨by omega, by omega, rfl, ?_⟩
      simp [hdata, headLen, Bytes.slice_one (show 16 < buf.length by omega),
        slice_u32At (show 17 + 4 ≤ buf.length by omega)]
    · cases h
  · rintro ⟨hfits, hroom, hin⟩
    obtain ⟨header, partitionByte, data⟩ := v
    dsimp only at hfits hroom
    rw [fields, ConfigHeader.in_append_iff _ (by omega)] at hin
    obtain ⟨rfl, hin⟩ := hin
    simp only [Fields.in_cons, Fields.in_nil, and_true, headLen] at hin
    obtain ⟨hpartition, hlength, hdata⟩ := hin
    have hn : (u32At buf 17).toNat = data.length := by
      rw [u32At_of_slice hlength, toNat_ofNat_u32 hfits]
    rw [hn, if_pos hroom, hdata, byteAt_of_slice hpartition]

def codec : BodyCodec ConfigValue where
  Fits v := v.data.length ≤ 0xFFFFFFFF
  encodedLen := len
  encode := encodeInto
  decode := decode

theorem roundTrips : codec.RoundTrips := by
  apply Codec.roundTrips_of_fields (fun v => v.fields (UInt32.ofNat v.data.length))
  · exact Codec.normal_id rfl _
  · intro v _
    exact v.header.adjacent_append (by simp [headLen])
  · intro v _
    rw [fields, ConfigHeader.bytes_append]
    simp [codec, len, headLen]
    omega
  · intro v hfits buf written hwrite hroom
    change v.data.length ≤ 0xFFFFFFFF at hfits
    change encodeInto v buf = _
    rw [encodeInto, ConfigBody.lenU32, if_pos hfits]
    exact encodeRecord_of_write hwrite hroom
  · exact decode_iff

end ConfigValue

namespace ConfigSet

theorem decode_eq (buf : Bytes) : decode buf =
    if 22 + (buf.byteAt 17).toNat + (u32At buf 18).toNat ≤ buf.length then
      .ok {
        header := ⟨u64At buf 0, u64At buf 8⟩
        partitionByte := buf.byteAt 16
        key := buf.slice 22 (buf.byteAt 17).toNat
        data := buf.slice (22 + (buf.byteAt 17).toNat) (u32At buf 18).toNat }
    else .error .truncated := by
  rw [decode, ConfigHeader.decode_bind, ConfigBody.slice_bind]
  simp only [ConfigBody.slice_bind, headLen, Nat.zero_add, Bytes.byteAt_slice, Nat.reduceLT, u32At_slice,
    Nat.reduceAdd, Nat.reduceLeDiff]
  by_cases hroom : 22 + (buf.byteAt 17).toNat + (u32At buf 18).toNat ≤ buf.length
  · rw [if_pos hroom, if_pos (by omega), if_pos (by omega), if_pos (by omega)]
  · rw [if_neg hroom, ite_self, ite_self, ite_self]

theorem decode_iff (buf : Bytes) (r : ConfigSet) : decode buf = .ok r ↔
    (r.key.length ≤ 255 ∧ r.data.length ≤ 0xFFFFFFFF) ∧ r.len ≤ buf.length ∧
      (r.fields (UInt8.ofNat r.key.length) (UInt32.ofNat r.data.length)).In buf := by
  rw [decode_eq, len, headLen]
  constructor
  · intro h
    split at h
    · rename_i hroom
      cases h
      have hkey : (buf.slice 22 (buf.byteAt 17).toNat).length = (buf.byteAt 17).toNat :=
        Bytes.length_slice (by omega)
      have hdata : (buf.slice (22 + (buf.byteAt 17).toNat) (u32At buf 18).toNat).length =
          (u32At buf 18).toNat := Bytes.length_slice hroom
      have hbyte := (buf.byteAt 17).toNat_lt
      have hword := (u32At buf 18).toNat_lt
      dsimp only
      rw [fields, ConfigHeader.in_append_iff _ (by omega)]
      refine ⟨⟨by omega, by omega⟩, by omega, rfl, ?_⟩
      simp [hkey, hdata, headLen, Bytes.slice_one (show 16 < buf.length by omega),
        Bytes.slice_one (show 17 < buf.length by omega),
        slice_u32At (show 18 + 4 ≤ buf.length by omega)]
    · cases h
  · rintro ⟨⟨hshort, hfits⟩, hroom, hin⟩
    obtain ⟨header, partitionByte, key, data⟩ := r
    dsimp only at hshort hfits hroom
    rw [fields, ConfigHeader.in_append_iff _ (by omega)] at hin
    obtain ⟨rfl, hin⟩ := hin
    simp only [Fields.in_cons, Fields.in_nil, and_true, headLen] at hin
    obtain ⟨hpartition, hkeyLength, hdataLength, hkey, hdata⟩ := hin
    have hn : (buf.byteAt 17).toNat = key.length := by
      rw [byteAt_of_slice hkeyLength, toNat_ofNat_u8 hshort]
    have hm : (u32At buf 18).toNat = data.length := by
      rw [u32At_of_slice hdataLength, toNat_ofNat_u32 hfits]
    rw [hn, hm, if_pos hroom, hkey, hdata, byteAt_of_slice hpartition]

def codec : BodyCodec ConfigSet where
  Fits r := r.key.length ≤ 255 ∧ r.data.length ≤ 0xFFFFFFFF
  encodedLen := len
  encode := encodeInto
  decode := decode

theorem adjacent_fields (r : ConfigSet) (keyLength : UInt8) (dataLength : UInt32) :
    (r.fields keyLength dataLength).Adjacent 0 :=
  r.header.adjacent_append (by simp [headLen])

theorem bytes_fields (r : ConfigSet) (keyLength : UInt8) (dataLength : UInt32) :
    (r.fields keyLength dataLength).bytes =
      r.header.toBytes ++ ([r.partitionByte, keyLength] ++ (u32ToLe dataLength ++ (r.key ++ r.data))) := by
  rw [fields, ConfigHeader.bytes_append]
  simp

theorem length_fields (r : ConfigSet) (keyLength : UInt8) (dataLength : UInt32) :
    (r.fields keyLength dataLength).bytes.length = r.len := by
  rw [bytes_fields]
  simp [len, headLen]
  omega

theorem roundTrips : codec.RoundTrips := by
  apply Codec.roundTrips_of_fields
    (fun r => r.fields (UInt8.ofNat r.key.length) (UInt32.ofNat r.data.length))
  · exact Codec.normal_id rfl _
  · intro r _
    exact r.adjacent_fields _ _
  · intro r _
    exact r.length_fields _ _
  · rintro r ⟨hshort, hfits⟩ buf written hwrite hroom
    change encodeInto r buf = _
    rw [encodeInto, ConfigBody.lenU8, if_pos hshort, ConfigBody.lenU32, if_pos hfits]
    exact encodeRecord_of_write hwrite hroom
  · exact decode_iff

end ConfigSet

namespace ConfigPartitionRequest

theorem decode_eq (buf : Bytes) : decode buf =
    if 17 ≤ buf.length then .ok ⟨⟨u64At buf 0, u64At buf 8⟩, buf.byteAt 16⟩
    else .error .truncated := by
  rw [decode, ConfigHeader.decode_bind, ConfigBody.slice_bind]
  simp only [len, Nat.zero_add, Bytes.byteAt_slice, Nat.reduceLT]
  by_cases hroom : 17 ≤ buf.length
  · rw [if_pos hroom, if_pos (by omega)]
  · rw [if_neg hroom, ite_self]

theorem decode_iff (buf : Bytes) (r : ConfigPartitionRequest) : decode buf = .ok r ↔
    True ∧ len ≤ buf.length ∧ r.fields.In buf := by
  rw [decode_eq, len, true_and]
  by_cases hroom : 17 ≤ buf.length
  · obtain ⟨header, partitionByte⟩ := r
    rw [if_pos hroom, fields, ConfigHeader.in_append_iff _ (by omega)]
    simp [hroom, Bytes.slice_one (show 16 < buf.length by omega), eq_comm]
  · simp [hroom]

def codec : BodyCodec ConfigPartitionRequest where
  Fits _ := True
  encodedLen _ := len
  encode := encodeInto
  decode := decode

theorem adjacent_fields (r : ConfigPartitionRequest) : r.fields.Adjacent 0 :=
  r.header.adjacent_append (by simp)

theorem bytes_fields (r : ConfigPartitionRequest) :
    r.fields.bytes = r.header.toBytes ++ [r.partitionByte] := by
  rw [fields, ConfigHeader.bytes_append]
  simp

theorem length_fields (r : ConfigPartitionRequest) : r.fields.bytes.length = len := by
  rw [bytes_fields]
  simp [len]

theorem roundTrips : codec.RoundTrips := by
  apply Codec.roundTrips_of_fields fields
  · exact Codec.normal_id rfl _
  · exact fun m _ => m.adjacent_fields
  · exact fun m _ => m.length_fields
  · intro r _ buf written hwrite hroom
    exact encodeRecord_of_write hwrite hroom
  · exact decode_iff

end ConfigPartitionRequest

/-! ### What a node sends -/

/-- A body writer as an encoder. -/
def BodyWriter.run (body : BodyWriter) (tail : Bytes) : Except EncodeError (Bytes × Nat) :=
  match body tail with
  | .ok (written, len) => .ok (written.val, len)
  | .error e => .error (.error e)

theorem run_writeBody {bytes : Bytes} {fields : Fields} {len : Nat} (h : fields.Adjacent 0)
    (hbytes : fields.bytes = bytes) (hlen : bytes.length = len) :
    BodyWriter.run (writeBody bytes) = encodeRecord fields len := by
  subst bytes len
  funext tail
  rw [BodyWriter.run, writeBody, encodeRecord_adjacent h rfl]
  by_cases hroom : fields.bytes.length ≤ tail.length
  · rw [dif_pos hroom, if_neg (by omega)]
  · rw [dif_neg hroom, if_pos (by omega)]

theorem ConfigKeyRequest.run_encode (r : ConfigKeyRequest) : BodyWriter.run r.encode = r.encodeInto := by
  funext tail
  rw [encode, encodeInto, ConfigBody.lenU8]
  by_cases hkey : r.key.length ≤ 255
  · rw [if_neg (by omega), if_pos hkey, run_writeBody (r.adjacent_fields _) (r.bytes_fields _)]
    · rfl
    · rw [← r.bytes_fields, r.length_fields]
  · rw [if_pos (by omega), if_neg hkey]
    rfl

theorem ConfigSet.run_encode (r : ConfigSet) : BodyWriter.run r.encode = r.encodeInto := by
  funext tail
  rw [encode, encodeInto, ConfigBody.lenU8, ConfigBody.lenU32]
  by_cases hkey : r.key.length ≤ 255
  · rw [if_neg (by omega), if_pos hkey]
    by_cases hdata : r.data.length ≤ 0xFFFFFFFF
    · rw [if_neg (by omega), if_pos hdata, run_writeBody (r.adjacent_fields _ _) (r.bytes_fields _ _)]
      · rfl
      · rw [← r.bytes_fields, r.length_fields]
    · rw [if_pos (by omega), if_neg hdata]
      rfl
  · rw [if_pos (by omega), if_neg hkey]
    rfl

theorem ConfigPartitionRequest.run_encode (r : ConfigPartitionRequest) :
    BodyWriter.run r.encode = r.encodeInto := by
  rw [encode, run_writeBody r.adjacent_fields r.bytes_fields]
  · rfl
  · rw [← r.bytes_fields, r.length_fields]

/-! ### The two responses -/

theorem ConfigHeader.in_append_normal_iff (h : ConfigHeader) {more : Fields} {buf : Bytes}
    (hlen : 16 ≤ buf.length) : (h.fields ++ more).In (normalBool 16 buf) ↔
      h = ⟨u64At buf 0, u64At buf 8⟩ ∧ more.In (normalBool 16 buf) := by
  rw [h.in_append_iff (by rw [length_normalBool]; exact hlen), u64At, u64At,
    slice_normalBool_of_ne (by omega), slice_normalBool_of_ne (by omega)]
  rfl

/-- A boolean behind a header is written as it is read. -/
theorem normalBool_written (h : ConfigHeader) (b : Bool) (more rest : Bytes) :
    normalBool 16 (h.toBytes ++ ([boolByte b] ++ more) ++ rest) = h.toBytes ++ ([boolByte b] ++ more) ++ rest := by
  rw [List.append_assoc, List.append_assoc, normalBool_append_right (by simp), h.length_toBytes, Nat.sub_self]
  cases b <;> rfl

namespace ConfigDeleteResponse

theorem decode_eq (buf : Bytes) : decode buf =
    if 19 + (buf.byteAt 18).toNat ≤ buf.length then
      .ok {
        header := ⟨u64At buf 0, u64At buf 8⟩
        success := buf.byteAt 16 ≠ 0
        partitionByte := buf.byteAt 17
        key := buf.slice 19 (buf.byteAt 18).toNat }
    else .error .truncated := by
  rw [decode, ConfigHeader.decode_bind, ConfigBody.slice_bind]
  simp only [ConfigBody.slice_bind, headLen, Nat.zero_add, Bytes.byteAt_slice, Nat.reduceLT]
  by_cases hroom : 19 + (buf.byteAt 18).toNat ≤ buf.length
  · rw [if_pos hroom, if_pos (by omega), if_pos (by omega)]
  · rw [if_neg hroom, ite_self, ite_self]

theorem decode_iff (buf : Bytes) (r : ConfigDeleteResponse) : decode buf = .ok r ↔
    r.key.length ≤ 255 ∧ r.len ≤ buf.length ∧
      (r.fields (UInt8.ofNat r.key.length)).In (normalBool 16 buf) := by
  rw [decode_eq, len, headLen]
  constructor
  · intro h
    split at h
    · rename_i hroom
      cases h
      have hkey : (buf.slice 19 (buf.byteAt 18).toNat).length = (buf.byteAt 18).toNat :=
        Bytes.length_slice hroom
      have hbyte := (buf.byteAt 18).toNat_lt
      dsimp only
      rw [fields, ConfigHeader.in_append_normal_iff _ (by omega)]
      refine ⟨by omega, by omega, rfl, ?_⟩
      simp [hkey, headLen, slice_normalBool (show 16 < buf.length by omega), slice_normalBool_of_ne,
        Bytes.slice_one (show 17 < buf.length by omega), Bytes.slice_one (show 18 < buf.length by omega)]
    · cases h
  · rintro ⟨hfits, hroom, hin⟩
    obtain ⟨header, success, partitionByte, key⟩ := r
    dsimp only at hfits hroom
    rw [fields, ConfigHeader.in_append_normal_iff _ (by omega)] at hin
    obtain ⟨rfl, hin⟩ := hin
    simp only [Fields.in_cons, Fields.in_nil, and_true, headLen, List.length_singleton,
      slice_normalBool (show 16 < buf.length by omega)] at hin
    obtain ⟨hsuccess, hpartition, hlength, hkey⟩ := hin
    rw [slice_normalBool_of_ne (by omega)] at hpartition hlength hkey
    have hn : (buf.byteAt 18).toNat = key.length := by
      rw [byteAt_of_slice hlength, toNat_ofNat_u8 hfits]
    rw [hn, if_pos hroom, hkey, byteAt_of_slice hpartition, boolByte_injective (List.singleton_inj.mp hsuccess)]

def codec : BodyCodec ConfigDeleteResponse where
  Fits r := r.key.length ≤ 255
  encodedLen := len
  encode := encodeInto
  decode := decode
  normal := normalBool 16

theorem bytes_fields (r : ConfigDeleteResponse) (keyLength : UInt8) : (r.fields keyLength).bytes =
    r.header.toBytes ++ ([boolByte r.success] ++ ([r.partitionByte, keyLength] ++ r.key)) := by
  rw [fields, ConfigHeader.bytes_append]
  simp

theorem roundTrips : codec.RoundTrips := by
  apply Codec.roundTrips_of_fields (fun r => r.fields (UInt8.ofNat r.key.length))
  · refine ⟨take_normalBool 16, ?_⟩
    intro r rest
    rw [bytes_fields]
    exact normalBool_written r.header r.success _ _
  · intro r _
    exact r.header.adjacent_append (by simp [headLen])
  · intro r _
    rw [bytes_fields]
    simp [codec, len, headLen]
    omega
  · intro r hfits buf written hwrite hroom
    change r.key.length ≤ 255 at hfits
    change encodeInto r buf = _
    rw [encodeInto, ConfigBody.lenU8, if_pos hfits]
    exact encodeRecord_of_write hwrite hroom
  · exact decode_iff

end ConfigDeleteResponse

namespace ConfigClearResponse

theorem decode_eq (buf : Bytes) : decode buf =
    if 18 ≤ buf.length then .ok ⟨⟨u64At buf 0, u64At buf 8⟩, buf.byteAt 16 ≠ 0, buf.byteAt 17⟩
    else .error .truncated := by
  rw [decode, ConfigHeader.decode_bind, ConfigBody.slice_bind]
  simp only [len, Nat.zero_add, Bytes.byteAt_slice, Nat.reduceLT]
  by_cases hroom : 18 ≤ buf.length
  · rw [if_pos hroom, if_pos (by omega)]
  · rw [if_neg hroom, ite_self]

theorem decode_iff (buf : Bytes) (r : ConfigClearResponse) : decode buf = .ok r ↔
    True ∧ len ≤ buf.length ∧ r.fields.In (normalBool 16 buf) := by
  rw [decode_eq, len, true_and]
  by_cases hroom : 18 ≤ buf.length
  · obtain ⟨header, success, partitionByte⟩ := r
    rw [if_pos hroom, fields, ConfigHeader.in_append_normal_iff _ (by omega)]
    simp only [Fields.in_cons, Fields.in_nil, and_true, List.length_singleton, hroom, true_and,
      slice_normalBool (show 16 < buf.length by omega), slice_normalBool_of_ne (show 17 + 1 ≤ 16 ∨ 16 < 17 by omega),
      Bytes.slice_one (show 17 < buf.length by omega), List.singleton_inj, boolByte_injective.eq_iff,
      Except.ok.injEq, ConfigClearResponse.mk.injEq, eq_comm]
  · simp [hroom]

def codec : BodyCodec ConfigClearResponse where
  Fits _ := True
  encodedLen _ := len
  encode := encodeInto
  decode := decode
  normal := normalBool 16

theorem bytes_fields (r : ConfigClearResponse) :
    r.fields.bytes = r.header.toBytes ++ ([boolByte r.success] ++ [r.partitionByte]) := by
  rw [fields, ConfigHeader.bytes_append]
  simp

theorem roundTrips : codec.RoundTrips := by
  apply Codec.roundTrips_of_fields fields
  · refine ⟨take_normalBool 16, ?_⟩
    intro r rest
    rw [bytes_fields]
    exact normalBool_written r.header r.success _ _
  · intro r _
    exact r.header.adjacent_append (by simp)
  · intro r _
    rw [bytes_fields]
    simp [codec, len]
  · intro r _ buf written hwrite hroom
    exact encodeRecord_of_write hwrite hroom
  · exact decode_iff

end ConfigClearResponse

end Bristlemouth
