import Bristlemouth.Dfu.Message
import Bristlemouth.Wire.Record

/-!
# DFU bodies, field by field

`dfu.rs`: where the encoder puts the fields of the ten bodies, and what the decoder has to do with it.
-/

set_option autoImplicit false

namespace Bristlemouth.Dfu

def DfuAddress.fields (a : DfuAddress) : Fields := [(0, u64ToLe a.srcNodeId), (8, u64ToLe a.dstNodeId)]

def ImgInfo.fields (i : ImgInfo) : Fields :=
  [(0, u32ToLe i.imageSize), (4, u16ToLe i.chunkSize), (6, u16ToLe i.crc16), (8, [i.majorVer]),
    (9, [i.minorVer]), (10, u32ToLe i.filterKey), (14, u32ToLe i.gitSha)]

namespace DfuMessage

/-- The fields behind the address, from its end. -/
def tailFields : DfuMessage → Fields
  | start m => m.imgInfo.fields
  | payloadReq m => [(0, u16ToLe m.seqNum)]
  | payload m => [(0, u16ToLe (UInt16.ofNat m.payload.length)), (2, m.payload)]
  | updateEnd m | ack m | abort m => [(0, [m.success]), (1, [m.errCode])]
  | heartbeat _ | rebootReq _ | reboot _ | bootComplete _ => []

def fields (m : DfuMessage) : Fields :=
  (0, [m.frameType]) :: (m.addresses.fields.shift 1 ++ m.tailFields.shift minLen)

/-- `encode`, each field at its own offset. -/
def encodeInto (m : DfuMessage) (buf : Bytes) : Except EncodeError (Bytes × Nat) :=
  let tooLong := match m with
    | payload c => decide (c.payload.length > maxPayloadLen)
    | _ => false
  if tooLong then .error (.error .invalid) else encodeRecord m.fields m.encodedLen buf

/-- The chunk's length is two bytes. -/
def Fits : DfuMessage → Prop
  | payload c => c.payload.length ≤ maxPayloadLen
  | _ => True

theorem adjacent_fields (m : DfuMessage) : m.fields.Adjacent 0 := by
  refine ⟨rfl, Fields.Adjacent.append ?_ ?_⟩
  · simp [DfuAddress.fields]
  · rw [Fields.bytes_shift]
    have hlen : 0 + [m.frameType].length + m.addresses.fields.bytes.length = minLen + 0 := by
      simp [DfuAddress.fields]
    rw [hlen]
    apply Fields.Adjacent.shift
    cases m <;> simp [tailFields, ImgInfo.fields]

theorem bytes_fields (m : DfuMessage) : m.fields.bytes = m.toBytes := by
  have haddress : m.addresses.fields.bytes = m.addresses.toBytes := by
    simp [DfuAddress.fields, DfuAddress.toBytes]
  have htail : m.tailFields.bytes = m.tail := by
    cases m <;> simp [tailFields, tail, ImgInfo.fields, ImgInfo.toBytes]
  rw [fields, Fields.bytes_cons, Fields.bytes_append, Fields.bytes_shift, Fields.bytes_shift, haddress,
    htail]
  rfl

/-- The bytes are those of `encode`. -/
theorem encodeInto_eq (m : DfuMessage) (buf : Bytes) :
    m.encodeInto buf = (m.encode buf).mapError EncodeError.error := by
  have hlen : m.fields.bytes.length = m.encodedLen := by
    rw [bytes_fields, length_toBytes]
  have hrecord := encodeRecord_adjacent m.adjacent_fields hlen buf
  rw [bytes_fields] at hrecord
  have hshort : (if buf.length < m.encodedLen then .error (.error .truncated)
      else .ok (buf.copyAt 0 m.toBytes, m.encodedLen) : Except EncodeError (Bytes × Nat)) =
        Except.mapError EncodeError.error (if buf.length < m.encodedLen then .error .truncated
          else .ok (buf.copyAt 0 m.toBytes, m.encodedLen)) := by
    split <;> rfl
  cases m with
  | payload c =>
    simp only [encodeInto, encode, hrecord, hshort]
    split <;> rfl
  | _ => exact hrecord.trans hshort

end DfuMessage

/-! ### Reading a body back -/

theorem ImgInfo.decode_iff (buf : Bytes) (i : ImgInfo) :
    ImgInfo.decode buf = .ok i ↔ ImgInfo.len ≤ buf.length ∧ i.fields.In buf := by
  rw [ImgInfo.decode, lePrefix]
  by_cases hroom : ImgInfo.len ≤ buf.length
  · obtain ⟨imageSize, chunkSize, crc16, majorVer, minorVer, filterKey, gitSha⟩ := i
    rw [if_pos hroom]
    simp only [ImgInfo.len] at hroom
    have hword : ∀ off, off + 4 ≤ 18 → ∀ x : UInt32,
        (buf.slice off 4 = u32ToLe x ↔ u32At (buf.take 18) off = x) := by
      intro off hoff x
      rw [u32At, Bytes.slice_take hoff]
      exact ⟨u32At_of_slice, fun h => h ▸ slice_u32At (by omega)⟩
    have hhalf : ∀ off, off + 2 ≤ 18 → ∀ x : UInt16,
        (buf.slice off 2 = u16ToLe x ↔ u16At (buf.take 18) off = x) := by
      intro off hoff x
      rw [u16At, Bytes.slice_take hoff]
      exact ⟨u16At_of_slice, fun h => h ▸ slice_u16At (by omega)⟩
    have hbyte : ∀ off, off < 18 → ∀ x : UInt8,
        (buf.slice off 1 = [x] ↔ Bytes.byteAt (buf.take 18) off = x) := by
      intro off hoff x
      rw [Bytes.slice_one (by omega), List.singleton_inj, Bytes.byteAt, Bytes.byteAt,
        List.getD_eq_getElem?_getD, List.getD_eq_getElem?_getD, List.getElem?_take_of_lt hoff]
    simp [bind, Except.bind, fields, hword, hhalf, hbyte, hroom]
  · rw [if_neg hroom]
    refine iff_of_false ?_ (fun h => hroom h.1)
    intro h
    cases h

namespace DfuMessage

/-- What is behind the address is read as the body's type says. -/
def ReadsTail : DfuMessage → Bytes → Prop
  | start m, tail => ImgInfo.decode tail = .ok m.imgInfo
  | payloadReq m, tail => 2 ≤ tail.length ∧ tail.slice 0 2 = u16ToLe m.seqNum
  | payload m, tail => 2 + m.payload.length ≤ tail.length ∧ (u16At tail 0).toNat = m.payload.length ∧
      tail.slice 2 m.payload.length = m.payload
  | updateEnd m, tail | ack m, tail | abort m, tail =>
      2 ≤ tail.length ∧ tail.slice 0 1 = [m.success] ∧ tail.slice 1 1 = [m.errCode]
  | heartbeat _, _ | rebootReq _, _ | reboot _, _ | bootComplete _, _ => True

theorem readsTail_iff (m : DfuMessage) (tail : Bytes) : m.ReadsTail tail ↔
    m.Fits ∧ m.encodedLen ≤ minLen + tail.length ∧ m.tailFields.In tail := by
  cases m with
  | start m =>
    rw [ReadsTail, ImgInfo.decode_iff]
    simp [Fits, encodedLen, tailFields]
    omega
  | payload m =>
    simp only [ReadsTail, Fits, encodedLen, tailFields, Fields.in_cons, Fields.in_nil, and_true,
      length_u16ToLe, maxPayloadLen, withTwoBytesLen, minLen]
    constructor
    · rintro ⟨hroom, hlength, hpayload⟩
      have hlt := (u16At tail 0).toNat_lt
      refine ⟨by omega, by omega, ?_, hpayload⟩
      rw [← hlength, UInt16.ofNat_toNat]
      exact slice_u16At (by omega)
    · rintro ⟨hfits, hroom, hlength, hpayload⟩
      refine ⟨by omega, ?_, hpayload⟩
      rw [u16At_of_slice hlength, toNat_ofNat_u16 hfits]
  | _ =>
    simp [ReadsTail, Fits, encodedLen, tailFields]
    try omega

theorem else_of_ok {c : Prop} [Decidable c] {E A : Type} {e : E} {x : Except E A} {a : A}
    (h : (if c then .error e else x) = .ok a) : x = .ok a := by
  by_cases hc : c
  · rw [if_pos hc] at h
    cases h
  · rw [if_neg hc] at h
    exact h

/-- The types that have nothing behind the address. -/
theorem trailing_types {frameType : UInt8} {addresses : DfuAddress} {tail : Bytes} {m : DfuMessage}
    (hm : (if frameType = 0xD6 then .ok (heartbeat addresses)
      else if frameType = 0xD7 then .ok (rebootReq addresses)
      else if frameType = 0xD8 then .ok (reboot addresses)
      else if frameType = 0xD9 then .ok (bootComplete addresses)
      else .error .invalid : Except BmWireError DfuMessage) = .ok m) :
    frameType = m.frameType ∧ addresses = m.addresses ∧ m.ReadsTail tail := by
  by_cases hheartbeat : frameType = 0xD6
  · rw [if_pos hheartbeat] at hm
    cases hm
    exact ⟨hheartbeat, rfl, trivial⟩
  rw [if_neg hheartbeat] at hm
  by_cases hrebootReq : frameType = 0xD7
  · rw [if_pos hrebootReq] at hm
    cases hm
    exact ⟨hrebootReq, rfl, trivial⟩
  rw [if_neg hrebootReq] at hm
  by_cases hreboot : frameType = 0xD8
  · rw [if_pos hreboot] at hm
    cases hm
    exact ⟨hreboot, rfl, trivial⟩
  rw [if_neg hreboot] at hm
  by_cases hboot : frameType = 0xD9
  · rw [if_pos hboot] at hm
    cases hm
    exact ⟨hboot, rfl, trivial⟩
  rw [if_neg hboot] at hm
  cases hm

/-- The types that have two bytes or more behind the address, where these have arrived. -/
theorem decode_long {frameType : UInt8} {body : Bytes} {addresses : DfuAddress}
    (h : DfuAddress.ofBody (frameType :: body) = .ok addresses) {tail : Bytes}
    (htail : (frameType :: body).drop minLen = tail) (hroom : 2 ≤ tail.length) (m : DfuMessage) :
    decode (frameType :: body) = .ok m ↔
      frameType = m.frameType ∧ addresses = m.addresses ∧ m.ReadsTail tail := by
  have hprefix : lePrefix 2 tail = .ok (tail.slice 0 2) := if_pos hroom
  unfold decode
  simp only [List.head?_cons, h, bind, Except.bind, htail, hprefix]
  have hfirst : (tail.slice 0 2).byteAt 0 = tail.byteAt 0 := Bytes.byteAt_slice (by decide)
  have hsecond : (tail.slice 0 2).byteAt 1 = tail.byteAt 1 := Bytes.byteAt_slice (by decide)
  have hone := Bytes.slice_one (show 0 < tail.length by omega)
  have htwo := Bytes.slice_one (show 1 < tail.length by omega)
  rw [hfirst, hsecond]
  constructor
  · intro hm
    by_cases hstart : frameType = 0xD0
    · rw [if_pos hstart] at hm
      split at hm
      · cases hm
      · rename_i hinfo
        cases hm
        exact ⟨hstart, rfl, hinfo⟩
    rw [if_neg hstart] at hm
    by_cases hrequest : frameType = 0xD1
    · rw [if_pos hrequest] at hm
      cases hm
      exact ⟨hrequest, rfl, hroom, slice_u16At (by omega)⟩
    rw [if_neg hrequest] at hm
    by_cases hpayload : frameType = 0xD2
    · rw [if_pos hpayload] at hm
      split at hm
      · rename_i chunk hchunk
        cases hm
        obtain ⟨hfit, heq, hlength⟩ := Bytes.slice?_eq_some hchunk
        refine ⟨hpayload, rfl, ?_⟩
        dsimp only [ReadsTail]
        exact ⟨by omega, hlength.symm, by rw [hlength]; exact heq.symm⟩
      · cases hm
    rw [if_neg hpayload] at hm
    by_cases hend : frameType = 0xD3
    · rw [if_pos hend] at hm
      cases hm
      exact ⟨hend, rfl, hroom, hone, htwo⟩
    rw [if_neg hend] at hm
    by_cases hack : frameType = 0xD4
    · rw [if_pos hack] at hm
      cases hm
      exact ⟨hack, rfl, hroom, hone, htwo⟩
    rw [if_neg hack] at hm
    by_cases habort : frameType = 0xD5
    · rw [if_pos habort] at hm
      cases hm
      exact ⟨habort, rfl, hroom, hone, htwo⟩
    rw [if_neg habort] at hm
    exact trailing_types hm
  · rintro ⟨rfl, rfl, hreads⟩
    cases m with
    | start m =>
      change ImgInfo.decode tail = .ok m.imgInfo at hreads
      rw [hreads]
      rfl
    | payloadReq m =>
      obtain ⟨-, hseq⟩ := hreads
      rw [hseq, u16FromLe_u16ToLe]
      rfl
    | payload m =>
      obtain ⟨hfit, hlength, hpayload⟩ := hreads
      have hchunk : tail.slice? 2 (u16FromLe (tail.slice 0 2)).toNat = some m.payload := by
        rw [show (u16FromLe (tail.slice 0 2)).toNat = m.payload.length from hlength,
          Bytes.slice?_of_le hfit, hpayload]
      rw [hchunk]
      rfl
    | updateEnd m | ack m | abort m =>
      obtain ⟨-, hsuccess, herr⟩ := hreads
      rw [byteAt_of_slice hsuccess, byteAt_of_slice herr]
      rfl
    | _ => rfl

theorem decode_short {frameType : UInt8} {body : Bytes} {addresses : DfuAddress}
    (h : DfuAddress.ofBody (frameType :: body) = .ok addresses) {tail : Bytes}
    (htail : (frameType :: body).drop minLen = tail) (hroom : ¬2 ≤ tail.length) (m : DfuMessage) :
    decode (frameType :: body) = .ok m ↔
      frameType = m.frameType ∧ addresses = m.addresses ∧ m.ReadsTail tail := by
  have hprefix : lePrefix 2 tail = .error .truncated := if_neg hroom
  have hinfo : ImgInfo.decode tail = .error .truncated := by
    rw [ImgInfo.decode, lePrefix, if_neg (by simp only [ImgInfo.len]; omega)]
    rfl
  unfold decode
  simp only [List.head?_cons, h, bind, Except.bind, htail, hprefix, hinfo]
  constructor
  · intro hm
    iterate 6
      replace hm := else_of_ok hm
    exact trailing_types hm
  · rintro ⟨rfl, rfl, hreads⟩
    cases m with
    | start m =>
      rw [ReadsTail, hinfo] at hreads
      cases hreads
    | payloadReq m | updateEnd m | ack m | abort m => exact absurd hreads.1 hroom
    | payload m =>
      have hfit := hreads.1
      omega
    | _ => rfl

end DfuMessage

theorem DfuAddress.ofBody_eq (buf : Bytes) : DfuAddress.ofBody buf =
    if DfuMessage.minLen ≤ buf.length then .ok ⟨u64At buf 1, u64At buf 9⟩ else .error .truncated := by
  have hlen : (buf.drop 1).length = buf.length - 1 := List.length_drop
  unfold DfuAddress.ofBody DfuAddress.decode lePrefix
  by_cases hroom : DfuMessage.minLen ≤ buf.length
  · have hlong : 17 ≤ buf.length := hroom
    rw [if_pos hroom, if_neg (by omega), if_pos (by rw [hlen]; simp only [len]; omega)]
    simp only [bind, Except.bind, u64At, len]
    rw [Bytes.slice_take (by omega), Bytes.slice_take (by omega), Bytes.slice, Bytes.slice,
      List.drop_drop, List.drop_drop]
    rfl
  · have hshort : ¬17 ≤ buf.length := hroom
    rw [if_neg hroom]
    split
    · rfl
    · rw [if_neg (by rw [hlen]; simp only [len]; omega)]
      rfl

namespace DfuMessage

theorem in_fields_iff (m : DfuMessage) {buf : Bytes} (hroom : minLen ≤ buf.length) :
    m.fields.In buf ↔ buf.byteAt 0 = m.frameType ∧ ⟨u64At buf 1, u64At buf 9⟩ = m.addresses ∧
      m.tailFields.In (buf.drop minLen) := by
  simp only [minLen, DfuAddress.len] at hroom
  rw [fields, Fields.in_cons, Fields.in_append, Fields.in_shift, Fields.in_shift]
  refine and_congr ?_ (and_congr_left' ?_)
  · rw [List.length_singleton, Bytes.slice_one (by omega), List.singleton_inj]
  · obtain ⟨src, dst⟩ := m.addresses
    have hdrop : ∀ off, Bytes.slice (buf.drop 1) off 8 = buf.slice (1 + off) 8 := by
      intro off
      rw [Bytes.slice, Bytes.slice, List.drop_drop]
    simp only [DfuAddress.fields, Fields.in_cons, Fields.in_nil, and_true, length_u64ToLe, hdrop,
      DfuAddress.mk.injEq]
    constructor
    · rintro ⟨hsrc, hdst⟩
      exact ⟨u64At_of_slice hsrc, u64At_of_slice hdst⟩
    · rintro ⟨rfl, rfl⟩
      exact ⟨slice_u64At (by omega), slice_u64At (by omega)⟩

theorem decode_iff (buf : Bytes) (m : DfuMessage) : decode buf = .ok m ↔
    m.Fits ∧ m.encodedLen ≤ buf.length ∧ m.fields.In buf := by
  have haddress := DfuAddress.ofBody_eq buf
  by_cases hroom : minLen ≤ buf.length
  · rw [if_pos hroom] at haddress
    obtain ⟨frameType, body, rfl⟩ := List.exists_cons_of_length_pos (Nat.lt_of_lt_of_le (by decide) hroom)
    have hdecode : decode (frameType :: body) = .ok m ↔ frameType = m.frameType ∧
        ⟨u64At (frameType :: body) 1, u64At (frameType :: body) 9⟩ = m.addresses ∧
          m.ReadsTail ((frameType :: body).drop minLen) := by
      by_cases htwo : 2 ≤ ((frameType :: body).drop minLen).length
      · exact decode_long haddress rfl htwo m
      · exact decode_short haddress rfl htwo m
    rw [hdecode, readsTail_iff, in_fields_iff m hroom, List.length_drop, Nat.add_sub_cancel' hroom,
      Bytes.byteAt_cons_zero]
    tauto
  · rw [if_neg hroom] at haddress
    refine iff_of_false ?_ ?_
    · intro h
      unfold decode at h
      simp only [haddress, bind, Except.bind] at h
      split at h <;> cases h
    · rintro ⟨-, hlen, -⟩
      have hmin : minLen ≤ m.encodedLen := by
        cases m <;> simp [encodedLen]
        omega
      omega

def codec : BodyCodec DfuMessage where
  Fits := Fits
  encodedLen := encodedLen
  encode m buf := (m.encode buf).mapError EncodeError.error
  decode := decode

theorem roundTrips : codec.RoundTrips := by
  apply Codec.roundTrips_of_fields fields
  · exact Codec.normal_id rfl _
  · exact fun m _ => m.adjacent_fields
  · intro m _
    rw [bytes_fields]
    exact m.length_toBytes
  · intro m hfits buf written hwrite hroom
    have hrecord := encodeRecord_of_write hwrite hroom
    refine (m.encodeInto_eq buf).symm.trans ?_
    cases m with
    | payload c =>
      have hshort : c.payload.length ≤ maxPayloadLen := hfits
      simp only [encodeInto]
      rw [if_neg (by simpa using hshort)]
      exact hrecord
    | _ => exact hrecord
  · exact decode_iff

end DfuMessage

end Bristlemouth.Dfu
