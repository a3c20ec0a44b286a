import Bristlemouth.Wire.Checksum

/-!
# BCMP frames

`header.rs`, `tx.rs` and `rx.rs` of `bcmp`: building a whole frame around a
message body, and validating a received one.
-/

set_option autoImplicit false

namespace Bristlemouth

@[simp] def bcmpHeaderLen : Nat := 13
@[simp] def bcmpHeaderOffset : Nat := ipv6DestinationAddressOffset + ipv6AddressSize
@[simp] def checksumFieldOffset : Nat := 2

/-- The checksum field as a frame offset. -/
@[simp] def bcmpChecksumOffset : Nat := bcmpHeaderOffset + checksumFieldOffset

structure MessageType where
  val : UInt16
deriving DecidableEq

structure BcmpHeader where
  messageType : MessageType
  checksum : UInt16
  flags : UInt8 := 0
  reserved : UInt8 := 0
  seqNum : UInt32
  fragTotal : UInt8 := 0
  fragId : UInt8 := 0
  nextHeader : UInt8 := 0
deriving DecidableEq

namespace BcmpHeader

/-- The packed layout. -/
def toBytes (h : BcmpHeader) : Bytes :=
  u16ToLe h.messageType.val ++ (u16ToLe h.checksum ++ ([h.flags, h.reserved] ++
    (u32ToLe h.seqNum ++ [h.fragTotal, h.fragId, h.nextHeader])))

def decode (buf : Bytes) : Except BmWireError BcmpHeader := do
  let b ← lePrefix bcmpHeaderLen buf
  .ok {
    messageType := ⟨u16At b 0⟩
    checksum := u16At b 2
    flags := b.byteAt 4
    reserved := b.byteAt 5
    seqNum := u32At b 6
    fragTotal := b.byteAt 10
    fragId := b.byteAt 11
    nextHeader := b.byteAt 12 }

def encode (h : BcmpHeader) (buf : Bytes) : Except BmWireError Bytes :=
  if buf.length < bcmpHeaderLen then .error .truncated else .ok (buf.copyAt 0 h.toBytes)

def withChecksum (h : BcmpHeader) (checksum : UInt16) : BcmpHeader := { h with checksum }

@[simp] theorem withChecksum_withChecksum (h : BcmpHeader) (a b : UInt16) :
    (h.withChecksum a).withChecksum b = h.withChecksum b := rfl

@[simp] theorem withChecksum_self (h : BcmpHeader) : h.withChecksum h.checksum = h := rfl

@[simp] theorem checksum_withChecksum (h : BcmpHeader) (c : UInt16) : (h.withChecksum c).checksum = c := rfl

@[simp] theorem length_toBytes (h : BcmpHeader) : h.toBytes.length = bcmpHeaderLen := by
  simp [toBytes]

theorem toBytes_copyAt_checksum (h : BcmpHeader) (checksum : UInt16) :
    h.toBytes.copyAt checksumFieldOffset (u16ToLe checksum) = (h.withChecksum checksum).toBytes := by
  simp [toBytes, withChecksum, Bytes.copyAt, List.drop_append, List.drop_of_length_le]

theorem decode_toBytes_append (h : BcmpHeader) (rest : Bytes) :
    decode (h.toBytes ++ rest) = .ok h := by
  have htake : (h.toBytes ++ rest).take bcmpHeaderLen = h.toBytes := by
    rw [List.take_append_of_le_length (by simp), List.take_of_length_le (by simp)]
  rw [decode, lePrefix, if_pos (by simp), htake]
  simp [bind, Except.bind, toBytes, u16At, u32At, Bytes.slice_append_right, Bytes.slice_append_self,
    Bytes.byteAt_append_right]

end BcmpHeader

/-! ### Transmit -/

/-- A writer of a message body: it fills the slice it is given, which keeps its length, and says
how many bytes it wrote. -/
abbrev BodyWriter :=
  (tail : Bytes) → Except BmWireError ({ b : Bytes // b.length = tail.length } × Nat)

/-- The header before its checksum is known. The unused fields are zero. -/
def serializedHeader (messageType : MessageType) (seqNum : UInt32) : BcmpHeader :=
  { messageType, checksum := 0, seqNum }

def serializeInPlace (frame : Bytes) (messageType : MessageType) (seqNum : UInt32)
    (bodyLen : Nat) : Except BmWireError Bytes := do
  let payloadLen := bcmpHeaderLen + bodyLen
  if frame.length < bcmpHeaderOffset + payloadLen then .error .truncated
  else
    let encoded ← (serializedHeader messageType seqNum).encode (frame.drop bcmpHeaderOffset)
    let frame := frame.copyAt bcmpHeaderOffset encoded
    let src := readAddr frame ipv6SourceAddressOffset
    let dst := readAddr frame ipv6DestinationAddressOffset
    let checksum := ipv6PseudoChecksum src dst ipProtoBcmp (frame.slice bcmpHeaderOffset payloadLen)
    .ok (frame.copyAt bcmpChecksumOffset (u16ToLe checksum))

/-- The buffer after the call, and the frame's length in it. -/
def build (buf : Bytes) (nodeId : UInt64) (dst : BmIpAddr) (messageType : MessageType)
    (seqNum : UInt32) (body : BodyWriter) : Except BmWireError (Bytes × Nat) := do
  let bodyAt := bcmpHeaderOffset + bcmpHeaderLen
  if buf.length < bodyAt then .error .truncated
  else
    let (written, bodyLen) ← body (buf.drop bodyAt)
    let buf := buf.copyAt bodyAt written
    let payloadLen := bcmpHeaderLen + bodyLen
    let src := nodeidToIp linkLocalPrefix nodeId
    let buf ← writeHeaders buf src dst ipProtoBcmp hopLimit payloadLen
    let frameLen := minFrameWithAddresses + payloadLen
    if buf.length < frameLen then .error .truncated
    else
      let frame ← serializeInPlace (buf.take frameLen) messageType seqNum bodyLen
      .ok (buf.copyAt 0 frame, frameLen)

/-! ### Receive -/

inductive RxError where
  | truncated
  | notIpv6
  | notBcmp
  | badChecksum
deriving DecidableEq

structure Received where
  header : BcmpHeader
  payload : Bytes
  src : BmIpAddr
  dst : BmIpAddr
  ingressPort : UInt8
deriving DecidableEq

@[simp] def legacyPortClearOffset : Nat := ipv6SourceAddressOffset + 4

/-- The second half of `accept`, once the headers have been checked. -/
def processReceivedMessage (frame : Bytes) (payloadLen : Nat) : Bytes × Except RxError Received :=
  let ingressPort := (frame.byteAt ipv6IngressEgressPortsOffset >>> 4) &&& 0x0F
  let frame := frame.copyAt legacyPortClearOffset [0, 0]
  let frame := frame.copyAt ipv6IngressEgressPortsOffset
    [frame.byteAt ipv6IngressEgressPortsOffset &&& 0x0F]
  let checksumRead := u16At frame bcmpChecksumOffset
  let frame := frame.copyAt bcmpChecksumOffset [0, 0]
  let src := readAddr frame ipv6SourceAddressOffset
  let dst := readAddr frame ipv6DestinationAddressOffset
  let checksumCalc := ipv6PseudoChecksum src dst ipProtoBcmp (frame.slice bcmpHeaderOffset payloadLen)
  -- The field is deliberately not restored on a mismatch.
  if checksumCalc ≠ checksumRead then (frame, .error .badChecksum)
  else
    let frame := frame.copyAt bcmpChecksumOffset (u16ToLe checksumRead)
    let bcmp := frame.slice bcmpHeaderOffset payloadLen
    match BcmpHeader.decode bcmp with
    | .ok header => (frame, .ok ⟨header, bcmp.drop bcmpHeaderLen, src, dst, ingressPort⟩)
    | .error _ => (frame, .error .truncated)

/-- The frame as the call leaves it, and its result. -/
def accept (frame : Bytes) : Bytes × Except RxError Received :=
  if frame.length < minFrameWithAddresses then (frame, .error .truncated)
  else if ethernetType frame ≠ some ethernetTypeIpv6 then (frame, .error .notIpv6)
  else
    let payloadLen := (u16FromBe (frame.slice ipv6PayloadLengthOffset 2)).toNat
    if payloadLen + minFrameWithAddresses > frame.length then (frame, .error .truncated)
    else if frame.byteAt ipv6NextHeaderOffset ≠ ipProtoBcmp then (frame, .error .notBcmp)
    else if payloadLen < bcmpHeaderLen then (frame, .error .truncated)
    else processReceivedMessage frame payloadLen

end Bristlemouth
