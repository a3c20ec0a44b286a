import Bristlemouth.Wire.Le

/-!
# DFU bodies

`dfu.rs`: the ten bodies `0xD0` to `0xD9`, their layout, and the constants the
two roles share.
-/

set_option autoImplicit false

namespace Bristlemouth.Dfu

/-- The longest chunk a client accepts and a host may be asked to send. -/
@[simp] def dfuMaxChunkSize : Nat := 1024

/-- A filter key that makes a client accept an image whose SHA matches its own. -/
def imgInfoForceUpdate : UInt32 := 0x4CEDC0FE

/-- Who sent a message and who it is for, source first. -/
structure DfuAddress where
  srcNodeId : UInt64
  dstNodeId : UInt64
deriving DecidableEq

namespace DfuAddress

@[simp] def len : Nat := 16

def toBytes (a : DfuAddress) : Bytes := u64ToLe a.srcNodeId ++ u64ToLe a.dstNodeId

def decode (buf : Bytes) : Except BmWireError DfuAddress := do
  let b ← lePrefix len buf
  .ok ⟨u64At b 0, u64At b 8⟩

/-- The address of any body, one byte in whatever the type byte says. -/
def ofBody (body : Bytes) : Except BmWireError DfuAddress :=
  if body.length < 1 then .error .truncated else decode (body.drop 1)

end DfuAddress

/-- The image a `0xD0` offers. -/
structure ImgInfo where
  imageSize : UInt32
  chunkSize : UInt16
  crc16 : UInt16
  majorVer : UInt8
  minorVer : UInt8
  filterKey : UInt32
  gitSha : UInt32
deriving DecidableEq

namespace ImgInfo

/-- Also where a host's stored image begins after its header. -/
@[simp] def len : Nat := 18

def toBytes (i : ImgInfo) : Bytes :=
  u32ToLe i.imageSize ++ (u16ToLe i.chunkSize ++ (u16ToLe i.crc16 ++
    ([i.majorVer, i.minorVer] ++ (u32ToLe i.filterKey ++ u32ToLe i.gitSha))))

def decode (buf : Bytes) : Except BmWireError ImgInfo := do
  let b ← lePrefix len buf
  .ok {
    imageSize := u32At b 0
    chunkSize := u16At b 4
    crc16 := u16At b 6
    majorVer := b.byteAt 8
    minorVer := b.byteAt 9
    filterKey := u32At b 10
    gitSha := u32At b 14 }

end ImgInfo

structure DfuStart where
  addresses : DfuAddress
  imgInfo : ImgInfo
deriving DecidableEq

structure DfuChunkRequest where
  addresses : DfuAddress
  seqNum : UInt16
deriving DecidableEq

structure DfuChunk where
  addresses : DfuAddress
  payload : Bytes
deriving DecidableEq

structure DfuResult where
  addresses : DfuAddress
  success : UInt8
  errCode : UInt8
deriving DecidableEq

/-- One body, keyed on its `frame_type` byte. -/
inductive DfuMessage where
  | start (m : DfuStart)
  | payloadReq (m : DfuChunkRequest)
  | payload (m : DfuChunk)
  | updateEnd (m : DfuResult)
  | ack (m : DfuResult)
  | abort (m : DfuResult)
  | heartbeat (a : DfuAddress)
  | rebootReq (a : DfuAddress)
  | reboot (a : DfuAddress)
  | bootComplete (a : DfuAddress)
deriving DecidableEq

namespace DfuMessage

/-- `frame_type` and an address. -/
@[simp] def minLen : Nat := 1 + DfuAddress.len

@[simp] def startLen : Nat := minLen + ImgInfo.len

@[simp] def withTwoBytesLen : Nat := minLen + 2

/-- The longest body DFU sends, a `0xD2` of a whole chunk. -/
@[simp] def longestLen : Nat := withTwoBytesLen + dfuMaxChunkSize

/-- The longest payload the length field describes. -/
def maxPayloadLen : Nat := 65535

/-- `message_type`, as the body's first byte. -/
def frameType : DfuMessage → UInt8
  | start _ => 0xD0
  | payloadReq _ => 0xD1
  | payload _ => 0xD2
  | updateEnd _ => 0xD3
  | ack _ => 0xD4
  | abort _ => 0xD5
  | heartbeat _ => 0xD6
  | rebootReq _ => 0xD7
  | reboot _ => 0xD8
  | bootComplete _ => 0xD9

def addresses : DfuMessage → DfuAddress
  | start m => m.addresses
  | payloadReq m => m.addresses
  | payload m => m.addresses
  | updateEnd m | ack m | abort m => m.addresses
  | heartbeat a | rebootReq a | reboot a | bootComplete a => a

def encodedLen : DfuMessage → Nat
  | start _ => startLen
  | payload m => withTwoBytesLen + m.payload.length
  | payloadReq _ | updateEnd _ | ack _ | abort _ => withTwoBytesLen
  | heartbeat _ | rebootReq _ | reboot _ | bootComplete _ => minLen

/-- What follows the address. -/
def tail : DfuMessage → Bytes
  | start m => m.imgInfo.toBytes
  | payloadReq m => u16ToLe m.seqNum
  | payload m => u16ToLe (UInt16.ofNat m.payload.length) ++ m.payload
  | updateEnd m | ack m | abort m => [m.success, m.errCode]
  | heartbeat _ | rebootReq _ | reboot _ | bootComplete _ => []

def toBytes (m : DfuMessage) : Bytes := m.frameType :: (m.addresses.toBytes ++ m.tail)

/-- The buffer after the call, and the bytes written to its start. -/
def encode (m : DfuMessage) (buf : Bytes) : Except BmWireError (Bytes × Nat) :=
  let tooLong := match m with
    | payload c => decide (c.payload.length > maxPayloadLen)
    | _ => false
  if tooLong then .error .invalid
  else if buf.length < m.encodedLen then .error .truncated
  else .ok (buf.copyAt 0 m.toBytes, m.encodedLen)

def decode (body : Bytes) : Except BmWireError DfuMessage := do
  let frameType ← match body.head? with
    | some b => .ok b
    | none => .error .truncated
  let addresses ← DfuAddress.ofBody body
  let tail := body.drop minLen
  let result (_ : Unit) : Except BmWireError DfuResult := do
    let two ← lePrefix 2 tail
    .ok ⟨addresses, two.byteAt 0, two.byteAt 1⟩
  if frameType = 0xD0 then
    let info ← ImgInfo.decode tail
    .ok (start ⟨addresses, info⟩)
  else if frameType = 0xD1 then
    let two ← lePrefix 2 tail
    .ok (payloadReq ⟨addresses, u16FromLe two⟩)
  else if frameType = 0xD2 then
    let two ← lePrefix 2 tail
    match Bytes.slice? tail 2 (u16FromLe two).toNat with
    | some chunk => .ok (payload ⟨addresses, chunk⟩)
    | none => .error .truncated
  else if frameType = 0xD3 then do
    let r ← result ()
    .ok (updateEnd r)
  else if frameType = 0xD4 then do
    let r ← result ()
    .ok (ack r)
  else if frameType = 0xD5 then do
    let r ← result ()
    .ok (abort r)
  else if frameType = 0xD6 then .ok (heartbeat addresses)
  else if frameType = 0xD7 then .ok (rebootReq addresses)
  else if frameType = 0xD8 then .ok (reboot addresses)
  else if frameType = 0xD9 then .ok (bootComplete addresses)
  else .error .invalid

end DfuMessage

/-! ### Encodings -/

@[simp] theorem DfuAddress.length_toBytes (a : DfuAddress) : a.toBytes.length = DfuAddress.len := by
  simp [DfuAddress.toBytes]

@[simp] theorem ImgInfo.length_toBytes (i : ImgInfo) : i.toBytes.length = ImgInfo.len := by
  simp [ImgInfo.toBytes]

theorem DfuMessage.length_toBytes (m : DfuMessage) : m.toBytes.length = m.encodedLen := by
  cases m <;> simp [DfuMessage.toBytes, DfuMessage.encodedLen, DfuMessage.tail]; omega

theorem DfuAddress.decode_toBytes_append (a : DfuAddress) (rest : Bytes) :
    DfuAddress.decode (a.toBytes ++ rest) = .ok a := by
  have htake : (a.toBytes ++ rest).take DfuAddress.len = a.toBytes := by
    rw [List.take_append_of_le_length (by simp), List.take_of_length_le (by simp)]
  rw [decode, lePrefix, if_pos (by simp), htake]
  simp [bind, Except.bind, toBytes, u64At, Bytes.slice_append_right, Bytes.slice_append_self,
    Bytes.slice_of_length]

theorem ImgInfo.decode_toBytes_append (i : ImgInfo) (rest : Bytes) :
    ImgInfo.decode (i.toBytes ++ rest) = .ok i := by
  have htake : (i.toBytes ++ rest).take ImgInfo.len = i.toBytes := by
    rw [List.take_append_of_le_length (by simp), List.take_of_length_le (by simp)]
  rw [decode, lePrefix, if_pos (by simp), htake]
  simp [bind, Except.bind, toBytes, u16At, u32At, Bytes.slice_append_right, Bytes.slice_append_self,
    Bytes.slice_of_length, Bytes.byteAt_append_right]

/-- The address of an encoded body is the message's. -/
theorem DfuMessage.ofBody_toBytes (m : DfuMessage) : DfuAddress.ofBody m.toBytes = .ok m.addresses := by
  rw [DfuAddress.ofBody, if_neg (by simp [toBytes]), toBytes, List.drop_succ_cons, List.drop_zero,
    DfuAddress.decode_toBytes_append]

theorem DfuMessage.drop_toBytes (m : DfuMessage) : m.toBytes.drop minLen = m.tail := by
  rw [toBytes, minLen, Nat.add_comm 1, List.drop_succ_cons, ← m.addresses.length_toBytes, List.drop_left]

@[simp] theorem DfuMessage.head?_toBytes (m : DfuMessage) : m.toBytes.head? = some m.frameType := rfl

end Bristlemouth.Dfu
