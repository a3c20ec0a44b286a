import Bristlemouth.Bcmp.Packet

/-!
# Request bodies

The encoders of the requests a node sends: `ping.rs`, `time.rs`, `heartbeat.rs`
and the requests of `config.rs`, `info.rs`, `neighbors.rs` and `resource.rs`.
-/

set_option autoImplicit false

namespace Bristlemouth

/-- `bytes` into the front of the buffer, which has to hold them. -/
def writeBody (bytes : Bytes) : BodyWriter := fun tail =>
  if h : bytes.length ≤ tail.length then
    .ok (⟨tail.copyAt 0 bytes, Bytes.length_copyAt _ _ _ (by omega)⟩, bytes.length)
  else .error .truncated

namespace MessageType

def heartbeat : MessageType := ⟨0x01⟩
def echoRequest : MessageType := ⟨0x02⟩
def deviceInfoRequest : MessageType := ⟨0x04⟩
def neighborTableRequest : MessageType := ⟨0x08⟩
def resourceTableRequest : MessageType := ⟨0x0A⟩
def systemTimeRequest : MessageType := ⟨0x10⟩
def systemTimeSet : MessageType := ⟨0x12⟩
def configGet : MessageType := ⟨0xA0⟩
def configSet : MessageType := ⟨0xA2⟩
def configCommit : MessageType := ⟨0xA3⟩
def configStatusRequest : MessageType := ⟨0xA4⟩
def configDeleteRequest : MessageType := ⟨0xA6⟩
def configClearRequest : MessageType := ⟨0xA8⟩

end MessageType

structure Heartbeat where
  timeSinceBootUs : UInt64
  livelinessLeaseDurS : UInt32

def Heartbeat.len : Nat := 12

def Heartbeat.encode (h : Heartbeat) : BodyWriter :=
  writeBody (u64ToLe h.timeSinceBootUs ++ u32ToLe h.livelinessLeaseDurS)

def heartbeatPeriodS : UInt32 := 10

def heartbeatFor (uptimeMs leaseDurationS : UInt32) : Heartbeat :=
  { timeSinceBootUs := uptimeMs.toUInt64 * 1000, livelinessLeaseDurS := leaseDurationS }

def echoHeaderLen : Nat := 14
def maxEchoPayload : Nat := 65535

structure EchoRequest where
  targetNodeId : UInt64
  id : UInt16
  seqNum : UInt16
  payload : Bytes

def EchoRequest.encode (r : EchoRequest) : BodyWriter :=
  if r.payload.length > maxEchoPayload then fun _ => .error .invalid
  else
    writeBody (u64ToLe r.targetNodeId ++ (u16ToLe r.id ++ (u16ToLe r.seqNum ++
      (u16ToLe (UInt16.ofNat r.payload.length) ++ r.payload))))

/-- `DeviceInfoRequest`, `NeighborTableRequest` and `ResourceTableRequest`: the node that is asked. -/
def targetRequestBytes (targetNodeId : UInt64) : Bytes := u64ToLe targetNodeId

def systemTimeRequestBytes (targetNodeId sourceNodeId : UInt64) : Bytes :=
  u64ToLe targetNodeId ++ u64ToLe sourceNodeId

def systemTimeSetBytes (targetNodeId sourceNodeId utcTimeUs : UInt64) : Bytes :=
  systemTimeRequestBytes targetNodeId sourceNodeId ++ u64ToLe utcTimeUs

/-! ### Config requests -/

def maxKeyLen : Nat := 32

inductive Partition where
  | user
  | system
  | hardware
deriving DecidableEq

/-- The partition's byte on the wire. -/
def Partition.toUInt8 : Partition → UInt8
  | .user => 0
  | .system => 1
  | .hardware => 2

structure ConfigHeader where
  targetNodeId : UInt64
  sourceNodeId : UInt64

def ConfigHeader.toBytes (h : ConfigHeader) : Bytes := u64ToLe h.targetNodeId ++ u64ToLe h.sourceNodeId

@[simp] theorem ConfigHeader.length_toBytes (h : ConfigHeader) : h.toBytes.length = 16 := by
  simp [toBytes]

/-- `ConfigGet` and `ConfigDeleteRequest`. -/
structure ConfigKeyRequest where
  header : ConfigHeader
  partitionByte : UInt8
  key : Bytes

namespace ConfigKeyRequest

def headLen : Nat := 18

def len (r : ConfigKeyRequest) : Nat := headLen + r.key.length

def encode (r : ConfigKeyRequest) : BodyWriter :=
  -- The key length is one byte.
  if r.key.length > 255 then fun _ => .error .invalid
  else writeBody (r.header.toBytes ++ ([r.partitionByte, UInt8.ofNat r.key.length] ++ r.key))

end ConfigKeyRequest

structure ConfigSet where
  header : ConfigHeader
  partitionByte : UInt8
  key : Bytes
  data : Bytes

namespace ConfigSet

def headLen : Nat := 22

def len (r : ConfigSet) : Nat := headLen + r.key.length + r.data.length

def encode (r : ConfigSet) : BodyWriter :=
  if r.key.length > 255 then fun _ => .error .invalid
  else if r.data.length > 0xFFFFFFFF then fun _ => .error .invalid
  else
    writeBody (r.header.toBytes ++ ([r.partitionByte, UInt8.ofNat r.key.length] ++
      (u32ToLe (UInt32.ofNat r.data.length) ++ (r.key ++ r.data))))

end ConfigSet

/-- `ConfigCommit`, `ConfigStatusRequest` and `ConfigClearRequest`. -/
structure ConfigPartitionRequest where
  header : ConfigHeader
  partitionByte : UInt8

namespace ConfigPartitionRequest

def len : Nat := 17

def encode (r : ConfigPartitionRequest) : BodyWriter :=
  writeBody (r.header.toBytes ++ [r.partitionByte])

end ConfigPartitionRequest

/-! ### What an encoder writes -/

/-- `writer` fills the front of every buffer of at least `n` bytes with `n` bytes. -/
def WritesWithin (writer : BodyWriter) (n : Nat) : Prop :=
  ∀ tail : Bytes, n ≤ tail.length → ∃ written, writer tail = .ok (written, n)

theorem writesWithin_writeBody (bytes : Bytes) : WritesWithin (writeBody bytes) bytes.length := by
  intro tail hfit
  exact ⟨_, dif_pos hfit⟩

theorem EchoRequest.writesWithin {r : EchoRequest} (h : r.payload.length ≤ maxEchoPayload) :
    WritesWithin r.encode (echoHeaderLen + r.payload.length) := by
  have hlen : (u64ToLe r.targetNodeId ++ (u16ToLe r.id ++ (u16ToLe r.seqNum ++
      (u16ToLe (UInt16.ofNat r.payload.length) ++ r.payload)))).length =
        echoHeaderLen + r.payload.length := by
    simp [echoHeaderLen]
    omega
  rw [EchoRequest.encode, if_neg (by omega), ← hlen]
  exact writesWithin_writeBody _

theorem Heartbeat.writesWithin (h : Heartbeat) : WritesWithin h.encode Heartbeat.len := by
  have hlen : (u64ToLe h.timeSinceBootUs ++ u32ToLe h.livelinessLeaseDurS).length = Heartbeat.len := by
    simp [Heartbeat.len]
  rw [Heartbeat.encode, ← hlen]
  exact writesWithin_writeBody _

theorem ConfigKeyRequest.writesWithin {r : ConfigKeyRequest} (h : r.key.length ≤ 255) :
    WritesWithin r.encode r.len := by
  have hlen : (r.header.toBytes ++ ([r.partitionByte, UInt8.ofNat r.key.length] ++ r.key)).length =
      r.len := by
    simp [ConfigKeyRequest.len, headLen]
    omega
  rw [ConfigKeyRequest.encode, if_neg (by omega), ← hlen]
  exact writesWithin_writeBody _

theorem ConfigSet.writesWithin {r : ConfigSet} (hkey : r.key.length ≤ 255)
    (hdata : r.data.length ≤ 0xFFFFFFFF) : WritesWithin r.encode r.len := by
  have hlen : (r.header.toBytes ++ ([r.partitionByte, UInt8.ofNat r.key.length] ++
      (u32ToLe (UInt32.ofNat r.data.length) ++ (r.key ++ r.data)))).length = r.len := by
    simp [ConfigSet.len, headLen]
    omega
  rw [ConfigSet.encode, if_neg (by omega), if_neg (by omega), ← hlen]
  exact writesWithin_writeBody _

theorem ConfigPartitionRequest.writesWithin (r : ConfigPartitionRequest) :
    WritesWithin r.encode ConfigPartitionRequest.len := by
  have hlen : (r.header.toBytes ++ [r.partitionByte]).length = ConfigPartitionRequest.len := by
    simp [ConfigPartitionRequest.len]
  rw [ConfigPartitionRequest.encode, ← hlen]
  exact writesWithin_writeBody _

end Bristlemouth
