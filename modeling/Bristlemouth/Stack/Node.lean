import Bristlemouth.Bcmp.Bodies
import Bristlemouth.Bcmp.Registry
import Bristlemouth.Stack.Held
import Bristlemouth.Stack.Reflood
import Bristlemouth.Stack.Relay
import Bristlemouth.Wire.Udp

/-!
# The node

`node.rs` with `registry.rs`, `bcmp.rs` and `config.rs` of `node`: every way a
node sends a message, and what it does with a received frame, a tick and a
sweep. What the modules behind the registry make of a message is a parameter.
-/

set_option autoImplicit false

namespace Bristlemouth

/-- How many message types a node's registry holds. -/
def messageTypes : Nat := 40

/-- The one ping the node remembers, in a buffer of `capacity` bytes. -/
structure PingState where
  seq : UInt32
  sentAtMs : UInt32
  expected : Option Bytes
  capacity : Nat
deriving DecidableEq

namespace PingState

def new (capacity : Nat) : PingState := { seq := 0, sentAtMs := 0, expected := none, capacity }

/-- The old expectation goes whether or not a new one replaces it. -/
def remember (p : PingState) (payload : Bytes) : PingState :=
  { p with expected := if payload = [] then none else some payload }

end PingState

/-- What `serialize` decided for an outgoing message. -/
structure Stamp where
  seqNum : UInt32
  mask : UInt16
  tracked : Bool
deriving DecidableEq

/-- A received message to put back on every other port: a range of the frame it came in. -/
structure Reflood where
  start : Nat
  stop : Nat
  ingressPort : UInt8
deriving DecidableEq

structure Owed where
  relay : Option Outbound
  reply : Option Outbound
  forward : Option Reflood
deriving DecidableEq

/-- What the registry lets the application see. -/
inductive NodeEvent where
  | reply (request : PendingRequest) (messageType : MessageType) (source : UInt64) (payload : Bytes)
  | message (messageType : MessageType) (seqNum : UInt32) (source : UInt64) (payload : Bytes)
  | timeout (request : PendingRequest)
deriving DecidableEq

/-- What a module has the node do about a message it was given. -/
inductive Reaction where
  | ignore
  /-- A neighbour is new or has restarted. -/
  | requestDeviceInfo (targetNodeId : UInt64)
  /-- An answer of `bcmp.rs`, whose body is written once it has its number. -/
  | respond (dst : BmIpAddr) (messageType : MessageType) (replySeqNum : UInt32) (body : BodyWriter)
  /-- An answer of `config.rs`, whose length is known before. -/
  | sendMulticast (messageType : MessageType) (replySeqNum : UInt32) (bodyLen : Nat)
      (body : BodyWriter)
  /-- The message names another node. -/
  | forward

inductive InfoRequestKind where
  | cache
  | report
deriving DecidableEq

inductive TableRequestKind where
  | ignore
  | report
deriving DecidableEq

inductive ResourceRequestKind where
  | ignore
  | report
deriving DecidableEq

/-- The rest of a node, with states `M`: neighbours, the lists of unanswered requests, resources,
configuration, clock, subscriptions and services. -/
structure Modules (M : Type) where
  onDatagram : M → UInt32 → Datagram → M × Option Outbound
  process : M → UInt32 → UInt8 → Received → M × Reaction
  checkNeighbors : M → UInt32 → M
  onNeighborRequestTimer : M → UInt32 → M
  onServiceExpiry : M → UInt32 → M
  /-- Whether there was room to record the request. -/
  recordInfo : M → UInt64 → InfoRequestKind → M × Bool
  takeInfo : M → UInt64 → M
  recordTable : M → UInt32 → UInt64 → TableRequestKind → M
  recordResource : M → UInt64 → ResourceRequestKind → M

structure Node (M : Type) (PENDING : Nat) where
  nodeId : UInt64
  portCount : UInt8
  registry : Registry messageTypes PENDING
  held : HeldRequests
  ping : PingState
  modules : M

/-- `tx::build`, keeping the frame of a tracked request. -/
def buildOutbound (tx : Bytes) (held : HeldRequests) (nodeId : UInt64) (dst : BmIpAddr)
    (messageType : MessageType) (stamp : Stamp) (body : BodyWriter) : HeldRequests × Option Outbound :=
  match build tx nodeId dst messageType stamp.seqNum body with
  | .error _ => (held, none)
  | .ok (tx, frameLen) =>
    let frame := tx.take frameLen
    (if stamp.tracked then held.hold stamp.seqNum frame else held, some ⟨frame, stamp.mask⟩)

namespace Node

variable {M : Type} {PENDING : Nat}

/-- What `Node::new` registers, in its order. -/
def registrations : List (MessageType × PacketCfg) :=
  [(⟨0x01⟩, .unsequenced), (⟨0x02⟩, .unsequenced), (⟨0x03⟩, .unsequenced), (⟨0x10⟩, .unsequenced),
    (⟨0x11⟩, .unsequenced), (⟨0x12⟩, .unsequenced),
    (⟨0xD0⟩, .unsequenced), (⟨0xD1⟩, .unsequenced), (⟨0xD2⟩, .unsequenced), (⟨0xD3⟩, .unsequenced),
    (⟨0xD4⟩, .unsequenced), (⟨0xD5⟩, .unsequenced), (⟨0xD6⟩, .unsequenced), (⟨0xD7⟩, .unsequenced),
    (⟨0xD8⟩, .unsequenced), (⟨0xD9⟩, .unsequenced), (⟨0xD9⟩, .unsequenced),
    (⟨0xA0⟩, .request), (⟨0xA2⟩, .request), (⟨0xA3⟩, .unsequenced), (⟨0xA4⟩, .request),
    (⟨0xA5⟩, .reply), (⟨0xA6⟩, .request), (⟨0xA7⟩, .reply), (⟨0xA8⟩, .request), (⟨0xA9⟩, .reply),
    (⟨0xA1⟩, .reply),
    (⟨0x08⟩, .unsequenced), (⟨0x09⟩, .unsequenced), (⟨0x04⟩, .unsequenced), (⟨0x05⟩, .unsequenced),
    (⟨0x0A⟩, .unsequenced), (⟨0x0B⟩, .unsequenced)]

def new (nodeId : UInt64) (portCount : UInt8) (pingPayload : Nat) (modules : M) : Node M PENDING :=
  { nodeId, portCount
    registry := registrations.foldl (fun r entry => (r.add entry.1 entry.2).1) .new
    held := .new (List.replicate PENDING .empty)
    ping := .new pingPayload
    modules }

def allPorts (node : Node M PENDING) : UInt16 := allPortsMask node.portCount

def register (node : Node M PENDING) (messageType : MessageType) (cfg : PacketCfg) :
    Node M PENDING × Except RegistryError Unit :=
  let (registry, result) := node.registry.add messageType cfg
  ({ node with registry }, result)

def unregister (node : Node M PENDING) (messageType : MessageType) : Node M PENDING × Bool :=
  let (registry, removed) := node.registry.remove messageType
  ({ node with registry }, removed)

def nextRetransmission (node : Node M PENDING) : Node M PENDING × Option Outbound :=
  let (held, frame) := node.held.nextDue
  ({ node with held }, frame.map fun frame => ⟨frame, node.allPorts⟩)

/-! ### Sending

Every call is handed the transmit buffer as it finds it. -/

def outgoing (node : Node M PENDING) (nowMs : UInt32) (messageType : MessageType)
    (replySeqNum : UInt32) : Node M PENDING × Option Stamp :=
  match node.registry.onSerialize nowMs messageType replySeqNum with
  | (registry, .error _) => ({ node with registry }, none)
  | (registry, .ok outgoing) =>
    ({ node with registry }, some ⟨outgoing.seqNum, node.allPorts, outgoing.tracked⟩)

/-- How `ping`, the heartbeat and the answers of `bcmp.rs` go out. -/
def respond (node : Node M PENDING) (tx : Bytes) (nowMs : UInt32) (dst : BmIpAddr)
    (messageType : MessageType) (replySeqNum : UInt32) (body : BodyWriter) :
    Node M PENDING × Option Outbound :=
  match node.outgoing nowMs messageType replySeqNum with
  | (node, none) => (node, none)
  | (node, some stamp) =>
    let (held, outbound) := buildOutbound tx node.held node.nodeId dst messageType stamp body
    ({ node with held }, outbound)

/-- The size is checked before the registry is asked. -/
def sendWith (node : Node M PENDING) (tx : Bytes) (nowMs : UInt32) (dst : BmIpAddr)
    (messageType : MessageType) (replySeqNum : UInt32) (bodyLen : Nat) (encode : BodyWriter) :
    Node M PENDING × Option Outbound :=
  if minFrameWithAddresses + bcmpHeaderLen + bodyLen > mtu then (node, none)
  else node.respond tx nowMs dst messageType replySeqNum encode

def sendMulticast (node : Node M PENDING) (tx : Bytes) (nowMs : UInt32) (messageType : MessageType)
    (replySeqNum : UInt32) (bodyLen : Nat) (encode : BodyWriter) : Node M PENDING × Option Outbound :=
  node.sendWith tx nowMs .linkLocalMulticast messageType replySeqNum bodyLen encode

def send (node : Node M PENDING) (tx : Bytes) (nowMs : UInt32) (dst : BmIpAddr)
    (messageType : MessageType) (body : Bytes) (replySeqNum : UInt32) :
    Node M PENDING × Option Outbound :=
  node.sendWith tx nowMs dst messageType replySeqNum body.length (writeBody body)

def request (node : Node M PENDING) (tx : Bytes) (nowMs : UInt32) (dst : BmIpAddr)
    (messageType : MessageType) (body : Bytes) : Node M PENDING × Option Outbound :=
  node.send tx nowMs dst messageType body 0

def sendPing (node : Node M PENDING) (tx : Bytes) (nowMs : UInt32) (dst : BmIpAddr)
    (targetNodeId : UInt64) (payload : Bytes) : Node M PENDING × Option Outbound :=
  if payload.length > node.ping.capacity ∨ payload.length > maxEchoPayload then (node, none)
  else
    let request : EchoRequest :=
      { targetNodeId, id := node.nodeId.toUInt16, seqNum := node.ping.seq.toUInt16, payload }
    let ping := { node.ping with seq := node.ping.seq + 1 }
    let ping := { ping.remember payload with sentAtMs := nowMs }
    { node with ping }.respond tx nowMs dst .echoRequest 0 request.encode

def requestSystemTime (node : Node M PENDING) (tx : Bytes) (nowMs : UInt32) (targetNodeId : UInt64) :
    Node M PENDING × Option Outbound :=
  node.request tx nowMs .linkLocalMulticast .systemTimeRequest
    (systemTimeRequestBytes targetNodeId node.nodeId)

def setSystemTime (node : Node M PENDING) (tx : Bytes) (nowMs : UInt32)
    (targetNodeId utcTimeUs : UInt64) : Node M PENDING × Option Outbound :=
  node.request tx nowMs .linkLocalMulticast .systemTimeSet
    (systemTimeSetBytes targetNodeId node.nodeId utcTimeUs)

/-- The record is dropped again if nothing can be sent. -/
def requestDeviceInfo (m : Modules M) (node : Node M PENDING) (tx : Bytes) (nowMs : UInt32)
    (targetNodeId : UInt64) (kind : InfoRequestKind) : Node M PENDING × Option Outbound :=
  let (modules, recorded) := m.recordInfo node.modules targetNodeId kind
  if node.registry.cfg .deviceInfoRequest = none then
    ({ node with modules := if recorded then m.takeInfo modules targetNodeId else modules }, none)
  else
    { node with modules }.request tx nowMs .linkLocalMulticast .deviceInfoRequest
      (targetRequestBytes targetNodeId)

/-- The request is recorded whether or not it is sent. -/
def requestNeighborTable (m : Modules M) (node : Node M PENDING) (tx : Bytes) (nowMs : UInt32)
    (dst : BmIpAddr) (targetNodeId : UInt64) (kind : TableRequestKind) :
    Node M PENDING × Option Outbound :=
  { node with modules := m.recordTable node.modules nowMs targetNodeId kind }.request tx nowMs dst
    .neighborTableRequest (targetRequestBytes targetNodeId)

/-- The request is recorded only if it is sent. -/
def requestResourceTable (m : Modules M) (node : Node M PENDING) (tx : Bytes) (nowMs : UInt32)
    (targetNodeId : UInt64) (kind : ResourceRequestKind) : Node M PENDING × Option Outbound :=
  if node.registry.cfg .resourceTableRequest = none then (node, none)
  else
    { node with modules := m.recordResource node.modules targetNodeId kind }.request tx nowMs
      .linkLocalMulticast .resourceTableRequest (targetRequestBytes targetNodeId)

def configHeader (node : Node M PENDING) (targetNodeId : UInt64) : ConfigHeader :=
  { targetNodeId, sourceNodeId := node.nodeId }

def configGet (node : Node M PENDING) (tx : Bytes) (nowMs : UInt32) (targetNodeId : UInt64)
    (part : Partition) (key : Bytes) : Node M PENDING × Option Outbound :=
  if key.length > maxKeyLen then (node, none)
  else
    let get : ConfigKeyRequest := ⟨node.configHeader targetNodeId, part.toUInt8, key⟩
    node.sendMulticast tx nowMs .configGet 0 get.len get.encode

def configSet (node : Node M PENDING) (tx : Bytes) (nowMs : UInt32) (targetNodeId : UInt64)
    (part : Partition) (key value : Bytes) : Node M PENDING × Option Outbound :=
  if key.length > maxKeyLen then (node, none)
  else
    let set : ConfigSet := ⟨node.configHeader targetNodeId, part.toUInt8, key, value⟩
    node.sendMulticast tx nowMs .configSet 0 set.len set.encode

def configPartitionRequest (node : Node M PENDING) (tx : Bytes) (nowMs : UInt32)
    (messageType : MessageType) (targetNodeId : UInt64) (part : Partition) :
    Node M PENDING × Option Outbound :=
  let request : ConfigPartitionRequest := ⟨node.configHeader targetNodeId, part.toUInt8⟩
  node.sendMulticast tx nowMs messageType 0 ConfigPartitionRequest.len request.encode

def configCommit (node : Node M PENDING) (tx : Bytes) (nowMs : UInt32) (targetNodeId : UInt64)
    (part : Partition) : Node M PENDING × Option Outbound :=
  node.configPartitionRequest tx nowMs .configCommit targetNodeId part

def configStatusRequest (node : Node M PENDING) (tx : Bytes) (nowMs : UInt32) (targetNodeId : UInt64)
    (part : Partition) : Node M PENDING × Option Outbound :=
  node.configPartitionRequest tx nowMs .configStatusRequest targetNodeId part

/-- The key is not bounded here, and the encoder refuses one over 255 bytes. -/
def configDeleteKey (node : Node M PENDING) (tx : Bytes) (nowMs : UInt32) (targetNodeId : UInt64)
    (part : Partition) (key : Bytes) : Node M PENDING × Option Outbound :=
  let request : ConfigKeyRequest := ⟨node.configHeader targetNodeId, part.toUInt8, key⟩
  node.sendMulticast tx nowMs .configDeleteRequest 0 request.len request.encode

def configClearPartition (node : Node M PENDING) (tx : Bytes) (nowMs : UInt32) (targetNodeId : UInt64)
    (part : Partition) : Node M PENDING × Option Outbound :=
  node.configPartitionRequest tx nowMs .configClearRequest targetNodeId part

/-! ### Receiving -/

/-- The node, the frame and the answer `submit` leaves. -/
structure Submitted (M : Type) (PENDING : Nat) where
  node : Node M PENDING
  frame : Bytes
  reply : Option Outbound
  forward : Option Reflood
  events : List NodeEvent

/-- The module's decision, carried out. -/
def react (m : Modules M) (node : Node M PENDING) (tx : Bytes) (nowMs : UInt32) (received : Received) :
    Reaction → Node M PENDING × Option Outbound × Option Reflood
  | .ignore => (node, none, none)
  | .requestDeviceInfo targetNodeId =>
    let (node, reply) := node.requestDeviceInfo m tx nowMs targetNodeId .cache
    (node, reply, none)
  | .respond dst messageType replySeqNum body =>
    let (node, reply) := node.respond tx nowMs dst messageType replySeqNum body
    (node, reply, none)
  | .sendMulticast messageType replySeqNum bodyLen body =>
    let (node, reply) := node.sendMulticast tx nowMs messageType replySeqNum bodyLen body
    (node, reply, none)
  | .forward =>
    (node, none, some {
      start := bcmpHeaderOffset
      stop := bcmpHeaderOffset + bcmpHeaderLen + received.payload.length
      ingressPort := received.ingressPort })

/-- The dispatch on an accepted message. -/
def dispatch (m : Modules M) (node : Node M PENDING) (tx : Bytes) (nowMs : UInt32)
    (ingressPort : UInt8) (received : Received) :
    Node M PENDING × Option Outbound × Option Reflood × List NodeEvent :=
  let messageType := received.header.messageType
  let source := received.src.toNodeId
  match node.registry.onReceived messageType received.header.seqNum with
  | (registry, .unregistered) => ({ node with registry }, none, none, [])
  | (registry, .sequencedReply request) =>
    ({ node with registry, held := node.held.release request.seqNum }, none, none,
      [.reply request messageType source received.payload])
  | (registry, .process) =>
    let (modules, reaction) := m.process node.modules nowMs ingressPort received
    let (node, reply, forward) := react m { node with registry, modules } tx nowMs received reaction
    (node, reply, forward, [.message messageType received.header.seqNum source received.payload])

def submit (m : Modules M) (node : Node M PENDING) (tx : Bytes) (nowMs : UInt32)
    (ingressPort : UInt8) (frame : Bytes) : Submitted M PENDING :=
  match Datagram.accept frame with
  | .ok datagram =>
    let (modules, reply) := m.onDatagram node.modules nowMs datagram
    ⟨{ node with modules }, frame, reply, none, []⟩
  | .error _ =>
    match accept frame with
    | (frame, .error _) => ⟨node, frame, none, none, []⟩
    | (frame, .ok received) =>
      let (node, reply, forward, events) := dispatch m node tx nowMs ingressPort received
      ⟨node, frame, reply, forward, events⟩

/-- The relay is owed before the reply, whatever becomes of the message. -/
def onFrameWith (m : Modules M) (node : Node M PENDING) (tx : Bytes) (nowMs : UInt32)
    (ingressPort : UInt8) (frame : Bytes) : Node M PENDING × Owed × List NodeEvent :=
  let ingressMask := portMask ingressPort
  let (frame, policy) := rxApply frame ingressMask node.allPorts none
  let snapshot := Snapshot.take frame
  let submitted :=
    if policy.shouldSubmit then submit m node tx nowMs ingressPort frame
    else ⟨node, frame, none, none, []⟩
  let relay :=
    if policy.egressMask ≠ 0 then
      let frame := match snapshot with
        | some snapshot => snapshot.restore submitted.frame
        | none => submitted.frame
      some ⟨prepareForwardedCopy frame, policy.egressMask⟩
    else none
  (submitted.node, ⟨relay, submitted.reply, submitted.forward⟩, submitted.events)

/-! ### Timers -/

/-- What a sweep's report makes of the held frames. -/
def heldAfter (held : HeldRequests) : Expiry → HeldRequests
  | .retry request => held.markDue request.seqNum
  | .timedOut request => held.release request.seqNum

def sweep (node : Node M PENDING) (nowMs : UInt32) : Node M PENDING × List NodeEvent :=
  let (registry, expired) := node.registry.onTick nowMs
  let held := expired.foldl heldAfter node.held
  let events := expired.filterMap fun
    | .retry _ => none
    | .timedOut request => some (.timeout request)
  ({ node with registry, held }, events)

def onTickWith (m : Modules M) (node : Node M PENDING) (tx : Bytes) (uptimeMs : UInt32) :
    Node M PENDING × Option Outbound × List NodeEvent :=
  let node := { node with modules := m.checkNeighbors node.modules uptimeMs }
  let (node, events) := node.sweep uptimeMs
  let node := { node with modules := m.onNeighborRequestTimer node.modules uptimeMs }
  let node := { node with modules := m.onServiceExpiry node.modules uptimeMs }
  let (node, heartbeat) := node.respond tx uptimeMs .linkLocalMulticast .heartbeat 0
    (heartbeatFor uptimeMs heartbeatPeriodS).encode
  (node, heartbeat, events)

def onExpiry (m : Modules M) (node : Node M PENDING) (nowMs : UInt32) :
    Node M PENDING × List NodeEvent :=
  let (node, events) := node.sweep nowMs
  ({ node with modules := m.onNeighborRequestTimer node.modules nowMs }, events)

end Node

/-! ### Relay fidelity -/

section
variable {M : Type} {PENDING : Nat} (m : Modules M) (node : Node M PENDING) (tx : Bytes)
variable (nowMs : UInt32) (ingressPort : UInt8) (frame : Bytes)

theorem submit_frame : (node.submit m tx nowMs ingressPort frame).frame = frame ∨
    (node.submit m tx nowMs ingressPort frame).frame = (accept frame).1 := by
  unfold Node.submit
  split
  · exact .inl rfl
  · split
    · rename_i heq
      exact .inr (by rw [heq])
    · rename_i heq
      exact .inr (by rw [heq])

/-- Whatever submitting did to the frame, the snapshot undoes it. -/
theorem Snapshot.restore_submitted {frame submitted : Bytes}
    (h : submitted = frame ∨ submitted = (accept frame).1) :
    (match Snapshot.take frame with
      | some snapshot => snapshot.restore submitted
      | none => submitted) = frame := by
  cases htake : Snapshot.take frame with
  | none =>
    obtain rfl | rfl := h
    · rfl
    · exact accept_unchanged htake
  | some snapshot =>
    obtain rfl | rfl := h
    · exact Snapshot.restore_take htake (Bytes.AgreesOff.refl _ submitted)
    · exact restore_accept htake

/-- A relayed frame is the received one with its ports byte cleared, and goes everywhere but where
it came from. -/
theorem relay_fidelity :
    (∀ relay, (node.onFrameWith m tx nowMs ingressPort frame).2.1.relay = some relay →
      ipv6IngressEgressPortsOffset < frame.length ∧
        relay.frame = frame.copyAt ipv6IngressEgressPortsOffset [0] ∧
        relay.mask = node.allPorts &&& ~~~portMask ingressPort ∧
        relay.mask &&& portMask ingressPort = 0) ∧
      (∀ snapshot, Snapshot.take frame = some snapshot → snapshot.restore (accept frame).1 = frame) ∧
      (Snapshot.take frame = none → (accept frame).1 = frame) := by
  refine ⟨?_, fun _ h => restore_accept h, accept_unchanged⟩
  intro relay h
  unfold Node.onFrameWith at h
  dsimp only at h
  split at h
  · rename_i hmask
    obtain ⟨hlen, ⟨ports, hframe⟩, hall⟩ := rxApply_relayed hmask
    simp at hlen
    rw [Snapshot.restore_submitted] at h
    · cases h
      refine ⟨by simp; omega, ?_, hall, ?_⟩
      · have hshort : ¬ (frame.copyAt ipv6IngressEgressPortsOffset [ports]).length <
            minFrameWithAddresses := by
          rw [Bytes.length_copyAt _ _ _ (by simp; omega)]
          simp
          omega
        dsimp only
        rw [hframe, prepareForwardedCopy, if_neg hshort,
          Bytes.copyAt_copyAt (by simp; omega) (by rfl)]
      · dsimp only
        rw [hall]
        exact and_not_and_self _ _
    · split
      · exact submit_frame m node tx nowMs ingressPort _
      · exact .inl rfl
  · cases h

end

/-- Modules with nothing to say. -/
def Modules.idle : Modules Unit where
  onDatagram := fun _ _ _ => ((), none)
  process := fun _ _ _ _ => ((), .ignore)
  checkNeighbors := fun _ _ => ()
  onNeighborRequestTimer := fun _ _ => ()
  onServiceExpiry := fun _ _ => ()
  recordInfo := fun _ _ _ => ((), true)
  takeInfo := fun _ _ => ()
  recordTable := fun _ _ _ _ => ()
  recordResource := fun _ _ _ => ()

/-- A message of three bytes to global multicast that came in stamped with port 3. -/
def globalFrame : Bytes :=
  ((build (List.replicate 70 0) 2 .globalMulticast ⟨1⟩ 9 threeByteBody).toOption.map fun built =>
    stampIngressPort (built.1.take built.2) 3).getD []

/-- It came in on port 1 of two and leaves on port 2 as it came, though it was taken apart in between. -/
theorem relay_fidelity_globalFrame :
    ∃ relay snapshot, ((Node.new 1 2 64 () : Node Unit 4).onFrameWith .idle [] 0 1 globalFrame).2.1.relay =
        some relay ∧ relay.frame = globalFrame.copyAt ipv6IngressEgressPortsOffset [0] ∧
      relay.mask &&& portMask 1 = 0 ∧ Snapshot.take globalFrame = some snapshot ∧
      (accept globalFrame).1 ≠ globalFrame ∧ snapshot.restore (accept globalFrame).1 = globalFrame := by
  have hrelay : ((Node.new 1 2 64 () : Node Unit 4).onFrameWith .idle [] 0 1 globalFrame).2.1.relay =
      some ⟨globalFrame.copyAt ipv6IngressEgressPortsOffset [0], 2⟩ := by decide +kernel
  have htaken : (Snapshot.take globalFrame).isSome = true ∧ (accept globalFrame).1 ≠ globalFrame := by
    decide +kernel
  obtain ⟨snapshot, htake⟩ := Option.isSome_iff_exists.mp htaken.1
  obtain ⟨hrelays, hrestores, -⟩ := relay_fidelity .idle (Node.new 1 2 64 () : Node Unit 4) [] 0 1 globalFrame
  obtain ⟨-, hframe, -, hmask⟩ := hrelays _ hrelay
  exact ⟨_, snapshot, hrelay, hframe, hmask, htake, htaken.2, hrestores snapshot htake⟩

end Bristlemouth
