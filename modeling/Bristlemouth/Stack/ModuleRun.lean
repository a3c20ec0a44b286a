import Bristlemouth.Stack.NodeRun

/-!
# Runs of a node, for its modules

What every module keeps, every run keeps: the calls touch the modules through the functions of
`Modules` and the application's own acts.
-/

set_option autoImplicit false

namespace Bristlemouth

variable {M : Type} {PENDING : Nat}

/-- No module leads out of `P`. -/
structure Modules.Keeps (m : Modules M) (P : M → Prop) : Prop where
  onDatagram : ∀ s nowMs datagram, P s → P (m.onDatagram s nowMs datagram).1
  process : ∀ s nowMs ingressPort received, P s → P (m.process s nowMs ingressPort received).1
  checkNeighbors : ∀ s nowMs, P s → P (m.checkNeighbors s nowMs)
  onNeighborRequestTimer : ∀ s nowMs, P s → P (m.onNeighborRequestTimer s nowMs)
  onServiceExpiry : ∀ s nowMs, P s → P (m.onServiceExpiry s nowMs)
  recordInfo : ∀ s targetNodeId kind, P s → P (m.recordInfo s targetNodeId kind).1
  takeInfo : ∀ s targetNodeId, P s → P (m.takeInfo s targetNodeId)
  recordTable : ∀ s nowMs targetNodeId kind, P s → P (m.recordTable s nowMs targetNodeId kind)
  recordResource : ∀ s targetNodeId kind, P s → P (m.recordResource s targetNodeId kind)

namespace Node

section
variable (node : Node M PENDING) (tx : Bytes) (nowMs : UInt32) (messageType : MessageType)
variable (replySeqNum : UInt32)

theorem modules_outgoing : (node.outgoing nowMs messageType replySeqNum).1.modules = node.modules := by
  unfold outgoing
  split <;> rfl

theorem modules_respond (dst : BmIpAddr) (body : BodyWriter) :
    (node.respond tx nowMs dst messageType replySeqNum body).1.modules = node.modules := by
  have h := node.modules_outgoing nowMs messageType replySeqNum
  unfold respond
  split <;> rename_i heq <;> rw [heq] at h <;> exact h

theorem modules_sendWith (dst : BmIpAddr) (bodyLen : Nat) (encode : BodyWriter) :
    (node.sendWith tx nowMs dst messageType replySeqNum bodyLen encode).1.modules = node.modules := by
  unfold sendWith
  split
  · rfl
  · exact node.modules_respond tx nowMs messageType replySeqNum dst encode

theorem modules_sweep : (node.sweep nowMs).1.modules = node.modules := rfl

end

section
variable {m : Modules M} {P : M → Prop} (hm : m.Keeps P) {node : Node M PENDING}
include hm

theorem keeps_modules_requestDeviceInfo (h : P node.modules) (tx : Bytes) (nowMs : UInt32)
    (targetNodeId : UInt64) (kind : InfoRequestKind) :
    P (node.requestDeviceInfo m tx nowMs targetNodeId kind).1.modules := by
  have hrecorded := hm.recordInfo node.modules targetNodeId kind h
  unfold requestDeviceInfo
  dsimp only
  split
  · split
    · exact hm.takeInfo _ targetNodeId hrecorded
    · exact hrecorded
  · rw [request, send, modules_sendWith]
    exact hrecorded

theorem keeps_modules_react (h : P node.modules) (tx : Bytes) (nowMs : UInt32) (received : Received)
    (reaction : Reaction) : P (node.react m tx nowMs received reaction).1.modules := by
  cases reaction with
  | ignore => exact h
  | requestDeviceInfo targetNodeId => exact keeps_modules_requestDeviceInfo hm h tx nowMs targetNodeId .cache
  | respond dst messageType replySeqNum body =>
    exact (node.modules_respond tx nowMs messageType replySeqNum dst body).symm ▸ h
  | sendMulticast messageType replySeqNum bodyLen body =>
    exact (node.modules_sendWith tx nowMs messageType replySeqNum .linkLocalMulticast bodyLen body).symm ▸ h
  | forward => exact h

theorem keeps_modules_dispatch (h : P node.modules) (tx : Bytes) (nowMs : UInt32) (ingressPort : UInt8)
    (received : Received) : P (node.dispatch m tx nowMs ingressPort received).1.modules := by
  unfold dispatch
  dsimp only
  split
  · exact h
  · exact h
  · exact keeps_modules_react hm (hm.process _ nowMs ingressPort received h) tx nowMs received _

theorem keeps_modules_submit (h : P node.modules) (tx : Bytes) (nowMs : UInt32) (ingressPort : UInt8)
    (frame : Bytes) : P (node.submit m tx nowMs ingressPort frame).node.modules := by
  unfold submit
  split
  · rename_i datagram _
    exact hm.onDatagram node.modules nowMs datagram h
  · split
    · exact h
    · rename_i received _
      exact keeps_modules_dispatch hm h tx nowMs ingressPort received

/-- One call keeps what the modules and the application's act keep. -/
theorem keeps_modules_call (h : P node.modules) (tx : Bytes) (c : Call M)
    (hact : ∀ act, c = .onModules act → ∀ s, P s → P (act s)) : P (node.call m tx c).1.modules := by
  cases c with
  | register messageType cfg => exact h
  | unregister messageType => exact h
  | send nowMs dst messageType body replySeqNum => exact (node.modules_sendWith ..).symm ▸ h
  | request nowMs dst messageType body => exact (node.modules_sendWith ..).symm ▸ h
  | sendPing nowMs dst targetNodeId payload =>
    simp only [call, sendPing]
    split
    · exact h
    · rw [modules_respond]
      exact h
  | requestSystemTime nowMs targetNodeId => exact (node.modules_sendWith ..).symm ▸ h
  | setSystemTime nowMs targetNodeId utcTimeUs => exact (node.modules_sendWith ..).symm ▸ h
  | requestDeviceInfo nowMs targetNodeId kind =>
    exact keeps_modules_requestDeviceInfo hm h tx nowMs targetNodeId kind
  | requestNeighborTable nowMs dst targetNodeId kind =>
    simp only [call, requestNeighborTable, request, send, modules_sendWith]
    exact hm.recordTable _ nowMs targetNodeId kind h
  | requestResourceTable nowMs targetNodeId kind =>
    simp only [call, requestResourceTable]
    split
    · exact h
    · rw [request, send, modules_sendWith]
      exact hm.recordResource _ targetNodeId kind h
  | configGet nowMs targetNodeId part key =>
    simp only [call, configGet]
    split
    · exact h
    · exact (node.modules_sendWith ..).symm ▸ h
  | configSet nowMs targetNodeId part key value =>
    simp only [call, configSet]
    split
    · exact h
    · exact (node.modules_sendWith ..).symm ▸ h
  | configCommit nowMs targetNodeId part => exact (node.modules_sendWith ..).symm ▸ h
  | configStatusRequest nowMs targetNodeId part => exact (node.modules_sendWith ..).symm ▸ h
  | configDeleteKey nowMs targetNodeId part key => exact (node.modules_sendWith ..).symm ▸ h
  | configClearPartition nowMs targetNodeId part => exact (node.modules_sendWith ..).symm ▸ h
  | onFrame nowMs ingressPort frame =>
    simp only [call, onFrameWith]
    split
    · exact keeps_modules_submit hm h tx nowMs ingressPort _
    · exact h
  | onTick uptimeMs =>
    simp only [call, onTickWith, modules_respond, modules_sweep]
    exact hm.onServiceExpiry _ uptimeMs (hm.onNeighborRequestTimer _ uptimeMs
      (hm.checkNeighbors _ uptimeMs h))
  | onExpiry nowMs => exact hm.onNeighborRequestTimer _ nowMs h
  | nextRetransmission => exact h
  | onModules act => exact hact act rfl _ h

end

/-- The nodes reached by calls of one kind, whatever the transmit buffer holds. -/
inductive Reached (m : Modules M) (Allowed : Call M → Prop) (start : Node M PENDING) :
    Node M PENDING → Prop where
  | start : Reached m Allowed start start
  | step {node : Node M PENDING} (c : Call M) (tx : Bytes) : Reached m Allowed start node →
      Allowed c → Reached m Allowed start (node.call m tx c).1

theorem Reached.modules {m : Modules M} {Allowed : Call M → Prop} {P : M → Prop}
    {start node : Node M PENDING} (hm : m.Keeps P)
    (hacts : ∀ act, Allowed (.onModules act) → ∀ s, P s → P (act s)) (hstart : P start.modules)
    (h : Reached m Allowed start node) : P node.modules := by
  induction h with
  | start => exact hstart
  | step c tx _ hallowed ih =>
    apply keeps_modules_call hm ih
    rintro act rfl
    exact hacts act hallowed

end Node

end Bristlemouth
