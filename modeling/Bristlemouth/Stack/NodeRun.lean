import Bristlemouth.Stack.InStep

/-!
# Runs of a node

Any calls in any order, from a new node. The held frames stay in step with the
registry as long as no encoder fails on a request that is already recorded.
-/

set_option autoImplicit false

namespace Bristlemouth

namespace Node

variable {M : Type} {PENDING : Nat}

inductive Call (M : Type) where
  | register (messageType : MessageType) (cfg : PacketCfg)
  | unregister (messageType : MessageType)
  | send (nowMs : UInt32) (dst : BmIpAddr) (messageType : MessageType) (body : Bytes)
      (replySeqNum : UInt32)
  | request (nowMs : UInt32) (dst : BmIpAddr) (messageType : MessageType) (body : Bytes)
  | sendPing (nowMs : UInt32) (dst : BmIpAddr) (targetNodeId : UInt64) (payload : Bytes)
  | requestSystemTime (nowMs : UInt32) (targetNodeId : UInt64)
  | setSystemTime (nowMs : UInt32) (targetNodeId utcTimeUs : UInt64)
  | requestDeviceInfo (nowMs : UInt32) (targetNodeId : UInt64) (kind : InfoRequestKind)
  | requestNeighborTable (nowMs : UInt32) (dst : BmIpAddr) (targetNodeId : UInt64)
      (kind : TableRequestKind)
  | requestResourceTable (nowMs : UInt32) (targetNodeId : UInt64) (kind : ResourceRequestKind)
  | configGet (nowMs : UInt32) (targetNodeId : UInt64) (part : Partition) (key : Bytes)
  | configSet (nowMs : UInt32) (targetNodeId : UInt64) (part : Partition) (key value : Bytes)
  | configCommit (nowMs : UInt32) (targetNodeId : UInt64) (part : Partition)
  | configStatusRequest (nowMs : UInt32) (targetNodeId : UInt64) (part : Partition)
  | configDeleteKey (nowMs : UInt32) (targetNodeId : UInt64) (part : Partition) (key : Bytes)
  | configClearPartition (nowMs : UInt32) (targetNodeId : UInt64) (part : Partition)
  | onFrame (nowMs : UInt32) (ingressPort : UInt8) (frame : Bytes)
  | onTick (uptimeMs : UInt32)
  | onExpiry (nowMs : UInt32)
  | nextRetransmission
  /-- The application acts on a module: it subscribes, binds a port, sets its clock. -/
  | onModules (act : M → M)

/-- The node afterwards, and the frame the call hands back. -/
def call (m : Modules M) (node : Node M PENDING) (tx : Bytes) :
    Call M → Node M PENDING × Option Outbound
  | .register messageType cfg => ((node.register messageType cfg).1, none)
  | .unregister messageType => ((node.unregister messageType).1, none)
  | .send nowMs dst messageType body replySeqNum =>
    node.send tx nowMs dst messageType body replySeqNum
  | .request nowMs dst messageType body => node.request tx nowMs dst messageType body
  | .sendPing nowMs dst targetNodeId payload => node.sendPing tx nowMs dst targetNodeId payload
  | .requestSystemTime nowMs targetNodeId => node.requestSystemTime tx nowMs targetNodeId
  | .setSystemTime nowMs targetNodeId utcTimeUs => node.setSystemTime tx nowMs targetNodeId utcTimeUs
  | .requestDeviceInfo nowMs targetNodeId kind => node.requestDeviceInfo m tx nowMs targetNodeId kind
  | .requestNeighborTable nowMs dst targetNodeId kind =>
    node.requestNeighborTable m tx nowMs dst targetNodeId kind
  | .requestResourceTable nowMs targetNodeId kind =>
    node.requestResourceTable m tx nowMs targetNodeId kind
  | .configGet nowMs targetNodeId part key => node.configGet tx nowMs targetNodeId part key
  | .configSet nowMs targetNodeId part key value =>
    node.configSet tx nowMs targetNodeId part key value
  | .configCommit nowMs targetNodeId part => node.configCommit tx nowMs targetNodeId part
  | .configStatusRequest nowMs targetNodeId part =>
    node.configStatusRequest tx nowMs targetNodeId part
  | .configDeleteKey nowMs targetNodeId part key => node.configDeleteKey tx nowMs targetNodeId part key
  | .configClearPartition nowMs targetNodeId part =>
    node.configClearPartition tx nowMs targetNodeId part
  | .onFrame nowMs ingressPort frame =>
    let (node, owed, _) := node.onFrameWith m tx nowMs ingressPort frame
    (node, owed.reply)
  | .onTick uptimeMs =>
    let (node, heartbeat, _) := node.onTickWith m tx uptimeMs
    (node, heartbeat)
  | .onExpiry nowMs => ((node.onExpiry m nowMs).1, none)
  | .nextRetransmission => node.nextRetransmission
  | .onModules act => ({ node with modules := act node.modules }, none)

/-- An answer whose type is registered as a request to be tracked has a body that fits. -/
def ReactionFits (node : Node M PENDING) (tx : Bytes) : Reaction → Prop
  | .respond _ messageType _ body => node.registry.Tracks messageType → Encodes body tx
  | .sendMulticast messageType _ bodyLen body =>
    node.registry.Tracks messageType → bodyLen ≤ maxBodyLen → Encodes body tx
  | _ => True

/-- No encoder of the call fails on a request the registry has already recorded. -/
def CallFits (m : Modules M) (node : Node M PENDING) (tx : Bytes) : Call M → Prop
  | .sendPing _ _ _ payload =>
    node.registry.Tracks .echoRequest → payload.length ≤ node.ping.capacity → payload.length ≤ maxEchoPayload →
      echoHeaderLen + payload.length ≤ maxBodyLen
  | .configDeleteKey _ _ _ key =>
    node.registry.Tracks .configDeleteRequest →
      ConfigKeyRequest.headLen + key.length ≤ maxBodyLen → key.length ≤ 255
  | .onFrame nowMs ingressPort frame =>
    ∀ received, (accept (rxApply frame (portMask ingressPort) node.allPorts none).1).2 = .ok received →
      (node.registry.onReceived received.header.messageType received.header.seqNum).2 = .process →
        node.ReactionFits tx (m.process node.modules nowMs ingressPort received).2
  | _ => True

/-- The states reached from a new node by calls that fit, with the frames first built and the number
of requests made. Every call finds the transmit buffer as it may be. -/
inductive Run (m : Modules M) (start : Node M PENDING) :
    Node M PENDING → List (UInt32 × Bytes) → Nat → Prop where
  | start : Run m start start [] 0
  | step {node : Node M PENDING} {built : List (UInt32 × Bytes)} {requests : Nat} (c : Call M)
      (tx : Bytes) : Run m start node built requests → tx.length = mtu → CallFits m node tx c →
      Run m start (node.call m tx c).1
        (built ++ node.firstBuilt (node.call m tx c).1 (node.call m tx c).2)
        (requests + node.taken (node.call m tx c).1)

/-! ### Every call keeps the stores in step -/

section
variable {tx : Bytes} (m : Modules M) (node : Node M PENDING)

theorem keeps_requestDeviceInfo (htx : tx.length = mtu) (nowMs : UInt32) (targetNodeId : UInt64)
    (kind : InfoRequestKind) : Keeps node (node.requestDeviceInfo m tx nowMs targetNodeId kind).1
      (node.requestDeviceInfo m tx nowMs targetNodeId kind).2 := by
  unfold requestDeviceInfo
  dsimp only
  split
  · exact .of_eq rfl rfl rfl
  · have h := keeps_request { node with modules := (m.recordInfo node.modules targetNodeId kind).1 } htx
      nowMs .linkLocalMulticast .deviceInfoRequest (targetRequestBytes targetNodeId)
    exact ⟨h.inStep, h.silent⟩

theorem keeps_requestResourceTable (htx : tx.length = mtu) (nowMs : UInt32) (targetNodeId : UInt64)
    (kind : ResourceRequestKind) : Keeps node (node.requestResourceTable m tx nowMs targetNodeId kind).1
      (node.requestResourceTable m tx nowMs targetNodeId kind).2 := by
  unfold requestResourceTable
  split
  · exact .of_eq rfl rfl rfl
  · have h := keeps_request { node with modules := m.recordResource node.modules targetNodeId kind } htx
      nowMs .linkLocalMulticast .resourceTableRequest (targetRequestBytes targetNodeId)
    exact ⟨h.inStep, h.silent⟩

theorem keeps_requestNeighborTable (htx : tx.length = mtu) (nowMs : UInt32) (dst : BmIpAddr)
    (targetNodeId : UInt64) (kind : TableRequestKind) :
    Keeps node (node.requestNeighborTable m tx nowMs dst targetNodeId kind).1
      (node.requestNeighborTable m tx nowMs dst targetNodeId kind).2 := by
  have h := keeps_request { node with modules := m.recordTable node.modules nowMs targetNodeId kind }
    htx nowMs dst .neighborTableRequest (targetRequestBytes targetNodeId)
  exact ⟨h.inStep, h.silent⟩

theorem keeps_sendPing (htx : tx.length = mtu) (nowMs : UInt32) (dst : BmIpAddr)
    (targetNodeId : UInt64) {payload : Bytes}
    (hfits : node.registry.Tracks .echoRequest → payload.length ≤ node.ping.capacity →
      payload.length ≤ maxEchoPayload → echoHeaderLen + payload.length ≤ maxBodyLen) :
    Keeps node (node.sendPing tx nowMs dst targetNodeId payload).1
      (node.sendPing tx nowMs dst targetNodeId payload).2 := by
  unfold sendPing
  split
  · exact .of_eq rfl rfl rfl
  · rename_i hlen
    rw [not_or, Nat.not_lt, Nat.not_lt] at hlen
    dsimp only
    have h := keeps_respond { node with ping := { { node.ping with seq := node.ping.seq + 1 }.remember
        payload with sentAtMs := nowMs } } htx nowMs dst .echoRequest 0
      (fun htracks => (EchoRequest.writesWithin (r := ⟨targetNodeId, node.nodeId.toUInt16,
        node.ping.seq.toUInt16, payload⟩) hlen.2).encodes (hfits htracks hlen.1 hlen.2) htx)
    exact ⟨h.inStep, h.silent⟩

theorem keeps_configKeyRequest (htx : tx.length = mtu) (nowMs : UInt32) (messageType : MessageType)
    {request : ConfigKeyRequest} (hkey : request.key.length ≤ 255) :
    Keeps node (node.sendMulticast tx nowMs messageType 0 request.len request.encode).1
      (node.sendMulticast tx nowMs messageType 0 request.len request.encode).2 :=
  node.keeps_sendWith_exact htx nowMs _ _ _ fun _ => ConfigKeyRequest.writesWithin hkey

theorem keeps_configGet (htx : tx.length = mtu) (nowMs : UInt32) (targetNodeId : UInt64)
    (part : Partition) (key : Bytes) : Keeps node (node.configGet tx nowMs targetNodeId part key).1
      (node.configGet tx nowMs targetNodeId part key).2 := by
  unfold configGet
  split
  · exact .of_eq rfl rfl rfl
  · rename_i hkey
    simp only [maxKeyLen] at hkey
    exact node.keeps_configKeyRequest htx nowMs .configGet (by dsimp only; omega)

theorem keeps_configSet (htx : tx.length = mtu) (nowMs : UInt32) (targetNodeId : UInt64)
    (part : Partition) (key value : Bytes) :
    Keeps node (node.configSet tx nowMs targetNodeId part key value).1
      (node.configSet tx nowMs targetNodeId part key value).2 := by
  unfold configSet
  split
  · exact .of_eq rfl rfl rfl
  · rename_i hkey
    simp only [maxKeyLen] at hkey
    refine node.keeps_sendWith_exact htx nowMs _ _ _ fun hlen => ConfigSet.writesWithin ?_ ?_
    · dsimp only
      omega
    · simp [ConfigSet.len, maxBodyLen] at hlen
      dsimp only
      omega

theorem keeps_configPartitionRequest (htx : tx.length = mtu) (nowMs : UInt32)
    (messageType : MessageType) (targetNodeId : UInt64) (part : Partition) :
    Keeps node (node.configPartitionRequest tx nowMs messageType targetNodeId part).1
      (node.configPartitionRequest tx nowMs messageType targetNodeId part).2 :=
  node.keeps_sendWith_exact htx nowMs _ _ _ fun _ => ConfigPartitionRequest.writesWithin _

/-- The one request whose key the node does not bound. -/
theorem keeps_configDeleteKey (htx : tx.length = mtu) (nowMs : UInt32) (targetNodeId : UInt64)
    (part : Partition) {key : Bytes}
    (hfits : node.registry.Tracks .configDeleteRequest →
      ConfigKeyRequest.headLen + key.length ≤ maxBodyLen → key.length ≤ 255) :
    Keeps node (node.configDeleteKey tx nowMs targetNodeId part key).1
      (node.configDeleteKey tx nowMs targetNodeId part key).2 :=
  node.keeps_sendWith htx nowMs _ _ _ fun htracks hlen =>
    (ConfigKeyRequest.writesWithin (hfits htracks hlen)).encodes hlen htx

theorem keeps_react (htx : tx.length = mtu) (nowMs : UInt32) (received : Received)
    (reaction : Reaction) (hfits : node.ReactionFits tx reaction) :
    Keeps node (node.react m tx nowMs received reaction).1
      (node.react m tx nowMs received reaction).2.1 := by
  cases reaction with
  | ignore => exact .of_eq rfl rfl rfl
  | requestDeviceInfo targetNodeId => exact keeps_requestDeviceInfo m node htx nowMs targetNodeId .cache
  | respond dst messageType replySeqNum body =>
    exact node.keeps_respond htx nowMs dst messageType replySeqNum hfits
  | sendMulticast messageType replySeqNum bodyLen body =>
    exact node.keeps_sendWith htx nowMs _ messageType replySeqNum hfits
  | forward => exact .of_eq rfl rfl rfl

/-- A reply that answers a request takes it out of both stores. -/
theorem keeps_answered {index : Nat} {request : PendingRequest}
    (hget : node.registry.pending[index]? = some request) (outbound : Option Outbound) :
    Keeps node { node with
      registry := { node.registry with pending := node.registry.pending.eraseIdx index }
      held := node.held.release request.seqNum } outbound where
  inStep := by
    intro history built h hfew
    refine ⟨[.replied request], ?_, ?_⟩
    · rw [firstBuilt, if_pos (by rfl), List.append_nil]
      refine h.answered hfew hget ?_ ?_
      · rfl
      · rfl
    · rw [taken, if_pos (by rfl)]
      rfl
  silent := by
    intro _ seqNum hmem
    exact (List.Sublist.map _ (List.eraseIdx_sublist ..)).subset hmem

theorem keeps_dispatch (htx : tx.length = mtu) (nowMs : UInt32) (ingressPort : UInt8)
    (received : Received)
    (hfits : (node.registry.onReceived received.header.messageType received.header.seqNum).2 = .process →
      node.ReactionFits tx (m.process node.modules nowMs ingressPort received).2) :
    Keeps node (node.dispatch m tx nowMs ingressPort received).1
      (node.dispatch m tx nowMs ingressPort received).2.1 := by
  obtain hunregistered | hprocess | ⟨index, request, hget, hanswered⟩ :=
    node.registry.onReceived_cases received.header.messageType received.header.seqNum
  · simp only [dispatch, hunregistered]
    exact .of_eq rfl rfl rfl
  · rw [hprocess] at hfits
    simp only [dispatch, hprocess]
    have h := keeps_react m
      { node with modules := (m.process node.modules nowMs ingressPort received).1 } htx nowMs received
      (m.process node.modules nowMs ingressPort received).2 (hfits rfl)
    exact ⟨h.inStep, h.silent⟩
  · simp only [dispatch, hanswered]
    exact keeps_answered node hget none

theorem keeps_submit (htx : tx.length = mtu) (nowMs : UInt32) (ingressPort : UInt8) (frame : Bytes)
    (hfits : ∀ received, (accept frame).2 = .ok received →
      (node.registry.onReceived received.header.messageType received.header.seqNum).2 = .process →
        node.ReactionFits tx (m.process node.modules nowMs ingressPort received).2) :
    Keeps node (node.submit m tx nowMs ingressPort frame).node
      (node.submit m tx nowMs ingressPort frame).reply := by
  unfold submit
  split
  · exact .of_eq rfl rfl rfl
  · split
    · exact .of_eq rfl rfl rfl
    · rename_i received heq
      rw [heq] at hfits
      exact keeps_dispatch m node htx nowMs ingressPort received (hfits received rfl)

theorem keeps_onFrameWith (htx : tx.length = mtu) (nowMs : UInt32) (ingressPort : UInt8)
    (frame : Bytes) (hfits : CallFits m node tx (.onFrame nowMs ingressPort frame)) :
    Keeps node (node.onFrameWith m tx nowMs ingressPort frame).1
      (node.onFrameWith m tx nowMs ingressPort frame).2.1.reply := by
  unfold onFrameWith
  dsimp only
  split
  · exact keeps_submit m node htx nowMs ingressPort _ hfits
  · exact .of_eq rfl rfl rfl

theorem keeps_onTickWith (htx : tx.length = mtu) (uptimeMs : UInt32) :
    Keeps node (node.onTickWith m tx uptimeMs).1 (node.onTickWith m tx uptimeMs).2.1 := by
  let checked : Node M PENDING :=
    { node with modules := m.checkNeighbors node.modules uptimeMs }
  have hchecked : Keeps node checked none := .of_eq rfl rfl rfl
  obtain ⟨hsweep, hcount⟩ := checked.keeps_sweep uptimeMs
  have hlen : Heartbeat.len ≤ maxBodyLen := by decide
  let swept := (checked.sweep uptimeMs).1
  let timed : Node M PENDING := { swept with
    modules := m.onServiceExpiry (m.onNeighborRequestTimer swept.modules uptimeMs) uptimeMs }
  have hrespond := timed.keeps_respond htx uptimeMs .linkLocalMulticast .heartbeat 0
    fun _ => (heartbeatFor uptimeMs heartbeatPeriodS).writesWithin.encodes hlen htx
  have htimers : Keeps swept (node.onTickWith m tx uptimeMs).1 (node.onTickWith m tx uptimeMs).2.1 :=
    ⟨hrespond.inStep, hrespond.silent⟩
  exact hchecked.trans rfl (hsweep.trans hcount htimers)

theorem keeps_onExpiry (nowMs : UInt32) : Keeps node (node.onExpiry m nowMs).1 none := by
  obtain ⟨hsweep, hcount⟩ := node.keeps_sweep nowMs
  exact ⟨hsweep.inStep, hsweep.silent⟩

/-- What one call does, whichever it is. -/
theorem keeps_call (htx : tx.length = mtu) (c : Call M) (hfits : CallFits m node tx c) :
    Keeps node (node.call m tx c).1 (node.call m tx c).2 := by
  cases c with
  | register messageType cfg =>
    have hadd : (node.registry.add messageType cfg).1.pending = node.registry.pending ∧
        (node.registry.add messageType cfg).1.messageCount = node.registry.messageCount := by
      unfold Registry.add
      split <;> exact ⟨rfl, rfl⟩
    exact .of_eq hadd.1 hadd.2 rfl
  | unregister messageType =>
    have hremove : (node.registry.remove messageType).1.pending = node.registry.pending ∧
        (node.registry.remove messageType).1.messageCount = node.registry.messageCount := by
      unfold Registry.remove
      split <;> exact ⟨rfl, rfl⟩
    exact .of_eq hremove.1 hremove.2 rfl
  | send nowMs dst messageType body replySeqNum =>
    exact node.keeps_sendWith_exact htx nowMs dst messageType replySeqNum
      fun _ => writesWithin_writeBody body
  | request nowMs dst messageType body => exact node.keeps_request htx nowMs dst messageType body
  | sendPing nowMs dst targetNodeId payload => exact node.keeps_sendPing htx nowMs dst targetNodeId hfits
  | requestSystemTime nowMs targetNodeId => exact node.keeps_request htx nowMs _ _ _
  | setSystemTime nowMs targetNodeId utcTimeUs => exact node.keeps_request htx nowMs _ _ _
  | requestDeviceInfo nowMs targetNodeId kind =>
    exact keeps_requestDeviceInfo m node htx nowMs targetNodeId kind
  | requestNeighborTable nowMs dst targetNodeId kind =>
    exact keeps_requestNeighborTable m node htx nowMs dst targetNodeId kind
  | requestResourceTable nowMs targetNodeId kind =>
    exact keeps_requestResourceTable m node htx nowMs targetNodeId kind
  | configGet nowMs targetNodeId part key => exact node.keeps_configGet htx nowMs targetNodeId part key
  | configSet nowMs targetNodeId part key value =>
    exact node.keeps_configSet htx nowMs targetNodeId part key value
  | configCommit nowMs targetNodeId part =>
    exact node.keeps_configPartitionRequest htx nowMs _ targetNodeId part
  | configStatusRequest nowMs targetNodeId part =>
    exact node.keeps_configPartitionRequest htx nowMs _ targetNodeId part
  | configDeleteKey nowMs targetNodeId part key =>
    exact node.keeps_configDeleteKey htx nowMs targetNodeId part hfits
  | configClearPartition nowMs targetNodeId part =>
    exact node.keeps_configPartitionRequest htx nowMs _ targetNodeId part
  | onFrame nowMs ingressPort frame => exact keeps_onFrameWith m node htx nowMs ingressPort frame hfits
  | onTick uptimeMs => exact keeps_onTickWith m node htx uptimeMs
  | onExpiry nowMs => exact keeps_onExpiry m node nowMs
  | nextRetransmission => exact node.keeps_nextRetransmission _
  | onModules act => exact .of_eq rfl rfl rfl

end

/-! ### Runs -/

theorem registered_pending (entries : List (MessageType × PacketCfg))
    (r : Registry messageTypes PENDING) :
    (entries.foldl (fun r entry => (r.add entry.1 entry.2).1) r).pending = r.pending ∧
      (entries.foldl (fun r entry => (r.add entry.1 entry.2).1) r).messageCount = r.messageCount := by
  induction entries generalizing r with
  | nil => exact ⟨rfl, rfl⟩
  | cons entry entries ih =>
    obtain ⟨hpending, hcount⟩ := ih (r.add entry.1 entry.2).1
    rw [List.foldl_cons, hpending, hcount]
    unfold Registry.add
    split <;> exact ⟨rfl, rfl⟩

theorem inStep_new (nodeId : UInt64) (portCount : UInt8) (pingPayload : Nat) (modules : M) :
    InStep (new nodeId portCount pingPayload modules : Node M PENDING).registry
      (new nodeId portCount pingPayload modules : Node M PENDING).held [] [] := by
  have hentries : (HeldRequests.new (List.replicate PENDING .empty)).entries = [] := by
    rw [HeldRequests.entries, HeldRequests.entriesOf, List.filterMap_eq_nil_iff]
    intro slot hslot
    rw [List.eq_of_mem_replicate hslot]
    rfl
  have hnumbers : (HeldRequests.new (List.replicate PENDING .empty)).numbers = [] := by
    rw [HeldRequests.numbers, hentries]
    rfl
  obtain ⟨hpending, hcount⟩ := registered_pending registrations (Registry.new : Registry messageTypes PENDING)
  refine ⟨(Registry.Accounted.start 0 messageTimerExpiryPeriodMs).quiet hpending hcount,
    List.length_replicate, ⟨?_, List.nodup_nil, ?_⟩, ?_, ?_, List.Sublist.refl _⟩
  · exact hnumbers.symm ▸ List.nodup_nil
  · exact fun seqNum hdue => absurd hdue List.not_mem_nil
  · have hnone : (new nodeId portCount pingPayload modules : Node M PENDING).registry.numbers = [] :=
      congrArg (List.map PendingRequest.seqNum) hpending
    rw [hnone]
    exact hnumbers.symm ▸ List.Perm.refl _
  · intro entry hentry
    change entry ∈ (HeldRequests.new (List.replicate PENDING .empty)).entries at hentry
    rw [hentries] at hentry
    exact absurd hentry List.not_mem_nil

variable {m : Modules M} {start node : Node M PENDING} {built : List (UInt32 × Bytes)} {requests : Nat}

theorem Run.inStep (hrun : Run m start node built requests) (hstart : InStep start.registry start.held [] [])
    (hfew : requests < 2 ^ 32) :
    ∃ history, InStep node.registry node.held history built ∧ (numbersOf history).length = requests := by
  induction hrun with
  | start => exact ⟨[], hstart, rfl⟩
  | @step node built requests c tx _ htx hfits ih =>
    obtain ⟨history, hin, hcount⟩ := ih (by omega)
    obtain ⟨events, hin', hcount'⟩ := (keeps_call m node htx c hfits).inStep hin (by omega)
    refine ⟨history ++ events, hin', ?_⟩
    rw [numbersOf_append, List.length_append, hcount, hcount']

/-- In every run of calls that fit, with fewer than `2 ^ 32` requests: the numbers outstanding are the
numbers held, each once; what is due is held, each once; a re-send is the frame first built for a
number still outstanding; and a call without a frame leaves no new request behind. -/
theorem held_in_step {nodeId : UInt64} {portCount : UInt8} {pingPayload : Nat} {modules : M}
    (hrun : Run m (new nodeId portCount pingPayload modules : Node M PENDING) node built requests)
    (hfew : requests < 2 ^ 32) :
    node.registry.numbers.Nodup ∧ node.held.numbers.Perm node.registry.numbers ∧
      node.held.due.Nodup ∧ (∀ seqNum ∈ node.held.due, seqNum ∈ node.held.numbers) ∧
      (built.map Prod.fst).Nodup ∧
      (∀ seqNum due, node.held.due = seqNum :: due →
        ∃ frame, node.nextRetransmission =
            ({ node with held := { node.held with due } }, some ⟨frame, node.allPorts⟩) ∧
          (seqNum, frame) ∈ built ∧ seqNum ∈ node.registry.numbers) ∧
      ∀ c tx, tx.length = mtu → CallFits m node tx c → (node.call m tx c).2 = none →
        ∀ seqNum ∈ (node.call m tx c).1.registry.numbers, seqNum ∈ node.registry.numbers := by
  obtain ⟨history, hin, hcount⟩ := hrun.inStep (inStep_new nodeId portCount pingPayload modules) hfew
  have hnumbers := hin.accounted.numbers_nodup (by omega)
  refine ⟨hin.accounted.pending_nodup (by omega), hin.pending, hin.sound.due_nodup, hin.sound.due_held,
    hnumbers.sublist hin.numbered, ?_, ?_⟩
  · intro seqNum due hdue
    obtain ⟨frame, hnext, hentry⟩ := hin.sound.nextDue hdue
    refine ⟨frame, ?_, hin.held_built _ hentry, ?_⟩
    · rw [nextRetransmission, hnext]
      simp only [HeldRequests.undue, hdue, List.erase_cons_head]
      rfl
    · exact hin.pending.mem_iff.mp (List.mem_map.mpr ⟨_, hentry, rfl⟩)
  · intro c tx htx hfits hnone
    exact (keeps_call m node htx c hfits).silent hnone

/-- The transmit buffer of a new node. -/
def zeroTx : Bytes := List.replicate mtu 0

theorem length_zeroTx : zeroTx.length = mtu := List.length_replicate

def freshNode : Node Unit 4 := new 1 2 64 ()

/-- A new node that asks for a key to be deleted, and hears nothing until the first sweep. -/
def waitingNode (key : Bytes) : Node Unit 4 :=
  ((freshNode.call .idle zeroTx (.configDeleteKey 0 2 .user key)).1.call .idle zeroTx (.onExpiry 150)).1

theorem held_in_step_shortKey : (waitingNode [0x61]).held.due = [0] ∧
    (waitingNode [0x61]).held.numbers.Perm (waitingNode [0x61]).registry.numbers := by
  have hfits : CallFits .idle freshNode zeroTx (.configDeleteKey 0 2 .user [0x61]) :=
    fun _ _ => by decide
  have hasked := Run.start.step _ _ length_zeroTx hfits
  have hrun := hasked.step (.onExpiry 150) zeroTx length_zeroTx trivial
  have h := held_in_step hrun (by
    unfold taken
    split <;> split <;> decide)
  refine ⟨by decide +kernel, ?_⟩
  unfold waitingNode
  exact h.2.1

/-- A key of 256 bytes gets past the size check, is recorded, and then refused by its encoder. -/
theorem longKey_refused_late :
    (freshNode.configDeleteKey zeroTx 0 2 .user (List.replicate 256 0)).2 = none ∧
      (waitingNode (List.replicate 256 0)).registry.numbers = [0] ∧
      (waitingNode (List.replicate 256 0)).held.numbers = [] := by
  decide +kernel

end Node

end Bristlemouth
