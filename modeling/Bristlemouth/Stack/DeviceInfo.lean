import Bristlemouth.Neighbor.Table
import Bristlemouth.Stack.ModuleRun

/-!
# Device info

`info.rs` and what `node.rs` does with a heartbeat and with a device info reply: which nodes have
been asked to describe themselves, and what is known of the neighbours that did. The other modules
of a node are a parameter. They read all of its state and leave these tables alone.
-/

set_option autoImplicit false

namespace Bristlemouth

namespace MessageType

def deviceInfoReply : MessageType := ⟨0x05⟩

end MessageType

def Heartbeat.decode (buf : Bytes) : Except BmWireError Heartbeat := do
  let buf ← lePrefix Heartbeat.len buf
  return { timeSinceBootUs := u64At buf 0, livelinessLeaseDurS := u32At buf 8 }

structure DeviceInfo where
  nodeId : UInt64
  vendorId : UInt16
  productId : UInt16
  serialNum : Bytes
  gitSha : UInt32
  verMajor : UInt8
  verMinor : UInt8
  verRev : UInt8
  verHw : UInt8
deriving DecidableEq

namespace DeviceInfo

def len : Nat := 36

def empty : DeviceInfo := ⟨0, 0, 0, List.replicate 16 0, 0, 0, 0, 0, 0⟩

def decode (buf : Bytes) : Except BmWireError DeviceInfo := do
  let buf ← lePrefix len buf
  return {
    nodeId := u64At buf 0
    vendorId := u16At buf 8
    productId := u16At buf 10
    serialNum := buf.slice 12 16
    gitSha := u32At buf 28
    verMajor := buf.byteAt 32
    verMinor := buf.byteAt 33
    verRev := buf.byteAt 34
    verHw := buf.byteAt 35 }

end DeviceInfo

structure DeviceInfoReply where
  info : DeviceInfo
  versionString : Bytes
  deviceName : Bytes
deriving DecidableEq

namespace DeviceInfoReply

def headerLen : Nat := DeviceInfo.len + 2

/-- The lengths the head declares are checked against what arrived. -/
def decode (buf : Bytes) : Except BmWireError DeviceInfoReply :=
  match buf.slice? 0 headerLen with
  | none => .error .truncated
  | some head => do
    let info ← DeviceInfo.decode head
    let versionLen := (head.byteAt DeviceInfo.len).toNat
    let nameLen := (head.byteAt (DeviceInfo.len + 1)).toNat
    match buf.slice? headerLen (versionLen + nameLen) with
    | none => .error .truncated
    | some strings =>
      return { info, versionString := strings.take versionLen, deviceName := strings.drop versionLen }

end DeviceInfoReply

/-! ### Who has been asked -/

/-- The list holds the low 32 bits of the ids, in the order of asking. -/
structure InfoRequests (N : Nat) where
  entries : List (UInt32 × InfoRequestKind)
deriving DecidableEq

namespace InfoRequests

variable {N : Nat}

def new : InfoRequests N := ⟨[]⟩

def key (nodeId : UInt64) : UInt32 := nodeId.toUInt32

def record (r : InfoRequests N) (targetNodeId : UInt64) (kind : InfoRequestKind) :
    InfoRequests N × Bool :=
  if r.entries.length = N then (r, false) else (⟨r.entries ++ [(key targetNodeId, kind)]⟩, true)

def take (r : InfoRequests N) (nodeId : UInt64) : InfoRequests N × Option InfoRequestKind :=
  match KeyedList.lookup Prod.fst (key nodeId) r.entries with
  | none => (r, none)
  | some index => (⟨r.entries.eraseIdx index⟩, r.entries[index]?.map Prod.snd)

end InfoRequests

/-! ### What they said -/

structure CacheEntry where
  nodeId : UInt64
  info : DeviceInfo
  version : Bytes
  name : Bytes
deriving DecidableEq

/-- What is known of up to `N` nodes, with at most `STRING` bytes of each string. -/
structure InfoCache (N STRING : Nat) where
  entries : List CacheEntry
deriving DecidableEq

namespace CacheEntry

def empty (nodeId : UInt64) : CacheEntry := ⟨nodeId, .empty, [], []⟩

/-- The numbers are replaced, and a string is if the reply has one. -/
def describe (capacity : Nat) (entry : CacheEntry) (reply : DeviceInfoReply) : CacheEntry :=
  { entry with
    info := reply.info
    version := if reply.versionString = [] then entry.version else reply.versionString.take capacity
    name := if reply.deviceName = [] then entry.name else reply.deviceName.take capacity }

@[simp] theorem nodeId_describe (capacity : Nat) (entry : CacheEntry) (reply : DeviceInfoReply) :
    (entry.describe capacity reply).nodeId = entry.nodeId := rfl

end CacheEntry

namespace InfoCache

variable {N STRING : Nat}

def new : InfoCache N STRING := ⟨[]⟩

def nodeIds (c : InfoCache N STRING) : List UInt64 := c.entries.map CacheEntry.nodeId

def get (c : InfoCache N STRING) (nodeId : UInt64) : Option CacheEntry :=
  KeyedList.entry CacheEntry.nodeId nodeId c.entries

/-- A node that is not described yet needs room. -/
def store (c : InfoCache N STRING) (reply : DeviceInfoReply) : InfoCache N STRING × Bool :=
  match KeyedList.lookup CacheEntry.nodeId reply.info.nodeId c.entries with
  | some index => (⟨c.entries.modify index fun entry => entry.describe STRING reply⟩, true)
  | none =>
    if c.entries.length = N then (c, false)
    else (⟨c.entries ++ [(CacheEntry.empty reply.info.nodeId).describe STRING reply]⟩, true)

def forget (c : InfoCache N STRING) (nodeId : UInt64) : InfoCache N STRING × Bool :=
  match KeyedList.lookup CacheEntry.nodeId nodeId c.entries with
  | none => (c, false)
  | some index => (⟨c.entries.eraseIdx index⟩, true)

theorem lookup_isSome_iff (c : InfoCache N STRING) (nodeId : UInt64) :
    (∃ index, KeyedList.lookup CacheEntry.nodeId nodeId c.entries = some index) ↔ nodeId ∈ c.nodeIds := by
  constructor
  · rintro ⟨index, h⟩
    obtain ⟨entry, hentry, hid⟩ := KeyedList.getElem?_of_lookup h
    exact List.mem_map.mpr ⟨entry, List.mem_of_getElem? hentry, hid⟩
  · intro hmem
    obtain ⟨entry, hentry, hid⟩ := List.mem_map.mp hmem
    cases h : KeyedList.lookup CacheEntry.nodeId nodeId c.entries with
    | none => exact absurd hid (KeyedList.lookup_eq_none.mp h entry hentry)
    | some index => exact ⟨index, rfl⟩

/-- A node that is described keeps its place, and another takes the last one, if there is room. -/
theorem store_cases (c : InfoCache N STRING) (reply : DeviceInfoReply) :
    (reply.info.nodeId ∈ c.nodeIds ∧ (c.store reply).1.nodeIds = c.nodeIds ∧ (c.store reply).2 = true) ∨
      (reply.info.nodeId ∉ c.nodeIds ∧ c.entries.length = N ∧ c.store reply = (c, false)) ∨
      (reply.info.nodeId ∉ c.nodeIds ∧ c.entries.length ≠ N ∧
        (c.store reply).1.nodeIds = c.nodeIds ++ [reply.info.nodeId] ∧ (c.store reply).2 = true) := by
  have hlookup := c.lookup_isSome_iff reply.info.nodeId
  unfold store
  cases h : KeyedList.lookup CacheEntry.nodeId reply.info.nodeId c.entries with
  | some index =>
    refine .inl ⟨hlookup.mp ⟨index, h⟩, ?_, rfl⟩
    apply List.ext_getElem?
    intro i
    simp only [nodeIds, List.getElem?_map, List.getElem?_modify]
    cases c.entries[i]? with
    | none => rfl
    | some other =>
      by_cases hi : index = i
      · simp [hi]
      · simp [hi]
  | none =>
    have hnew : reply.info.nodeId ∉ c.nodeIds := by
      intro hmem
      obtain ⟨index, hindex⟩ := hlookup.mpr hmem
      rw [h] at hindex
      cases hindex
    by_cases hfull : c.entries.length = N
    · exact .inr (.inl ⟨hnew, hfull, if_pos hfull⟩)
    · refine .inr (.inr ⟨hnew, hfull, ?_, ?_⟩)
      · simp only [if_neg hfull]
        exact List.map_append
      · simp only [if_neg hfull]

theorem entries_forget {c : InfoCache N STRING} (hd : c.nodeIds.Nodup) (nodeId : UInt64) :
    (c.forget nodeId).1.entries = c.entries.filter fun entry => decide (entry.nodeId ≠ nodeId) := by
  unfold forget
  cases h : KeyedList.lookup CacheEntry.nodeId nodeId c.entries with
  | none =>
    have hfree := KeyedList.lookup_eq_none.mp h
    exact (List.filter_eq_self.mpr fun entry hentry => decide_eq_true (hfree entry hentry)).symm
  | some index => exact KeyedList.eraseIdx_eq_filter hd h

theorem nodeIds_forget {c : InfoCache N STRING} (hd : c.nodeIds.Nodup) (nodeId : UInt64) :
    (c.forget nodeId).1.nodeIds = c.nodeIds.filter fun id => decide (id ≠ nodeId) := by
  rw [nodeIds, entries_forget hd, nodeIds, List.filter_map]
  rfl

theorem get_isSome_iff (c : InfoCache N STRING) (nodeId : UInt64) :
    (c.get nodeId).isSome = true ↔ nodeId ∈ c.nodeIds := by
  rw [Option.isSome_iff_ne_none, get, Ne, KeyedList.entry_eq_none, nodeIds, List.mem_map]
  simp

end InfoCache

/-! ### The node's part -/

/-- The tables of a node this is about, and the state of its other modules. -/
structure InfoState (NEIGHBORS REQUESTS CACHED STRING : Nat) (R : Type) where
  neighbors : NeighborTable NEIGHBORS
  infoRequests : InfoRequests REQUESTS
  info : InfoCache CACHED STRING
  rest : R

/-- The other modules. -/
structure OtherModules (S R : Type) where
  onDatagram : S → UInt32 → Datagram → R × Option Outbound
  process : S → UInt32 → UInt8 → Received → R × Reaction
  onNeighborRequestTimer : S → UInt32 → R
  onServiceExpiry : S → UInt32 → R
  recordTable : S → UInt32 → UInt64 → TableRequestKind → R
  recordResource : S → UInt64 → ResourceRequestKind → R

/-- Other modules with nothing to say. -/
def OtherModules.idle {S : Type} : OtherModules S Unit where
  onDatagram := fun _ _ _ => ((), none)
  process := fun _ _ _ _ => ((), .ignore)
  onNeighborRequestTimer := fun _ _ => ()
  onServiceExpiry := fun _ _ => ()
  recordTable := fun _ _ _ _ => ()
  recordResource := fun _ _ _ => ()

namespace InfoState

variable {NEIGHBORS REQUESTS CACHED STRING : Nat} {R : Type}

def new (rest : R) : InfoState NEIGHBORS REQUESTS CACHED STRING R := ⟨.new, .new, .new, rest⟩

/-- A restarted neighbour is asked under the id it last gave for itself, or under zero. -/
def onHeartbeat (s : InfoState NEIGHBORS REQUESTS CACHED STRING R) (nowMs : UInt32) (source : UInt64)
    (ingressPort : UInt8) (heartbeat : Heartbeat) :
    InfoState NEIGHBORS REQUESTS CACHED STRING R × Reaction :=
  let (neighbors, outcome) := s.neighbors.onHeartbeat nowMs source ingressPort heartbeat
  let info :=
    match outcome.evicted with
    | some evicted => (s.info.forget evicted).1
    | none => s.info
  let s := { s with neighbors, info }
  if outcome.requestInfo then
    let targetNodeId :=
      if outcome.reset then
        match s.info.get source with
        | some cached => cached.info.nodeId
        | none => 0
      else source
    (s, .requestDeviceInfo targetNodeId)
  else (s, .ignore)

/-- Only what was asked for, and is about a neighbour, is kept. -/
def onInfoReply (s : InfoState NEIGHBORS REQUESTS CACHED STRING R) (reply : DeviceInfoReply) :
    InfoState NEIGHBORS REQUESTS CACHED STRING R :=
  let (infoRequests, kind) := s.infoRequests.take reply.info.nodeId
  let s := { s with infoRequests }
  match kind with
  | some .cache =>
    if (s.neighbors.find reply.info.nodeId).isSome then { s with info := (s.info.store reply).1 } else s
  | some .report => s
  | none => s

def process (other : OtherModules (InfoState NEIGHBORS REQUESTS CACHED STRING R) R)
    (s : InfoState NEIGHBORS REQUESTS CACHED STRING R) (nowMs : UInt32) (ingressPort : UInt8)
    (received : Received) : InfoState NEIGHBORS REQUESTS CACHED STRING R × Reaction :=
  if received.header.messageType = .heartbeat then
    match Heartbeat.decode received.payload with
    | .error _ => (s, .ignore)
    | .ok heartbeat => s.onHeartbeat nowMs received.src.toNodeId ingressPort heartbeat
  else if received.header.messageType = .deviceInfoReply then
    match DeviceInfoReply.decode received.payload with
    | .error _ => (s, .ignore)
    | .ok reply => (s.onInfoReply reply, .ignore)
  else
    let (rest, reaction) := other.process s nowMs ingressPort received
    ({ s with rest }, reaction)

def modules (other : OtherModules (InfoState NEIGHBORS REQUESTS CACHED STRING R) R) :
    Modules (InfoState NEIGHBORS REQUESTS CACHED STRING R) where
  onDatagram s nowMs datagram :=
    let (rest, reply) := other.onDatagram s nowMs datagram
    ({ s with rest }, reply)
  process := process other
  checkNeighbors s nowMs := { s with neighbors := (s.neighbors.check nowMs).1 }
  onNeighborRequestTimer s nowMs := { s with rest := other.onNeighborRequestTimer s nowMs }
  onServiceExpiry s nowMs := { s with rest := other.onServiceExpiry s nowMs }
  recordInfo s targetNodeId kind :=
    let (infoRequests, recorded) := s.infoRequests.record targetNodeId kind
    ({ s with infoRequests }, recorded)
  takeInfo s targetNodeId := { s with infoRequests := (s.infoRequests.take targetNodeId).1 }
  recordTable s nowMs targetNodeId kind :=
    { s with rest := other.recordTable s nowMs targetNodeId kind }
  recordResource s targetNodeId kind := { s with rest := other.recordResource s targetNodeId kind }

/-- What the application can do to a node: its acts on the modules are on the others. -/
def Allowed : Node.Call (InfoState NEIGHBORS REQUESTS CACHED STRING R) → Prop
  | .onModules act => ∃ change : InfoState NEIGHBORS REQUESTS CACHED STRING R → R,
      act = fun s => { s with rest := change s }
  | _ => True

end InfoState

/-! ### The two tables in step -/

namespace NeighborTable

variable {N : Nat}

/-- The ids `find` can find. -/
def ids (t : NeighborTable N) : List UInt64 :=
  (t.entries.map Neighbor.nodeId).filter fun id => decide (id ≠ 0)

theorem mem_ids {t : NeighborTable N} {nodeId : UInt64} :
    nodeId ∈ t.ids ↔ nodeId ≠ 0 ∧ ∃ n ∈ t.entries, n.nodeId = nodeId := by
  rw [ids, List.mem_filter, List.mem_map, decide_eq_true_eq, and_comm]

theorem find_isSome_iff (t : NeighborTable N) (nodeId : UInt64) :
    (t.find nodeId).isSome = true ↔ nodeId ∈ t.ids := by
  rw [mem_ids]
  unfold find
  by_cases hid : nodeId = 0
  · simp [hid]
  · rw [if_neg hid, List.find?_isSome]
    simp [hid]

theorem ids_of_keys {t t' : NeighborTable N} (h : t'.keys = t.keys) : t'.ids = t.ids := by
  have hfst := congrArg (List.map Prod.fst) h
  rw [keys, keys, List.map_map, List.map_map] at hfst
  exact congrArg (List.filter fun id => decide (id ≠ 0)) hfst

/-- A heartbeat takes nobody out of the table but the neighbour it reports. -/
theorem Heard.ids_kept {t : NeighborTable N} {nowMs : UInt32} {source : UInt64} {port : UInt8}
    {heartbeat : Heartbeat} {r : NeighborTable N × HeartbeatOutcome}
    (h : Heard t nowMs source port heartbeat r) {nodeId : UInt64} (hmem : nodeId ∈ t.ids)
    (hstays : r.2.evicted ≠ some nodeId) : nodeId ∈ r.1.ids := by
  cases h with
  | renewed i n o hid hi hn hadded hfull hevicted =>
    rw [ids_of_keys (keys_renewed hi nowMs heartbeat)]
    exact hmem
  | refused o hunknown hport hroom hadded hfull hevicted => exact hmem
  | added o hunknown hroom hadded hfull hevicted =>
    obtain ⟨hid, n, hn, hname⟩ := mem_ids.mp hmem
    have hport : n.port ≠ port := by
      intro hport
      exact hstays ((hevicted nodeId).mpr ⟨n, hn, hport, hname⟩)
    refine mem_ids.mpr ⟨hid, n, ?_, hname⟩
    exact List.mem_append_left _ (List.mem_filter.mpr ⟨hn, decide_eq_true hport⟩)

end NeighborTable

namespace InfoState

variable {NEIGHBORS REQUESTS CACHED STRING : Nat} {R : Type}
variable {s : InfoState NEIGHBORS REQUESTS CACHED STRING R}

/-- What is cached is about neighbours, once each. -/
structure InStep (s : InfoState NEIGHBORS REQUESTS CACHED STRING R) : Prop where
  neighbors : s.neighbors.Valid
  distinct : s.info.nodeIds.Nodup
  known : ∀ nodeId ∈ s.info.nodeIds, nodeId ∈ s.neighbors.ids
  bounded : s.info.entries.length ≤ CACHED

theorem inStep_new (rest : R) :
    (new rest : InfoState NEIGHBORS REQUESTS CACHED STRING R).InStep where
  neighbors := NeighborTable.new_valid
  distinct := List.nodup_nil
  known := by
    intro nodeId hmem
    cases hmem
  bounded := Nat.zero_le _

/-- The state after a heartbeat, whether or not anybody is asked to describe itself. -/
theorem onHeartbeat_fst (s : InfoState NEIGHBORS REQUESTS CACHED STRING R) (nowMs : UInt32)
    (source : UInt64) (ingressPort : UInt8) (heartbeat : Heartbeat) :
    (s.onHeartbeat nowMs source ingressPort heartbeat).1 = { s with
      neighbors := (s.neighbors.onHeartbeat nowMs source ingressPort heartbeat).1
      info :=
        match (s.neighbors.onHeartbeat nowMs source ingressPort heartbeat).2.evicted with
        | some evicted => (s.info.forget evicted).1
        | none => s.info } := by
  unfold onHeartbeat
  dsimp only
  split <;> rfl

theorem InStep.onHeartbeat (h : s.InStep) (nowMs : UInt32) (source : UInt64) (ingressPort : UInt8)
    (heartbeat : Heartbeat) : (s.onHeartbeat nowMs source ingressPort heartbeat).1.InStep := by
  have hheard := NeighborTable.onHeartbeat_cases h.neighbors nowMs source ingressPort heartbeat
  rw [onHeartbeat_fst]
  cases hevicted : (s.neighbors.onHeartbeat nowMs source ingressPort heartbeat).2.evicted with
  | none =>
    refine ⟨hheard.valid h.neighbors, h.distinct, ?_, h.bounded⟩
    intro nodeId hmem
    exact hheard.ids_kept (h.known nodeId hmem) (by simp [hevicted])
  | some evicted =>
    have hids := InfoCache.nodeIds_forget h.distinct evicted
    refine ⟨hheard.valid h.neighbors, ?_, ?_, ?_⟩
    · rw [hids]
      exact h.distinct.filter _
    · intro nodeId hmem
      rw [hids, List.mem_filter, decide_eq_true_eq] at hmem
      apply hheard.ids_kept (h.known nodeId hmem.1)
      rw [hevicted]
      intro heq
      exact hmem.2 (Option.some_injective _ heq).symm
    · rw [InfoCache.entries_forget h.distinct]
      exact (List.length_filter_le _ _).trans h.bounded

/-- Every cached id is one of a neighbour, so a table that is no larger than the cache leaves room for
a neighbour that is not cached. -/
theorem InStep.room (h : s.InStep) (hroom : NEIGHBORS ≤ CACHED) {nodeId : UInt64}
    (hknown : nodeId ∈ s.neighbors.ids) (hnew : nodeId ∉ s.info.nodeIds) :
    s.info.entries.length ≠ CACHED := by
  have hnodup : (nodeId :: s.info.nodeIds).Nodup := List.nodup_cons.mpr ⟨hnew, h.distinct⟩
  have hsub : nodeId :: s.info.nodeIds ⊆ s.neighbors.ids := by
    intro id hid
    rcases List.mem_cons.mp hid with rfl | hid
    · exact hknown
    · exact h.known id hid
  have hlength := (hnodup.subperm hsub).length_le
  have hids : s.neighbors.ids.length ≤ s.neighbors.entries.length := by
    refine (List.length_filter_le _ _).trans ?_
    rw [List.length_map]
  have hbounded := h.neighbors.bounded
  rw [List.length_cons, InfoCache.nodeIds, List.length_map] at hlength
  omega

theorem InStep.store (h : s.InStep) {reply : DeviceInfoReply}
    (hknown : reply.info.nodeId ∈ s.neighbors.ids) :
    InStep { s with info := (s.info.store reply).1 } := by
  obtain ⟨hmem, hids, -⟩ | ⟨-, -, hsame⟩ | ⟨hnew, hroom, hids, -⟩ := s.info.store_cases reply
  · refine ⟨h.neighbors, hids ▸ h.distinct, hids ▸ h.known, ?_⟩
    have hlength := congrArg List.length hids
    rw [InfoCache.nodeIds, InfoCache.nodeIds, List.length_map, List.length_map] at hlength
    exact hlength ▸ h.bounded
  · rw [hsame]
    exact h
  · refine ⟨h.neighbors, ?_, ?_, ?_⟩
    · rw [hids, List.nodup_append]
      refine ⟨h.distinct, List.nodup_singleton _, ?_⟩
      intro id hid other hother heq
      rw [List.mem_singleton] at hother
      exact hnew (hother ▸ heq ▸ hid)
    · intro id hid
      rw [hids, List.mem_append, List.mem_singleton] at hid
      rcases hid with hid | rfl
      · exact h.known id hid
      · exact hknown
    · have hlength := congrArg List.length hids
      rw [InfoCache.nodeIds, InfoCache.nodeIds, List.length_append, List.length_map, List.length_map,
        List.length_singleton] at hlength
      have hbounded := h.bounded
      change (s.info.store reply).1.entries.length ≤ CACHED
      omega

theorem InStep.onInfoReply (h : s.InStep) (reply : DeviceInfoReply) : (s.onInfoReply reply).InStep := by
  unfold InfoState.onInfoReply
  dsimp only
  split
  · split
    · rename_i hfind
      have htaken : InStep { s with infoRequests := (s.infoRequests.take reply.info.nodeId).1 } :=
        ⟨h.neighbors, h.distinct, h.known, h.bounded⟩
      exact htaken.store ((NeighborTable.find_isSome_iff _ _).mp hfind)
    · exact ⟨h.neighbors, h.distinct, h.known, h.bounded⟩
  · exact ⟨h.neighbors, h.distinct, h.known, h.bounded⟩
  · exact ⟨h.neighbors, h.distinct, h.known, h.bounded⟩

variable (other : OtherModules (InfoState NEIGHBORS REQUESTS CACHED STRING R) R)

theorem InStep.process (h : s.InStep) (nowMs : UInt32) (ingressPort : UInt8) (received : Received) :
    (s.process other nowMs ingressPort received).1.InStep := by
  unfold InfoState.process
  split
  · split
    · exact h
    · rename_i heartbeat _
      exact h.onHeartbeat nowMs received.src.toNodeId ingressPort heartbeat
  · split
    · split
      · exact h
      · rename_i reply _
        exact h.onInfoReply reply
    · exact ⟨h.neighbors, h.distinct, h.known, h.bounded⟩

theorem keeps_inStep : (modules other).Keeps InStep where
  onDatagram _ _ _ h := ⟨h.neighbors, h.distinct, h.known, h.bounded⟩
  process _ nowMs ingressPort received h := h.process other nowMs ingressPort received
  checkNeighbors s nowMs h := by
    have hids := NeighborTable.ids_of_keys (s.neighbors.keys_check nowMs)
    exact ⟨h.neighbors.check nowMs, h.distinct, fun id hid => hids ▸ h.known id hid, h.bounded⟩
  onNeighborRequestTimer _ _ h := ⟨h.neighbors, h.distinct, h.known, h.bounded⟩
  onServiceExpiry _ _ h := ⟨h.neighbors, h.distinct, h.known, h.bounded⟩
  recordInfo _ _ _ h := ⟨h.neighbors, h.distinct, h.known, h.bounded⟩
  takeInfo _ _ h := ⟨h.neighbors, h.distinct, h.known, h.bounded⟩
  recordTable _ _ _ _ h := ⟨h.neighbors, h.distinct, h.known, h.bounded⟩
  recordResource _ _ _ h := ⟨h.neighbors, h.distinct, h.known, h.bounded⟩

variable {PENDING : Nat}

theorem reached_inStep {nodeId : UInt64} {portCount : UInt8} {pingPayload : Nat} {rest : R}
    {node : Node (InfoState NEIGHBORS REQUESTS CACHED STRING R) PENDING}
    (h : Node.Reached (modules other) Allowed (.new nodeId portCount pingPayload (new rest)) node) :
    node.modules.InStep := by
  apply h.modules (keeps_inStep other) _ (inStep_new rest)
  rintro act ⟨change, rfl⟩ s hs
  exact ⟨hs.neighbors, hs.distinct, hs.known, hs.bounded⟩

/-- In every node that can be reached, no two descriptions are of one node, each is of a neighbour,
and a cache that is no smaller than the table takes the description of any neighbour. -/
theorem cached_info_of_neighbors {nodeId : UInt64} {portCount : UInt8} {pingPayload : Nat} {rest : R}
    {node : Node (InfoState NEIGHBORS REQUESTS CACHED STRING R) PENDING}
    (h : Node.Reached (modules other) Allowed (.new nodeId portCount pingPayload (new rest)) node) :
    node.modules.info.nodeIds.Nodup ∧
      (∀ id ∈ node.modules.info.nodeIds, (node.modules.neighbors.find id).isSome = true) ∧
      (∀ id, (node.modules.info.get id).isSome = true →
        (node.modules.neighbors.find id).isSome = true) ∧
      (NEIGHBORS ≤ CACHED → ∀ reply : DeviceInfoReply,
        (node.modules.neighbors.find reply.info.nodeId).isSome = true →
          (node.modules.info.store reply).2 = true) := by
  have hstep := reached_inStep other h
  have hknown : ∀ id ∈ node.modules.info.nodeIds, (node.modules.neighbors.find id).isSome = true := by
    intro id hid
    exact (NeighborTable.find_isSome_iff _ _).mpr (hstep.known id hid)
  refine ⟨hstep.distinct, hknown, ?_, ?_⟩
  · intro id hget
    exact hknown id ((InfoCache.get_isSome_iff _ _).mp hget)
  · intro hroom reply hfind
    have hneighbor := (NeighborTable.find_isSome_iff _ _).mp hfind
    obtain ⟨-, -, hstored⟩ | ⟨hnew, hfull, -⟩ | ⟨-, -, -, hstored⟩ :=
      node.modules.info.store_cases reply
    · exact hstored
    · exact absurd hfull (hstep.room hroom hneighbor hnew)
    · exact hstored

def freshNode (nodeId : UInt64) : Node (InfoState 2 4 2 8 Unit) 4 := .new nodeId 2 64 (new ())

/-- Node 2's heartbeat, as it arrives at a neighbour. -/
def heartbeatFrame : Bytes :=
  match ((freshNode 2).call (modules .idle) Node.zeroTx (.onTick 1000)).2 with
  | some outbound => outbound.frame
  | none => []

/-- Node 2's answer: zeros, but for its id and its name. -/
def replyFrame : Bytes :=
  match ((freshNode 2).call (modules .idle) Node.zeroTx (.send 1100 .linkLocalMulticast .deviceInfoReply
    (u64ToLe 2 ++ List.replicate 28 0 ++ [0, 1, 0x62]) 0)).2 with
  | some outbound => outbound.frame
  | none => []

def hearingNode : Node (InfoState 2 4 2 8 Unit) 4 :=
  ((freshNode 1).call (modules .idle) Node.zeroTx (.onFrame 1000 1 heartbeatFrame)).1

def answeredNode : Node (InfoState 2 4 2 8 Unit) 4 :=
  (hearingNode.call (modules .idle) Node.zeroTx (.onFrame 1100 1 replyFrame)).1

theorem cached_info_of_neighbors_answered : answeredNode.modules.info.nodeIds = [2] ∧
    (answeredNode.modules.neighbors.find 2).isSome = true := by
  have hheard : Node.Reached (modules .idle) Allowed (freshNode 1) hearingNode :=
    Node.Reached.start.step _ _ trivial
  have hanswered : Node.Reached (modules .idle) Allowed (freshNode 1) answeredNode :=
    hheard.step _ _ trivial
  have hids : answeredNode.modules.info.nodeIds = [2] := by decide +kernel
  have h := cached_info_of_neighbors .idle hanswered
  exact ⟨hids, h.2.1 2 (by rw [hids]; exact List.mem_singleton_self 2)⟩

end InfoState

end Bristlemouth
