import Mathlib.Logic.Relation
import Bristlemouth.Bcmp.Bodies
import Bristlemouth.Bcmp.ResourceTable
import Bristlemouth.Lib.Ledger
import Bristlemouth.Pubsub.SubscriptionRuns
import Bristlemouth.Service.Callbacks
import Bristlemouth.Service.Request
import Bristlemouth.Service.Table
import Bristlemouth.Stack.Transmit
import Bristlemouth.Wire.UdpBuild

/-!
# Service requests of a node

`node/services.rs` and `node/pubsub_api.rs`: every call that lists a request, delivers a publication or
ends a request. What a service makes of a request for it is a parameter. The requests and the power info
callbacks keep the accounts of a ledger.
-/

set_option autoImplicit false

namespace Bristlemouth

open Config Pubsub Service Service.PowerInfo

def serviceNameBytes : Nat := 48

/-- `SERVICE_REQUESTS` -/
def maxServiceRequests : Nat := 8

def resourceNameBytes : Nat := 64

def maxDataSize : Nat := 1024

def replyDataLen : Nat := maxDataSize - ReplyHeader.len

/-- `/rep` -/
def replySuffix : Bytes := [0x2F, 0x72, 0x65, 0x70]

/-- `pubsub::PORT` -/
def pubsubPort : UInt16 := 4321

def commonVersion : UInt8 := 2

def maxMessageLen : Nat := 1452

def RequestHeader.toBytes (h : RequestHeader) : Bytes := u32ToLe h.id ++ u32ToLe h.dataSize

def ReplyHeader.toBytes (h : ReplyHeader) : Bytes :=
  u64ToLe h.targetNodeId ++ u32ToLe h.id ++ u32ToLe h.dataSize

inductive ServiceHandler where
  | echo
  | sysInfo
  | configMap
  | powerInfo
  | metrics
  | application
deriving DecidableEq

/-- What the application is told. -/
inductive ServiceEvent where
  | publication (source : UInt64) (subscription topic : Bytes) (kind version : UInt8) (data : Bytes)
  | serviceReply (id : UInt32) (service data : Bytes)
  | serviceTimeout (id : UInt32) (service : Bytes)
  | powerInfoReply (id : UInt32) (reply : PowerInfoReply)
deriving DecidableEq

/-- What has happened, for history. -/
inductive ServiceMark where
  /-- A request was listed, and whether its callback was queued if it is one for power timings. -/
  | listed (id : UInt32) (powerInfo queued : Bool)
  /-- A request is no longer listed, by an answer or by a timeout. -/
  | ended (id : UInt32) (answered : Bool) (ended : Service.PowerInfo.Ended)
  | event (event : ServiceEvent)
deriving DecidableEq

/-- The stores a reply changes. -/
structure ServiceStores where
  requests : Requests maxServiceRequests serviceNameBytes
  powerInfo : Callbacks maxServiceRequests
  history : List ServiceMark

namespace ServiceStores

def new : ServiceStores := ⟨.new, .new, []⟩

def events (s : ServiceStores) (event : ServiceEvent) : ServiceStores :=
  { s with history := s.history ++ [.event event] }

def reportPowerInfo (s : ServiceStores) : Service.PowerInfo.Ended → ServiceStores
  | .called callback reply => s.events (.powerInfoReply callback reply)
  | _ => s

/-- The two matches on `on_end`: this event, or what a power info request comes to. -/
def reportEnd (s : ServiceStores) (event : ServiceEvent) : Service.PowerInfo.Ended → ServiceStores
  | .other => s.events event
  | ended => s.reportPowerInfo ended

/-- `add` and then, for power timings, `push`, whose result is not looked at. -/
def list (s : ServiceStores) (service : Bytes) (timeoutS nowMs : UInt32) (powerInfo : Bool) :
    ServiceStores × Option UInt32 :=
  match s.requests.add service timeoutS nowMs with
  | (_, none) => (s, none)
  | (requests, some id) =>
    let pushed := if powerInfo then s.powerInfo.push id else (s.powerInfo, false)
    (⟨requests, pushed.1, s.history ++ [.listed id powerInfo pushed.2]⟩, some id)

def answerRequest (u : Usize) (nodeId : UInt64) (body : Bytes) (s : ServiceStores) : ServiceStores :=
  match s.requests.onReply nodeId body with
  | (requests, .answered request data) =>
    let ended := s.powerInfo.onEnd u request.id (some data)
    let s : ServiceStores := ⟨requests, ended.1, s.history ++ [.ended request.id true ended.2]⟩
    s.reportEnd (.serviceReply request.id request.service data) ended.2
  | _ => s

/-- The loops over the subscriptions and over the callbacks of each: the reply callback runs once. -/
def deliverEach (u : Usize) (nodeId : UInt64) (topic : Bytes) (kind version : UInt8) (data : Bytes) :
    Bool → List (Bytes × Subscriber) → ServiceStores → ServiceStores
  | _, [], s => s
  | replied, (subscription, .application) :: rest, s =>
    deliverEach u nodeId topic kind version data replied rest
      (s.events (.publication nodeId subscription topic kind version data))
  | replied, (_, .reply) :: rest, s =>
    deliverEach u nodeId topic kind version data true rest
      (if replied then s else s.answerRequest u nodeId data)
  | replied, (_, .service) :: rest, s => deliverEach u nodeId topic kind version data replied rest s

/-- The closure that `on_tick` calls for each request that expires. -/
def expire (u : Usize) (s : ServiceStores) (request : Request serviceNameBytes) : ServiceStores :=
  let ended := s.powerInfo.onEnd u request.id none
  let s : ServiceStores :=
    { s with powerInfo := ended.1, history := s.history ++ [.ended request.id false ended.2] }
  s.reportEnd (.serviceTimeout request.id request.service) ended.2

def onServiceExpiry (u : Usize) (nowMs : UInt32) (s : ServiceStores) : ServiceStores :=
  let (requests, expired) := s.requests.onTick nowMs
  expired.foldl (expire u) { s with requests }

end ServiceStores

/-- What the services of a node answer from, with states `W`: the bytes of a reply, up to the length that
the handler gives. -/
structure ServiceHandlers (W : Type) where
  handle : W → ServiceHandler → UInt64 → UInt32 → Bytes → Bytes → W × Option Bytes

/-- The part of a node that requests and publications go through. -/
structure ServiceNode (W : Type) (RESOURCES : Nat) where
  nodeId : UInt64
  portCount : UInt8
  subscriptions : Subscriptions resourceNameBytes
  resources : ResourceTable RESOURCES resourceNameBytes
  serviceTable : ServiceTable ServiceHandler
  services : W
  stores : ServiceStores

/-- The topic, a header and the data, where `build_with` wants them. -/
def publicationWriter (topic : Bytes) (kind version : UInt8) (data : Bytes) : Datagram.PayloadWriter :=
  fun out =>
    match h : encode out topic kind version data with
    | .error e => .error e
    | .ok (out', n) => .ok (⟨out', length_encode h⟩, n)

inductive SubscribeError where
  | refused (error : SubscriptionError)
  | notAdvertised
deriving DecidableEq

/-- Why a request was not made, or was listed and not sent. -/
inductive ServiceRequestError where
  | tooLarge
  | full
  | notSubscribed (id : UInt32) (error : SubscribeError)
  | notSent (id : UInt32)
deriving DecidableEq

inductive PublishError where
  | emptyTopic
  | topicTooLong
  | messageTooLong
deriving DecidableEq

inductive RegisterError where
  | full
  | subscribe (error : SubscribeError)
deriving DecidableEq

inductive UnregisterError where
  | unsubscribe (error : SubscriptionError)
  | notListed
deriving DecidableEq

/-- Every callback that a topic reaches, in list order: no comparison fails, by `filterMatching_eq`. -/
def matchingEach (s : Subscriptions resourceNameBytes) (topic : Bytes) : List (Bytes × Subscriber) :=
  match s.matchingCallbacks topic with
  | .ok l => l.flatMap fun (subscription, callbacks) => callbacks.map (subscription, ·)
  | .error _ => []

namespace ServiceNode

variable {W : Type} {RESOURCES : Nat}

def new (nodeId : UInt64) (portCount : UInt8) (subscriptions : Subscriptions resourceNameBytes)
    (services : W) : ServiceNode W RESOURCES :=
  { nodeId, portCount, subscriptions, resources := .new, serviceTable := .new 16, services, stores := .new }

/-- Whether or not there was room for it. -/
def advertise (node : ServiceNode W RESOURCES) (topic : Bytes) : ServiceNode W RESOURCES :=
  { node with resources := (node.resources.add topic .publisher).1 }

def subscribeAs (node : ServiceNode W RESOURCES) (topic : Bytes) (subscriber : Subscriber) :
    ServiceNode W RESOURCES × Except SubscribeError Unit :=
  match node.subscriptions.subscribeAs topic subscriber with
  | (_, .error e) => (node, .error (.refused e))
  | (subscriptions, .ok ()) =>
    match node.resources.add topic .subscriber with
    | (_, .error .full) => ({ node with subscriptions }, .error .notAdvertised)
    | (resources, _) => ({ node with subscriptions, resources }, .ok ())

def subscribe (node : ServiceNode W RESOURCES) (topic : Bytes) :
    ServiceNode W RESOURCES × Except SubscribeError Unit := node.subscribeAs topic .application

def unsubscribe (node : ServiceNode W RESOURCES) (topic : Bytes) :
    ServiceNode W RESOURCES × Except SubscriptionError Unit :=
  match node.subscriptions.unsubscribe topic with
  | (subscriptions, result) => ({ node with subscriptions }, result)

def deliverLocally (u : Usize) (node : ServiceNode W RESOURCES) (topic : Bytes) (kind version : UInt8)
    (data : Bytes) : ServiceNode W RESOURCES :=
  { node with
    stores := node.stores.deliverEach u node.nodeId topic kind version data false
      (matchingEach node.subscriptions topic) }

/-- The transmit buffer afterwards and the frame's length. -/
def buildPublication (node : ServiceNode W RESOURCES) (tx topic : Bytes) (kind version : UInt8)
    (data : Bytes) : Except BmWireError (Bytes × Nat) :=
  let dst := BmIpAddr.globalMulticast
  Datagram.buildWith tx (Datagram.sourceAddress node.nodeId dst) dst pubsubPort pubsubPort
    (publicationWriter topic kind version data)

/-! ### Requests and publications of the application -/

/-- The rest of `request_with`, for a request that is listed. -/
def sendRequest (u : Usize) (node : ServiceNode W RESOURCES) (tx : Bytes) (id : UInt32)
    (service data : Bytes) : ServiceNode W RESOURCES × Except ServiceRequestError (UInt32 × Outbound) :=
  match topic (List.replicate (serviceNameBytes + replySuffix.length) 0) service replySuffix with
  | .error _ => (node, .error (.notSent id))
  | .ok (buf, len) =>
    match node.subscribeAs (buf.take len) .reply with
    | (node, .error e) => (node, .error (.notSubscribed id e))
    | (node, .ok ()) =>
      match topic buf service requestSuffix with
      | .error _ => (node, .error (.notSent id))
      | .ok (buf, len) =>
        let topic : Bytes := buf.take len
        let header : RequestHeader := { id, dataSize := UInt32.ofNat data.length }
        match node.buildPublication tx topic 0 commonVersion (header.toBytes ++ data) with
        | .error _ => (node, .error (.notSent id))
        | .ok (tx, stop) =>
          let frame : Bytes := tx.take stop
          match decode (frame.drop Datagram.payloadOffset) with
          | .error _ => (node, .error (.notSent id))
          | .ok request =>
            let node := node.deliverLocally u request.topic request.kind request.version request.data
            let node := node.advertise topic
            match takeRequestedEgressPort frame node.portCount with
            | .error _ => (node, .error (.notSent id))
            | .ok (frame, mask) => (node, .ok (id, ⟨frame, mask⟩))

def requestWith (u : Usize) (node : ServiceNode W RESOURCES) (tx : Bytes) (nowMs : UInt32)
    (service data : Bytes) (timeoutS : UInt32) (powerInfo : Bool) :
    ServiceNode W RESOURCES × Except ServiceRequestError (UInt32 × Outbound) :=
  if maxDataSize < data.length then (node, .error .tooLarge)
  else
    match node.stores.list service timeoutS nowMs powerInfo with
    | (_, none) => (node, .error .full)
    | (stores, some id) => { node with stores }.sendRequest u tx id service data

def serviceRequestWith (u : Usize) (node : ServiceNode W RESOURCES) (tx : Bytes) (nowMs : UInt32)
    (service data : Bytes) (timeoutS : UInt32) :
    ServiceNode W RESOURCES × Except ServiceRequestError (UInt32 × Outbound) :=
  node.requestWith u tx nowMs service data timeoutS false

/-- `bus_power_controller/timing` -/
def powerInfoService : Bytes :=
  [0x62, 0x75, 0x73, 0x5f, 0x70, 0x6f, 0x77, 0x65, 0x72, 0x5f, 0x63, 0x6f, 0x6e, 0x74, 0x72, 0x6f, 0x6c,
    0x6c, 0x65, 0x72, 0x2f, 0x74, 0x69, 0x6d, 0x69, 0x6e, 0x67]

def powerInfoRequestWith (u : Usize) (node : ServiceNode W RESOURCES) (tx : Bytes)
    (nowMs timeoutS : UInt32) : ServiceNode W RESOURCES × Except ServiceRequestError (UInt32 × Outbound) :=
  node.requestWith u tx nowMs powerInfoService [] timeoutS true

/-- The length is looked at only after the local deliveries. -/
def publishWith (u : Usize) (node : ServiceNode W RESOURCES) (tx topic : Bytes) (kind version : UInt8)
    (data : Bytes) : ServiceNode W RESOURCES × Except PublishError Outbound :=
  match checkTopic topic with
  | .error .emptyTopic => (node, .error .emptyTopic)
  | .error _ => (node, .error .topicTooLong)
  | .ok () =>
    let node := node.deliverLocally u topic kind version data
    if Pubsub.headerLen + topic.length + data.length > maxMessageLen then (node, .error .messageTooLong)
    else
      match node.buildPublication tx topic kind version data with
      | .error _ => (node, .error .messageTooLong)
      | .ok (tx, stop) =>
        let node := node.advertise topic
        match takeRequestedEgressPort (tx.take stop) node.portCount with
        | .error _ => (node, .error .messageTooLong)
        | .ok (frame, mask) => (node, .ok ⟨frame, mask⟩)

/-! ### Publications received -/

/-- What a delivery leaves: the reply is a frame of this length in the transmit buffer. -/
structure Delivery (W : Type) where
  services : W
  tx : Bytes
  replyEnd : Option Nat
  stores : ServiceStores

/-- The handler is called with a buffer in `tx`, once that is known to be there. -/
def serve (m : ServiceHandlers W) (node : ServiceNode W RESOURCES) (nowMs : UInt32) (source : UInt64)
    (publication : Publication) (d : Delivery W) : Delivery W :=
  match node.serviceTable.lookup publication.topic publication.data with
  | .call _ name handler header data =>
    let topic := name ++ replySuffix
    if d.tx.length < Datagram.payloadOffset + Pubsub.headerLen + topic.length + maxDataSize then
      { d with replyEnd := none }
    else
      match m.handle d.services handler node.nodeId nowMs name data with
      | (services, none) => { d with services, replyEnd := none }
      | (services, some reply) =>
        if replyDataLen < reply.length then { d with services, replyEnd := none }
        else
          let header : ReplyHeader :=
            { targetNodeId := source, id := header.id, dataSize := UInt32.ofNat reply.length }
          match node.buildPublication d.tx topic 0 commonVersion (header.toBytes ++ reply) with
          | .error _ => { d with services, replyEnd := none }
          | .ok (tx, stop) => { d with services, tx, replyEnd := some stop }
  | _ => { d with replyEnd := none }

/-- The loops over the subscriptions and over the callbacks of each: the service and the reply callback run
once. -/
def deliverEach (m : ServiceHandlers W) (u : Usize) (node : ServiceNode W RESOURCES) (nowMs : UInt32)
    (source : UInt64) (publication : Publication) :
    Bool → Bool → List (Bytes × Subscriber) → Delivery W → Delivery W
  | _, _, [], d => d
  | served, replied, (subscription, .application) :: rest, d =>
    let event := .publication source subscription publication.topic publication.kind publication.version
      publication.data
    deliverEach m u node nowMs source publication served replied rest
      { d with stores := d.stores.events event }
  | served, replied, (_, .service) :: rest, d =>
    deliverEach m u node nowMs source publication true replied rest
      (if served then d else node.serve m nowMs source publication d)
  | served, replied, (_, .reply) :: rest, d =>
    deliverEach m u node nowMs source publication served true rest
      (if replied then d
        else { d with stores := d.stores.answerRequest u node.nodeId publication.data })

/-- The reply is delivered locally before it is sent. -/
def deliverPublication (m : ServiceHandlers W) (u : Usize) (node : ServiceNode W RESOURCES) (tx : Bytes)
    (nowMs : UInt32) (source : UInt64) (publication : Publication) :
    ServiceNode W RESOURCES × Option Outbound :=
  let d := node.deliverEach m u nowMs source publication false false
    (matchingEach node.subscriptions publication.topic) ⟨node.services, tx, none, node.stores⟩
  let node := { node with services := d.services, stores := d.stores }
  match d.replyEnd with
  | none => (node, none)
  | some stop =>
    let frame : Bytes := d.tx.take stop
    match decode (frame.drop Datagram.payloadOffset) with
    | .error _ => (node, none)
    | .ok reply =>
      let node := node.deliverLocally u reply.topic reply.kind reply.version reply.data
      let node := node.advertise reply.topic
      match takeRequestedEgressPort frame node.portCount with
      | .error _ => (node, none)
      | .ok (frame, mask) => (node, some ⟨frame, mask⟩)

/-- What `submit` does with a datagram for the publications' port. -/
def onFrame (m : ServiceHandlers W) (u : Usize) (node : ServiceNode W RESOURCES) (tx : Bytes)
    (nowMs : UInt32) (frame : Bytes) : ServiceNode W RESOURCES × Option Outbound :=
  match Datagram.accept frame with
  | .error _ => (node, none)
  | .ok datagram =>
    if datagram.dstPort = pubsubPort ∧ datagram.srcPort = pubsubPort then
      match decode datagram.payload with
      | .error _ => (node, none)
      | .ok publication => node.deliverPublication m u tx nowMs datagram.source publication
    else (node, none)

/-! ### Services and the timer -/

def listService (node : ServiceNode W RESOURCES) (name : Bytes) (handler : ServiceHandler) :
    ServiceNode W RESOURCES × Except RegisterError Unit :=
  match node.serviceTable.add serviceNameBytes name handler with
  | (_, false) => (node, .error .full)
  | (serviceTable, true) =>
    let node := { node with serviceTable }
    match topic (List.replicate (serviceNameBytes + requestSuffix.length) 0) name requestSuffix with
    | .error _ => (node, .error .full)
    | .ok (buf, len) =>
      match node.subscribeAs (buf.take len) .service with
      | (node, .error e) => (node, .error (.subscribe e))
      | (node, .ok ()) => (node, .ok ())

def unregisterService (node : ServiceNode W RESOURCES) (name : Bytes) :
    ServiceNode W RESOURCES × Except UnregisterError Unit :=
  match topic (List.replicate (serviceNameBytes + requestSuffix.length) 0) name requestSuffix with
  | .error _ =>
    (node, .error (.unsubscribe
      (if topicMaxLen ≤ name.length + requestSuffix.length then .topicTooLong else .notSubscribed)))
  | .ok (buf, len) =>
    match node.subscriptions.unsubscribeAs (buf.take len) .service with
    | (_, .error e) => (node, .error (.unsubscribe e))
    | (subscriptions, .ok ()) =>
      let (serviceTable, removed) := node.serviceTable.remove name
      ({ node with subscriptions, serviceTable }, if removed then .ok () else .error .notListed)

def onServiceExpiry (u : Usize) (node : ServiceNode W RESOURCES) (nowMs : UInt32) :
    ServiceNode W RESOURCES :=
  { node with stores := node.stores.onServiceExpiry u nowMs }

end ServiceNode

/-- A call of the application or of the stack's task, each with the transmit buffer as it finds it. -/
inductive ServiceCall (W : Type) where
  | subscribe (topic : Bytes)
  | unsubscribe (topic : Bytes)
  | listService (name : Bytes) (handler : ServiceHandler)
  | unregisterService (name : Bytes)
  | services (services : W)
  | serviceRequest (tx : Bytes) (nowMs : UInt32) (service data : Bytes) (timeoutS : UInt32)
  | powerInfoRequest (tx : Bytes) (nowMs timeoutS : UInt32)
  | publish (tx topic : Bytes) (kind version : UInt8) (data : Bytes)
  | frame (tx : Bytes) (nowMs : UInt32) (frame : Bytes)
  | expiry (nowMs : UInt32)

namespace ServiceNode

variable {W : Type} {RESOURCES : Nat}

def call (m : ServiceHandlers W) (u : Usize) (node : ServiceNode W RESOURCES) :
    ServiceCall W → ServiceNode W RESOURCES
  | .subscribe topic => (node.subscribe topic).1
  | .unsubscribe topic => (node.unsubscribe topic).1
  | .listService name handler => (node.listService name handler).1
  | .unregisterService name => (node.unregisterService name).1
  | .services services => { node with services }
  | .serviceRequest tx nowMs service data timeoutS =>
    (node.serviceRequestWith u tx nowMs service data timeoutS).1
  | .powerInfoRequest tx nowMs timeoutS => (node.powerInfoRequestWith u tx nowMs timeoutS).1
  | .publish tx topic kind version data => (node.publishWith u tx topic kind version data).1
  | .frame tx nowMs frame => (node.onFrame m u tx nowMs frame).1
  | .expiry nowMs => node.onServiceExpiry u nowMs

def run (m : ServiceHandlers W) (u : Usize) (node : ServiceNode W RESOURCES) (calls : List (ServiceCall W)) :
    ServiceNode W RESOURCES := calls.foldl (call m u) node

end ServiceNode

end Bristlemouth
