import Bristlemouth.Bcmp.Packet

/-!
# The packet registry

`registry.rs`: which message types are registered, which requests are still
outstanding, and the sweep that retries them and gives up on them.
-/

set_option autoImplicit false

namespace Bristlemouth

def defaultMessageTimeoutMs : UInt32 := 24
def messageTimerExpiryPeriodMs : UInt32 := 150
def packetRetryCount : UInt8 := 3

structure PacketCfg where
  sequencedReply : Bool
  sequencedRequest : Bool
deriving DecidableEq

def PacketCfg.unsequenced : PacketCfg := ⟨false, false⟩
def PacketCfg.request : PacketCfg := ⟨false, true⟩
def PacketCfg.reply : PacketCfg := ⟨true, false⟩

structure PendingRequest where
  messageType : MessageType
  seqNum : UInt32
  timestampMs : UInt32
  timeoutMs : UInt32
  retries : UInt8
deriving DecidableEq

/-- The subtraction is unsigned: a clock that has gone backwards expires the request. -/
def PendingRequest.expiredAt (request : PendingRequest) (nowMs : UInt32) : Bool :=
  request.timeoutMs ≤ nowMs - request.timestampMs

/-- What a sweep makes of a request it sends again. -/
def PendingRequest.retriedAt (request : PendingRequest) (nowMs : UInt32) : PendingRequest :=
  { request with retries := request.retries + 1, timestampMs := nowMs }

inductive Expiry where
  | retry (request : PendingRequest)
  | timedOut (request : PendingRequest)
deriving DecidableEq

inductive RegistryError where
  | unknownType
  | full
deriving DecidableEq

structure Outgoing where
  seqNum : UInt32
  tracked : Bool
deriving DecidableEq

inductive Delivery where
  | unregistered
  | sequencedReply (request : PendingRequest)
  | process
deriving DecidableEq

/-- The occupied parts of the two arrays, with room for `TYPES` and `PENDING` entries. -/
structure Registry (TYPES PENDING : Nat) where
  types : List (MessageType × PacketCfg)
  pending : List PendingRequest
  messageCount : UInt32
  nextSweepMs : UInt32
deriving DecidableEq

namespace Registry

variable {TYPES PENDING : Nat}

/-- An empty registry lined up with one that is already running. -/
def resuming (sequenceCount nextSweepMs : UInt32) : Registry TYPES PENDING :=
  { types := [], pending := [], messageCount := sequenceCount, nextSweepMs }

def new : Registry TYPES PENDING := resuming 0 messageTimerExpiryPeriodMs

def startedAt (nowMs : UInt32) : Registry TYPES PENDING :=
  resuming 0 (nowMs + messageTimerExpiryPeriodMs)

/-- Duplicates are allowed; a second registration is dead until the first is removed. -/
def add (r : Registry TYPES PENDING) (messageType : MessageType) (cfg : PacketCfg) :
    Registry TYPES PENDING × Except RegistryError Unit :=
  if r.types.length = TYPES then (r, .error .full)
  else ({ r with types := r.types ++ [(messageType, cfg)] }, .ok ())

def remove (r : Registry TYPES PENDING) (messageType : MessageType) : Registry TYPES PENDING × Bool :=
  match r.types.findIdx? fun entry => entry.1 = messageType with
  | none => (r, false)
  | some index => ({ r with types := r.types.eraseIdx index }, true)

def cfg (r : Registry TYPES PENDING) (messageType : MessageType) : Option PacketCfg :=
  (r.types.find? fun entry => entry.1 = messageType).map Prod.snd

def newRequest (r : Registry TYPES PENDING) (nowMs : UInt32) (messageType : MessageType) :
    PendingRequest :=
  { messageType, seqNum := r.messageCount, timestampMs := nowMs,
    timeoutMs := defaultMessageTimeoutMs, retries := 0 }

def onSerialize (r : Registry TYPES PENDING) (nowMs : UInt32) (messageType : MessageType)
    (replySeqNum : UInt32) : Registry TYPES PENDING × Except RegistryError Outgoing :=
  match r.cfg messageType with
  | none => (r, .error .unknownType)
  | some cfg =>
    if cfg.sequencedReply then (r, .ok ⟨replySeqNum, false⟩)
    else if !cfg.sequencedRequest then (r, .ok ⟨0, false⟩)
    -- The counter moves whether or not the request can be recorded.
    else if r.pending.length < PENDING then
      ({ r with
          messageCount := r.messageCount + 1
          pending := r.pending ++ [r.newRequest nowMs messageType] }, .ok ⟨r.messageCount, true⟩)
    else ({ r with messageCount := r.messageCount + 1 }, .ok ⟨r.messageCount, false⟩)

/-- The match is on the sequence number alone. -/
def onReceived (r : Registry TYPES PENDING) (messageType : MessageType) (seqNum : UInt32) :
    Registry TYPES PENDING × Delivery :=
  match r.cfg messageType with
  | none => (r, .unregistered)
  | some cfg =>
    if !(cfg.sequencedReply && !cfg.sequencedRequest) then (r, .process)
    else
      match r.pending.findIdx? fun request => request.seqNum = seqNum with
      | none => (r, .process)
      | some index =>
        match r.pending[index]? with
        | none => (r, .process)
        | some request => ({ r with pending := r.pending.eraseIdx index }, .sequencedReply request)

/-- The loop of `sweep`: the array is compacted under the walk when a request is given up on. -/
def sweepFrom (nowMs : UInt32) (pending : List PendingRequest) (index : Nat) :
    List PendingRequest × List Expiry :=
  if h : index < pending.length then
    let request := pending[index]
    if !request.expiredAt nowMs then sweepFrom nowMs pending (index + 1)
    else if request.retries < packetRetryCount then
      let request := request.retriedAt nowMs
      let (pending, expired) := sweepFrom nowMs (pending.set index request) (index + 1)
      (pending, .retry request :: expired)
    else
      let (pending, expired) := sweepFrom nowMs (pending.eraseIdx index) index
      (pending, .timedOut request :: expired)
  else (pending, [])
termination_by pending.length - index
decreasing_by
  · omega
  · rw [List.length_set]
    omega
  · rw [List.length_eraseIdx_of_lt h]
    omega

def sweep (r : Registry TYPES PENDING) (nowMs : UInt32) : Registry TYPES PENDING × List Expiry :=
  let (pending, expired) := sweepFrom nowMs r.pending 0
  ({ r with pending }, expired)

/-- The sign bit of the difference decides whether a sweep is due. -/
def onTick (r : Registry TYPES PENDING) (nowMs : UInt32) : Registry TYPES PENDING × List Expiry :=
  if (nowMs - r.nextSweepMs).toNat ≥ 2 ^ 31 then (r, [])
  else
    let missed := (nowMs - r.nextSweepMs) / messageTimerExpiryPeriodMs
    sweep { r with nextSweepMs := r.nextSweepMs + messageTimerExpiryPeriodMs * (missed + 1) } nowMs

end Registry

/-! ### What a sweep does to one request -/

/-- What is left of a request after a sweep. -/
def PendingRequest.survivor (request : PendingRequest) (nowMs : UInt32) : Option PendingRequest :=
  if !request.expiredAt nowMs then some request
  else if request.retries < packetRetryCount then some (request.retriedAt nowMs)
  else none

/-- What a sweep reports about a request. -/
def PendingRequest.report (request : PendingRequest) (nowMs : UInt32) : Option Expiry :=
  if !request.expiredAt nowMs then none
  else if request.retries < packetRetryCount then some (.retry (request.retriedAt nowMs))
  else some (.timedOut request)

namespace Registry

variable {TYPES PENDING : Nat}

/-- Every request behind the index is looked at once, whatever was removed before it. -/
theorem sweepFrom_eq (nowMs : UInt32) (done rest : List PendingRequest) :
    sweepFrom nowMs (done ++ rest) done.length =
      (done ++ rest.filterMap (·.survivor nowMs), rest.filterMap (·.report nowMs)) := by
  induction rest generalizing done with
  | nil =>
    rw [sweepFrom, dif_neg (by simp)]
    rfl
  | cons request rest ih =>
    have hget : (done ++ request :: rest)[done.length]? = some request := by simp
    have hlt : done.length < (done ++ request :: rest).length := by simp
    rw [sweepFrom, dif_pos hlt]
    have hrequest : (done ++ request :: rest)[done.length] = request := by simp
    rw [hrequest]
    dsimp only
    by_cases hlive : request.expiredAt nowMs
    · by_cases hretry : request.retries < packetRetryCount
      · have hset : (done ++ request :: rest).set done.length (request.retriedAt nowMs) =
            (done ++ [request.retriedAt nowMs]) ++ rest := by simp
        have hnext := ih (done ++ [request.retriedAt nowMs])
        rw [List.length_append, List.length_singleton] at hnext
        rw [if_neg (by simp [hlive]), if_pos hretry, hset, hnext]
        simp [PendingRequest.survivor, PendingRequest.report, hlive, hretry]
      · have herase : (done ++ request :: rest).eraseIdx done.length = done ++ rest := by
          simp [List.eraseIdx_append_of_length_le]
        rw [if_neg (by simp [hlive]), if_neg hretry, herase, ih done]
        simp [PendingRequest.survivor, PendingRequest.report, hlive, hretry]
    · have hkeep : done ++ request :: rest = (done ++ [request]) ++ rest := by simp
      have hnext := ih (done ++ [request])
      rw [List.length_append, List.length_singleton] at hnext
      rw [if_pos (by simp [hlive]), hkeep, hnext]
      simp [PendingRequest.survivor, PendingRequest.report, hlive]

theorem sweep_eq (r : Registry TYPES PENDING) (nowMs : UInt32) :
    r.sweep nowMs = ({ r with pending := r.pending.filterMap (·.survivor nowMs) },
      r.pending.filterMap (·.report nowMs)) := by
  have h := sweepFrom_eq nowMs [] r.pending
  rw [List.nil_append, List.length_nil] at h
  rw [sweep, h]
  rfl

end Registry

end Bristlemouth
