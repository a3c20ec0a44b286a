import Bristlemouth.Dfu.Core
import Mathlib.Tactic.Simps.Basic

/-!
# The DFU state machine

`Dfu` of `dfu_core.rs` over any pair of roles. The machine is kept together
with its environment, so that a role's function takes and returns one value.
-/

set_option autoImplicit false

namespace Bristlemouth

structure Dfu (R E : Type) where
  core : Dfu.Core
  roles : R
  fx : E

namespace Dfu

section Methods

variable {R E : Type} [Effects E]

@[simps] def setPendingStateChange (d : Dfu R E) (state : State) : Dfu R E :=
  { d with core := d.core.setPendingStateChange state }

@[simps] def setError (d : Dfu R E) (error : DfuErr) : Dfu R E := { d with core := d.core.setError error }

@[simps] def setRebootInfo (d : Dfu R E) (info : RebootInfo) : Dfu R E := { d with core := d.core.setRebootInfo info }

@[simps] def startTimer (d : Dfu R E) (timer : Timer) : Dfu R E := { d with core := d.core.startTimer timer }

@[simps] def stopTimer (d : Dfu R E) (timer : Timer) : Dfu R E := { d with core := d.core.stopTimer timer }

@[simps] def changePeriod (d : Dfu R E) (timer : Timer) (periodMs : UInt32) : Dfu R E :=
  { d with core := d.core.changePeriod timer periodMs }

@[simps] def delay (d : Dfu R E) (ms : UInt32) : Dfu R E := { d with core := d.core.delay ms }

@[simps] def send (d : Dfu R E) (message : DfuMessage) : Dfu R E := { d with fx := Effects.send d.fx message }

@[simps!] def sendAck (d : Dfu R E) (dst : UInt64) (success : UInt8) (err : DfuErr) : Dfu R E :=
  d.send (.ack ⟨d.core.addressTo dst, success, err.val⟩)

@[simps!] def reqNextChunk (d : Dfu R E) (dst : UInt64) (chunkNum : UInt16) : Dfu R E :=
  d.send (.payloadReq ⟨d.core.addressTo dst, chunkNum⟩)

@[simps!] def updateEnd (d : Dfu R E) (dst : UInt64) (success : UInt8) (err : DfuErr) : Dfu R E :=
  d.send (.updateEnd ⟨d.core.addressTo dst, success, err.val⟩)

end Methods

/-- The client and host states. -/
class Roles (R : Type) where
  entry : {E : Type} → [Effects E] → State → Dfu R E → Dfu R E
  run : {E : Type} → [Effects E] → State → Dfu R E → Dfu R E
  exit : {E : Type} → [Effects E] → State → Dfu R E → Dfu R E
  clientProcessUpdateRequest : {E : Type} → [Effects E] → Dfu R E → Dfu R E
  hostSetParams : R → Bool → UInt32 → R
  clientHostNodeValid : R → UInt64 → Bool
  hostClientNodeValid : R → UInt64 → Bool

inductive Accepted where
  | queued (kind : EventType)
  | notForUs
  | wrongPeer
  | unknownType
  | queueFull
  | truncated
  | tooLong
deriving DecidableEq

def newCore (selfNodeId : UInt64) (rebootInfo : RebootInfo) : Core :=
  { state := .init
    current := Event.none
    pending := none
    error := .none
    selfNodeId
    clientNodeId := 0
    notify := false
    internal := false
    queue := (EventQueue.new.push (Event.bare .initSuccess)).1
    rebootInfo
    clock := none
    timers := fun _ => none
    periods := Timer.periodMs
    lost := fun _ => false }

section Machine

variable {R E : Type} [Roles R] [Effects E]

def new (selfNodeId : UInt64) (rebootInfo : RebootInfo) (roles : R) (fx : E) : Dfu R E :=
  ⟨newCore selfNodeId rebootInfo, roles, fx⟩

/-- Whether the current state accepts a message from `src`. -/
def sourceValid (d : Dfu R E) (src : UInt64) : Bool :=
  if d.core.state.isClient then Roles.clientHostNodeValid d.roles src
  else if d.core.state.isHost then Roles.hostClientNodeValid d.roles src
  else true

def onMessage (d : Dfu R E) (body : Bytes) : Accepted × Dfu R E :=
  match DfuAddress.ofBody body with
  | .error _ => (.truncated, d)
  | .ok address =>
    if address.dstNodeId ≠ d.core.selfNodeId then (.notForUs, d)
    else if !d.sourceValid address.srcNodeId then (.wrongPeer, d)
    else
      match EventType.forFrameType (body.byteAt 0) with
      | none => (.unknownType, d)
      | some kind =>
        match Event.message kind body with
        | .error _ => (.tooLong, d)
        | .ok event =>
          if (d.core.queue.push event).2 then (.queued kind, { d with core := d.core.post event })
          else (.queueFull, d)

/-- `initiate_update`'s refusal. -/
def refuse (d : Dfu R E) (notify : Bool) (dstNodeId : UInt64) : Dfu R E :=
  if notify then { d with fx := Effects.updateFinished d.fx false .inProgress dstNodeId } else d

def initiateUpdate (d : Dfu R E) (info : ImgInfo) (dstNodeId : UInt64) (notify : Bool)
    (timeoutMs : UInt32) (internal : Bool) : Bool × Dfu R E :=
  if info.chunkSize.toNat > dfuMaxChunkSize then (false, d)
  else if d.core.state ≠ .idle then (false, d.refuse notify dstNodeId)
  else
    let start : HostStart := ⟨⟨d.core.addressTo dstNodeId, info⟩, notify, timeoutMs⟩
    let event : Event := ⟨.beginHost, .hostStart start⟩
    if (d.core.queue.push event).2 then (true, { d with core := { d.core.post event with internal } })
    else (false, d.refuse notify dstNodeId)

def poll (d : Dfu R E) (nowMs : UInt32) : Dfu R E := { d with core := d.core.advanceTo nowMs }

def runState (state : State) (d : Dfu R E) : Dfu R E :=
  match state with
  | .init =>
    if d.core.current.kind = .initSuccess then
      d.setPendingStateChange (if d.core.rebootInfo.magic = dfuRebootMagic then .clientRebootDone else .idle)
    else d
  | .idle =>
    match d.core.current.kind with
    | .receivedUpdateRequest => Roles.clientProcessUpdateRequest d
    | .beginHost =>
      match d.core.current.data with
      | .hostStart start =>
        let core := { d.core with notify := start.notify, clientNodeId := start.start.addresses.dstNodeId }
        let roles := Roles.hostSetParams d.roles start.notify start.timeoutMs
        ({ d with core, roles } : Dfu R E).setPendingStateChange .hostReqUpdate
      | _ => d
    | _ => d
  | .error => d
  | state => Roles.run state d

def enterState (state : State) (d : Dfu R E) : Dfu R E :=
  match state with
  | .init => d
  | .idle => { d with fx := Effects.lpmPeripheralInactive d.fx }.setRebootInfo {}
  | .error =>
    let d := { d with fx := Effects.lpmPeripheralInactive d.fx }
    let d := if d.core.notify then
        { d with fx := Effects.updateFinished d.fx false d.core.error d.core.clientNodeId }
      else d
    if d.core.error.isFatal then d else d.setPendingStateChange .idle
  | state => Roles.entry state d

def exitState (state : State) (d : Dfu R E) : Dfu R E :=
  match state with
  | .init | .error => d
  | .idle => { d with fx := Effects.lpmPeripheralActive d.fx }
  | state => Roles.exit state d

/-- Run the state, then take a pending change. A change to the current state neither exits nor
enters it. -/
def libSmRun (d : Dfu R E) : Dfu R E :=
  let state := d.core.state
  let d := runState state d
  match d.core.pending with
  | none => d
  | some next =>
    let d := { d with core := { d.core with pending := none } }
    if next = state then d
    else
      let d := exitState state d
      enterState next { d with core := { d.core with state := next } }

def runEvent (d : Dfu R E) (event : Event) (nowMs : UInt32) : Dfu R E :=
  let d := d.poll nowMs
  let d := libSmRun { d with core := { d.core with current := event } }
  { d with core := { d.core with current := Event.none } }

def step (d : Dfu R E) (nowMs : UInt32) : Option EventType × Dfu R E :=
  let d := d.poll nowMs
  match EventQueue.pop d.core.queue with
  | none => (none, d)
  | some (event, queue) =>
    (some event.kind, runEvent { d with core := { d.core with queue } } event nowMs)

end Machine

/-! ### Runs -/

/-- What a caller does to the machine. -/
inductive Input where
  | onMessage (body : Bytes)
  | initiateUpdate (info : ImgInfo) (dstNodeId : UInt64) (notify : Bool) (timeoutMs : UInt32)
      (internal : Bool)
  | poll (nowMs : UInt32)
  | step (nowMs : UInt32)

def apply {R E : Type} [Roles R] [Effects E] (d : Dfu R E) : Input → Dfu R E
  | .onMessage body => (d.onMessage body).2
  | .initiateUpdate info dst notify timeoutMs internal =>
    (d.initiateUpdate info dst notify timeoutMs internal).2
  | .poll nowMs => d.poll nowMs
  | .step nowMs => (d.step nowMs).2

def runs {R E : Type} [Roles R] [Effects E] (d : Dfu R E) (inputs : List Input) : Dfu R E :=
  inputs.foldl apply d

end Dfu

end Bristlemouth
