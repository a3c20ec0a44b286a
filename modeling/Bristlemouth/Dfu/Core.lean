import Bristlemouth.Dfu.Message
import Bristlemouth.Lib.RingQueue
import Mathlib.Data.List.MinMax
import Mathlib.Logic.Function.Basic

/-!
# The DFU core

The data of `dfu_core.rs` and the methods of its `Core`: the state, the current
event, the pending change, the five-deep event queue, and the timers kept as
deadlines against a clock the caller advances.
-/

set_option autoImplicit false

namespace Bristlemouth.Dfu

def eventQueueLen : Nat := 5

def dfuRebootMagic : UInt32 := 0xBADC0FFE

/-- A 1514-byte Ethernet frame less its Ethernet, IPv6 and BCMP headers. -/
@[simp] def maxEventBodyLen : Nat := 1514 - 54 - 13

inductive State where
  | init
  | idle
  | error
  | clientReceiving
  | clientValidating
  | clientRebootReq
  | clientRebootDone
  | clientActivating
  | hostReqUpdate
  | hostUpdate
deriving DecidableEq, Repr

def State.isClient : State → Bool
  | clientReceiving | clientValidating | clientRebootReq | clientRebootDone | clientActivating => true
  | _ => false

def State.isHost : State → Bool
  | hostReqUpdate | hostUpdate => true
  | _ => false

inductive EventType where
  | none
  | initSuccess
  | receivedUpdateRequest
  | chunkRequest
  | imageChunk
  | updateEnd
  | ackReceived
  | ackTimeout
  | chunkTimeout
  | heartbeat
  | abort
  | beginHost
  | rebootRequest
  | reboot
  | bootComplete
deriving DecidableEq, Repr

/-- The event queued for a body by its first byte. -/
def EventType.forFrameType (frameType : UInt8) : Option EventType :=
  if frameType = 0xD0 then some receivedUpdateRequest
  else if frameType = 0xD2 then some imageChunk
  else if frameType = 0xD3 then some updateEnd
  else if frameType = 0xD4 then some ackReceived
  else if frameType = 0xD5 then some abort
  else if frameType = 0xD6 then some heartbeat
  else if frameType = 0xD1 then some chunkRequest
  else if frameType = 0xD7 then some rebootRequest
  else if frameType = 0xD8 then some reboot
  else if frameType = 0xD9 then some bootComplete
  else Option.none

/-- A newtype over the byte: the host stores received values unchecked. -/
structure DfuErr where
  val : UInt8
deriving DecidableEq

namespace DfuErr

def none : DfuErr := ⟨0⟩
def tooLarge : DfuErr := ⟨1⟩
def sameVer : DfuErr := ⟨2⟩
def mismatchLen : DfuErr := ⟨3⟩
def badCrc : DfuErr := ⟨4⟩
def timeout : DfuErr := ⟨6⟩
def bmFrame : DfuErr := ⟨7⟩
def aborted : DfuErr := ⟨8⟩
def wrongVer : DfuErr := ⟨9⟩
def inProgress : DfuErr := ⟨10⟩
def chunkSize : DfuErr := ⟨11⟩
def confirmationAbort : DfuErr := ⟨13⟩
def flashAccess : DfuErr := ⟨14⟩

def isFatal (e : DfuErr) : Bool := decide (e.val ≥ flashAccess.val)

end DfuErr

/-! ### Timers and events -/

inductive Timer where
  | chunk
  | ack
  | update
deriving DecidableEq, Repr

namespace Timer

/-- In creation order. -/
def all : List Timer := [chunk, ack, update]

theorem mem_all (t : Timer) : t ∈ all := by cases t <;> decide

def periodMs : Timer → UInt32
  | chunk => 2000
  | ack => 10000
  | update => 300000

def event : Timer → EventType
  | chunk => .chunkTimeout
  | ack => .ackTimeout
  | update => .abort

end Timer

/-- What a client leaves in no-init RAM for the image it reboots into. -/
structure RebootInfo where
  magic : UInt32 := 0
  major : UInt8 := 0
  minor : UInt8 := 0
  hostNodeId : UInt64 := 0
  gitSha : UInt32 := 0
deriving DecidableEq

structure HostStart where
  start : DfuStart
  notify : Bool
  timeoutMs : UInt32
deriving DecidableEq

inductive EventData where
  | none
  | message (body : Bytes)
  | hostStart (h : HostStart)
deriving DecidableEq

structure Event where
  kind : EventType
  data : EventData
deriving DecidableEq

namespace Event

def bare (kind : EventType) : Event := ⟨kind, .none⟩

def none : Event := bare .none

def message (kind : EventType) (body : Bytes) : Except BmWireError Event :=
  if body.length > maxEventBodyLen then .error .invalid else .ok ⟨kind, .message body⟩

/-- The received body, if the event carries one. -/
def body (e : Event) : Option Bytes :=
  match e.data with
  | .message b => some b
  | _ => Option.none

@[simp] theorem body_bare (k : EventType) : (bare k).body = Option.none := rfl

@[simp] theorem kind_bare (k : EventType) : (bare k).kind = k := rfl

theorem ne_bare {e : Event} {k : EventType} (h : e.kind ≠ k) : e ≠ bare k := by
  rintro rfl
  exact h rfl

end Event

abbrev EventQueue := RingQueue Event eventQueueLen

namespace EventQueue

def new : EventQueue := RingQueue.new Event.none (by decide)

/-- The oldest event, whose slot is cleared. -/
def pop (q : EventQueue) : Option (Event × EventQueue) :=
  if q.len = 0 then Option.none else some (q.nth 0, (q.setNth 0 Event.none).advance)

theorem pop_eq_none {q : EventQueue} : pop q = Option.none ↔ q.toList = [] := by
  rw [pop, ← List.length_eq_zero_iff, RingQueue.length_toList]
  split <;> simp_all

theorem pop_eq_some {q q' : EventQueue} {e : Event} (h : pop q = some (e, q')) :
    q.toList = e :: q'.toList := by
  rw [pop] at h
  split at h
  · cases h
  · rename_i hlen
    simp only [Option.some.injEq, Prod.mk.injEq] at h
    obtain ⟨rfl, rfl⟩ := h
    rw [q.toList_setNth_advance Event.none (by omega)]
    exact q.toList_eq_cons (by omega)

end EventQueue

/-! ### The core -/

/-- `x as i32`. -/
def asI32 (x : UInt32) : Int := x.toBitVec.toInt

structure Core where
  state : State
  current : Event
  pending : Option State
  error : DfuErr
  selfNodeId : UInt64
  clientNodeId : UInt64
  notify : Bool
  internal : Bool
  queue : EventQueue
  rebootInfo : RebootInfo
  clock : Option UInt32
  timers : Timer → Option UInt32
  periods : Timer → UInt32
  /-- History only, read by no function: whether the timer's last expiry found the queue full. -/
  lost : Timer → Bool

namespace Core

def setPendingStateChange (c : Core) (state : State) : Core :=
  { c with pending := some state, queue := (c.queue.push Event.none).1 }

def setError (c : Core) (error : DfuErr) : Core := { c with error }

def post (c : Core) (event : Event) : Core := { c with queue := (c.queue.push event).1 }

def setRebootInfo (c : Core) (rebootInfo : RebootInfo) : Core := { c with rebootInfo }

def now (c : Core) : UInt32 := c.clock.getD 0

def startTimer (c : Core) (timer : Timer) : Core :=
  { c with
    timers := Function.update c.timers timer (some (c.now + c.periods timer))
    lost := Function.update c.lost timer false }

def changePeriod (c : Core) (timer : Timer) (periodMs : UInt32) : Core :=
  startTimer { c with periods := Function.update c.periods timer periodMs } timer

def stopTimer (c : Core) (timer : Timer) : Core :=
  { c with timers := Function.update c.timers timer none }

def isDue (c : Core) (timer : Timer) : Bool :=
  match c.timers timer with
  | some d => decide (0 ≤ asI32 (c.now - d))
  | none => false

/-- How far ahead of the clock a running timer's deadline is. -/
def deadlineKey (c : Core) (timer : Timer) : Int :=
  match c.timers timer with
  | some d => asI32 (d - c.now)
  | none => 0

/-- The due timer with the earliest deadline, ties in creation order. -/
def nextDue (c : Core) : Option Timer :=
  @List.argmin Timer Int Int.instLinearOrder.toPreorder _ c.deadlineKey (Timer.all.filter c.isDue)

/-- One turn of the loop of `fire_due`. A post that finds the queue full is lost. -/
def expire (c : Core) (timer : Timer) : Core :=
  { c with
    timers := Function.update c.timers timer none
    queue := (c.queue.push (Event.bare timer.event)).1
    lost := Function.update c.lost timer (!(c.queue.push (Event.bare timer.event)).2) }

def fireDueLoop : Nat → Core → Core
  | 0, c => c
  | fuel + 1, c =>
    match c.nextDue with
    | some timer => fireDueLoop fuel (c.expire timer)
    | none => c

/-- Every turn stops a timer, so there are at most as many turns as timers. -/
def fireDue (c : Core) : Core := fireDueLoop Timer.all.length c

def delay (c : Core) (ms : UInt32) : Core := fireDue { c with clock := some (c.now + ms) }

/-- A delay has taken the clock past the caller's. -/
def aheadOf (c : Core) (nowMs : UInt32) : Bool :=
  match c.clock with
  | some clock => decide (asI32 (nowMs - clock) < 0)
  | none => false

def advanceTo (c : Core) (nowMs : UInt32) : Core :=
  fireDue (if c.aheadOf nowMs then c else { c with clock := some nowMs })

def addressTo (c : Core) (dstNodeId : UInt64) : DfuAddress := ⟨c.selfNodeId, dstNodeId⟩

end Core

/-! ### Effects -/

/-- A buffer of `len` zero bytes. -/
def zeroChunk (len : Nat) : { b : Bytes // b.length = len } := ⟨List.replicate len 0, List.length_replicate⟩

/--
What the machine does outside itself. Each method takes the environment it acts
on and gives it back with its answer. `confirmKey` and `setConfirmKey` are the
reads and the write of the `dfu_confirm` key through `config`.
-/
class Effects (E : Type) where
  send : E → DfuMessage → E
  lpmPeripheralActive : E → E
  lpmPeripheralInactive : E → E
  updateFinished : E → Bool → DfuErr → UInt64 → E
  flashOpen : E → Bool × E
  flashClose : E → Bool × E
  flashSize : E → UInt32 × E
  flashErase : E → UInt32 → UInt32 → Bool × E
  flashWrite : E → UInt32 → Bytes → Bool × E
  hostGetChunk : E → UInt32 → (len : Nat) → (Bool × { b : Bytes // b.length = len }) × E
  setConfirmed : E → E
  setPendingAndReset : E → E
  failUpdateAndReset : E → E
  gitSha : E → UInt32
  confirmKey : E → Option UInt32 × E
  setConfirmKey : E → UInt32 → E
  commitConfig : E → Bool × E

/-- An environment that answers by rote: a slot of the given size, whose writes work or fail by offset. -/
structure Answers (size : UInt32) where
  wrote : UInt32 → Bool
  sha : UInt32

def Answers.allOk (size : UInt32) : Answers size := ⟨fun _ => true, 0⟩

instance {size : UInt32} : Effects (Answers size) where
  send a _ := a
  lpmPeripheralActive a := a
  lpmPeripheralInactive a := a
  updateFinished a _ _ _ := a
  flashOpen a := (true, a)
  flashClose a := (true, a)
  flashSize a := (size, a)
  flashErase a _ _ := (true, a)
  flashWrite a offset _ := (a.wrote offset, a)
  hostGetChunk a _ len := ((true, zeroChunk len), a)
  setConfirmed a := a
  setPendingAndReset a := a
  failUpdateAndReset a := a
  gitSha a := a.sha
  confirmKey a := (none, a)
  setConfirmKey a _ := a
  commitConfig a := (true, a)

end Bristlemouth.Dfu
