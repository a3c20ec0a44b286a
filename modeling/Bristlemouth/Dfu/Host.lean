import Bristlemouth.Dfu.Client

/-!
# The DFU host

`dfu_host.rs`: the stream buffer, the two host states, and `ClientHost`, a node
that runs both roles.
-/

set_option autoImplicit false

namespace Bristlemouth.Dfu

def maxAckRetries : UInt8 := 2

@[simp] def successOffset : Nat := DfuMessage.minLen
@[simp] def errCodeOffset : Nat := DfuMessage.minLen + 1

/-! ### The stream buffer -/

/-- The bytes of `storage` in use are a ring of the capacity asked for. -/
structure StreamBuffer where
  capacity : Nat
  ring : RingQueue UInt8 capacity
  capacity_le : capacity ≤ dfuMaxChunkSize

namespace StreamBuffer

def new (capacity : Nat) : Option StreamBuffer :=
  if h : 1 ≤ capacity ∧ capacity ≤ dfuMaxChunkSize then
    some ⟨capacity, RingQueue.new 0 h.1, h.2⟩
  else none

def contents (s : StreamBuffer) : Bytes := s.ring.toList

/-- Append all of `data`, or nothing if it does not fit. -/
def send (s : StreamBuffer) (data : Bytes) : Bool × StreamBuffer :=
  if s.ring.len + data.length > s.capacity then (false, s)
  else (true, { s with ring := data.foldl (fun r byte => (r.push byte).1) s.ring })

/-- Move up to `len` bytes out. `none` if empty. -/
def receive (s : StreamBuffer) (len : Nat) : Option (Bytes × StreamBuffer) :=
  if s.ring.len = 0 then none
  else
    let n := min s.ring.len len
    some ((List.range n).map s.ring.nth, { s with ring := RingQueue.advance^[n] s.ring })

end StreamBuffer

/-! ### The host -/

structure Host where
  imgInfo : ImgInfo
  clientNodeId : UInt64
  bytesRemaining : UInt32
  ackRetryNum : UInt8
  notify : Bool
  timeoutMs : UInt32
  stream : Option StreamBuffer

namespace Host

def new : Host :=
  { imgInfo :=
      { imageSize := 0, chunkSize := 0, crc16 := 0, majorVer := 0, minorVer := 0, filterKey := 0, gitSha := 0 }
    clientNodeId := 0
    bytesRemaining := 0
    ackRetryNum := 0
    notify := false
    timeoutMs := 0
    stream := none }

def nextChunkLen (h : Host) : UInt32 := min h.bytesRemaining h.imgInfo.chunkSize.toUInt32

def setParams (h : Host) (notify : Bool) (timeoutMs : UInt32) : Host := { h with notify, timeoutMs }

def clientNodeValid (h : Host) (nodeId : UInt64) : Bool := h.clientNodeId == nodeId

/-- The application's feed of an image that is not internal. -/
def queueData (h : Host) (data : Bytes) : Bool × Host :=
  match h.stream with
  | none => (false, h)
  | some s => ((s.send data).1, { h with stream := some (s.send data).2 })

section States

variable {E : Type} [Effects E] (d : Dfu Host E)

def toClient : DfuAddress := d.core.addressTo d.roles.clientNodeId

def transitionToError (err : DfuErr) : Dfu Host E :=
  (((d.stopTimer .update).stopTimer .ack).setError err).setPendingStateChange .error

def reqUpdate : Dfu Host E := d.send (.start ⟨toClient d, d.roles.imgInfo⟩)

/-- The update the current event asks for. -/
def requestOf : EventData → Option (DfuAddress × ImgInfo)
  | .none => none
  | .hostStart start => some (start.start.addresses, start.start.imgInfo)
  | .message body => Client.offerOf body

def reqUpdateEntry : Dfu Host E :=
  match requestOf d.core.current.data with
  | none => d
  | some (addresses, imgInfo) =>
    let d := { d with roles := { d.roles with
      imgInfo
      bytesRemaining := imgInfo.imageSize
      clientNodeId := addresses.dstNodeId
      ackRetryNum := 0 } }
    let d := reqUpdate d
    let d := if d.core.internal then d
      else { d with roles := { d.roles with stream := StreamBuffer.new imgInfo.chunkSize.toNat } }
    d.startTimer .ack

/-- The `success` and `err_code` bytes of the current event's body. -/
def result (c : Core) : Option (UInt8 × DfuErr) :=
  match c.current.body with
  | none => none
  | some body =>
    if body.length ≤ errCodeOffset then none
    else some (body.byteAt successOffset, ⟨body.byteAt errCodeOffset⟩)

/-- The update timer's event is bare, and aborts the update as this node's own doing. -/
def abortError (c : Core) : Option DfuErr :=
  match c.current.body with
  | none => some .aborted
  | some body => if body.length ≤ errCodeOffset then none else some ⟨body.byteAt errCodeOffset⟩

def onAbort : Dfu Host E :=
  match abortError d.core with
  | none => d
  | some err => transitionToError d err

def reqUpdateRun : Dfu Host E :=
  match d.core.current.kind with
  | .ackReceived =>
    let d := d.stopTimer .ack
    match result d.core with
    | none => d
    | some (success, err) =>
      if success ≠ 0 then d.setPendingStateChange .hostUpdate else transitionToError d err
  | .ackTimeout =>
    let d := { d with roles := { d.roles with ackRetryNum := d.roles.ackRetryNum + 1 } }
    if d.roles.ackRetryNum ≥ maxAckRetries then transitionToError d .timeout
    else (reqUpdate d).startTimer .ack
  | .abort => onAbort d
  | _ => d

/-- Read `len` bytes of the image: how many were read, the buffer, and the host after the read. -/
def readChunk (len : Nat) : Option Nat × Bytes × Dfu Host E :=
  if d.core.internal then
    let offset := UInt32.ofNat ImgInfo.len + d.roles.imgInfo.imageSize - d.roles.bytesRemaining
    let got := Effects.hostGetChunk d.fx offset len
    (if got.1.1 then some len else none, got.1.2.1, { d with fx := got.2 })
  else
    match d.roles.stream.bind (StreamBuffer.receive · len) with
    | none => (none, List.replicate len 0, d)
    | some (bytes, stream) =>
      (some bytes.length, Bytes.copyAt (List.replicate len 0) 0 bytes,
        { d with roles := { d.roles with stream := some stream } })

/-- The next chunk in sequence, whatever was asked for. A short read still sends `len` bytes. -/
def sendChunk : Dfu Host E :=
  let len := min d.roles.nextChunkLen.toNat dfuMaxChunkSize
  let got := readChunk d len
  let d := got.2.2
  match got.1 with
  | none => transitionToError d .flashAccess
  | some read =>
    let d := d.send (.payload ⟨toClient d, got.2.1⟩)
    { d with roles := { d.roles with bytesRemaining := d.roles.bytesRemaining - UInt32.ofNat read } }

def updateRun : Dfu Host E :=
  match d.core.current.kind with
  | .chunkRequest => if d.core.current.body.isSome then sendChunk d else d
  | .rebootRequest => d.send (.reboot (toClient d))
  | .bootComplete =>
    if d.core.current.body.isSome then d.updateEnd d.roles.clientNodeId 1 .none else d
  | .updateEnd =>
    let d := d.stopTimer .update
    match result d.core with
    | none => d
    | some (success, err) =>
      let d := if d.roles.notify then
          { d with fx := Effects.updateFinished d.fx (decide (success ≠ 0)) err d.roles.clientNodeId }
        else d
      d.setPendingStateChange .idle
  | .abort => onAbort d
  | _ => d

def entry (state : State) : Dfu Host E :=
  match state with
  | .hostReqUpdate => reqUpdateEntry d
  | .hostUpdate => d.changePeriod .update d.roles.timeoutMs
  | _ => d

def run (state : State) : Dfu Host E :=
  match state with
  | .hostReqUpdate => reqUpdateRun d
  | .hostUpdate => updateRun d
  | _ => d

end States

/-- Leaving `HostUpdate` deletes the stream buffer. -/
def exit (state : State) (h : Host) : Host := if state = .hostUpdate then { h with stream := none } else h

end Host

/-! ### Both roles -/

/-- A node that is both client and host. -/
structure ClientHost where
  client : Client
  host : Host

namespace ClientHost

def new : ClientHost := ⟨Client.new, Host.new⟩

section Lift

variable {E : Type}

/-- The machine as the client sees it. -/
def asClient (d : Dfu ClientHost E) : Dfu Client E := ⟨d.core, d.roles.client, d.fx⟩

def asHost (d : Dfu ClientHost E) : Dfu Host E := ⟨d.core, d.roles.host, d.fx⟩

def onClient (f : Dfu Client E → Dfu Client E) (d : Dfu ClientHost E) : Dfu ClientHost E :=
  let d' := f (asClient d)
  ⟨d'.core, { d.roles with client := d'.roles }, d'.fx⟩

def onHost (f : Dfu Host E → Dfu Host E) (d : Dfu ClientHost E) : Dfu ClientHost E :=
  let d' := f (asHost d)
  ⟨d'.core, { d.roles with host := d'.roles }, d'.fx⟩

end Lift

/-- Dispatching on the state as `dfu_states` does. -/
instance : Roles ClientHost where
  entry state d := if state.isClient then onClient (Client.entry · state) d else onHost (Host.entry · state) d
  run state d := if state.isClient then onClient (Client.run · state) d else onHost (Host.run · state) d
  exit state d := { d with roles := { d.roles with host := d.roles.host.exit state } }
  clientProcessUpdateRequest d := onClient Client.processUpdateRequest d
  hostSetParams r notify timeoutMs := { r with host := r.host.setParams notify timeoutMs }
  clientHostNodeValid r := r.client.hostNodeValid
  hostClientNodeValid r := r.host.clientNodeValid

end ClientHost

/-! ### The stream buffer is a bounded queue of bytes -/

namespace StreamBuffer

theorem contents_send {s s' : StreamBuffer} {data : Bytes} (h : s.send data = (true, s')) :
    s'.contents = s.contents ++ data := by
  rw [send] at h
  split at h
  · cases h
  · rename_i hfits
    simp only [Prod.mk.injEq, true_and] at h
    rw [← h, contents, contents]
    exact RingQueue.toList_foldl_push s.ring data (by omega)

theorem send_refused {s s' : StreamBuffer} {data : Bytes} (h : s.send data = (false, s')) : s' = s := by
  rw [send] at h
  split at h <;> simp_all

theorem contents_receive {s s' : StreamBuffer} {len : Nat} {bytes : Bytes} (h : s.receive len = some (bytes, s')) :
    s.contents = bytes ++ s'.contents ∧ bytes.length = min s.contents.length len := by
  rw [receive] at h
  split at h
  · cases h
  · simp only [Option.some.injEq, Prod.mk.injEq] at h
    obtain ⟨rfl, rfl⟩ := h
    have htake : (List.range (min s.ring.len len)).map s.ring.nth = s.ring.toList.take (min s.ring.len len) := by
      rw [RingQueue.toList, ← List.map_take, List.take_range, Nat.min_eq_left (Nat.min_le_left _ _)]
    refine ⟨?_, by simp [contents]⟩
    rw [contents, contents, htake, RingQueue.toList_advance_iterate, List.take_append_drop]

end StreamBuffer

end Bristlemouth.Dfu
