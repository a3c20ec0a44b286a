import Bristlemouth.Dfu.Machine
import Bristlemouth.Wire.Crc

/-!
# The DFU client

`dfu_client.rs`: the transfer state of `Client` and the five client states.
-/

set_option autoImplicit false

namespace Bristlemouth.Dfu

/-- Bytes gathered before each flash write. -/
@[simp] def imgPageLen : Nat := 2048

def maxChunkRetries : UInt8 := 5

@[simp] def payloadLenOffset : Nat := DfuMessage.minLen
@[simp] def payloadOffset : Nat := DfuMessage.withTwoBytesLen

structure Client where
  imageSize : UInt32
  numChunks : UInt16
  crc16 : UInt16
  runningCrc16 : UInt16
  pageByteCounter : UInt16
  flashOffset : UInt32
  pageBuf : Bytes
  chunkRetryNum : UInt8
  currentChunk : UInt16
  hostNodeId : UInt64

namespace Client

def new : Client :=
  { imageSize := 0
    numChunks := 0
    crc16 := 0
    runningCrc16 := 0
    pageByteCounter := 0
    flashOffset := 0
    pageBuf := List.replicate imgPageLen 0
    chunkRetryNum := 0
    currentChunk := 0
    hostNodeId := 0 }

def hostNodeValid (c : Client) (nodeId : UInt64) : Bool := c.hostNodeId == nodeId

def restartTransfer (c : Client) : Client :=
  { c with currentChunk := 0, chunkRetryNum := 0, pageByteCounter := 0, flashOffset := 0, runningCrc16 := 0 }

def crcChunk (c : Client) (chunk : Bytes) : Client :=
  { c with runningCrc16 := crc16Ccitt c.runningCrc16 chunk }

def countRetry (c : Client) : Client := { c with chunkRetryNum := c.chunkRetryNum + 1 }

def nextChunk (c : Client) : Client := { c with currentChunk := c.currentChunk + 1, chunkRetryNum := 0 }

/-- The page buffer once a chunk has filled it up. -/
def filledPage (c : Client) (chunk : Bytes) : Bytes :=
  c.pageBuf.copyAt c.pageByteCounter.toNat (chunk.take (imgPageLen - c.pageByteCounter.toNat))

/-- The chunk count as stored. A zero chunk size divides as the hardware does, with quotient zero. -/
def numChunksOf (imageSize : UInt32) (chunkSize : UInt16) : UInt16 :=
  let whole := if chunkSize = 0 then 0 else imageSize / chunkSize.toUInt32
  let rem := if chunkSize = 0 then imageSize else imageSize % chunkSize.toUInt32
  (if rem ≠ 0 then whole + 1 else whole).toUInt16

section Sends

variable {E : Type} [Effects E] (d : Dfu Client E)

def toHost (hostNodeId : UInt64) : DfuAddress := d.core.addressTo hostNodeId

def abort (err : DfuErr) : Dfu Client E := d.send (.abort ⟨toHost d d.roles.hostNodeId, 0, err.val⟩)

def transitionToError (err : DfuErr) : Dfu Client E :=
  ((d.stopTimer .chunk).setError err).setPendingStateChange .error

def failUpdateAndReboot : Dfu Client E :=
  let d := (d.setRebootInfo {}).delay 100
  { d with fx := Effects.failUpdateAndReset d.fx }

/-- Ask the host for the chunk the client is at, and wait for it. -/
def requestChunk : Dfu Client E :=
  (d.reqNextChunk d.roles.hostNodeId d.roles.currentChunk).startTimer .chunk

end Sends

section States

variable {E : Type} [Effects E] (d : Dfu Client E)

/-! ### A `0xD0` in `Idle` -/

/-- The offer of a `0xD0`, whatever the type byte. -/
def offerOf (body : Bytes) : Option (DfuAddress × ImgInfo) :=
  match DfuAddress.ofBody body, ImgInfo.decode (body.drop DfuMessage.minLen) with
  | .ok addresses, .ok info => some (addresses, info)
  | _, _ => none

/-- The part of `process_update_request` that opens and erases the slot. -/
def openSlot (info : ImgInfo) : Dfu Client E :=
  let opened := Effects.flashOpen d.fx
  let d := { d with fx := opened.2 }
  if !opened.1 then transitionToError (d.sendAck d.roles.hostNodeId 0 .flashAccess) .flashAccess
  else
    let size := Effects.flashSize d.fx
    let d := { d with fx := size.2 }
    if size.1 ≤ info.imageSize then d.sendAck d.roles.hostNodeId 0 .tooLarge
    else
      let size := Effects.flashSize d.fx
      let d := { d with fx := size.2 }
      let erased := Effects.flashErase d.fx 0 size.1
      let d := { d with fx := erased.2 }
      if !erased.1 then transitionToError (d.sendAck d.roles.hostNodeId 0 .flashAccess) .flashAccess
      else
        let d := d.sendAck d.roles.hostNodeId 1 .none
        let d := d.setRebootInfo
          { magic := dfuRebootMagic
            major := info.majorVer
            minor := info.minorVer
            hostNodeId := d.roles.hostNodeId
            gitSha := info.gitSha }
        (d.delay 10).setPendingStateChange .clientReceiving

def processUpdateRequest : Dfu Client E :=
  match d.core.current.body.bind offerOf with
  | none => d
  | some (addresses, info) =>
    let d := { d with roles := { d.roles with hostNodeId := addresses.srcNodeId } }
    if info.gitSha = Effects.gitSha d.fx ∧ info.filterKey ≠ imgInfoForceUpdate then
      d.sendAck d.roles.hostNodeId 0 .sameVer
    else if info.chunkSize.toNat > dfuMaxChunkSize then
      transitionToError (abort d .aborted) .chunkSize
    else
      let roles := { d.roles with
        imageSize := info.imageSize
        numChunks := numChunksOf info.imageSize info.chunkSize
        crc16 := info.crc16 }
      openSlot { d with roles } info

/-! ### Receiving -/

def receivingEntry : Dfu Client E := requestChunk { d with roles := d.roles.restartTransfer }

/-- Gather a chunk into the page buffer, writing the page when it fills. -/
def processPayload (chunk : Bytes) : Bool × Dfu Client E :=
  if chunk.length = 0 then (false, d)
  else
    let counter := d.roles.pageByteCounter.toNat
    if counter + chunk.length < imgPageLen then
      (true, { d with roles := { d.roles with
        pageBuf := d.roles.pageBuf.copyAt counter chunk
        pageByteCounter := d.roles.pageByteCounter + UInt16.ofNat chunk.length } })
    else
      let tail := chunk.drop (imgPageLen - counter)
      let pageBuf := d.roles.filledPage chunk
      let wrote := Effects.flashWrite d.fx d.roles.flashOffset pageBuf
      let d := { d with fx := wrote.2, roles := { d.roles with pageBuf, pageByteCounter := 0 } }
      if !wrote.1 then (false, d)
      else (true, { d with roles := { d.roles with
        flashOffset := d.roles.flashOffset + UInt32.ofNat imgPageLen
        pageBuf := pageBuf.copyAt 0 tail
        pageByteCounter := UInt16.ofNat tail.length } })

/-- Write the partial page, then close the slot whatever happened. -/
def processEnd : Bool × Dfu Client E :=
  let written : Bool × Dfu Client E :=
    if d.roles.pageByteCounter ≠ 0 then
      let wrote := Effects.flashWrite d.fx d.roles.flashOffset
        (d.roles.pageBuf.take d.roles.pageByteCounter.toNat)
      let d := { d with fx := wrote.2 }
      if wrote.1 then (true, { d with roles := { d.roles with
        flashOffset := d.roles.flashOffset + d.roles.pageByteCounter.toUInt32 } })
      else (false, d)
    else (true, d)
  (written.1, { written.2 with fx := (Effects.flashClose written.2.fx).2 })

/-- The bytes of a chunk body, if it is one the client takes. -/
def chunkOf (body : Bytes) : Option Bytes :=
  match body.slice? payloadLenOffset 2 with
  | none => none
  | some b =>
    if (u16FromLe b).toNat > dfuMaxChunkSize then none
    else body.slice? payloadOffset (u16FromLe b).toNat

/-- The chunk has come, and its bytes go into the CRC. -/
def hearChunk (chunk : Bytes) : Dfu Client E := { d.stopTimer .chunk with roles := d.roles.crcChunk chunk }

/-- Then they go into the page buffer. A failed write asks for `Error`, and the chunk is carried on
from as if the write had worked. -/
def gatherChunk (chunk : Bytes) : Dfu Client E :=
  let gathered := processPayload (hearChunk d chunk) chunk
  if gathered.1 then gathered.2 else transitionToError gathered.2 .bmFrame

def finishTransfer : Dfu Client E :=
  let ended := processEnd d
  if ended.1 then ended.2.setPendingStateChange .clientValidating else transitionToError ended.2 .bmFrame

/-- What a chunk does once it has been read out of its body. -/
def receiveChunk (chunk : Bytes) : Dfu Client E :=
  let d := gatherChunk d chunk
  let d := { d with roles := d.roles.nextChunk }
  if d.roles.currentChunk < d.roles.numChunks then requestChunk d else finishTransfer d

def receivingRun : Dfu Client E :=
  match d.core.current.kind with
  | .imageChunk =>
    match d.core.current.body.bind chunkOf with
    | none => d
    | some chunk => receiveChunk d chunk
  | .chunkTimeout =>
    let d := { d with roles := d.roles.countRetry }
    if d.roles.chunkRetryNum ≥ maxChunkRetries then transitionToError (abort d .aborted) .timeout
    else requestChunk d
  | .receivedUpdateRequest =>
    let d := (d.stopTimer .chunk).sendAck d.roles.hostNodeId 1 .none
    requestChunk (({ d with roles := d.roles.restartTransfer } : Dfu Client E).delay 100)
  | .heartbeat => d.startTimer .chunk
  | _ => d

/-! ### After the transfer -/

def validatingEntry : Dfu Client E :=
  if d.roles.imageSize ≠ d.roles.flashOffset then
    transitionToError (d.updateEnd d.roles.hostNodeId 0 .mismatchLen) .mismatchLen
  else if d.roles.crc16 = d.roles.runningCrc16 then d.setPendingStateChange .clientRebootReq
  else transitionToError (d.updateEnd d.roles.hostNodeId 0 .badCrc) .badCrc

def sendRebootReq : Dfu Client E :=
  (d.send (.rebootReq (toHost d d.roles.hostNodeId))).startTimer .chunk

def rebootReqEntry : Dfu Client E :=
  sendRebootReq { d with roles := { d.roles with chunkRetryNum := 0 } }

def rebootReqRun : Dfu Client E :=
  match d.core.current.kind with
  | .reboot =>
    if d.core.current.body.isSome then (d.stopTimer .chunk).setPendingStateChange .clientActivating else d
  | .chunkTimeout =>
    let d := { d with roles := d.roles.countRetry }
    if d.roles.chunkRetryNum ≥ maxChunkRetries then transitionToError (abort d .aborted) .timeout
    else sendRebootReq d
  | _ => d

def sendBootComplete (hostNodeId : UInt64) : Dfu Client E :=
  (d.send (.bootComplete (toHost d hostNodeId))).startTimer .chunk

/-- Rebooted into the new image. -/
def updateDoneEntry : Dfu Client E :=
  let info := d.core.rebootInfo
  let d := { d with roles := { d.roles with hostNodeId := info.hostNodeId, chunkRetryNum := 0 } }
  if Effects.gitSha d.fx ≠ info.gitSha then
    failUpdateAndReboot (d.updateEnd info.hostNodeId 0 .wrongVer)
  else
    let key := Effects.confirmKey d.fx
    let d := { d with fx := key.2 }
    if key.1.getD 1 = 1 then sendBootComplete d info.hostNodeId
    else
      -- Confirm without the host, and re-arm confirmation for next time.
      let d := d.setRebootInfo {}
      let fx := Effects.setConfirmKey (Effects.setConfirmed d.fx) 1
      { d with fx := (Effects.commitConfig fx).2 }

def updateDoneRun : Dfu Client E :=
  match d.core.current.kind with
  | .updateEnd =>
    if d.core.current.body.isSome then
      let d := d.stopTimer .chunk
      let d := { d with fx := Effects.setConfirmed d.fx }
      (d.updateEnd d.core.rebootInfo.hostNodeId 1 .none).setPendingStateChange .idle
    else d
  | .chunkTimeout =>
    let d := { d with roles := d.roles.countRetry }
    if d.roles.chunkRetryNum ≥ maxChunkRetries then failUpdateAndReboot (abort d .confirmationAbort)
    else sendBootComplete d d.core.rebootInfo.hostNodeId
  | _ => d

/-- "So DFU_END can get out" first. -/
def activatingEntry : Dfu Client E :=
  let d := d.delay 10
  { d with fx := Effects.setPendingAndReset d.fx }

def entry (state : State) : Dfu Client E :=
  match state with
  | .clientReceiving => receivingEntry d
  | .clientValidating => validatingEntry d
  | .clientRebootReq => rebootReqEntry d
  | .clientRebootDone => updateDoneEntry d
  | .clientActivating => activatingEntry d
  | _ => d

def run (state : State) : Dfu Client E :=
  match state with
  | .clientReceiving => receivingRun d
  | .clientRebootReq => rebootReqRun d
  | .clientRebootDone => updateDoneRun d
  | _ => d

end States

/-! ### Bodies as they are sent -/

theorem offerOf_start (m : DfuStart) : offerOf (DfuMessage.start m).toBytes = some (m.addresses, m.imgInfo) := by
  have hinfo := ImgInfo.decode_toBytes_append m.imgInfo []
  rw [List.append_nil] at hinfo
  rw [offerOf, DfuMessage.ofBody_toBytes, DfuMessage.drop_toBytes, DfuMessage.tail, hinfo]
  rfl

/-- A node that is a client only: entered, the host states do and accept nothing. -/
instance : Roles Client where
  entry state d := entry d state
  run state d := run d state
  exit _ d := d
  clientProcessUpdateRequest d := processUpdateRequest d
  hostSetParams c _ _ := c
  clientHostNodeValid := hostNodeValid
  hostClientNodeValid _ _ := false

end Client

end Bristlemouth.Dfu
