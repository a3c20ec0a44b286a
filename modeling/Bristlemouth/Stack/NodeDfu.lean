import Bristlemouth.Dfu.Rings

/-!
# DFU on a node

`dfu.rs` of `bm-stack`: the machine over the client and the host, with the bodies
it has sent but the node has not yet framed, a reset it has asked for, the
finish callbacks not yet taken, and the node's update slot and no-init RAM.
The outbox is the queue that its ring is over any run.
-/

set_option autoImplicit false

namespace Bristlemouth

open Dfu

/-- Finish callbacks held until taken. More in between are dropped. -/
def finishedLen : Nat := 4

structure DfuFinished where
  success : Bool
  err : DfuErr
  nodeId : UInt64
deriving DecidableEq

/-- A reset the client asked for, made once its frames are out. -/
inductive Reset where
  | pending
  | fail
deriving DecidableEq

/-! ### The node's seams -/

/-- The update slot. Each method takes the slot and gives it back with its answer. -/
class DfuSlot (D : Type) where
  openSlot : D → Bool × D
  closeSlot : D → Bool × D
  size : D → UInt32 × D
  erase : D → UInt32 → UInt32 → Bool × D
  write : D → UInt32 → Bytes → Bool × D
  read : D → UInt32 → (len : Nat) → (Bool × { b : Bytes // b.length = len }) × D
  setConfirmed : D → D
  setPendingAndReset : D → D
  failUpdateAndReset : D → D

/-- Where the reboot info lives across a reset. -/
class NoInitRam (D : Type) where
  load : D → RebootInfo × D
  store : D → RebootInfo → D

/-- The node's configuration as far as DFU reaches it: the `dfu_confirm` key of its store, and the commit. -/
class Configuration (C : Type) where
  confirmKey : C → Option UInt32 × C
  setConfirmKey : C → UInt32 → C
  commit : C → Bool × C

/-- The machine's effects, over the node's seams. -/
structure Fx (C D : Type) where
  slot : D
  outbox : List (MessageType × Bytes)
  reset : Option Reset
  finished : List DfuFinished
  config : C
  gitSha : UInt32
  /-- History only, read by no function, as is `asked`: what was given to `send`. -/
  sent : List DfuMessage
  asked : List Reset

namespace Fx

variable {C D : Type} [DfuSlot D] [Configuration C]

def pushFinished (fx : Fx C D) (f : DfuFinished) : Fx C D :=
  if fx.finished.length < finishedLen then { fx with finished := fx.finished ++ [f] } else fx

instance : Effects (Fx C D) where
  send fx message := { fx with outbox := (Outbox.spec fx.outbox (.push message)).2, sent := fx.sent ++ [message] }
  lpmPeripheralActive fx := fx
  lpmPeripheralInactive fx := fx
  updateFinished fx success err nodeId := fx.pushFinished ⟨success, err, nodeId⟩
  flashOpen fx := ((DfuSlot.openSlot fx.slot).1, { fx with slot := (DfuSlot.openSlot fx.slot).2 })
  flashClose fx := ((DfuSlot.closeSlot fx.slot).1, { fx with slot := (DfuSlot.closeSlot fx.slot).2 })
  flashSize fx := ((DfuSlot.size fx.slot).1, { fx with slot := (DfuSlot.size fx.slot).2 })
  flashErase fx offset len :=
    ((DfuSlot.erase fx.slot offset len).1, { fx with slot := (DfuSlot.erase fx.slot offset len).2 })
  flashWrite fx offset data :=
    ((DfuSlot.write fx.slot offset data).1, { fx with slot := (DfuSlot.write fx.slot offset data).2 })
  hostGetChunk fx offset len :=
    ((DfuSlot.read fx.slot offset len).1, { fx with slot := (DfuSlot.read fx.slot offset len).2 })
  setConfirmed fx := { fx with slot := DfuSlot.setConfirmed fx.slot }
  setPendingAndReset fx := { fx with reset := some .pending, asked := fx.asked ++ [.pending] }
  failUpdateAndReset fx := { fx with reset := some .fail, asked := fx.asked ++ [.fail] }
  gitSha fx := fx.gitSha
  confirmKey fx :=
    ((Configuration.confirmKey fx.config).1, { fx with config := (Configuration.confirmKey fx.config).2 })
  setConfirmKey fx value := { fx with config := Configuration.setConfirmKey fx.config value }
  commitConfig fx := ((Configuration.commit fx.config).1, { fx with config := (Configuration.commit fx.config).2 })

end Fx

/-! ### The node's DFU -/

/-- What the node's DFU did, in order. -/
inductive Happening where
  /-- The reboot info read from no-init RAM at boot. -/
  | loaded (info : RebootInfo)
  | stored (info : RebootInfo)
  /-- The machine was stepped with so many bodies waiting, and what it sent and asked for. -/
  | stepped (waiting : Nat) (sent : List DfuMessage) (asked : List Reset)
  /-- The machine was asked to begin an update, and what it sent and asked for. -/
  | initiated (sent : List DfuMessage) (asked : List Reset)
  | returned (body : MessageType × Bytes)
  /-- A reset was made, while the machine's reboot info was `info`. -/
  | made (reset : Reset) (info : RebootInfo)

/-- The machine has no environment of its own between calls. -/
structure NodeDfu (D : Type) where
  machine : Dfu ClientHost Unit
  slot : D
  outbox : List (MessageType × Bytes)
  reset : Option Reset
  stored : RebootInfo
  finished : List DfuFinished
  /-- History only, read by no function. -/
  history : List Happening

/-- The arguments of `bm_dfu_initiate_update`. -/
structure HostRequest where
  info : ImgInfo
  dstNodeId : UInt64
  notify : Bool
  timeoutMs : UInt32
  internal : Bool

namespace NodeDfu

section Methods

variable {C D : Type}

/-- The machine over the node's seams. -/
def withFx (n : NodeDfu D) (config : C) (gitSha : UInt32) : Dfu ClientHost (Fx C D) :=
  ⟨n.machine.core, n.machine.roles, ⟨n.slot, n.outbox, n.reset, n.finished, config, gitSha, [], []⟩⟩

/-- What a call left of the machine and the seams, and what it did. -/
def leaveFx (n : NodeDfu D) (d : Dfu ClientHost (Fx C D)) (did : Happening) : NodeDfu D :=
  { machine := ⟨d.core, d.roles, ()⟩
    slot := d.fx.slot
    outbox := d.fx.outbox
    reset := d.fx.reset
    stored := n.stored
    finished := d.fx.finished
    history := n.history ++ [did] }

/-- With the reboot info `slot` kept across the last reset. -/
def new [NoInitRam D] (selfNodeId : UInt64) (slot : D) : NodeDfu D :=
  let loaded := NoInitRam.load slot
  { machine := Dfu.new selfNodeId loaded.1 ClientHost.new ()
    slot := loaded.2
    outbox := []
    reset := none
    stored := loaded.1
    finished := []
    history := [.loaded loaded.1] }

/-- Feed the image of a host update that is not internal. -/
def hostQueueData (n : NodeDfu D) (data : Bytes) : Bool × NodeDfu D :=
  let queued := n.machine.roles.host.queueData data
  (queued.1, { n with machine := { n.machine with roles := { n.machine.roles with host := queued.2 } } })

/-- The oldest finish callback not yet taken. -/
def takeUpdateFinished (n : NodeDfu D) : Option DfuFinished × NodeDfu D :=
  (n.finished.head?, { n with finished := n.finished.tail })

def onMessage (n : NodeDfu D) (body : Bytes) : Accepted × NodeDfu D :=
  ((n.machine.onMessage body).1, { n with machine := (n.machine.onMessage body).2 })

def initiateUpdate [DfuSlot D] [Configuration C] (n : NodeDfu D) (config : C) (gitSha : UInt32)
    (request : HostRequest) : Bool × NodeDfu D × C :=
  let called := (n.withFx config gitSha).initiateUpdate request.info request.dstNodeId request.notify
    request.timeoutMs request.internal
  (called.1, n.leaveFx called.2 (.initiated called.2.fx.sent called.2.fx.asked), called.2.fx.config)

/-- Hand a changed reboot info to no-init RAM. -/
def persist [NoInitRam D] (n : NodeDfu D) : NodeDfu D :=
  let info := n.machine.core.rebootInfo
  if info ≠ n.stored then
    { n with slot := NoInitRam.store n.slot info, stored := info, history := n.history ++ [.stored info] }
  else n

def makeReset [DfuSlot D] (n : NodeDfu D) (reset : Reset) : NodeDfu D :=
  { n with
    slot := match reset with
      | .pending => DfuSlot.setPendingAndReset n.slot
      | .fail => DfuSlot.failUpdateAndReset n.slot
    history := n.history ++ [.made reset n.machine.core.rebootInfo] }

variable [DfuSlot D] [NoInitRam D] [Configuration C] (gitSha nowMs : UInt32)

/-- One step of the machine, and whether it had anything to run. -/
def stepMachine (n : NodeDfu D) (config : C) : Bool × NodeDfu D × C :=
  let stepped := (n.withFx config gitSha).step nowMs
  let did := .stepped n.outbox.length stepped.2.fx.sent stepped.2.fx.asked
  (stepped.1.isSome, (n.leaveFx stepped.2 did).persist, stepped.2.fx.config)

/-- The loop of `next_body`; `none` when it has not come to an end after so many turns. -/
def nextBodyLoop : Nat → NodeDfu D → C → Option (Option (MessageType × Bytes) × NodeDfu D × C)
  | 0, _, _ => none
  | turns + 1, n, config =>
    match n.outbox with
    | body :: outbox => some (some body, { n with outbox, history := n.history ++ [.returned body] }, config)
    | [] =>
      match n.reset with
      | some reset => nextBodyLoop turns (({ n with reset := none } : NodeDfu D).persist.makeReset reset) config
      | none =>
        let stepped := n.stepMachine gitSha nowMs config
        if !stepped.1 && stepped.2.1.outbox.isEmpty && stepped.2.1.reset.isNone then some (none, stepped.2)
        else nextBodyLoop turns stepped.2.1 stepped.2.2

/-- More turns than the loop can take. -/
def maxTurns : Nat := 80

/-- The next body to frame, stepping the machine until one is sent or it has nothing left to run. -/
def nextBody (n : NodeDfu D) (config : C) : Option (Option (MessageType × Bytes) × NodeDfu D × C) :=
  nextBodyLoop gitSha nowMs maxTurns n config

end Methods

/-! ### Runs -/

/-- What the node and the application do to it. -/
inductive Call (C D : Type) where
  | onMessage (body : Bytes)
  | initiateUpdate (config : C) (gitSha : UInt32) (request : HostRequest)
  | nextBody (gitSha nowMs : UInt32) (config : C)
  | hostQueueData (data : Bytes)
  | takeUpdateFinished
  /-- Anything done to the slot and the no-init RAM through `slot_mut`. -/
  | slotMut (change : D → D)

def apply {C D : Type} [DfuSlot D] [NoInitRam D] [Configuration C] (n : NodeDfu D) : Call C D → Option (NodeDfu D)
  | .onMessage body => some (n.onMessage body).2
  | .initiateUpdate config gitSha request => some (n.initiateUpdate config gitSha request).2.1
  | .nextBody gitSha nowMs config => (n.nextBody gitSha nowMs config).map fun r => r.2.1
  | .hostQueueData data => some (n.hostQueueData data).2
  | .takeUpdateFinished => some n.takeUpdateFinished.2
  | .slotMut change => some { n with slot := change n.slot }

def runs {C D : Type} [DfuSlot D] [NoInitRam D] [Configuration C] (n : NodeDfu D) (calls : List (Call C D)) :
    Option (NodeDfu D) := calls.foldlM apply n

end NodeDfu

end Bristlemouth
