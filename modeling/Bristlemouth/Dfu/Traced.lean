import Bristlemouth.Dfu.PendingChange

/-!
# Watching the flash

An environment that keeps a record of the writes made through it, and an
observer that follows the client's transfer over a run: what was offered, what
has been received since the transfer last started, and which writes came since.
-/

set_option autoImplicit false

namespace Bristlemouth.Dfu

open Core EventQueue

structure FlashWrite where
  offset : UInt32
  data : Bytes
  ok : Bool

namespace FlashWrite

/-- The bytes written, in order. -/
def image (ws : List FlashWrite) : Bytes := ws.flatMap FlashWrite.data

/-- Each write begins where the one before it ended, the first at `start`. -/
def Contiguous : Nat → List FlashWrite → Prop
  | _, [] => True
  | start, w :: ws => w.offset.toNat = start ∧ Contiguous (start + w.data.length) ws

@[simp] theorem image_nil : image [] = [] := rfl

@[simp] theorem image_append (xs ys : List FlashWrite) : image (xs ++ ys) = image xs ++ image ys :=
  List.flatMap_append

@[simp] theorem image_singleton (w : FlashWrite) : image [w] = w.data := List.flatMap_singleton ..

theorem contiguous_append {start : Nat} {xs ys : List FlashWrite} :
    Contiguous start (xs ++ ys) ↔ Contiguous start xs ∧ Contiguous (start + (image xs).length) ys := by
  induction xs generalizing start with
  | nil => simp [Contiguous]
  | cons x xs ih =>
    have himage : (image (x :: xs)).length = x.data.length + (image xs).length := by
      simp [image, List.flatMap_cons]
    rw [List.cons_append, Contiguous, Contiguous, ih, himage, and_assoc, Nat.add_assoc]

/-- Contiguous writes end within the image they make. -/
theorem Contiguous.end_le {start : Nat} {ws : List FlashWrite} (h : Contiguous start ws) {w : FlashWrite}
    (hw : w ∈ ws) : w.offset.toNat + w.data.length ≤ start + (image ws).length := by
  induction ws generalizing start with
  | nil => cases hw
  | cons x xs ih =>
    obtain ⟨hx, hxs⟩ := h
    have himage : (image (x :: xs)).length = x.data.length + (image xs).length := by
      simp [image, List.flatMap_cons]
    rcases List.mem_cons.mp hw with rfl | hw
    · omega
    · have := ih hxs hw
      omega

end FlashWrite

/-- Every call goes through to the environment, and the flash writes are kept with their answers. -/
structure Traced (E : Type) where
  inner : E
  writes : List FlashWrite

namespace Traced

variable {E : Type} [Effects E]

instance : Effects (Traced E) where
  send e message := { e with inner := Effects.send e.inner message }
  lpmPeripheralActive e := { e with inner := Effects.lpmPeripheralActive e.inner }
  lpmPeripheralInactive e := { e with inner := Effects.lpmPeripheralInactive e.inner }
  updateFinished e success err nodeId := { e with inner := Effects.updateFinished e.inner success err nodeId }
  flashOpen e := ((Effects.flashOpen e.inner).1, { e with inner := (Effects.flashOpen e.inner).2 })
  flashClose e := ((Effects.flashClose e.inner).1, { e with inner := (Effects.flashClose e.inner).2 })
  flashSize e := ((Effects.flashSize e.inner).1, { e with inner := (Effects.flashSize e.inner).2 })
  flashErase e offset len :=
    ((Effects.flashErase e.inner offset len).1, { e with inner := (Effects.flashErase e.inner offset len).2 })
  flashWrite e offset data :=
    let wrote := Effects.flashWrite e.inner offset data
    (wrote.1, { inner := wrote.2, writes := e.writes ++ [⟨offset, data, wrote.1⟩] })
  hostGetChunk e offset len :=
    ((Effects.hostGetChunk e.inner offset len).1, { e with inner := (Effects.hostGetChunk e.inner offset len).2 })
  setConfirmed e := { e with inner := Effects.setConfirmed e.inner }
  setPendingAndReset e := { e with inner := Effects.setPendingAndReset e.inner }
  failUpdateAndReset e := { e with inner := Effects.failUpdateAndReset e.inner }
  gitSha e := Effects.gitSha e.inner
  confirmKey e := ((Effects.confirmKey e.inner).1, { e with inner := (Effects.confirmKey e.inner).2 })
  setConfirmKey e value := { e with inner := Effects.setConfirmKey e.inner value }
  commitConfig e := ((Effects.commitConfig e.inner).1, { e with inner := (Effects.commitConfig e.inner).2 })

theorem writes_onFx (e : Traced E) {a : Act} (h : a.isWrite = false) : (a.onFx e).writes = e.writes := by
  cases a with
  | flashWrite => cases h
  | _ => rfl

theorem prefix_writes (e : Traced E) (a : Act) : e.writes <+: (a.onFx e).writes := by
  cases a with
  | flashWrite => exact List.prefix_append _ _
  | _ => exact List.prefix_refl _

theorem prefix_writes_foldl (e : Traced E) (acts : List Act) : e.writes <+: (acts.foldl Act.onFx e).writes := by
  induction acts generalizing e with
  | nil => exact List.prefix_refl _
  | cons a acts ih => exact (e.prefix_writes a).trans (ih _)

theorem writes_foldl (e : Traced E) {acts : List Act} (h : acts.countP Act.isWrite = 0) :
    (acts.foldl Act.onFx e).writes = e.writes := by
  induction acts generalizing e with
  | nil => rfl
  | cons a acts ih =>
    rw [List.countP_eq_zero] at h
    have ha : a.isWrite = false := Bool.not_eq_true _ ▸ h a (by simp)
    rw [List.foldl_cons, ih, writes_onFx e ha]
    exact List.countP_eq_zero.mpr fun b hb => h b (by simp [hb])

end Traced

/-! ### The client within the roles -/

/-- Roles whose client states are those of a `Client` they hold. -/
class HasClient (R : Type) [Roles R] extends DfuRoles R where
  client : R → Client
  run_client {E : Type} [Effects E] {state : State} (d : Dfu R E) : state.isClient = true →
    (⟨(Roles.run state d).core, client (Roles.run state d).roles, (Roles.run state d).fx⟩ : Dfu Client E) =
      Client.run ⟨d.core, client d.roles, d.fx⟩ state
  run_other {E : Type} [Effects E] {state : State} (d : Dfu R E) : state.isClient = false →
    client (Roles.run state d).roles = client d.roles
  entry_client {E : Type} [Effects E] {state : State} (d : Dfu R E) : state.isClient = true →
    (⟨(Roles.entry state d).core, client (Roles.entry state d).roles, (Roles.entry state d).fx⟩ : Dfu Client E) =
      Client.entry ⟨d.core, client d.roles, d.fx⟩ state
  entry_other {E : Type} [Effects E] {state : State} (d : Dfu R E) : state.isClient = false →
    client (Roles.entry state d).roles = client d.roles
  exit_roles {E : Type} [Effects E] (state : State) (d : Dfu R E) :
    client (Roles.exit state d).roles = client d.roles
  process {E : Type} [Effects E] (d : Dfu R E) :
    (⟨(Roles.clientProcessUpdateRequest d).core, client (Roles.clientProcessUpdateRequest d).roles,
      (Roles.clientProcessUpdateRequest d).fx⟩ : Dfu Client E) =
      Client.processUpdateRequest ⟨d.core, client d.roles, d.fx⟩
  setParams (r : R) (notify : Bool) (timeoutMs : UInt32) : client (Roles.hostSetParams r notify timeoutMs) = client r

instance : HasClient Client where
  client c := c
  run_client _ _ := rfl
  run_other {_ _ state} _ h := by cases state <;> first | rfl | cases h
  entry_client _ _ := rfl
  entry_other {_ _ state} _ h := by cases state <;> first | rfl | cases h
  exit_roles _ _ := rfl
  process _ := rfl
  setParams _ _ _ := rfl

instance : HasClient ClientHost where
  client r := r.client
  run_client {_ _ state} _ h := by cases state <;> first | rfl | cases h
  run_other {_ _ state} _ h := by cases state <;> first | rfl | cases h
  entry_client {_ _ state} _ h := by cases state <;> first | rfl | cases h
  entry_other {_ _ state} _ h := by cases state <;> first | rfl | cases h
  exit_roles _ _ := rfl
  process _ := rfl
  setParams _ _ _ := rfl

section View

variable {R E : Type} [Roles R] [HasClient R]

/-- The machine as its client sees it. -/
def view (d : Dfu R E) : Dfu Client E := ⟨d.core, HasClient.client d.roles, d.fx⟩

variable [Effects E]

theorem view_runState {d : Dfu R E} {state : State} (h : state.isClient = true) :
    view (runState state d) = Client.run (view d) state := by
  cases state with
  | init | idle | error | hostReqUpdate | hostUpdate => cases h
  | _ => exact HasClient.run_client d h

theorem view_enterState {d : Dfu R E} {state : State} (h : state.isClient = true) :
    view (enterState state d) = Client.entry (view d) state := by
  cases state with
  | init | idle | error | hostReqUpdate | hostUpdate => cases h
  | _ => exact HasClient.entry_client d h

/-- Outside its own states the client changes only at an offer. -/
theorem client_runState {d : Dfu R E} {state : State} (h : state.isClient = false) :
    HasClient.client (runState state d).roles = HasClient.client d.roles ∨
      state = .idle ∧ d.core.current.kind = .receivedUpdateRequest ∧
        view (runState state d) = Client.processUpdateRequest (view d) := by
  cases state with
  | init =>
    rw [runState]
    split <;> exact .inl rfl
  | idle =>
    rw [runState]
    split
    · rename_i hkind
      exact .inr ⟨rfl, hkind, HasClient.process d⟩
    · split
      · exact .inl (HasClient.setParams _ _ _)
      · exact .inl rfl
    · exact .inl rfl
  | error => exact .inl rfl
  | hostReqUpdate | hostUpdate => exact .inl (HasClient.run_other d rfl)
  | _ => cases h

theorem client_enterState {d : Dfu R E} {state : State} (h : state.isClient = false) :
    HasClient.client (enterState state d).roles = HasClient.client d.roles := by
  cases state with
  | init | idle => rfl
  | error =>
    rw [enterState]
    dsimp only
    split <;> split <;> rfl
  | hostReqUpdate | hostUpdate => exact HasClient.entry_other d rfl
  | _ => cases h

theorem client_leave (d : Dfu R E) (next : State) :
    HasClient.client (leave d next).roles = HasClient.client (runState d.core.state d).roles := by
  rw [leave]
  generalize runState d.core.state d = d'
  cases d.core.state with
  | init | idle | error => rfl
  | _ => exact HasClient.exit_roles _ _

end View

/-! ### The transfer observed -/

/-- The bytes of the chunk that an event brings. -/
def Client.chunkIn (event : Event) : Option Bytes :=
  if event.kind = .imageChunk then event.body.bind chunkOf else none

/-- A machine with the history of its client's transfer. -/
structure Observed (R E : Type) where
  machine : Dfu R (Traced E)
  /-- How many writes came before the transfer last started. -/
  mark : Nat
  /-- The chunk bytes received since then. -/
  received : Bytes
  /-- The offer last accepted. -/
  offer : Option ImgInfo

namespace Observed

variable {R E : Type} [Roles R] [Effects E]

/-- The writes since the transfer last started. -/
def writes (o : Observed R E) : List FlashWrite := o.machine.fx.writes.drop o.mark

/-- A transfer starts on the way into `ClientReceiving`, and again at an offer that comes while it goes on. -/
def restarts (before after : State) (event : Event) : Bool :=
  if before = .clientReceiving then decide (event.kind = .receivedUpdateRequest) else decide (after = .clientReceiving)

/-- The bytes a run takes out of a chunk. -/
def gathered (before : State) (event : Event) : Bytes :=
  if before = .clientReceiving then (Client.chunkIn event).getD [] else []

def accepted (before after : State) (event : Event) : Option ImgInfo :=
  if before = .idle ∧ after = .clientReceiving then (event.body.bind Client.offerOf).map Prod.snd else none

/-- The event that an input has the machine run. -/
def eventOf (d : Dfu R (Traced E)) : Input → Option Event
  | .step nowMs => (d.begin nowMs).map Prod.fst
  | _ => none

/-- The history with one more event run, which left the machine as given. -/
def after (o : Observed R E) (event : Event) (machine : Dfu R (Traced E)) : Observed R E where
  machine := machine
  mark := if restarts o.machine.core.state machine.core.state event then o.machine.fx.writes.length else o.mark
  received :=
    if restarts o.machine.core.state machine.core.state event then []
    else o.received ++ gathered o.machine.core.state event
  offer := (accepted o.machine.core.state machine.core.state event).or o.offer

def apply (o : Observed R E) (i : Input) : Observed R E :=
  match eventOf o.machine i with
  | none => { o with machine := o.machine.apply i }
  | some event => o.after event (o.machine.apply i)

def new (selfNodeId : UInt64) (rebootInfo : RebootInfo) (roles : R) (fx : E) : Observed R E :=
  ⟨Dfu.new selfNodeId rebootInfo roles ⟨fx, []⟩, 0, [], none⟩

def runs (o : Observed R E) (inputs : List Input) : Observed R E := inputs.foldl apply o

@[simp] theorem machine_apply (o : Observed R E) (i : Input) : (o.apply i).machine = o.machine.apply i := by
  rw [apply]
  split <;> rfl

theorem machine_runs (o : Observed R E) (inputs : List Input) : (o.runs inputs).machine = o.machine.runs inputs := by
  induction inputs generalizing o with
  | nil => rfl
  | cons i inputs ih => exact (ih (o.apply i)).trans (by rw [machine_apply]; rfl)

/-- Either no event is run, and the call does what one between steps could do, or one is. -/
theorem apply_cases (o : Observed R E) (i : Input) :
    (eventOf o.machine i = none ∧ ∃ j : Input, j.isStep = false ∧ o.apply i = { o with machine := o.machine.apply j }) ∨
      ∃ nowMs event d₀, i = .step nowMs ∧ o.machine.begin nowMs = some (event, d₀) ∧
        o.apply i = o.after event ((libSmRun d₀).withCurrent Event.none) := by
  have hstill : ∀ {i : Input}, i.isStep = false → eventOf o.machine i = none ∧
      ∃ j : Input, j.isStep = false ∧ o.apply i = { o with machine := o.machine.apply j } := by
    intro i hi
    have hnone : eventOf o.machine i = none := by cases i <;> first | rfl | cases hi
    exact ⟨hnone, i, hi, by rw [apply, hnone]⟩
  cases i with
  | step nowMs =>
    cases hbegin : o.machine.begin nowMs with
    | none =>
      have hnone : eventOf o.machine (.step nowMs) = none := by rw [eventOf, hbegin]; rfl
      have happly : o.machine.apply (.step nowMs) = o.machine.apply (.poll nowMs) :=
        congrArg Prod.snd (step_of_begin_none hbegin)
      exact .inl ⟨hnone, .poll nowMs, rfl, by rw [apply, hnone, happly]⟩
    | some begun =>
      obtain ⟨event, d₀⟩ := begun
      have hsome : eventOf o.machine (.step nowMs) = some event := by rw [eventOf, hbegin]; rfl
      have happly : o.machine.apply (.step nowMs) = (libSmRun d₀).withCurrent Event.none :=
        congrArg Prod.snd (step_of_begin hbegin)
      exact .inr ⟨nowMs, event, d₀, rfl, hbegin, by rw [apply, hsome, happly]⟩
  | _ => exact .inl (hstill rfl)

end Observed

end Bristlemouth.Dfu
