import Bristlemouth.Dfu.Host

/-!
# What a role does, as a list of acts

A role reaches the machine only through the methods of `Core` and `Effects`.
Here each call is an act, and a role's function is followed through the list
of acts it makes: what the list asks for, sends and starts is read off the list.
-/

set_option autoImplicit false

namespace Bristlemouth.Dfu

/-- How much a queued event may still have the machine do without sending anything: each change it asks for
queues one more event, and a timer it starts may run out. -/
@[simp] def EventType.work : EventType → Nat
  | .none => 1
  | .chunkTimeout | .ackTimeout | .abort => 3
  | _ => 5

/-- A running timer has its event ahead of it. -/
@[simp] def timerWork : Nat := 3

/-- What the entry of a state may leave to be run. -/
@[simp] def State.entryWork : State → Nat
  | .error | .clientValidating => 1
  | .hostUpdate => timerWork
  | _ => 0

inductive Act where
  | send (message : DfuMessage)
  | lpmPeripheralActive
  | lpmPeripheralInactive
  | updateFinished (success : Bool) (err : DfuErr) (nodeId : UInt64)
  | flashOpen
  | flashClose
  | flashSize
  | flashErase (offset len : UInt32)
  | flashWrite (offset : UInt32) (data : Bytes)
  | hostGetChunk (offset : UInt32) (len : Nat)
  | setConfirmed
  | setPendingAndReset
  | failUpdateAndReset
  | confirmKey
  | setConfirmKey (value : UInt32)
  | commitConfig
  | setPendingStateChange (state : State)
  | setError (error : DfuErr)
  | post (event : Event)
  | setRebootInfo (info : RebootInfo)
  | startTimer (timer : Timer)
  | changePeriod (timer : Timer) (periodMs : UInt32)
  | stopTimer (timer : Timer)
  | delay (ms : UInt32)

namespace Act

def onCore (c : Core) : Act → Core
  | setPendingStateChange state => c.setPendingStateChange state
  | setError error => c.setError error
  | post event => c.post event
  | setRebootInfo info => c.setRebootInfo info
  | startTimer timer => c.startTimer timer
  | changePeriod timer periodMs => c.changePeriod timer periodMs
  | stopTimer timer => c.stopTimer timer
  | delay ms => c.delay ms
  | _ => c

def onFx {E : Type} [Effects E] (fx : E) : Act → E
  | send message => Effects.send fx message
  | lpmPeripheralActive => Effects.lpmPeripheralActive fx
  | lpmPeripheralInactive => Effects.lpmPeripheralInactive fx
  | updateFinished success err nodeId => Effects.updateFinished fx success err nodeId
  | flashOpen => (Effects.flashOpen fx).2
  | flashClose => (Effects.flashClose fx).2
  | flashSize => (Effects.flashSize fx).2
  | flashErase offset len => (Effects.flashErase fx offset len).2
  | flashWrite offset data => (Effects.flashWrite fx offset data).2
  | hostGetChunk offset len => (Effects.hostGetChunk fx offset len).2
  | setConfirmed => Effects.setConfirmed fx
  | setPendingAndReset => Effects.setPendingAndReset fx
  | failUpdateAndReset => Effects.failUpdateAndReset fx
  | confirmKey => (Effects.confirmKey fx).2
  | setConfirmKey value => Effects.setConfirmKey fx value
  | commitConfig => (Effects.commitConfig fx).2
  | _ => fx

/-- The state change asked for. -/
@[simp] def request? : Act → Option State
  | setPendingStateChange state => some state
  | _ => none

@[simp] def sent? : Act → Option DfuMessage
  | send message => some message
  | _ => none

@[simp] def isReset : Act → Bool
  | setPendingAndReset | failUpdateAndReset => true
  | _ => false

@[simp] def isWrite : Act → Bool
  | flashWrite _ _ => true
  | _ => false

@[simp] def isPost : Act → Bool
  | post _ => true
  | _ => false

@[simp] def isFlash : Act → Bool
  | flashOpen | flashClose | flashSize | flashErase _ _ | flashWrite _ _ => true
  | _ => false

/-- What an act leaves to be run: its own event for a change asked for, and its expiry for a timer. -/
@[simp] def work : Act → Nat
  | setPendingStateChange _ => EventType.none.work
  | post event => event.kind.work
  | startTimer _ | changePeriod _ _ => timerWork
  | _ => 0

/-- Whether a timer is left running, given whether it was before. -/
@[simp] def keeps (timer : Timer) (running : Bool) : Act → Bool
  | startTimer t => if t = timer then true else running
  | changePeriod t _ => if t = timer then true else running
  | stopTimer t => if t = timer then false else running
  | _ => running

end Act

def requests (acts : List Act) : List State := acts.filterMap Act.request?

def work (acts : List Act) : Nat := (acts.map Act.work).sum

def sends (acts : List Act) : List DfuMessage := acts.filterMap Act.sent?

@[simp] theorem requests_nil : requests [] = [] := rfl

@[simp] theorem requests_cons (a : Act) (acts : List Act) :
    requests (a :: acts) = a.request?.toList ++ requests acts := by
  rw [requests, List.filterMap_cons]
  cases a.request? <;> rfl

@[simp] theorem sends_nil : sends [] = [] := rfl

@[simp] theorem sends_cons (a : Act) (acts : List Act) : sends (a :: acts) = a.sent?.toList ++ sends acts := by
  rw [sends, List.filterMap_cons]
  cases a.sent? <;> rfl

@[simp] theorem work_nil : work [] = 0 := rfl

@[simp] theorem work_cons (a : Act) (acts : List Act) : work (a :: acts) = a.work + work acts := by
  rw [work, List.map_cons, List.sum_cons]
  rfl

@[simp] theorem work_append (xs ys : List Act) : work (xs ++ ys) = work xs + work ys := by
  rw [work, List.map_append, List.sum_append]
  rfl

@[simp] theorem requests_append (xs ys : List Act) : requests (xs ++ ys) = requests xs ++ requests ys :=
  List.filterMap_append

@[simp] theorem sends_append (xs ys : List Act) : sends (xs ++ ys) = sends xs ++ sends ys := List.filterMap_append

/-- The flash is worked on, and nothing else. -/
def FlashOnly (acts : List Act) : Prop := ∀ a ∈ acts, a.isFlash = true

namespace FlashOnly

variable {acts : List Act} (h : FlashOnly acts)

include h

theorem requests_eq_nil : requests acts = [] := by
  rw [requests, List.filterMap_eq_nil_iff]
  intro a ha
  have hflash := h a ha
  cases a <;> simp_all

theorem sends_eq_nil : sends acts = [] := by
  rw [sends, List.filterMap_eq_nil_iff]
  intro a ha
  have hflash := h a ha
  cases a <;> simp_all

theorem countP_isReset : acts.countP Act.isReset = 0 := by
  rw [List.countP_eq_zero]
  intro a ha
  have hflash := h a ha
  cases a <;> simp_all

theorem countP_isPost : acts.countP Act.isPost = 0 := by
  rw [List.countP_eq_zero]
  intro a ha
  have hflash := h a ha
  cases a <;> simp_all

theorem work_eq_zero : work acts = 0 := by
  rw [work, List.sum_eq_zero_iff_forall_eq_nat]
  intro n hn
  obtain ⟨a, ha, rfl⟩ := List.mem_map.mp hn
  have hflash := h a ha
  cases a <;> simp_all

end FlashOnly

/-- The acts that led from one machine to the other, whatever became of the roles. -/
structure Does {R S E : Type} [Effects E] (acts : List Act) (d : Dfu R E) (d' : Dfu S E) : Prop where
  core : d'.core = acts.foldl Act.onCore d.core
  fx : d'.fx = acts.foldl Act.onFx d.fx

/-- Roles that change the machine only through its methods. -/
class LawfulRoles (R : Type) [Roles R] : Prop where
  entry {E : Type} [Effects E] (state : State) (d : Dfu R E) : ∃ acts, Does acts d (Roles.entry state d)
  run {E : Type} [Effects E] (state : State) (d : Dfu R E) : ∃ acts, Does acts d (Roles.run state d)
  exit {E : Type} [Effects E] (state : State) (d : Dfu R E) : ∃ acts, Does acts d (Roles.exit state d)
  clientProcessUpdateRequest {E : Type} [Effects E] (d : Dfu R E) :
    ∃ acts, Does acts d (Roles.clientProcessUpdateRequest d)

/-- What becomes of the roles is not followed. -/
theorem Does.withRoles {R S T E : Type} [Effects E] {acts : List Act} {d : Dfu R E} {d' : Dfu S E}
    (h : Does acts d d') (roles : T) : Does acts d (⟨d'.core, roles, d'.fx⟩ : Dfu T E) := ⟨h.core, h.fx⟩

theorem Does.append {R S T E : Type} [Effects E] {xs ys : List Act} {a : Dfu R E} {b : Dfu S E} {c : Dfu T E}
    (h : Does xs a b) (h' : Does ys b c) : Does (xs ++ ys) a c where
  core := by rw [List.foldl_append, ← h.core, h'.core]
  fx := by rw [List.foldl_append, ← h.fx, h'.fx]

/-! ### Timers running out -/

namespace EventQueue

/-- More events at the end, none of them a received body. -/
def Grows (q q' : EventQueue) : Prop := ∃ es, q'.toList = q.toList ++ es ∧ ∀ e ∈ es, e.body = none

theorem Grows.refl (q : EventQueue) : Grows q q := ⟨[], by simp, by simp⟩

theorem Grows.trans {a b c : EventQueue} (h : Grows a b) (h' : Grows b c) : Grows a c := by
  obtain ⟨xs, hxs, hx⟩ := h
  obtain ⟨ys, hys, hy⟩ := h'
  refine ⟨xs ++ ys, by rw [hys, hxs, List.append_assoc], ?_⟩
  intro e he
  rcases List.mem_append.mp he with he | he
  · exact hx e he
  · exact hy e he

theorem Grows.isPrefix {a b : EventQueue} (h : Grows a b) : a.toList <+: b.toList := by
  obtain ⟨es, hes, _⟩ := h
  exact ⟨es, hes.symm⟩

theorem push_toList (q : EventQueue) (e : Event) :
    (q.push e).1.toList = q.toList ++ (if (q.push e).2 then [e] else []) := by
  by_cases h : q.len = eventQueueLen
  · rw [q.push_full e h]
    simp
  · have hlt : q.len < eventQueueLen := Nat.lt_of_le_of_ne q.len_le h
    obtain ⟨hlist, hok⟩ := q.toList_push e hlt
    rw [hlist, hok, if_pos rfl]

theorem grows_push (q : EventQueue) {e : Event} (he : e.body = none) : Grows q (q.push e).1 := by
  refine ⟨_, push_toList q e, ?_⟩
  split <;> simp [he]

theorem prefix_push (q : EventQueue) (e : Event) : q.toList <+: (q.push e).1.toList :=
  ⟨_, (push_toList q e).symm⟩

theorem mem_push {q : EventQueue} {e : Event} (h : (q.push e).2 = true) : e ∈ (q.push e).1.toList := by
  rw [push_toList, if_pos h]
  simp

/-- Whatever becomes of a push, the queue holds something after it. -/
theorem push_ne_nil (q : EventQueue) (e : Event) : (q.push e).1.toList ≠ [] := by
  by_cases h : q.len = eventQueueLen
  · rw [q.push_full e h, Ne, ← List.length_eq_zero_iff, RingQueue.length_toList, h]
    decide
  · have hlt : q.len < eventQueueLen := Nat.lt_of_le_of_ne q.len_le h
    rw [(q.toList_push e hlt).1]
    simp

end EventQueue

namespace Core

open EventQueue

/-- A timer is running, or its event is queued, or its event found the queue full. -/
def Alive (t : Timer) (c : Core) : Prop :=
  (c.timers t).isSome ∨ Event.bare t.event ∈ c.queue.toList ∨ c.lost t = true

/-- What expiring timers, the clock and changed deadlines leave alone. -/
structure SameButTime (c c' : Core) : Prop where
  state : c'.state = c.state
  current : c'.current = c.current
  pending : c'.pending = c.pending
  error : c'.error = c.error
  selfNodeId : c'.selfNodeId = c.selfNodeId
  clientNodeId : c'.clientNodeId = c.clientNodeId
  notify : c'.notify = c.notify
  internal : c'.internal = c.internal
  rebootInfo : c'.rebootInfo = c.rebootInfo
  grows : Grows c.queue c'.queue
  alive : ∀ t, Alive t c → Alive t c'

theorem SameButTime.refl (c : Core) : SameButTime c c :=
  ⟨rfl, rfl, rfl, rfl, rfl, rfl, rfl, rfl, rfl, Grows.refl _, fun _ h => h⟩

theorem SameButTime.trans {a b c : Core} (h : SameButTime a b) (h' : SameButTime b c) : SameButTime a c where
  state := h'.state.trans h.state
  current := h'.current.trans h.current
  pending := h'.pending.trans h.pending
  error := h'.error.trans h.error
  selfNodeId := h'.selfNodeId.trans h.selfNodeId
  clientNodeId := h'.clientNodeId.trans h.clientNodeId
  notify := h'.notify.trans h.notify
  internal := h'.internal.trans h.internal
  rebootInfo := h'.rebootInfo.trans h.rebootInfo
  grows := h.grows.trans h'.grows
  alive t ht := h'.alive t (h.alive t ht)

theorem alive_of_prefix {t : Timer} {c c' : Core} (ht : c'.timers t = c.timers t)
    (hq : c.queue.toList <+: c'.queue.toList) (hl : c'.lost t = c.lost t) (h : Alive t c) : Alive t c' := by
  rcases h with h | h | h
  · exact .inl (by rw [ht, h])
  · exact .inr (.inl (hq.subset h))
  · exact .inr (.inr (by rw [hl, h]))

theorem expire_sameButTime (c : Core) (timer : Timer) : SameButTime c (c.expire timer) where
  state := rfl
  current := rfl
  pending := rfl
  error := rfl
  selfNodeId := rfl
  clientNodeId := rfl
  notify := rfl
  internal := rfl
  rebootInfo := rfl
  grows := grows_push _ rfl
  alive t h := by
    by_cases htimer : t = timer
    · subst t
      -- The event is queued, or its loss is recorded.
      cases hok : (c.queue.push (Event.bare timer.event)).2 with
      | true => exact .inr (.inl (mem_push hok))
      | false =>
        refine .inr (.inr ?_)
        simp only [expire, Function.update_self, hok]
        rfl
    · refine alive_of_prefix ?_ (prefix_push _ _) ?_ h <;> simp [expire, htimer]

theorem fireDueLoop_sameButTime (fuel : Nat) (c : Core) : SameButTime c (fireDueLoop fuel c) := by
  induction fuel generalizing c with
  | zero => exact .refl c
  | succ fuel ih =>
    rw [fireDueLoop]
    split
    · exact (c.expire_sameButTime _).trans (ih _)
    · exact .refl c

theorem fireDue_sameButTime (c : Core) : SameButTime c c.fireDue := fireDueLoop_sameButTime _ c

theorem setClock_sameButTime (c : Core) (clock : Option UInt32) : SameButTime c { c with clock } :=
  ⟨rfl, rfl, rfl, rfl, rfl, rfl, rfl, rfl, rfl, Grows.refl _, fun _ h => h⟩

theorem delay_sameButTime (c : Core) (ms : UInt32) : SameButTime c (c.delay ms) :=
  (c.setClock_sameButTime _).trans (fireDue_sameButTime _)

theorem advanceTo_sameButTime (c : Core) (nowMs : UInt32) : SameButTime c (c.advanceTo nowMs) := by
  rw [advanceTo]
  refine .trans ?_ (fireDue_sameButTime _)
  split
  · exact .refl c
  · exact c.setClock_sameButTime _

theorem alive_startTimer (c : Core) (t : Timer) : Alive t (c.startTimer t) := .inl (by simp [startTimer])

theorem startTimer_alive (c : Core) {t t' : Timer} (h : Alive t c) : Alive t (c.startTimer t') := by
  by_cases ht : t = t'
  · subst t
    exact alive_startTimer c t'
  · refine alive_of_prefix (c := c) ?_ (List.prefix_refl _) ?_ h <;> simp [startTimer, ht]

theorem stopTimer_alive (c : Core) {t t' : Timer} (ht : t' ≠ t) (h : Alive t c) : Alive t (c.stopTimer t') := by
  refine alive_of_prefix (c := c) ?_ (List.prefix_refl _) rfl h
  simp [stopTimer, Ne.symm ht]

end Core

/-! ### What a list of acts leaves behind -/

open Core EventQueue

/-- The last state asked for, or else what was pending already. -/
def lastRequest (acts : List Act) (pending : Option State) : Option State :=
  (requests acts).getLast?.or pending

theorem onCore_unchanged (c : Core) (a : Act) :
    (a.onCore c).state = c.state ∧ (a.onCore c).current = c.current ∧
      (a.onCore c).selfNodeId = c.selfNodeId ∧ (a.onCore c).clientNodeId = c.clientNodeId ∧
      (a.onCore c).notify = c.notify ∧ (a.onCore c).internal = c.internal := by
  cases a with
  | delay ms =>
    have h := c.delay_sameButTime ms
    exact ⟨h.state, h.current, h.selfNodeId, h.clientNodeId, h.notify, h.internal⟩
  | _ => exact ⟨rfl, rfl, rfl, rfl, rfl, rfl⟩

theorem onCore_pending (c : Core) (a : Act) : (a.onCore c).pending = a.request?.or c.pending := by
  cases a with
  | delay ms => exact (c.delay_sameButTime ms).pending
  | _ => rfl

theorem prefix_onCore (c : Core) (a : Act) : c.queue.toList <+: (a.onCore c).queue.toList := by
  cases a with
  | delay ms => exact (c.delay_sameButTime ms).grows.isPrefix
  | setPendingStateChange state => exact prefix_push _ _
  | post event => exact prefix_push _ _
  | _ => exact List.prefix_refl _

theorem onCore_grows (c : Core) {a : Act} (h : a.isPost = false) : Grows c.queue (a.onCore c).queue := by
  cases a with
  | delay ms => exact (c.delay_sameButTime ms).grows
  | setPendingStateChange state => exact grows_push _ rfl
  | post event => cases h
  | _ => exact Grows.refl _

theorem onCore_alive (c : Core) (a : Act) {t : Timer} {running : Bool} (h : running = true → Alive t c)
    (hk : a.keeps t running = true) : Alive t (a.onCore c) := by
  cases a with
  | delay ms => exact (c.delay_sameButTime ms).alive t (h hk)
  | setPendingStateChange state => exact alive_of_prefix (c := c) rfl (prefix_push _ _) rfl (h hk)
  | post event => exact alive_of_prefix (c := c) rfl (prefix_push _ _) rfl (h hk)
  | startTimer t' =>
    simp only [Act.keeps] at hk
    split at hk
    · subst t'
      exact alive_startTimer c t
    · exact startTimer_alive c (h hk)
  | changePeriod t' ms =>
    simp only [Act.keeps] at hk
    split at hk
    · subst t'
      exact alive_startTimer _ t
    · exact startTimer_alive _ (h hk)
  | stopTimer t' =>
    simp only [Act.keeps] at hk
    split at hk
    · cases hk
    · rename_i hne
      exact stopTimer_alive c hne (h hk)
  | _ => exact h hk

section Foldl

variable (c : Core) (acts : List Act)

theorem foldl_unchanged :
    (acts.foldl Act.onCore c).state = c.state ∧ (acts.foldl Act.onCore c).current = c.current ∧
      (acts.foldl Act.onCore c).selfNodeId = c.selfNodeId ∧
      (acts.foldl Act.onCore c).clientNodeId = c.clientNodeId ∧
      (acts.foldl Act.onCore c).notify = c.notify ∧ (acts.foldl Act.onCore c).internal = c.internal := by
  induction acts generalizing c with
  | nil => exact ⟨rfl, rfl, rfl, rfl, rfl, rfl⟩
  | cons a acts ih =>
    obtain ⟨h1, h2, h3, h4, h5, h6⟩ := onCore_unchanged c a
    obtain ⟨i1, i2, i3, i4, i5, i6⟩ := ih (a.onCore c)
    exact ⟨i1.trans h1, i2.trans h2, i3.trans h3, i4.trans h4, i5.trans h5, i6.trans h6⟩

theorem foldl_pending : (acts.foldl Act.onCore c).pending = lastRequest acts c.pending := by
  induction acts generalizing c with
  | nil => rfl
  | cons a acts ih =>
    rw [List.foldl_cons, ih, onCore_pending, lastRequest, lastRequest, requests_cons]
    cases a.request? with
    | none => rfl
    | some s => cases h : (requests acts).getLast? <;> simp [List.getLast?_cons, h]

theorem prefix_foldl : c.queue.toList <+: (acts.foldl Act.onCore c).queue.toList := by
  induction acts generalizing c with
  | nil => exact List.prefix_refl _
  | cons a acts ih => exact (prefix_onCore c a).trans (ih _)

variable {acts}

theorem foldl_grows (h : acts.countP Act.isPost = 0) : Grows c.queue (acts.foldl Act.onCore c).queue := by
  induction acts generalizing c with
  | nil => exact Grows.refl _
  | cons a acts ih =>
    rw [List.countP_cons] at h
    have ha : a.isPost = false := by
      cases hp : a.isPost with
      | false => rfl
      | true =>
        rw [hp, if_pos rfl] at h
        omega
    exact (onCore_grows c ha).trans (ih _ (by omega))

theorem foldl_alive {t : Timer} {running : Bool} (h : running = true → Alive t c)
    (hk : acts.foldl (Act.keeps t) running = true) : Alive t (acts.foldl Act.onCore c) := by
  induction acts generalizing c running with
  | nil => exact h hk
  | cons a acts ih => exact ih _ (onCore_alive c a h) hk

/-- A change asked for leaves something in the queue to be run. -/
theorem foldl_queue_ne_nil (h : requests acts ≠ []) : (acts.foldl Act.onCore c).queue.toList ≠ [] := by
  induction acts generalizing c with
  | nil => exact absurd rfl h
  | cons a acts ih =>
    rw [List.foldl_cons]
    cases ha : a.request? with
    | none => exact ih _ (by rwa [requests_cons, ha] at h)
    | some s =>
      cases a with
      | setPendingStateChange state =>
        intro hnil
        have hprefix := prefix_foldl (c.setPendingStateChange state) acts
        rw [show acts.foldl Act.onCore (c.setPendingStateChange state) =
          acts.foldl Act.onCore ((Act.setPendingStateChange state).onCore c) from rfl, hnil,
          List.prefix_nil] at hprefix
        exact push_ne_nil _ _ hprefix
      | _ => cases ha

end Foldl

end Bristlemouth.Dfu
