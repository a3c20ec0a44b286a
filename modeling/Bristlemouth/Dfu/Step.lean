import Bristlemouth.Dfu.RoleActs

/-!
# One step of the machine

What a step can do, said once: the event it takes, the acts of the state it
runs, and the acts of the state it then enters. Every invariant of the machine
is read off these.
-/

set_option autoImplicit false

namespace Bristlemouth.Dfu

open Core EventQueue

section Begin

variable {R E : Type}

def withQueue (d : Dfu R E) (queue : EventQueue) : Dfu R E := { d with core := { d.core with queue } }

def withCurrent (d : Dfu R E) (current : Event) : Dfu R E := { d with core := { d.core with current } }

/-- The event a step takes, and the machine about to run it. -/
def begin (d : Dfu R E) (nowMs : UInt32) : Option (Event × Dfu R E) :=
  match EventQueue.pop (d.poll nowMs).core.queue with
  | none => none
  | some (event, queue) => some (event, (((d.poll nowMs).withQueue queue).poll nowMs).withCurrent event)

/-- What is the same about the machine when it is about to run an event. -/
structure Begun (d : Dfu R E) (event : Event) (d₀ : Dfu R E) : Prop where
  state : d₀.core.state = d.core.state
  pending : d₀.core.pending = d.core.pending
  error : d₀.core.error = d.core.error
  selfNodeId : d₀.core.selfNodeId = d.core.selfNodeId
  clientNodeId : d₀.core.clientNodeId = d.core.clientNodeId
  notify : d₀.core.notify = d.core.notify
  internal : d₀.core.internal = d.core.internal
  rebootInfo : d₀.core.rebootInfo = d.core.rebootInfo
  current : d₀.core.current = event
  roles : d₀.roles = d.roles
  fx : d₀.fx = d.fx
  queue : ∃ es, (∀ e ∈ es, e.body = none) ∧ d.core.queue.toList ++ es = event :: d₀.core.queue.toList
  alive : ∀ t, Alive t d.core → event = Event.bare t.event ∨ Alive t d₀.core

theorem begun {d d₀ : Dfu R E} {nowMs : UInt32} {event : Event} (h : d.begin nowMs = some (event, d₀)) :
    Begun d event d₀ := by
  rw [begin] at h
  split at h
  · cases h
  · rename_i first queue hpop
    simp only [Option.some.injEq, Prod.mk.injEq] at h
    obtain ⟨rfl, rfl⟩ := h
    have hlist := pop_eq_some hpop
    have hfirst := d.core.advanceTo_sameButTime nowMs
    have hsecond := ((d.poll nowMs).withQueue queue).core.advanceTo_sameButTime nowMs
    refine ⟨?_, ?_, ?_, ?_, ?_, ?_, ?_, ?_, rfl, rfl, rfl, ?_, ?_⟩
    · exact hsecond.state.trans hfirst.state
    · exact hsecond.pending.trans hfirst.pending
    · exact hsecond.error.trans hfirst.error
    · exact hsecond.selfNodeId.trans hfirst.selfNodeId
    · exact hsecond.clientNodeId.trans hfirst.clientNodeId
    · exact hsecond.notify.trans hfirst.notify
    · exact hsecond.internal.trans hfirst.internal
    · exact hsecond.rebootInfo.trans hfirst.rebootInfo
    · obtain ⟨xs, hxs, hx⟩ := hfirst.grows
      obtain ⟨ys, hys, hy⟩ := hsecond.grows
      refine ⟨xs ++ ys, ?_, ?_⟩
      · intro e he
        rcases List.mem_append.mp he with he | he
        · exact hx e he
        · exact hy e he
      · calc d.core.queue.toList ++ (xs ++ ys) = (d.poll nowMs).core.queue.toList ++ ys := by
              rw [← List.append_assoc, ← hxs]
              rfl
          _ = first :: (RingQueue.toList queue ++ ys) := by rw [hlist, List.cons_append]
          _ = first :: _ := congrArg (first :: ·) hys.symm
    · intro t ht
      rcases hfirst.alive t ht with h | h | h
      · exact .inr (hsecond.alive t (.inl h))
      · -- The timeout event is the one taken, or is still queued behind it.
        rcases List.mem_cons.mp (hlist ▸ h) with h | h
        · exact .inl h.symm
        · exact .inr (hsecond.alive t (.inr (.inl h)))
      · exact .inr (hsecond.alive t (.inr (.inr h)))

/-- Something is run whenever something is queued. -/
theorem begin_isSome {d : Dfu R E} (h : d.core.queue.toList ≠ []) (nowMs : UInt32) : (d.begin nowMs).isSome := by
  rw [begin]
  split
  · rename_i hpop
    have hnil := pop_eq_none.mp hpop
    have hprefix := (d.core.advanceTo_sameButTime nowMs).grows.isPrefix
    rw [show (d.core.advanceTo nowMs).queue = (d.poll nowMs).core.queue from rfl, hnil, List.prefix_nil] at hprefix
    exact absurd hprefix h
  · rfl

end Begin

section Step

variable {R E : Type} [Roles R] [Effects E]

theorem step_of_begin_none {d : Dfu R E} {nowMs : UInt32} (h : d.begin nowMs = none) :
    d.step nowMs = (none, d.poll nowMs) := by
  rw [begin] at h
  rw [step]
  split at h
  · rename_i hpop
    simp only [hpop]
  · cases h

theorem step_of_begin {d d₀ : Dfu R E} {nowMs : UInt32} {event : Event}
    (h : d.begin nowMs = some (event, d₀)) : d.step nowMs = (some event.kind, (libSmRun d₀).withCurrent Event.none) := by
  rw [begin] at h
  rw [step]
  split at h
  · cases h
  · rename_i hpop
    simp only [Option.some.injEq, Prod.mk.injEq] at h
    obtain ⟨rfl, rfl⟩ := h
    simp only [hpop]
    rfl

/-! ### The three parts of a run -/

theorem libSmRun_of_none {d : Dfu R E} (h : (runState d.core.state d).core.pending = none) :
    libSmRun d = runState d.core.state d := by
  rw [libSmRun]
  simp only [h]

/-- The machine between leaving one state and entering the next. -/
def leave (d : Dfu R E) (next : State) : Dfu R E :=
  let left := exitState d.core.state
    { runState d.core.state d with core := { (runState d.core.state d).core with pending := none } }
  { left with core := { left.core with state := next } }

theorem libSmRun_of_some {d : Dfu R E} {next : State} (h : (runState d.core.state d).core.pending = some next)
    (hne : next ≠ d.core.state) : libSmRun d = enterState next (leave d next) := by
  rw [libSmRun]
  simp only [h, if_neg hne]
  rfl

theorem libSmRun_of_self {d : Dfu R E} (h : (runState d.core.state d).core.pending = some d.core.state) :
    libSmRun d = { runState d.core.state d with core := { (runState d.core.state d).core with pending := none } } := by
  rw [libSmRun]
  simp only [h, if_true]

end Step

/-! ### Its acts -/

/-- The acts that led from one machine to the other. An update that `Idle` is asked to begin first names its client. -/
structure RunsFrom {R E : Type} [Effects E] (acts : List Act) (d d' : Dfu R E) : Prop where
  core : ∃ notify clientNodeId, d'.core = acts.foldl Act.onCore { d.core with notify, clientNodeId }
  fx : d'.fx = acts.foldl Act.onFx d.fx

theorem Does.runsFrom {R E : Type} [Effects E] {acts : List Act} {d d' : Dfu R E} (h : Does acts d d') :
    RunsFrom acts d d' := ⟨⟨d.core.notify, d.core.clientNodeId, h.core⟩, h.fx⟩

theorem RunsFrom.state_eq {R E : Type} [Effects E] {acts : List Act} {d d' : Dfu R E} (h : RunsFrom acts d d') :
    d'.core.state = d.core.state := by
  obtain ⟨notify, clientNodeId, hcore⟩ := h.core
  rw [hcore]
  exact (foldl_unchanged _ acts).1

theorem RunsFrom.current_eq {R E : Type} [Effects E] {acts : List Act} {d d' : Dfu R E} (h : RunsFrom acts d d') :
    d'.core.current = d.core.current := by
  obtain ⟨notify, clientNodeId, hcore⟩ := h.core
  rw [hcore]
  exact (foldl_unchanged _ acts).2.1

theorem RunsFrom.pending_eq {R E : Type} [Effects E] {acts : List Act} {d d' : Dfu R E} (h : RunsFrom acts d d') :
    d'.core.pending = lastRequest acts d.core.pending := by
  obtain ⟨notify, clientNodeId, hcore⟩ := h.core
  rw [hcore]
  exact foldl_pending _ acts

/-- `Idle` is given an update to begin. -/
def BeginsHost (state : State) (c : Core) (acts : List Act) : Prop :=
  state = .idle ∧ (∃ start, c.current.data = .hostStart start) ∧ acts = [.setPendingStateChange .hostReqUpdate]

section Runs

variable {R E : Type} [Roles R] [Effects E]

theorem runState_acts [LawfulRoles R] (state : State) (d : Dfu R E) :
    ∃ acts, RunsFrom acts d (runState state d) := by
  cases state with
  | init =>
    rw [runState]
    split
    · exact ⟨[.setPendingStateChange _], Does.runsFrom ⟨rfl, rfl⟩⟩
    · exact ⟨[], Does.runsFrom ⟨rfl, rfl⟩⟩
  | idle =>
    rw [runState]
    split
    · obtain ⟨acts, hacts⟩ := LawfulRoles.clientProcessUpdateRequest d
      exact ⟨acts, hacts.runsFrom⟩
    · split
      · exact ⟨[.setPendingStateChange _], ⟨_, _, rfl⟩, rfl⟩
      · exact ⟨[], Does.runsFrom ⟨rfl, rfl⟩⟩
    · exact ⟨[], Does.runsFrom ⟨rfl, rfl⟩⟩
  | error => exact ⟨[], Does.runsFrom ⟨rfl, rfl⟩⟩
  | _ =>
    obtain ⟨acts, hacts⟩ := LawfulRoles.run _ d
    exact ⟨acts, hacts.runsFrom⟩

theorem exitState_acts [LawfulRoles R] (state : State) (d : Dfu R E) : ∃ acts, Does acts d (exitState state d) := by
  cases state with
  | init => exact ⟨[], ⟨rfl, rfl⟩⟩
  | idle => exact ⟨[.lpmPeripheralActive], ⟨rfl, rfl⟩⟩
  | error => exact ⟨[], ⟨rfl, rfl⟩⟩
  | _ => exact LawfulRoles.exit _ d

theorem enterError_acts (d : Dfu R E) (timer : State → Option Timer) (h : timer .error = none) :
    ∃ acts, Does acts d (enterState .error d) ∧ EntryActs timer .error d.core acts ∧ EntryPace .error acts := by
  rw [enterState]
  dsimp only
  split <;> split
  · exact ⟨[.lpmPeripheralInactive, .updateFinished _ _ _], ⟨rfl, rfl⟩, by constructor <;> simp [h],
      by constructor <;> simp⟩
  · exact ⟨[.lpmPeripheralInactive, .updateFinished _ _ _, .setPendingStateChange _], ⟨rfl, rfl⟩,
      by constructor <;> simp [h], by constructor <;> simp⟩
  · exact ⟨[.lpmPeripheralInactive], ⟨rfl, rfl⟩, by constructor <;> simp [h], by constructor <;> simp⟩
  · exact ⟨[.lpmPeripheralInactive, .setPendingStateChange _], ⟨rfl, rfl⟩, by constructor <;> simp [h],
      by constructor <;> simp⟩

theorem enterState_acts [LawfulRoles R] (state : State) (d : Dfu R E) :
    ∃ acts, Does acts d (enterState state d) := by
  cases state with
  | init => exact ⟨[], ⟨rfl, rfl⟩⟩
  | idle => exact ⟨[.lpmPeripheralInactive, .setRebootInfo _], ⟨rfl, rfl⟩⟩
  | error => exact (enterError_acts d (fun _ => none) rfl).imp fun _ h => h.1
  | _ => exact LawfulRoles.entry _ d

variable [DfuRoles R]

theorem runState_dfuActs (state : State) (d : Dfu R E) :
    ∃ acts, RunsFrom acts d (runState state d) ∧
      (RunActs (DfuRoles.timer R) state d.core acts ∨ BeginsHost state d.core acts) ∧
      RunPace d.core.current.kind acts := by
  obtain ⟨hinit, hidle, herror⟩ := DfuRoles.timer_own (R := R)
  cases state with
  | init =>
    rw [runState]
    split
    · rename_i hkind
      refine ⟨[.setPendingStateChange _], Does.runsFrom ⟨rfl, rfl⟩, .inl ?_, ?_⟩ <;> constructor <;>
        simp [hinit, hkind]
      all_goals split <;> simp
    · exact ⟨[], Does.runsFrom ⟨rfl, rfl⟩, .inl (.nil (by simp [hinit])), .nil⟩
  | idle =>
    rw [runState]
    split
    · obtain ⟨acts, hdoes, hacts, hpace⟩ := DfuRoles.clientProcessUpdateRequest d
      exact ⟨acts, hdoes.runsFrom, .inl hacts, hpace⟩
    · rename_i hkind
      split
      · rename_i start hstart
        exact ⟨_, ⟨⟨_, _, rfl⟩, rfl⟩, .inr ⟨rfl, ⟨start, hstart⟩, rfl⟩, by constructor <;> simp [hkind]⟩
      · exact ⟨[], Does.runsFrom ⟨rfl, rfl⟩, .inl (.nil (by simp [hidle])), .nil⟩
    · exact ⟨[], Does.runsFrom ⟨rfl, rfl⟩, .inl (.nil (by simp [hidle])), .nil⟩
  | error => exact ⟨[], Does.runsFrom ⟨rfl, rfl⟩, .inl (.nil (by simp [herror])), .nil⟩
  | _ =>
    obtain ⟨acts, hdoes, hacts, hpace⟩ := DfuRoles.run _ d
    exact ⟨acts, hdoes.runsFrom, .inl hacts, hpace⟩

theorem exitState_dfuActs (state : State) (d : Dfu R E) :
    ∃ acts, Does acts d (exitState state d) ∧ (acts = [] ∨ acts = [.lpmPeripheralActive]) := by
  cases state with
  | init => exact ⟨[], ⟨rfl, rfl⟩, .inl rfl⟩
  | idle => exact ⟨[.lpmPeripheralActive], ⟨rfl, rfl⟩, .inr rfl⟩
  | error => exact ⟨[], ⟨rfl, rfl⟩, .inl rfl⟩
  | _ => exact ⟨[], DfuRoles.exit _ d, .inl rfl⟩

theorem enterState_dfuActs (state : State) (d : Dfu R E) :
    ∃ acts, Does acts d (enterState state d) ∧ EntryActs (DfuRoles.timer R) state d.core acts ∧
      EntryPace state acts := by
  obtain ⟨hinit, hidle, herror⟩ := DfuRoles.timer_own (R := R)
  cases state with
  | init => exact ⟨[], ⟨rfl, rfl⟩, .nil hinit, .nil⟩
  | idle =>
    exact ⟨[.lpmPeripheralInactive, .setRebootInfo _], ⟨rfl, rfl⟩, by constructor <;> simp [hidle],
      by constructor <;> simp⟩
  | error => exact enterError_acts d _ herror
  | _ => exact DfuRoles.entry _ d

theorem RunActs.quiet_or {timer : State → Option Timer} {state : State} {c : Core} {acts : List Act}
    (h : RunActs timer state c acts ∨ BeginsHost state c acts) : acts.countP Act.isPost = 0 := by
  rcases h with h | ⟨_, _, rfl⟩
  · exact h.quiet
  · rfl

theorem runState_grows (state : State) (d : Dfu R E) : Grows d.core.queue (runState state d).core.queue := by
  obtain ⟨acts, hrun, hacts, -⟩ := runState_dfuActs state d
  obtain ⟨notify, clientNodeId, hcore⟩ := hrun.core
  rw [hcore]
  exact foldl_grows { d.core with notify, clientNodeId } (RunActs.quiet_or hacts)

theorem leave_core (d : Dfu R E) (next : State) :
    (leave d next).core = { (runState d.core.state d).core with pending := none, state := next } := by
  rw [leave]
  obtain ⟨acts, hexit, hshape⟩ := exitState_dfuActs d.core.state
    { runState d.core.state d with core := { (runState d.core.state d).core with pending := none } }
  rw [hexit.core]
  rcases hshape with rfl | rfl <;> rfl

/-- A run posts nothing that was received. -/
theorem libSmRun_grows (d : Dfu R E) : Grows d.core.queue (libSmRun d).core.queue := by
  have hrun := runState_grows d.core.state d
  cases hpending : (runState d.core.state d).core.pending with
  | none =>
    rw [libSmRun_of_none hpending]
    exact hrun
  | some next =>
    by_cases hnext : next = d.core.state
    · rw [libSmRun_of_self (hnext ▸ hpending)]
      exact hrun
    · obtain ⟨acts, henter, hacts, -⟩ := enterState_dfuActs next (leave d next)
      have hgrows := foldl_grows (leave d next).core hacts.quiet
      rw [libSmRun_of_some hpending hnext, henter.core]
      have hqueue : (leave d next).core.queue = (runState d.core.state d).core.queue := by rw [leave_core]
      rw [hqueue] at hgrows
      exact hrun.trans hgrows

end Runs

end Bristlemouth.Dfu
