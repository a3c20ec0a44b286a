import Bristlemouth.Dfu.PendingChange

/-!
# Steps that send nothing

A step takes an event and may queue others. What is left to be run is weighed,
and a step that sends nothing leaves less of it, so that only so many of them
can follow each other.
-/

set_option autoImplicit false

namespace Bristlemouth.Dfu

open Core EventQueue

namespace Core

def queued (c : Core) : Nat := (c.queue.toList.map fun e => e.kind.work).sum

def timed (c : Core) (t : Timer) : Nat := if (c.timers t).isSome then timerWork else 0

def timing (c : Core) : Nat := c.timed .chunk + c.timed .ack + c.timed .update

/-- What is queued, or will be by a timer. -/
def ahead (c : Core) : Nat := c.queued + c.timing

/-- What is left to be run, the pending change's entry included. -/
def left (c : Core) : Nat := c.ahead + c.pending.elim 0 State.entryWork

theorem post_queued (c : Core) (e : Event) : (c.post e).queued ≤ c.queued + e.kind.work := by
  rw [queued, queued, post, push_toList, List.map_append, List.sum_append]
  split <;> simp

theorem post_ahead (c : Core) (e : Event) : (c.post e).ahead ≤ c.ahead + e.kind.work := by
  have hqueued := c.post_queued e
  have htiming : (c.post e).timing = c.timing := rfl
  rw [ahead, ahead]
  omega

theorem timed_le (c : Core) (t : Timer) : c.timed t ≤ timerWork := by
  rw [timed]
  split <;> simp

theorem ahead_of_timers {c c' : Core} (t : Timer) (hother : ∀ u, u ≠ t → c'.timers u = c.timers u) :
    c'.ahead + c.timed t + c.queued = c.ahead + c'.timed t + c'.queued := by
  have hsame : ∀ u, u ≠ t → c'.timed u = c.timed u := by
    intro u hu
    rw [timed, timed, hother u hu]
  rw [ahead, ahead, timing, timing]
  cases t with
  | chunk =>
    rw [hsame .ack (by decide), hsame .update (by decide)]
    omega
  | ack =>
    rw [hsame .chunk (by decide), hsame .update (by decide)]
    omega
  | update =>
    rw [hsame .chunk (by decide), hsame .ack (by decide)]
    omega

/-- A running timer weighs what its event does. -/
theorem expire_ahead {c : Core} {t : Timer} (h : (c.timers t).isSome) : (c.expire t).ahead ≤ c.ahead := by
  have hother := @ahead_of_timers c (c.expire t) t fun u hu => by simp [expire, hu]
  have hpush : (c.expire t).queued ≤ c.queued + t.event.work := c.post_queued (Event.bare t.event)
  have hevent : t.event.work = timerWork := by cases t <;> rfl
  have hbefore : c.timed t = timerWork := if_pos h
  have hafter : (c.expire t).timed t = 0 := by simp [timed, expire]
  omega

theorem running_of_nextDue {c : Core} {t : Timer} (h : c.nextDue = some t) : (c.timers t).isSome := by
  have hdue := (List.mem_filter.mp (List.argmin_mem h)).2
  rw [isDue] at hdue
  split at hdue
  · rename_i hsome
    rw [hsome]
    rfl
  · cases hdue

theorem fireDueLoop_ahead (fuel : Nat) (c : Core) : (fireDueLoop fuel c).ahead ≤ c.ahead := by
  induction fuel generalizing c with
  | zero => exact Nat.le_refl _
  | succ fuel ih =>
    rw [fireDueLoop]
    split
    · rename_i hnext
      exact (ih _).trans (expire_ahead (running_of_nextDue hnext))
    · exact Nat.le_refl _

theorem delay_ahead (c : Core) (ms : UInt32) : (c.delay ms).ahead ≤ c.ahead :=
  fireDueLoop_ahead _ { c with clock := some (c.now + ms) }

theorem advanceTo_ahead (c : Core) (nowMs : UInt32) : (c.advanceTo nowMs).ahead ≤ c.ahead := by
  rw [advanceTo]
  split
  · exact fireDueLoop_ahead _ c
  · exact fireDueLoop_ahead _ { c with clock := some nowMs }

theorem startTimer_ahead (c : Core) (t : Timer) : (c.startTimer t).ahead ≤ c.ahead + timerWork := by
  have hother := @ahead_of_timers c (c.startTimer t) t fun u hu => by simp [startTimer, hu]
  have hqueued : (c.startTimer t).queued = c.queued := rfl
  have hafter := (c.startTimer t).timed_le t
  omega

theorem stopTimer_ahead (c : Core) (t : Timer) : (c.stopTimer t).ahead ≤ c.ahead := by
  have hother := @ahead_of_timers c (c.stopTimer t) t fun u hu => by simp [stopTimer, hu]
  have hqueued : (c.stopTimer t).queued = c.queued := rfl
  have hafter : (c.stopTimer t).timed t = 0 := by simp [timed, stopTimer]
  omega

theorem onCore_ahead (c : Core) (a : Act) : (a.onCore c).ahead ≤ c.ahead + a.work := by
  cases a with
  | delay ms => exact c.delay_ahead ms
  | setPendingStateChange state => exact c.post_ahead Event.none
  | post event => exact c.post_ahead event
  | startTimer t => exact c.startTimer_ahead t
  | changePeriod t ms => exact startTimer_ahead { c with periods := Function.update c.periods t ms } t
  | stopTimer t => exact c.stopTimer_ahead t
  | _ => exact Nat.le_refl _

theorem foldl_ahead (c : Core) (acts : List Act) : (acts.foldl Act.onCore c).ahead ≤ c.ahead + work acts := by
  induction acts generalizing c with
  | nil => exact Nat.le_refl _
  | cons a acts ih =>
    have hact := c.onCore_ahead a
    have hrest := ih (a.onCore c)
    rw [List.foldl_cons, work_cons]
    omega

end Core

section Begin

variable {R E : Type}

/-- The event a step takes no longer lies ahead. -/
theorem begin_ahead {d d₀ : Dfu R E} {nowMs : UInt32} {event : Event} (h : d.begin nowMs = some (event, d₀)) :
    d₀.core.ahead + event.kind.work ≤ d.core.ahead := by
  rw [begin] at h
  split at h
  · cases h
  · rename_i first queue hpop
    simp only [Option.some.injEq, Prod.mk.injEq] at h
    obtain ⟨rfl, rfl⟩ := h
    have hfirst := d.core.advanceTo_ahead nowMs
    have hsecond := ((d.poll nowMs).withQueue queue).core.advanceTo_ahead nowMs
    have hpopped : (d.poll nowMs).core.queued = first.kind.work + (queue.toList.map fun e => e.kind.work).sum := by
      rw [queued, pop_eq_some hpop, List.map_cons, List.sum_cons]
    have htaken : ((d.poll nowMs).withQueue queue).core.ahead + first.kind.work = (d.poll nowMs).core.ahead := by
      have htiming : ((d.poll nowMs).withQueue queue).core.timing = (d.poll nowMs).core.timing := rfl
      have hqueued : ((d.poll nowMs).withQueue queue).core.queued = (queue.toList.map fun e => e.kind.work).sum := rfl
      rw [ahead, ahead]
      omega
    change (((d.poll nowMs).withQueue queue).core.advanceTo nowMs).ahead + _ ≤ _
    change (d.poll nowMs).core.ahead ≤ _ at hfirst
    omega

end Begin

section Step

variable {R E : Type} [Roles R] [Effects E]

/-- What a step does to its environment: at most two bodies are sent, each of them fits, and at most one reset
is asked for. One that sends nothing leaves less to be run than `before`. -/
structure Outgoing (before : Nat) (d d' : Dfu R E) (acts : List Act) : Prop where
  fx : d'.fx = acts.foldl Act.onFx d.fx
  fits : ∀ m ∈ sends acts, m.encodedLen ≤ DfuMessage.longestLen
  few : (sends acts).length ≤ 2
  resets : acts.countP Act.isReset ≤ 1
  spends : sends acts = [] → d'.core.left < before

omit [Roles R] in
theorem RunsFrom.ahead_le {acts : List Act} {d d' : Dfu R E} (h : RunsFrom acts d d') :
    d'.core.ahead ≤ d.core.ahead + work acts := by
  obtain ⟨notify, clientNodeId, hcore⟩ := h.core
  rw [hcore]
  exact foldl_ahead { d.core with notify, clientNodeId } acts

omit [Roles R] in
/-- What an entry leaves was allowed for by the change that led to it. -/
theorem entered_left {d d' : Dfu R E} {next : State} {acts : List Act} (hnone : d.core.pending = none)
    (h : Does acts d d') (hpace : EntryPace next acts) (hquiet : sends acts = []) :
    d'.core.left ≤ d.core.ahead + next.entryWork := by
  have hahead := foldl_ahead d.core acts
  obtain ⟨hless, hroom⟩ := hpace.spends hquiet
  rw [left, h.core, foldl_pending, lastRequest, hnone, Option.or_none]
  cases hlast : (requests acts).getLast? with
  | none =>
    simp only [Option.elim]
    omega
  | some later =>
    have hlater := hroom later (List.mem_of_getLast? hlast)
    simp only [Option.elim]
    omega

/-- A run that asked for a change left room for what the entry sends. -/
theorem run_bounded {timer : State → Option Timer} {state : State} {c : Core} {acts : List Act}
    (h : RunActs timer state c acts ∨ BeginsHost state c acts) :
    requests acts = [] ∧ (sends acts).length ≤ 2 ∧ acts.countP Act.isReset ≤ 1 ∨
      (sends acts).length ≤ 1 ∧ acts.countP Act.isReset = 0 := by
  rcases h with h | ⟨_, _, rfl⟩
  · exact h.bounded
  · exact .inr (by simp)

variable [DfuRoles R]

/-- The machine between two states has done what the run did, and nothing more that it keeps to. -/
theorem leave_ahead (d : Dfu R E) (next : State) :
    (leave d next).core.ahead = (runState d.core.state d).core.ahead := by
  rw [leave_core]
  rfl

theorem leave_fx (d : Dfu R E) (next : State) :
    ∃ acts, (leave d next).fx = acts.foldl Act.onFx (runState d.core.state d).fx ∧
      (acts = [] ∨ acts = [.lpmPeripheralActive]) := by
  obtain ⟨acts, hexit, hshape⟩ := exitState_dfuActs d.core.state
    { runState d.core.state d with core := { (runState d.core.state d).core with pending := none } }
  exact ⟨acts, hexit.fx, hshape⟩

omit [Effects E] in
/-- A change that is made was asked for by the run, or else by the entry of a state whose run does nothing. -/
theorem runState_asked {d : Dfu R E} (hs : d.core.Settling) {acts : List Act} {next : State}
    (hacts : RunActs (DfuRoles.timer R) d.core.state d.core acts ∨ BeginsHost d.core.state d.core acts)
    (hlast : lastRequest acts d.core.pending = some next) :
    next ∈ requests acts ∨ acts = [] ∧ d.core.pending = some next := by
  rw [lastRequest, Option.or_eq_some_iff] at hlast
  rcases hlast with hasked | ⟨hnone, hpending⟩
  · exact .inl (List.mem_of_getLast? hasked)
  · right
    rcases hacts with hacts | ⟨_, _, rfl⟩
    · have hstate : d.core.state = .clientValidating ∨ d.core.state = .error :=
        (hs next hpending).imp And.left And.left
      exact ⟨hacts.settled hstate, hpending⟩
    · cases hnone

theorem libSmRun_outgoing {d : Dfu R E} (hs : d.core.Settling) :
    ∃ acts, Outgoing (d.core.left + d.core.current.kind.work) d (libSmRun d) acts := by
  obtain ⟨acts, hrun, hacts, hpace⟩ := runState_dfuActs d.core.state d
  have hahead := hrun.ahead_le
  have hstays : ∀ d' : Dfu R E, d'.fx = (runState d.core.state d).fx →
      d'.core.ahead = (runState d.core.state d).core.ahead → d'.core.pending = none → Outgoing (d.core.left + d.core.current.kind.work) d d' acts := by
    intro d' hfx hsame hnone
    refine ⟨hfx.trans hrun.fx, hpace.fits, ?_, ?_, ?_⟩
    · rcases run_bounded hacts with h | h <;> omega
    · rcases run_bounded hacts with h | h <;> omega
    · intro hquiet
      have hspent := (hpace.spends hquiet).1
      rw [left, left, hnone, hsame]
      simp only [Option.elim]
      omega
  cases hpending : (runState d.core.state d).core.pending with
  | none =>
    rw [libSmRun_of_none hpending]
    exact ⟨acts, hstays _ rfl rfl hpending⟩
  | some next =>
    by_cases hnext : next = d.core.state
    · rw [libSmRun_of_self (hnext ▸ hpending)]
      exact ⟨acts, hstays _ rfl rfl rfl⟩
    · rw [libSmRun_of_some hpending hnext]
      obtain ⟨exits, hexit, hshape⟩ := leave_fx d next
      obtain ⟨entered, henter, hentry, hentryPace⟩ := enterState_dfuActs next (leave d next)
      have hasked := runState_asked hs hacts (hrun.pending_eq.symm.trans hpending)
      have hbounds : (sends acts).length ≤ 1 ∧ acts.countP Act.isReset = 0 := by
        rcases hasked with hmem | ⟨rfl, _⟩
        · rcases run_bounded hacts with h | h
          · rw [h.1] at hmem
            cases hmem
          · exact h
        · simp
      have hexits : sends exits = [] ∧ exits.countP Act.isReset = 0 := by
        rcases hshape with rfl | rfl <;> simp
      have hentered := hentry.bounded
      refine ⟨acts ++ exits ++ entered, ?_, ?_, ?_, ?_, ?_⟩
      · rw [List.foldl_append, List.foldl_append, ← hrun.fx, ← hexit, henter.fx]
      · intro m hm
        rw [sends_append, sends_append, hexits.1, List.append_nil, List.mem_append] at hm
        rcases hm with hm | hm
        · exact hpace.fits m hm
        · exact hentryPace.fits m hm
      · rw [sends_append, sends_append, hexits.1, List.append_nil, List.length_append]
        omega
      · rw [List.countP_append, List.countP_append]
        omega
      · intro hquiet
        rw [sends_append, sends_append, hexits.1, List.append_nil, List.append_eq_nil_iff] at hquiet
        obtain ⟨hless, hroom⟩ := hpace.spends hquiet.1
        have hleft := entered_left (by rw [leave_core]) henter hentryPace hquiet.2
        rw [leave_ahead] at hleft
        have hbefore : d.core.left = d.core.ahead + d.core.pending.elim 0 State.entryWork := rfl
        rcases hasked with hmem | ⟨rfl, hnext⟩
        · have hnextRoom := hroom next hmem
          omega
        · rw [hnext] at hbefore
          simp only [Option.elim] at hbefore
          omega

theorem step_outgoing {d d₀ : Dfu R E} {nowMs : UInt32} {event : Event} (hs : d.core.Settling)
    (h : d.begin nowMs = some (event, d₀)) : ∃ acts, Outgoing d.core.left d (d.step nowMs).2 acts := by
  have hbegun := begun h
  have hahead := begin_ahead h
  obtain ⟨acts, hacts⟩ := libSmRun_outgoing (hbegun.settling hs)
  rw [step_of_begin h]
  refine ⟨acts, by rw [← hbegun.fx]; exact hacts.fx, hacts.fits, hacts.few, hacts.resets, fun hquiet => ?_⟩
  have hless := hacts.spends hquiet
  have hleft : d₀.core.left = d₀.core.ahead + d.core.pending.elim 0 State.entryWork := by
    rw [← hbegun.pending]
    rfl
  have hbefore : d.core.left = d.core.ahead + d.core.pending.elim 0 State.entryWork := rfl
  rw [hbegun.current] at hless
  change (libSmRun d₀).core.left < d.core.left
  omega

end Step

end Bristlemouth.Dfu
