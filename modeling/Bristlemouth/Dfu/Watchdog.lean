import Bristlemouth.Dfu.PendingChange

/-!
# The timers of the waiting states

A state that waits for its peer relies on one timer. It is running, or its
event is queued, or its event was lost to a full queue, unless a host state
was given an answer too short to hold its result.
-/

set_option autoImplicit false

namespace Bristlemouth.Dfu

open Core EventQueue

section Watchdog

variable {R E : Type}

/-- In a waiting state with no change pending, the timer runs or its event is queued. -/
def NeverWedged (d : Dfu ClientHost E) : Prop :=
  ∀ t, waitTimer d.core.state = some t → d.core.pending = none →
    (d.core.timers t).isSome ∨ ∃ e ∈ d.core.queue.toList, e.kind = t.event

/-- The same, but for an expiry that found the queue full. What is queued is the timer's own event, which has no
body. -/
def WedgedOnlyByLoss (d : Dfu ClientHost E) : Prop :=
  ∀ t, waitTimer d.core.state = some t → d.core.pending = none →
    (d.core.timers t).isSome ∨ Event.bare t.event ∈ d.core.queue.toList ∨ d.core.lost t = true

/-- The state waits on a live timer. -/
def Watching (timer : State → Option Timer) (c : Core) : Prop := ∀ t, timer c.state = some t → Alive t c

variable [Roles R] [Effects E]

/-- The event that a step runs is an answer too short to hold its result. -/
def runsShortReply (d : Dfu R E) : Input → Bool
  | .step nowMs =>
    match d.begin nowMs with
    | some (_, d₀) => decide (ShortReply d₀.core.state d₀.core)
    | none => false
  | _ => false

def noShortReply (d : Dfu R E) : List Input → Bool
  | [] => true
  | i :: inputs => !d.runsShortReply i && noShortReply (d.apply i) inputs

theorem apply_alive (d : Dfu R E) {i : Input} (hi : i.isStep = false) {t : Timer} (h : Alive t d.core) :
    Alive t (d.apply i).core := by
  have hstood := stood d hi
  generalize d.apply i = d' at hstood ⊢
  cases hstood with
  | same | refused => exact h
  | queued event internal => exact alive_of_prefix (c := d.core) rfl (prefix_push _ _) rfl h
  | polled nowMs => exact (d.core.advanceTo_sameButTime nowMs).alive t h

variable [DfuRoles R]

/-- A run that leaves the state restarts the timer that its event or its stop used up; one that enters a
waiting state starts its timer. -/
theorem libSmRun_watching {d : Dfu R E} (hs : d.core.Settling) (hshort : ¬ ShortReply d.core.state d.core)
    (h : ∀ t, DfuRoles.timer R d.core.state = some t → d.core.current ≠ Event.bare t.event → Alive t d.core) :
    Watching (DfuRoles.timer R) (libSmRun d).core := by
  cases ran hs with
  | stays acts hrun hstands hfacts hasks _ =>
    rw [hstands]
    intro t ht
    rw [hrun.state_eq] at ht
    obtain ⟨notify, clientNodeId, hcore⟩ := hrun.core
    rw [hcore]
    refine foldl_alive _ (fun hne => ?_) (hfacts.waits t ht hasks hshort)
    exact h t ht (by simpa using hne)
  | moves next acts hrun _ _ _ henters hbegins _ =>
    obtain ⟨entered, henter, hfacts, -⟩ := enterState_dfuActs next (leave d next)
    rw [henters, henter.core]
    intro t ht
    rw [(foldl_unchanged _ entered).1, leave_core] at ht
    refine foldl_alive _ (fun hfalse => ?_) (hfacts.starts t ht fun hnext => ?_)
    · cases hfalse
    · obtain ⟨_, ⟨start, hstart⟩, _⟩ := hbegins hnext
      refine ⟨start, ?_⟩
      rw [leave_core, ← hstart, ← hrun.current_eq]

theorem apply_watching {d : Dfu R E} (hs : d.core.Settling) {i : Input}
    (hshort : d.runsShortReply i = false) (h : Watching (DfuRoles.timer R) d.core) :
    Watching (DfuRoles.timer R) (d.apply i).core := by
  have hstill : ∀ {i : Input}, i.isStep = false → Watching (DfuRoles.timer R) (d.apply i).core := by
    intro i hi t ht
    rw [(apply_unchanged d hi).1] at ht
    exact apply_alive d hi (h t ht)
  cases i with
  | step nowMs =>
    rw [apply]
    cases hbegin : d.begin nowMs with
    | none =>
      rw [step_of_begin_none hbegin]
      exact hstill (i := .poll nowMs) rfl
    | some begun₀ =>
      obtain ⟨event, d₀⟩ := begun₀
      have hbegun := begun hbegin
      simp only [runsShortReply, hbegin, decide_eq_false_iff_not] at hshort
      rw [step_of_begin hbegin]
      refine libSmRun_watching (hbegun.settling hs) hshort fun t ht hne => ?_
      rw [hbegun.state] at ht
      rw [hbegun.current] at hne
      exact (hbegun.alive t (h t ht)).resolve_left hne
  | _ => exact hstill rfl

theorem runs_watching {d : Dfu R E} (hs : d.core.Settling) (h : Watching (DfuRoles.timer R) d.core)
    {inputs : List Input} (hshort : d.noShortReply inputs = true) :
    Watching (DfuRoles.timer R) (d.runs inputs).core := by
  induction inputs generalizing d with
  | nil => exact h
  | cons i inputs ih =>
    rw [noShortReply, Bool.and_eq_true, Bool.not_eq_true'] at hshort
    obtain ⟨hi, hinputs⟩ := hshort
    exact ih (apply_settling hs i) (apply_watching hs hi h) hinputs

end Watchdog

section Wedge

variable {E : Type} [Effects E]

/-- Whatever the peer sends or stops sending, and whatever the timeouts asked for, a waiting state has its
timer running or its timeout event queued, or had it refused by a full queue. -/
theorem wedged_only_by_loss (selfNodeId : UInt64) (rebootInfo : RebootInfo) (roles : ClientHost) (fx : E)
    (inputs : List Input) (hshort : (new selfNodeId rebootInfo roles fx).noShortReply inputs = true) :
    WedgedOnlyByLoss ((new selfNodeId rebootInfo roles fx).runs inputs) := by
  have hnew : Watching (DfuRoles.timer ClientHost) (new selfNodeId rebootInfo roles fx).core := by
    intro t ht
    cases ht
  have hruns := runs_watching (new_settling selfNodeId rebootInfo roles fx) hnew hshort
  intro t ht _
  rcases hruns t ht with h | h | h
  · exact .inl h
  · exact .inr (.inl h)
  · exact .inr (.inr h)

end Wedge

/-! ### A timeout lost, and a timer stopped -/

/-- Node 2 offers node 1 an image, then fills its queue with bodies that `ClientReceiving` ignores until
the chunk timer has run out. -/
def floodedQueue : List Input :=
  [.step 0, .step 0, .onMessage (DfuMessage.start ⟨⟨2, 1⟩, ⟨1, 1, 0, 0, 0, 0, 1⟩⟩).toBytes, .step 0, .step 0] ++
    List.replicate 5 (.onMessage (DfuMessage.reboot ⟨2, 1⟩).toBytes) ++ [.poll 3000]

/-- Node 1 asks node 2 to take an image, and is answered with an ack cut short before its result. -/
def shortAck : List Input :=
  [.step 0, .step 0, .initiateUpdate ⟨1, 1, 0, 0, 0, 0, 1⟩ 2 false 1000 true, .step 0, .step 0,
    .onMessage ((DfuMessage.ack ⟨⟨2, 1⟩, 1, 0⟩).toBytes.take 17), .step 0]

/-- A full queue leaves a state waiting for good, and so does a short answer though the queue has room. -/
theorem wedged_by_loss_or_shortAck :
    (¬ ∀ inputs : List Input, NeverWedged ((new 1 {} ClientHost.new (Answers.allOk 4096)).runs inputs)) ∧
      ¬ ∀ (inputs : List Input) (t : Timer),
        waitTimer ((new 1 {} ClientHost.new (Answers.allOk 4096)).runs inputs).core.state = some t →
        ((new 1 {} ClientHost.new (Answers.allOk 4096)).runs inputs).core.pending = none →
          (((new 1 {} ClientHost.new (Answers.allOk 4096)).runs inputs).core.timers t).isSome ∨
            (∃ e ∈ ((new 1 {} ClientHost.new (Answers.allOk 4096)).runs inputs).core.queue.toList, e.kind = t.event) ∨
            ((new 1 {} ClientHost.new (Answers.allOk 4096)).runs inputs).core.lost t = true := by
  constructor
  · intro h
    have hstopped : ((new 1 {} ClientHost.new (Answers.allOk 4096)).runs floodedQueue).core.timers .chunk = none := by
      decide +kernel
    have hqueue : ((new 1 {} ClientHost.new (Answers.allOk 4096)).runs floodedQueue).core.queue.toList.map Event.kind =
        List.replicate 5 .reboot := by decide +kernel
    rcases h floodedQueue .chunk (by decide +kernel) (by decide +kernel) with hrunning | ⟨e, he, hkind⟩
    · rw [hstopped] at hrunning
      cases hrunning
    · have hmem := List.mem_map_of_mem (f := Event.kind) he
      rw [hqueue, hkind] at hmem
      exact absurd (List.eq_of_mem_replicate hmem) (by decide)
  · intro h
    have hstopped : ((new 1 {} ClientHost.new (Answers.allOk 4096)).runs shortAck).core.timers .ack = none := by
      decide +kernel
    have hqueue : ((new 1 {} ClientHost.new (Answers.allOk 4096)).runs shortAck).core.queue.toList = [] := by
      decide +kernel
    have hlost : ((new 1 {} ClientHost.new (Answers.allOk 4096)).runs shortAck).core.lost .ack = false := by
      decide +kernel
    rcases h shortAck .ack (by decide +kernel) (by decide +kernel) with hrunning | ⟨e, he, _⟩ | hloss
    · rw [hstopped] at hrunning
      cases hrunning
    · rw [hqueue] at he
      cases he
    · rw [hlost] at hloss
      cases hloss

theorem wedged_only_by_loss_flooded :
    WedgedOnlyByLoss ((new 1 {} ClientHost.new (Answers.allOk 4096)).runs floodedQueue) :=
  wedged_only_by_loss 1 {} ClientHost.new _ floodedQueue (by decide +kernel)

end Bristlemouth.Dfu
