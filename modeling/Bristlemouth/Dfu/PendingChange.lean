import Bristlemouth.Dfu.Step

/-!
# Pending state changes

A change asked for is taken by a run, and one left by a state's entry by the
very next run. The wake-up event that a full queue drops is not needed for it.
-/

set_option autoImplicit false

namespace Bristlemouth.Dfu

open Core EventQueue

def Input.isStep : Input → Bool
  | .step _ => true
  | _ => false

section Inputs

variable {R E : Type} [Roles R] [Effects E]

/-- What a call between steps can do. -/
inductive Stood (d : Dfu R E) : Dfu R E → Prop where
  | same : Stood d d
  | refused (dstNodeId : UInt64) :
    Stood d { d with fx := Effects.updateFinished d.fx false .inProgress dstNodeId }
  | queued (event : Event) (internal : Bool) : Stood d { d with core := { d.core.post event with internal } }
  | polled (nowMs : UInt32) : Stood d (d.poll nowMs)

omit [Roles R] in
theorem stood_refuse (d : Dfu R E) (notify : Bool) (dstNodeId : UInt64) : Stood d (d.refuse notify dstNodeId) := by
  rw [refuse]
  split
  · exact .refused dstNodeId
  · exact .same

theorem stood (d : Dfu R E) {i : Input} (h : i.isStep = false) : Stood d (d.apply i) := by
  cases i with
  | onMessage body =>
    rw [apply, onMessage]
    split
    · exact .same
    split
    · exact .same
    split
    · exact .same
    split
    · exact .same
    split
    · exact .same
    split
    · exact .queued _ d.core.internal
    · exact .same
  | initiateUpdate info dst notify timeoutMs internal =>
    rw [apply, initiateUpdate]
    split
    · exact .same
    split
    · exact stood_refuse d notify dst
    dsimp only
    split
    · exact .queued _ internal
    · exact stood_refuse d notify dst
  | poll nowMs => exact .polled nowMs
  | step nowMs => cases h

/-- Between steps the state and what is pending stand still, and the queue only grows. -/
theorem apply_unchanged (d : Dfu R E) {i : Input} (h : i.isStep = false) :
    (d.apply i).core.state = d.core.state ∧ (d.apply i).core.pending = d.core.pending ∧
      d.core.queue.toList <+: (d.apply i).core.queue.toList := by
  have hstood := stood d h
  generalize d.apply i = d' at hstood ⊢
  cases hstood with
  | same | refused => exact ⟨rfl, rfl, List.prefix_refl _⟩
  | queued event internal => exact ⟨rfl, rfl, prefix_push _ _⟩
  | polled nowMs =>
    have hpoll := d.core.advanceTo_sameButTime nowMs
    exact ⟨hpoll.state, hpoll.pending, hpoll.grows.isPrefix⟩

theorem runs_unchanged (d : Dfu R E) {inputs : List Input} (h : ∀ i ∈ inputs, i.isStep = false) :
    (d.runs inputs).core.state = d.core.state ∧ (d.runs inputs).core.pending = d.core.pending ∧
      d.core.queue.toList <+: (d.runs inputs).core.queue.toList := by
  induction inputs generalizing d with
  | nil => exact ⟨rfl, rfl, List.prefix_refl _⟩
  | cons i inputs ih =>
    obtain ⟨hstate, hpending, hqueue⟩ := apply_unchanged d (h i (by simp))
    obtain ⟨hstate', hpending', hqueue'⟩ := ih (d.apply i) fun j hj => h j (by simp [hj])
    exact ⟨hstate'.trans hstate, hpending'.trans hpending, hqueue.trans hqueue'⟩

end Inputs

/-! ### Any lawful roles -/

/-- A pending change has something queued to run it. -/
def Core.NeverStranded (c : Core) : Prop := c.pending.isSome → c.queue.toList ≠ []

theorem neverStranded_foldl {c : Core} (h : c.NeverStranded) (acts : List Act) :
    (acts.foldl Act.onCore c).NeverStranded := by
  intro hpending
  rw [foldl_pending, lastRequest] at hpending
  cases hr : requests acts with
  | cons s rest => exact foldl_queue_ne_nil c (by simp [hr])
  | nil =>
    rw [hr] at hpending
    intro hnil
    have hprefix := prefix_foldl c acts
    rw [hnil, List.prefix_nil] at hprefix
    exact h hpending hprefix

section Lawful

variable {R E : Type} [Roles R] [Effects E]

/-- A step changes the state once at most, when its run is over, and to the last state asked for. -/
def ChangesOnce (d : Dfu R E) : Prop :=
  ∀ nowMs, (d.begin nowMs = none → (d.step nowMs).2.core.state = d.core.state) ∧
    ∀ event d₀, d.begin nowMs = some (event, d₀) →
      ∃ acts, RunsFrom acts d₀ (runState d.core.state d₀) ∧
        (runState d.core.state d₀).core.state = d.core.state ∧
        (d.step nowMs).2.core.state = (lastRequest acts d.core.pending).getD d.core.state

theorem still_neverStranded {d : Dfu R E} (h : d.core.NeverStranded) {i : Input} (hi : i.isStep = false) :
    (d.apply i).core.NeverStranded := by
  obtain ⟨_, hpending, hqueue⟩ := apply_unchanged d hi
  intro hsome hnil
  rw [hpending] at hsome
  exact h hsome (List.prefix_nil.mp (hnil ▸ hqueue))

variable [LawfulRoles R]

theorem leave_neverStranded (d : Dfu R E) (next : State) : (leave d next).core.NeverStranded := by
  rw [leave]
  obtain ⟨acts, hexit⟩ := exitState_acts d.core.state
    { runState d.core.state d with core := { (runState d.core.state d).core with pending := none } }
  have hnone : Core.NeverStranded { (runState d.core.state d).core with pending := none } := by
    intro h
    cases h
  have hleft := neverStranded_foldl hnone acts
  rw [← hexit.core] at hleft
  exact hleft

theorem libSmRun_neverStranded (d : Dfu R E) : (libSmRun d).core.NeverStranded := by
  cases hpending : (runState d.core.state d).core.pending with
  | none =>
    rw [libSmRun_of_none hpending]
    intro h
    rw [hpending] at h
    cases h
  | some next =>
    by_cases hnext : next = d.core.state
    · rw [libSmRun_of_self (hnext ▸ hpending)]
      intro h
      cases h
    · rw [libSmRun_of_some hpending hnext]
      -- What is pending now was asked for on the way out or on the way in.
      obtain ⟨acts, henter⟩ := enterState_acts next (leave d next)
      rw [henter.core]
      exact neverStranded_foldl (leave_neverStranded d next) acts

theorem apply_neverStranded {d : Dfu R E} (h : d.core.NeverStranded) (i : Input) :
    (d.apply i).core.NeverStranded := by
  cases i with
  | step nowMs =>
    rw [apply]
    cases hbegin : d.begin nowMs with
    | none =>
      rw [step_of_begin_none hbegin]
      exact still_neverStranded h (i := .poll nowMs) rfl
    | some begun =>
      rw [step_of_begin hbegin]
      exact libSmRun_neverStranded begun.2
  | _ => exact still_neverStranded h rfl

theorem runs_neverStranded {d : Dfu R E} (h : d.core.NeverStranded) (inputs : List Input) :
    (d.runs inputs).core.NeverStranded :=
  List.foldlRecOn (motive := fun d : Dfu R E => d.core.NeverStranded) inputs apply h
    fun _ hd i _ => apply_neverStranded hd i

theorem libSmRun_state (d : Dfu R E) :
    (libSmRun d).core.state = (runState d.core.state d).core.pending.getD d.core.state := by
  obtain ⟨acts, hrun⟩ := runState_acts d.core.state d
  cases hpending : (runState d.core.state d).core.pending with
  | none =>
    rw [libSmRun_of_none hpending]
    exact hrun.state_eq
  | some next =>
    by_cases hnext : next = d.core.state
    · rw [libSmRun_of_self (hnext ▸ hpending), hnext]
      exact hrun.state_eq
    · rw [libSmRun_of_some hpending hnext]
      obtain ⟨entered, henter⟩ := enterState_acts next (leave d next)
      rw [henter.core]
      exact (foldl_unchanged _ entered).1

theorem changesOnce (d : Dfu R E) : ChangesOnce d := by
  intro nowMs
  constructor
  · intro hbegin
    rw [step_of_begin_none hbegin]
    exact (apply_unchanged d (i := .poll nowMs) rfl).1
  · intro event d₀ hbegin
    have hbegun := begun hbegin
    obtain ⟨acts, hrun⟩ := runState_acts d.core.state d₀
    refine ⟨acts, hrun, hrun.state_eq.trans hbegun.state, ?_⟩
    rw [step_of_begin hbegin, ← hbegun.pending, ← hrun.pending_eq, ← hbegun.state]
    exact libSmRun_state d₀

end Lawful

/-! ### The client and the host -/

section Settling

variable {R E : Type} [Roles R] [Effects E]

/-- A change pending between calls is that of an entry, and the next step takes it whatever it runs. -/
def TakesEntryChange (d : Dfu R E) : Prop :=
  ∀ next, d.core.pending = some next →
    (d.core.state = .clientValidating ∧ (next = .clientRebootReq ∨ next = .error) ∨
      d.core.state = .error ∧ next = .idle) ∧
    ∀ inputs : List Input, (∀ i ∈ inputs, i.isStep = false) → ∀ nowMs,
      ((d.runs inputs).step nowMs).1.isSome ∧ ((d.runs inputs).step nowMs).2.core.state = next

/-- Only the entries of `ClientValidating` and `Error` leave a change behind. -/
def Core.Settling (c : Core) : Prop :=
  ∀ next, c.pending = some next →
    c.state = .clientValidating ∧ (next = .clientRebootReq ∨ next = .error) ∨ c.state = .error ∧ next = .idle

omit [Roles R] [Effects E] in
theorem Begun.settling {d d₀ : Dfu R E} {event : Event} (h : Begun d event d₀) (hs : d.core.Settling) :
    d₀.core.Settling := by
  intro next hnext
  rw [h.state]
  exact hs next (h.pending ▸ hnext)

theorem still_settling {d : Dfu R E} (h : d.core.Settling) {i : Input} (hi : i.isStep = false) :
    (d.apply i).core.Settling := by
  obtain ⟨hstate, hpending, _⟩ := apply_unchanged d hi
  intro next hnext
  rw [hpending] at hnext
  rw [hstate]
  exact h next hnext

variable [DfuRoles R]

theorem libSmRun_settling (d : Dfu R E) : (libSmRun d).core.Settling := by
  cases hpending : (runState d.core.state d).core.pending with
  | none =>
    rw [libSmRun_of_none hpending]
    intro next h
    rw [hpending] at h
    cases h
  | some next =>
    by_cases hnext : next = d.core.state
    · rw [libSmRun_of_self (hnext ▸ hpending)]
      intro _ h
      cases h
    · rw [libSmRun_of_some hpending hnext]
      obtain ⟨acts, henter, hacts, -⟩ := enterState_dfuActs next (leave d next)
      rw [henter.core]
      intro later hlater
      rw [foldl_pending, leave_core, lastRequest, Option.or_none] at hlater
      have htarget := hacts.targets later (List.mem_of_getLast? hlater)
      rw [(foldl_unchanged _ acts).1, leave_core]
      exact htarget

theorem apply_settling {d : Dfu R E} (h : d.core.Settling) (i : Input) : (d.apply i).core.Settling := by
  cases i with
  | step nowMs =>
    rw [apply]
    cases hbegin : d.begin nowMs with
    | none =>
      rw [step_of_begin_none hbegin]
      exact still_settling h (i := .poll nowMs) rfl
    | some begun =>
      rw [step_of_begin hbegin]
      exact libSmRun_settling begun.2
  | _ => exact still_settling h rfl

theorem runs_settling {d : Dfu R E} (h : d.core.Settling) (inputs : List Input) : (d.runs inputs).core.Settling :=
  List.foldlRecOn (motive := fun d : Dfu R E => d.core.Settling) inputs apply h fun _ hd i _ => apply_settling hd i

/-- Where a run takes the machine. Only `Idle`, asked to begin an update, goes on to ask its client for it,
and only `Init` finds itself back from a reboot. -/
inductive Ran (d : Dfu R E) : Prop where
  | stays (acts : List Act) (run : RunsFrom acts d (runState d.core.state d))
      (stands : libSmRun d = runState d.core.state d)
      (facts : RunActs (DfuRoles.timer R) d.core.state d.core acts) (asks : requests acts = [])
      (pending : d.core.pending = none)
  | moves (next : State) (acts : List Act) (run : RunsFrom acts d (runState d.core.state d))
      (facts : RunActs (DfuRoles.timer R) d.core.state d.core acts ∨ BeginsHost d.core.state d.core acts)
      (last : lastRequest acts d.core.pending = some next) (ne : next ≠ d.core.state)
      (enters : libSmRun d = enterState next (leave d next))
      (begins : next = .hostReqUpdate → BeginsHost d.core.state d.core acts)
      (follows : next ≠ .hostReqUpdate → Follows d.core.state next)

theorem ran {d : Dfu R E} (hs : d.core.Settling) : Ran d := by
  obtain ⟨acts, hrun, hacts, -⟩ := runState_dfuActs d.core.state d
  have hlast := hrun.pending_eq
  cases hpending : (runState d.core.state d).core.pending with
  | none =>
    rw [hpending, lastRequest, eq_comm, Option.or_eq_none_iff, List.getLast?_eq_none_iff] at hlast
    rcases hacts with hacts | ⟨_, _, rfl⟩
    · exact .stays acts hrun (libSmRun_of_none hpending) hacts hlast.1 hlast.2
    · cases hlast.1
  | some next =>
    rw [hpending] at hlast
    have hsource : next ≠ d.core.state ∧ (next = .hostReqUpdate → BeginsHost d.core.state d.core acts) ∧
        (next ≠ .hostReqUpdate → Follows d.core.state next) := by
      rw [eq_comm, lastRequest, Option.or_eq_some_iff] at hlast
      rcases hlast with h | ⟨_, h⟩
      · rcases hacts with hacts | hbegins
        · have hfollows := hacts.targets next (List.mem_of_getLast? h)
          exact ⟨hfollows.ne, fun hnext => absurd hnext hfollows.not_req, fun _ => hfollows⟩
        · have hnext : next = .hostReqUpdate := by
            rw [hbegins.2.2] at h
            exact (Option.some.inj h).symm
          rw [hnext, hbegins.1]
          exact ⟨by decide, fun _ => hbegins.1 ▸ hbegins, fun hne => absurd rfl hne⟩
      · rcases hs next h with ⟨hstate, rfl | rfl⟩ | ⟨hstate, rfl⟩ <;> rw [hstate] <;> simp
    exact .moves next acts hrun hacts hlast.symm hsource.1 (libSmRun_of_some hpending hsource.1) hsource.2.1 hsource.2.2

/-- The run of a state that leaves a change behind asks for nothing, so the change stands. -/
theorem step_takes_pending {d : Dfu R E} (h : d.core.NeverStranded) (hs : d.core.Settling) {next : State}
    (hnext : d.core.pending = some next) (nowMs : UInt32) :
    (d.step nowMs).1.isSome ∧ (d.step nowMs).2.core.state = next := by
  obtain ⟨begun₀, hbegin⟩ := Option.isSome_iff_exists.mp (begin_isSome (h (by simp [hnext])) nowMs)
  obtain ⟨event, d₀⟩ := begun₀
  have hbegun := begun hbegin
  rw [step_of_begin hbegin]
  refine ⟨rfl, ?_⟩
  obtain ⟨acts, hrun, hacts, -⟩ := runState_dfuActs d₀.core.state d₀
  have hquiet : requests acts = [] := by
    have hstate : d₀.core.state = .clientValidating ∨ d₀.core.state = .error := by
      rw [hbegun.state]
      exact (hs next hnext).imp And.left And.left
    rcases hacts with hacts | ⟨hidle, _⟩
    · rw [hacts.settled hstate]
      rfl
    · rw [hidle] at hstate
      rcases hstate with h | h <;> cases h
  have hstill : (runState d₀.core.state d₀).core.pending = some next := by
    rw [hrun.pending_eq, lastRequest, hquiet, hbegun.pending, hnext]
    rfl
  have hafter : (libSmRun d₀).core.state = next := by
    rw [libSmRun_state, hstill]
    rfl
  exact hafter

theorem takesEntryChange {d : Dfu R E} (h : d.core.NeverStranded) (hs : d.core.Settling) : TakesEntryChange d := by
  intro next hnext
  refine ⟨hs next hnext, fun inputs hinputs nowMs => ?_⟩
  obtain ⟨_, hpending, _⟩ := runs_unchanged d hinputs
  exact step_takes_pending (runs_neverStranded h inputs) (runs_settling hs inputs) (hpending.trans hnext) nowMs

end Settling

theorem new_neverStranded {R E : Type} (selfNodeId : UInt64) (rebootInfo : RebootInfo) (roles : R) (fx : E) :
    (new selfNodeId rebootInfo roles fx).core.NeverStranded := by
  intro h
  cases h

theorem new_settling {R E : Type} (selfNodeId : UInt64) (rebootInfo : RebootInfo) (roles : R) (fx : E) :
    (new selfNodeId rebootInfo roles fx).core.Settling := by
  intro _ h
  cases h

/-- Pending changes are never stranded: for roles that keep to the machine's methods they have
something queued and are made once, by a run; and those of the client's and the host's entries are
made by the very next step. -/
theorem pending_change_taken :
    (∀ {R E : Type} [Roles R] [LawfulRoles R] [Effects E] (selfNodeId : UInt64) (rebootInfo : RebootInfo)
        (roles : R) (fx : E) (inputs : List Input),
      ((new selfNodeId rebootInfo roles fx).runs inputs).core.NeverStranded ∧
        (∀ i : Input, i.isStep = false →
          (((new selfNodeId rebootInfo roles fx).runs inputs).apply i).core.state =
            ((new selfNodeId rebootInfo roles fx).runs inputs).core.state) ∧
        ChangesOnce ((new selfNodeId rebootInfo roles fx).runs inputs)) ∧
      (∀ {E : Type} [Effects E] (selfNodeId : UInt64) (rebootInfo : RebootInfo) (roles : Client) (fx : E)
          (inputs : List Input), TakesEntryChange ((new selfNodeId rebootInfo roles fx).runs inputs)) ∧
      ∀ {E : Type} [Effects E] (selfNodeId : UInt64) (rebootInfo : RebootInfo) (roles : ClientHost) (fx : E)
        (inputs : List Input), TakesEntryChange ((new selfNodeId rebootInfo roles fx).runs inputs) := by
  refine ⟨?_, ?_, ?_⟩
  · intro R E _ _ _ selfNodeId rebootInfo roles fx inputs
    have hd := runs_neverStranded (new_neverStranded selfNodeId rebootInfo roles fx) inputs
    exact ⟨hd, fun i hi => (apply_unchanged _ hi).1, changesOnce _⟩
  all_goals
    intro E _ selfNodeId rebootInfo roles fx inputs
    have hd := runs_neverStranded (new_neverStranded selfNodeId rebootInfo roles fx) inputs
    exact takesEntryChange hd (runs_settling (new_settling selfNodeId rebootInfo roles fx) inputs)

/-- An image of one byte, received and found good. -/
def oneByteImage : List Input :=
  [.step 0, .step 0, .onMessage (DfuMessage.start ⟨⟨2, 1⟩, ⟨1, 1, 0, 0, 0, 0, 1⟩⟩).toBytes, .step 0, .step 0,
    .onMessage (DfuMessage.payload ⟨⟨2, 1⟩, [0]⟩).toBytes, .step 0]

theorem pending_change_taken_oneByteImage :
    ((new 1 {} Client.new (Answers.allOk 4096)).runs oneByteImage).core.pending = some .clientRebootReq ∧
      TakesEntryChange ((new 1 {} Client.new (Answers.allOk 4096)).runs oneByteImage) :=
  ⟨by decide +kernel, pending_change_taken.2.1 1 {} Client.new (Answers.allOk 4096) oneByteImage⟩

end Bristlemouth.Dfu
