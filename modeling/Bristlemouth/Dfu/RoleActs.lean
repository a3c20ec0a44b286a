import Bristlemouth.Dfu.Acts
import Mathlib.Tactic.MkIffOfInductiveProp

/-!
# The acts of the client and of the host

For each function of the two roles, a list of acts that follows it, and what
every such list keeps to: how much it sends, what it asks for, and which timer it
leaves running.
-/

set_option autoImplicit false

namespace Bristlemouth.Dfu

attribute [simp] Act.onCore Act.onFx

attribute [local simp] DfuMessage.encodedLen

/-- The timer a waiting state of the client relies on. -/
def clientTimer : State → Option Timer
  | .clientReceiving | .clientRebootReq => some .chunk
  | _ => none

/-- The timer a waiting state of the host relies on. -/
def hostTimer : State → Option Timer
  | .hostReqUpdate => some .ack
  | .hostUpdate => some .update
  | _ => none

/-- The timer a waiting state relies on. -/
def waitTimer (state : State) : Option Timer := if state.isClient then clientTimer state else hostTimer state

/-- The answer a host state waits for, in a body too short for its result. -/
def ShortReply (state : State) (c : Core) : Prop :=
  (state = .hostReqUpdate ∧ c.current.kind = .ackReceived ∨ state = .hostUpdate ∧ c.current.kind = .updateEnd) ∧
    Host.result c = none

instance (state : State) (c : Core) : Decidable (ShortReply state c) :=
  inferInstanceAs (Decidable ((_ ∧ _ ∨ _ ∧ _) ∧ _))

/-- The changes a run can ask for, but for the one that begins an update as host. -/
@[mk_iff]
structure Follows (state next : State) : Prop where
  ne : next ≠ state
  not_req : next ≠ .hostReqUpdate
  rebooted : next = .clientRebootDone → state = .init
  offered : next = .clientReceiving → state = .idle
  received : next = .clientValidating → state = .clientReceiving

attribute [simp] follows_iff

/-- What a run of a state keeps to. -/
structure RunActs (timer : State → Option Timer) (state : State) (c : Core) (acts : List Act) : Prop where
  quiet : acts.countP Act.isPost = 0
  /-- A run that asks for a change leaves room for what the next state's entry sends. -/
  bounded : requests acts = [] ∧ (sends acts).length ≤ 2 ∧ acts.countP Act.isReset ≤ 1 ∨
    (sends acts).length ≤ 1 ∧ acts.countP Act.isReset = 0
  unwritten : state ≠ .clientReceiving → acts.countP Act.isWrite = 0
  targets : ∀ next ∈ requests acts, Follows state next
  settled : state = .clientValidating ∨ state = .error → acts = []
  waits : ∀ t, timer state = some t → requests acts = [] → ¬ ShortReply state c →
    acts.foldl (Act.keeps t) (decide (c.current ≠ Event.bare t.event)) = true

/-- What the entry of a state keeps to. -/
structure EntryActs (timer : State → Option Timer) (state : State) (c : Core) (acts : List Act) : Prop where
  quiet : acts.countP Act.isPost = 0
  bounded : (sends acts).length ≤ 1 ∧ acts.countP Act.isReset ≤ 1
  unwritten : acts.countP Act.isWrite = 0
  targets : ∀ next ∈ requests acts, state = .clientValidating ∧ (next = .clientRebootReq ∨ next = .error) ∨
    state = .error ∧ next = .idle
  starts : ∀ t, timer state = some t → (state = .hostReqUpdate → ∃ start, c.current.data = .hostStart start) →
    acts.foldl (Act.keeps t) false = true

/-- What a run sends fits, and one that sends nothing leaves less to be run than its event came with. -/
structure RunPace (kind : EventType) (acts : List Act) : Prop where
  fits : ∀ m ∈ sends acts, m.encodedLen ≤ DfuMessage.longestLen
  spends : sends acts = [] → work acts < kind.work ∧ ∀ next ∈ requests acts, work acts + next.entryWork < kind.work

/-- The same for the entry of a state, and what the change that led there allowed for. -/
structure EntryPace (state : State) (acts : List Act) : Prop where
  fits : ∀ m ∈ sends acts, m.encodedLen ≤ DfuMessage.longestLen
  spends : sends acts = [] →
    work acts ≤ state.entryWork ∧ ∀ next ∈ requests acts, work acts + next.entryWork ≤ state.entryWork

/-- The role types of this repository, with the timer each waiting state of theirs relies on. -/
class DfuRoles (R : Type) [Roles R] where
  timer : State → Option Timer
  timer_own : timer .init = none ∧ timer .idle = none ∧ timer .error = none
  entry {E : Type} [Effects E] (state : State) (d : Dfu R E) :
    ∃ acts, Does acts d (Roles.entry state d) ∧ EntryActs timer state d.core acts ∧ EntryPace state acts
  run {E : Type} [Effects E] (state : State) (d : Dfu R E) :
    ∃ acts, Does acts d (Roles.run state d) ∧ RunActs timer state d.core acts ∧ RunPace d.core.current.kind acts
  exit {E : Type} [Effects E] (state : State) (d : Dfu R E) : Does [] d (Roles.exit state d)
  clientProcessUpdateRequest {E : Type} [Effects E] (d : Dfu R E) :
    ∃ acts, Does acts d (Roles.clientProcessUpdateRequest d) ∧ RunActs timer .idle d.core acts ∧
      RunPace d.core.current.kind acts

instance {R : Type} [Roles R] [DfuRoles R] : LawfulRoles R where
  entry state d := (DfuRoles.entry state d).imp fun _ h => h.1
  run state d := (DfuRoles.run state d).imp fun _ h => h.1
  exit state d := ⟨[], DfuRoles.exit state d⟩
  clientProcessUpdateRequest d := (DfuRoles.clientProcessUpdateRequest d).imp fun _ h => h.1

section Nil

variable {timer : State → Option Timer} {state : State} {c : Core}

theorem RunActs.nil (h : ∀ t, timer state = some t → c.current ≠ Event.bare t.event) :
    RunActs timer state c [] where
  quiet := by simp
  bounded := by simp
  unwritten := by simp
  targets := by simp
  settled := by simp
  waits t ht _ _ := by simpa using h t ht

theorem EntryActs.nil (h : timer state = none) : EntryActs timer state c [] where
  quiet := by simp
  bounded := by simp
  unwritten := by simp
  targets := by simp
  starts t ht := by simp [h] at ht

theorem EventType.work_pos (kind : EventType) : 0 < kind.work := by cases kind <;> decide

theorem RunPace.nil {kind : EventType} : RunPace kind [] where
  fits := by simp
  spends _ := by simpa using kind.work_pos

theorem EntryPace.nil : EntryPace state [] where
  fits := by simp
  spends := by simp

/-- The facts that do not turn on the timer hold whatever timer a state relies on. -/
theorem RunActs.of_timer_eq {timer' : State → Option Timer} {acts : List Act} (h : RunActs timer state c acts)
    (ht : timer' state = timer state) : RunActs timer' state c acts :=
  { h with waits := fun t ht' => h.waits t (ht ▸ ht') }

theorem EntryActs.of_timer_eq {timer' : State → Option Timer} {acts : List Act}
    (h : EntryActs timer state c acts) (ht : timer' state = timer state) : EntryActs timer' state c acts :=
  { h with starts := fun t ht' => h.starts t (ht ▸ ht') }

end Nil

/-! ### The client -/

namespace Client

section Acts

variable {E : Type} [Effects E] (d : Dfu Client E)

theorem openSlot_acts (info : ImgInfo) (c : Core) :
    ∃ acts, Does acts d (openSlot d info) ∧ RunActs clientTimer .idle c acts ∧ RunPace c.current.kind acts := by
  unfold openSlot
  dsimp only
  split
  · exact ⟨[.flashOpen, .send _, .stopTimer _, .setError _, .setPendingStateChange _],
      by constructor <;> simp [transitionToError] <;> rfl, by constructor <;> simp [clientTimer],
      by constructor <;> simp⟩
  · split
    · exact ⟨[.flashOpen, .flashSize, .send _],
        by constructor <;> simp; rfl, by constructor <;> simp [clientTimer], by constructor <;> simp⟩
    · split
      · exact ⟨[.flashOpen, .flashSize, .flashSize, .flashErase _ _, .send _, .stopTimer _, .setError _,
          .setPendingStateChange _],
          by constructor <;> simp [transitionToError] <;> rfl, by constructor <;> simp [clientTimer],
          by constructor <;> simp⟩
      · exact ⟨[.flashOpen, .flashSize, .flashSize, .flashErase _ _, .send _, .setRebootInfo _, .delay _,
          .setPendingStateChange _],
          by constructor <;> simp <;> rfl, by constructor <;> simp [clientTimer], by constructor <;> simp⟩

theorem processUpdateRequest_acts :
    ∃ acts, Does acts d (processUpdateRequest d) ∧ RunActs clientTimer .idle d.core acts ∧
      RunPace d.core.current.kind acts := by
  unfold processUpdateRequest
  split
  · exact ⟨[], ⟨rfl, rfl⟩, .nil (by simp [clientTimer]), .nil⟩
  · dsimp only
    split
    · exact ⟨[.send _], by constructor <;> simp; rfl, by constructor <;> simp [clientTimer],
        by constructor <;> simp⟩
    · split
      · exact ⟨[.send _, .stopTimer _, .setError _, .setPendingStateChange _],
          by constructor <;> simp [transitionToError, abort] <;> rfl, by constructor <;> simp [clientTimer],
          by constructor <;> simp⟩
      · obtain ⟨acts, hdoes, hacts⟩ := openSlot_acts (E := E) _ _ d.core
        exact ⟨acts, ⟨hdoes.core, hdoes.fx⟩, hacts⟩

theorem processPayload_acts (chunk : Bytes) : ∃ acts, Does acts d (processPayload d chunk).2 ∧ FlashOnly acts := by
  unfold processPayload
  split
  · exact ⟨[], ⟨rfl, rfl⟩, by simp [FlashOnly]⟩
  · dsimp only
    split
    · exact ⟨[], ⟨rfl, rfl⟩, by simp [FlashOnly]⟩
    · exact ⟨[.flashWrite _ _], by split <;> exact ⟨rfl, rfl⟩, by simp [FlashOnly]⟩

theorem processEnd_acts : ∃ acts, Does acts d (processEnd d).2 ∧ FlashOnly acts := by
  unfold processEnd
  dsimp only
  split
  · exact ⟨[.flashWrite _ _, .flashClose], by split <;> exact ⟨rfl, rfl⟩, by simp [FlashOnly]⟩
  · exact ⟨[.flashClose], ⟨rfl, rfl⟩, by simp [FlashOnly]⟩

theorem transitionToError_does (err : DfuErr) :
    Does [.stopTimer .chunk, .setError err, .setPendingStateChange .error] d (transitionToError d err) :=
  ⟨rfl, rfl⟩

theorem requestChunk_does :
    Does [.send (.payloadReq ⟨d.core.addressTo d.roles.hostNodeId, d.roles.currentChunk⟩), .startTimer .chunk] d
      (requestChunk d) :=
  ⟨rfl, rfl⟩

theorem gatherChunk_acts (chunk : Bytes) :
    ∃ page failed, Does (.stopTimer .chunk :: page ++ failed) d (gatherChunk d chunk) ∧ FlashOnly page ∧
      (failed = [] ∨ failed = [.stopTimer .chunk, .setError .bmFrame, .setPendingStateChange .error]) := by
  unfold gatherChunk
  have hstop : Does [.stopTimer .chunk] d (hearChunk d chunk) := ⟨rfl, rfl⟩
  obtain ⟨page, hpage, honly⟩ := processPayload_acts (hearChunk d chunk) chunk
  have hboth := hstop.append hpage
  dsimp only
  split
  · exact ⟨page, [], by simpa using hboth, honly, .inl rfl⟩
  · exact ⟨page, _, hboth.append (transitionToError_does _ _), honly, .inr rfl⟩

theorem finishTransfer_acts :
    ∃ page asked, Does (page ++ asked) d (finishTransfer d) ∧ FlashOnly page ∧
      (asked = [.setPendingStateChange .clientValidating] ∨
        asked = [.stopTimer .chunk, .setError .bmFrame, .setPendingStateChange .error]) := by
  unfold finishTransfer
  obtain ⟨page, hpage, honly⟩ := processEnd_acts d
  dsimp only
  split
  · exact ⟨page, _, hpage.append ⟨rfl, rfl⟩, honly, .inl rfl⟩
  · exact ⟨page, _, hpage.append (transitionToError_does _ _), honly, .inr rfl⟩

theorem receiveChunk_acts (chunk : Bytes) (c : Core) :
    ∃ acts, Does acts d (receiveChunk d chunk) ∧ RunActs clientTimer .clientReceiving c acts ∧
      RunPace .imageChunk acts := by
  unfold receiveChunk
  obtain ⟨page, failed, hgather, honly, hfailed⟩ := gatherChunk_acts d chunk
  dsimp only
  split
  · refine ⟨_, (hgather.withRoles _).append (requestChunk_does _), ?_, ?_⟩
    all_goals
      rcases hfailed with rfl | rfl <;> constructor <;> simp [clientTimer, honly.requests_eq_nil, honly.sends_eq_nil,
        honly.countP_isReset, honly.countP_isPost]
  · obtain ⟨last, asked, hend, hlast, hasked⟩ := finishTransfer_acts
      { gatherChunk d chunk with roles := (gatherChunk d chunk).roles.nextChunk }
    refine ⟨_, (hgather.withRoles _).append hend, ?_, ?_⟩
    all_goals
      rcases hfailed with rfl | rfl <;> rcases hasked with rfl | rfl <;> constructor <;> simp [clientTimer,
        honly.requests_eq_nil, honly.sends_eq_nil, honly.countP_isReset, honly.countP_isPost, honly.work_eq_zero,
        hlast.requests_eq_nil, hlast.sends_eq_nil, hlast.countP_isReset, hlast.countP_isPost, hlast.work_eq_zero]

theorem receivingRun_acts : ∃ acts, Does acts d (receivingRun d) ∧
    RunActs clientTimer .clientReceiving d.core acts ∧ RunPace d.core.current.kind acts := by
  unfold receivingRun
  split
  · split
    · rename_i hkind _ _
      exact ⟨[], ⟨rfl, rfl⟩, .nil (by simp [clientTimer, Timer.event, Event.ne_bare, hkind]), .nil⟩
    · rename_i hkind _ _ _
      obtain ⟨acts, hdoes, hacts, hpace⟩ := receiveChunk_acts d _ d.core
      exact ⟨acts, hdoes, hacts, hkind ▸ hpace⟩
  · dsimp only
    split
    · exact ⟨[.send _, .stopTimer _, .setError _, .setPendingStateChange _],
        by constructor <;> simp [transitionToError, abort] <;> rfl, by constructor <;> simp [clientTimer],
        by constructor <;> simp⟩
    · exact ⟨[.send _, .startTimer .chunk],
        by constructor <;> simp [requestChunk]; rfl, by constructor <;> simp [clientTimer],
        by constructor <;> simp⟩
  · exact ⟨[.stopTimer _, .send _, .delay _, .send _, .startTimer .chunk],
      by constructor <;> simp [requestChunk] <;> rfl, by constructor <;> simp [clientTimer],
      by constructor <;> simp⟩
  · rename_i hkind
    exact ⟨[.startTimer .chunk], ⟨rfl, rfl⟩, by constructor <;> simp [clientTimer], by constructor <;> simp [hkind]⟩
  · rename_i _ htimeout _ _
    exact ⟨[], ⟨rfl, rfl⟩, .nil (by simpa [clientTimer, Timer.event] using Event.ne_bare htimeout), .nil⟩

theorem rebootReqRun_acts : ∃ acts, Does acts d (rebootReqRun d) ∧
    RunActs clientTimer .clientRebootReq d.core acts ∧ RunPace d.core.current.kind acts := by
  unfold rebootReqRun
  split
  · rename_i hkind
    split
    · exact ⟨[.stopTimer _, .setPendingStateChange _], ⟨rfl, rfl⟩, by constructor <;> simp [clientTimer],
        by constructor <;> simp [hkind]⟩
    · exact ⟨[], ⟨rfl, rfl⟩, .nil (by simp [clientTimer, Timer.event, Event.ne_bare, hkind]), .nil⟩
  · dsimp only
    split
    · exact ⟨[.send _, .stopTimer _, .setError _, .setPendingStateChange _],
        by constructor <;> simp [transitionToError, abort] <;> rfl, by constructor <;> simp [clientTimer],
        by constructor <;> simp⟩
    · exact ⟨[.send _, .startTimer .chunk],
        by constructor <;> simp [sendRebootReq]; rfl, by constructor <;> simp [clientTimer],
        by constructor <;> simp⟩
  · rename_i htimeout
    exact ⟨[], ⟨rfl, rfl⟩, .nil (by simpa [clientTimer, Timer.event] using Event.ne_bare htimeout), .nil⟩

theorem updateDoneRun_acts : ∃ acts, Does acts d (updateDoneRun d) ∧
    RunActs clientTimer .clientRebootDone d.core acts ∧ RunPace d.core.current.kind acts := by
  unfold updateDoneRun
  split
  · split
    · exact ⟨[.stopTimer _, .setConfirmed, .send _, .setPendingStateChange _],
        by constructor <;> simp <;> rfl, by constructor <;> simp [clientTimer], by constructor <;> simp⟩
    · exact ⟨[], ⟨rfl, rfl⟩, .nil (by simp [clientTimer]), .nil⟩
  · dsimp only
    split
    · exact ⟨[.send _, .setRebootInfo _, .delay _, .failUpdateAndReset],
        by constructor <;> simp [failUpdateAndReboot, abort] <;> rfl, by constructor <;> simp [clientTimer],
        by constructor <;> simp⟩
    · exact ⟨[.send _, .startTimer .chunk],
        by constructor <;> simp [sendBootComplete]; rfl, by constructor <;> simp [clientTimer],
        by constructor <;> simp⟩
  · exact ⟨[], ⟨rfl, rfl⟩, .nil (by simp [clientTimer]), .nil⟩

theorem run_acts (state : State) : ∃ acts, Does acts d (run d state) ∧
    RunActs clientTimer state d.core acts ∧ RunPace d.core.current.kind acts := by
  unfold run
  split
  · exact receivingRun_acts d
  · exact rebootReqRun_acts d
  · exact updateDoneRun_acts d
  · rename_i hreceiving hrebootReq _
    refine ⟨[], ⟨rfl, rfl⟩, .nil ?_, .nil⟩
    cases state <;> simp_all [clientTimer]

theorem entry_acts (state : State) :
    ∃ acts, Does acts d (entry d state) ∧ EntryActs clientTimer state d.core acts ∧ EntryPace state acts := by
  unfold entry
  split
  · exact ⟨[.send _, .startTimer .chunk],
      by constructor <;> simp [receivingEntry, requestChunk]; rfl, by constructor <;> simp [clientTimer],
      by constructor <;> simp⟩
  · unfold validatingEntry
    split
    · exact ⟨[.send _, .stopTimer _, .setError _, .setPendingStateChange _],
        by constructor <;> simp [transitionToError] <;> rfl, by constructor <;> simp [clientTimer],
        by constructor <;> simp⟩
    · split
      · exact ⟨[.setPendingStateChange _], ⟨rfl, rfl⟩, by constructor <;> simp [clientTimer],
          by constructor <;> simp⟩
      · exact ⟨[.send _, .stopTimer _, .setError _, .setPendingStateChange _],
          by constructor <;> simp [transitionToError] <;> rfl, by constructor <;> simp [clientTimer],
          by constructor <;> simp⟩
  · exact ⟨[.send _, .startTimer .chunk],
      by constructor <;> simp [rebootReqEntry, sendRebootReq]; rfl, by constructor <;> simp [clientTimer],
      by constructor <;> simp⟩
  · unfold updateDoneEntry
    dsimp only
    split
    · exact ⟨[.send _, .setRebootInfo _, .delay _, .failUpdateAndReset],
        by constructor <;> simp [failUpdateAndReboot] <;> rfl, by constructor <;> simp [clientTimer],
        by constructor <;> simp⟩
    · split
      · exact ⟨[.confirmKey, .send _, .startTimer .chunk],
          by constructor <;> simp [sendBootComplete]; rfl, by constructor <;> simp [clientTimer],
          by constructor <;> simp⟩
      · exact ⟨[.confirmKey, .setRebootInfo _, .setConfirmed, .setConfirmKey _, .commitConfig],
          by constructor <;> simp <;> rfl, by constructor <;> simp [clientTimer], by constructor <;> simp⟩
  · exact ⟨[.delay _, .setPendingAndReset],
      by constructor <;> simp [activatingEntry]; rfl, by constructor <;> simp [clientTimer],
      by constructor <;> simp⟩
  · rename_i hreceiving _ hrebootReq _ _
    refine ⟨[], ⟨rfl, rfl⟩, .nil ?_, .nil⟩
    cases state <;> simp_all [clientTimer]

end Acts

instance : DfuRoles Client where
  timer := clientTimer
  timer_own := ⟨rfl, rfl, rfl⟩
  entry state d := entry_acts d state
  run state d := run_acts d state
  exit _ _ := ⟨rfl, rfl⟩
  clientProcessUpdateRequest d := processUpdateRequest_acts d

end Client

/-! ### The host -/

namespace Host

section Acts

variable {E : Type} [Effects E] (d : Dfu Host E)

theorem transitionToError_does (err : DfuErr) :
    Does [.stopTimer .update, .stopTimer .ack, .setError err, .setPendingStateChange .error] d
      (transitionToError d err) :=
  ⟨rfl, rfl⟩

theorem abortError_eq_none {c : Core} (h : abortError c = none) (k : EventType) : c.current ≠ Event.bare k := by
  intro hbare
  rw [abortError, hbare] at h
  cases h

theorem onAbort_acts (state : State) (hstate : state.isHost = true) (hkind : d.core.current.kind = .abort) :
    ∃ acts, Does acts d (onAbort d) ∧ RunActs hostTimer state d.core acts ∧ RunPace d.core.current.kind acts := by
  unfold onAbort
  split
  · rename_i hnone
    exact ⟨[], ⟨rfl, rfl⟩, .nil fun t _ => abortError_eq_none hnone t.event, .nil⟩
  · refine ⟨_, transitionToError_does d _, ?_, by constructor <;> simp [hkind]⟩
    have herror : State.error ≠ state := by
      rintro rfl
      cases hstate
    have hvalidating : state ≠ .clientValidating := by
      rintro rfl
      cases hstate
    constructor <;> simp [herror, herror.symm, hvalidating]

theorem reqUpdateEntry_acts :
    ∃ acts, Does acts d (reqUpdateEntry d) ∧ EntryActs hostTimer .hostReqUpdate d.core acts ∧
      EntryPace .hostReqUpdate acts := by
  unfold reqUpdateEntry
  split
  · rename_i hnone
    refine ⟨[], ⟨rfl, rfl⟩, ?_, .nil⟩
    constructor <;> simp
    intro t _ start hstart
    rw [hstart] at hnone
    cases hnone
  · dsimp only
    exact ⟨[.send _, .startTimer .ack],
      by split <;> constructor <;> simp [reqUpdate] <;> rfl, by constructor <;> simp [hostTimer],
      by constructor <;> simp⟩

theorem reqUpdateRun_acts : ∃ acts, Does acts d (reqUpdateRun d) ∧
    RunActs hostTimer .hostReqUpdate d.core acts ∧ RunPace d.core.current.kind acts := by
  unfold reqUpdateRun
  split
  · rename_i hkind
    dsimp only
    split
    · rename_i hnone
      have hshort : ShortReply .hostReqUpdate d.core := ⟨.inl ⟨rfl, hkind⟩, hnone⟩
      exact ⟨[.stopTimer .ack], ⟨rfl, rfl⟩, by constructor <;> simp [hostTimer, hshort],
        by constructor <;> simp [hkind]⟩
    · split
      · exact ⟨[.stopTimer _, .setPendingStateChange _], ⟨rfl, rfl⟩, by constructor <;> simp [hostTimer],
          by constructor <;> simp [hkind]⟩
      · have hstop : Does [.stopTimer .ack] d (d.stopTimer .ack) := ⟨rfl, rfl⟩
        exact ⟨_, hstop.append (transitionToError_does _ _), by constructor <;> simp [hostTimer],
          by constructor <;> simp [hkind]⟩
  · rename_i hkind
    dsimp only
    split
    · exact ⟨[.stopTimer _, .stopTimer _, .setError _, .setPendingStateChange _],
        by constructor <;> simp [transitionToError]; rfl, by constructor <;> simp [hostTimer],
        by constructor <;> simp [hkind]⟩
    · exact ⟨[.send _, .startTimer .ack],
        by constructor <;> simp [reqUpdate]; rfl, by constructor <;> simp [hostTimer], by constructor <;> simp⟩
  · rename_i hkind
    exact onAbort_acts d _ rfl hkind
  · rename_i htimeout _
    exact ⟨[], ⟨rfl, rfl⟩, .nil (by simpa [hostTimer, Timer.event] using Event.ne_bare htimeout), .nil⟩

/-- Reading a chunk asks the environment at most once, and nothing of the core. -/
theorem readChunk_does (len : Nat) :
    Does [] d (readChunk d len).2.2 ∨ ∃ offset, Does [.hostGetChunk offset len] d (readChunk d len).2.2 := by
  unfold readChunk
  split
  · exact .inr ⟨_, rfl, rfl⟩
  · split <;> exact .inl ⟨rfl, rfl⟩

/-- The buffer is as long as was asked for, whatever was read into it. -/
theorem length_readChunk (len : Nat) : (readChunk d len).2.1.length = len := by
  unfold readChunk
  split
  · exact (Effects.hostGetChunk d.fx _ len).1.2.2
  · split
    · exact List.length_replicate
    · rename_i bytes stream hread
      obtain ⟨s, -, hreceive⟩ := Option.bind_eq_some_iff.mp hread
      have hbytes := (StreamBuffer.contents_receive hreceive).2
      rw [Bytes.length_copyAt _ _ _ (by rw [List.length_replicate]; omega), List.length_replicate]

theorem sendChunk_acts (c : Core) (hkind : c.current.kind = .chunkRequest) : ∃ acts, Does acts d (sendChunk d) ∧
    RunActs hostTimer .hostUpdate c acts ∧ RunPace c.current.kind acts := by
  have hbare : c.current ≠ Event.bare Timer.update.event := Event.ne_bare (by rw [hkind]; decide)
  have hle : min d.roles.nextChunkLen.toNat dfuMaxChunkSize ≤ dfuMaxChunkSize := Nat.min_le_right _ _
  unfold sendChunk
  dsimp only
  generalize min d.roles.nextChunkLen.toNat dfuMaxChunkSize = len at hle ⊢
  have hread : ∃ acts, Does acts d (readChunk d len).2.2 ∧
      (acts = [] ∨ ∃ offset, acts = [.hostGetChunk offset len]) := by
    rcases readChunk_does d len with h | ⟨offset, h⟩
    · exact ⟨_, h, .inl rfl⟩
    · exact ⟨_, h, .inr ⟨offset, rfl⟩⟩
  obtain ⟨acts, hacts, hshape⟩ := hread
  split
  · refine ⟨_, hacts.append (transitionToError_does _ _), ?_, ?_⟩
    all_goals rcases hshape with rfl | ⟨offset, rfl⟩ <;> constructor <;> simp [hostTimer, hkind]
  · rename_i read _
    have hsend : Does [.send (.payload ⟨toClient (readChunk d len).2.2, (readChunk d len).2.1⟩)] (readChunk d len).2.2
        ((readChunk d len).2.2.send (.payload ⟨toClient (readChunk d len).2.2, (readChunk d len).2.1⟩)) := ⟨rfl, rfl⟩
    have hlen := length_readChunk d len
    have hfits : 19 + len ≤ 1043 := Nat.add_le_add_left hle 19
    refine ⟨_, (hacts.append hsend).withRoles _, ?_, ?_⟩
    all_goals rcases hshape with rfl | ⟨offset, rfl⟩ <;> constructor <;> simp [hostTimer, hbare, hlen, hfits]

theorem updateRun_acts : ∃ acts, Does acts d (updateRun d) ∧
    RunActs hostTimer .hostUpdate d.core acts ∧ RunPace d.core.current.kind acts := by
  unfold updateRun
  split
  · rename_i hkind
    have hne : d.core.current.kind ≠ Timer.update.event := by rw [hkind]; decide
    split
    · exact sendChunk_acts d d.core hkind
    · exact ⟨[], ⟨rfl, rfl⟩, .nil (by simpa [hostTimer] using Event.ne_bare hne), .nil⟩
  · rename_i hkind
    have hne : d.core.current.kind ≠ Timer.update.event := by rw [hkind]; decide
    exact ⟨[.send _], ⟨rfl, rfl⟩, by constructor <;> simp [hostTimer, Event.ne_bare hne],
      by constructor <;> simp⟩
  · rename_i hkind
    have hne : d.core.current.kind ≠ Timer.update.event := by rw [hkind]; decide
    split
    · exact ⟨[.send _], ⟨rfl, rfl⟩, by constructor <;> simp [hostTimer, Event.ne_bare hne],
        by constructor <;> simp⟩
    · exact ⟨[], ⟨rfl, rfl⟩, .nil (by simpa [hostTimer] using Event.ne_bare hne), .nil⟩
  · rename_i hkind
    dsimp only
    split
    · rename_i hnone
      have hshort : ShortReply .hostUpdate d.core := ⟨.inr ⟨rfl, hkind⟩, hnone⟩
      exact ⟨[.stopTimer .update], ⟨rfl, rfl⟩, by constructor <;> simp [hostTimer, hshort],
        by constructor <;> simp [hkind]⟩
    · split
      · exact ⟨[.stopTimer _, .updateFinished _ _ _, .setPendingStateChange _],
          ⟨rfl, rfl⟩, by constructor <;> simp [hostTimer], by constructor <;> simp [hkind]⟩
      · exact ⟨[.stopTimer _, .setPendingStateChange _], ⟨rfl, rfl⟩, by constructor <;> simp [hostTimer],
          by constructor <;> simp [hkind]⟩
  · rename_i hkind
    exact onAbort_acts d _ rfl hkind
  · rename_i habort
    exact ⟨[], ⟨rfl, rfl⟩, .nil (by simpa [hostTimer, Timer.event] using Event.ne_bare habort), .nil⟩

theorem run_acts (state : State) : ∃ acts, Does acts d (run d state) ∧
    RunActs hostTimer state d.core acts ∧ RunPace d.core.current.kind acts := by
  unfold run
  split
  · exact reqUpdateRun_acts d
  · exact updateRun_acts d
  · refine ⟨[], ⟨rfl, rfl⟩, .nil ?_, .nil⟩
    cases state <;> simp_all [hostTimer]

theorem entry_acts (state : State) : ∃ acts, Does acts d (entry d state) ∧
    EntryActs hostTimer state d.core acts ∧ EntryPace state acts := by
  unfold entry
  split
  · exact reqUpdateEntry_acts d
  · exact ⟨[.changePeriod .update _], ⟨rfl, rfl⟩, by constructor <;> simp [hostTimer], by constructor <;> simp⟩
  · refine ⟨[], ⟨rfl, rfl⟩, .nil ?_, .nil⟩
    cases state <;> simp_all [hostTimer]

end Acts

end Host

/-! ### Both -/

namespace ClientHost

section Acts

variable {E : Type} [Effects E] {d : Dfu ClientHost E} {acts : List Act}

theorem onClient_does {f : Dfu Client E → Dfu Client E} (h : Does acts (asClient d) (f (asClient d))) :
    Does acts d (onClient f d) := ⟨h.core, h.fx⟩

theorem onHost_does {f : Dfu Host E → Dfu Host E} (h : Does acts (asHost d) (f (asHost d))) :
    Does acts d (onHost f d) := ⟨h.core, h.fx⟩

end Acts

instance : DfuRoles ClientHost where
  timer := waitTimer
  timer_own := ⟨rfl, rfl, rfl⟩
  entry state d := by
    simp only [Roles.entry]
    split
    · rename_i hclient
      obtain ⟨acts, hdoes, hacts, hpace⟩ := Client.entry_acts (asClient d) state
      exact ⟨acts, onClient_does hdoes, hacts.of_timer_eq (by simp [waitTimer, hclient]), hpace⟩
    · rename_i hclient
      obtain ⟨acts, hdoes, hacts, hpace⟩ := Host.entry_acts (asHost d) state
      exact ⟨acts, onHost_does hdoes, hacts.of_timer_eq (by simp [waitTimer, hclient]), hpace⟩
  run state d := by
    simp only [Roles.run]
    split
    · rename_i hclient
      obtain ⟨acts, hdoes, hacts, hpace⟩ := Client.run_acts (asClient d) state
      exact ⟨acts, onClient_does hdoes, hacts.of_timer_eq (by simp [waitTimer, hclient]), hpace⟩
    · rename_i hclient
      obtain ⟨acts, hdoes, hacts, hpace⟩ := Host.run_acts (asHost d) state
      exact ⟨acts, onHost_does hdoes, hacts.of_timer_eq (by simp [waitTimer, hclient]), hpace⟩
  exit _ _ := ⟨rfl, rfl⟩
  clientProcessUpdateRequest d := by
    obtain ⟨acts, hdoes, hacts, hpace⟩ := Client.processUpdateRequest_acts (asClient d)
    exact ⟨acts, onClient_does hdoes, hacts.of_timer_eq rfl, hpace⟩

end ClientHost

/-! ### What the roles keep -/

namespace Client

/-- The update in hand: whose it is, and what was offered. -/
structure SameUpdate (c c' : Client) : Prop where
  imageSize : c'.imageSize = c.imageSize
  numChunks : c'.numChunks = c.numChunks
  crc16 : c'.crc16 = c.crc16
  hostNodeId : c'.hostNodeId = c.hostNodeId

theorem SameUpdate.refl (c : Client) : SameUpdate c c := ⟨rfl, rfl, rfl, rfl⟩

theorem SameUpdate.trans {a b c : Client} (h : SameUpdate a b) (h' : SameUpdate b c) : SameUpdate a c :=
  ⟨h'.imageSize.trans h.imageSize, h'.numChunks.trans h.numChunks, h'.crc16.trans h.crc16,
    h'.hostNodeId.trans h.hostNodeId⟩

section Keeps

variable {E : Type} [Effects E] (d : Dfu Client E)

theorem processPayload_sameUpdate (chunk : Bytes) : SameUpdate d.roles (processPayload d chunk).2.roles := by
  unfold processPayload
  split
  · exact .refl _
  · dsimp only
    split
    · exact ⟨rfl, rfl, rfl, rfl⟩
    · split <;> exact ⟨rfl, rfl, rfl, rfl⟩

theorem gatherChunk_sameUpdate (chunk : Bytes) : SameUpdate d.roles (gatherChunk d chunk).roles := by
  have hcrc : SameUpdate d.roles (hearChunk d chunk).roles := ⟨rfl, rfl, rfl, rfl⟩
  have hpayload := processPayload_sameUpdate (hearChunk d chunk) chunk
  unfold gatherChunk
  dsimp only
  split <;> exact hcrc.trans hpayload

theorem processEnd_sameUpdate : SameUpdate d.roles (processEnd d).2.roles := by
  unfold processEnd
  dsimp only
  split
  · split <;> exact ⟨rfl, rfl, rfl, rfl⟩
  · exact .refl _

theorem finishTransfer_sameUpdate : SameUpdate d.roles (finishTransfer d).roles := by
  have hend := processEnd_sameUpdate d
  unfold finishTransfer
  dsimp only
  split <;> exact hend

theorem receiveChunk_sameUpdate (chunk : Bytes) : SameUpdate d.roles (receiveChunk d chunk).roles := by
  have hnext : SameUpdate (gatherChunk d chunk).roles (gatherChunk d chunk).roles.nextChunk := ⟨rfl, rfl, rfl, rfl⟩
  have hgather := (gatherChunk_sameUpdate d chunk).trans hnext
  have hfinish := finishTransfer_sameUpdate { gatherChunk d chunk with roles := (gatherChunk d chunk).roles.nextChunk }
  unfold receiveChunk
  dsimp only
  split
  · exact hgather.trans ⟨rfl, rfl, rfl, rfl⟩
  · exact hgather.trans hfinish

theorem run_sameUpdate (state : State) : SameUpdate d.roles (run d state).roles := by
  unfold run
  split
  · unfold receivingRun
    split
    · split
      · exact .refl _
      · exact receiveChunk_sameUpdate d _
    · dsimp only
      split <;> exact ⟨rfl, rfl, rfl, rfl⟩
    · exact ⟨rfl, rfl, rfl, rfl⟩
    · exact .refl _
    · exact .refl _
  · unfold rebootReqRun
    split
    · split <;> exact .refl _
    · dsimp only
      split <;> exact ⟨rfl, rfl, rfl, rfl⟩
    · exact .refl _
  · unfold updateDoneRun
    split
    · split <;> exact .refl _
    · dsimp only
      split <;> exact ⟨rfl, rfl, rfl, rfl⟩
    · exact .refl _
  · exact .refl _

/-- Only chunks go into the page buffer. -/
theorem run_pageBuf {state : State} (h : state ≠ .clientReceiving) : (run d state).roles.pageBuf = d.roles.pageBuf := by
  unfold run
  split
  · exact absurd rfl h
  · unfold rebootReqRun
    split
    · split <;> rfl
    · dsimp only
      split <;> rfl
    · rfl
  · unfold updateDoneRun
    split
    · split <;> rfl
    · dsimp only
      split <;> rfl
    · rfl
  · rfl

theorem entry_pageBuf (state : State) : (entry d state).roles.pageBuf = d.roles.pageBuf := by
  unfold entry
  split
  · rfl
  · unfold validatingEntry
    split
    · rfl
    · split <;> rfl
  · rfl
  · unfold updateDoneEntry
    dsimp only
    split
    · rfl
    · split <;> rfl
  · rfl
  · rfl

theorem openSlot_roles (info : ImgInfo) : (openSlot d info).roles = d.roles := by
  unfold openSlot
  dsimp only
  split
  · rfl
  · split
    · rfl
    · split <;> rfl

theorem processUpdateRequest_pageBuf : (processUpdateRequest d).roles.pageBuf = d.roles.pageBuf := by
  unfold processUpdateRequest
  split
  · rfl
  · dsimp only
    split
    · rfl
    · split
      · rfl
      · rw [openSlot_roles]

/-- The offer that the transfer is for. -/
structure Holds (c : Client) (info : ImgInfo) : Prop where
  imageSize : c.imageSize = info.imageSize
  crc16 : c.crc16 = info.crc16
  numChunks : c.numChunks = numChunksOf info.imageSize info.chunkSize

theorem Holds.of_sameUpdate {c c' : Client} {info : ImgInfo} (h : Holds c info) (hs : SameUpdate c c') : Holds c' info :=
  ⟨hs.imageSize.trans h.imageSize, hs.crc16.trans h.crc16, hs.numChunks.trans h.numChunks⟩

/-- The slot is larger than an image that is gone on with. -/
theorem openSlot_fits {info : ImgInfo} (hnone : d.core.pending = none)
    (h : (openSlot d info).core.pending = some .clientReceiving) :
    info.imageSize < (Effects.flashSize (Effects.flashOpen d.fx).2).1 := by
  unfold openSlot at h
  dsimp only at h
  split at h
  · cases h
  · split at h
    · exact absurd (h.symm.trans hnone) (by simp)
    · rename_i hfits
      exact UInt32.not_le.mp hfits

/-- What is gone on with is the offer of the event, and fits the slot. -/
theorem processUpdateRequest_holds (hnone : d.core.pending = none)
    (h : (processUpdateRequest d).core.pending = some .clientReceiving) :
    ∃ addresses info, d.core.current.body.bind offerOf = some (addresses, info) ∧
      Holds (processUpdateRequest d).roles info ∧ info.imageSize < (Effects.flashSize (Effects.flashOpen d.fx).2).1 := by
  unfold processUpdateRequest at h ⊢
  split at h
  · rw [hnone] at h
    cases h
  · rename_i addresses info hoffer
    refine ⟨addresses, info, hoffer, ?_⟩
    dsimp only at h ⊢
    split at h
    · exact absurd (h.symm.trans hnone) (by simp)
    · split at h
      · cases h
      · rename_i hsha hsize
        rw [if_neg hsha, if_neg hsize, openSlot_roles]
        have hfits := openSlot_fits _ (by exact hnone) h
        exact ⟨⟨rfl, rfl, rfl⟩, hfits⟩

/-- Only a client back from its reboot takes its host from elsewhere. -/
theorem entry_sameUpdate {state : State} (h : state ≠ .clientRebootDone) :
    SameUpdate d.roles (entry d state).roles := by
  unfold entry
  split
  · exact ⟨rfl, rfl, rfl, rfl⟩
  · unfold validatingEntry
    split
    · exact .refl _
    · split <;> exact .refl _
  · exact ⟨rfl, rfl, rfl, rfl⟩
  · exact absurd rfl h
  · exact .refl _
  · exact .refl _

end Keeps

end Client

namespace Host

section Keeps

variable {E : Type} [Effects E] (d : Dfu Host E)

theorem readChunk_clientNodeId (len : Nat) : (readChunk d len).2.2.roles.clientNodeId = d.roles.clientNodeId := by
  unfold readChunk
  split
  · rfl
  · split <;> rfl

theorem sendChunk_clientNodeId : (sendChunk d).roles.clientNodeId = d.roles.clientNodeId := by
  have hread := readChunk_clientNodeId d (min d.roles.nextChunkLen.toNat dfuMaxChunkSize)
  unfold sendChunk
  dsimp only
  split <;> exact hread

theorem run_clientNodeId (state : State) : (run d state).roles.clientNodeId = d.roles.clientNodeId := by
  unfold run
  split
  · unfold reqUpdateRun
    split
    · dsimp only
      split
      · rfl
      · split <;> rfl
    · dsimp only
      split <;> rfl
    · unfold onAbort
      split <;> rfl
    · rfl
  · unfold updateRun
    split
    · split
      · exact sendChunk_clientNodeId d
      · rfl
    · rfl
    · split <;> rfl
    · dsimp only
      split
      · rfl
      · split <;> rfl
    · unfold onAbort
      split <;> rfl
    · rfl
  · rfl

/-- Only a host asking for an update takes on a client. -/
theorem entry_clientNodeId {state : State} (h : state ≠ .hostReqUpdate) :
    (entry d state).roles.clientNodeId = d.roles.clientNodeId := by
  unfold entry
  split
  · exact absurd rfl h
  · rfl
  · rfl

end Keeps

end Host

end Bristlemouth.Dfu
