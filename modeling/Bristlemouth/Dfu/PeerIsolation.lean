import Bristlemouth.Dfu.PendingChange

/-!
# Peer isolation

A body is checked against the peer when it is queued, not when it is run. What
was queued since the machine took up its part as client or as host is run as
that peer's; what was queued before may be anybody's.
-/

set_option autoImplicit false

namespace Bristlemouth.Dfu

open Core EventQueue

/-- The part a node plays. -/
inductive Side where
  | client
  | host
  | neither
deriving DecidableEq

def State.side (state : State) : Side := if state.isClient then .client else if state.isHost then .host else .neither

section Peer

variable {E : Type}

/-- The one node whose messages the state accepts. -/
def peer (state : State) (roles : ClientHost) : Option UInt64 :=
  match state.side with
  | .client => some roles.client.hostNodeId
  | .host => some roles.host.clientNodeId
  | .neither => none

/-- Any received body that a step runs comes from the peer of that moment. -/
def PeerIsolated (d : Dfu ClientHost E) : Prop :=
  ∀ nowMs event d₀ body address, d.begin nowMs = some (event, d₀) → event.body = some body →
    DfuAddress.ofBody body = .ok address → ∀ p, peer d.core.state d.roles = some p → address.srcNodeId = p

def FromPeer (p : UInt64) (e : Event) : Prop :=
  ∀ body address, e.body = some body → DfuAddress.ofBody body = .ok address → address.srcNodeId = p

variable [Effects E]

def takesEvent (d : Dfu ClientHost E) : Input → Bool
  | .step nowMs => (d.step nowMs).1.isSome
  | _ => false

variable (E) in
/-- A machine, and how many of its queued events are older than the part it plays. -/
structure Watched where
  machine : Dfu ClientHost E
  stale : Nat

def Watched.apply (w : Watched E) (i : Input) : Watched E where
  machine := w.machine.apply i
  stale :=
    if (w.machine.apply i).core.state.side ≠ w.machine.core.state.side then (w.machine.apply i).core.queue.len
    else if takesEvent w.machine i then w.stale - 1
    else w.stale

/-- From a machine just made, whose first event is its own. -/
def Watched.new (selfNodeId : UInt64) (rebootInfo : RebootInfo) (roles : ClientHost) (fx : E) : Watched E :=
  ⟨Dfu.new selfNodeId rebootInfo roles fx, 0⟩

def Watched.runs (w : Watched E) (inputs : List Input) : Watched E := inputs.foldl Watched.apply w

theorem Watched.machine_runs (w : Watched E) (inputs : List Input) :
    (w.runs inputs).machine = w.machine.runs inputs := by
  induction inputs generalizing w with
  | nil => rfl
  | cons i inputs ih => exact ih (w.apply i)

/-! ### The peer stays while the part is played -/

theorem peer_of_client {state : State} (roles : ClientHost) (h : state.side = .client) :
    peer state roles = some roles.client.hostNodeId := by
  rw [peer, h]

theorem peer_of_host {state : State} (roles : ClientHost) (h : state.side = .host) :
    peer state roles = some roles.host.clientNodeId := by
  rw [peer, h]

theorem peer_of_neither {state : State} (roles : ClientHost) (h : state.side = .neither) :
    peer state roles = none := by
  rw [peer, h]

theorem run_peer (state : State) (d : Dfu ClientHost E) :
    peer state (runState state d).roles = peer state d.roles := by
  cases state with
  | init | idle | error => rfl
  | hostReqUpdate | hostUpdate => exact congrArg some (Host.run_clientNodeId (ClientHost.asHost d) _)
  | _ => exact congrArg some (Client.run_sameUpdate (ClientHost.asClient d) _).hostNodeId

theorem exit_peer (state next : State) (d : Dfu ClientHost E) :
    peer next (exitState state d).roles = peer next d.roles := by
  have hclient : (exitState state d).roles.client = d.roles.client := by cases state <;> rfl
  have hhost : (exitState state d).roles.host.clientNodeId = d.roles.host.clientNodeId := by cases state <;> rfl
  rw [peer, peer, hclient, hhost]

/-- A peer is taken on only with a part, or by a client back from its reboot. -/
theorem enter_peer {next : State} (d : Dfu ClientHost E) (hdone : next ≠ .clientRebootDone)
    (hreq : next ≠ .hostReqUpdate) : peer next (enterState next d).roles = peer next d.roles := by
  cases next with
  | init | idle | error => rfl
  | clientRebootDone => exact absurd rfl hdone
  | hostReqUpdate => exact absurd rfl hreq
  | hostUpdate => exact congrArg some (Host.entry_clientNodeId (ClientHost.asHost d) hreq)
  | _ => exact congrArg some (Client.entry_sameUpdate (ClientHost.asClient d) hdone).hostNodeId

theorem libSmRun_peer {d : Dfu ClientHost E} (hs : d.core.Settling)
    (hside : (libSmRun d).core.state.side = d.core.state.side) :
    peer (libSmRun d).core.state (libSmRun d).roles = peer d.core.state d.roles := by
  have hrun := run_peer d.core.state d
  cases ran hs with
  | stays acts hruns hstands =>
    rw [hstands, hruns.state_eq]
    exact hrun
  | moves next acts hruns _ hlast hne henters hbegins hfollows =>
    have hstate : (libSmRun d).core.state = next := by rw [libSmRun_state, hruns.pending_eq, hlast, Option.getD_some]
    rw [hstate] at hside ⊢
    cases hpart : d.core.state.side with
    | neither => rw [peer_of_neither _ (hside.trans hpart), peer_of_neither _ hpart]
    | _ =>
      have hreq : next ≠ .hostReqUpdate := by
        intro h
        rw [(hbegins h).1] at hpart
        cases hpart
      have hdone : next ≠ .clientRebootDone := by
        intro h
        rw [(hfollows hreq).rebooted h] at hpart
        cases hpart
      rw [henters, enter_peer (leave d next) hdone hreq, ← hrun]
      -- Both states name the same peer, since the part is the same.
      refine (exit_peer d.core.state next _).trans ?_
      rw [peer, peer, hside]

omit [Effects E] in
theorem sourceValid_peer {d : Dfu ClientHost E} {src : UInt64} (h : d.sourceValid src = true) {p : UInt64}
    (hp : peer d.core.state d.roles = some p) : src = p := by
  rw [sourceValid] at h
  split at h
  · rename_i hclient
    rw [peer_of_client _ (by rw [State.side, if_pos hclient]), Option.some.injEq] at hp
    rw [← hp]
    exact (beq_iff_eq.mp h).symm
  · rename_i hclient
    split at h
    · rename_i hhost
      rw [peer_of_host _ (by rw [State.side, if_neg hclient, if_pos hhost]), Option.some.injEq] at hp
      rw [← hp]
      exact (beq_iff_eq.mp h).symm
    · rename_i hhost
      rw [peer_of_neither _ (by rw [State.side, if_neg hclient, if_neg hhost])] at hp
      cases hp

/-! ### What is queued while the part is played -/

/-- Every queued event but the oldest `stale` comes from the peer or carries no body. -/
def FreshFromPeer (w : Watched E) : Prop :=
  ∀ p, peer w.machine.core.state w.machine.roles = some p →
    ∀ e ∈ w.machine.core.queue.toList.drop w.stale, FromPeer p e

theorem fromPeer_of_body_none {p : UInt64} {e : Event} (h : e.body = none) : FromPeer p e := by
  intro body address hbody
  rw [h] at hbody
  cases hbody

theorem fresh_append {p : UInt64} {stale : Nat} {old new : List Event} (hold : ∀ e ∈ old.drop stale, FromPeer p e)
    (hnew : ∀ e ∈ new, FromPeer p e) : ∀ e ∈ (old ++ new).drop stale, FromPeer p e := by
  intro e he
  rw [List.drop_append] at he
  rcases List.mem_append.mp he with he | he
  · exact hold e he
  · exact hnew e (List.mem_of_mem_drop he)

theorem fresh_tail {p : UInt64} {stale : Nat} (first : Event) {rest : List Event}
    (h : ∀ e ∈ (first :: rest).drop stale, FromPeer p e) : ∀ e ∈ rest.drop (stale - 1), FromPeer p e := by
  intro e he
  cases stale with
  | zero => exact h e (List.mem_cons_of_mem first (List.mem_of_mem_drop he))
  | succ n => exact h e he

omit [Effects E] in
theorem onMessage_queue (d : Dfu ClientHost E) (body : Bytes) :
    (d.onMessage body).2.roles = d.roles ∧
      ∃ new, (d.onMessage body).2.core.queue.toList = d.core.queue.toList ++ new ∧
        ∀ p, peer d.core.state d.roles = some p → ∀ e ∈ new, FromPeer p e := by
  have hsame : ∃ new, d.core.queue.toList = d.core.queue.toList ++ new ∧
      ∀ p, peer d.core.state d.roles = some p → ∀ e ∈ new, FromPeer p e := ⟨[], by simp, by simp⟩
  rw [onMessage]
  split
  · exact ⟨rfl, hsame⟩
  · rename_i address haddress
    split
    · exact ⟨rfl, hsame⟩
    · split
      · exact ⟨rfl, hsame⟩
      · rename_i hvalid
        split
        · exact ⟨rfl, hsame⟩
        · split
          · exact ⟨rfl, hsame⟩
          · rename_i event hevent
            split
            · refine ⟨rfl, _, push_toList _ _, ?_⟩
              intro p hp e he body' address' hbody' haddress'
              rename_i hpushed
              have heq : e = event := List.mem_singleton.mp (by rwa [if_pos hpushed] at he)
              have hbody : event.body = some body := by
                rw [Event.message] at hevent
                split at hevent
                · cases hevent
                · cases hevent
                  rfl
              rw [heq, hbody, Option.some.injEq] at hbody'
              rw [← hbody', haddress, Except.ok.injEq] at haddress'
              rw [← haddress']
              exact sourceValid_peer (by simpa using hvalid) hp
            · exact ⟨rfl, hsame⟩

theorem initiateUpdate_queue (d : Dfu ClientHost E) (info : ImgInfo) (dst : UInt64) (notify : Bool)
    (timeoutMs : UInt32) (internal : Bool) :
    (d.initiateUpdate info dst notify timeoutMs internal).2.roles = d.roles ∧
      Grows d.core.queue (d.initiateUpdate info dst notify timeoutMs internal).2.core.queue := by
  rw [initiateUpdate]
  split
  · exact ⟨rfl, Grows.refl _⟩
  · split
    · rw [refuse]
      split <;> exact ⟨rfl, Grows.refl _⟩
    · dsimp only
      split
      · exact ⟨rfl, grows_push _ rfl⟩
      · rw [refuse]
        split <;> exact ⟨rfl, Grows.refl _⟩

theorem apply_fresh {w : Watched E} (hs : w.machine.core.Settling) (h : FreshFromPeer w) (i : Input) :
    FreshFromPeer (w.apply i) := by
  by_cases hside : (w.machine.apply i).core.state.side = w.machine.core.state.side
  · -- The part goes on.
    have hkeep : ∀ {new : List Event}, takesEvent w.machine i = false →
        peer (w.machine.apply i).core.state (w.machine.apply i).roles = peer w.machine.core.state w.machine.roles →
        (w.machine.apply i).core.queue.toList = w.machine.core.queue.toList ++ new →
        (∀ p, peer w.machine.core.state w.machine.roles = some p → ∀ e ∈ new, FromPeer p e) →
        FreshFromPeer (w.apply i) := by
      intro new htakes hpeer hqueue hnew p hp
      have hstale : (w.apply i).stale = w.stale := by simp [Watched.apply, hside, htakes]
      have hp' : peer w.machine.core.state w.machine.roles = some p := hpeer ▸ hp
      rw [hstale, show (w.apply i).machine = w.machine.apply i from rfl, hqueue]
      exact fresh_append (h p hp') (hnew p hp')
    have hpoll : ∀ nowMs, w.machine.apply i = w.machine.poll nowMs → takesEvent w.machine i = false →
        FreshFromPeer (w.apply i) := by
      intro nowMs hi htakes
      have htime := w.machine.core.advanceTo_sameButTime nowMs
      obtain ⟨es, hes, hbodies⟩ := htime.grows
      refine hkeep htakes ?_ (hi ▸ hes) fun p _ e he => fromPeer_of_body_none (hbodies e he)
      rw [hi]
      exact congrArg (peer · w.machine.roles) htime.state
    cases i with
    | onMessage body =>
      obtain ⟨hroles, new, hqueue, hnew⟩ := onMessage_queue w.machine body
      refine hkeep rfl ?_ hqueue hnew
      rw [(apply_unchanged w.machine (i := .onMessage body) rfl).1]
      exact congrArg (peer w.machine.core.state) hroles
    | initiateUpdate info dst notify timeoutMs internal =>
      obtain ⟨hroles, es, hes, hbodies⟩ := initiateUpdate_queue w.machine info dst notify timeoutMs internal
      refine hkeep rfl ?_ hes fun p _ e he => fromPeer_of_body_none (hbodies e he)
      rw [(apply_unchanged w.machine (i := .initiateUpdate info dst notify timeoutMs internal) rfl).1]
      exact congrArg (peer w.machine.core.state) hroles
    | poll nowMs => exact hpoll nowMs rfl rfl
    | step nowMs =>
      cases hbegin : w.machine.begin nowMs with
      | none =>
        have hstep := step_of_begin_none hbegin
        exact hpoll nowMs (by rw [apply, hstep]) (by simp [takesEvent, hstep])
      | some begun₀ =>
        obtain ⟨event, d₀⟩ := begun₀
        have hbegun := begun hbegin
        have hstep := step_of_begin hbegin
        have happly : w.machine.apply (.step nowMs) = (libSmRun d₀).withCurrent Event.none := by rw [apply, hstep]
        have hstale : (w.apply (.step nowMs)).stale = w.stale - 1 := by
          simp [Watched.apply, hside, takesEvent, hstep]
        intro p hp
        rw [hstale]
        rw [show (w.apply (.step nowMs)).machine = w.machine.apply (.step nowMs) from rfl, happly] at hp ⊢
        rw [happly] at hside
        have hs₀ := hbegun.settling hs
        have hpeer : peer w.machine.core.state w.machine.roles = some p := by
          rw [← hbegun.state, ← hbegun.roles, ← libSmRun_peer hs₀ (hside.trans (by rw [hbegun.state]))]
          exact hp
        obtain ⟨es, hbodies, hes⟩ := hbegun.queue
        obtain ⟨new, hqueue, hnew⟩ := libSmRun_grows d₀
        have hpopped : ∀ e ∈ d₀.core.queue.toList.drop (w.stale - 1), FromPeer p e := by
          refine fresh_tail event ?_
          rw [← hes]
          exact fresh_append (h p hpeer) fun e he => fromPeer_of_body_none (hbodies e he)
        have hafter := fresh_append hpopped fun e he => fromPeer_of_body_none (p := p) (hnew e he)
        rw [← hqueue] at hafter
        exact hafter
  · -- A part taken up: all that is queued is older.
    intro p _ e he
    have hstale : (w.apply i).stale = (w.machine.apply i).core.queue.len := by simp [Watched.apply, hside]
    rw [hstale, ← RingQueue.length_toList] at he
    rw [show (w.apply i).machine = w.machine.apply i from rfl, List.drop_length] at he
    cases he

theorem runs_fresh {w : Watched E} (hs : w.machine.core.Settling) (h : FreshFromPeer w) (inputs : List Input) :
    FreshFromPeer (w.runs inputs) := by
  induction inputs generalizing w with
  | nil => exact h
  | cons i inputs ih => exact ih (apply_settling hs i) (apply_fresh hs h i)

omit [Effects E] in
/-- The next event is the peer's, once nothing older than the part is queued. -/
theorem peerIsolated_of_fresh {w : Watched E} (h : FreshFromPeer w) (hstale : w.stale = 0) :
    PeerIsolated w.machine := by
  intro nowMs event d₀ body address hbegin hbody haddress p hp
  obtain ⟨es, hbodies, hes⟩ := (begun hbegin).queue
  have hmem : event ∈ w.machine.core.queue.toList ++ es := by
    rw [hes]
    exact List.mem_cons_self
  rcases List.mem_append.mp hmem with hold | hnew
  · have hdrop := h p hp
    rw [hstale] at hdrop
    exact hdrop event hold body address hbody haddress
  · rw [hbodies event hnew] at hbody
    cases hbody

/-- Whatever arrives from whomever and in whatever order, a body that a step runs comes from the peer
of the update, if it was queued since the machine took up the part it plays. -/
theorem peer_isolated_since_part (selfNodeId : UInt64) (rebootInfo : RebootInfo) (roles : ClientHost) (fx : E)
    (inputs : List Input) (hstale : ((Watched.new selfNodeId rebootInfo roles fx).runs inputs).stale = 0) :
    PeerIsolated ((new selfNodeId rebootInfo roles fx).runs inputs) := by
  have hfresh : FreshFromPeer (Watched.new selfNodeId rebootInfo roles fx) := by
    intro p hp
    cases hp
  have hruns := runs_fresh (new_settling selfNodeId rebootInfo roles fx) hfresh inputs
  have hisolated := peerIsolated_of_fresh hruns hstale
  rwa [Watched.machine_runs] at hisolated

end Peer

/-! ### A chunk that came early -/

/-- Node 2 offers node 1 an image, and node 3 sends a chunk before the offer is run. -/
def earlyChunk : List Input :=
  [.step 0, .step 0,
    .onMessage (DfuMessage.start ⟨⟨2, 1⟩, ⟨1, 1, 0, 0, 0, 0, 1⟩⟩).toBytes,
    .onMessage (DfuMessage.payload ⟨⟨3, 1⟩, [7]⟩).toBytes,
    .step 0]

/-- The chunk is run as the host's all the same. -/
theorem early_chunk_not_isolated :
    ¬ ∀ inputs : List Input, PeerIsolated ((new 1 {} ClientHost.new (Answers.allOk 4096)).runs inputs) := by
  intro h
  have hfirst : (((new 1 {} ClientHost.new (Answers.allOk 4096)).runs earlyChunk).begin 0).map Prod.fst =
      some ⟨.imageChunk, .message (DfuMessage.payload ⟨⟨3, 1⟩, [7]⟩).toBytes⟩ := by decide +kernel
  obtain ⟨⟨event, d₀⟩, hbegin, hevent⟩ := Option.map_eq_some_iff.mp hfirst
  have hpeer : peer ((new 1 {} ClientHost.new (Answers.allOk 4096)).runs earlyChunk).core.state
      ((new 1 {} ClientHost.new (Answers.allOk 4096)).runs earlyChunk).roles = some 2 := by decide +kernel
  have hsrc := h earlyChunk 0 event d₀ _ ⟨3, 1⟩ hbegin (by rw [show event = _ from hevent]; rfl) (by decide +kernel) 2 hpeer
  exact absurd hsrc (by decide)

/-- The same offer with a chunk that its own host sends once it is asked for. -/
theorem peer_isolated_since_part_in_turn :
    PeerIsolated ((new 1 {} ClientHost.new (Answers.allOk 4096)).runs
      (earlyChunk.eraseIdx 3 ++ [.step 0, .onMessage (DfuMessage.payload ⟨⟨2, 1⟩, [7]⟩).toBytes])) :=
  peer_isolated_since_part 1 {} ClientHost.new _ _ (by decide +kernel)

end Bristlemouth.Dfu
