import Bristlemouth.Dfu.PageBuffer

/-!
# Image integrity

Over a whole run: what the client has been given since its transfer started is
what it has written and what its page buffer holds. An image offered for reboot
is written whole, but for one failure that goes unseen.
-/

set_option autoImplicit false

namespace Bristlemouth.Dfu

open Core FlashWrite

namespace Client

/-- The most bytes that a transfer takes. -/
def mostBytes (info : ImgInfo) : Nat := dfuMaxChunkSize * max 1 (numChunksOf info.imageSize info.chunkSize).toNat

/-- A transfer that waits for the chunk it is at. -/
structure Receiving (c : Client) (info : ImgInfo) (ws : List FlashWrite) (received : Bytes) : Prop where
  holds : Holds c info
  paging : Paging c ws received
  length : received.length ≤ dfuMaxChunkSize * c.currentChunk.toNat
  current : c.currentChunk = 0 ∨ c.currentChunk < c.numChunks

namespace Receiving

variable {c : Client} {info : ImgInfo} {ws : List FlashWrite} {received : Bytes}

theorem restart (h : Holds c info) (hpage : c.pageBuf.length = imgPageLen) : Receiving c.restartTransfer info [] [] where
  holds := h.of_sameUpdate ⟨rfl, rfl, rfl, rfl⟩
  paging := paging_restart hpage
  length := by simp
  current := .inl rfl

/-- There is room for one more chunk. -/
theorem room (h : Receiving c info ws received) :
    dfuMaxChunkSize * (c.currentChunk.toNat + 1) ≤ mostBytes info := by
  rw [mostBytes, ← h.holds.numChunks]
  refine Nat.mul_le_mul_left _ ?_
  rcases h.current with hzero | hlt
  · rw [hzero]
    exact Nat.le_max_left 1 _
  · have hlt' := UInt16.lt_iff_toNat_lt.mp hlt
    omega

theorem most (h : Receiving c info ws received) : received.length ≤ mostBytes info := by
  have hlength := h.length
  have hroom := h.room
  rw [Nat.mul_succ] at hroom
  omega

/-- The chunk that the transfer is at is not the last there can be. -/
theorem current_succ (h : Receiving c info ws received) :
    (c.currentChunk + 1).toNat = c.currentChunk.toNat + 1 := by
  have hcount := c.numChunks.toNat_lt
  rw [UInt16.toNat_add, show (1 : UInt16).toNat = 1 from rfl]
  rcases h.current with hzero | hlt
  · rw [hzero]
    rfl
  · have hlt' := UInt16.lt_iff_toNat_lt.mp hlt
    omega

/-- Retries and timers do not matter to it. -/
theorem congr {c' : Client} (h : Receiving c info ws received) (hsame : SameUpdate c c')
    (hbuf : c'.pageBuf = c.pageBuf) (hcounter : c'.pageByteCounter = c.pageByteCounter)
    (hoffset : c'.flashOffset = c.flashOffset) (hcrc : c'.runningCrc16 = c.runningCrc16)
    (hcurrent : c'.currentChunk = c.currentChunk) : Receiving c' info ws received where
  holds := h.holds.of_sameUpdate hsame
  paging := h.paging.congr hbuf hcounter hoffset hcrc
  length := by rw [hcurrent]; exact h.length
  current := by rw [hcurrent, hsame.numChunks]; exact h.current

end Receiving

section Run

variable {E : Type} [Effects E]

/-- The page of the last chunk fails, while as much was written before as the image is long and the CRC is right. -/
def Overlooks (d : Dfu Client E) (chunk : Bytes) : Prop :=
  LastPageFails d chunk ∧ d.roles.flashOffset = d.roles.imageSize ∧
    crc16Ccitt d.roles.runningCrc16 chunk = d.roles.crc16

instance (d : Dfu Client E) (chunk : Bytes) : Decidable (Overlooks d chunk) :=
  inferInstanceAs (Decidable (((_ ≤ _ ∧ _ = _) ∧ ¬ _ < _) ∧ _ = _ ∧ _ = _))

/-- What a run leaves of the transfer. -/
structure RunEnds (d : Dfu Client (Traced E)) (info : ImgInfo) (pre ws : List FlashWrite) (received : Bytes)
    (d' : Dfu Client (Traced E)) : Prop where
  writes : d'.fx.writes = pre ++ ws
  bounded : Bounded ws received.length
  most : received.length ≤ mostBytes info
  page : d'.roles.pageBuf.length = imgPageLen
  holds : Holds d'.roles info
  waits : d'.core.pending = none → Receiving d'.roles info ws received
  ends : d'.core.pending = some .clientValidating →
    Flushed d'.roles ws received ∨ ∃ chunk, chunkIn d.core.current = some chunk ∧ LastPageFails d chunk
  overlooked : ∀ chunk, chunkIn d.core.current = some chunk → LastPageFails d chunk →
    d'.core.pending = some .clientValidating ∧ (∃ w ∈ ws, w.ok = false) ∧
      d'.roles.flashOffset = d.roles.flashOffset ∧ d'.roles.runningCrc16 = crc16Ccitt d.roles.runningCrc16 chunk

theorem length_chunkOf {body chunk : Bytes} (h : chunkOf body = some chunk) : chunk.length ≤ dfuMaxChunkSize := by
  rw [chunkOf] at h
  split at h
  · cases h
  · split at h
    · cases h
    · obtain ⟨_, _, hlength⟩ := Bytes.slice?_eq_some h
      omega

/-- A run that takes in no chunk. -/
theorem RunEnds.of_still {d d' : Dfu Client (Traced E)} {info : ImgInfo} {pre ws : List FlashWrite} {received : Bytes}
    (h : Receiving d'.roles info ws received) (hwrites : d'.fx.writes = pre ++ ws)
    (hpending : d'.core.pending ≠ some .clientValidating) (hchunk : chunkIn d.core.current = none) :
    RunEnds d info pre ws received d' where
  writes := hwrites
  bounded := h.paging.bounded
  most := h.most
  page := h.paging.page
  holds := h.holds
  waits _ := h
  ends hends := absurd hends hpending
  overlooked chunk hin := by
    rw [hchunk] at hin
    cases hin

theorem receivingRun_restarts {d : Dfu Client (Traced E)} {info : ImgInfo} {ws : List FlashWrite} {received : Bytes}
    (h : Receiving d.roles info ws received) (hkind : d.core.current.kind = .receivedUpdateRequest) :
    Receiving (receivingRun d).roles info [] [] ∧ (receivingRun d).fx.writes = d.fx.writes ∧
      (receivingRun d).core.pending = d.core.pending := by
  rw [receivingRun, hkind]
  refine ⟨Receiving.restart h.holds h.paging.page, rfl, ?_⟩
  exact ((d.core.stopTimer .chunk).delay_sameButTime 100).pending

theorem receiveChunk_runEnds {d : Dfu Client (Traced E)} {info : ImgInfo} {pre ws : List FlashWrite} {received chunk : Bytes}
    (h : Receiving d.roles info ws received) (hwrites : d.fx.writes = pre ++ ws) (hnone : d.core.pending = none)
    (hin : chunkIn d.core.current = some chunk) (hchunk : chunk.length ≤ dfuMaxChunkSize) :
    ∃ ws', RunEnds d info pre ws' (received ++ chunk) (receiveChunk d chunk) := by
  have hmax : dfuMaxChunkSize = 1024 := rfl
  have hlength := h.length
  have hcount := d.roles.currentChunk.toNat_lt
  obtain ⟨ws', hwrites', hbounded, hpage, hcurrent, hend⟩ :=
    receiveChunk_ends h.paging hwrites hchunk (by rw [hmax] at hlength hchunk; omega)
  have hsame := receiveChunk_sameUpdate d chunk
  have hlength' : (received ++ chunk).length ≤ dfuMaxChunkSize * (d.roles.currentChunk.toNat + 1) := by
    rw [List.length_append, Nat.mul_succ]
    omega
  have hmost := hlength'.trans h.room
  rw [← List.length_append] at hbounded
  refine ⟨ws', hwrites', hbounded, hmost, hpage, h.holds.of_sameUpdate hsame, ?_, ?_, ?_⟩
  · intro hwaits
    cases hend with
    | more _ hpaging hmore =>
      refine ⟨h.holds.of_sameUpdate hsame, hpaging, ?_, .inr hmore⟩
      rw [hcurrent, h.current_succ]
      exact hlength'
    | failed hpending | finished hpending | overlooked hpending =>
      rw [hpending] at hwaits
      cases hwaits
  · intro hends
    cases hend with
    | more hpending =>
      rw [hpending, hnone] at hends
      cases hends
    | failed hpending =>
      rw [hpending] at hends
      cases hends
    | finished _ hflushed => exact .inl hflushed
    | overlooked _ hfails => exact .inr ⟨chunk, hin, hfails⟩
  · intro chunk' hin' hfails
    obtain rfl : chunk = chunk' := Option.some.inj (hin.symm.trans hin')
    cases hend with
    | overlooked hpending _ hunwritten hoffset hcrc => exact ⟨hpending, hunwritten, hoffset, hcrc⟩
    | more _ _ _ hseen | failed _ hseen | finished _ _ hseen => exact absurd hfails hseen

theorem receivingRun_runEnds {d : Dfu Client (Traced E)} {info : ImgInfo} {pre ws : List FlashWrite} {received : Bytes}
    (h : Receiving d.roles info ws received) (hwrites : d.fx.writes = pre ++ ws) (hnone : d.core.pending = none)
    (hkind : d.core.current.kind ≠ .receivedUpdateRequest) :
    ∃ ws', RunEnds d info pre ws' (received ++ (chunkIn d.core.current).getD []) (receivingRun d) := by
  have hstill : ∀ {d' : Dfu Client (Traced E)}, d.core.current.kind ≠ .imageChunk → Receiving d'.roles info ws received →
      d'.fx.writes = pre ++ ws → d'.core.pending ≠ some .clientValidating →
      ∃ ws', RunEnds d info pre ws' (received ++ (chunkIn d.core.current).getD []) d' := by
    intro d' hchunk h' hwrites' hpending
    have hin : chunkIn d.core.current = none := if_neg hchunk
    rw [hin, Option.getD_none, List.append_nil]
    exact ⟨ws, .of_still h' hwrites' hpending hin⟩
  have hpending : d.core.pending ≠ some .clientValidating := by rw [hnone]; simp
  unfold receivingRun
  split
  · rename_i himage
    have hin : chunkIn d.core.current = d.core.current.body.bind chunkOf := by rw [chunkIn, if_pos himage]
    split
    · rename_i hbody
      rw [hin, hbody, Option.getD_none, List.append_nil]
      exact ⟨ws, .of_still h hwrites hpending (hin.trans hbody)⟩
    · rename_i chunk hbody
      obtain ⟨body, _, hchunk⟩ := Option.bind_eq_some_iff.mp hbody
      rw [hin, hbody, Option.getD_some]
      exact receiveChunk_runEnds h hwrites hnone (hin.trans hbody) (length_chunkOf hchunk)
  · rename_i htimeout
    have hretried : Receiving d.roles.countRetry info ws received := h.congr ⟨rfl, rfl, rfl, rfl⟩ rfl rfl rfl rfl rfl
    dsimp only
    split
    · exact hstill (by rw [htimeout]; decide) hretried hwrites (fun herror => by cases herror)
    · exact hstill (by rw [htimeout]; decide) hretried hwrites hpending
  · rename_i hoffer
    exact absurd hoffer hkind
  · rename_i hbeat
    exact hstill (by rw [hbeat]; decide) h hwrites hpending
  · rename_i himage _ _ _
    exact hstill himage h hwrites hpending

/-- Validation goes by the length written and the CRC of what was received. -/
theorem validatingEntry_pending (d : Dfu Client E) :
    (validatingEntry d).core.pending = some .clientRebootReq ↔
      d.roles.imageSize = d.roles.flashOffset ∧ d.roles.crc16 = d.roles.runningCrc16 := by
  rw [validatingEntry]
  split
  · rename_i hsize
    simp [transitionToError, Core.setPendingStateChange, hsize]
  · rename_i hsize
    have hsize' := Decidable.not_not.mp hsize
    split
    · rename_i hcrc
      simp [Core.setPendingStateChange, hsize', hcrc]
    · rename_i hcrc
      simp [transitionToError, Core.setPendingStateChange, hcrc]

end Run

end Client

/-! ### Over a run -/

section Writes

variable {R E : Type} [Roles R] [Effects E] [HasClient R]

/-- The client writes to the flash in `ClientReceiving` only. -/
theorem writes_runState (d : Dfu R (Traced E)) {state : State} (h : state ≠ .clientReceiving) :
    (runState state d).fx.writes = d.fx.writes := by
  obtain ⟨acts, hrun, hacts, -⟩ := runState_dfuActs state d
  rw [hrun.fx]
  rcases hacts with hacts | ⟨_, _, rfl⟩
  · exact Traced.writes_foldl _ (hacts.unwritten h)
  · rfl

theorem writes_leave (d : Dfu R (Traced E)) (next : State) :
    (leave d next).fx.writes = (runState d.core.state d).fx.writes := by
  rw [leave]
  obtain ⟨acts, hexit, hshape⟩ := exitState_dfuActs d.core.state
    { runState d.core.state d with core := { (runState d.core.state d).core with pending := none } }
  rw [hexit.fx]
  rcases hshape with rfl | rfl <;> rfl

theorem writes_enterState (state : State) (d : Dfu R (Traced E)) : (enterState state d).fx.writes = d.fx.writes := by
  obtain ⟨acts, henter, hacts, -⟩ := enterState_dfuActs state d
  rw [henter.fx]
  exact Traced.writes_foldl _ hacts.unwritten

theorem pageBuf_runState (d : Dfu R E) {state : State} (h : state ≠ .clientReceiving) :
    (HasClient.client (runState state d).roles).pageBuf = (HasClient.client d.roles).pageBuf := by
  cases hclient : state.isClient with
  | true => exact (congrArg (fun v : Dfu Client E => v.roles.pageBuf) (view_runState hclient)).trans (Client.run_pageBuf _ h)
  | false =>
    rcases client_runState (d := d) hclient with hsame | ⟨_, _, hprocess⟩
    · rw [hsame]
    · exact (congrArg (fun v : Dfu Client E => v.roles.pageBuf) hprocess).trans (Client.processUpdateRequest_pageBuf _)

theorem pageBuf_enterState (d : Dfu R E) (state : State) :
    (HasClient.client (enterState state d).roles).pageBuf = (HasClient.client d.roles).pageBuf := by
  cases hclient : state.isClient with
  | true => exact (congrArg (fun v : Dfu Client E => v.roles.pageBuf) (view_enterState hclient)).trans (Client.entry_pageBuf _ _)
  | false => rw [client_enterState hclient]

/-- Whatever state is entered, the writes and the page buffer are those the run left. -/
theorem libSmRun_writes {d : Dfu R (Traced E)} (hs : d.core.Settling) :
    (libSmRun d).fx.writes = (runState d.core.state d).fx.writes ∧
      (HasClient.client (libSmRun d).roles).pageBuf = (HasClient.client (runState d.core.state d).roles).pageBuf := by
  cases ran hs with
  | stays acts _ hstands => rw [hstands]; exact ⟨rfl, rfl⟩
  | moves next acts _ _ _ _ henters =>
    rw [henters, writes_enterState, writes_leave, pageBuf_enterState, client_leave]
    exact ⟨rfl, rfl⟩

/-- Only an offer takes `Idle` to `ClientReceiving`. -/
theorem offered_runState {d : Dfu R E} (hnone : d.core.pending = none)
    (h : (runState .idle d).core.pending = some .clientReceiving) :
    view (runState .idle d) = Client.processUpdateRequest (view d) := by
  rw [runState] at h ⊢
  split
  · exact HasClient.process d
  · rename_i hkind
    simp only [hkind] at h
    split at h
    · cases h
    · rw [hnone] at h
      cases h
  · rename_i hoffer hbegin
    split at h
    · exact absurd ‹_› hoffer
    · exact absurd ‹_› hbegin
    · rw [hnone] at h
      cases h

end Writes

/-! ### The transfer of a run -/

namespace Observed

section Following

variable {R E : Type} [Roles R] [Effects E] [HasClient R]

/-- The most bytes that the transfer of the accepted offer takes. -/
def most (o : Observed R E) : Nat := (o.offer.map Client.mostBytes).getD 0

/-- What holds of the transfer between any two calls. -/
structure Following (o : Observed R E) : Prop where
  settling : o.machine.core.Settling
  page : (HasClient.client o.machine.roles).pageBuf.length = imgPageLen
  mark : o.mark ≤ o.machine.fx.writes.length
  bounded : Client.Bounded o.writes o.received.length
  most : o.received.length ≤ o.most
  receiving : o.machine.core.state = .clientReceiving →
    ∃ info, o.offer = some info ∧ (HasClient.client o.machine.roles).Receiving info o.writes o.received

/-- A wholly and correctly written image of the offer. -/
def Intact (o : Observed R E) : Prop :=
  ∃ info, o.offer = some info ∧ (∀ w ∈ o.writes, w.ok = true) ∧ Contiguous 0 o.writes ∧
    (image o.writes).length = info.imageSize.toNat ∧ crc16Ccitt 0 (image o.writes) = info.crc16

omit [HasClient R] in
/-- Only steps write. -/
theorem apply_still_fx (d : Dfu R (Traced E)) {i : Input} (h : i.isStep = false) :
    (d.apply i).roles = d.roles ∧ (d.apply i).fx.writes = d.fx.writes := by
  have hstood := stood d h
  generalize d.apply i = d' at hstood ⊢
  cases hstood <;> exact ⟨rfl, rfl⟩

theorem Following.still {o : Observed R E} (h : Following o) {i : Input} (hi : i.isStep = false) :
    Following ({ o with machine := o.machine.apply i } : Observed R E) := by
  obtain ⟨hroles, hwrites⟩ := apply_still_fx o.machine hi
  obtain ⟨hstate, _, _⟩ := apply_unchanged o.machine hi
  have hsame : ({ o with machine := o.machine.apply i } : Observed R E).writes = o.writes :=
    congrArg (List.drop o.mark) hwrites
  refine ⟨still_settling h.settling hi, ?_, ?_, ?_, h.most, ?_⟩
  · rw [hroles]
    exact h.page
  · rw [hwrites]
    exact h.mark
  · rw [hsame]
    exact h.bounded
  · intro hreceiving
    rw [hstate] at hreceiving
    rw [hroles, hsame]
    exact h.receiving hreceiving

/-! What a step leaves of the history. -/

variable {o : Observed R E} {event : Event} {d₀ : Dfu R (Traced E)}

omit [Roles R] [Effects E] [HasClient R] in
theorem after_of_restarts (o : Observed R E) (event : Event) (machine : Dfu R (Traced E))
    (h : restarts o.machine.core.state machine.core.state event = true)
    (hwrites : machine.fx.writes = o.machine.fx.writes) :
    (o.after event machine).mark = machine.fx.writes.length ∧ (o.after event machine).writes = [] ∧
      (o.after event machine).received = [] := by
  simp [after, writes, h, hwrites]

omit [Roles R] [Effects E] [HasClient R] in
theorem after_of_goes_on (o : Observed R E) (event : Event) (machine : Dfu R (Traced E))
    (h : restarts o.machine.core.state machine.core.state event = false) :
    (o.after event machine).mark = o.mark ∧
      (o.after event machine).received = o.received ++ gathered o.machine.core.state event := by
  simp [after, h]

/-- The transfer that a step runs on from. -/
theorem Following.begun (h : Following o) (hb : Begun o.machine event d₀)
    (hstate : o.machine.core.state = .clientReceiving) :
    ∃ info, o.offer = some info ∧ (view d₀).roles.Receiving info o.writes o.received ∧
      (view d₀).fx.writes = o.machine.fx.writes.take o.mark ++ o.writes ∧ (view d₀).core.pending = none ∧
      (view d₀).core.current = event ∧ view (runState d₀.core.state d₀) = Client.receivingRun (view d₀) := by
  obtain ⟨info, hoffer, hreceiving⟩ := h.receiving hstate
  refine ⟨info, hoffer, ?_, ?_, ?_, hb.current, ?_⟩
  · rw [view, hb.roles]
    exact hreceiving
  · rw [view, hb.fx]
    exact (List.take_append_drop o.mark _).symm
  · rw [view, hb.pending]
    cases hpending : o.machine.core.pending with
    | none => rfl
    | some next =>
      rcases h.settling next hpending with ⟨hvalidating, _⟩ | ⟨herror, _⟩
      · rw [hstate] at hvalidating
        cases hvalidating
      · rw [hstate] at herror
        cases herror
  · rw [hb.state, hstate]
    exact view_runState rfl

/-- To be still in the state is to have run it only. -/
theorem libSmRun_of_same_state {d : Dfu R E} (hs : d.core.Settling) (h : (libSmRun d).core.state = d.core.state) :
    libSmRun d = runState d.core.state d ∧ (runState d.core.state d).core.pending = none := by
  cases ran hs with
  | stays acts hrun hstands _ hasks hnone =>
    refine ⟨hstands, ?_⟩
    rw [hrun.pending_eq, lastRequest, hasks, hnone]
    rfl
  | moves next acts hrun _ hlast hne =>
    rw [libSmRun_state, hrun.pending_eq, hlast, Option.getD_some] at h
    exact absurd h hne

/-- A step of the transfer, other than one that restarts it. -/
theorem Following.runs_on (h : Following o) (hb : Begun o.machine event d₀)
    (hstate : o.machine.core.state = .clientReceiving) (hkind : event.kind ≠ .receivedUpdateRequest) :
    ∃ info pre, o.offer = some info ∧ (view d₀).roles.Holds info ∧ (o.after event (libSmRun d₀)).mark = pre.length ∧
      Client.RunEnds (view d₀) info pre (o.after event (libSmRun d₀)).writes (o.after event (libSmRun d₀)).received
        (view (runState d₀.core.state d₀)) := by
  obtain ⟨info, hoffer, hreceiving, hpre, hnone, hcurrent, hview⟩ := h.begun hb hstate
  obtain ⟨ws, hends⟩ := Client.receivingRun_runEnds hreceiving hpre hnone (by rw [hcurrent]; exact hkind)
  rw [← hview, hcurrent] at hends
  obtain ⟨hmark, hreceived⟩ := after_of_goes_on o event (libSmRun d₀)
    (by simp [restarts, hstate, hkind])
  have hlength : (o.machine.fx.writes.take o.mark).length = o.mark := List.length_take_of_le h.mark
  have hlog : (libSmRun d₀).fx.writes = o.machine.fx.writes.take o.mark ++ ws :=
    (libSmRun_writes (hb.settling h.settling)).1.trans hends.writes
  have hws : (o.after event (libSmRun d₀)).writes = ws := by
    rw [writes, hmark, show (o.after event (libSmRun d₀)).machine = libSmRun d₀ from rfl, hlog]
    exact List.drop_left' hlength
  refine ⟨info, o.machine.fx.writes.take o.mark, hoffer, hreceiving.holds, hmark.trans hlength.symm, ?_⟩
  rw [hws, hreceived, hstate, gathered, if_pos rfl]
  exact hends

theorem Following.after_receiving (h : Following o) (hb : Begun o.machine event d₀)
    (hstate : o.machine.core.state = .clientReceiving) : Following (o.after event (libSmRun d₀)) := by
  have hs₀ := hb.settling h.settling
  obtain ⟨hwrites, hbuf⟩ := libSmRun_writes hs₀
  have hoffer : (o.after event (libSmRun d₀)).offer = o.offer := by simp [after, accepted, hstate]
  have hstays : (libSmRun d₀).core.state = .clientReceiving →
      libSmRun d₀ = runState d₀.core.state d₀ ∧ (runState d₀.core.state d₀).core.pending = none := by
    intro hafter
    exact libSmRun_of_same_state hs₀ (by rw [hafter, hb.state, hstate])
  by_cases hkind : event.kind = .receivedUpdateRequest
  · obtain ⟨info, hinfo, hreceiving, _, _, hcurrent, hview⟩ := h.begun hb hstate
    have hrestart := Client.receivingRun_restarts hreceiving (by rw [hcurrent]; exact hkind)
    rw [← hview] at hrestart
    obtain ⟨hrec, hwrote, _⟩ := hrestart
    have hlog : (libSmRun d₀).fx.writes = o.machine.fx.writes := by
      rw [hwrites, ← hb.fx]
      exact hwrote
    obtain ⟨hmark, hempty, hreceived⟩ := after_of_restarts o event (libSmRun d₀)
      (by simp [restarts, hstate, hkind]) hlog
    refine ⟨libSmRun_settling d₀, (congrArg List.length hbuf).trans hrec.paging.page, hmark.le, ?_, ?_, ?_⟩
    · simp [hempty, Client.Bounded]
    · simp [hreceived]
    · intro hafter
      refine ⟨info, hoffer.trans hinfo, ?_⟩
      rw [hempty, hreceived, show (o.after event (libSmRun d₀)).machine = libSmRun d₀ from rfl, (hstays hafter).1]
      exact hrec
  · obtain ⟨info, pre, hinfo, _, hmark, hends⟩ := h.runs_on hb hstate hkind
    refine ⟨libSmRun_settling d₀, (congrArg List.length hbuf).trans hends.page, ?_, hends.bounded, ?_, ?_⟩
    · rw [hmark, show (o.after event (libSmRun d₀)).machine = libSmRun d₀ from rfl, hwrites,
        show (runState d₀.core.state d₀).fx.writes = pre ++ _ from hends.writes, List.length_append]
      omega
    · rw [Observed.most, hoffer, hinfo]
      exact hends.most
    · intro hafter
      refine ⟨info, hoffer.trans hinfo, ?_⟩
      have hwaits := hends.waits (hstays hafter).2
      rw [← (hstays hafter).1] at hwaits
      exact hwaits

/-- `Idle` goes on to `ClientReceiving` with the offer it was given. -/
theorem libSmRun_offered {d : Dfu R E} (hs : d.core.Settling) (hne : d.core.state ≠ .clientReceiving)
    (h : (libSmRun d).core.state = .clientReceiving) :
    d.core.state = .idle ∧ ∃ addresses info, d.core.current.body.bind Client.offerOf = some (addresses, info) ∧
      (HasClient.client (libSmRun d).roles) =
        (HasClient.client (runState d.core.state d).roles).restartTransfer ∧
      (HasClient.client (runState d.core.state d).roles).Holds info ∧
      info.imageSize < (Effects.flashSize (Effects.flashOpen d.fx).2).1 := by
  cases ran hs with
  | stays acts hrun hstands =>
    rw [hstands, hrun.state_eq] at h
    exact absurd h hne
  | moves next acts hrun _ hlast _ henters _ hfollows =>
    rw [libSmRun_state, hrun.pending_eq, hlast, Option.getD_some] at h
    subst h
    have hidle := (hfollows (by decide)).offered rfl
    refine ⟨hidle, ?_⟩
    have hnone : d.core.pending = none := by
      cases hpending : d.core.pending with
      | none => rfl
      | some next =>
        rcases hs next hpending with ⟨hstate, _⟩ | ⟨hstate, _⟩ <;> rw [hidle] at hstate <;> cases hstate
    have hpending : (runState .idle d).core.pending = some .clientReceiving := by
      rw [← hidle, hrun.pending_eq, hlast]
    have hview := offered_runState hnone hpending
    obtain ⟨addresses, info, hoffer, hholds, hfits⟩ :=
      Client.processUpdateRequest_holds (view d) hnone (hview ▸ hpending)
    refine ⟨addresses, info, hoffer, ?_, ?_, hfits⟩
    · rw [henters, ← client_leave d .clientReceiving]
      exact congrArg (fun v : Dfu Client E => v.roles) (view_enterState (d := leave d .clientReceiving) rfl)
    · rw [hidle]
      rw [← hview] at hholds
      exact hholds

/-- A step in any other state writes nothing, but may start a transfer. -/
theorem Following.after_elsewhere (h : Following o) (hb : Begun o.machine event d₀)
    (hstate : o.machine.core.state ≠ .clientReceiving) : Following (o.after event (libSmRun d₀)) := by
  have hs₀ := hb.settling h.settling
  obtain ⟨hwrites, hbuf⟩ := libSmRun_writes hs₀
  have hstate₀ : d₀.core.state ≠ .clientReceiving := by rwa [hb.state]
  have hlog : (libSmRun d₀).fx.writes = o.machine.fx.writes := by rw [hwrites, writes_runState d₀ hstate₀, hb.fx]
  have hpage : (HasClient.client (libSmRun d₀).roles).pageBuf.length = imgPageLen := by
    rw [hbuf, pageBuf_runState d₀ hstate₀, hb.roles]
    exact h.page
  by_cases hafter : (libSmRun d₀).core.state = .clientReceiving
  · obtain ⟨hmark, hempty, hreceived⟩ := after_of_restarts o event (libSmRun d₀)
      (by simp [restarts, hstate, hafter]) hlog
    refine ⟨libSmRun_settling d₀, hpage, hmark.le, ?_, ?_, fun _ => ?_⟩
    · simp [hempty, Client.Bounded]
    · simp [hreceived]
    · obtain ⟨hidle, addresses, info, hoffer, hroles, hholds, _⟩ := libSmRun_offered hs₀ hstate₀ hafter
      rw [hb.current] at hoffer
      rw [hb.state] at hidle
      refine ⟨info, by simp [after, accepted, hidle, hafter, hoffer], ?_⟩
      rw [hempty, hreceived, show (o.after event (libSmRun d₀)).machine = libSmRun d₀ from rfl, hroles]
      refine .restart hholds ?_
      rw [← hbuf]
      exact hpage
  · obtain ⟨hmark, hreceived⟩ := after_of_goes_on o event (libSmRun d₀)
      (by simp [restarts, hstate, hafter])
    have hws : (o.after event (libSmRun d₀)).writes = o.writes := by
      rw [writes, hmark, show (o.after event (libSmRun d₀)).machine = libSmRun d₀ from rfl, hlog, writes]
    have hoffer : (o.after event (libSmRun d₀)).offer = o.offer := by simp [after, accepted, hafter]
    rw [gathered, if_neg hstate, List.append_nil] at hreceived
    refine ⟨libSmRun_settling d₀, hpage, ?_, ?_, ?_, fun hreceiving => absurd hreceiving hafter⟩
    · rw [hmark, show (o.after event (libSmRun d₀)).machine = libSmRun d₀ from rfl, hlog]
      exact h.mark
    · rw [hws, hreceived]
      exact h.bounded
    · rw [hreceived, Observed.most, hoffer]
      exact h.most

theorem Following.apply (h : Following o) (i : Input) : Following (o.apply i) := by
  rcases o.apply_cases i with ⟨_, j, hj, happly⟩ | ⟨nowMs, event, d₀, rfl, hbegin, happly⟩
  · rw [happly]
    exact h.still hj
  · have hb := Dfu.begun hbegin
    have hafter : Following (o.after event (libSmRun d₀)) := by
      by_cases hstate : o.machine.core.state = .clientReceiving
      · exact h.after_receiving hb hstate
      · exact h.after_elsewhere hb hstate
    rw [happly]
    exact ⟨hafter.settling, hafter.page, hafter.mark, hafter.bounded, hafter.most, hafter.receiving⟩

theorem Following.runs (h : Following o) (inputs : List Input) : Following (o.runs inputs) := by
  induction inputs generalizing o with
  | nil => exact h
  | cons i inputs ih => exact ih (h.apply i)

/-! ### What is offered for reboot -/

/-- An image offered for reboot is intact. -/
def OffersIntact (o : Observed R E) : Prop := o.machine.core.pending = some .clientRebootReq → o.Intact

/-- The run that finishes a transfer takes it to be validated. -/
theorem libSmRun_validates {d : Dfu R E} (hne : d.core.state ≠ .clientValidating)
    (h : (runState d.core.state d).core.pending = some .clientValidating) :
    (libSmRun d).core.pending = some .clientRebootReq ↔
      (view (runState d.core.state d)).roles.imageSize = (view (runState d.core.state d)).roles.flashOffset ∧
        (view (runState d.core.state d)).roles.crc16 = (view (runState d.core.state d)).roles.runningCrc16 := by
  have hvalidating := Client.validatingEntry_pending (view (leave d .clientValidating))
  rw [show (view (leave d .clientValidating)).roles = (view (runState d.core.state d)).roles from client_leave d _]
    at hvalidating
  rw [libSmRun_of_some h hne.symm, ← hvalidating]
  exact iff_of_eq (congrArg (fun v : Dfu Client E => v.core.pending = some .clientRebootReq)
    (view_enterState (d := leave d .clientValidating) rfl))

/-- The event is a chunk whose page failed without being seen to. -/
def overlooked (d₀ : Dfu R (Traced E)) : Bool :=
  decide (d₀.core.state = .clientReceiving) &&
    (Client.chunkIn d₀.core.current).any fun chunk => decide (Client.Overlooks (view d₀) chunk)

theorem Following.after_offersIntact (h : Following o) (hb : Begun o.machine event d₀) (hseen : overlooked d₀ = false) :
    OffersIntact (o.after event (libSmRun d₀)) := by
  intro hoffered
  have hs₀ := hb.settling h.settling
  have hvalidating : (libSmRun d₀).core.state = .clientValidating := by
    rcases libSmRun_settling d₀ _ hoffered with ⟨hstate, _⟩ | ⟨_, hidle⟩
    · exact hstate
    · cases hidle
  cases ran hs₀ with
  | stays acts hrun hstands _ hasks hnone =>
    rw [show (o.after event (libSmRun d₀)).machine = libSmRun d₀ from rfl, hstands, hrun.pending_eq, lastRequest, hasks,
      hnone] at hoffered
    cases hoffered
  | moves next acts hrun _ hlast hne _ _ hfollows =>
    rw [libSmRun_state, hrun.pending_eq, hlast, Option.getD_some] at hvalidating
    subst hvalidating
    have hbefore := (hfollows (by decide)).received rfl
    have hstate : o.machine.core.state = .clientReceiving := hb.state.symm.trans hbefore
    have hpending : (runState d₀.core.state d₀).core.pending = some .clientValidating := hrun.pending_eq.trans hlast
    obtain ⟨info, _, hreceiving, _, hnone, hcurrent, hview⟩ := h.begun hb hstate
    have hkind : event.kind ≠ .receivedUpdateRequest := by
      intro hkind
      obtain ⟨_, _, hsame⟩ := Client.receivingRun_restarts hreceiving (by rw [hcurrent]; exact hkind)
      rw [← hview, hnone] at hsame
      rw [view, hpending] at hsame
      cases hsame
    obtain ⟨info', pre, hinfo, hheld, _, hends⟩ := h.runs_on hb hstate hkind
    obtain ⟨hsize, hcrc⟩ := (libSmRun_validates hne.symm hpending).mp hoffered
    rcases hends.ends hpending with hflushed | ⟨chunk, hin, hfails⟩
    · refine ⟨info', ?_, hflushed.ok, hflushed.contiguous, ?_, ?_⟩
      · simp [after, accepted, hstate, hinfo]
      · rw [hflushed.written, ← hflushed.offset, ← hsize, hends.holds.imageSize]
      · rw [hflushed.written, ← hflushed.crc, ← hcrc, hends.holds.crc16]
    · -- The last page failed, and neither the length nor the CRC shows it.
      obtain ⟨_, _, hoffset, hrunning⟩ := hends.overlooked chunk hin hfails
      have hoverlooks : Client.Overlooks (view d₀) chunk := by
        refine ⟨hfails, ?_, ?_⟩
        · rw [← hoffset, ← hsize, hends.holds.imageSize, hheld.imageSize]
        · rw [← hrunning, ← hcrc, hends.holds.crc16, hheld.crc16]
      rw [overlooked, Bool.and_eq_false_iff, decide_eq_false_iff_not] at hseen
      rcases hseen with hseen | hseen
      · exact absurd hbefore hseen
      · rw [show d₀.core.current = (view d₀).core.current from rfl, hin, Option.any_some, decide_eq_false_iff_not] at hseen
        exact absurd hoverlooks hseen

/-- An overlooked page is offered for reboot all the same. -/
theorem Following.after_not_offersIntact (h : Following o) (hb : Begun o.machine event d₀) (hseen : overlooked d₀ = true) :
    ¬ OffersIntact (o.after event (libSmRun d₀)) := by
  rw [overlooked, Bool.and_eq_true, decide_eq_true_eq, Option.any_eq_true] at hseen
  obtain ⟨hbefore, chunk, hin, hoverlooks⟩ := hseen
  obtain ⟨hfails, hsize, hcrc⟩ := of_decide_eq_true hoverlooks
  have hstate : o.machine.core.state = .clientReceiving := hb.state.symm.trans hbefore
  have hkind : event.kind ≠ .receivedUpdateRequest := by
    intro hkind
    rw [hb.current, Client.chunkIn, hkind, if_neg (by decide)] at hin
    cases hin
  obtain ⟨info, pre, _, hheld, _, hends⟩ := h.runs_on hb hstate hkind
  obtain ⟨hpending, ⟨w, hw, hunwritten⟩, hoffset, hrunning⟩ := hends.overlooked chunk hin hfails
  have hoffered := (libSmRun_validates (by rw [hbefore]; decide) hpending).mpr
    ⟨by rw [hoffset, hsize, hends.holds.imageSize, hheld.imageSize],
      by rw [hrunning, hcrc, hends.holds.crc16, hheld.crc16]⟩
  intro hintact
  obtain ⟨_, _, hok, _⟩ := hintact hoffered
  rw [hok w hw] at hunwritten
  cases hunwritten

/-- The step that an input makes overlooks a failed page. -/
def overlooks (d : Dfu R (Traced E)) : Input → Bool
  | .step nowMs => (d.begin nowMs).any fun begun => overlooked begun.2
  | _ => false

def noneOverlooked (d : Dfu R (Traced E)) : List Input → Bool
  | [] => true
  | i :: inputs => !overlooks d i && noneOverlooked (d.apply i) inputs

theorem Following.apply_offersIntact (h : Following o) (hintact : OffersIntact o) (i : Input) :
    OffersIntact (o.apply i) ↔ overlooks o.machine i = false := by
  rcases o.apply_cases i with ⟨hnone, j, hj, happly⟩ | ⟨nowMs, event, d₀, rfl, hbegin, happly⟩
  · have hseen : overlooks o.machine i = false := by
      cases i with
      | step nowMs => rw [overlooks, Option.map_eq_none_iff.mp hnone, Option.any_none]
      | _ => rfl
    rw [happly]
    refine iff_of_true (fun hoffered => ?_) hseen
    obtain ⟨_, hwrites⟩ := apply_still_fx o.machine hj
    obtain ⟨_, hpending, _⟩ := apply_unchanged o.machine hj
    obtain ⟨info, hinfo, hrest⟩ := hintact (hpending.symm.trans hoffered)
    refine ⟨info, hinfo, ?_⟩
    rwa [show ({ o with machine := o.machine.apply j } : Observed R E).writes = o.writes from
      congrArg (List.drop o.mark) hwrites]
  · have hb := Dfu.begun hbegin
    rw [happly, overlooks, hbegin, Option.any_some]
    constructor
    · intro hoffers
      by_contra hseen
      exact h.after_not_offersIntact hb (Bool.not_eq_false _ ▸ hseen) hoffers
    · exact h.after_offersIntact hb

theorem Following.runs_offersIntact_iff (h : Following o) (hintact : OffersIntact o) (inputs : List Input) :
    (∀ ran, ran <+: inputs → OffersIntact (o.runs ran)) ↔ noneOverlooked o.machine inputs = true := by
  induction inputs generalizing o with
  | nil =>
    refine iff_of_true (fun ran hran => ?_) rfl
    rw [List.prefix_nil.mp hran]
    exact hintact
  | cons i inputs ih =>
    have hstep := h.apply_offersIntact hintact i
    rw [noneOverlooked, Bool.and_eq_true, Bool.not_eq_true', ← hstep]
    constructor
    · intro hall
      have hnext : OffersIntact (o.apply i) := hall [i] (by simp)
      refine ⟨hnext, ?_⟩
      rw [← machine_apply, ← ih (h.apply i) hnext]
      exact fun ran hran => hall (i :: ran) (by simpa using hran)
    · rintro ⟨hnext, hrest⟩ ran hran
      rw [← machine_apply, ← ih (h.apply i) hnext] at hrest
      rcases List.prefix_cons_iff.mp hran with rfl | ⟨ran', rfl, hran'⟩
      · exact hintact
      · exact hrest ran' hran'

end Following

/-! ### The client alone, and with the host -/

section New

variable {R E : Type} [Roles R] [Effects E] [HasClient R]

omit [Effects E] in
theorem new_following (selfNodeId : UInt64) (rebootInfo : RebootInfo) {roles : R} (fx : E)
    (hpage : (HasClient.client roles).pageBuf.length = imgPageLen) :
    Following (Observed.new selfNodeId rebootInfo roles fx) where
  settling := new_settling selfNodeId rebootInfo roles _
  page := hpage
  mark := Nat.le_refl _
  bounded := by simp [Observed.new, writes, Client.Bounded, Dfu.new]
  most := Nat.le_refl _
  receiving h := by cases h

omit [Roles R] [Effects E] [HasClient R] in
theorem new_offersIntact (selfNodeId : UInt64) (rebootInfo : RebootInfo) (roles : R) (fx : E) :
    OffersIntact (Observed.new selfNodeId rebootInfo roles fx) := by
  intro h
  cases h

end New

end Observed

section Integrity

variable {E : Type} [Effects E] (selfNodeId : UInt64) (rebootInfo : RebootInfo) (fx : E)

/-- Every image offered for reboot is intact, in the runs that overlook no failed page and in no others. -/
theorem offersIntact_iff_noneOverlooked (inputs : List Input) :
    ((∀ ran, ran <+: inputs → ((Observed.new selfNodeId rebootInfo Client.new fx).runs ran).OffersIntact) ↔
        Observed.noneOverlooked (new selfNodeId rebootInfo Client.new (⟨fx, []⟩ : Traced E)) inputs = true) ∧
      ((∀ ran, ran <+: inputs → ((Observed.new selfNodeId rebootInfo ClientHost.new fx).runs ran).OffersIntact) ↔
        Observed.noneOverlooked (new selfNodeId rebootInfo ClientHost.new (⟨fx, []⟩ : Traced E)) inputs = true) :=
  ⟨(Observed.new_following selfNodeId rebootInfo fx List.length_replicate).runs_offersIntact_iff
      (Observed.new_offersIntact selfNodeId rebootInfo Client.new fx) inputs,
    (Observed.new_following selfNodeId rebootInfo fx List.length_replicate).runs_offersIntact_iff
      (Observed.new_offersIntact selfNodeId rebootInfo ClientHost.new fx) inputs⟩

end Integrity

/-- Two pages of zeros for an image of one, in chunks longer than what was offered. -/
def overlongImage : List Input :=
  let chunk := DfuMessage.payload ⟨⟨2, 1⟩, List.replicate 1024 0⟩
  [.step 0, .step 0, .onMessage (DfuMessage.start ⟨⟨2, 1⟩, ⟨2048, 512, 0, 0, 0, 0, 1⟩⟩).toBytes, .step 0, .step 0] ++
    (List.replicate 4 [Input.onMessage chunk.toBytes, .step 0]).flatten

/-- The second page is lost, and the image is offered for reboot. -/
theorem overlongImage_not_offersIntact :
    ¬ ∀ inputs : List Input, ((Observed.new 1 {} Client.new (⟨fun offset => offset = 0, 0⟩ : Answers 4096)).runs
      inputs).OffersIntact := by
  intro h
  have hrun : ((fun o : Observed Client (Answers 4096) =>
      (o.machine.core.pending, o.writes.map FlashWrite.ok))
      ((Observed.new 1 {} Client.new (⟨fun offset => offset = 0, 0⟩ : Answers 4096)).runs overlongImage)) =
      (some .clientRebootReq, [true, false]) := by decide +kernel
  obtain ⟨hoffered, hwrites⟩ := Prod.mk.injEq .. ▸ hrun
  obtain ⟨_, _, hok, _⟩ := h overlongImage hoffered
  have hall : ∀ ok ∈ [true, false], ok = true := by
    rw [← hwrites]
    simpa using hok
  exact absurd (hall false (by simp)) (by decide)

end Bristlemouth.Dfu
