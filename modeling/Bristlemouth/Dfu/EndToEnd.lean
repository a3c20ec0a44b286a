import Bristlemouth.Dfu.Transfer

/-!
# A transfer from end to end

A host and a client that exchange their messages while no timer fires and the
flash works. At any time the exchange is at one of a few stages; each move stays
at it or goes on to the next, and only so many moves can be made before the client
has validated the image.
-/

set_option autoImplicit false

namespace Bristlemouth.Dfu

open Core EventQueue FlashWrite

/-! ### What is on its way -/

/-- A queue and what will still arrive in it, less the events that have nothing to say, of which there are
at most so many. -/
structure Line (queue : List Event) (sent : List DfuMessage) (events : List Event) (junk : Nat) : Prop where
  eq : queue.filter (· ≠ Event.none) ++ sent.map arrival = events
  room : queue.length + sent.length ≤ events.length + junk

namespace Line

variable {queue : List Event} {sent : List DfuMessage} {events : List Event} {junk : Nat}

theorem send (h : Line queue sent events junk) (more : List DfuMessage) :
    Line queue (sent ++ more) (events ++ more.map arrival) junk where
  eq := by rw [List.map_append, ← List.append_assoc, h.eq]
  room := by
    have hroom := h.room
    rw [List.length_append, List.length_append, List.length_map]
    omega

theorem posts (h : Line queue sent events junk) (n : Nat) :
    Line (queue ++ List.replicate n Event.none) sent events (junk + n) where
  eq := by
    have hnone : (List.replicate n Event.none).filter (· ≠ Event.none) = [] :=
      List.filter_eq_nil_iff.mpr fun e he => by simp [List.eq_of_mem_replicate he]
    rw [List.filter_append, hnone, List.append_nil, h.eq]
  room := by
    have hroom := h.room
    rw [List.length_append, List.length_replicate]
    omega

theorem deliver {message : DfuMessage} (h : Line queue (message :: sent) events junk) :
    Line (queue ++ [arrival message]) sent events junk where
  eq := by
    have hreal : [arrival message].filter (· ≠ Event.none) = [arrival message] :=
      List.filter_eq_self.mpr fun e he => by
        rw [List.mem_singleton.mp he]
        exact decide_eq_true (arrival_ne_none message)
    rw [List.filter_append, hreal, List.append_assoc]
    exact h.eq
  room := by
    have hroom := h.room
    rw [List.length_cons] at hroom
    rw [List.length_append, List.length_singleton]
    omega

theorem pop_none (h : Line (Event.none :: queue) sent events junk) : Line queue sent events junk where
  eq := by
    have heq := h.eq
    rwa [List.filter_cons_of_neg (by decide)] at heq
  room := by
    have hroom := h.room
    rw [List.length_cons] at hroom
    omega

theorem pop {event : Event} (h : Line (event :: queue) sent events junk) (hevent : event ≠ Event.none) :
    ∃ rest, events = event :: rest ∧ Line queue sent rest junk := by
  have heq := h.eq
  have hroom := h.room
  rw [List.filter_cons_of_pos (by exact decide_eq_true hevent), List.cons_append] at heq
  refine ⟨_, heq.symm, rfl, ?_⟩
  rw [← heq, List.length_cons, List.length_cons] at hroom
  omega

theorem mem {message : DfuMessage} (h : Line queue (message :: sent) events junk) : arrival message ∈ events := by
  rw [← h.eq]
  exact List.mem_append_right _ (List.mem_cons_self ..)

end Line

/-! ### A step, as the exchange sees it -/

/-- Nothing has changed but the queue, the clock and the current event. -/
structure SameParty {R E : Type} (d d' : Dfu R E) : Prop where
  state : d'.core.state = d.core.state
  pending : d'.core.pending = d.core.pending
  error : d'.core.error = d.core.error
  self : d'.core.selfNodeId = d.core.selfNodeId
  internal : d'.core.internal = d.core.internal
  timers : d'.core.timers = d.core.timers
  roles : d'.roles = d.roles
  fx : d'.fx = d.fx

section Same

variable {o : Offer} {pre : List FlashWrite}

theorem Serves.same {d d' : Dfu ClientHost (Traced Port)} {state : State} {remaining : UInt32}
    (h : Serves o state remaining d) (hs : SameParty d d') : Serves o state remaining d' :=
  ⟨hs.state.trans h.state, hs.pending.trans h.pending, hs.self.trans h.self, hs.internal.trans h.internal,
    by rw [hs.roles, h.client], by rw [hs.roles, h.info], by rw [hs.roles, h.remaining], by rw [hs.fx, h.image]⟩

variable {v v' : Dfu Client (Traced Port)}

theorem Idles.same (h : Idles o pre v) (hs : SameParty v v') : Idles o pre v' :=
  ⟨hs.state.trans h.state, hs.pending.trans h.pending, hs.self.trans h.self, by rw [hs.roles, h.page],
    by rw [hs.fx]; exact h.room, by rw [hs.fx]; exact h.news, by rw [hs.fx, h.writes]⟩

theorem Takes.same {k : Nat} (h : Takes o pre k v) (hs : SameParty v v') : Takes o pre k v' :=
  ⟨hs.state.trans h.state, hs.pending.trans h.pending, hs.self.trans h.self, by rw [hs.roles, h.host],
    by rw [hs.roles]; exact h.holds, by rw [hs.roles, h.current], by rw [hs.roles, hs.fx]; exact h.paging⟩

theorem Validated.same (h : Validated o pre v) (hs : SameParty v v') : Validated o pre v' :=
  ⟨hs.state.trans h.state, by rw [hs.fx]; exact h.written, by rw [hs.roles, h.offset], by rw [hs.roles, h.crc],
    fun hcrc => hs.pending.trans (h.good hcrc), fun hcrc => by rw [hs.error, hs.pending]; exact h.bad hcrc⟩

end Same

theorem SameParty.view {R E : Type} [Roles R] [HasClient R] {d d' : Dfu R E} (h : SameParty d d') :
    SameParty (view d) (view d') :=
  ⟨h.state, h.pending, h.error, h.self, h.internal, h.timers, congrArg HasClient.client h.roles, h.fx⟩

/-- What a step in which no timer fires does: nothing, if nothing is queued, or the oldest event is run by a
machine that is otherwise as it was. -/
inductive Steps {R : Type} [Roles R] (d : Dfu R (Traced Port)) (nowMs : UInt32) : Prop where
  | rests (queue : d.core.queue.toList = []) (result : (d.step nowMs).1 = none)
      (same : SameParty d (d.step nowMs).2) (still : (d.step nowMs).2.core.queue = d.core.queue)
  | ran (event : Event) (events : List Event) (d₀ : Dfu R (Traced Port))
      (queue : d.core.queue.toList = event :: events) (result : (d.step nowMs).1 = some event.kind)
      (same : SameParty d d₀) (current : d₀.core.current = event)
      (begun : d.begin nowMs = some (event, d₀)) (rest : d₀.core.queue.toList = events)
      (after : SameParty (libSmRun d₀) (d.step nowMs).2)
      (left : (d.step nowMs).2.core.queue = (libSmRun d₀).core.queue)

theorem steps {R : Type} [Roles R] {d : Dfu R (Traced Port)} {nowMs : UInt32} (h : Untimed d nowMs) :
    Steps d nowMs := by
  cases hqueue : d.core.queue.toList with
  | nil =>
    obtain ⟨hbegin, clock, hpoll⟩ := begin_untimed_none h hqueue
    have hstep := (step_of_begin_none hbegin).trans (congrArg (Prod.mk none) hpoll)
    refine .rests hqueue (by rw [hstep]) ?_ ?_
    · rw [hstep]
      exact ⟨rfl, rfl, rfl, rfl, rfl, rfl, rfl, rfl⟩
    · rw [hstep]
  | cons event events =>
    obtain ⟨clock, queue, hrest, hbegin⟩ := begin_untimed h hqueue
    have hstep := step_of_begin hbegin
    refine .ran event events ⟨{ d.core with clock, queue, current := event }, d.roles, d.fx⟩ hqueue (by rw [hstep])
      ⟨rfl, rfl, rfl, rfl, rfl, rfl, rfl, rfl⟩ rfl hbegin hrest ?_ ?_
    · rw [hstep]
      exact ⟨rfl, rfl, rfl, rfl, rfl, rfl, rfl, rfl⟩
    · rw [hstep]
      rfl

theorem Steps.result_of_queued {R : Type} [Roles R] {d : Dfu R (Traced Port)} {nowMs : UInt32} (h : Steps d nowMs)
    {event : Event} {events : List Event} (hqueue : d.core.queue.toList = event :: events) :
    (d.step nowMs).1.toList.length = 1 := by
  cases h with
  | rests hempty =>
    rw [hqueue] at hempty
    cases hempty
  | ran _ _ _ _ hresult =>
    rw [hresult]
    rfl

theorem toList_post {queue : EventQueue} {events : List Event} (h : queue.toList = events)
    (hroom : events.length < eventQueueLen) : (queue.push Event.none).1.toList = events ++ [Event.none] := by
  rw [(queue.toList_push Event.none (by rwa [← RingQueue.length_toList, h])).1, h]

section View

variable {R : Type} [Roles R] [HasClient R] {d : Dfu R (Traced Port)}

theorem view_leave (d : Dfu R (Traced Port)) (next : State) :
    view (leave d next) = between (view (runState d.core.state d)) next := by
  obtain ⟨acts, hfx, hshape⟩ := leave_fx d next
  have hsame : acts.foldl Act.onFx (runState d.core.state d).fx = (runState d.core.state d).fx := by
    rcases hshape with rfl | rfl <;> rfl
  rw [view, leave_core, client_leave, hfx, hsame]
  rfl

theorem view_libSmRun {next : State} (hpending : (runState d.core.state d).core.pending = some next)
    (hne : next ≠ d.core.state) (hclient : next.isClient = true) :
    view (libSmRun d) = Client.entry (between (view (runState d.core.state d)) next) next := by
  rw [libSmRun_of_some hpending hne, view_enterState hclient, view_leave]

end View

/-! ### The stages of the exchange -/

/-- Roles whose client knows its host. -/
class Receiver (R : Type) [Roles R] extends HasClient R where
  valid (r : R) (nodeId : UInt64) : Roles.clientHostNodeValid r nodeId = (client r).hostNodeValid nodeId

instance : Receiver Client where
  valid _ _ := rfl

instance : Receiver ClientHost where
  valid _ _ := rfl

inductive Stage where
  /-- The host has been asked to begin. -/
  | asked (notify : Bool) (timeoutMs : UInt32)
  | offered
  | accepted
  /-- The client has asked for the chunk. -/
  | requesting (k : Nat)
  | serving (k : Nat)

namespace Stage

variable (o : Offer) (pre : List FlashWrite)

/-- What is on its way to the host, and how many events with nothing to say at most. -/
def toHost : Stage → List Event × Nat
  | asked notify timeoutMs => ([beginning o notify timeoutMs], 0)
  | offered => ([], 1)
  | accepted => ([arrival o.ackMessage, arrival (o.requestMessage 0)], 1)
  | requesting k => ([arrival (o.requestMessage k)], 2)
  | serving _ => ([], 2)

def toClient : Stage → List Event × Nat
  | asked _ _ => ([], 0)
  | offered => ([arrival o.startMessage], 0)
  | accepted | requesting _ => ([], 1)
  | serving k => ([arrival (o.chunkMessage k)], 1)

/-- Both ways there is less on its way than a queue holds. -/
theorem toHost_le (s : Stage) : (s.toHost o).1.length + (s.toHost o).2 ≤ 3 := by
  cases s <;> simp [toHost]

theorem toClient_le (s : Stage) : (s.toClient o).1.length + (s.toClient o).2 ≤ 3 := by
  cases s <;> simp [toClient]

/-- The host is asked to begin, and still in `Idle`. -/
structure Begins (d : Dfu ClientHost (Traced Port)) : Prop where
  state : d.core.state = .idle
  pending : d.core.pending = none
  self : d.core.selfNodeId = o.hostNodeId
  internal : d.core.internal = true
  image : d.fx.inner.image = o.image

def HostIs (d : Dfu ClientHost (Traced Port)) : Stage → Prop
  | asked _ _ => Begins o d
  | offered | accepted => Serves o .hostReqUpdate o.info.imageSize d
  | requesting k => k < o.count ∧ ∃ remaining : UInt32,
      remaining.toNat = o.image.length - k * o.info.chunkSize.toNat ∧ Serves o .hostUpdate remaining d
  | serving k => k < o.count ∧ ∃ remaining : UInt32,
      remaining.toNat = o.image.length - (k + 1) * o.info.chunkSize.toNat ∧ Serves o .hostUpdate remaining d

def ClientIs (v : Dfu Client (Traced Port)) : Stage → Prop
  | asked _ _ | offered => Idles o pre v
  | accepted => Takes o pre 0 v
  | requesting k | serving k => Takes o pre k v

/-- How much will be run and delivered beyond what is on its way. -/
def left : Stage → Nat
  | asked _ _ => 4 * o.count + 7
  | offered => 4 * o.count + 4
  | accepted => 4 * o.count - 1
  | requesting k => 4 * (o.count - k) - 2
  | serving k => 4 * (o.count - k) - 4

theorem HostIs.same {o : Offer} {d d' : Dfu ClientHost (Traced Port)} {s : Stage} (h : s.HostIs o d)
    (hs : SameParty d d') : s.HostIs o d' := by
  cases s with
  | asked notify timeoutMs =>
    exact ⟨hs.state.trans h.state, hs.pending.trans h.pending, hs.self.trans h.self, hs.internal.trans h.internal,
      by rw [hs.fx, h.image]⟩
  | offered | accepted => exact Serves.same h hs
  | requesting k | serving k =>
    obtain ⟨hk, remaining, hremaining, hserves⟩ := h
    exact ⟨hk, remaining, hremaining, hserves.same hs⟩

theorem ClientIs.same {o : Offer} {pre : List FlashWrite} {v v' : Dfu Client (Traced Port)} {s : Stage}
    (h : s.ClientIs o pre v) (hs : SameParty v v') : s.ClientIs o pre v' := by
  cases s with
  | asked _ _ | offered => exact Idles.same h hs
  | _ => exact Takes.same h hs

theorem HostIs.waits {o : Offer} {d : Dfu ClientHost (Traced Port)} {s : Stage} (h : s.HostIs o d) :
    d.core.pending = none ∧ (d.core.state = .idle ∨ d.core.state = .hostReqUpdate ∨ d.core.state = .hostUpdate) := by
  cases s with
  | asked notify timeoutMs => exact ⟨h.pending, .inl h.state⟩
  | offered | accepted => exact ⟨Serves.pending h, .inr (.inl (Serves.state h))⟩
  | requesting k | serving k =>
    obtain ⟨-, remaining, -, hserves⟩ := h
    exact ⟨hserves.pending, .inr (.inr hserves.state)⟩

theorem ClientIs.waits {o : Offer} {pre : List FlashWrite} {v : Dfu Client (Traced Port)} {s : Stage}
    (h : s.ClientIs o pre v) : v.core.pending = none ∧ (v.core.state = .idle ∨ v.core.state = .clientReceiving) := by
  cases s with
  | asked _ _ | offered => exact ⟨Idles.pending h, .inl (Idles.state h)⟩
  | _ => exact ⟨Takes.pending h, .inr (Takes.state h)⟩

/-- One machine has run the oldest event of `queue`. `junk` events were queued with it, and `sent` was sent. -/
structure Runs {R : Type} (queue : List Event) (d d' : Dfu R (Traced Port)) (junk : Nat) (sent : List DfuMessage) :
    Prop where
  queue : d'.core.queue.toList = queue ++ List.replicate junk Event.none
  out : d'.out = d.out ++ sent

/-- What the host does with what it was waiting for. -/
theorem HostIs.runs {o : Offer} {d : Dfu ClientHost (Traced Port)} {s : Stage} {event : Event}
    {events rest : List Event} (h : s.HostIs o d) (hcurrent : d.core.current = event)
    (hevents : (s.toHost o).1 = event :: rest) (hqueue : d.core.queue.toList = events)
    (hroom : events.length < eventQueueLen) :
    ∃ (s' : Stage) (junk : Nat) (sent : List DfuMessage), s'.HostIs o (libSmRun d) ∧
      Runs events d (libSmRun d) junk sent ∧
      (∀ pre v, s.ClientIs o pre v → s'.ClientIs o pre v) ∧ s'.toHost o = (rest, (s.toHost o).2 + junk) ∧
      s'.toClient o = ((s.toClient o).1 ++ sent.map arrival, (s.toClient o).2) ∧
      junk + 2 * sent.length + s'.left o = s.left o := by
  have hpos := Offer.count_pos (o := o)
  cases s with
  | asked notify timeoutMs =>
    injection hevents with hevent hrest
    obtain ⟨hserves, hpost, hout⟩ :=
      host_begins h.state h.pending h.self h.internal h.image (hcurrent.trans hevent.symm)
    refine ⟨.offered, 1, [o.startMessage], hserves, ⟨?_, hout⟩, fun _ _ hv => hv, by rw [← hrest]; rfl, rfl, ?_⟩
    · rw [hpost, toList_post hqueue hroom]
      rfl
    · rw [left, left, List.length_singleton]
      omega
  | offered => cases hevents
  | accepted =>
    injection hevents with hevent hrest
    obtain ⟨hserves, hpost, hout⟩ := host_hears_ack h (hcurrent.trans hevent.symm)
    refine ⟨.requesting 0, 1, [], ⟨hpos, o.info.imageSize, ?_, hserves⟩, ⟨?_, ?_⟩, fun _ _ hv => hv,
      by rw [← hrest]; rfl, rfl, ?_⟩
    · rw [Nat.zero_mul, Nat.sub_zero, o.size]
    · rw [hpost, toList_post hqueue hroom]
      rfl
    · rw [hout, List.append_nil]
    · rw [left, left, List.length_nil]
      omega
  | requesting k =>
    injection hevents with hevent hrest
    obtain ⟨hk, remaining, hremaining, hserves⟩ := h
    obtain ⟨hserves', hstill, hout⟩ := host_sends_chunk hserves (hcurrent.trans hevent.symm) hk hremaining
    have hin := Offer.lt_count_iff.mp hk
    have hlen := Offer.length_chunk (o := o) k
    refine ⟨.serving k, 0, [o.chunkMessage k], ⟨hk, _, ?_, hserves'⟩, ⟨?_, hout⟩, fun _ _ hv => hv,
      by rw [← hrest]; rfl, rfl, ?_⟩
    · rw [toNat_sub_ofNat (by omega), hremaining, hlen, Nat.add_mul]
      omega
    · rw [hstill, hqueue]
      exact (List.append_nil _).symm
    · rw [left, left, List.length_singleton]
      omega
  | serving k => cases hevents

/-- What the client does with what it was waiting for. -/
theorem ClientIs.runs {R : Type} [Roles R] [HasClient R] {o : Offer} {pre : List FlashWrite} {d : Dfu R (Traced Port)}
    {s : Stage} {event : Event} {events rest : List Event} (h : s.ClientIs o pre (view d))
    (hcurrent : d.core.current = event) (hevents : (s.toClient o).1 = event :: rest)
    (hqueue : d.core.queue.toList = events) (hroom : events.length < eventQueueLen)
    (hlast : ∀ k, s = serving k → k < o.count)
    (hopen : event.kind = .receivedUpdateRequest → (d.core.delay 10).timers = d.core.timers) :
    (∃ (s' : Stage) (junk : Nat) (sent : List DfuMessage), s'.ClientIs o pre (view (libSmRun d)) ∧
      Runs events d (libSmRun d) junk sent ∧ (∀ host, s.HostIs o host → s'.HostIs o host) ∧
      s'.toClient o = (rest, (s.toClient o).2 + junk) ∧
      s'.toHost o = ((s.toHost o).1 ++ sent.map arrival, (s.toHost o).2) ∧
      junk + 2 * sent.length + s'.left o = s.left o) ∨
    ∃ k, s = serving k ∧ k + 1 = o.count ∧ Validated o pre (view (libSmRun d)) := by
  have hpos := Offer.count_pos (o := o)
  cases s with
  | asked _ _ | accepted | requesting _ => cases hevents
  | offered =>
    injection hevents with hevent hrest
    have hstate : d.core.state = .idle := Idles.state h
    have hkind : d.core.current.kind = .receivedUpdateRequest := by rw [hcurrent, ← hevent]; rfl
    have hdelay := hopen (by rw [← hevent]; rfl)
    have hrun : view (runState d.core.state d) = accept o (view d) := by
      rw [hstate]
      simp only [runState, hkind]
      exact (HasClient.process d).trans (processUpdateRequest_accepts h (hcurrent.trans hevent.symm) hdelay)
    have hpending : (runState d.core.state d).core.pending = some .clientReceiving :=
      congrArg (fun v : Dfu Client (Traced Port) => v.core.pending) hrun
    have hview := view_libSmRun hpending (by rw [hstate]; decide) rfl
    rw [hrun] at hview
    obtain ⟨htakes, hpost, hout⟩ := @client_accepts o pre (view d) h
    rw [← hview] at htakes hpost hout
    refine .inl ⟨.accepted, 1, [o.ackMessage, o.requestMessage 0], htakes, ⟨?_, hout⟩, fun _ hhost => hhost,
      by rw [← hrest]; rfl, rfl, ?_⟩
    · exact (congrArg RingQueue.toList hpost).trans (toList_post hqueue hroom)
    · rw [left, left, List.length_cons, List.length_singleton]
      omega
  | serving k =>
    injection hevents with hevent hrest
    have hstate : d.core.state = .clientReceiving := Takes.state h
    have hrun : view (runState d.core.state d) = Client.receiveChunk (view d) (o.chunk k) := by
      rw [hstate, view_runState rfl]
      exact receivingRun_chunk (hcurrent.trans hevent.symm)
    by_cases hmore : k + 1 < o.count
    · obtain ⟨htakes, hstill, hout⟩ := client_takes_chunk h hmore
      rw [← hrun] at htakes hstill hout
      have hnone : (runState d.core.state d).core.pending = none := htakes.pending
      rw [← libSmRun_of_none hnone] at htakes hstill hout
      refine .inl ⟨.requesting (k + 1), 0, [o.requestMessage (k + 1)], htakes, ⟨?_, hout⟩,
        fun _ hhost => ⟨hmore, hhost.2⟩, by rw [← hrest]; rfl, rfl, ?_⟩
      · exact (congrArg RingQueue.toList hstill).trans (hqueue.trans (List.append_nil _).symm)
      · rw [left, left, List.length_singleton]
        omega
    · have hk : k + 1 = o.count := by
        have hin := hlast k rfl
        omega
      obtain ⟨hpending, hvalidated⟩ := client_takes_last h hk
      rw [← hrun] at hpending hvalidated
      have hview := view_libSmRun (d := d) hpending (by rw [hstate]; decide) rfl
      rw [← hview] at hvalidated
      exact .inr ⟨k, rfl, hk, hvalidated⟩

/-- The event that comes with a change of state has nothing to say to the client either. -/
theorem ClientIs.idles {R : Type} [Roles R] [HasClient R] {o : Offer} {pre : List FlashWrite}
    {d : Dfu R (Traced Port)} {s : Stage} (h : s.ClientIs o pre (view d)) (hcurrent : d.core.current = Event.none) :
    view (libSmRun d) = view d := by
  obtain ⟨hpending, hstate⟩ := h.waits
  have hkind : d.core.current.kind = .none := by rw [hcurrent]; rfl
  have hrun : view (runState d.core.state d) = view d := by
    rcases hstate with hstate | hstate
    · rw [show d.core.state = .idle from hstate]
      simp only [runState, hkind]
    · rw [show d.core.state = .clientReceiving from hstate, view_runState rfl]
      change Client.receivingRun (view d) = view d
      have hkind' : (view d).core.current.kind = .none := hkind
      simp only [Client.receivingRun, hkind']
  have hnone : (runState d.core.state d).core.pending = none :=
    (congrArg (fun v : Dfu Client (Traced Port) => v.core.pending) hrun).trans hpending
  rw [libSmRun_of_none hnone, hrun]

theorem HostIs.withOut {o : Offer} {d : Dfu ClientHost (Traced Port)} {s : Stage} (h : s.HostIs o d)
    (out : List DfuMessage) : s.HostIs o (d.withOut out) := by
  have hserves : ∀ {state remaining}, Serves o state remaining d → Serves o state remaining (d.withOut out) :=
    fun h => ⟨h.state, h.pending, h.self, h.internal, h.client, h.info, h.remaining, h.image⟩
  cases s with
  | asked notify timeoutMs => exact ⟨h.state, h.pending, h.self, h.internal, h.image⟩
  | offered | accepted => exact hserves h
  | requesting k | serving k =>
    obtain ⟨hk, remaining, hremaining, hserves'⟩ := h
    exact ⟨hk, remaining, hremaining, hserves hserves'⟩

theorem ClientIs.withOut {R : Type} [Roles R] [HasClient R] {o : Offer} {pre : List FlashWrite}
    {d : Dfu R (Traced Port)} {s : Stage} (h : s.ClientIs o pre (view d)) (out : List DfuMessage) :
    s.ClientIs o pre (view (d.withOut out)) := by
  have htakes : ∀ {k}, Takes o pre k (view d) → Takes o pre k (view (d.withOut out)) :=
    fun h => ⟨h.state, h.pending, h.self, h.host, h.holds, h.current, h.paging⟩
  have hidles : Idles o pre (view d) → Idles o pre (view (d.withOut out)) :=
    fun h => ⟨h.state, h.pending, h.self, h.page, h.room, h.news, h.writes⟩
  cases s with
  | asked _ _ | offered => exact hidles h
  | _ => exact htakes h

end Stage

namespace Exchange

variable {R : Type} [Roles R] [Receiver R]

/-- The exchange at a stage. -/
structure At (o : Offer) (pre : List FlashWrite) (s : Stage) (x : Exchange R) : Prop where
  host : s.HostIs o x.host
  client : s.ClientIs o pre (view x.client)
  toHost : Line x.host.core.queue.toList x.client.out (s.toHost o).1 (s.toHost o).2
  toClient : Line x.client.core.queue.toList x.host.out (s.toClient o).1 (s.toClient o).2
  count : x.done + x.load + s.left o ≤ 4 * o.count + 8

/-- The transfer is over, and the image is where it should be. -/
structure Transferred (o : Offer) (pre : List FlashWrite) (x : Exchange R) : Prop where
  host : x.host.roles.host.bytesRemaining = 0
  client : Validated o pre (view x.client)
  count : x.done ≤ 4 * o.count + 8

variable {o : Offer} {pre : List FlashWrite} {s : Stage} {x : Exchange R}

/-- A queue with something in it has room for what is posted once that is taken. -/
theorem At.toHost_room (h : At o pre s x) {event : Event} {events : List Event}
    (hqueue : x.host.core.queue.toList = event :: events) : events.length < eventQueueLen := by
  have hmost : eventQueueLen = 5 := rfl
  have hline := h.toHost.room
  have hbound := s.toHost_le o
  rw [hqueue, List.length_cons] at hline
  omega

/-- A move of the host alone. -/
theorem At.hostMoves (h : At o pre s x) {s' : Stage} {d : Dfu ClientHost (Traced Port)} {done : Nat}
    (hhost : s'.HostIs o d) (hclient : s'.ClientIs o pre (view x.client))
    (htoHost : Line d.core.queue.toList x.client.out (s'.toHost o).1 (s'.toHost o).2)
    (htoClient : Line x.client.core.queue.toList d.out (s'.toClient o).1 (s'.toClient o).2)
    (hcount : done + d.core.queue.toList.length + 2 * d.out.length + s'.left o ≤
      x.done + x.host.core.queue.toList.length + 2 * x.host.out.length + s.left o) :
    At o pre s' ⟨d, x.client, done⟩ where
  host := hhost
  client := hclient
  toHost := htoHost
  toClient := htoClient
  count := by
    have hbefore := h.count
    rw [load] at hbefore ⊢
    dsimp only
    omega

theorem At.hostStep (h : At o pre s x) {nowMs : UInt32} (huntimed : Untimed x.host nowMs) :
    ∃ s', At o pre s' (x.move (.hostStep nowMs)) := by
  rw [move]
  cases steps huntimed with
  | rests hqueue hresult hsame hstill =>
    have hout : out (x.host.step nowMs).2 = x.host.out := congrArg (fun fx : Traced Port => fx.inner.out) hsame.fx
    rw [hresult]
    refine ⟨s, h.hostMoves (h.host.same hsame) h.client ?_ ?_ ?_⟩
    · rw [hstill]
      exact h.toHost
    · rw [hout]
      exact h.toClient
    · rw [hstill, hout]
      exact Nat.le_refl _
  | ran event events d₀ hqueue hresult hsame hcurrent hbegun hrest hafter hleft =>
    have hout : out d₀ = x.host.out := congrArg (fun fx : Traced Port => fx.inner.out) hsame.fx
    have houtAfter : out (x.host.step nowMs).2 = (libSmRun d₀).out :=
      congrArg (fun fx : Traced Port => fx.inner.out) hafter.fx
    have hline := h.toHost
    have hlen := congrArg List.length hqueue
    rw [List.length_cons] at hlen
    rw [hresult]
    rw [hqueue] at hline
    by_cases hnone : event = Event.none
    · obtain ⟨hpending, hstate⟩ := (h.host.same hsame).waits
      have hidle := host_idles (hcurrent.trans hnone) rfl hstate hpending
      rw [hidle] at hafter hleft houtAfter
      rw [hnone] at hline
      refine ⟨s, h.hostMoves ((h.host.same hsame).same hafter) h.client ?_ ?_ ?_⟩
      · rw [hleft, hrest]
        exact hline.pop_none
      · rw [houtAfter, hout]
        exact h.toClient
      · rw [hleft, hrest, houtAfter, hout]
        simp only [Option.toList, List.length_singleton]
        omega
    · obtain ⟨rest, hevents, hrestLine⟩ := hline.pop hnone
      have hroom := hrestLine.room
      obtain ⟨s', junk, sent, hhost, hruns, hclient, hto, hback, hleft'⟩ :=
        (h.host.same hsame).runs hcurrent hevents hrest (h.toHost_room hqueue)
      have hqueue' := hleft.symm ▸ hruns.queue
      have hout' := houtAfter.trans (hruns.out.trans (congrArg (· ++ sent) hout))
      refine ⟨s', h.hostMoves (hhost.same hafter) (hclient _ _ h.client) ?_ ?_ ?_⟩
      · rw [hqueue', hto]
        exact hrestLine.posts junk
      · rw [hout', hback]
        exact h.toClient.send sent
      · rw [hqueue', hout', List.length_append, List.length_append, List.length_replicate]
        simp only [Option.toList, List.length_singleton]
        omega

/-- A move of the client alone. -/
theorem At.clientMoves (h : At o pre s x) {s' : Stage} {d : Dfu R (Traced Port)} {done : Nat}
    (hhost : s'.HostIs o x.host) (hclient : s'.ClientIs o pre (view d))
    (htoHost : Line x.host.core.queue.toList d.out (s'.toHost o).1 (s'.toHost o).2)
    (htoClient : Line d.core.queue.toList x.host.out (s'.toClient o).1 (s'.toClient o).2)
    (hcount : done + d.core.queue.toList.length + 2 * d.out.length + s'.left o ≤
      x.done + x.client.core.queue.toList.length + 2 * x.client.out.length + s.left o) :
    At o pre s' ⟨x.host, d, done⟩ where
  host := hhost
  client := hclient
  toHost := htoHost
  toClient := htoClient
  count := by
    have hbefore := h.count
    rw [load] at hbefore ⊢
    dsimp only
    omega

theorem At.toClient_room (h : At o pre s x) {event : Event} {events : List Event}
    (hqueue : x.client.core.queue.toList = event :: events) : events.length < eventQueueLen := by
  have hmost : eventQueueLen = 5 := rfl
  have hline := h.toClient.room
  have hbound := s.toClient_le o
  rw [hqueue, List.length_cons] at hline
  omega

/-- The client that has validated the last chunk has what the host has sent. -/
theorem At.transferred (h : At o pre s x) {k : Nat} (hs : s = .serving k) (hk : k + 1 = o.count)
    {d : Dfu R (Traced Port)} (hvalidated : Validated o pre (view d)) {done : Nat} (hdone : done ≤ x.done + x.load) :
    Transferred o pre ⟨x.host, d, done⟩ where
  host := by
    have hhost := h.host
    rw [hs] at hhost
    obtain ⟨-, remaining, hremaining, hserves⟩ := hhost
    have hlast : ¬ k + 1 < o.count := by omega
    rw [Offer.lt_count_iff] at hlast
    refine hserves.remaining.trans (UInt32.toNat_inj.mp ?_)
    rw [hremaining]
    exact Nat.sub_eq_zero_of_le (Nat.le_of_not_lt hlast)
  client := hvalidated
  count := by
    have hcount := h.count
    dsimp only
    omega

theorem At.clientStep (h : At o pre s x) {nowMs : UInt32} (huntimed : Untimed x.client nowMs)
    (hoffer : UntimedOffer x.client nowMs) :
    (∃ s', At o pre s' (x.move (.clientStep nowMs))) ∨ Transferred o pre (x.move (.clientStep nowMs)) := by
  rw [move]
  cases steps huntimed with
  | rests hqueue hresult hsame hstill =>
    have hout : out (x.client.step nowMs).2 = x.client.out := congrArg (fun fx : Traced Port => fx.inner.out) hsame.fx
    rw [hresult]
    refine .inl ⟨s, h.clientMoves h.host (h.client.same hsame.view) ?_ ?_ ?_⟩
    · rw [hout]
      exact h.toHost
    · rw [hstill]
      exact h.toClient
    · rw [hstill, hout]
      exact Nat.le_refl _
  | ran event events d₀ hqueue hresult hsame hcurrent hbegun hrest hafter hleft =>
    have hout : out d₀ = x.client.out := congrArg (fun fx : Traced Port => fx.inner.out) hsame.fx
    have houtAfter : out (x.client.step nowMs).2 = (libSmRun d₀).out :=
      congrArg (fun fx : Traced Port => fx.inner.out) hafter.fx
    have hline := h.toClient
    have hlen := congrArg List.length hqueue
    have hclient := h.client.same hsame.view
    rw [List.length_cons] at hlen
    rw [hresult]
    rw [hqueue] at hline
    by_cases hnone : event = Event.none
    · have hidle := hclient.idles (hcurrent.trans hnone)
      have hqueue' : (x.client.step nowMs).2.core.queue.toList = events := by
        rw [hleft, ← hrest]
        exact congrArg (fun v : Dfu Client (Traced Port) => v.core.queue.toList) hidle
      have hout' : out (x.client.step nowMs).2 = x.client.out := by
        rw [houtAfter, ← hout]
        exact congrArg (fun v : Dfu Client (Traced Port) => v.out) hidle
      rw [hnone] at hline
      refine .inl ⟨s, h.clientMoves h.host ?_ ?_ ?_ ?_⟩
      · rw [← hidle] at hclient
        exact hclient.same hafter.view
      · rw [hout']
        exact h.toHost
      · rw [hqueue']
        exact hline.pop_none
      · rw [hqueue', hout']
        simp only [Option.toList, List.length_singleton]
        omega
    · obtain ⟨rest, hevents, hrestLine⟩ := hline.pop hnone
      have hlast : ∀ k, s = .serving k → k < o.count := by
        intro k hs
        have hhost := h.host
        rw [hs] at hhost
        exact hhost.1
      rcases hclient.runs hcurrent hevents hrest (h.toClient_room hqueue) hlast
        (hoffer _ hbegun) with
        ⟨s', junk, sent, hclient', hruns, hhost, hto, hback, hleft'⟩ | ⟨k, hs, hk, hvalidated⟩
      · have hqueue' := hleft.symm ▸ hruns.queue
        have hout' := houtAfter.trans (hruns.out.trans (congrArg (· ++ sent) hout))
        refine .inl ⟨s', h.clientMoves (hhost _ h.host) (hclient'.same hafter.view) ?_ ?_ ?_⟩
        · rw [hout', hback]
          exact h.toHost.send sent
        · rw [hqueue', hto]
          exact hrestLine.posts junk
        · rw [hqueue', hout', List.length_append, List.length_append, List.length_replicate]
          simp only [Option.toList, List.length_singleton]
          omega
      · refine .inr (h.transferred hs hk (hvalidated.same hafter.view) ?_)
        rw [load]
        simp only [Option.toList, List.length_singleton]
        omega

/-! ### Deliveries -/

theorem bytes_of_arrival {m m' : DfuMessage} (h : arrival m = arrival m') : m.toBytes = m'.toBytes := by
  injection congrArg Event.data h

theorem Serves.valid {d : Dfu ClientHost (Traced Port)} {state : State} {remaining : UInt32}
    (h : Serves o state remaining d) (hstate : state.isHost = true) : d.sourceValid o.clientNodeId = true := by
  have hvalid : Roles.hostClientNodeValid d.roles o.clientNodeId = true := by
    change (d.roles.host.clientNodeId == o.clientNodeId) = true
    rw [h.client]
    exact beq_self_eq_true _
  rw [sourceValid, h.state]
  cases state with
  | hostReqUpdate | hostUpdate => exact hvalid
  | _ => cases hstate

theorem Takes.valid {d : Dfu R (Traced Port)} {k : Nat} (h : Takes o pre k (view d)) :
    d.sourceValid o.hostNodeId = true := by
  have hvalid : Roles.clientHostNodeValid d.roles o.hostNodeId = true := by
    rw [Receiver.valid]
    change ((view d).roles.hostNodeId == o.hostNodeId) = true
    rw [h.host]
    exact beq_self_eq_true _
  rw [sourceValid, show d.core.state = .clientReceiving from h.state]
  exact hvalid

/-- What is on its way to the host is queued there. -/
theorem At.arrivesHost (h : At o pre s x) {message : DfuMessage} {rest : List DfuMessage}
    (hout : x.client.out = message :: rest) : (x.host.onMessage message.toBytes).2 =
      { x.host with core := x.host.core.post (arrival message) } := by
  have hhost := h.host
  have hline := h.toHost
  rw [hout] at hline
  have hmem := hline.mem
  have hroom := hline.room
  have hbound := s.toHost_le o
  have hmost : eventQueueLen = 5 := rfl
  rw [List.length_cons] at hroom
  have hqueued : ∀ (m : DfuMessage) {state : State} {remaining : UInt32}, arrival message = arrival m →
      m.addresses = ⟨o.clientNodeId, o.hostNodeId⟩ → m.encodedLen = DfuMessage.withTwoBytesLen →
      Serves o state remaining x.host → state.isHost = true →
      (x.host.onMessage message.toBytes).2 = { x.host with core := x.host.core.post (arrival message) } := by
    intro m state remaining hsame haddress hlen hserves hstate
    rw [hsame, bytes_of_arrival hsame]
    exact onMessage_arrives (by rw [haddress, hserves.self]) (by rw [haddress]; exact Serves.valid hserves hstate)
      (by rw [hlen]; decide) (by omega)
  cases s with
  | asked notify timeoutMs =>
    cases congrArg Event.data (List.mem_singleton.mp hmem)
  | offered | serving k => cases hmem
  | accepted =>
    rcases List.mem_cons.mp hmem with hsame | hmem
    · exact hqueued o.ackMessage hsame rfl rfl hhost rfl
    · exact hqueued (o.requestMessage 0) (List.mem_singleton.mp hmem) rfl rfl hhost rfl
  | requesting k =>
    obtain ⟨-, remaining, -, hserves⟩ := hhost
    exact hqueued (o.requestMessage k) (List.mem_singleton.mp hmem) rfl rfl hserves rfl

theorem At.arrivesClient (h : At o pre s x) {message : DfuMessage} {rest : List DfuMessage}
    (hout : x.host.out = message :: rest) : (x.client.onMessage message.toBytes).2 =
      { x.client with core := x.client.core.post (arrival message) } := by
  have hclient := h.client
  have hline := h.toClient
  rw [hout] at hline
  have hmem := hline.mem
  have hroom := hline.room
  have hbound := s.toClient_le o
  have hmost : eventQueueLen = 5 := rfl
  rw [List.length_cons] at hroom
  have hqueued : ∀ m : DfuMessage, arrival message = arrival m → m.addresses = ⟨o.hostNodeId, o.clientNodeId⟩ →
      m.encodedLen ≤ DfuMessage.longestLen → x.client.core.selfNodeId = o.clientNodeId →
      x.client.sourceValid o.hostNodeId = true →
      (x.client.onMessage message.toBytes).2 = { x.client with core := x.client.core.post (arrival message) } := by
    intro m hsame haddress hshort hself hvalid
    rw [hsame, bytes_of_arrival hsame]
    exact onMessage_arrives (by rw [haddress, hself]) (by rw [haddress]; exact hvalid) hshort (by omega)
  cases s with
  | asked _ _ | accepted | requesting _ => cases hmem
  | offered =>
    have hvalid : x.client.sourceValid o.hostNodeId = true := by
      rw [sourceValid, show x.client.core.state = .idle from Idles.state hclient]
      rfl
    exact hqueued o.startMessage (List.mem_singleton.mp hmem) rfl
      (show DfuMessage.startLen ≤ DfuMessage.longestLen by decide) (Idles.self hclient) hvalid
  | serving k =>
    have hlen : (o.chunkMessage k).encodedLen ≤ DfuMessage.longestLen := by
      have hle := o.chunkSize_le
      change DfuMessage.withTwoBytesLen + (o.chunk k).length ≤ DfuMessage.withTwoBytesLen + dfuMaxChunkSize
      rw [Offer.length_chunk]
      omega
    exact hqueued (o.chunkMessage k) (List.mem_singleton.mp hmem) rfl hlen (Takes.self hclient) (Takes.valid hclient)

theorem sameParty_post {R E : Type} (d : Dfu R E) (event : Event) :
    SameParty d { d with core := d.core.post event } := ⟨rfl, rfl, rfl, rfl, rfl, rfl, rfl, rfl⟩

/-- Where there is room, an event is queued last. -/
theorem toList_arrive {queue : EventQueue} {events : List Event} {sent : List DfuMessage} {junk : Nat}
    {message : DfuMessage} (h : Line queue.toList (message :: sent) events junk) (hroom : events.length + junk ≤ 3) :
    (queue.push (arrival message)).1.toList = queue.toList ++ [arrival message] := by
  have hline := h.room
  have hmost : eventQueueLen = 5 := rfl
  rw [List.length_cons, RingQueue.length_toList] at hline
  exact (queue.toList_push (arrival message) (by omega)).1

theorem At.toHostMove (h : At o pre s x) : At o pre s (x.move .toHost) := by
  rw [move]
  cases hout : x.client.out with
  | nil => exact h
  | cons message rest =>
    have hline := h.toHost
    rw [hout] at hline
    have hbound := s.toHost_le o
    have hqueue := toList_arrive hline hbound
    dsimp only
    rw [h.arrivesHost hout]
    refine ⟨h.host.same (sameParty_post _ _), h.client.withOut rest, ?_, h.toClient, ?_⟩
    · have harrived := hline.deliver
      rw [← hqueue] at harrived
      exact harrived
    · have hcount := h.count
      rw [load] at hcount ⊢
      rw [hout, List.length_cons] at hcount
      have hlen : (x.host.core.post (arrival message)).queue.toList.length = x.host.core.queue.toList.length + 1 := by
        rw [← List.length_singleton (a := arrival message), ← List.length_append, ← hqueue]
        rfl
      have hrest : (x.client.withOut rest).out.length = rest.length := rfl
      have hsame : out ({ x.host with core := x.host.core.post (arrival message) } : Dfu ClientHost (Traced Port)) =
        x.host.out := rfl
      have hsame' : (x.client.withOut rest).core.queue = x.client.core.queue := rfl
      dsimp only
      rw [hlen, hrest, hsame, hsame']
      omega

theorem At.toClientMove (h : At o pre s x) : At o pre s (x.move .toClient) := by
  rw [move]
  cases hout : x.host.out with
  | nil => exact h
  | cons message rest =>
    have hline := h.toClient
    rw [hout] at hline
    have hbound := s.toClient_le o
    have hqueue := toList_arrive hline hbound
    dsimp only
    rw [h.arrivesClient hout]
    refine ⟨h.host.withOut rest, h.client.same (sameParty_post _ _).view, h.toHost, ?_, ?_⟩
    · have harrived := hline.deliver
      rw [← hqueue] at harrived
      exact harrived
    · have hcount := h.count
      rw [load] at hcount ⊢
      rw [hout, List.length_cons] at hcount
      have hlen : (x.client.core.post (arrival message)).queue.toList.length =
          x.client.core.queue.toList.length + 1 := by
        rw [← List.length_singleton (a := arrival message), ← List.length_append, ← hqueue]
        rfl
      have hrest : (x.host.withOut rest).out.length = rest.length := rfl
      have hsame : out ({ x.client with core := x.client.core.post (arrival message) } : Dfu R (Traced Port)) =
        x.client.out := rfl
      have hsame' : (x.host.withOut rest).core.queue = x.host.core.queue := rfl
      dsimp only
      rw [hlen, hrest, hsame, hsame']
      omega

/-! ### Runs -/

theorem At.not_finished (h : At o pre s x) : x.finished = false := by
  have hstate : x.client.core.state = .idle ∨ x.client.core.state = .clientReceiving := h.client.waits.2
  rw [finished]
  rcases hstate with hstate | hstate <;> rw [hstate] <;> rfl

theorem Transferred.finished (h : Transferred o pre x) : x.finished = true := decide_eq_true h.client.state

theorem At.move (h : At o pre s x) {m : Move} (htimely : x.Timely m) :
    (∃ s', At o pre s' (x.move m)) ∨ Transferred o pre (x.move m) := by
  cases m with
  | hostStep nowMs => exact .inl (h.hostStep htimely)
  | clientStep nowMs => exact h.clientStep htimely.1 htimely.2
  | toClient => exact .inl ⟨s, h.toClientMove⟩
  | toHost => exact .inl ⟨s, h.toHostMove⟩

theorem runs_at (moves : List Move) : ∀ {x : Exchange R}, (∃ s, At o pre s x) ∨ Transferred o pre x →
    x.TimelyRun moves → (∃ s, At o pre s (x.runs moves)) ∨ Transferred o pre (x.runs moves) := by
  induction moves with
  | nil => exact fun h _ => h
  | cons m moves ih =>
    intro x h htimely
    obtain ⟨hfirst, hrest⟩ := htimely
    refine ih ?_ hrest
    rw [apply]
    rcases h with ⟨s, h⟩ | h
    · rw [if_neg (by rw [h.not_finished]; exact Bool.false_ne_true)]
      exact h.move (hfirst h.not_finished)
    · rw [if_pos h.finished]
      exact .inr h

/-- Something is left to run or to deliver as long as the transfer is not over. -/
theorem At.load_pos (h : At o pre s x) : 0 < x.load := by
  have hline : ∀ {queue sent events junk}, Line queue sent events junk → queue.length + sent.length = 0 →
      events = [] := by
    intro queue sent events junk hline hnone
    have hqueue : queue = [] := List.length_eq_zero_iff.mp (by omega)
    have hsent : sent = [] := List.length_eq_zero_iff.mp (by omega)
    rw [← hline.eq, hqueue, hsent]
    rfl
  apply Nat.pos_of_ne_zero
  intro hload
  rw [load] at hload
  have htoHost := hline h.toHost (by omega)
  have htoClient := hline h.toClient (by omega)
  cases s with
  | asked _ _ | accepted | requesting _ => cases htoHost
  | offered | serving _ => cases htoClient

/-- As long as the transfer is not over, a move is open that runs or delivers something. -/
theorem At.moves_on (h : At o pre s x) (nowMs : UInt32) :
    ∃ m ∈ Move.all nowMs, x.Timely m → (x.apply m).done = x.done + 1 := by
  have hload := h.load_pos
  have happly : ∀ m, x.apply m = x.move m := fun m => if_neg (by rw [h.not_finished]; exact Bool.false_ne_true)
  simp only [happly]
  cases hhost : x.host.core.queue.toList with
  | cons event events =>
    refine ⟨.hostStep nowMs, by simp [Move.all], fun huntimed => ?_⟩
    exact congrArg (x.done + ·) ((steps huntimed).result_of_queued hhost)
  | nil =>
    cases hclient : x.client.core.queue.toList with
    | cons event events =>
      refine ⟨.clientStep nowMs, by simp [Move.all], fun huntimed => ?_⟩
      exact congrArg (x.done + ·) ((steps huntimed.1).result_of_queued hclient)
    | nil =>
      cases htoClient : x.host.out with
      | cons message rest =>
        refine ⟨.toClient, by simp [Move.all], fun _ => ?_⟩
        rw [Exchange.move, htoClient]
      | nil =>
        cases htoHost : x.client.out with
        | cons message rest =>
          refine ⟨.toHost, by simp [Move.all], fun _ => ?_⟩
          rw [Exchange.move, htoHost]
        | nil =>
          rw [load, hhost, hclient, htoClient, htoHost] at hload
          exact absurd hload (Nat.lt_irrefl 0)

/-- Both machines idle, with nothing on its way. The client's slot has room for the image, which is not the one
it runs. -/
structure Ready (o : Offer) (x : Exchange R) : Prop where
  state : x.host.core.state = .idle
  pending : x.host.core.pending = none
  self : x.host.core.selfNodeId = o.hostNodeId
  image : x.host.fx.inner.image = o.image
  client : Idles o x.client.fx.writes (view x.client)
  queues : x.host.core.queue.toList = [] ∧ x.client.core.queue.toList = []
  outs : x.host.out = [] ∧ x.client.out = []
  done : x.done = 0

/-- The host is asked for an update from its own storage. -/
def begins (x : Exchange R) (o : Offer) (notify : Bool) (timeoutMs : UInt32) : Exchange R :=
  { x with host := (x.host.initiateUpdate o.info o.clientNodeId notify timeoutMs true).2 }

theorem Ready.begins (h : Ready o x) (notify : Bool) (timeoutMs : UInt32) :
    At o x.client.fx.writes (.asked notify timeoutMs) (x.begins o notify timeoutMs) := by
  obtain ⟨hhostQueue, hclientQueue⟩ := h.queues
  obtain ⟨hhostOut, hclientOut⟩ := h.outs
  have hsize : ¬ o.info.chunkSize.toNat > dfuMaxChunkSize := Nat.not_lt.mpr o.chunkSize_le
  have hidle : ¬ x.host.core.state ≠ .idle := not_not.mpr h.state
  have hroom : x.host.core.queue.len < eventQueueLen := by
    rw [← RingQueue.length_toList, hhostQueue]
    decide
  have hevent : (⟨.beginHost, .hostStart ⟨⟨x.host.core.addressTo o.clientNodeId, o.info⟩, notify, timeoutMs⟩⟩ :
      Event) = beginning o notify timeoutMs := by rw [addressTo, h.self, beginning]
  obtain ⟨hposted, htaken⟩ := x.host.core.queue.toList_push (beginning o notify timeoutMs) hroom
  rw [hhostQueue, List.nil_append] at hposted
  have hbegun : (x.host.initiateUpdate o.info o.clientNodeId notify timeoutMs true).2 =
      { x.host with core := { x.host.core.post (beginning o notify timeoutMs) with internal := true } } := by
    simp only [initiateUpdate, if_neg hsize, if_neg hidle, hevent, htaken, if_true]
  have hline : ∀ queue, queue = [beginning o notify timeoutMs] → Line queue [] [beginning o notify timeoutMs] 0 := by
    rintro queue rfl
    have hkind : beginning o notify timeoutMs ≠ Event.none := by
      intro hnone
      cases congrArg Event.kind hnone
    refine ⟨?_, Nat.le_refl _⟩
    rw [List.filter_cons_of_pos (by exact decide_eq_true hkind)]
    rfl
  rw [Exchange.begins, hbegun]
  refine ⟨⟨h.state, h.pending, h.self, rfl, h.image⟩, h.client, ?_, ?_, ?_⟩
  · rw [hclientOut]
    exact hline _ hposted
  · change Line _ x.host.out _ _
    rw [hclientQueue, hhostOut]
    exact ⟨rfl, Nat.zero_le _⟩
  · have hcount : ∀ y : Exchange R, y.host.core.queue.toList = [beginning o notify timeoutMs] →
        y.client = x.client → y.host.out = [] → y.done = 0 →
        y.done + y.load + (Stage.asked notify timeoutMs).left o ≤ 4 * o.count + 8 := by
      intro y hqueue hclient hout hdone
      rw [load, hqueue, hclient, hclientQueue, hclientOut, hout, hdone, Stage.left, List.length_singleton,
        List.length_nil, List.length_nil]
      omega
    exact hcount _ hposted rfl hhostOut h.done

/-- What the transfer leaves behind: the image in the slot, and a verdict on it. -/
structure Delivered (x : Exchange R) (o : Offer) (y : Exchange R) : Prop where
  written : ∃ ws, y.client.fx.writes = x.client.fx.writes ++ ws ∧ Contiguous 0 ws ∧ image ws = o.image
  flashOffset : (HasClient.client y.client.roles).flashOffset.toNat = o.image.length
  runningCrc16 : (HasClient.client y.client.roles).runningCrc16 = crc16Ccitt 0 o.image
  bytesRemaining : y.host.roles.host.bytesRemaining = 0
  reboots : y.client.core.pending = some .clientRebootReq ↔ o.info.crc16 = crc16Ccitt 0 o.image
  refused : o.info.crc16 ≠ crc16Ccitt 0 o.image → y.client.core.error = .badCrc ∧ y.client.core.pending = some .error

theorem Transferred.delivered {y : Exchange R} (h : Transferred o x.client.fx.writes y) : x.Delivered o y where
  written := h.client.written
  flashOffset := (congrArg UInt32.toNat h.client.offset).trans o.size
  runningCrc16 := h.client.crc
  bytesRemaining := h.host
  reboots := by
    refine ⟨fun hpending => ?_, h.client.good⟩
    by_contra hbad
    have herror : y.client.core.pending = some .error := (h.client.bad hbad).2
    rw [hpending] at herror
    cases herror
  refused := h.client.bad

end Exchange

/-- A transfer from end to end. Whatever the order of its moves, only so many are made before the client has
the image and the host has nothing left to send, and until then one is always open. -/
theorem transfer_end_to_end {R : Type} [Roles R] [Receiver R] (o : Offer) {x : Exchange R} (hready : x.Ready o)
    (notify : Bool) (timeoutMs : UInt32) {moves : List Move}
    (htimely : (x.begins o notify timeoutMs).TimelyRun moves) :
    ∃ y, y = (x.begins o notify timeoutMs).runs moves ∧ y.done ≤ 4 * o.count + 8 ∧
      (y.finished = false → ∀ nowMs, ∃ m ∈ Move.all nowMs, y.Timely m → (y.apply m).done = y.done + 1) ∧
      (y.finished = true → x.Delivered o y) := by
  refine ⟨_, rfl, ?_⟩
  rcases Exchange.runs_at moves (.inl ⟨_, hready.begins notify timeoutMs⟩) htimely with ⟨s, hat⟩ | htransferred
  · refine ⟨?_, fun _ => hat.moves_on, fun hfinished => ?_⟩
    · have hcount := hat.count
      omega
    · rw [hat.not_finished] at hfinished
      cases hfinished
  · refine ⟨htransferred.count, fun hfinished => ?_, fun _ => htransferred.delivered⟩
    rw [htransferred.finished] at hfinished
    cases hfinished

/-- A page and a part of one, in three chunks. -/
def threeChunks : Offer where
  hostNodeId := 1
  clientNodeId := 2
  info := ⟨2500, 1024, crc16Ccitt 0 (List.replicate 2500 7), 1, 0, 0, 5⟩
  image := List.replicate 2500 7
  size := by rw [List.length_replicate]; rfl
  nonempty := by rw [List.length_replicate]; decide
  chunkSize_pos := by decide
  chunkSize_le := by decide
  countable := by rw [List.length_replicate]; decide

/-- Two new machines, stepped into `Idle`. -/
def newExchange : Exchange Client where
  host := (new 1 {} ClientHost.new ⟨⟨0, 0, threeChunks.image, []⟩, []⟩).runs [.step 0, .step 0]
  client := (new 2 {} Client.new ⟨⟨4096, 0, [], []⟩, []⟩).runs [.step 0, .step 0]
  done := 0

theorem newExchange_ready : newExchange.Ready threeChunks where
  state := by decide +kernel
  pending := by decide +kernel
  self := by decide +kernel
  image := rfl
  client := ⟨by decide +kernel, by decide +kernel, by decide +kernel, by decide +kernel, by decide +kernel,
    by decide +kernel, rfl⟩
  queues := by decide +kernel
  outs := ⟨rfl, rfl⟩
  done := rfl

/-- All machines step and all messages are delivered in turn. -/
def rounds : Nat → List Move
  | 0 => []
  | n + 1 => Move.all 0 ++ rounds n

theorem transfer_end_to_end_threeChunks :
    ∃ y, y = (newExchange.begins threeChunks true 1000).runs (rounds 14) ∧ y.finished = true ∧
      newExchange.Delivered threeChunks y ∧ y.client.core.pending = some .clientRebootReq := by
  have htimely : (newExchange.begins threeChunks true 1000).TimelyRun (rounds 14) := by decide +kernel
  have hfinished : ((newExchange.begins threeChunks true 1000).runs (rounds 14)).finished = true := by decide +kernel
  obtain ⟨y, hy, -, -, hdelivered⟩ := transfer_end_to_end threeChunks newExchange_ready true 1000 htimely
  rw [← hy] at hfinished
  have hcrc : threeChunks.info.crc16 = crc16Ccitt 0 threeChunks.image := by rw [threeChunks]
  exact ⟨y, hy, hfinished, hdelivered hfinished, (hdelivered hfinished).reboots.mpr hcrc⟩

end Bristlemouth.Dfu
