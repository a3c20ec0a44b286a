import Bristlemouth.Bcmp.Registry
import Mathlib.Data.List.Nodup

/-!
# The life of a request

Runs of the registry with everything they report. A request is numbered once,
retried a few times, and ends as a reply or as a timeout.
-/

set_option autoImplicit false

namespace Bristlemouth

/-- What a call says about one sequence number. -/
inductive RequestEvent where
  /-- A request took the number; `tracked` if there was room to record it. -/
  | sent (nowMs seqNum : UInt32) (tracked : Bool)
  | replied (request : PendingRequest)
  | retried (nowMs : UInt32) (request : PendingRequest)
  | timedOut (nowMs : UInt32) (request : PendingRequest)
deriving DecidableEq

namespace RequestEvent

def seqNum : RequestEvent → UInt32
  | sent _ seqNum _ => seqNum
  | replied request => request.seqNum
  | retried _ request => request.seqNum
  | timedOut _ request => request.seqNum

def ofExpiry (nowMs : UInt32) : Expiry → RequestEvent
  | .retry request => retried nowMs request
  | .timedOut request => timedOut nowMs request

def numbered : RequestEvent → Option UInt32
  | sent _ seqNum _ => some seqNum
  | _ => none

def trackedNum : RequestEvent → Option UInt32
  | sent _ seqNum true => some seqNum
  | _ => none

def retryCount : RequestEvent → Option UInt8
  | retried _ request => some request.retries
  | _ => none

end RequestEvent

/-- The events of one number. -/
def eventsOf (seqNum : UInt32) (history : List RequestEvent) : List RequestEvent :=
  history.filter fun event => event.seqNum = seqNum

/-- The numbers given out so far, in order. -/
def numbersOf (history : List RequestEvent) : List UInt32 := history.filterMap RequestEvent.numbered

/-- Those of tracked requests. -/
def trackedOf (history : List RequestEvent) : List UInt32 := history.filterMap RequestEvent.trackedNum

/-- `request` is still waiting after `events`: sent at some time, then retried at most
`packetRetryCount` times, each at least its timeout after the one before. -/
inductive Waiting : List RequestEvent → PendingRequest → Prop where
  | sent {request : PendingRequest} : request.retries = 0 →
      request.timeoutMs = defaultMessageTimeoutMs →
      Waiting [.sent request.timestampMs request.seqNum true] request
  | retried {events : List RequestEvent} {request : PendingRequest} {nowMs : UInt32} :
      Waiting events request → request.retries < packetRetryCount →
      request.timeoutMs ≤ nowMs - request.timestampMs →
      Waiting (events ++ [.retried nowMs (request.retriedAt nowMs)]) (request.retriedAt nowMs)

/-- Nothing more comes: the number was not given out, or not tracked, or its request was answered,
or given up on after all its retries. -/
inductive Ended (seqNum : UInt32) : List RequestEvent → Prop where
  | unnumbered : Ended seqNum []
  | untracked {nowMs : UInt32} : Ended seqNum [.sent nowMs seqNum false]
  | replied {events : List RequestEvent} {request : PendingRequest} : request.seqNum = seqNum →
      Waiting events request → Ended seqNum (events ++ [.replied request])
  | timedOut {events : List RequestEvent} {request : PendingRequest} {nowMs : UInt32} :
      request.seqNum = seqNum → Waiting events request → request.retries = packetRetryCount →
      request.timeoutMs ≤ nowMs - request.timestampMs →
      Ended seqNum (events ++ [.timedOut nowMs request])

namespace Registry

variable {TYPES PENDING : Nat}

inductive Op where
  | add (messageType : MessageType) (cfg : PacketCfg)
  | remove (messageType : MessageType)
  | onSerialize (nowMs : UInt32) (messageType : MessageType) (replySeqNum : UInt32)
  | onReceived (messageType : MessageType) (seqNum : UInt32)
  | onTick (nowMs : UInt32)

/-- The number `on_serialize` took from the counter, if it took one. -/
def serialized (r : Registry TYPES PENDING) (nowMs : UInt32) (messageType : MessageType)
    (replySeqNum : UInt32) : List RequestEvent :=
  match (r.onSerialize nowMs messageType replySeqNum).2 with
  | .error _ => []
  | .ok outgoing =>
    if (r.onSerialize nowMs messageType replySeqNum).1.messageCount = r.messageCount then []
    else [.sent nowMs outgoing.seqNum outgoing.tracked]

def delivered : Delivery → List RequestEvent
  | .sequencedReply request => [.replied request]
  | _ => []

def apply (r : Registry TYPES PENDING) : Op → Registry TYPES PENDING × List RequestEvent
  | .add messageType cfg => ((r.add messageType cfg).1, [])
  | .remove messageType => ((r.remove messageType).1, [])
  | .onSerialize nowMs messageType replySeqNum =>
    ((r.onSerialize nowMs messageType replySeqNum).1, r.serialized nowMs messageType replySeqNum)
  | .onReceived messageType seqNum =>
    ((r.onReceived messageType seqNum).1, delivered (r.onReceived messageType seqNum).2)
  | .onTick nowMs => ((r.onTick nowMs).1, (r.onTick nowMs).2.map (.ofExpiry nowMs))

/-- The registries reached from an empty one, each with its history. -/
inductive Run (sequenceCount nextSweepMs : UInt32) :
    Registry TYPES PENDING → List RequestEvent → Prop where
  | start : Run sequenceCount nextSweepMs (resuming sequenceCount nextSweepMs) []
  | step {r : Registry TYPES PENDING} {history : List RequestEvent} (op : Op) :
      Run sequenceCount nextSweepMs r history →
      Run sequenceCount nextSweepMs (r.apply op).1 (history ++ (r.apply op).2)

def runOps (r : Registry TYPES PENDING) : List Op → Registry TYPES PENDING × List RequestEvent
  | [] => (r, [])
  | op :: ops => ((runOps (r.apply op).1 ops).1, (r.apply op).2 ++ (runOps (r.apply op).1 ops).2)

theorem Run.ops {sequenceCount nextSweepMs : UInt32} {r : Registry TYPES PENDING}
    {history : List RequestEvent} (hrun : Run sequenceCount nextSweepMs r history) (ops : List Op) :
    Run sequenceCount nextSweepMs (r.runOps ops).1 (history ++ (r.runOps ops).2) := by
  induction ops generalizing r history with
  | nil =>
    rw [runOps, List.append_nil]
    exact hrun
  | cons op ops ih =>
    rw [runOps, ← List.append_assoc]
    exact ih (hrun.step op)

/-! ### One call -/

/-- All a call can do to the outstanding requests and the counter, with what it says. -/
inductive Change (r r' : Registry TYPES PENDING) : List RequestEvent → Prop where
  | quiet : r'.pending = r.pending → r'.messageCount = r.messageCount → Change r r' []
  | tracked {request : PendingRequest} : r.pending.length < PENDING →
      request.seqNum = r.messageCount → request.retries = 0 →
      request.timeoutMs = defaultMessageTimeoutMs → r'.pending = r.pending ++ [request] →
      r'.messageCount = r.messageCount + 1 →
      Change r r' [.sent request.timestampMs request.seqNum true]
  | untracked {nowMs : UInt32} : r'.pending = r.pending →
      r'.messageCount = r.messageCount + 1 → Change r r' [.sent nowMs r.messageCount false]
  | answered {index : Nat} {request : PendingRequest} : r.pending[index]? = some request →
      r'.pending = r.pending.eraseIdx index → r'.messageCount = r.messageCount →
      Change r r' [.replied request]
  | swept {nowMs : UInt32} : r'.pending = r.pending.filterMap (·.survivor nowMs) →
      r'.messageCount = r.messageCount →
      Change r r' ((r.pending.filterMap (·.report nowMs)).map (.ofExpiry nowMs))

theorem add_one_ne (x : UInt32) : x + 1 ≠ x := by
  intro h
  have h' := congrArg UInt32.toNat h
  have hlt := x.toNat_lt
  rw [UInt32.toNat_add] at h'
  change (x.toNat + 1) % 2 ^ 32 = x.toNat at h'
  omega

theorem add_change (r : Registry TYPES PENDING) (messageType : MessageType) (cfg : PacketCfg) :
    Change r (r.add messageType cfg).1 [] := by
  unfold add
  split <;> exact .quiet rfl rfl

theorem remove_change (r : Registry TYPES PENDING) (messageType : MessageType) :
    Change r (r.remove messageType).1 [] := by
  unfold remove
  split <;> exact .quiet rfl rfl

theorem onSerialize_change (r : Registry TYPES PENDING) (nowMs : UInt32) (messageType : MessageType)
    (replySeqNum : UInt32) : Change r (r.onSerialize nowMs messageType replySeqNum).1
      (r.serialized nowMs messageType replySeqNum) := by
  rw [serialized]
  cases hcfg : r.cfg messageType with
  | none =>
    simp only [onSerialize, hcfg]
    exact .quiet rfl rfl
  | some cfg =>
    by_cases hreply : cfg.sequencedReply
    · simp only [onSerialize, hcfg, if_pos hreply]
      exact .quiet rfl rfl
    · by_cases hrequest : cfg.sequencedRequest
      · by_cases hroom : r.pending.length < PENDING
        · simp only [onSerialize, hcfg, if_neg hreply, if_pos hroom, hrequest, Bool.not_true,
            Bool.false_eq_true, if_false, if_neg (add_one_ne r.messageCount)]
          exact @Change.tracked _ _ r _ (r.newRequest nowMs messageType) hroom rfl rfl rfl rfl rfl
        · simp only [onSerialize, hcfg, if_neg hreply, if_neg hroom, hrequest, Bool.not_true,
            Bool.false_eq_true, if_false, if_neg (add_one_ne r.messageCount)]
          exact .untracked rfl rfl
      · simp only [onSerialize, hcfg, if_neg hreply, hrequest, Bool.not_false, if_true]
        exact .quiet rfl rfl

theorem onReceived_change (r : Registry TYPES PENDING) (messageType : MessageType)
    (seqNum : UInt32) : Change r (r.onReceived messageType seqNum).1
      (delivered (r.onReceived messageType seqNum).2) := by
  unfold onReceived
  split
  · exact .quiet rfl rfl
  · split
    · exact .quiet rfl rfl
    · split
      · exact .quiet rfl rfl
      · split
        · exact .quiet rfl rfl
        · rename_i hget
          exact .answered hget rfl rfl

theorem onTick_change (r : Registry TYPES PENDING) (nowMs : UInt32) :
    Change r (r.onTick nowMs).1 ((r.onTick nowMs).2.map (.ofExpiry nowMs)) := by
  unfold onTick
  split
  · exact .quiet rfl rfl
  · rw [sweep_eq]
    exact .swept rfl rfl

theorem apply_change (r : Registry TYPES PENDING) (op : Op) :
    Change r (r.apply op).1 (r.apply op).2 := by
  cases op with
  | add messageType cfg => exact r.add_change messageType cfg
  | remove messageType => exact r.remove_change messageType
  | onSerialize nowMs messageType replySeqNum =>
    exact r.onSerialize_change nowMs messageType replySeqNum
  | onReceived messageType seqNum => exact r.onReceived_change messageType seqNum
  | onTick nowMs => exact r.onTick_change nowMs

end Registry

/-! ### Requests under a sweep -/

theorem survivor_seqNum {request left : PendingRequest} {nowMs : UInt32}
    (h : request.survivor nowMs = some left) : left.seqNum = request.seqNum := by
  unfold PendingRequest.survivor at h
  split at h
  · cases h
    rfl
  · split at h
    · cases h
      rfl
    · cases h

theorem report_seqNum {request : PendingRequest} {expiry : Expiry} {nowMs : UInt32}
    (h : request.report nowMs = some expiry) :
    (RequestEvent.ofExpiry nowMs expiry).seqNum = request.seqNum := by
  unfold PendingRequest.report at h
  split at h
  · cases h
  · split at h
    · cases h
      rfl
    · cases h
      rfl

theorem Waiting.retries_le {events : List RequestEvent} {request : PendingRequest}
    (h : Waiting events request) : request.retries ≤ packetRetryCount := by
  cases h with
  | sent hretries _ =>
    rw [hretries]
    decide
  | @retried events request nowMs _ hretries _ =>
    rw [UInt8.lt_iff_toNat_lt] at hretries
    rw [UInt8.le_iff_toNat_le]
    change request.retries.toNat < 3 at hretries
    change (request.retries + 1).toNat ≤ 3
    rw [UInt8.toNat_add]
    change (request.retries.toNat + 1) % 256 ≤ 3
    omega

theorem Waiting.mem_sent {events : List RequestEvent} {request : PendingRequest}
    (h : Waiting events request) : ∃ nowMs, RequestEvent.sent nowMs request.seqNum true ∈ events := by
  induction h with
  | sent _ _ => exact ⟨_, List.mem_singleton_self _⟩
  | retried _ _ _ ih =>
    obtain ⟨nowMs, hmem⟩ := ih
    exact ⟨nowMs, List.mem_append_left _ hmem⟩

/-- A number with events was given out. -/
theorem Ended.mem_sent {seqNum : UInt32} {events : List RequestEvent} (h : Ended seqNum events)
    (hne : events ≠ []) : ∃ nowMs tracked, RequestEvent.sent nowMs seqNum tracked ∈ events := by
  cases h with
  | unnumbered => exact absurd rfl hne
  | untracked => exact ⟨_, _, List.mem_singleton_self _⟩
  | replied hseq hwaiting =>
    obtain ⟨nowMs, hmem⟩ := hwaiting.mem_sent
    rw [hseq] at hmem
    exact ⟨nowMs, true, List.mem_append_left _ hmem⟩
  | timedOut hseq hwaiting _ _ =>
    obtain ⟨nowMs, hmem⟩ := hwaiting.mem_sent
    rw [hseq] at hmem
    exact ⟨nowMs, true, List.mem_append_left _ hmem⟩

/-- A sweep does one of three things to a request that was waiting. -/
theorem Waiting.swept {events : List RequestEvent} {request : PendingRequest} (nowMs : UInt32)
    (h : Waiting events request) :
    request.survivor nowMs = some request ∧ request.report nowMs = none ∨
      (∃ retried, request.survivor nowMs = some retried ∧ request.report nowMs = some (.retry retried) ∧
        Waiting (events ++ [.retried nowMs retried]) retried) ∨
      request.survivor nowMs = none ∧ request.report nowMs = some (.timedOut request) ∧
        Ended request.seqNum (events ++ [.timedOut nowMs request]) := by
  unfold PendingRequest.survivor PendingRequest.report
  by_cases hlive : request.expiredAt nowMs
  · have hdue : request.timeoutMs ≤ nowMs - request.timestampMs := by
      simpa [PendingRequest.expiredAt] using hlive
    by_cases hretry : request.retries < packetRetryCount
    · exact .inr (.inl ⟨request.retriedAt nowMs, by simp [hlive, hretry], by simp [hlive, hretry],
        h.retried hretry hdue⟩)
    · have hlast := UInt8.le_antisymm h.retries_le (UInt8.not_lt.mp hretry)
      exact .inr (.inr ⟨by simp [hlive, hretry], by simp [hlive, hretry], .timedOut rfl h hlast hdue⟩)
  · exact .inl ⟨by simp [hlive], by simp [hlive]⟩

/-! ### The history of one number -/

theorem eventsOf_append (seqNum : UInt32) (a b : List RequestEvent) :
    eventsOf seqNum (a ++ b) = eventsOf seqNum a ++ eventsOf seqNum b := List.filter_append ..

theorem eventsOf_self (event : RequestEvent) {seqNum : UInt32} (h : event.seqNum = seqNum) :
    eventsOf seqNum [event] = [event] := by
  simp [eventsOf, h]

theorem eventsOf_other (event : RequestEvent) {seqNum : UInt32} (h : event.seqNum ≠ seqNum) :
    eventsOf seqNum [event] = [] := by
  simp [eventsOf, h]

theorem numbersOf_append (a b : List RequestEvent) : numbersOf (a ++ b) = numbersOf a ++ numbersOf b :=
  List.filterMap_append

theorem trackedOf_append (a b : List RequestEvent) : trackedOf (a ++ b) = trackedOf a ++ trackedOf b :=
  List.filterMap_append

theorem trackedOf_sublist (history : List RequestEvent) :
    (trackedOf history).Sublist (numbersOf history) := by
  induction history with
  | nil => exact List.Sublist.refl _
  | cons event history ih =>
    cases event with
    | sent nowMs seqNum tracked =>
      cases tracked with
      | true => exact ih.cons_cons seqNum
      | false => exact ih.cons seqNum
    | replied request => exact ih
    | retried nowMs request => exact ih
    | timedOut nowMs request => exact ih

theorem mem_numbersOf {nowMs seqNum : UInt32} {tracked : Bool} {history : List RequestEvent}
    (h : .sent nowMs seqNum tracked ∈ history) : seqNum ∈ numbersOf history :=
  List.mem_filterMap.mpr ⟨_, h, rfl⟩

theorem ofExpiry_numbers (nowMs : UInt32) (expired : List Expiry) :
    numbersOf (expired.map (.ofExpiry nowMs)) = [] ∧ trackedOf (expired.map (.ofExpiry nowMs)) = [] := by
  induction expired with
  | nil => exact ⟨rfl, rfl⟩
  | cons expiry expired ih => cases expiry <;> exact ih

/-! ### A list of requests under a sweep -/

theorem survivors_sublist (nowMs : UInt32) (pending : List PendingRequest) :
    ((pending.filterMap (·.survivor nowMs)).map (·.seqNum)).Sublist (pending.map (·.seqNum)) := by
  induction pending with
  | nil => exact List.Sublist.refl _
  | cons request pending ih =>
    cases hleft : request.survivor nowMs with
    | none =>
      simp only [List.filterMap_cons, hleft]
      exact ih.cons _
    | some left =>
      simp only [List.filterMap_cons, hleft, List.map_cons, survivor_seqNum hleft]
      exact ih.cons_cons _

/-- A sweep says nothing about numbers that are not outstanding. -/
theorem swept_absent {nowMs seqNum : UInt32} {pending : List PendingRequest}
    (h : seqNum ∉ pending.map (·.seqNum)) :
    eventsOf seqNum ((pending.filterMap (·.report nowMs)).map (.ofExpiry nowMs)) = [] := by
  rw [eventsOf, List.filter_eq_nil_iff]
  intro event hevent
  obtain ⟨expiry, hexpiry, rfl⟩ := List.mem_map.mp hevent
  obtain ⟨request, hrequest, hreport⟩ := List.mem_filterMap.mp hexpiry
  rw [report_seqNum hreport, decide_eq_true_iff]
  rintro rfl
  exact h (List.mem_map_of_mem hrequest)

/-- What a sweep says about an outstanding number is what it says about its one request. -/
theorem swept_present {nowMs : UInt32} {pending : List PendingRequest} {request : PendingRequest}
    (hnodup : (pending.map (·.seqNum)).Nodup) (hmem : request ∈ pending) :
    eventsOf request.seqNum ((pending.filterMap (·.report nowMs)).map (.ofExpiry nowMs)) =
      (request.report nowMs).toList.map (.ofExpiry nowMs) := by
  obtain ⟨front, back, rfl⟩ := List.append_of_mem hmem
  rw [List.map_append, List.map_cons, List.nodup_append, List.nodup_cons] at hnodup
  obtain ⟨_, ⟨hback, _⟩, hfront⟩ := hnodup
  have hfront' : request.seqNum ∉ front.map (·.seqNum) :=
    fun h => hfront _ h _ List.mem_cons_self rfl
  have hself : eventsOf request.seqNum ((request.report nowMs).toList.map (.ofExpiry nowMs)) =
      (request.report nowMs).toList.map (.ofExpiry nowMs) := by
    cases hreport : request.report nowMs with
    | none => rfl
    | some expiry => exact eventsOf_self _ (report_seqNum hreport)
  rw [List.filterMap_append, List.map_append, eventsOf_append, swept_absent hfront', List.nil_append]
  have hcons : (request :: back).filterMap (·.report nowMs) =
      (request.report nowMs).toList ++ back.filterMap (·.report nowMs) := by
    rw [List.filterMap_cons]
    cases request.report nowMs <;> rfl
  rw [hcons, List.map_append, eventsOf_append, swept_absent hback, List.append_nil, hself]

/-! ### Runs -/

namespace Registry

variable {TYPES PENDING : Nat}

/-- The outstanding requests of a registry and its history tell the same story. -/
structure Accounted (sequenceCount : UInt32) (r : Registry TYPES PENDING)
    (history : List RequestEvent) : Prop where
  numbers : numbersOf history = (List.range (numbersOf history).length).map fun i =>
    sequenceCount + UInt32.ofNat i
  count : r.messageCount = sequenceCount + UInt32.ofNat (numbersOf history).length
  bounded : r.pending.length ≤ PENDING
  order : (r.pending.map (·.seqNum)).Sublist (trackedOf history)
  waiting : ∀ request ∈ r.pending, Waiting (eventsOf request.seqNum history) request
  ended : ∀ seqNum, seqNum ∉ r.pending.map (·.seqNum) → Ended seqNum (eventsOf seqNum history)

namespace Accounted

variable {sequenceCount : UInt32} {r r' : Registry TYPES PENDING}
variable {history events : List RequestEvent}

theorem offset_injective {i j : Nat} (hi : i < 2 ^ 32) (hj : j < 2 ^ 32)
    (h : sequenceCount + UInt32.ofNat i = sequenceCount + UInt32.ofNat j) : i = j := by
  have h' := congrArg UInt32.toNat ((UInt32.add_right_inj sequenceCount).mp h)
  rw [UInt32.toNat_ofNat', UInt32.toNat_ofNat', Nat.mod_eq_of_lt hi, Nat.mod_eq_of_lt hj] at h'
  exact h'

/-- No number is given out twice before the counter has gone round. -/
theorem numbers_nodup (h : Accounted sequenceCount r history)
    (hfew : (numbersOf history).length ≤ 2 ^ 32) : (numbersOf history).Nodup := by
  rw [h.numbers]
  refine List.Nodup.map_on ?_ List.nodup_range
  intro i hi j hj heq
  rw [List.mem_range] at hi hj
  exact offset_injective (by omega) (by omega) heq

theorem pending_nodup (h : Accounted sequenceCount r history)
    (hfew : (numbersOf history).length ≤ 2 ^ 32) : (r.pending.map (·.seqNum)).Nodup :=
  (h.numbers_nodup hfew).sublist (h.order.trans (trackedOf_sublist history))

theorem mem_numbers (h : Accounted sequenceCount r history) {request : PendingRequest}
    (hmem : request ∈ r.pending) : request.seqNum ∈ numbersOf history :=
  (h.order.trans (trackedOf_sublist history)).subset (List.mem_map_of_mem hmem)

/-- The next number is new. -/
theorem fresh (h : Accounted sequenceCount r history) (hfew : (numbersOf history).length < 2 ^ 32) :
    r.messageCount ∉ numbersOf history := by
  intro hmem
  rw [h.numbers, h.count] at hmem
  obtain ⟨i, hi, heq⟩ := List.mem_map.mp hmem
  rw [List.mem_range] at hi
  have := offset_injective (by omega) hfew heq
  omega

theorem fresh_pending (h : Accounted sequenceCount r history)
    (hfew : (numbersOf history).length < 2 ^ 32) : r.messageCount ∉ r.pending.map (·.seqNum) := by
  intro hmem
  obtain ⟨request, hrequest, heq⟩ := List.mem_map.mp hmem
  apply h.fresh hfew
  rw [← heq]
  exact h.mem_numbers hrequest

/-- Nothing has been said about the next number. -/
theorem fresh_events (h : Accounted sequenceCount r history)
    (hfew : (numbersOf history).length < 2 ^ 32) : eventsOf r.messageCount history = [] := by
  by_contra hne
  obtain ⟨nowMs, tracked, hmem⟩ := (h.ended _ (h.fresh_pending hfew)).mem_sent hne
  exact h.fresh hfew (mem_numbersOf (List.mem_of_mem_filter hmem))

theorem start (sequenceCount nextSweepMs : UInt32) :
    Accounted sequenceCount (resuming sequenceCount nextSweepMs : Registry TYPES PENDING) [] where
  numbers := rfl
  count := by simp [resuming, numbersOf]
  bounded := Nat.zero_le _
  order := List.Sublist.refl _
  waiting := fun _ h => absurd h List.not_mem_nil
  ended := fun _ _ => .unnumbered

/-- A number more. -/
theorem numbers_succ (h : Accounted sequenceCount r history) (nowMs : UInt32) (tracked : Bool) :
    numbersOf (history ++ [.sent nowMs r.messageCount tracked]) =
        (List.range (numbersOf (history ++ [.sent nowMs r.messageCount tracked])).length).map
          (fun i => sequenceCount + UInt32.ofNat i) ∧
      r.messageCount + 1 = sequenceCount +
        UInt32.ofNat (numbersOf (history ++ [.sent nowMs r.messageCount tracked])).length := by
  have hnumbers : numbersOf (history ++ [.sent nowMs r.messageCount tracked]) =
      numbersOf history ++ [r.messageCount] := numbersOf_append ..
  rw [hnumbers, List.length_append, List.length_singleton, List.range_succ, List.map_append,
    ← h.numbers, h.count]
  refine ⟨rfl, ?_⟩
  rw [UInt32.ofNat_add, UInt32.add_assoc]
  rfl

theorem quiet (h : Accounted sequenceCount r history) (hpending : r'.pending = r.pending)
    (hcount : r'.messageCount = r.messageCount) : Accounted sequenceCount r' (history ++ []) := by
  rw [List.append_nil]
  exact {
    numbers := h.numbers
    count := hcount.trans h.count
    bounded := by rw [hpending]; exact h.bounded
    order := by rw [hpending]; exact h.order
    waiting := by rw [hpending]; exact h.waiting
    ended := by rw [hpending]; exact h.ended }

theorem tracked (h : Accounted sequenceCount r history) (hfew : (numbersOf history).length < 2 ^ 32)
    {request : PendingRequest} (hroom : r.pending.length < PENDING)
    (hseq : request.seqNum = r.messageCount) (hretries : request.retries = 0)
    (htimeout : request.timeoutMs = defaultMessageTimeoutMs)
    (hpending : r'.pending = r.pending ++ [request]) (hcount : r'.messageCount = r.messageCount + 1) :
    Accounted sequenceCount r' (history ++ [.sent request.timestampMs request.seqNum true]) := by
  have hnew := h.fresh_events hfew
  have hfresh := h.fresh_pending hfew
  obtain ⟨hnumbers, hsucc⟩ := h.numbers_succ request.timestampMs true
  rw [← hseq] at hnumbers hsucc hnew hfresh
  refine ⟨hnumbers, hcount.trans (by rw [← hseq]; exact hsucc), ?_, ?_, ?_, ?_⟩
  · rw [hpending, List.length_append, List.length_singleton]
    omega
  · rw [hpending, List.map_append, trackedOf_append]
    exact h.order.append (List.Sublist.refl _)
  · intro q hq
    rw [hpending, List.mem_append, List.mem_singleton] at hq
    obtain hq | rfl := hq
    · have hne : request.seqNum ≠ q.seqNum := fun heq => hfresh (heq ▸ List.mem_map_of_mem hq)
      rw [eventsOf_append, eventsOf_other _ (by exact hne), List.append_nil]
      exact h.waiting q hq
    · rw [eventsOf_append, hnew, eventsOf_self _ (by rfl)]
      exact .sent hretries htimeout
  · intro seqNum habsent
    rw [hpending, List.map_append, List.mem_append, not_or] at habsent
    have hne : request.seqNum ≠ seqNum := by
      rintro rfl
      exact habsent.2 List.mem_cons_self
    rw [eventsOf_append, eventsOf_other _ (by exact hne), List.append_nil]
    exact h.ended seqNum habsent.1

theorem untracked (h : Accounted sequenceCount r history) (hfew : (numbersOf history).length < 2 ^ 32)
    {nowMs : UInt32} (hpending : r'.pending = r.pending)
    (hcount : r'.messageCount = r.messageCount + 1) :
    Accounted sequenceCount r' (history ++ [.sent nowMs r.messageCount false]) := by
  have hnew := h.fresh_events hfew
  have hfresh := h.fresh_pending hfew
  obtain ⟨hnumbers, hsucc⟩ := h.numbers_succ nowMs false
  refine ⟨hnumbers, hcount.trans hsucc, ?_, ?_, ?_, ?_⟩
  · rw [hpending]
    exact h.bounded
  · rw [hpending, trackedOf_append]
    exact h.order.trans (List.sublist_append_left _ _)
  · intro q hq
    rw [hpending] at hq
    have hne : r.messageCount ≠ q.seqNum := fun heq => hfresh (heq ▸ List.mem_map_of_mem hq)
    rw [eventsOf_append, eventsOf_other _ (by exact hne), List.append_nil]
    exact h.waiting q hq
  · intro seqNum habsent
    rw [hpending] at habsent
    rw [eventsOf_append]
    by_cases heq : r.messageCount = seqNum
    · subst heq
      rw [hnew, eventsOf_self _ (by rfl)]
      exact .untracked
    · rw [eventsOf_other _ (by exact heq), List.append_nil]
      exact h.ended seqNum habsent

theorem answered (h : Accounted sequenceCount r history)
    (hfew : (numbersOf history).length < 2 ^ 32) {index : Nat} {request : PendingRequest}
    (hget : r.pending[index]? = some request) (hpending : r'.pending = r.pending.eraseIdx index)
    (hcount : r'.messageCount = r.messageCount) :
    Accounted sequenceCount r' (history ++ [.replied request]) := by
  have hnumbers : numbersOf (history ++ [.replied request]) = numbersOf history := by
    rw [numbersOf_append]
    exact List.append_nil _
  have htracked : trackedOf (history ++ [.replied request]) = trackedOf history := by
    rw [trackedOf_append]
    exact List.append_nil _
  have hmem : request ∈ r.pending := List.mem_of_getElem? hget
  obtain ⟨hlt, hrequest⟩ := List.getElem?_eq_some_iff.mp hget
  have hsplit : r.pending = r.pending.take index ++ request :: r.pending.drop (index + 1) := by
    rw [← hrequest, List.getElem_cons_drop hlt, List.take_append_drop]
  have hnodup := h.pending_nodup (by omega)
  rw [List.eraseIdx_eq_take_drop_succ] at hpending
  rw [hsplit, List.map_append, List.map_cons, List.nodup_append, List.nodup_cons] at hnodup
  obtain ⟨_, ⟨hback, _⟩, hfront⟩ := hnodup
  have hgone : request.seqNum ∉ r'.pending.map (·.seqNum) := by
    rw [hpending, List.map_append, List.mem_append]
    rintro (hf | hb)
    · exact hfront _ hf _ List.mem_cons_self rfl
    · exact hback hb
  have hsub : r'.pending.Sublist r.pending := by
    rw [hpending, ← List.eraseIdx_eq_take_drop_succ]
    exact List.eraseIdx_sublist ..
  refine ⟨by rw [hnumbers]; exact h.numbers, by rw [hnumbers]; exact hcount.trans h.count,
    hsub.length_le.trans h.bounded, by rw [htracked]; exact (hsub.map _).trans h.order, ?_, ?_⟩
  · intro q hq
    have hne : request.seqNum ≠ q.seqNum := fun heq => hgone (heq ▸ List.mem_map_of_mem hq)
    rw [eventsOf_append, eventsOf_other _ (by exact hne), List.append_nil]
    exact h.waiting q (hsub.subset hq)
  · intro seqNum habsent
    rw [eventsOf_append]
    by_cases heq : request.seqNum = seqNum
    · subst heq
      rw [eventsOf_self _ (by rfl)]
      exact .replied rfl (h.waiting request hmem)
    · rw [eventsOf_other _ (by exact heq), List.append_nil]
      apply h.ended
      intro hin
      apply habsent
      rw [hsplit, List.map_append, List.map_cons, List.mem_append, List.mem_cons] at hin
      rw [hpending, List.map_append, List.mem_append]
      obtain hf | rfl | hb := hin
      · exact .inl hf
      · exact absurd rfl heq
      · exact .inr hb

theorem swept (h : Accounted sequenceCount r history)
    (hfew : (numbersOf history).length < 2 ^ 32) {nowMs : UInt32}
    (hpending : r'.pending = r.pending.filterMap (·.survivor nowMs))
    (hcount : r'.messageCount = r.messageCount) :
    Accounted sequenceCount r'
      (history ++ (r.pending.filterMap (·.report nowMs)).map (.ofExpiry nowMs)) := by
  have hnodup := h.pending_nodup (by omega)
  obtain ⟨hnone, hnone'⟩ := ofExpiry_numbers nowMs (r.pending.filterMap (·.report nowMs))
  generalize hevents : (r.pending.filterMap (·.report nowMs)).map (RequestEvent.ofExpiry nowMs) =
    events at hnone hnone' ⊢
  have hnumbers : numbersOf (history ++ events) = numbersOf history := by
    rw [numbersOf_append, hnone, List.append_nil]
  have htracked : trackedOf (history ++ events) = trackedOf history := by
    rw [trackedOf_append, hnone', List.append_nil]
  have hsub := survivors_sublist nowMs r.pending
  rw [← hpending] at hsub
  have hsaid : ∀ request ∈ r.pending, eventsOf request.seqNum (history ++ events) =
      eventsOf request.seqNum history ++ (request.report nowMs).toList.map (.ofExpiry nowMs) := by
    intro request hmem
    rw [eventsOf_append, ← hevents, swept_present hnodup hmem]
  refine ⟨by rw [hnumbers]; exact h.numbers, by rw [hnumbers]; exact hcount.trans h.count, ?_,
    by rw [htracked]; exact hsub.trans h.order, ?_, ?_⟩
  · rw [hpending]
    exact (List.length_filterMap_le ..).trans h.bounded
  · intro left hleft
    rw [hpending] at hleft
    obtain ⟨request, hmem, hsurvivor⟩ := List.mem_filterMap.mp hleft
    rw [survivor_seqNum hsurvivor, hsaid request hmem]
    obtain ⟨hkeep, hsilent⟩ | ⟨retried, hretried, hreport, hwaiting⟩ | ⟨hout, _, _⟩ :=
      (h.waiting request hmem).swept nowMs
    · rw [hkeep] at hsurvivor
      cases hsurvivor
      rw [hsilent]
      exact (List.append_nil _).symm ▸ h.waiting left hmem
    · rw [hretried] at hsurvivor
      cases hsurvivor
      rw [hreport]
      exact hwaiting
    · rw [hout] at hsurvivor
      cases hsurvivor
  · intro seqNum habsent
    by_cases hin : seqNum ∈ r.pending.map (·.seqNum)
    · obtain ⟨request, hmem, rfl⟩ := List.mem_map.mp hin
      rw [hsaid request hmem]
      have hnot : ∀ left, request.survivor nowMs ≠ some left := by
        intro left hleft
        apply habsent
        rw [← survivor_seqNum hleft, hpending]
        exact List.mem_map_of_mem (List.mem_filterMap.mpr ⟨request, hmem, hleft⟩)
      obtain ⟨hkeep, _⟩ | ⟨retried, hretried, _, _⟩ | ⟨_, hreport, hended⟩ :=
        (h.waiting request hmem).swept nowMs
      · exact absurd hkeep (hnot _)
      · exact absurd hretried (hnot _)
      · rw [hreport]
        exact hended
    · rw [eventsOf_append, ← hevents, swept_absent hin, List.append_nil]
      exact h.ended seqNum hin

theorem change (h : Accounted sequenceCount r history) (hfew : (numbersOf history).length < 2 ^ 32)
    (hchange : Change r r' events) : Accounted sequenceCount r' (history ++ events) := by
  cases hchange with
  | quiet hpending hcount => exact h.quiet hpending hcount
  | tracked hroom hseq hretries htimeout hpending hcount =>
    exact h.tracked hfew hroom hseq hretries htimeout hpending hcount
  | untracked hpending hcount => exact h.untracked hfew hpending hcount
  | answered hget hpending hcount => exact h.answered hfew hget hpending hcount
  | swept hpending hcount => exact h.swept hfew hpending hcount

end Accounted

theorem Run.accounted {sequenceCount nextSweepMs : UInt32} {r : Registry TYPES PENDING}
    {history : List RequestEvent} (hrun : Run sequenceCount nextSweepMs r history)
    (hfew : (numbersOf history).length < 2 ^ 32) : Accounted sequenceCount r history := by
  induction hrun with
  | start => exact .start sequenceCount nextSweepMs
  | @step r history op hrun ih =>
    rw [numbersOf_append, List.length_append] at hfew
    exact (ih (by omega)).change (by omega) (r.apply_change op)

/-- Every run that numbers fewer than `2 ^ 32` requests: outstanding numbers are distinct, no more
than there is room for and in the order of sending, and every number is still waiting or has ended
once. -/
theorem run_requests {sequenceCount nextSweepMs : UInt32} {r : Registry TYPES PENDING}
    {history : List RequestEvent} (hrun : Run sequenceCount nextSweepMs r history)
    (hfew : (numbersOf history).length < 2 ^ 32) :
    (r.pending.map (·.seqNum)).Nodup ∧ r.pending.length ≤ PENDING ∧
      (r.pending.map (·.seqNum)).Sublist (trackedOf history) ∧
      (∀ request ∈ r.pending, Waiting (eventsOf request.seqNum history) request) ∧
      ∀ seqNum, seqNum ∉ r.pending.map (·.seqNum) → Ended seqNum (eventsOf seqNum history) :=
  have h := hrun.accounted hfew
  ⟨h.pending_nodup (by omega), h.bounded, h.order, h.waiting, h.ended⟩

/-- A request nobody answers: three retries, then the timeout. -/
def silentPeer : List Op :=
  [.add ⟨0xA0⟩ .request, .onSerialize 5 ⟨0xA0⟩ 0, .onTick 150, .onTick 300, .onTick 450, .onTick 600]

theorem run_requests_silentPeer :
    Ended 7 (eventsOf 7 ([] ++ ((resuming 7 150 : Registry 2 1).runOps silentPeer).2)) :=
  (run_requests (Run.start.ops silentPeer) (by decide +kernel)).2.2.2.2 7 (by decide +kernel)

end Registry

end Bristlemouth
