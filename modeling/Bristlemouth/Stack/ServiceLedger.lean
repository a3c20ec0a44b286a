import Bristlemouth.Stack.ServiceCalls

/-!
# The accounts of a node's requests

Everything a node does with its requests is a step of a ledger: a request is listed under the next id, and
is taken off the list by an answer or by a timeout. The requests for power timings are the special entries,
and the callbacks they queue are the claims.
-/

set_option autoImplicit false

namespace Bristlemouth

open Config Pubsub Service Service.PowerInfo

namespace ServiceMark

def listed? : ServiceMark → Option UInt32
  | .listed id _ _ => some id
  | _ => none

/-- A request for power timings was listed. -/
def powerInfo? : ServiceMark → Option UInt32
  | .listed id true _ => some id
  | _ => none

def ended? : ServiceMark → Option UInt32
  | .ended id _ _ => some id
  | _ => none

/-- The request that ended and the callback that was dequeued. -/
def dequeued? : ServiceMark → Option (UInt32 × UInt32)
  | .ended id _ outcome => outcome.callback?.map (id, ·)
  | _ => none

/-- The callback that the application sees called. -/
def called? : ServiceMark → Option UInt32
  | .event (.powerInfoReply callback _) => some callback
  | _ => none

/-- The callback that an ended request calls. -/
def calls? : ServiceMark → Option UInt32
  | .ended _ _ (.called callback _) => some callback
  | _ => none

end ServiceMark

namespace ServiceStores

/-- The ids listed now. -/
def ids (s : ServiceStores) : List UInt32 := s.requests.list.map Request.id

/-- Every id listed so far. -/
def issued (s : ServiceStores) : List UInt32 := s.history.filterMap ServiceMark.listed?

/-- Those of them that `power_info_request` made. -/
def powerInfoIds (s : ServiceStores) : List UInt32 := s.history.filterMap ServiceMark.powerInfo?

def endedIds (s : ServiceStores) : List UInt32 := s.history.filterMap ServiceMark.ended?

def dequeued (s : ServiceStores) : List (UInt32 × UInt32) := s.history.filterMap ServiceMark.dequeued?

def calledIds (s : ServiceStores) : List UInt32 := s.history.filterMap ServiceMark.called?

def ledger (s : ServiceStores) : Ledger UInt32 where
  opened := s.issued
  special := s.powerInfoIds
  closed := s.endedIds
  taken := s.dequeued
  live := s.ids
  waiting := s.powerInfo.waiting
  queue := s.powerInfo.queue

/-- What else a history tells. -/
structure Recorded (s : ServiceStores) : Prop where
  length_le : s.ids.length ≤ maxServiceRequests
  issued_eq : s.issued = (List.range s.issued.length).map UInt32.ofNat
  count_eq : s.requests.requestCount = UInt32.ofNat s.issued.length
  called_eq : s.calledIds = s.history.filterMap ServiceMark.calls?
  queued : ∀ id queued, ServiceMark.listed id true queued ∈ s.history → queued = true

theorem recorded_new : new.Recorded where
  length_le := Nat.zero_le _
  issued_eq := rfl
  count_eq := rfl
  called_eq := rfl
  queued := nofun

/-- Where nothing was listed, only the calls are to be looked at. -/
theorem Recorded.of_issued {s s' : ServiceStores} (h : s.Recorded) {marks : List ServiceMark}
    (hhistory : s'.history = s.history ++ marks) (hnone : marks.filterMap ServiceMark.listed? = [])
    (hcount : s'.requests.requestCount = s.requests.requestCount) (hle : s'.ids.length ≤ s.ids.length)
    (hcalled : marks.filterMap ServiceMark.called? = marks.filterMap ServiceMark.calls?) : s'.Recorded := by
  have hissued : s'.issued = s.issued := by
    rw [issued, hhistory, List.filterMap_append, hnone, List.append_nil]
    rfl
  exact {
    length_le := hle.trans h.length_le
    issued_eq := by
      rw [hissued]
      exact h.issued_eq
    count_eq := by
      rw [hissued, hcount]
      exact h.count_eq
    called_eq := by
      rw [calledIds, hhistory, List.filterMap_append, List.filterMap_append, hcalled, ← h.called_eq]
      rfl
    queued := by
      intro id queued hmem
      rw [hhistory] at hmem
      rcases List.mem_append.mp hmem with hold | hnew
      · exact h.queued id queued hold
      · have hlisted := List.filterMap_eq_nil_iff.mp hnone _ hnew
        cases hlisted }

variable {s : ServiceStores}

/-- The history of a ledger, and what the stores hold. -/
theorem ledger_eq (s : ServiceStores) {s' : ServiceStores} {marks : List ServiceMark} (hhistory : s'.history = s.history ++ marks) :
    s'.ledger =
      { opened := s.issued ++ marks.filterMap ServiceMark.listed?
        special := s.powerInfoIds ++ marks.filterMap ServiceMark.powerInfo?
        closed := s.endedIds ++ marks.filterMap ServiceMark.ended?
        taken := s.dequeued ++ marks.filterMap ServiceMark.dequeued?
        live := s'.ids
        waiting := s'.powerInfo.waiting
        queue := s'.powerInfo.queue } := by
  simp only [ledger, issued, powerInfoIds, endedIds, dequeued, hhistory, List.filterMap_append]

theorem ledger_events (s : ServiceStores) (event : ServiceEvent) : (s.events event).ledger = s.ledger := by
  have hhistory : (s.events event).history = s.history ++ [.event event] := rfl
  rw [ledger_eq s hhistory]
  simp only [List.filterMap_cons, List.filterMap_nil, ServiceMark.listed?, ServiceMark.powerInfo?,
    ServiceMark.ended?, ServiceMark.dequeued?, List.append_nil]
  rfl

theorem Recorded.events (h : s.Recorded) {event : ServiceEvent}
    (hevent : ServiceMark.called? (.event event) = none) : (s.events event).Recorded := by
  have hhistory : (s.events event).history = s.history ++ [.event event] := rfl
  refine h.of_issued hhistory rfl rfl (Nat.le_refl _) ?_
  rw [List.filterMap_cons, hevent]
  rfl

/-! ### A request is listed -/

theorem add_cases {N NAME : Nat} (r : Requests N NAME) (service : Bytes) (timeoutS nowMs : UInt32) :
    r.add service timeoutS nowMs = (r, none) ∨
      ∃ r' : Requests N NAME, r.add service timeoutS nowMs = (r', some r.requestCount) ∧ r.list.length ≠ N ∧
        r'.list.map Request.id = r.list.map Request.id ++ [r.requestCount] ∧
        r'.requestCount = r.requestCount + 1 := by
  by_cases hfull : r.list.length = N ∨ service.length > NAME
  · left
    rw [Requests.add, dif_pos hfull]
  · right
    refine ⟨_, by rw [Requests.add, dif_neg hfull], fun heq => hfull (Or.inl heq), ?_, rfl⟩
    rw [List.map_append]
    rfl

/-- What listing a request keeps of a history. -/
theorem Recorded.listed {s' : ServiceStores} (h : s.Recorded) {powerInfo queued : Bool}
    (hhistory : s'.history = s.history ++ [.listed s.requests.requestCount powerInfo queued])
    (hcount : s'.requests.requestCount = s.requests.requestCount + 1)
    (hle : s'.ids.length ≤ maxServiceRequests) (hqueued : powerInfo = true → queued = true) :
    s'.Recorded := by
  have hissued : s'.issued = s.issued ++ [s.requests.requestCount] := by
    rw [issued, hhistory, List.filterMap_append]
    rfl
  have hlength : s'.issued.length = s.issued.length + 1 := by
    rw [hissued, List.length_append]
    rfl
  exact {
    length_le := hle
    issued_eq := by
      rw [hlength, List.range_succ, List.map_append, ← h.issued_eq, hissued, h.count_eq]
      rfl
    count_eq := by
      rw [hcount, hlength, h.count_eq, UInt32.ofNat_add]
      rfl
    called_eq := by
      rw [calledIds, hhistory, List.filterMap_append, List.filterMap_append, ← h.called_eq]
      rfl
    queued := by
      intro id queued' hmem
      rw [hhistory] at hmem
      rcases List.mem_append.mp hmem with hold | hnew
      · exact h.queued id queued' hold
      · rcases List.mem_singleton.mp hnew with ⟨rfl, rfl, rfl⟩
        exact hqueued rfl }

theorem step_of_listed {s' : ServiceStores} {id : UInt32} {queued : Bool}
    (hhistory : s'.history = s.history ++ [.listed id false queued]) (hids : s'.ids = s.ids ++ [id])
    (hpower : s'.powerInfo = s.powerInfo) : Ledger.Step s.ledger s'.ledger := by
  rw [ledger_eq s hhistory, hids, hpower]
  simp only [List.filterMap_cons, List.filterMap_nil, ServiceMark.listed?, ServiceMark.powerInfo?,
    ServiceMark.ended?, ServiceMark.dequeued?, List.append_nil]
  exact .opens s.ledger id

theorem step_of_listed_powerInfo {s' : ServiceStores} {id : UInt32} {queued : Bool}
    (hhistory : s'.history = s.history ++ [.listed id true queued]) (hids : s'.ids = s.ids ++ [id])
    (hwaiting : s'.powerInfo.waiting = s.powerInfo.waiting ++ [id])
    (hqueue : s'.powerInfo.queue = s.powerInfo.queue ++ [id]) : Ledger.Step s.ledger s'.ledger := by
  rw [ledger_eq s hhistory, hids, hwaiting, hqueue]
  simp only [List.filterMap_cons, List.filterMap_nil, ServiceMark.listed?, ServiceMark.powerInfo?,
    ServiceMark.ended?, ServiceMark.dequeued?, List.append_nil]
  exact .opensSpecial s.ledger id

/-- A listed request takes the next id, and there is always room for its callback. -/
theorem list_cases (hroom : s.powerInfo.waiting.length ≤ s.ids.length) (h : s.Recorded) (service : Bytes)
    (timeoutS nowMs : UInt32) (powerInfo : Bool) :
    s.list service timeoutS nowMs powerInfo = (s, none) ∨
      ∃ s' id, s.list service timeoutS nowMs powerInfo = (s', some id) ∧
        Ledger.Step s.ledger s'.ledger ∧ s'.Recorded := by
  rcases add_cases s.requests service timeoutS nowMs with hnone | ⟨requests, hadd, hfull, hids, hcount⟩
  · left
    rw [ServiceStores.list, hnone]
  · right
    have hlength : s.ids.length = s.requests.list.length := List.length_map _
    have hlt : s.ids.length < maxServiceRequests := Nat.lt_of_le_of_ne h.length_le (hlength ▸ hfull)
    obtain ⟨hqueued, hqueue, hwaiting⟩ :=
      Callbacks.push_of_room (Nat.lt_of_le_of_lt hroom hlt) s.requests.requestCount
    have hle : (requests.list.map Request.id).length ≤ maxServiceRequests := by
      rw [hids, List.length_append]
      exact hlt
    cases powerInfo with
    | true =>
      let pushed := s.powerInfo.push s.requests.requestCount
      let s' : ServiceStores :=
        ⟨requests, pushed.1, s.history ++ [.listed s.requests.requestCount true pushed.2]⟩
      have hhistory : s'.history = s.history ++ [.listed s.requests.requestCount true pushed.2] := rfl
      refine ⟨s', s.requests.requestCount, ?_, step_of_listed_powerInfo hhistory hids hwaiting hqueue,
        h.listed hhistory hcount hle fun _ => hqueued⟩
      rw [ServiceStores.list, hadd]
      rfl
    | false =>
      let s' : ServiceStores :=
        ⟨requests, s.powerInfo, s.history ++ [.listed s.requests.requestCount false false]⟩
      have hhistory : s'.history = s.history ++ [.listed s.requests.requestCount false false] := rfl
      refine ⟨s', s.requests.requestCount, ?_, step_of_listed hhistory hids rfl,
        h.listed hhistory hcount hle nofun⟩
      rw [ServiceStores.list, hadd]
      rfl

/-! ### A request ends -/

theorem ledger_reportEnd (s : ServiceStores) (event : ServiceEvent) (outcome : Service.PowerInfo.Ended) :
    (s.reportEnd event outcome).ledger = s.ledger := by
  cases outcome with
  | other => exact ledger_events s event
  | dropped callback => rfl
  | called callback reply => exact ledger_events s _

theorem Recorded.reportEnd {s' : ServiceStores} (h : s.Recorded) {id : UInt32} {answered : Bool}
    {outcome : Service.PowerInfo.Ended} {event : ServiceEvent}
    (hhistory : s'.history = s.history ++ [.ended id answered outcome])
    (hcount : s'.requests.requestCount = s.requests.requestCount) (hle : s'.ids.length ≤ s.ids.length)
    (hevent : ServiceMark.called? (.event event) = none) : (s'.reportEnd event outcome).Recorded := by
  cases outcome with
  | other =>
    have hmarks : (s'.reportEnd event .other).history = s.history ++ [.ended id answered .other, .event event] := by
      change s'.history ++ [.event event] = _
      rw [hhistory, List.append_assoc]
      rfl
    refine h.of_issued hmarks rfl hcount hle ?_
    rw [List.filterMap_cons, List.filterMap_cons, hevent]
    rfl
  | dropped callback => exact h.of_issued hhistory rfl hcount hle rfl
  | called callback reply =>
    have hmarks : (s'.reportEnd event (.called callback reply)).history =
        s.history ++ [.ended id answered (.called callback reply), .event (.powerInfoReply callback reply)] := by
      change s'.history ++ [.event (.powerInfoReply callback reply)] = _
      rw [hhistory, List.append_assoc]
      rfl
    exact h.of_issued hmarks rfl hcount hle rfl

/-- The request goes off the list `live`, which has it, and a callback with it if one is waiting. -/
theorem step_of_ended (u : Usize) {s' : ServiceStores} {live before after : List UInt32} {id : UInt32}
    {answered : Bool} {reply : Option Bytes} (hlive : live = before ++ id :: after)
    (hpower : s'.powerInfo = (s.powerInfo.onEnd u id reply).1)
    (hhistory : s'.history = s.history ++ [.ended id answered (s.powerInfo.onEnd u id reply).2]) :
    Ledger.Step (s.ledger.withLive live) (s'.ledger.withLive (before ++ after)) := by
  have hledger : s'.ledger.withLive (before ++ after) =
      ({ s.ledger with
        live := before ++ after, closed := s.endedIds ++ [id]
        taken := s.dequeued ++ ((s.powerInfo.onEnd u id reply).2.callback?.map (id, ·)).toList
        waiting := (s.powerInfo.onEnd u id reply).1.waiting
        queue := (s.powerInfo.onEnd u id reply).1.queue } : Ledger UInt32) := by
    rw [ledger_eq s hhistory, hpower]
    simp only [List.filterMap_cons, List.filterMap_nil, ServiceMark.listed?, ServiceMark.powerInfo?,
      ServiceMark.ended?, ServiceMark.dequeued?, List.append_nil]
    cases (s.powerInfo.onEnd u id reply).2 with
    | other => rfl
    | dropped callback => rfl
    | called callback reply => rfl
  rw [hledger]
  rcases Callbacks.onEnd_cases u s.powerInfo id reply with ⟨hnot, heq⟩ |
    ⟨first, rest, oldest, queue, hwaiting, hqueue, hwaiting', hqueue', houtcome⟩
  · rw [heq]
    have hstep := Ledger.Step.closes (s.ledger.withLive live) hlive hnot
    simpa [Service.PowerInfo.Ended.callback?, ledger, Ledger.withLive] using hstep
  · rw [hwaiting', hqueue', houtcome, Callbacks.outcome_callback?]
    exact Ledger.Step.closesSpecial (s.ledger.withLive live) hlive hwaiting hqueue

/-- The request that is taken is on the list, and the rest stay as they are. -/
theorem take_cases {N NAME : Nat} (r : Requests N NAME) (id : UInt32) :
    (id ∉ r.list.map Request.id ∧ r.take id = none) ∨
      ∃ (request : Request NAME) (r' : Requests N NAME) (before after : List UInt32),
        r.take id = some (request, r') ∧ request.id = id ∧ r.list.map Request.id = before ++ id :: after ∧
        r'.list.map Request.id = before ++ after ∧ r'.requestCount = r.requestCount := by
  cases hindex : r.list.findIdx? fun request => request.id = id with
  | none =>
    left
    have hnone := List.findIdx?_eq_none_iff.mp hindex
    refine ⟨?_, by simp [Requests.take, hindex]⟩
    intro hmem
    obtain ⟨request, hrequest, hid⟩ := List.mem_map.mp hmem
    have hne := hnone request hrequest
    rw [decide_eq_false_iff_not] at hne
    exact hne hid
  | some index =>
    right
    obtain ⟨hlt, hid, -⟩ := List.findIdx?_eq_some_iff_getElem.mp hindex
    rw [decide_eq_true_eq] at hid
    refine ⟨r.list[index], { r with list := r.list.eraseIdx index }, (r.list.take index).map Request.id,
      (r.list.drop (index + 1)).map Request.id, ?_, hid, ?_, ?_, rfl⟩
    · simp [Requests.take, hindex, List.getElem?_eq_getElem hlt]
    · rw [← hid, ← List.map_cons, ← List.map_append, ← List.drop_eq_getElem_cons hlt, List.take_append_drop]
    · rw [List.eraseIdx_eq_take_drop_succ, List.map_append]

/-- The part of the data that arrived. -/
def replyData (header : ReplyHeader) (body : Bytes) : Bytes :=
  let data := body.drop ReplyHeader.len
  data.take (min header.dataSize.toNat data.length)

theorem onReply_answered {N NAME : Nat} {r r' : Requests N NAME} {nodeId : UInt64} {body : Bytes}
    {header : ReplyHeader} {request : Request NAME} (hdecode : ReplyHeader.decode body = .ok header)
    (htarget : header.targetNodeId = nodeId) (htake : r.take header.id = some (request, r')) :
    r.onReply nodeId body = (r', .answered request (replyData header body)) := by
  rw [Requests.onReply, hdecode]
  dsimp only
  rw [if_neg (fun hne => hne htarget), htake]
  rfl

theorem answerRequest_cases (u : Usize) (nodeId : UInt64) (body : Bytes) (s : ServiceStores) :
    s.answerRequest u nodeId body = s ∨
      ∃ header, ReplyHeader.decode body = .ok header ∧ header.targetNodeId = nodeId ∧ header.id ∈ s.ids ∧
        Ledger.Step s.ledger (s.answerRequest u nodeId body).ledger ∧
        (s.Recorded → (s.answerRequest u nodeId body).Recorded) := by
  cases hdecode : ReplyHeader.decode body with
  | error e =>
    left
    simp only [answerRequest, Requests.onReply, hdecode]
  | ok header =>
    by_cases htarget : header.targetNodeId = nodeId
    · rcases take_cases s.requests header.id with ⟨-, htake⟩ |
        ⟨request, requests, before, after, htake, hid, hids, hids', hcount⟩
      · left
        simp only [answerRequest, Requests.onReply, hdecode, htarget, htake]
        simp
      · right
        refine ⟨header, rfl, htarget, ?_, ?_, ?_⟩
        · rw [ids, hids]
          exact List.mem_append_right _ List.mem_cons_self
        all_goals
          rw [answerRequest, onReply_answered hdecode htarget htake]
          dsimp only
          generalize houtcome : s.powerInfo.onEnd u request.id (some (replyData header body)) = outcome
          generalize hs' : (⟨requests, outcome.1, s.history ++ [.ended request.id true outcome.2]⟩ :
            ServiceStores) = s'
          have hhistory : s'.history = s.history ++ [.ended request.id true outcome.2] := by rw [← hs']
          have hends : s'.ids = before ++ after := by rw [← hids', ← hs', ids]
        · rw [ledger_reportEnd]
          have hpower : s'.powerInfo = outcome.1 := by rw [← hs']
          rw [← houtcome] at hpower hhistory
          have hstep := step_of_ended u (hid ▸ hids) hpower hhistory
          rw [← hends] at hstep
          exact hstep
        · intro h
          refine h.reportEnd hhistory ?_ ?_ rfl
          · rw [← hs']
            exact hcount
          · rw [hends, ids, hids, List.length_append, List.length_append, List.length_cons]
            omega
    · left
      simp only [answerRequest, Requests.onReply, hdecode]
      rw [if_pos htarget]

/-! ### Deliveries and sweeps -/

/-- Steps of the ledger lead from one state of the stores to the other. -/
structure Moves (s s' : ServiceStores) : Prop where
  steps : Relation.ReflTransGen Ledger.Step s.ledger s'.ledger
  recorded : s.Recorded → s'.Recorded

theorem Moves.refl (s : ServiceStores) : Moves s s := ⟨.refl, id⟩

theorem Moves.trans {s s' s'' : ServiceStores} (h : Moves s s') (h' : Moves s' s'') : Moves s s'' :=
  ⟨h.steps.trans h'.steps, fun hrecorded => h'.recorded (h.recorded hrecorded)⟩

theorem moves_events (s : ServiceStores) {event : ServiceEvent}
    (hevent : ServiceMark.called? (.event event) = none) : Moves s (s.events event) where
  steps := by rw [ledger_events]
  recorded := fun h => h.events hevent

theorem moves_answerRequest (u : Usize) (nodeId : UInt64) (body : Bytes) (s : ServiceStores) :
    Moves s (s.answerRequest u nodeId body) := by
  rcases answerRequest_cases u nodeId body s with hsame | ⟨header, -, -, -, hstep, hrecorded⟩
  · rw [hsame]
    exact .refl s
  · exact ⟨.single hstep, hrecorded⟩

theorem moves_deliverEach (u : Usize) (nodeId : UInt64) (topic : Bytes) (kind version : UInt8) (data : Bytes)
    (callbacks : List (Bytes × Subscriber)) (replied : Bool) (s : ServiceStores) :
    Moves s (s.deliverEach u nodeId topic kind version data replied callbacks) := by
  induction callbacks generalizing replied s with
  | nil => exact .refl s
  | cons callback rest ih =>
    obtain ⟨subscription, subscriber⟩ := callback
    cases subscriber with
    | application => exact (moves_events s rfl).trans (ih replied _)
    | service => exact ih replied s
    | reply =>
      refine Moves.trans ?_ (ih true _)
      cases replied with
      | true => exact .refl s
      | false => exact moves_answerRequest u nodeId data s

theorem requests_reportEnd (s : ServiceStores) (event : ServiceEvent) (outcome : Service.PowerInfo.Ended) :
    (s.reportEnd event outcome).requests = s.requests := by
  cases outcome with
  | other => rfl
  | dropped callback => rfl
  | called callback reply => rfl

/-- The request that expires is taken off the list `live`. -/
theorem expire_spec (u : Usize) (s : ServiceStores) (request : Request serviceNameBytes)
    (before after : List UInt32) :
    Ledger.Step (s.ledger.withLive (before ++ request.id :: after))
      ((s.expire u request).ledger.withLive (before ++ after)) ∧
    (s.expire u request).requests = s.requests ∧ (s.Recorded → (s.expire u request).Recorded) := by
  unfold expire
  dsimp only
  generalize houtcome : s.powerInfo.onEnd u request.id none = outcome
  generalize hs' : ({ s with
    powerInfo := outcome.1, history := s.history ++ [.ended request.id false outcome.2] } :
      ServiceStores) = s'
  have hhistory : s'.history = s.history ++ [.ended request.id false outcome.2] := by rw [← hs']
  have hrequests : s'.requests = s.requests := by rw [← hs']
  refine ⟨?_, ?_, ?_⟩
  · rw [ledger_reportEnd]
    have hpower : s'.powerInfo = outcome.1 := by rw [← hs']
    rw [← houtcome] at hpower hhistory
    exact step_of_ended u rfl hpower hhistory
  · rw [requests_reportEnd, hrequests]
  · intro h
    refine h.reportEnd hhistory (by rw [hrequests]) ?_ rfl
    rw [ids, hrequests]
    exact Nat.le_refl _

/-- The list as the sweep has left it so far, and the requests that it has still to look at. -/
theorem expire_all (u : Usize) (nowMs : UInt32) (rest : List (Request serviceNameBytes))
    (done : List UInt32) (s : ServiceStores) :
    let s' := (rest.filter (·.expiredAt nowMs)).foldl (expire u) s
    Relation.ReflTransGen Ledger.Step (s.ledger.withLive (done ++ rest.map Request.id))
      (s'.ledger.withLive
        (done ++ (rest.filter fun request => !request.expiredAt nowMs).map Request.id)) ∧
    s'.requests = s.requests ∧ (s.Recorded → s'.Recorded) := by
  induction rest generalizing done s with
  | nil => exact ⟨.refl, rfl, id⟩
  | cons request rest ih =>
    dsimp only
    by_cases hexpired : request.expiredAt nowMs = true
    · have hgone : (request :: rest).filter (·.expiredAt nowMs) = request :: rest.filter (·.expiredAt nowMs) :=
        List.filter_cons_of_pos hexpired
      have hleft : (request :: rest).filter (fun request => !request.expiredAt nowMs) =
          rest.filter fun request => !request.expiredAt nowMs := List.filter_cons_of_neg (by simp [hexpired])
      obtain ⟨hstep, hrequests, hrecorded⟩ := expire_spec u s request done (rest.map Request.id)
      obtain ⟨hsteps, hrequests', hrecorded'⟩ := ih done (s.expire u request)
      rw [hgone, hleft]
      exact ⟨.head hstep hsteps, hrequests'.trans hrequests, fun h => hrecorded' (hrecorded h)⟩
    · have hgone : (request :: rest).filter (·.expiredAt nowMs) = rest.filter (·.expiredAt nowMs) :=
        List.filter_cons_of_neg hexpired
      have hleft : (request :: rest).filter (fun request => !request.expiredAt nowMs) =
          request :: rest.filter fun request => !request.expiredAt nowMs :=
        List.filter_cons_of_pos (by simp [hexpired])
      obtain ⟨hsteps, hrest⟩ := ih (done ++ [request.id]) s
      rw [hgone, hleft]
      rw [List.append_assoc, List.append_assoc] at hsteps
      exact ⟨hsteps, hrest⟩

theorem onTick_cases {N NAME : Nat} (r : Requests N NAME) (nowMs : UInt32) :
    r.onTick nowMs = (r, []) ∨ ∃ r' : Requests N NAME,
      r.onTick nowMs = (r', r.list.filter (·.expiredAt nowMs)) ∧
      r'.list = r.list.filter (fun request => !request.expiredAt nowMs) ∧
      r'.requestCount = r.requestCount := by
  by_cases hdue : (nowMs - r.nextSweepMs).toNat ≥ 2 ^ 31
  · left
    rw [Requests.onTick, if_pos hdue]
  · right
    have htick : r.onTick nowMs = _ := if_neg hdue
    dsimp only at htick
    rw [Requests.sweep_eq] at htick
    exact ⟨_, htick, rfl, rfl⟩

theorem moves_onServiceExpiry (u : Usize) (nowMs : UInt32) (s : ServiceStores) :
    Moves s (s.onServiceExpiry u nowMs) := by
  rcases onTick_cases s.requests nowMs with hsame | ⟨requests, htick, hlist, hcount⟩
  · rw [onServiceExpiry, hsame]
    exact .refl s
  · rw [onServiceExpiry, htick]
    dsimp only
    generalize hswept : ({ s with requests } : ServiceStores) = swept
    obtain ⟨hsteps, hrequests, hrecorded⟩ := expire_all u nowMs s.requests.list [] swept
    rw [List.nil_append, List.nil_append, ← hlist] at hsteps
    have hledger : swept.ledger.withLive s.ids = s.ledger := by rw [← hswept]; rfl
    generalize hs' : (s.requests.list.filter (·.expiredAt nowMs)).foldl (expire u) swept = s' at *
    have hids : s'.ids = requests.list.map Request.id := by rw [ids, hrequests, ← hswept]
    refine ⟨?_, fun h => hrecorded ?_⟩
    · rw [← hids] at hsteps
      exact hledger ▸ hsteps
    · have hhistory : swept.history = s.history ++ [] := by rw [← hswept, List.append_nil]
      refine h.of_issued hhistory rfl ?_ ?_ rfl
      · rw [← hswept]
        exact hcount
      · rw [← hswept, ids, ids, List.length_map, List.length_map, hlist]
        exact List.length_filter_le _ _

end ServiceStores

open ServiceStores

namespace ServiceNode

variable {W : Type} {RESOURCES : Nat} (m : ServiceHandlers W) (u : Usize) (node : ServiceNode W RESOURCES)

theorem stores_subscribeAs (topic : Bytes) (subscriber : Subscriber) :
    (node.subscribeAs topic subscriber).1.stores = node.stores := by
  unfold subscribeAs
  split
  · rfl
  · split
    · rfl
    · rfl

theorem moves_deliverLocally (topic : Bytes) (kind version : UInt8) (data : Bytes) :
    Moves node.stores (node.deliverLocally u topic kind version data).stores :=
  moves_deliverEach u node.nodeId topic kind version data _ false node.stores

theorem moves_sendRequest (tx : Bytes) (id : UInt32) (service data : Bytes) :
    Moves node.stores (node.sendRequest u tx id service data).1.stores := by
  unfold sendRequest
  split
  · exact .refl _
  · rename_i buf len _
    have hstores := stores_subscribeAs node (buf.take len) .reply
    split
    · rename_i node' e hsubscribe
      rw [hsubscribe] at hstores
      rw [hstores]
      exact .refl _
    · rename_i node' hsubscribe
      rw [hsubscribe] at hstores
      rw [← hstores]
      split
      · exact .refl _
      · dsimp only
        split
        · exact .refl _
        · split
          · exact .refl _
          · split
            · exact moves_deliverLocally u node' _ _ _ _
            · exact moves_deliverLocally u node' _ _ _ _

theorem moves_requestWith (hroom : node.stores.powerInfo.waiting.length ≤ node.stores.ids.length)
    (h : node.stores.Recorded) (tx : Bytes) (nowMs : UInt32) (service data : Bytes) (timeoutS : UInt32)
    (powerInfo : Bool) :
    Moves node.stores (node.requestWith u tx nowMs service data timeoutS powerInfo).1.stores := by
  unfold requestWith
  split
  · exact .refl _
  · rcases list_cases hroom h service timeoutS nowMs powerInfo with hfull | ⟨s, id, hlist, hstep, hrecorded⟩
    · rw [hfull]
      exact .refl _
    · rw [hlist]
      have hlisted : Moves node.stores s := ⟨.single hstep, fun _ => hrecorded⟩
      exact hlisted.trans (moves_sendRequest u { node with stores := s } tx id service data)

theorem moves_publishWith (tx topic : Bytes) (kind version : UInt8) (data : Bytes) :
    Moves node.stores (node.publishWith u tx topic kind version data).1.stores := by
  have hdeliver := moves_deliverLocally u node topic kind version data
  unfold publishWith
  split
  · exact .refl _
  · exact .refl _
  · dsimp only
    split
    · exact hdeliver
    · split
      · exact hdeliver
      · split
        · exact hdeliver
        · exact hdeliver

theorem stores_serve (nowMs : UInt32) (source : UInt64) (publication : Publication) (d : Delivery W) :
    (node.serve m nowMs source publication d).stores = d.stores := by
  unfold serve
  split
  · dsimp only
    split
    · rfl
    · split
      · rfl
      · split
        · rfl
        · split
          · rfl
          · rfl
  · rfl

theorem moves_deliverEach (nowMs : UInt32) (source : UInt64) (publication : Publication)
    (callbacks : List (Bytes × Subscriber)) (served replied : Bool) (d : Delivery W) :
    Moves d.stores (node.deliverEach m u nowMs source publication served replied callbacks d).stores := by
  induction callbacks generalizing served replied d with
  | nil => exact .refl _
  | cons callback rest ih =>
    obtain ⟨subscription, subscriber⟩ := callback
    cases subscriber with
    | application =>
      refine Moves.trans ?_ (ih served replied _)
      exact moves_events d.stores rfl
    | service =>
      refine Moves.trans ?_ (ih true replied _)
      cases served with
      | true => exact .refl _
      | false =>
        have hstores := stores_serve m node nowMs source publication d
        rw [if_neg Bool.false_ne_true, hstores]
        exact .refl _
    | reply =>
      refine Moves.trans ?_ (ih served true _)
      cases replied with
      | true => exact .refl _
      | false => exact moves_answerRequest u node.nodeId publication.data d.stores

theorem moves_deliverPublication (tx : Bytes) (nowMs : UInt32) (source : UInt64) (publication : Publication) :
    Moves node.stores (node.deliverPublication m u tx nowMs source publication).1.stores := by
  have hdeliver := moves_deliverEach m u node nowMs source publication
    (matchingEach node.subscriptions publication.topic) false false ⟨node.services, tx, none, node.stores⟩
  unfold deliverPublication
  dsimp only
  generalize node.deliverEach m u nowMs source publication false false _ _ = d at *
  split
  · exact hdeliver
  · split
    · exact hdeliver
    · refine hdeliver.trans ?_
      split
      · exact moves_deliverLocally u { node with services := d.services, stores := d.stores } _ _ _ _
      · exact moves_deliverLocally u { node with services := d.services, stores := d.stores } _ _ _ _

theorem moves_onFrame (tx : Bytes) (nowMs : UInt32) (frame : Bytes) :
    Moves node.stores (node.onFrame m u tx nowMs frame).1.stores := by
  unfold onFrame
  split
  · exact .refl _
  · split
    · split
      · exact .refl _
      · exact moves_deliverPublication m u node tx nowMs _ _
    · exact .refl _

theorem stores_listService (name : Bytes) (handler : ServiceHandler) :
    (node.listService name handler).1.stores = node.stores := by
  unfold listService
  split
  · rfl
  · rename_i serviceTable _
    dsimp only
    split
    · rfl
    · rename_i buf len _
      have hstores := stores_subscribeAs { node with serviceTable } (buf.take len) .service
      split
      · rename_i hsubscribe
        rw [hsubscribe] at hstores
        exact hstores
      · rename_i hsubscribe
        rw [hsubscribe] at hstores
        exact hstores

theorem stores_unregisterService (name : Bytes) : (node.unregisterService name).1.stores = node.stores := by
  unfold unregisterService
  split
  · rfl
  · split
    · rfl
    · rfl

/-- What one call does with the stores. -/
theorem moves_call (hroom : node.stores.powerInfo.waiting.length ≤ node.stores.ids.length)
    (h : node.stores.Recorded) (c : ServiceCall W) : Moves node.stores (node.call m u c).stores := by
  cases c with
  | subscribe topic =>
    have hstores := stores_subscribeAs node topic .application
    rw [call, ServiceNode.subscribe, hstores]
    exact .refl _
  | unsubscribe topic => exact .refl _
  | listService name handler =>
    rw [call, stores_listService]
    exact .refl _
  | unregisterService name =>
    rw [call, stores_unregisterService]
    exact .refl _
  | services services => exact .refl _
  | serviceRequest tx nowMs service data timeoutS => exact moves_requestWith u node hroom h _ _ _ _ _ _
  | powerInfoRequest tx nowMs timeoutS => exact moves_requestWith u node hroom h _ _ _ _ _ _
  | publish tx topic kind version data => exact moves_publishWith u node tx topic kind version data
  | frame tx nowMs frame => exact moves_onFrame m u node tx nowMs frame
  | expiry nowMs => exact moves_onServiceExpiry u nowMs node.stores

/-! ### Runs -/

theorem run_stores (hnew : node.stores = .new) (calls : List (ServiceCall W)) :
    (node.run m u calls).stores.Recorded ∧
      (node.run m u calls).stores.powerInfo.waiting.Subperm (node.run m u calls).stores.ids ∧
      ((node.run m u calls).stores.issued.Nodup → (node.run m u calls).stores.ledger.Balanced) := by
  induction calls using List.reverseRecOn with
  | nil =>
    change node.stores.Recorded ∧ _ ∧ (_ → node.stores.ledger.Balanced)
    rw [run, List.foldl_nil, hnew]
    exact ⟨recorded_new, List.Subperm.refl _, fun _ => Ledger.balanced_empty⟩
  | append_singleton calls c ih =>
    have hrun : node.run m u (calls ++ [c]) = (node.run m u calls).call m u c := by
      rw [run, List.foldl_append]
      rfl
    obtain ⟨hrecorded, hcovered, hbalanced⟩ := ih
    have hmoves := moves_call m u _ hcovered.length_le hrecorded c
    rw [hrun]
    refine ⟨hmoves.recorded hrecorded, Ledger.covered_of_steps hmoves.steps hcovered, fun hfresh => ?_⟩
    have hbefore := (Ledger.opened_grows hmoves.steps).sublist.nodup hfresh
    exact Ledger.balanced_of_steps hmoves.steps (hbalanced hbefore) hfresh

end ServiceNode

theorem ServiceStores.Recorded.issued_nodup {s : ServiceStores} (h : s.Recorded)
    (hfew : s.issued.length < 2 ^ 32) : s.issued.Nodup := by
  rw [h.issued_eq]
  apply List.nodup_range.map_on
  intro i hi j hj heq
  rw [List.mem_range] at hi hj
  have hnat := congrArg UInt32.toNat heq
  rwa [UInt32.toNat_ofNat_of_lt' (by change i < 2 ^ 32; omega),
    UInt32.toNat_ofNat_of_lt' (by change j < 2 ^ 32; omega)] at hnat

theorem calls_sublist (history : List ServiceMark) :
    (history.filterMap ServiceMark.calls?).Sublist
      ((history.filterMap ServiceMark.dequeued?).map Prod.snd) := by
  induction history with
  | nil => exact List.Sublist.refl _
  | cons mark history ih =>
    cases mark with
    | listed id powerInfo queued => exact ih
    | event event => exact ih
    | ended id answered outcome =>
      cases outcome with
      | other => exact ih
      | dropped callback => exact ih.cons callback
      | called callback reply => exact ih.cons_cons callback

/-- Over every run each request ends once, and the callbacks keep step with the requests that queued
them. -/
theorem requests_end_once {W : Type} {RESOURCES : Nat} (m : ServiceHandlers W) (u : Usize)
    (nodeId : UInt64) (portCount : UInt8) (subscriptions : Subscriptions resourceNameBytes) (services : W)
    (calls : List (ServiceCall W)) :
    let node : ServiceNode W RESOURCES := (ServiceNode.new nodeId portCount subscriptions services).run m u calls
    let s := node.stores
    s.issued.length < 2 ^ 32 →
    -- the requests listed, and those that have ended
    s.ids.Nodup ∧ s.endedIds.Nodup ∧ (∀ id, id ∈ s.ids ↔ id ∈ s.issued ∧ id ∉ s.endedIds) ∧
    (∀ id ∈ s.endedIds, id ∈ s.issued) ∧
    (∀ body header, ReplyHeader.decode body = .ok header →
      header.id ∉ s.ids ∨ header.targetNodeId ≠ node.nodeId →
        s.answerRequest u node.nodeId body = s) ∧
    -- the callbacks
    s.powerInfo.waiting = s.ids.filter (· ∈ s.powerInfoIds) ∧
    (∀ id queued, ServiceMark.listed id true queued ∈ s.history → queued = true) ∧
    s.dequeued.map Prod.fst = s.endedIds.filter (· ∈ s.powerInfoIds) ∧
    s.dequeued.map Prod.snd ++ s.powerInfo.queue = s.powerInfoIds ∧
    s.powerInfoIds.Nodup ∧ s.calledIds.Nodup ∧
    ((∀ id ∈ s.ids, id ∉ s.powerInfoIds) → s.powerInfo.queue = []) := by
  intro node s hfew
  obtain ⟨hrecorded, -, hledger⟩ :=
    ServiceNode.run_stores m u (.new nodeId portCount subscriptions services : ServiceNode W RESOURCES) rfl calls
  have h := hledger (hrecorded.issued_nodup hfew)
  refine ⟨h.live_nodup, h.closed_nodup, fun id => h.mem_live_iff, fun id hid => h.mem_opened_of_closed hid,
    ?_, h.waiting_eq, hrecorded.queued, h.taken_closed, h.special_eq, h.special_nodup, ?_, h.queue_empty⟩
  · intro body header hdecode hother
    rcases ServiceStores.answerRequest_cases u node.nodeId body s with hsame | ⟨header', hdecode', htarget, hid, -⟩
    · exact hsame
    · rw [hdecode] at hdecode'
      cases hdecode'
      rcases hother with hnot | hnot
      · exact absurd hid hnot
      · exact absurd htarget hnot
  · rw [hrecorded.called_eq]
    exact (calls_sublist s.history).nodup h.taken_nodup

/-- The power timings of one node, as a reply carries them. -/
def timings : PowerInfoReply := ⟨3600, 60, 30⟩

def timingsBody : Bytes :=
  bodyOf [(totalOnKey, uintItem 3600), (remainingOnKey, uintItem 60), (upcomingOffKey, uintItem 30)]

/-- Two requests for power timings, a reply to the later one, and time enough for the earlier one to expire. -/
def overtakenCalls : List (ServiceCall Unit) :=
  [.powerInfoRequest [] 0 5, .powerInfoRequest [] 0 3,
    .publish [] (ServiceNode.powerInfoService ++ replySuffix) 0 commonVersion
      (ReplyHeader.toBytes ⟨7, 1, UInt32.ofNat timingsBody.length⟩ ++ timingsBody), .expiry 6000]

/-- The reply is told to the older callback, and the one left is dropped when the other request times out. -/
theorem requests_end_once_overtaken : ∃ node : ServiceNode Unit 4,
    node = (ServiceNode.new 7 2 (.new 4 resourceNameBytes) ()).run
      ⟨fun services _ _ _ _ _ => (services, none)⟩ .bits64 overtakenCalls ∧
    node.stores.history = [.listed 0 true true, .listed 1 true true, .ended 1 true (.called 0 timings),
      .event (.powerInfoReply 0 timings), .ended 0 false (.dropped 1)] ∧
    node.stores.endedIds.Nodup ∧
      node.stores.dequeued.map Prod.snd ++ node.stores.powerInfo.queue = node.stores.powerInfoIds := by
  have hhistory : ((ServiceNode.new 7 2 (.new 4 resourceNameBytes) () : ServiceNode Unit 4).run
      ⟨fun services _ _ _ _ _ => (services, none)⟩ .bits64 overtakenCalls).stores.history =
        [.listed 0 true true, .listed 1 true true, .ended 1 true (.called 0 timings),
          .event (.powerInfoReply 0 timings), .ended 0 false (.dropped 1)] := by
    decide +kernel
  obtain ⟨-, hended, -, -, -, -, -, -, hqueue, -⟩ := @requests_end_once Unit 4
    ⟨fun services _ _ _ _ _ => (services, none)⟩ .bits64 7 2 (.new 4 resourceNameBytes) () overtakenCalls (by
      rw [ServiceStores.issued, hhistory]
      decide)
  exact ⟨_, rfl, hhistory, hended, hqueue⟩

end Bristlemouth
