import Bristlemouth.Bcmp.RequestLife
import Bristlemouth.Stack.Node
import Mathlib.Data.List.InsertIdx

/-!
# Held frames in step with the registry

Runs of a node. The registry and the held frames are two stores that different
calls update; one invariant ties them to each other and to the frames the calls
returned.
-/

set_option autoImplicit false

namespace Bristlemouth

/-- A message of this type becomes a tracked request. -/
def Registry.Tracks {TYPES PENDING : Nat} (r : Registry TYPES PENDING) (messageType : MessageType) :
    Prop :=
  (∃ cfg, r.cfg messageType = some cfg ∧ cfg.sequencedReply = false ∧ cfg.sequencedRequest = true) ∧
    r.pending.length < PENDING

/-- Every case of `on_serialize`. -/
theorem Registry.onSerialize_cases {TYPES PENDING : Nat} (r : Registry TYPES PENDING) (nowMs : UInt32)
    (messageType : MessageType) (replySeqNum : UInt32) :
    r.onSerialize nowMs messageType replySeqNum = (r, .error .unknownType) ∨
      (∃ seqNum, r.onSerialize nowMs messageType replySeqNum = (r, .ok ⟨seqNum, false⟩)) ∨
      (r.Tracks messageType ∧ r.onSerialize nowMs messageType replySeqNum =
        ({ r with messageCount := r.messageCount + 1,
                  pending := r.pending ++ [r.newRequest nowMs messageType] },
          .ok ⟨r.messageCount, true⟩)) ∨
      r.onSerialize nowMs messageType replySeqNum =
        ({ r with messageCount := r.messageCount + 1 }, .ok ⟨r.messageCount, false⟩) := by
  cases hcfg : r.cfg messageType with
  | none =>
    left
    simp only [onSerialize, hcfg]
  | some cfg =>
    right
    by_cases hreply : cfg.sequencedReply
    · left
      exact ⟨replySeqNum, by simp only [onSerialize, hcfg, if_pos hreply]⟩
    · by_cases hrequest : cfg.sequencedRequest
      · right
        by_cases hroom : r.pending.length < PENDING
        · left
          refine ⟨⟨⟨cfg, hcfg, by simpa using hreply, hrequest⟩, hroom⟩, ?_⟩
          simp only [onSerialize, hcfg, if_neg hreply, if_pos hroom, hrequest, Bool.not_true,
            Bool.false_eq_true, if_false]
        · right
          simp only [onSerialize, hcfg, if_neg hreply, if_neg hroom, hrequest, Bool.not_true,
            Bool.false_eq_true, if_false]
      · left
        exact ⟨0, by simp only [onSerialize, hcfg, if_neg hreply, hrequest, Bool.not_false, if_true]⟩

/-- Every case of `on_received`. -/
theorem Registry.onReceived_cases {TYPES PENDING : Nat} (r : Registry TYPES PENDING)
    (messageType : MessageType) (seqNum : UInt32) :
    r.onReceived messageType seqNum = (r, .unregistered) ∨
      r.onReceived messageType seqNum = (r, .process) ∨
      ∃ index request, r.pending[index]? = some request ∧ r.onReceived messageType seqNum =
        ({ r with pending := r.pending.eraseIdx index }, .sequencedReply request) := by
  unfold onReceived
  split
  · exact .inl rfl
  · split
    · exact .inr (.inl rfl)
    · split
      · exact .inr (.inl rfl)
      · split
        · exact .inr (.inl rfl)
        · rename_i index _ _ request hget
          exact .inr (.inr ⟨index, request, hget, rfl⟩)

/-! ### Building a frame -/

/-- The most a body can have for its frame to fit the transmit buffer. -/
def maxBodyLen : Nat := mtu - (bcmpHeaderOffset + bcmpHeaderLen)

/-- `body` succeeds behind the headers, and what it writes leaves a frame within the buffer. -/
def Encodes (body : BodyWriter) (tx : Bytes) : Prop :=
  ∃ written n, body (tx.drop (bcmpHeaderOffset + bcmpHeaderLen)) = .ok (written, n) ∧ n ≤ maxBodyLen

theorem WritesWithin.encodes {body : BodyWriter} {n : Nat} (h : WritesWithin body n)
    (hn : n ≤ maxBodyLen) {tx : Bytes} (htx : tx.length = mtu) : Encodes body tx := by
  have hroom : n ≤ (tx.drop (bcmpHeaderOffset + bcmpHeaderLen)).length := by
    rw [List.length_drop, htx]
    exact hn
  obtain ⟨written, hwritten⟩ := h _ hroom
  exact ⟨written, n, hwritten, hn⟩

/-- A body that fits gives a frame. -/
theorem Encodes.build {body : BodyWriter} {tx : Bytes} (h : Encodes body tx) (htx : tx.length = mtu)
    (nodeId : UInt64) (dst : BmIpAddr) (messageType : MessageType) (seqNum : UInt32) :
    ∃ out frameLen, build tx nodeId dst messageType seqNum body = .ok (out, frameLen) ∧
      out.take frameLen ≠ [] := by
  obtain ⟨written, n, hbody, hn⟩ := h
  have hbound : n ≤ 1447 := hn
  have hbuild := build_eq nodeId dst messageType seqNum hbody (by simp; omega) (by rw [htx]; simp; omega)
  refine ⟨_, _, hbuild, ?_⟩
  intro hempty
  have hlen := congrArg List.length hempty
  simp at hlen

/-- A tracked request whose body fits is held; nothing else is. -/
theorem buildOutbound_tracked {body : BodyWriter} {tx : Bytes} (h : Encodes body tx)
    (htx : tx.length = mtu) (held : HeldRequests) (nodeId : UInt64) (dst : BmIpAddr)
    (messageType : MessageType) (seqNum : UInt32) (mask : UInt16) :
    ∃ frame, frame ≠ [] ∧ buildOutbound tx held nodeId dst messageType ⟨seqNum, mask, true⟩ body =
      (held.hold seqNum frame, some ⟨frame, mask⟩) := by
  obtain ⟨out, frameLen, hbuild, hframe⟩ := h.build htx nodeId dst messageType seqNum
  refine ⟨_, hframe, ?_⟩
  simp only [buildOutbound, hbuild, if_true]

theorem buildOutbound_untracked (tx : Bytes) (held : HeldRequests) (nodeId : UInt64) (dst : BmIpAddr)
    (messageType : MessageType) (seqNum : UInt32) (mask : UInt16) (body : BodyWriter) :
    (buildOutbound tx held nodeId dst messageType ⟨seqNum, mask, false⟩ body).1 = held := by
  unfold buildOutbound
  split
  · rfl
  · rfl

/-! ### The invariant -/

/-- The numbers of the outstanding requests. -/
def Registry.numbers {TYPES PENDING : Nat} (r : Registry TYPES PENDING) : List UInt32 :=
  r.pending.map (·.seqNum)

/-- The registry, the held frames, the history of the requests and the frames first built for them
tell the same story. -/
structure InStep {PENDING : Nat} (registry : Registry messageTypes PENDING) (held : HeldRequests)
    (history : List RequestEvent) (built : List (UInt32 × Bytes)) : Prop where
  accounted : registry.Accounted 0 history
  slots : held.slots.length = PENDING
  sound : held.Sound
  pending : held.numbers.Perm registry.numbers
  held_built : ∀ entry ∈ held.entries, entry ∈ built
  numbered : (built.map Prod.fst).Sublist (numbersOf history)

namespace Node

variable {M : Type} {PENDING : Nat}

/-- How many numbers a call took from the counter. -/
def taken (before after : Node M PENDING) : Nat :=
  if after.registry.messageCount = before.registry.messageCount then 0 else 1

/-- The frame a call returned for the number it took. -/
def firstBuilt (before after : Node M PENDING) (outbound : Option Outbound) : List (UInt32 × Bytes) :=
  if after.registry.messageCount = before.registry.messageCount then []
  else outbound.toList.map fun outbound => (before.registry.messageCount, outbound.frame)

/-- What a call does to the two stores: they stay in step, and without a frame there is no new
request. -/
structure Keeps (before after : Node M PENDING) (outbound : Option Outbound) : Prop where
  inStep : ∀ {history built}, InStep before.registry before.held history built →
    (numbersOf history).length < 2 ^ 32 →
    ∃ events, InStep after.registry after.held (history ++ events)
        (built ++ before.firstBuilt after outbound) ∧
      (numbersOf events).length = before.taken after
  silent : outbound = none → ∀ seqNum ∈ after.registry.numbers, seqNum ∈ before.registry.numbers

namespace Keeps

variable {a b c : Node M PENDING} {outbound : Option Outbound}

/-- A call that touches neither store nor counter. -/
theorem of_eq (hpending : b.registry.pending = a.registry.pending)
    (hcount : b.registry.messageCount = a.registry.messageCount) (hheld : b.held = a.held) :
    Keeps a b outbound where
  inStep := by
    intro history built h _
    have haccounted := h.accounted.quiet hpending hcount
    refine ⟨[], ?_, ?_⟩
    · rw [firstBuilt, if_pos hcount, List.append_nil, List.append_nil]
      rw [List.append_nil] at haccounted
      exact {
        accounted := haccounted
        slots := by rw [hheld]; exact h.slots
        sound := by rw [hheld]; exact h.sound
        pending := by rw [hheld, Registry.numbers, hpending]; exact h.pending
        held_built := by rw [hheld]; exact h.held_built
        numbered := h.numbered }
    · rw [taken, if_pos hcount]
      rfl
  silent := by
    intro _ seqNum hmem
    rw [Registry.numbers, hpending] at hmem
    exact hmem

/-- A call that takes no number, then one that may. -/
theorem trans (hab : Keeps a b none) (hcount : b.registry.messageCount = a.registry.messageCount)
    (hbc : Keeps b c outbound) : Keeps a c outbound where
  inStep := by
    intro history built h hfew
    obtain ⟨first, hfirst, hnumbers⟩ := hab.inStep h hfew
    rw [taken, if_pos hcount] at hnumbers
    rw [firstBuilt, if_pos hcount, List.append_nil] at hfirst
    obtain ⟨second, hsecond, hnumbers'⟩ := hbc.inStep hfirst (by
      rw [numbersOf_append, List.length_append]
      omega)
    refine ⟨first ++ second, ?_, ?_⟩
    · rw [← List.append_assoc]
      rw [firstBuilt, hcount] at hsecond
      exact hsecond
    · rw [numbersOf_append, List.length_append, hnumbers, hnumbers', taken, taken, hcount]
      omega
  silent := fun hnone seqNum hmem => hab.silent rfl seqNum (hbc.silent hnone seqNum hmem)

end Keeps

end Node

/-! ### One step of each store -/

namespace InStep

variable {PENDING : Nat} {registry registry' : Registry messageTypes PENDING} {held : HeldRequests}
variable {history : List RequestEvent} {built : List (UInt32 × Bytes)}

theorem room (h : InStep registry held history built) (hroom : registry.pending.length < PENDING) :
    held.entries.length < held.slots.length := by
  have hlen := h.pending.length_eq
  rw [HeldRequests.numbers, Registry.numbers, List.length_map, List.length_map] at hlen
  rw [h.slots]
  omega

/-- A number is taken, and the frame is held under it. -/
theorem tracked (h : InStep registry held history built) (hfew : (numbersOf history).length < 2 ^ 32)
    {request : PendingRequest} (hroom : registry.pending.length < PENDING)
    (hseq : request.seqNum = registry.messageCount) (hretries : request.retries = 0)
    (htimeout : request.timeoutMs = defaultMessageTimeoutMs)
    (hpending : registry'.pending = registry.pending ++ [request])
    (hcount : registry'.messageCount = registry.messageCount + 1) {frame : Bytes} (hframe : frame ≠ []) :
    InStep registry' (held.hold registry.messageCount frame)
      (history ++ [.sent request.timestampMs request.seqNum true])
      (built ++ [(registry.messageCount, frame)]) := by
  have hfresh : registry.messageCount ∉ held.numbers :=
    fun hmem => h.accounted.fresh_pending hfew (h.pending.mem_iff.mp hmem)
  obtain ⟨hsound, hentries⟩ := h.sound.hold hframe (h.room hroom) hfresh
  refine ⟨h.accounted.tracked hfew hroom hseq hretries htimeout hpending hcount, ?_, hsound, ?_, ?_, ?_⟩
  · exact (HeldRequests.length_fill ..).trans h.slots
  · have hnumbers : registry'.numbers = registry.numbers ++ [registry.messageCount] := by
      rw [Registry.numbers, hpending, List.map_append, List.map_singleton, hseq]
      rfl
    rw [hnumbers]
    exact ((hentries.map Prod.fst).trans (h.pending.cons _)).trans
      (List.perm_append_singleton ..).symm
  · intro entry hentry
    obtain rfl | hentry := List.mem_cons.mp (hentries.mem_iff.mp hentry)
    · exact List.mem_append_right _ (List.mem_singleton_self _)
    · exact List.mem_append_left _ (h.held_built entry hentry)
  · rw [List.map_append, numbersOf_append]
    have hone : numbersOf [.sent request.timestampMs request.seqNum true] = [registry.messageCount] := by
      rw [← hseq]
      rfl
    rw [hone]
    exact h.numbered.append (List.Sublist.refl _)

/-- A number is taken for a request nobody keeps. -/
theorem untracked (h : InStep registry held history built)
    (hfew : (numbersOf history).length < 2 ^ 32) (nowMs : UInt32)
    (hpending : registry'.pending = registry.pending)
    (hcount : registry'.messageCount = registry.messageCount + 1) (outbound : Option Outbound) :
    InStep registry' held (history ++ [.sent nowMs registry.messageCount false])
      (built ++ outbound.toList.map fun outbound => (registry.messageCount, outbound.frame)) := by
  refine ⟨h.accounted.untracked hfew hpending hcount, h.slots, h.sound, ?_, ?_, ?_⟩
  · rw [Registry.numbers, hpending]
    exact h.pending
  · exact fun entry hentry => List.mem_append_left _ (h.held_built entry hentry)
  · rw [List.map_append, numbersOf_append]
    refine h.numbered.append ?_
    cases outbound with
    | none => exact List.nil_sublist _
    | some outbound => exact List.Sublist.refl _

/-- An answered request leaves both stores. -/
theorem answered (h : InStep registry held history built)
    (hfew : (numbersOf history).length < 2 ^ 32) {index : Nat} {request : PendingRequest}
    (hget : registry.pending[index]? = some request)
    (hpending : registry'.pending = registry.pending.eraseIdx index)
    (hcount : registry'.messageCount = registry.messageCount) :
    InStep registry' (held.release request.seqNum) (history ++ [.replied request]) built := by
  have hnodup : registry.numbers.Nodup := h.accounted.pending_nodup (by omega)
  obtain ⟨hlt, hrequest⟩ := List.getElem?_eq_some_iff.mp hget
  have hnumbers : registry'.numbers = registry.numbers.filter fun seqNum => seqNum ≠ request.seqNum := by
    have hindex : index < registry.numbers.length := by
      rw [Registry.numbers, List.length_map]
      exact hlt
    have hat : registry.numbers[index] = request.seqNum := by
      simp only [Registry.numbers, List.getElem_map, hrequest]
    rw [Registry.numbers, hpending, ← List.eraseIdx_map]
    change registry.numbers.eraseIdx index = _
    rw [← hnodup.erase_getElem index hindex, hat, hnodup.erase_eq_filter]
    refine List.filter_congr fun seqNum _ => ?_
    by_cases heq : seqNum = request.seqNum <;> simp [heq]
  refine ⟨h.accounted.answered hfew hget hpending hcount, ?_, h.sound.release, ?_, ?_, ?_⟩
  · exact (HeldRequests.length_slots_release ..).trans h.slots
  · rw [h.sound.numbers_release, hnumbers]
    exact h.pending.filter _
  · intro entry hentry
    rw [h.sound.entries_release] at hentry
    exact h.held_built entry (List.mem_of_mem_filter hentry)
  · rw [numbersOf_append]
    exact h.numbered.trans (List.sublist_append_left ..)

end InStep

/-! ### A sweep of both stores -/

/-- The numbers a sweep gives up on. -/
def gaveUp (expired : List Expiry) : List UInt32 :=
  expired.filterMap fun
    | .retry _ => none
    | .timedOut request => some request.seqNum

theorem gaveUp_report {nowMs : UInt32} {pending : List PendingRequest} {seqNum : UInt32} :
    seqNum ∈ gaveUp (pending.filterMap (·.report nowMs)) ↔
      ∃ request ∈ pending, request.seqNum = seqNum ∧ request.survivor nowMs = none := by
  rw [gaveUp, List.filterMap_filterMap, List.mem_filterMap]
  refine exists_congr fun request => and_congr_right fun _ => ?_
  unfold PendingRequest.report PendingRequest.survivor
  split
  · simp
  · split <;> simp

/-- The sweep leaves the numbers it did not give up on. -/
theorem survivors_numbers {nowMs : UInt32} {pending : List PendingRequest}
    (hnodup : (pending.map (·.seqNum)).Nodup) :
    (pending.filterMap (·.survivor nowMs)).map (·.seqNum) =
      (pending.map (·.seqNum)).filter fun seqNum =>
        seqNum ∉ gaveUp (pending.filterMap (·.report nowMs)) := by
  have hleft : ∀ requests : List PendingRequest,
      (requests.filterMap (·.survivor nowMs)).map (·.seqNum) =
        (requests.filter fun request => (request.survivor nowMs).isSome).map (·.seqNum) := by
    intro requests
    induction requests with
    | nil => rfl
    | cons request requests ih =>
      cases hsurvivor : request.survivor nowMs with
      | none =>
        rw [List.filter_cons_of_neg (by simp [hsurvivor]), ← ih]
        simp only [List.filterMap_cons, hsurvivor]
      | some left =>
        rw [List.filter_cons_of_pos (by simp [hsurvivor]), List.map_cons, ← ih,
          ← survivor_seqNum hsurvivor]
        simp only [List.filterMap_cons, hsurvivor, List.map_cons]
  rw [hleft, List.filter_map]
  congr 1
  refine List.filter_congr fun request hmem => ?_
  cases hsurvivor : request.survivor nowMs with
  | none =>
    have hgone := gaveUp_report.mpr ⟨request, hmem, rfl, hsurvivor⟩
    simp [hgone]
  | some left =>
    have hkept : request.seqNum ∉ gaveUp (pending.filterMap (·.report nowMs)) := by
      intro hgone
      obtain ⟨other, hother, hseq, hnone⟩ := gaveUp_report.mp hgone
      rw [List.inj_on_of_nodup_map hnodup hother hmem hseq, hsurvivor] at hnone
      cases hnone
    simp [hkept]

/-- The held frames follow a sweep's report. -/
theorem held_foldl (expired : List Expiry) {held : HeldRequests} (h : held.Sound) :
    (expired.foldl Node.heldAfter held).Sound ∧
      (expired.foldl Node.heldAfter held).slots.length = held.slots.length ∧
      (expired.foldl Node.heldAfter held).entries =
        held.entries.filter fun entry => entry.1 ∉ gaveUp expired := by
  induction expired generalizing held with
  | nil =>
    refine ⟨h, rfl, ?_⟩
    symm
    rw [List.foldl_nil, List.filter_eq_self]
    simp [gaveUp]
  | cons expiry expired ih =>
    rw [List.foldl_cons]
    cases expiry with
    | retry request =>
      have hmarked : (held.markDue request.seqNum).Sound := h.markDue
      obtain ⟨hsound, hslots, hentries⟩ := ih hmarked
      refine ⟨hsound, ?_, ?_⟩
      · rw [Node.heldAfter, hslots, HeldRequests.slots_markDue]
      · rw [Node.heldAfter, hentries, HeldRequests.entries_markDue]
        rfl
    | timedOut request =>
      have hreleased : (held.release request.seqNum).Sound := h.release
      obtain ⟨hsound, hslots, hentries⟩ := ih hreleased
      refine ⟨hsound, ?_, ?_⟩
      · rw [Node.heldAfter, hslots, HeldRequests.length_slots_release]
      · rw [Node.heldAfter, hentries, h.entries_release, List.filter_filter]
        refine List.filter_congr fun entry _ => ?_
        have hmem : entry.1 ∈ gaveUp (.timedOut request :: expired) ↔
            entry.1 = request.seqNum ∨ entry.1 ∈ gaveUp expired := List.mem_cons
        rw [← Bool.coe_iff_coe]
        simp [hmem, and_comm]

/-- Both stores lose the requests given up on, and no others. -/
theorem InStep.swept {PENDING : Nat} {registry : Registry messageTypes PENDING} {held : HeldRequests}
    {history : List RequestEvent} {built : List (UInt32 × Bytes)}
    (h : InStep registry held history built) (hfew : (numbersOf history).length < 2 ^ 32)
    (nowMs : UInt32) :
    InStep (registry.onTick nowMs).1 ((registry.onTick nowMs).2.foldl Node.heldAfter held)
      (history ++ (registry.onTick nowMs).2.map (.ofExpiry nowMs)) built := by
  have haccounted := h.accounted.change hfew (registry.onTick_change nowMs)
  obtain ⟨hsound, hslots, hentries⟩ := held_foldl (registry.onTick nowMs).2 h.sound
  refine ⟨haccounted, hslots.trans h.slots, hsound, ?_, ?_, ?_⟩
  · have hnodup : registry.numbers.Nodup := h.accounted.pending_nodup (by omega)
    have hnumbers : (registry.onTick nowMs).1.numbers =
        registry.numbers.filter fun seqNum => seqNum ∉ gaveUp (registry.onTick nowMs).2 := by
      unfold Registry.onTick
      split
      · symm
        rw [List.filter_eq_self]
        simp [gaveUp]
      · rw [Registry.sweep_eq]
        exact survivors_numbers hnodup
    rw [hnumbers, HeldRequests.numbers, hentries]
    have hfilter := h.pending.filter fun seqNum => decide (seqNum ∉ gaveUp (registry.onTick nowMs).2)
    rw [HeldRequests.numbers, List.filter_map] at hfilter
    exact hfilter
  · intro entry hentry
    rw [hentries] at hentry
    exact h.held_built entry (List.mem_of_mem_filter hentry)
  · rw [numbersOf_append]
    exact h.numbered.trans (List.sublist_append_left ..)

/-! ### The calls of a node -/

namespace Node

variable {M : Type} {PENDING : Nat} {tx : Bytes}

/-- Every message goes out through here. -/
theorem keeps_respond (node : Node M PENDING) (htx : tx.length = mtu) (nowMs : UInt32) (dst : BmIpAddr)
    (messageType : MessageType) (replySeqNum : UInt32) {body : BodyWriter}
    (hbody : node.registry.Tracks messageType → Encodes body tx) :
    Keeps node (node.respond tx nowMs dst messageType replySeqNum body).1
      (node.respond tx nowMs dst messageType replySeqNum body).2 := by
  obtain hunknown | ⟨seqNum, hquiet⟩ | ⟨htracks, htracked⟩ | huntracked :=
    node.registry.onSerialize_cases nowMs messageType replySeqNum
  · simp only [respond, outgoing, hunknown]
    exact .of_eq rfl rfl rfl
  · simp only [respond, outgoing, hquiet]
    exact .of_eq rfl rfl (buildOutbound_untracked ..)
  · obtain ⟨frame, hframe, hbuilt⟩ := buildOutbound_tracked (hbody htracks) htx node.held node.nodeId
      dst messageType node.registry.messageCount node.allPorts
    simp only [respond, outgoing, htracked, hbuilt]
    constructor
    · intro history built h hfew
      refine ⟨[.sent nowMs node.registry.messageCount true], ?_, ?_⟩
      · rw [firstBuilt, if_neg (Registry.add_one_ne _)]
        exact @InStep.tracked _ _ _ _ _ _ h hfew (node.registry.newRequest nowMs messageType) htracks.2
          rfl rfl rfl rfl rfl _ hframe
      · rw [taken, if_neg (Registry.add_one_ne _)]
        rfl
    · intro hnone
      cases hnone
  · simp only [respond, outgoing, huntracked]
    constructor
    · intro history built h hfew
      refine ⟨[.sent nowMs node.registry.messageCount false], ?_, ?_⟩
      · rw [firstBuilt, if_neg (Registry.add_one_ne _), buildOutbound_untracked]
        refine h.untracked hfew nowMs ?_ ?_ _
        · rfl
        · rfl
      · rw [taken, if_neg (Registry.add_one_ne _)]
        rfl
    · exact fun _ seqNum hmem => hmem

theorem keeps_sendWith (node : Node M PENDING) (htx : tx.length = mtu) (nowMs : UInt32)
    (dst : BmIpAddr) (messageType : MessageType) (replySeqNum : UInt32) {bodyLen : Nat}
    {body : BodyWriter}
    (hbody : node.registry.Tracks messageType → bodyLen ≤ maxBodyLen → Encodes body tx) :
    Keeps node (node.sendWith tx nowMs dst messageType replySeqNum bodyLen body).1
      (node.sendWith tx nowMs dst messageType replySeqNum bodyLen body).2 := by
  unfold sendWith
  split
  · exact .of_eq rfl rfl rfl
  · rename_i hfit
    have hlen : bodyLen ≤ maxBodyLen := by
      simp at hfit
      simp [maxBodyLen]
      omega
    exact node.keeps_respond htx nowMs dst messageType replySeqNum fun htracks => hbody htracks hlen

/-- A body whose length is what the encoder writes cannot fail once the size is checked. -/
theorem keeps_sendWith_exact (node : Node M PENDING) (htx : tx.length = mtu) (nowMs : UInt32)
    (dst : BmIpAddr) (messageType : MessageType) (replySeqNum : UInt32) {bodyLen : Nat}
    {body : BodyWriter} (hbody : bodyLen ≤ maxBodyLen → WritesWithin body bodyLen) :
    Keeps node (node.sendWith tx nowMs dst messageType replySeqNum bodyLen body).1
      (node.sendWith tx nowMs dst messageType replySeqNum bodyLen body).2 :=
  node.keeps_sendWith htx nowMs dst messageType replySeqNum fun _ hlen => (hbody hlen).encodes hlen htx

theorem keeps_request (node : Node M PENDING) (htx : tx.length = mtu) (nowMs : UInt32)
    (dst : BmIpAddr) (messageType : MessageType) (body : Bytes) :
    Keeps node (node.request tx nowMs dst messageType body).1
      (node.request tx nowMs dst messageType body).2 :=
  node.keeps_sendWith_exact htx nowMs dst messageType 0 fun _ => writesWithin_writeBody body

theorem keeps_sweep (node : Node M PENDING) (nowMs : UInt32) :
    Keeps node (node.sweep nowMs).1 none ∧
      (node.sweep nowMs).1.registry.messageCount = node.registry.messageCount := by
  have hcount : (node.sweep nowMs).1.registry.messageCount = node.registry.messageCount := by
    change (node.registry.onTick nowMs).1.messageCount = _
    unfold Registry.onTick
    split
    · rfl
    · rw [Registry.sweep_eq]
  refine ⟨⟨?_, ?_⟩, hcount⟩
  · intro history built h hfew
    refine ⟨(node.registry.onTick nowMs).2.map (.ofExpiry nowMs), ?_, ?_⟩
    · rw [firstBuilt, if_pos hcount, List.append_nil]
      exact h.swept hfew nowMs
    · rw [taken, if_pos hcount, (ofExpiry_numbers nowMs _).1]
      rfl
  · intro _ seqNum hmem
    change seqNum ∈ (node.registry.onTick nowMs).1.numbers at hmem
    unfold Registry.onTick at hmem
    split at hmem
    · exact hmem
    · rw [Registry.sweep_eq] at hmem
      exact (survivors_sublist nowMs node.registry.pending).subset hmem

theorem keeps_nextRetransmission (node : Node M PENDING) (outbound : Option Outbound) :
    Keeps node node.nextRetransmission.1 outbound := by
  cases hdue : node.held.due with
  | nil =>
    have hnext := HeldRequests.nextDue_nil hdue
    simp only [nextRetransmission, hnext]
    exact .of_eq rfl rfl rfl
  | cons seqNum due =>
    have hheld : node.nextRetransmission.1.held = node.held.undue seqNum := by
      simp only [nextRetransmission, HeldRequests.nextDue, hdue]
    constructor
    · intro history built h hfew
      refine ⟨[], ?_, ?_⟩
      · rw [firstBuilt, if_pos (by rfl), List.append_nil, List.append_nil, hheld]
        exact ⟨h.accounted, h.slots, h.sound.undue, h.pending, h.held_built, h.numbered⟩
      · rw [taken, if_pos (by rfl)]
        rfl
    · exact fun _ seqNum hmem => hmem

end Node

end Bristlemouth
