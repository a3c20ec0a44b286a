import Bristlemouth.Pubsub.Subscriptions

/-!
# Runs of subscriptions

Every topic and every callback in the listing has the number of the operation that put it there, and
the numbers grow along the listing.
-/

set_option autoImplicit false

namespace Bristlemouth.Pubsub

open Wildcard

inductive SubscriptionOp where
  | subscribe (topic : Bytes)
  | subscribeAs (topic : Bytes) (subscriber : Subscriber)
  | unsubscribe (topic : Bytes)
  | unsubscribeAs (topic : Bytes) (subscriber : Subscriber)
deriving DecidableEq

namespace SubscriptionOp

def apply {TOPIC : Nat} (op : SubscriptionOp) (s : Subscriptions TOPIC) :
    Subscriptions TOPIC × Except SubscriptionError Unit :=
  match op with
  | subscribe topic => s.subscribe topic
  | subscribeAs topic subscriber => s.subscribeAs topic subscriber
  | unsubscribe topic => s.unsubscribe topic
  | unsubscribeAs topic subscriber => s.unsubscribeAs topic subscriber

def subscribes : SubscriptionOp → Option (Bytes × Subscriber)
  | subscribe topic => some (topic, .application)
  | subscribeAs topic subscriber => some (topic, subscriber)
  | unsubscribe _ | unsubscribeAs _ _ => none

end SubscriptionOp

namespace Subscriptions

variable {N TOPIC : Nat}

/-- The store after a run. -/
def after (N TOPIC : Nat) (ops : List SubscriptionOp) : Subscriptions TOPIC :=
  ops.foldl (fun s op => (op.apply s).1) (new N TOPIC)

def topics (s : Subscriptions TOPIC) : List Bytes := s.listing.map Prod.fst

theorem after_append (ops : List SubscriptionOp) (op : SubscriptionOp) :
    after N TOPIC (ops ++ [op]) = (op.apply (after N TOPIC ops)).1 := by
  rw [after, List.foldl_append]
  rfl

/-- An operation is refused with nothing changed, or accepted. -/
theorem apply_cases {s : Subscriptions TOPIC} (h : s.WellFormed) (op : SubscriptionOp) :
    (∃ e, op.apply s = (s, .error e)) ∨
      ∃ s', op.apply s = (s', .ok ()) ∧ s'.WellFormed ∧
        ((∃ topic subscriber, op.subscribes = some (topic, subscriber) ∧
            Change topic subscriber s.listing s'.listing) ∨
          ∃ topic subscriber, Removal topic subscriber s.listing s'.listing) := by
  cases op with
  | subscribe topic =>
    rcases subscribeAs_cases h topic .application with herror | ⟨s', hs', hwell, hchange⟩
    · exact .inl herror
    · exact .inr ⟨s', hs', hwell, .inl ⟨topic, .application, rfl, hchange⟩⟩
  | subscribeAs topic subscriber =>
    rcases subscribeAs_cases h topic subscriber with herror | ⟨s', hs', hwell, hchange⟩
    · exact .inl herror
    · exact .inr ⟨s', hs', hwell, .inl ⟨topic, subscriber, rfl, hchange⟩⟩
  | unsubscribe topic =>
    rcases unsubscribeAs_cases h topic .application with herror | ⟨s', hs', hwell, hremoval⟩
    · exact .inl herror
    · exact .inr ⟨s', hs', hwell, .inr ⟨topic, .application, hremoval⟩⟩
  | unsubscribeAs topic subscriber =>
    rcases unsubscribeAs_cases h topic subscriber with herror | ⟨s', hs', hwell, hremoval⟩
    · exact .inl herror
    · exact .inr ⟨s', hs', hwell, .inr ⟨topic, subscriber, hremoval⟩⟩

theorem wellFormed_after (N TOPIC : Nat) (ops : List SubscriptionOp) : (after N TOPIC ops).WellFormed := by
  induction ops using List.reverseRecOn with
  | nil => exact wellFormed_new N TOPIC
  | append_singleton ops op ih =>
    rw [after_append]
    rcases apply_cases ih op with ⟨e, he⟩ | ⟨s', hs', hwell, -⟩
    · rw [he]
      exact ih
    · rw [hs']
      exact hwell

/-- A topic in the listing with the number of the operation that added it, and its callbacks with theirs. -/
structure Held where
  topic : Bytes
  since : Nat
  callbacks : List (Nat × Subscriber)

def Held.plain (h : Held) : Bytes × List Subscriber := (h.topic, h.callbacks.map Prod.snd)

/-- What the numbers of a topic say about the run. -/
structure Dated (N TOPIC : Nat) (ops : List SubscriptionOp) (h : Held) : Prop where
  increasing : (h.callbacks.map Prod.fst).Pairwise (· < ·)
  subscribed : ∀ c ∈ h.callbacks, ops[c.1]?.bind SubscriptionOp.subscribes = some (h.topic, c.2)
  begun : ∃ subscriber, ops[h.since]?.bind SubscriptionOp.subscribes = some (h.topic, subscriber)
  absent : h.topic ∉ (after N TOPIC (ops.take h.since)).topics
  lasting : ∀ n, h.since < n → n ≤ ops.length → h.topic ∈ (after N TOPIC (ops.take n)).topics

structure InOrder (N TOPIC : Nat) (ops : List SubscriptionOp) (held : List Held) : Prop where
  listing : held.map Held.plain = (after N TOPIC ops).listing
  increasing : (held.map Held.since).Pairwise (· < ·)
  dated : ∀ h ∈ held, Dated N TOPIC ops h

section
variable {ops : List SubscriptionOp} {op : SubscriptionOp} {held : List Held}

theorem lt_of_subscribes {n : Nat} {r : Bytes × Subscriber}
    (h : ops[n]?.bind SubscriptionOp.subscribes = some r) : n < ops.length := by
  obtain ⟨op, hop, -⟩ := Option.bind_eq_some_iff.mp h
  exact (List.getElem?_eq_some_iff.mp hop).1

theorem subscribes_append {n : Nat} {r : Bytes × Subscriber}
    (h : ops[n]?.bind SubscriptionOp.subscribes = some r) :
    (ops ++ [op])[n]?.bind SubscriptionOp.subscribes = some r := by
  rw [List.getElem?_append_left (lt_of_subscribes h)]
  exact h

theorem subscribes_last {r : Bytes × Subscriber} (h : op.subscribes = some r) :
    (ops ++ [op])[ops.length]?.bind SubscriptionOp.subscribes = some r := by
  rw [List.getElem?_append_right (Nat.le_refl _), Nat.sub_self]
  exact h

/-- One operation more, for a topic that stays. -/
theorem Dated.stay {h h' : Held} (hd : Dated N TOPIC ops h) (htopic : h'.topic = h.topic)
    (hsince : h'.since = h.since) (hincreasing : (h'.callbacks.map Prod.fst).Pairwise (· < ·))
    (hcallbacks : ∀ c ∈ h'.callbacks, c ∈ h.callbacks ∨
      c.1 = ops.length ∧ op.subscribes = some (h.topic, c.2))
    (hnow : h'.topic ∈ (after N TOPIC (ops ++ [op])).topics) : Dated N TOPIC (ops ++ [op]) h' := by
  obtain ⟨subscriber, hbegun⟩ := hd.begun
  have hlt := lt_of_subscribes hbegun
  refine ⟨hincreasing, ?_, ?_, ?_, ?_⟩
  · intro c hc
    rw [htopic]
    rcases hcallbacks c hc with hold | ⟨hlast, hop⟩
    · exact subscribes_append (hd.subscribed c hold)
    · rw [hlast]
      exact subscribes_last hop
  · rw [hsince, htopic]
    exact ⟨subscriber, subscribes_append hbegun⟩
  · rw [hsince, htopic, List.take_append_of_le_length (Nat.le_of_lt hlt)]
    exact hd.absent
  · intro n hn hle
    rw [hsince] at hn
    rw [List.length_append, List.length_singleton] at hle
    by_cases hlast : n ≤ ops.length
    · rw [htopic, List.take_append_of_le_length hlast]
      exact hd.lasting n hn hlast
    · rw [List.take_of_length_le (by rw [List.length_append, List.length_singleton]; omega)]
      exact hnow

theorem Dated.fresh {topic : Bytes} {subscriber : Subscriber}
    (hop : op.subscribes = some (topic, subscriber)) (habsent : topic ∉ (after N TOPIC ops).topics)
    (hnow : topic ∈ (after N TOPIC (ops ++ [op])).topics) :
    Dated N TOPIC (ops ++ [op]) ⟨topic, ops.length, [(ops.length, subscriber)]⟩ where
  increasing := List.pairwise_singleton _ _
  subscribed := by
    intro c hc
    rw [List.mem_singleton.mp hc]
    exact subscribes_last hop
  begun := ⟨subscriber, subscribes_last hop⟩
  absent := by
    rw [List.take_append_of_le_length (Nat.le_refl _), List.take_length]
    exact habsent
  lasting := by
    intro n hn hle
    rw [List.length_append, List.length_singleton] at hle
    dsimp only at hn
    rw [List.take_of_length_le (by rw [List.length_append, List.length_singleton]; omega)]
    exact hnow

theorem topic_mem {s : Subscriptions TOPIC} (hlisting : held.map Held.plain = s.listing) {h : Held}
    (hmem : h ∈ held) : h.topic ∈ s.topics := by
  rw [topics, ← hlisting, List.map_map]
  exact List.mem_map_of_mem (f := Prod.fst ∘ Held.plain) hmem

theorem InOrder.since_lt (h : InOrder N TOPIC ops held) {x : Held} (hx : x ∈ held) :
    x.since < ops.length := by
  obtain ⟨subscriber, hbegun⟩ := (h.dated x hx).begun
  exact lt_of_subscribes hbegun

theorem InOrder.callback_lt (h : InOrder N TOPIC ops held) {x : Held} (hx : x ∈ held) {n : Nat}
    (hn : n ∈ x.callbacks.map Prod.fst) : n < ops.length := by
  obtain ⟨c, hc, rfl⟩ := List.mem_map.mp hn
  exact lt_of_subscribes ((h.dated x hx).subscribed c hc)

/-- The held topic at an index of the listing. -/
theorem InOrder.held_at (h : InOrder N TOPIC ops held) {i : Nat} {topic : Bytes}
    {callbacks : List Subscriber} (hget : (after N TOPIC ops).listing[i]? = some (topic, callbacks)) :
    ∃ x, held[i]? = some x ∧ x ∈ held ∧ x.topic = topic ∧ x.callbacks.map Prod.snd = callbacks := by
  rw [← h.listing, List.getElem?_map] at hget
  obtain ⟨x, hx, hplain⟩ := Option.map_eq_some_iff.mp hget
  cases hplain
  exact ⟨x, hx, List.mem_of_getElem? hx, rfl, rfl⟩

/-- A topic that changes its callbacks stays where it is. -/
theorem InOrder.set (h : InOrder N TOPIC ops held) {i : Nat} {x : Held} (hx : held[i]? = some x)
    (callbacks : List (Nat × Subscriber)) (hincreasing : (callbacks.map Prod.fst).Pairwise (· < ·))
    (hcallbacks : ∀ c ∈ callbacks, c ∈ x.callbacks ∨
      c.1 = ops.length ∧ op.subscribes = some (x.topic, c.2))
    (hlisting : (after N TOPIC (ops ++ [op])).listing =
      (after N TOPIC ops).listing.set i (x.topic, callbacks.map Prod.snd)) :
    InOrder N TOPIC (ops ++ [op]) (held.set i { x with callbacks }) := by
  have hplain : (held.set i { x with callbacks }).map Held.plain =
      (after N TOPIC (ops ++ [op])).listing := by
    rw [hlisting, ← h.listing, List.map_set]
    rfl
  refine ⟨hplain, ?_, ?_⟩
  · have hsame : (held.set i { x with callbacks }).map Held.since = held.map Held.since := by
      obtain ⟨hi, rfl⟩ := List.getElem?_eq_some_iff.mp hx
      have hself := @List.set_getElem_self _ (held.map Held.since) i (by
        rw [List.length_map]
        exact hi)
      rw [List.getElem_map] at hself
      rw [List.map_set]
      exact hself
    rw [hsame]
    exact h.increasing
  · intro y hy
    have hnow := topic_mem hplain hy
    rcases List.mem_or_eq_of_mem_set hy with hold | rfl
    · exact (h.dated y hold).stay rfl rfl (h.dated y hold).increasing (fun c hc => .inl hc) hnow
    · exact (h.dated x (List.mem_of_getElem? hx)).stay rfl rfl hincreasing hcallbacks hnow

theorem InOrder.same (h : InOrder N TOPIC ops held)
    (hlisting : (after N TOPIC (ops ++ [op])).listing = (after N TOPIC ops).listing) :
    InOrder N TOPIC (ops ++ [op]) held := by
  have hplain := h.listing.trans hlisting.symm
  refine ⟨hplain, h.increasing, ?_⟩
  intro x hx
  exact (h.dated x hx).stay rfl rfl (h.dated x hx).increasing (fun c hc => .inl hc) (topic_mem hplain hx)

theorem InOrder.add (h : InOrder N TOPIC ops held) {topic : Bytes} {subscriber : Subscriber}
    (hop : op.subscribes = some (topic, subscriber)) (habsent : topic ∉ (after N TOPIC ops).topics)
    (hlisting : (after N TOPIC (ops ++ [op])).listing =
      (after N TOPIC ops).listing ++ [(topic, [subscriber])]) :
    InOrder N TOPIC (ops ++ [op]) (held ++ [⟨topic, ops.length, [(ops.length, subscriber)]⟩]) := by
  have hplain : (held ++ [(⟨topic, ops.length, [(ops.length, subscriber)]⟩ : Held)]).map Held.plain =
      (after N TOPIC (ops ++ [op])).listing := by
    rw [hlisting, ← h.listing, List.map_append]
    rfl
  refine ⟨hplain, ?_, ?_⟩
  · rw [List.map_append, List.pairwise_append]
    refine ⟨h.increasing, List.pairwise_singleton _ _, ?_⟩
    intro a ha b hb
    obtain ⟨x, hx, rfl⟩ := List.mem_map.mp ha
    rw [List.mem_singleton.mp hb]
    exact h.since_lt hx
  · intro x hx
    have hnow := topic_mem hplain hx
    rcases List.mem_append.mp hx with hold | hnew
    · exact (h.dated x hold).stay rfl rfl (h.dated x hold).increasing (fun c hc => .inl hc) hnow
    · obtain rfl := List.mem_singleton.mp hnew
      exact Dated.fresh hop habsent hnow

theorem InOrder.erase (h : InOrder N TOPIC ops held) {i : Nat}
    (hlisting : (after N TOPIC (ops ++ [op])).listing = (after N TOPIC ops).listing.eraseIdx i) :
    InOrder N TOPIC (ops ++ [op]) (held.eraseIdx i) := by
  have hplain : (held.eraseIdx i).map Held.plain = (after N TOPIC (ops ++ [op])).listing := by
    rw [hlisting, ← h.listing, List.eraseIdx_map]
  refine ⟨hplain, ?_, ?_⟩
  · rw [← List.eraseIdx_map]
    exact h.increasing.sublist (List.eraseIdx_sublist _ _)
  · intro x hx
    have hold := List.mem_of_mem_eraseIdx hx
    exact (h.dated x hold).stay rfl rfl (h.dated x hold).increasing (fun c hc => .inl hc)
      (topic_mem hplain hx)

theorem InOrder.change (h : InOrder N TOPIC ops held) {topic : Bytes} {subscriber : Subscriber}
    (hop : op.subscribes = some (topic, subscriber))
    (hchange : Change topic subscriber (after N TOPIC ops).listing (after N TOPIC (ops ++ [op])).listing) :
    ∃ held', InOrder N TOPIC (ops ++ [op]) held' := by
  generalize hnext : (after N TOPIC (ops ++ [op])).listing = next at hchange
  cases hchange with
  | same hmem => exact ⟨held, h.same hnext⟩
  | @appended i callbacks hget hroom =>
    obtain ⟨x, hx, hmem, rfl, rfl⟩ := h.held_at hget
    refine ⟨_, h.set hx (x.callbacks ++ [(ops.length, subscriber)]) ?_ ?_ ?_⟩
    · rw [List.map_append, List.pairwise_append]
      refine ⟨(h.dated x hmem).increasing, List.pairwise_singleton _ _, ?_⟩
      intro a ha b hb
      rw [List.mem_singleton.mp hb]
      exact h.callback_lt hmem ha
    · intro c hc
      rcases List.mem_append.mp hc with hold | hnew
      · exact .inl hold
      · rw [List.mem_singleton.mp hnew]
        exact .inr ⟨rfl, hop⟩
    · rw [hnext, List.map_append]
      rfl
  | added habsent => exact ⟨_, h.add hop habsent hnext⟩

theorem InOrder.removal (h : InOrder N TOPIC ops held) {topic : Bytes} {subscriber : Subscriber}
    (hremoval : Removal topic subscriber (after N TOPIC ops).listing
      (after N TOPIC (ops ++ [op])).listing) : ∃ held', InOrder N TOPIC (ops ++ [op]) held' := by
  generalize hnext : (after N TOPIC (ops ++ [op])).listing = next at hremoval
  cases hremoval with
  | @callback i callbacks hget hmem hrest =>
    obtain ⟨x, hx, hxmem, rfl, rfl⟩ := h.held_at hget
    -- the first such callback goes, with its number
    have herase : (x.callbacks.eraseP fun c => c.2 == subscriber).map Prod.snd =
        (x.callbacks.map Prod.snd).erase subscriber := by
      rw [List.erase_eq_eraseP', List.eraseP_map]
      rfl
    refine ⟨_, h.set hx (x.callbacks.eraseP fun c => c.2 == subscriber) ?_ ?_ ?_⟩
    · exact (h.dated x hxmem).increasing.sublist (List.eraseP_sublist.map Prod.fst)
    · intro c hc
      exact .inl (List.mem_of_mem_eraseP hc)
    · rw [hnext, herase]
  | topic hget => exact ⟨_, h.erase hnext⟩

theorem InOrder.step (h : InOrder N TOPIC ops held) (op : SubscriptionOp) :
    ∃ held', InOrder N TOPIC (ops ++ [op]) held' := by
  rcases apply_cases (wellFormed_after N TOPIC ops) op with
    ⟨e, he⟩ | ⟨s', hs', -, ⟨topic, subscriber, hop, hchange⟩ | ⟨topic, subscriber, hremoval⟩⟩
  · refine ⟨held, h.same ?_⟩
    rw [after_append, he]
  · refine h.change hop ?_
    rw [after_append, hs']
    exact hchange
  · refine @InOrder.removal _ _ _ _ _ h topic subscriber ?_
    rw [after_append, hs']
    exact hremoval

end

theorem inOrder_after (N TOPIC : Nat) (ops : List SubscriptionOp) : ∃ held, InOrder N TOPIC ops held := by
  induction ops using List.reverseRecOn with
  | nil =>
    exact ⟨[], rfl, List.Pairwise.nil, fun x hx => absurd hx List.not_mem_nil⟩
  | append_singleton ops op ih =>
    obtain ⟨held, h⟩ := ih
    exact h.step op

theorem map_fst_set {l : List (Bytes × List Subscriber)} {i : Nat} {topic : Bytes}
    {callbacks callbacks' : List Subscriber} (h : l[i]? = some (topic, callbacks)) :
    (l.set i (topic, callbacks')).map Prod.fst = l.map Prod.fst := by
  obtain ⟨hi, hget⟩ := List.getElem?_eq_some_iff.mp h
  have hself := @List.set_getElem_self _ (l.map Prod.fst) i (by
    rw [List.length_map]
    exact hi)
  rw [List.getElem_map, hget] at hself
  rw [List.map_set]
  exact hself

theorem Change.nodup {topic : Bytes} {subscriber : Subscriber} {l l' : List (Bytes × List Subscriber)}
    (h : Change topic subscriber l l') (hl : (l.map Prod.fst).Nodup) : (l'.map Prod.fst).Nodup := by
  cases h with
  | same => exact hl
  | @appended i callbacks hget hroom => rwa [map_fst_set hget]
  | added habsent =>
    rw [List.map_append, List.nodup_append]
    refine ⟨hl, List.nodup_singleton _, ?_⟩
    rintro a ha b hb rfl
    rw [List.map_singleton, List.mem_singleton] at hb
    rw [hb] at ha
    exact habsent ha

theorem Removal.nodup {topic : Bytes} {subscriber : Subscriber} {l l' : List (Bytes × List Subscriber)}
    (h : Removal topic subscriber l l') (hl : (l.map Prod.fst).Nodup) : (l'.map Prod.fst).Nodup := by
  cases h with
  | callback hget => rwa [map_fst_set hget]
  | topic hget =>
    rw [← List.eraseIdx_map]
    exact hl.eraseIdx _

theorem topics_nodup (N TOPIC : Nat) (ops : List SubscriptionOp) : (after N TOPIC ops).topics.Nodup := by
  induction ops using List.reverseRecOn with
  | nil => exact List.nodup_nil
  | append_singleton ops op ih =>
    rw [after_append]
    rcases apply_cases (wellFormed_after N TOPIC ops) op with
      ⟨e, he⟩ | ⟨s', hs', -, ⟨topic, subscriber, -, hchange⟩ | ⟨topic, subscriber, hremoval⟩⟩
    · rw [he]
      exact ih
    · rw [hs']
      exact hchange.nodup ih
    · rw [hs']
      exact hremoval.nodup ih

theorem callbacks_bounded {s : Subscriptions TOPIC} (h : s.WellFormed) {e : Bytes × List Subscriber}
    (he : e ∈ s.listing) : 1 ≤ e.2.length ∧ e.2.length ≤ 4 := by
  obtain ⟨slot, hslot, rfl⟩ := List.mem_map.mp he
  have hlive := h.live slot hslot
  rw [SubscriptionSlot.view, length_called hlive]
  exact ⟨hlive.called_pos, hlive.called_le⟩

theorem filterMatching_eq (topic : Bytes) (entries : List SubscriptionSlot) :
    filterMatching topic entries =
      .ok ((entries.map SubscriptionSlot.view).filter fun e =>
        decide (bmWildcardMatch topic e.1 = .ok true)) := by
  induction entries with
  | nil => rfl
  | cons e rest ih =>
    obtain ⟨hit, hhit, -⟩ := bmWildcardMatch_eq topic e.held
    have hview : bmWildcardMatch topic e.view.1 = .ok hit := hhit
    simp only [filterMatching, hhit, ih, bind, Except.bind, pure, Except.pure, List.map_cons,
      List.filter_cons, hview]
    cases hit with
    | false => rfl
    | true => rfl

/-- The store and the publications. -/
theorem subscriptions_and_publications :
    (∀ (N TOPIC : Nat) (ops : List SubscriptionOp),
      (after N TOPIC ops).topics.Nodup ∧
      (∀ e ∈ (after N TOPIC ops).listing, 1 ≤ e.2.length ∧ e.2.length ≤ 4) ∧
      (∀ (op : SubscriptionOp) (e : SubscriptionError), (op.apply (after N TOPIC ops)).2 = .error e →
        (op.apply (after N TOPIC ops)).1 = after N TOPIC ops) ∧
      (∃ held, InOrder N TOPIC ops held) ∧
      ∀ topic, (after N TOPIC ops).matchingCallbacks topic =
        .ok ((after N TOPIC ops).listing.filter fun e => decide (bmWildcardMatch topic e.1 = .ok true))) ∧
    ∀ (buf topic : Bytes) (kind version : UInt8) (data buf' : Bytes) (n : Nat),
      encode buf topic kind version data = .ok (buf', n) →
        decode (buf'.take n) = .ok ⟨0, 0, topic, kind, version, data⟩ := by
  refine ⟨?_, fun _ _ _ _ _ _ _ h => decode_encode h⟩
  intro N TOPIC ops
  have hwell := wellFormed_after N TOPIC ops
  refine ⟨topics_nodup N TOPIC ops, fun e he => callbacks_bounded hwell he, ?_, inOrder_after N TOPIC ops,
    fun topic => filterMatching_eq topic _⟩
  intro op e he
  rcases apply_cases hwell op with ⟨e', hrefused⟩ | ⟨s', haccepted, -⟩
  · rw [hrefused]
  · rw [haccepted] at he
    cases he

end Subscriptions

end Bristlemouth.Pubsub
