import Bristlemouth.Lib.FixedArray
import Bristlemouth.Lib.KeyedList
import Bristlemouth.Pubsub.Publication
import Bristlemouth.Wire.Wildcard

/-!
# Subscriptions

The topics of `pubsub.rs`, each with its callbacks. Both are arrays of fixed length that are filled from
the front; `listing` is what is in use of them. An operation changes the listing in one of four ways,
which are the constructors of `Change`, or is refused.
-/

set_option autoImplicit false

namespace Bristlemouth.Pubsub

open Bytes Wildcard FixedArray

inductive SubscriptionError where
  | emptyTopic
  | topicTooLong
  | full
  | notSubscribed
  | noSuchSubscriber
deriving DecidableEq, Repr

/-- Who is called back. -/
inductive Subscriber where
  | application
  | service
  | reply
deriving DecidableEq, Repr

/-- `CALLBACKS` -/
def maxCallbacks : Nat := 4

structure SubscriptionSlot where
  topic : Bytes
  len : Nat
  callbacks : List Subscriber
  callbacksLen : Nat
deriving DecidableEq, Repr

namespace SubscriptionSlot

def empty (TOPIC : Nat) : SubscriptionSlot :=
  ⟨List.replicate TOPIC 0, 0, List.replicate maxCallbacks .application, 0⟩

/-- The method `topic`. -/
def held (e : SubscriptionSlot) : Bytes := e.topic.take e.len

/-- The method `callbacks`. -/
def called (e : SubscriptionSlot) : List Subscriber := e.callbacks.take e.callbacksLen

def view (e : SubscriptionSlot) : Bytes × List Subscriber := (e.held, e.called)

end SubscriptionSlot

structure Subscriptions (TOPIC : Nat) where
  len : Nat
  entries : List SubscriptionSlot

/-- `check_topic` -/
def checkTopic (topic : Bytes) : Except SubscriptionError Unit :=
  if topic = [] then .error .emptyTopic
  else if topicMaxLen ≤ topic.length then .error .topicTooLong
  else .ok ()

namespace Subscriptions

variable {TOPIC : Nat}

def new (N TOPIC : Nat) : Subscriptions TOPIC := ⟨0, List.replicate N (.empty TOPIC)⟩

def inUse (s : Subscriptions TOPIC) : List SubscriptionSlot := s.entries.take s.len

def position (s : Subscriptions TOPIC) (topic : Bytes) : Option Nat :=
  s.inUse.findIdx? fun e => decide (e.held = topic)

/-- `self.entries[index]` -/
def entry (s : Subscriptions TOPIC) (index : Nat) : SubscriptionSlot := s.entries.getD index (.empty TOPIC)

def subscribeAs (s : Subscriptions TOPIC) (topic : Bytes) (subscriber : Subscriber) :
    Subscriptions TOPIC × Except SubscriptionError Unit :=
  match checkTopic topic with
  | .error e => (s, .error e)
  | .ok () =>
    match s.position topic with
    | some index =>
      let entry := s.entry index
      -- only the head is compared
      if entry.callbacks[0]? = some subscriber then (s, .ok ())
      else if entry.callbacksLen = maxCallbacks then (s, .error .full)
      else
        ({ s with entries := s.entries.set index { entry with
            callbacks := entry.callbacks.set entry.callbacksLen subscriber
            callbacksLen := entry.callbacksLen + 1 } }, .ok ())
    | none =>
      if s.len = s.entries.length ∨ TOPIC < topic.length then (s, .error .full)
      else
        let entry := s.entry s.len
        ({ s with
          len := s.len + 1
          entries := s.entries.set s.len
            { topic := entry.topic.copyAt 0 topic
              len := topic.length
              callbacks := entry.callbacks.set 0 subscriber
              callbacksLen := 1 } }, .ok ())

def subscribe (s : Subscriptions TOPIC) (topic : Bytes) :
    Subscriptions TOPIC × Except SubscriptionError Unit := s.subscribeAs topic .application

def unsubscribeAs (s : Subscriptions TOPIC) (topic : Bytes) (subscriber : Subscriber) :
    Subscriptions TOPIC × Except SubscriptionError Unit :=
  match checkTopic topic with
  | .error e => (s, .error e)
  | .ok () =>
    match s.position topic with
    | none => (s, .error .notSubscribed)
    | some index =>
      let entry := s.entry index
      match entry.called.findIdx? fun held => decide (held = subscriber) with
      | none => (s, .error .noSuchSubscriber)
      | some i =>
        let entry := { entry with
          callbacks := rotateLeft entry.callbacks i entry.callbacksLen
          callbacksLen := entry.callbacksLen - 1 }
        let entries := s.entries.set index entry
        if entry.callbacksLen = 0 then
          ({ s with len := s.len - 1, entries := rotateLeft entries index s.len }, .ok ())
        else ({ s with entries }, .ok ())

def unsubscribe (s : Subscriptions TOPIC) (topic : Bytes) :
    Subscriptions TOPIC × Except SubscriptionError Unit := s.unsubscribeAs topic .application

/-- The filter of `matching_callbacks`. -/
def filterMatching (topic : Bytes) : List SubscriptionSlot → Except Fault (List (Bytes × List Subscriber))
  | [] => .ok []
  | e :: rest => do
    let hit ← bmWildcardMatch topic e.held
    let others ← filterMatching topic rest
    return if hit then e.view :: others else others

def matchingCallbacks (s : Subscriptions TOPIC) (topic : Bytes) :
    Except Fault (List (Bytes × List Subscriber)) := filterMatching topic s.inUse

/-- The topics and their callbacks, in list order. -/
def listing (s : Subscriptions TOPIC) : List (Bytes × List Subscriber) :=
  s.inUse.map SubscriptionSlot.view

/-! ### What an operation does to the listing -/

/-- The arrays of a slot have their length. -/
structure Sized (TOPIC : Nat) (e : SubscriptionSlot) : Prop where
  topic_length : e.topic.length = TOPIC
  callbacks_length : e.callbacks.length = maxCallbacks

/-- A slot in use holds a topic and at least one callback. -/
structure Live (TOPIC : Nat) (e : SubscriptionSlot) : Prop extends Sized TOPIC e where
  held_le : e.len ≤ TOPIC
  called_pos : 0 < e.callbacksLen
  called_le : e.callbacksLen ≤ maxCallbacks

structure WellFormed (s : Subscriptions TOPIC) : Prop where
  len_le : s.len ≤ s.entries.length
  sized : ∀ e ∈ s.entries, Sized TOPIC e
  live : ∀ e ∈ s.inUse, Live TOPIC e

/-- An accepted operation. -/
inductive Change (topic : Bytes) (subscriber : Subscriber) :
    List (Bytes × List Subscriber) → List (Bytes × List Subscriber) → Prop
  | same {l : List (Bytes × List Subscriber)} {rest : List Subscriber}
      (h : (topic, subscriber :: rest) ∈ l) : Change topic subscriber l l
  | appended {l : List (Bytes × List Subscriber)} {i : Nat} {callbacks : List Subscriber}
      (h : l[i]? = some (topic, callbacks)) (hroom : callbacks.length < maxCallbacks) :
      Change topic subscriber l (l.set i (topic, callbacks ++ [subscriber]))
  | added {l : List (Bytes × List Subscriber)} (h : topic ∉ l.map Prod.fst) :
      Change topic subscriber l (l ++ [(topic, [subscriber])])

/-- An accepted removal: of the first such callback, and of the topic with its last. -/
inductive Removal (topic : Bytes) (subscriber : Subscriber) :
    List (Bytes × List Subscriber) → List (Bytes × List Subscriber) → Prop
  | callback {l : List (Bytes × List Subscriber)} {i : Nat} {callbacks : List Subscriber}
      (h : l[i]? = some (topic, callbacks)) (hmem : subscriber ∈ callbacks)
      (hrest : callbacks.erase subscriber ≠ []) :
      Removal topic subscriber l (l.set i (topic, callbacks.erase subscriber))
  | topic {l : List (Bytes × List Subscriber)} {i : Nat} (h : l[i]? = some (topic, [subscriber])) :
      Removal topic subscriber l (l.eraseIdx i)

section
variable {s : Subscriptions TOPIC} {topic : Bytes} {subscriber : Subscriber} {e : SubscriptionSlot} {i : Nat}

theorem wellFormed_new (N TOPIC : Nat) : (new N TOPIC).WellFormed where
  len_le := Nat.zero_le _
  sized := by
    intro e he
    rw [List.eq_of_mem_replicate he]
    exact ⟨List.length_replicate, List.length_replicate⟩
  live := fun e he => absurd he List.not_mem_nil

theorem inUse_set (s : Subscriptions TOPIC) (i : Nat) (e : SubscriptionSlot) :
    ({ s with entries := s.entries.set i e } : Subscriptions TOPIC).inUse = s.inUse.set i e :=
  List.take_set

theorem listing_set (s : Subscriptions TOPIC) (i : Nat) (e : SubscriptionSlot) :
    ({ s with entries := s.entries.set i e } : Subscriptions TOPIC).listing = s.listing.set i e.view := by
  rw [listing, inUse_set, List.map_set]
  rfl

theorem WellFormed.set (h : s.WellFormed) (i : Nat) (he : Live TOPIC e) :
    ({ s with entries := s.entries.set i e } : Subscriptions TOPIC).WellFormed where
  len_le := by
    rw [List.length_set]
    exact h.len_le
  sized := by
    intro e' he'
    rcases List.mem_or_eq_of_mem_set he' with hold | rfl
    · exact h.sized e' hold
    · exact he.toSized
  live := by
    intro e' he'
    rw [inUse_set] at he'
    rcases List.mem_or_eq_of_mem_set he' with hold | rfl
    · exact h.live e' hold
    · exact he

theorem inUse_push (h : s.len < s.entries.length) (e : SubscriptionSlot) :
    ({ s with len := s.len + 1, entries := s.entries.set s.len e } : Subscriptions TOPIC).inUse =
      s.inUse ++ [e] :=
  take_set_end h e

theorem listing_push (h : s.len < s.entries.length) (e : SubscriptionSlot) :
    ({ s with len := s.len + 1, entries := s.entries.set s.len e } : Subscriptions TOPIC).listing =
      s.listing ++ [e.view] := by
  rw [listing, inUse_push h, List.map_append]
  rfl

theorem WellFormed.push (h : s.WellFormed) (hroom : s.len < s.entries.length) (he : Live TOPIC e) :
    ({ s with len := s.len + 1, entries := s.entries.set s.len e } : Subscriptions TOPIC).WellFormed where
  len_le := by
    rw [List.length_set]
    exact hroom
  sized := by
    intro e' he'
    rcases List.mem_or_eq_of_mem_set he' with hold | rfl
    · exact h.sized e' hold
    · exact he.toSized
  live := by
    intro e' he'
    rw [inUse_push hroom] at he'
    rcases List.mem_append.mp he' with hold | hnew
    · exact h.live e' hold
    · rw [List.mem_singleton.mp hnew]
      exact he

/-- A slot that is emptied goes to the end of those in use, and out of use. -/
theorem inUse_drop (hi : i < s.len) (hlen : s.len ≤ s.entries.length) (e : SubscriptionSlot) :
    ({ s with len := s.len - 1, entries := rotateLeft (s.entries.set i e) i s.len } :
      Subscriptions TOPIC).inUse = s.inUse.eraseIdx i := by
  have herased : (rotateLeft (s.entries.set i e) i s.len).take (s.len - 1) =
      ((s.entries.set i e).take s.len).eraseIdx i :=
    take_rotateLeft hi (by rw [List.length_set]; exact hlen)
  rw [List.take_set, List.eraseIdx_set_eq] at herased
  exact herased

theorem WellFormed.drop (h : s.WellFormed) (hi : i < s.len) (he : Sized TOPIC e) :
    ({ s with len := s.len - 1, entries := rotateLeft (s.entries.set i e) i s.len } :
      Subscriptions TOPIC).WellFormed where
  len_le := by
    have hle := h.len_le
    dsimp only
    rw [length_rotateLeft (Nat.le_of_lt hi) (by rw [List.length_set]; exact hle), List.length_set]
    omega
  sized := by
    intro e' he'
    rcases List.mem_or_eq_of_mem_set (mem_rotateLeft he') with hold | rfl
    · exact h.sized e' hold
    · exact he
  live := by
    intro e' he'
    rw [inUse_drop hi h.len_le] at he'
    exact h.live e' (List.mem_of_mem_eraseIdx he')

/-- A topic that is found is in the slot that is read. -/
theorem position_some (hpos : s.position topic = some i) :
    i < s.len ∧ s.entry i ∈ s.inUse ∧ (s.entry i).held = topic ∧
      s.listing[i]? = some (topic, (s.entry i).called) := by
  obtain ⟨hi, hheld, -⟩ := List.findIdx?_eq_some_iff_getElem.mp hpos
  have hget := List.getElem?_eq_getElem hi
  have hlt : i < s.len := by
    rw [inUse, List.length_take] at hi
    omega
  have hentry : s.entry i = s.inUse[i] := by
    have hsame : s.entries[i]? = some s.inUse[i] := by
      rw [← hget, inUse, List.getElem?_take, if_pos hlt]
    rw [entry, List.getD_eq_getElem?_getD, hsame]
    rfl
  rw [hentry]
  refine ⟨hlt, List.getElem_mem hi, of_decide_eq_true hheld, ?_⟩
  rw [listing, List.getElem?_map, hget, Option.map_some, SubscriptionSlot.view, of_decide_eq_true hheld]

theorem position_none (hpos : s.position topic = none) : topic ∉ s.listing.map Prod.fst := by
  have hnone := List.findIdx?_eq_none_iff.mp hpos
  rw [listing, List.map_map]
  rintro hmem
  obtain ⟨e, he, hheld⟩ := List.mem_map.mp hmem
  exact absurd hheld (of_decide_eq_false (hnone e he))

theorem length_called (he : Live TOPIC e) : e.called.length = e.callbacksLen := by
  rw [SubscriptionSlot.called, List.length_take, he.callbacks_length]
  exact Nat.min_eq_left he.called_le

theorem entry_mem (h : i < s.entries.length) : s.entry i ∈ s.entries := by
  rw [entry, List.getD_eq_getElem?_getD, List.getElem?_eq_getElem h]
  exact List.getElem_mem h

/-- One more callback behind those of a slot. -/
theorem called_append (he : Live TOPIC e) (hroom : e.callbacksLen < maxCallbacks) (subscriber : Subscriber) :
    Live TOPIC { e with
      callbacks := e.callbacks.set e.callbacksLen subscriber
      callbacksLen := e.callbacksLen + 1 } ∧
    (e.callbacks.set e.callbacksLen subscriber).take (e.callbacksLen + 1) = e.called ++ [subscriber] := by
  have hlen := he.callbacks_length
  refine ⟨⟨⟨he.topic_length, ?_⟩, he.held_le, Nat.succ_pos _, hroom⟩, take_set_end (by omega) _⟩
  rw [List.length_set]
  exact hlen

/-- A free slot with its first topic and callback. -/
theorem slot_filled (he : Sized TOPIC e) (hfit : topic.length ≤ TOPIC) (subscriber : Subscriber) :
    Live TOPIC
      { topic := e.topic.copyAt 0 topic
        len := topic.length
        callbacks := e.callbacks.set 0 subscriber
        callbacksLen := 1 } ∧
    (e.topic.copyAt 0 topic).take topic.length = topic ∧
    (e.callbacks.set 0 subscriber).take 1 = [subscriber] := by
  have hlen := he.callbacks_length
  have htopic := he.topic_length
  refine ⟨⟨⟨?_, ?_⟩, hfit, Nat.one_pos, show 1 ≤ maxCallbacks by decide⟩, ?_, ?_⟩
  · rw [length_copyAt _ _ _ (by omega)]
    exact htopic
  · rw [List.length_set]
    exact hlen
  · have htake := @take_copyAt e.topic 0 topic (Nat.zero_le _)
    rw [Nat.zero_add] at htake
    exact htake
  · exact take_set_end (n := 0) (by rw [hlen]; decide) subscriber

theorem subscribeAs_cases (h : s.WellFormed) (topic : Bytes) (subscriber : Subscriber) :
    (∃ e, s.subscribeAs topic subscriber = (s, .error e)) ∨
      ∃ s', s.subscribeAs topic subscriber = (s', .ok ()) ∧ s'.WellFormed ∧
        Change topic subscriber s.listing s'.listing := by
  unfold subscribeAs
  cases checkTopic topic with
  | error e => exact .inl ⟨e, rfl⟩
  | ok _ =>
    dsimp only
    cases hpos : s.position topic with
    | some i =>
      obtain ⟨hlt, hmem, hheld, hget⟩ := position_some hpos
      have hlive := h.live _ hmem
      dsimp only
      by_cases hhead : (s.entry i).callbacks[0]? = some subscriber
      · rw [if_pos hhead]
        refine .inr ⟨s, rfl, h, ?_⟩
        have hcalled : (s.entry i).called[0]? = some subscriber := by
          rw [SubscriptionSlot.called, List.getElem?_take, if_pos hlive.called_pos, hhead]
        cases hlist : (s.entry i).called with
        | nil =>
          rw [hlist] at hcalled
          cases hcalled
        | cons first rest =>
          rw [hlist] at hcalled hget
          cases hcalled
          exact .same (List.mem_of_getElem? hget)
      · rw [if_neg hhead]
        by_cases hfull : (s.entry i).callbacksLen = maxCallbacks
        · rw [if_pos hfull]
          exact .inl ⟨_, rfl⟩
        · rw [if_neg hfull]
          have hle := hlive.called_le
          obtain ⟨hlive', hcalled⟩ := called_append hlive (by omega) subscriber
          refine .inr ⟨_, rfl, h.set i hlive', ?_⟩
          rw [listing_set, SubscriptionSlot.view, SubscriptionSlot.called, hcalled]
          have hsame : ({ s.entry i with
              callbacks := (s.entry i).callbacks.set (s.entry i).callbacksLen subscriber
              callbacksLen := (s.entry i).callbacksLen + 1 } : SubscriptionSlot).held = topic := hheld
          rw [hsame]
          exact .appended hget (by rw [length_called hlive]; omega)
    | none =>
      dsimp only
      by_cases hfull : s.len = s.entries.length ∨ TOPIC < topic.length
      · rw [if_pos hfull]
        exact .inl ⟨_, rfl⟩
      · rw [if_neg hfull]
        obtain ⟨hroom, hfit⟩ := not_or.mp hfull
        have hle := h.len_le
        have hlt : s.len < s.entries.length := by omega
        obtain ⟨hlive, htopic, hcalled⟩ :=
          slot_filled (h.sized _ (entry_mem hlt)) (by omega : topic.length ≤ TOPIC) subscriber
        refine .inr ⟨_, rfl, h.push hlt hlive, ?_⟩
        rw [listing_push hlt, SubscriptionSlot.view, SubscriptionSlot.held, SubscriptionSlot.called, htopic,
          hcalled]
        exact .added (position_none hpos)

/-- A callback less in a slot. -/
theorem called_erase (he : Live TOPIC e)
    (hfind : (e.called.findIdx? fun held => decide (held = subscriber)) = some i) :
    subscriber ∈ e.called ∧
    Sized TOPIC { e with
      callbacks := rotateLeft e.callbacks i e.callbacksLen
      callbacksLen := e.callbacksLen - 1 } ∧
    (rotateLeft e.callbacks i e.callbacksLen).take (e.callbacksLen - 1) = e.called.erase subscriber := by
  obtain ⟨hi, hsame, -⟩ := List.findIdx?_eq_some_iff_getElem.mp hfind
  have hlt := hi
  rw [length_called he] at hlt
  have hlen : e.callbacksLen ≤ e.callbacks.length := by
    rw [he.callbacks_length]
    exact he.called_le
  refine ⟨of_decide_eq_true hsame ▸ List.getElem_mem hi, ⟨he.topic_length, ?_⟩, ?_⟩
  · exact (length_rotateLeft (Nat.le_of_lt hlt) hlen).trans he.callbacks_length
  · have herase := @List.eraseP_eq_eraseIdx _ e.called fun held => decide (held = subscriber)
    rw [hfind] at herase
    rw [take_rotateLeft hlt hlen, List.erase_eq_eraseP']
    exact herase.symm

theorem unsubscribeAs_cases (h : s.WellFormed) (topic : Bytes) (subscriber : Subscriber) :
    (∃ e, s.unsubscribeAs topic subscriber = (s, .error e)) ∨
      ∃ s', s.unsubscribeAs topic subscriber = (s', .ok ()) ∧ s'.WellFormed ∧
        Removal topic subscriber s.listing s'.listing := by
  unfold unsubscribeAs
  cases checkTopic topic with
  | error e => exact .inl ⟨e, rfl⟩
  | ok _ =>
    dsimp only
    cases hpos : s.position topic with
    | none => exact .inl ⟨_, rfl⟩
    | some index =>
      obtain ⟨hlt, hmem, hheld, hget⟩ := position_some hpos
      have hlive := h.live _ hmem
      dsimp only
      cases hfind : (s.entry index).called.findIdx? fun held => decide (held = subscriber) with
      | none => exact .inl ⟨_, rfl⟩
      | some i =>
        obtain ⟨hcalled, hsized, herase⟩ := called_erase hlive hfind
        have hlength := length_called hlive
        have hcount := List.length_erase_of_mem hcalled
        have hpositive := hlive.called_pos
        dsimp only
        by_cases hlast : (s.entry index).callbacksLen - 1 = 0
        · rw [if_pos hlast]
          refine .inr ⟨_, rfl, h.drop hlt hsized, ?_⟩
          have hone : (s.entry index).called = [subscriber] := by
            have hsingle : (s.entry index).called.length = 1 := by omega
            obtain ⟨first, hfirst⟩ := List.length_eq_one_iff.mp hsingle
            rw [hfirst] at hcalled ⊢
            rw [List.mem_singleton.mp hcalled]
          rw [hone] at hget
          have hgone : ({ s with
              len := s.len - 1
              entries := rotateLeft (s.entries.set index { s.entry index with
                callbacks := rotateLeft (s.entry index).callbacks i (s.entry index).callbacksLen
                callbacksLen := (s.entry index).callbacksLen - 1 }) index s.len } :
              Subscriptions TOPIC).listing = s.listing.eraseIdx index := by
            rw [listing, inUse_drop hlt h.len_le, listing, List.eraseIdx_map]
          rw [hgone]
          exact .topic hget
        · rw [if_neg hlast]
          have hlive' : Live TOPIC { s.entry index with
              callbacks := rotateLeft (s.entry index).callbacks i (s.entry index).callbacksLen
              callbacksLen := (s.entry index).callbacksLen - 1 } :=
            ⟨hsized, hlive.held_le, Nat.pos_of_ne_zero hlast,
              (Nat.sub_le _ _).trans hlive.called_le⟩
          refine .inr ⟨_, rfl, h.set index hlive', ?_⟩
          rw [listing_set, SubscriptionSlot.view, SubscriptionSlot.called, herase]
          have hsame : ({ s.entry index with
              callbacks := rotateLeft (s.entry index).callbacks i (s.entry index).callbacksLen
              callbacksLen := (s.entry index).callbacksLen - 1 } : SubscriptionSlot).held = topic := hheld
          rw [hsame]
          refine .callback hget hcalled ?_
          intro hnil
          rw [hnil, List.length_nil] at hcount
          omega

end

end Subscriptions

end Bristlemouth.Pubsub
