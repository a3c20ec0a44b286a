import Bristlemouth.Bcmp.Bodies
import Bristlemouth.Lib.KeyedList
import Bristlemouth.Wire.Util
import Mathlib.Data.Finset.Card
import Mathlib.Data.List.Dedup

/-!
# The neighbour table

`neighbor.rs`: which neighbours a node knows, on which ports, and whether their leases are good. The
table is the list of its occupied entries, with room for `N`.

`Heard` is what a heartbeat can do: renew the entry of a known node, or put a new entry at the end,
over whoever was on the port.
-/

set_option autoImplicit false

namespace Bristlemouth

structure Neighbor where
  nodeId : UInt64
  port : UInt8
  lastHeartbeatMs : UInt32
  lastTimeSinceBootUs : UInt64
  heartbeatPeriodS : UInt32
  online : Bool
deriving DecidableEq

namespace Neighbor

/-- Two advertised periods, in wrapping arithmetic. -/
def leaseMs (n : Neighbor) : UInt32 := n.heartbeatPeriodS * 2 * 1000

/-- A new entry, before its first heartbeat is recorded. -/
def fresh (nodeId : UInt64) (port : UInt8) : Neighbor := ⟨nodeId, port, 0, 0, 0, false⟩

/-- An entry with a heartbeat recorded. The port is not among what is. -/
def heard (n : Neighbor) (nowMs : UInt32) (heartbeat : Heartbeat) : Neighbor :=
  { n with
    lastTimeSinceBootUs := heartbeat.timeSinceBootUs
    heartbeatPeriodS := heartbeat.livelinessLeaseDurS
    lastHeartbeatMs := nowMs
    online := true }

def offline (n : Neighbor) : Neighbor := { n with online := false }

def lapsedAt (n : Neighbor) (nowMs : UInt32) : Bool :=
  n.online && timeRemaining n.lastHeartbeatMs nowMs n.leaseMs == 0

/-- What an entry is known by. -/
def key (n : Neighbor) : UInt64 × UInt8 := (n.nodeId, n.port)

@[simp] theorem key_heard (n : Neighbor) (nowMs : UInt32) (heartbeat : Heartbeat) :
    (n.heard nowMs heartbeat).key = n.key := rfl

@[simp] theorem key_offline (n : Neighbor) : n.offline.key = n.key := rfl

end Neighbor

structure HeartbeatOutcome where
  added : Bool
  evicted : Option UInt64
  discoveryCallbacks : Nat
  reset : Bool
  requestInfo : Bool
  tableFull : Bool
deriving DecidableEq

def HeartbeatOutcome.default : HeartbeatOutcome := ⟨false, none, 0, false, false, false⟩

structure NeighborTable (N : Nat) where
  entries : List Neighbor
deriving DecidableEq

namespace NeighborTable

variable {N : Nat}

def new : NeighborTable N := ⟨[]⟩

/-- A node id of zero never matches. -/
def position (t : NeighborTable N) (nodeId : UInt64) : Option Nat :=
  if nodeId = 0 then none else t.entries.findIdx? fun n => n.nodeId = nodeId

def find (t : NeighborTable N) (nodeId : UInt64) : Option Neighbor :=
  if nodeId = 0 then none else t.entries.find? fun n => n.nodeId = nodeId

/-- The part of `on_heartbeat` after the entry's index is known, which is inside the table. -/
def record (entries : List Neighbor) (index : Nat) (nowMs : UInt32) (heartbeat : Heartbeat)
    (outcome : HeartbeatOutcome) : NeighborTable N × HeartbeatOutcome :=
  match entries[index]? with
  | none => (⟨entries⟩, outcome)
  | some neighbor =>
    let reset := decide (heartbeat.timeSinceBootUs < neighbor.lastTimeSinceBootUs)
    (⟨entries.set index (neighbor.heard nowMs heartbeat)⟩,
      { outcome with
        reset := reset
        discoveryCallbacks := outcome.discoveryCallbacks + if !neighbor.online || reset then 1 else 0
        requestInfo := outcome.requestInfo || reset })

/-- Whoever is on the port is dropped before a new neighbour is added. -/
def evict (entries : List Neighbor) (port : UInt8) : List Neighbor × Option UInt64 :=
  match entries.findIdx? fun n => n.port = port with
  | none => (entries, none)
  | some occupant => (entries.eraseIdx occupant, entries[occupant]?.map Neighbor.nodeId)

def onHeartbeat (t : NeighborTable N) (nowMs : UInt32) (nodeId : UInt64) (ingressPort : UInt8)
    (heartbeat : Heartbeat) : NeighborTable N × HeartbeatOutcome :=
  match t.position nodeId with
  | some index => record t.entries index nowMs heartbeat .default
  | none =>
    let (entries, evicted) := evict t.entries ingressPort
    let outcome := { HeartbeatOutcome.default with evicted }
    if entries.length = N then (⟨entries⟩, { outcome with tableFull := true })
    else
      record (entries ++ [.fresh nodeId ingressPort]) entries.length nowMs heartbeat
        { outcome with added := true, discoveryCallbacks := 1, requestInfo := true }

/-- Every online neighbour whose lease has run out goes offline, and is reported. -/
def check (t : NeighborTable N) (nowMs : UInt32) : NeighborTable N × List Neighbor :=
  (⟨t.entries.map fun n => if n.lapsedAt nowMs then n.offline else n⟩,
    (t.entries.filter fun n => n.lapsedAt nowMs).map Neighbor.offline)

/-- No two entries share a port or a node id other than zero, and there is room for all of them. -/
structure Valid (t : NeighborTable N) : Prop where
  ports : (t.entries.map Neighbor.port).Nodup
  ids : ((t.entries.map Neighbor.nodeId).filter fun id => decide (id ≠ 0)).Nodup
  bounded : t.entries.length ≤ N

/-- What a heartbeat can do to a table. -/
inductive Heard (t : NeighborTable N) (nowMs : UInt32) (nodeId : UInt64) (port : UInt8)
    (heartbeat : Heartbeat) : NeighborTable N × HeartbeatOutcome → Prop
  | renewed (i : Nat) (n : Neighbor) (o : HeartbeatOutcome) (hid : nodeId ≠ 0)
      (hi : t.entries[i]? = some n) (hn : n.nodeId = nodeId) (hadded : o.added = false)
      (hfull : o.tableFull = false) (hevicted : o.evicted = none) :
      Heard t nowMs nodeId port heartbeat (⟨t.entries.set i (n.heard nowMs heartbeat)⟩, o)
  | refused (o : HeartbeatOutcome) (hunknown : nodeId ≠ 0 → ∀ n ∈ t.entries, n.nodeId ≠ nodeId)
      (hport : ∀ n ∈ t.entries, n.port ≠ port) (hroom : t.entries.length = N)
      (hadded : o.added = false) (hfull : o.tableFull = true) (hevicted : o.evicted = none) :
      Heard t nowMs nodeId port heartbeat (t, o)
  | added (o : HeartbeatOutcome) (hunknown : nodeId ≠ 0 → ∀ n ∈ t.entries, n.nodeId ≠ nodeId)
      (hroom : (t.entries.filter fun n => decide (n.port ≠ port)).length < N)
      (hadded : o.added = true) (hfull : o.tableFull = false)
      (hevicted : ∀ id, o.evicted = some id ↔ ∃ n ∈ t.entries, n.port = port ∧ n.nodeId = id) :
      Heard t nowMs nodeId port heartbeat
        (⟨(t.entries.filter fun n => decide (n.port ≠ port)) ++
          [(Neighbor.fresh nodeId port).heard nowMs heartbeat]⟩, o)

theorem position_eq_some {t : NeighborTable N} {nodeId : UInt64} {i : Nat}
    (h : t.position nodeId = some i) :
    nodeId ≠ 0 ∧ ∃ n, t.entries[i]? = some n ∧ n.nodeId = nodeId := by
  unfold position at h
  split_ifs at h with hid
  obtain ⟨hlt, hname, -⟩ := List.findIdx?_eq_some_iff_getElem.mp h
  exact ⟨hid, t.entries[i], List.getElem?_eq_getElem hlt, of_decide_eq_true hname⟩

theorem position_eq_none {t : NeighborTable N} {nodeId : UInt64} (h : t.position nodeId = none) :
    nodeId ≠ 0 → ∀ n ∈ t.entries, n.nodeId ≠ nodeId := by
  intro hid n hn
  rw [position, if_neg hid, List.findIdx?_eq_none_iff] at h
  simpa using h n hn

/-- As the ports are distinct, dropping the occupant leaves the entries of the other ports. -/
theorem evict_eq {entries : List Neighbor} (hports : (entries.map Neighbor.port).Nodup)
    (port : UInt8) :
    (evict entries port).1 = entries.filter (fun n => decide (n.port ≠ port)) ∧
      ∀ id, (evict entries port).2 = some id ↔ ∃ n ∈ entries, n.port = port ∧ n.nodeId = id := by
  have hdistinct : KeyedList.Distinct Neighbor.port entries := hports
  unfold evict
  cases h : entries.findIdx? fun n => n.port = port with
  | none =>
    have hfree := KeyedList.lookup_eq_none.mp h
    refine ⟨(List.filter_eq_self.mpr fun n hn => decide_eq_true (hfree n hn)).symm, fun id => ?_⟩
    constructor
    · intro hnone
      cases hnone
    · rintro ⟨n, hn, hport, -⟩
      exact absurd hport (hfree n hn)
  | some i =>
    obtain ⟨n, hi, hport⟩ := KeyedList.getElem?_of_lookup h
    refine ⟨KeyedList.eraseIdx_eq_filter hdistinct h, fun id => ?_⟩
    simp only [hi, Option.map_some, Option.some.injEq]
    constructor
    · intro hid
      exact ⟨n, List.mem_of_getElem? hi, hport, hid⟩
    · rintro ⟨m, hm, hmport, hid⟩
      obtain ⟨j, hj⟩ := List.mem_iff_getElem?.mp hm
      have hij := hdistinct.index_eq hi hj (hport.trans hmport.symm)
      rw [hij, hj] at hi
      cases hi
      exact hid

/-- A known neighbour is never refused a heartbeat, and an unknown one takes the port's place. -/
theorem onHeartbeat_cases {t : NeighborTable N} (ht : t.Valid) (nowMs : UInt32) (nodeId : UInt64)
    (port : UInt8) (heartbeat : Heartbeat) :
    Heard t nowMs nodeId port heartbeat (t.onHeartbeat nowMs nodeId port heartbeat) := by
  unfold onHeartbeat
  cases hp : t.position nodeId with
  | some i =>
    obtain ⟨hid, n, hi, hn⟩ := position_eq_some hp
    simp only [record, hi]
    exact .renewed i n _ hid hi hn rfl rfl rfl
  | none =>
    have hunknown := position_eq_none hp
    obtain ⟨hkept, hevicted⟩ := evict_eq ht.ports port
    by_cases hfull : (evict t.entries port).1.length = N
    · -- Nobody was dropped, or there would be room.
      have hall : t.entries.filter (fun n => decide (n.port ≠ port)) = t.entries := by
        have hle := ht.bounded
        exact List.filter_sublist.eq_of_length_le (by rw [← hkept]; omega)
      rw [hall] at hkept
      have hport : ∀ n ∈ t.entries, n.port ≠ port := by
        intro n hn
        rw [← hall] at hn
        exact of_decide_eq_true (List.mem_filter.mp hn).2
      simp only [if_pos hfull]
      have hnone : (evict t.entries port).2 = none := by
        cases h : (evict t.entries port).2 with
        | none => rfl
        | some id =>
          obtain ⟨n, hn, hnport, -⟩ := (hevicted id).mp h
          exact absurd hnport (hport n hn)
      rw [hkept] at hfull ⊢
      exact .refused _ hunknown hport hfull rfl rfl hnone
    · have hroom : (t.entries.filter fun n => decide (n.port ≠ port)).length < N := by
        have hle : (t.entries.filter fun n => decide (n.port ≠ port)).length ≤ t.entries.length :=
          List.length_filter_le _ _
        have hlen := ht.bounded
        rw [hkept] at hfull
        omega
      simp only [if_neg hfull, record, List.getElem?_concat_length]
      rw [List.set_append_right _ _ (le_refl _), Nat.sub_self, List.set_cons_zero, hkept]
      exact .added _ hunknown hroom rfl rfl hevicted

/-! ### What the entries are known by -/

def keys (t : NeighborTable N) : List (UInt64 × UInt8) := t.entries.map Neighbor.key

theorem Valid.of_keys {t t' : NeighborTable N} (ht : t.Valid) (h : t'.keys = t.keys) : t'.Valid := by
  have hports : t'.entries.map Neighbor.port = t.entries.map Neighbor.port := by
    have hsnd := congrArg (List.map Prod.snd) h
    rw [keys, keys, List.map_map, List.map_map] at hsnd
    exact hsnd
  have hids : t'.entries.map Neighbor.nodeId = t.entries.map Neighbor.nodeId := by
    have hfst := congrArg (List.map Prod.fst) h
    rw [keys, keys, List.map_map, List.map_map] at hfst
    exact hfst
  have hlength : t'.entries.length = t.entries.length := by
    have hlen := congrArg List.length h
    simpa only [keys, List.length_map] using hlen
  exact ⟨hports ▸ ht.ports, hids ▸ ht.ids, hlength ▸ ht.bounded⟩

theorem keys_renewed {t : NeighborTable N} {i : Nat} {n : Neighbor} (hi : t.entries[i]? = some n)
    (nowMs : UInt32) (heartbeat : Heartbeat) :
    (⟨t.entries.set i (n.heard nowMs heartbeat)⟩ : NeighborTable N).keys = t.keys := by
  obtain ⟨hlt, rfl⟩ := List.getElem?_eq_some_iff.mp hi
  simp only [keys, List.map_set, Neighbor.key_heard]
  rw [← List.getElem_map Neighbor.key (h := by simpa using hlt), List.set_getElem_self]

theorem keys_check (t : NeighborTable N) (nowMs : UInt32) : (t.check nowMs).1.keys = t.keys := by
  simp only [keys, check, List.map_map]
  refine List.map_congr_left fun n _ => ?_
  simp only [Function.comp_apply]
  split_ifs <;> rfl

theorem Valid.check {t : NeighborTable N} (ht : t.Valid) (nowMs : UInt32) :
    (t.check nowMs).1.Valid :=
  ht.of_keys (keys_check t nowMs)

theorem Heard.valid {t : NeighborTable N} (ht : t.Valid) {nowMs : UInt32} {nodeId : UInt64}
    {port : UInt8} {heartbeat : Heartbeat} {r : NeighborTable N × HeartbeatOutcome}
    (h : Heard t nowMs nodeId port heartbeat r) : r.1.Valid := by
  cases h with
  | renewed i n o hid hi hn hadded hfull hevicted => exact ht.of_keys (keys_renewed hi nowMs heartbeat)
  | refused o hunknown hport hroom hadded hfull => exact ht
  | added o hunknown hroom hadded hfull hevicted =>
    have hsub : (t.entries.filter fun n => decide (n.port ≠ port)).Sublist t.entries :=
      List.filter_sublist
    refine ⟨?_, ?_, ?_⟩
    · rw [List.map_append, List.nodup_append]
      refine ⟨ht.ports.sublist (hsub.map _), List.nodup_singleton _, ?_⟩
      intro a ha b hb hab
      obtain ⟨n, hn, rfl⟩ := List.mem_map.mp ha
      have hne := of_decide_eq_true (List.mem_filter.mp hn).2
      rw [List.map_singleton, List.mem_singleton] at hb
      exact hne (hab.trans hb)
    · rw [List.map_append, List.filter_append, List.nodup_append]
      refine ⟨ht.ids.sublist ((hsub.map _).filter _), ?_, ?_⟩
      · exact (List.nodup_singleton _).filter _
      · intro a ha b hb hab
        obtain ⟨hb, hid⟩ := List.mem_filter.mp hb
        rw [List.map_singleton, List.mem_singleton] at hb
        obtain ⟨n, hn, rfl⟩ := List.mem_map.mp (List.mem_filter.mp ha).1
        have hnode : b = nodeId := hb
        have hzero := of_decide_eq_true hid
        rw [hnode] at hab hzero
        exact hunknown hzero n (hsub.subset hn) hab
    · rw [List.length_append, List.length_singleton]
      exact hroom

theorem Heard.keys {t : NeighborTable N} {nowMs : UInt32} {nodeId : UInt64}
    {port : UInt8} {heartbeat : Heartbeat} {r : NeighborTable N × HeartbeatOutcome}
    (h : Heard t nowMs nodeId port heartbeat r) :
    r.1.keys = if r.2.added then t.keys.filter (fun k => decide (k.2 ≠ port)) ++ [(nodeId, port)]
      else t.keys := by
  cases h with
  | renewed i n o hid hi hn hadded hfull hevicted =>
    simp only [hadded, Bool.false_eq_true, if_false]
    exact keys_renewed hi nowMs heartbeat
  | refused o hunknown hport hroom hadded hfull => simp only [hadded, Bool.false_eq_true, if_false]
  | added o hunknown hroom hadded hfull hevicted =>
    simp only [hadded, if_true, NeighborTable.keys, List.map_append, List.filter_map]
    rfl

/-! ### Runs -/

inductive Event where
  | heartbeat (nowMs : UInt32) (nodeId : UInt64) (ingressPort : UInt8) (body : Heartbeat)
  | check (nowMs : UInt32)

namespace Event

/-- The table after an event. -/
def next (t : NeighborTable N) : Event → NeighborTable N
  | .heartbeat nowMs nodeId port body => (t.onHeartbeat nowMs nodeId port body).1
  | .check nowMs => (t.check nowMs).1

/-- Who an event reports lost. -/
def lost (t : NeighborTable N) : Event → List Neighbor
  | .heartbeat _ _ _ _ => []
  | .check nowMs => (t.check nowMs).2

/-- Who an event puts in the table. -/
def inserted (t : NeighborTable N) : Event → List (UInt64 × UInt8)
  | .heartbeat nowMs nodeId port body =>
    if (t.onHeartbeat nowMs nodeId port body).2.added then [(nodeId, port)] else []
  | .check _ => []

/-- The port an event is heard on. -/
def heardOn : Event → Finset UInt8
  | .heartbeat _ _ port _ => {port}
  | .check _ => ∅

end Event

def run (t : NeighborTable N) : List Event → NeighborTable N
  | [] => t
  | e :: events => run (e.next t) events

/-- Every report of a run, in order. -/
def allLost (t : NeighborTable N) : List Event → List Neighbor
  | [] => []
  | e :: events => e.lost t ++ allLost (e.next t) events

/-- Every insertion of a run, in order. -/
def allInserted (t : NeighborTable N) : List Event → List (UInt64 × UInt8)
  | [] => []
  | e :: events => e.inserted t ++ allInserted (e.next t) events

def portsHeard (events : List Event) : Finset UInt8 :=
  events.foldr (fun e ports => e.heardOn ∪ ports) ∅

/-- Whether an id and a port are those of the neighbour `who`. Node id zero is never recognised, so
there the port says who it is. -/
def isFrom (who : UInt64 × UInt8) (nodeId : UInt64) (port : UInt8) : Bool :=
  nodeId = who.1 && (who.1 ≠ 0 || port = who.2)

def Event.isHeartbeatOf (who : UInt64 × UInt8) : Event → Bool
  | .heartbeat _ nodeId port _ => isFrom who nodeId port
  | .check _ => false

/-! ### What holds of every run -/

theorem next_valid {t : NeighborTable N} (ht : t.Valid) (e : Event) : (e.next t).Valid := by
  cases e with
  | heartbeat nowMs nodeId port body => exact (onHeartbeat_cases ht nowMs nodeId port body).valid ht
  | check nowMs => exact ht.check nowMs

theorem new_valid : (new : NeighborTable N).Valid :=
  ⟨List.nodup_nil, List.nodup_nil, Nat.zero_le N⟩

theorem run_valid {t : NeighborTable N} (ht : t.Valid) (events : List Event) :
    (run t events).Valid := by
  induction events generalizing t with
  | nil => exact ht
  | cons e events ih => exact ih (next_valid ht e)

theorem run_concat (t : NeighborTable N) (events : List Event) (e : Event) :
    run t (events ++ [e]) = e.next (run t events) := by
  induction events generalizing t with
  | nil => rfl
  | cons first events ih => exact ih (first.next t)

theorem allInserted_concat (t : NeighborTable N) (events : List Event) (e : Event) :
    allInserted t (events ++ [e]) = allInserted t events ++ e.inserted (run t events) := by
  induction events generalizing t with
  | nil => simp [allInserted, run]
  | cons first events ih => simp [allInserted, run, ih]

theorem portsHeard_concat (events : List Event) (e : Event) :
    portsHeard (events ++ [e]) = portsHeard events ∪ e.heardOn := by
  induction events with
  | nil => simp [portsHeard]
  | cons first events ih =>
    simp only [portsHeard, List.cons_append, List.foldr_cons] at ih ⊢
    rw [ih, Finset.union_assoc]

theorem dedup_concat {α : Type} [DecidableEq α] (l : List α) (a : α) :
    (l ++ [a]).dedup = l.dedup.filter (fun b => decide (b ≠ a)) ++ [a] := by
  induction l with
  | nil => simp
  | cons b l ih =>
    by_cases hb : b ∈ l
    · rw [List.cons_append, List.dedup_cons_of_mem (List.mem_append_left _ hb), ih,
        List.dedup_cons_of_mem hb]
    · by_cases hba : b = a
      · subst hba
        rw [List.cons_append, List.dedup_cons_of_mem (by simp), ih, List.dedup_cons_of_notMem hb]
        simp
      · rw [List.cons_append, List.dedup_cons_of_notMem (by simp [hb, hba]), ih,
          List.dedup_cons_of_notMem hb]
        simp [hba]

/-- The entries are those of the insertions that no later one of the same key came after, less the
evicted ones, in the order of the insertions. -/
theorem run_sublist_allInserted (events : List Event) :
    (run (new : NeighborTable N) events).keys.Sublist
      (allInserted (new : NeighborTable N) events).dedup := by
  induction events using List.reverseRecOn with
  | nil => exact List.Sublist.refl []
  | append_singleton events e ih =>
    rw [run_concat, allInserted_concat]
    have ht := run_valid new_valid (N := N) events
    cases e with
    | check nowMs =>
      simp only [Event.next, Event.inserted, List.append_nil]
      rw [keys_check]
      exact ih
    | heartbeat nowMs nodeId port body =>
      have hkeys := (onHeartbeat_cases ht nowMs nodeId port body).keys
      by_cases hadded :
          ((run (new : NeighborTable N) events).onHeartbeat nowMs nodeId port body).2.added = true
      · rw [if_pos hadded] at hkeys
        simp only [Event.next, Event.inserted, if_pos hadded, hkeys, dedup_concat]
        refine List.Sublist.append ?_ (List.Sublist.refl _)
        refine (ih.filter _).trans (List.monotone_filter_right _ ?_)
        intro k hk
        have hport := of_decide_eq_true hk
        exact decide_eq_true fun heq => hport (congrArg Prod.snd heq)
      · rw [if_neg hadded] at hkeys
        simp only [Event.next, Event.inserted, if_neg hadded, hkeys, List.append_nil]
        exact ih

theorem run_ports_subset (events : List Event) :
    ∀ k ∈ (run (new : NeighborTable N) events).keys, k.2 ∈ portsHeard events := by
  induction events using List.reverseRecOn with
  | nil => intro k hk; cases hk
  | append_singleton events e ih =>
    rw [run_concat, portsHeard_concat]
    have ht := run_valid new_valid (N := N) events
    intro k hk
    rw [Finset.mem_union]
    cases e with
    | check nowMs =>
      simp only [Event.next, keys_check] at hk
      exact .inl (ih k hk)
    | heartbeat nowMs nodeId port body =>
      simp only [Event.next, (onHeartbeat_cases ht nowMs nodeId port body).keys] at hk
      split_ifs at hk with hadded
      · rcases List.mem_append.mp hk with hold | hnew
        · exact .inl (ih k (List.mem_filter.mp hold).1)
        · rw [List.mem_singleton] at hnew
          exact .inr (by simp [Event.heardOn, hnew])
      · exact .inl (ih k hk)

/-- A refused heartbeat's port is one more than the table has room for. -/
theorem Heard.lt_card {t : NeighborTable N} (ht : t.Valid) {nowMs : UInt32} {nodeId : UInt64}
    {port : UInt8} {heartbeat : Heartbeat} {r : NeighborTable N × HeartbeatOutcome}
    (h : Heard t nowMs nodeId port heartbeat r) (hfull : r.2.tableFull = true) {ports : Finset UInt8}
    (hports : ∀ k ∈ t.keys, k.2 ∈ ports) (hport : port ∈ ports) : N < ports.card := by
  cases h with
  | renewed i n o hid hi hn hadded hnot hevicted => exact absurd hfull (by simp [hnot])
  | added o hunknown hroom hadded hnot hevicted => exact absurd hfull (by simp [hnot])
  | refused o hunknown hfree hroom hadded hfull =>
    have hnew : port ∉ t.entries.map Neighbor.port := by
      intro hmem
      obtain ⟨n, hn, hnport⟩ := List.mem_map.mp hmem
      exact hfree n hn hnport
    have hcard := List.toFinset_card_of_nodup (List.nodup_cons.mpr ⟨hnew, ht.ports⟩)
    have hsub : (port :: t.entries.map Neighbor.port).toFinset ⊆ ports := by
      intro p hp
      rw [List.mem_toFinset, List.mem_cons] at hp
      rcases hp with rfl | hp
      · exact hport
      · obtain ⟨n, hn, rfl⟩ := List.mem_map.mp hp
        exact hports n.key (List.mem_map_of_mem hn)
    have hle := Finset.card_le_card hsub
    rw [hcard, List.length_cons, List.length_map, hroom] at hle
    exact hle

/-! ### Losses -/

/-- Who was online in one table and is offline in the next. -/
def wentOffline (t t' : NeighborTable N) : List Neighbor :=
  ((t.entries.zip t'.entries).filter fun p => p.1.online && !p.2.online).map Prod.snd

theorem check_wentOffline (t : NeighborTable N) (nowMs : UInt32) :
    (t.check nowMs).2 = wentOffline t (t.check nowMs).1 := by
  simp only [check, wentOffline]
  induction t.entries with
  | nil => rfl
  | cons n rest ih =>
    by_cases hn : n.lapsedAt nowMs = true
    · have hon : n.online = true := (Bool.and_eq_true _ _ |>.mp hn).1
      simp [hn, hon, ih, Neighbor.offline]
    · simp only [Bool.not_eq_true] at hn
      simp [hn, ih]

/-- A heartbeat takes nobody offline. -/
theorem Heard.stays_online {t : NeighborTable N} {nowMs : UInt32} {nodeId : UInt64} {port : UInt8}
    {heartbeat : Heartbeat} {r : NeighborTable N × HeartbeatOutcome}
    (h : Heard t nowMs nodeId port heartbeat r) :
    ∀ n ∈ r.1.entries, n ∈ t.entries ∨ n.online = true := by
  cases h with
  | renewed i n o hid hi hn hadded hfull hevicted =>
    intro m hm
    rcases List.mem_or_eq_of_mem_set hm with hold | rfl
    · exact .inl hold
    · exact .inr rfl
  | refused o hunknown hport hroom hadded hfull =>
    intro m hm
    exact .inl hm
  | added o hunknown hroom hadded hfull hevicted =>
    intro m hm
    rcases List.mem_append.mp hm with hold | hnew
    · exact .inl (List.mem_filter.mp hold).1
    · rw [List.mem_singleton] at hnew
      exact .inr (by rw [hnew]; rfl)

theorem Valid.count_id_le {t : NeighborTable N} (ht : t.Valid) {nodeId : UInt64} (hid : nodeId ≠ 0) :
    (t.entries.countP fun n => decide (n.nodeId = nodeId)) ≤ 1 := by
  have hcount := List.nodup_iff_count_le_one.mp ht.ids nodeId
  rw [List.count_filter (by simpa using hid), List.count, List.countP_map] at hcount
  exact hcount

theorem Valid.count_port_le {t : NeighborTable N} (ht : t.Valid) (port : UInt8) :
    (t.entries.countP fun n => decide (n.port = port)) ≤ 1 := by
  have hcount := List.nodup_iff_count_le_one.mp ht.ports port
  rw [List.count, List.countP_map] at hcount
  exact hcount

def onlineCount (who : UInt64 × UInt8) (entries : List Neighbor) : Nat :=
  entries.countP fun n => isFrom who n.nodeId n.port && n.online

theorem Valid.onlineCount_le {t : NeighborTable N} (ht : t.Valid) (who : UInt64 × UInt8) :
    onlineCount who t.entries ≤ 1 := by
  by_cases hid : who.1 = 0
  · refine le_trans (List.countP_mono_left fun n _ hn => ?_) (ht.count_port_le who.2)
    simp only [isFrom, hid, Bool.and_eq_true, Bool.or_eq_true, decide_eq_true_eq] at hn
    rcases hn.1.2 with h | h
    · exact absurd rfl h
    · exact decide_eq_true h
  · refine le_trans (List.countP_mono_left fun n _ hn => ?_) (ht.count_id_le hid)
    simp only [isFrom, Bool.and_eq_true, decide_eq_true_eq] at hn
    exact decide_eq_true hn.1.1

/-- What a check reports is no longer online after it. -/
theorem onlineCount_check (who : UInt64 × UInt8) (nowMs : UInt32) (t : NeighborTable N) :
    ((t.check nowMs).2.countP fun n => isFrom who n.nodeId n.port) +
        onlineCount who (t.check nowMs).1.entries = onlineCount who t.entries := by
  simp only [check, onlineCount]
  induction t.entries with
  | nil => rfl
  | cons n rest ih =>
    by_cases hn : n.lapsedAt nowMs = true
    · have hon : n.online = true := (Bool.and_eq_true _ _ |>.mp hn).1
      have hid : n.offline.nodeId = n.nodeId := rfl
      have hport : n.offline.port = n.port := rfl
      have hoff : n.offline.online = false := rfl
      simp only [List.filter_cons, List.map_cons, List.countP_cons, hn, if_true, hid, hport, hoff,
        hon, Bool.and_false, Bool.and_true, Bool.false_eq_true, if_false]
      omega
    · simp only [List.filter_cons, List.map_cons, List.countP_cons, hn, Bool.false_eq_true, if_false]
      omega

/-- A heartbeat of somebody else brings nobody online. -/
theorem Heard.onlineCount_le {t : NeighborTable N} {nowMs : UInt32} {nodeId : UInt64} {port : UInt8}
    {heartbeat : Heartbeat} {r : NeighborTable N × HeartbeatOutcome}
    (h : Heard t nowMs nodeId port heartbeat r) {who : UInt64 × UInt8}
    (hwho : isFrom who nodeId port = false) :
    onlineCount who r.1.entries ≤ onlineCount who t.entries := by
  cases h with
  | renewed i n o hid hi hn hadded hfull hevicted =>
    have hother : isFrom who n.nodeId n.port = false := by
      simp only [isFrom, hn, Bool.and_eq_false_iff, decide_eq_false_iff_not] at hwho ⊢
      rcases hwho with hne | hzero
      · exact .inl hne
      · simp only [ne_eq, Bool.or_eq_false_iff, decide_eq_false_iff_not, not_not] at hzero
        exact .inl fun heq => hid (heq.trans hzero.1)
    have hheard : isFrom who (n.heard nowMs heartbeat).nodeId (n.heard nowMs heartbeat).port = false :=
      hother
    obtain ⟨hlt, hget⟩ := List.getElem?_eq_some_iff.mp hi
    simp only [onlineCount]
    rw [List.countP_set hlt, hget]
    simp [hheard]
  | refused o hunknown hport hroom hadded hfull => exact le_refl _
  | added o hunknown hroom hadded hfull hevicted =>
    have hfresh : isFrom who ((Neighbor.fresh nodeId port).heard nowMs heartbeat).nodeId
        ((Neighbor.fresh nodeId port).heard nowMs heartbeat).port = false := hwho
    simp only [onlineCount, List.countP_append, List.countP_singleton, hfresh, Bool.false_and,
      Bool.false_eq_true, if_false, Nat.add_zero]
    exact List.Sublist.countP_le List.filter_sublist

theorem lost_le {t : NeighborTable N} (ht : t.Valid) {who : UInt64 × UInt8} {e : Event}
    (he : e.isHeartbeatOf who = false) :
    ((e.lost t).countP fun n => isFrom who n.nodeId n.port) + onlineCount who (e.next t).entries ≤
      onlineCount who t.entries := by
  cases e with
  | heartbeat nowMs nodeId port body =>
    have hle := (onHeartbeat_cases ht nowMs nodeId port body).onlineCount_le he
    simpa only [Event.lost, Event.next, List.countP_nil, Nat.zero_add] using hle
  | check nowMs => exact (onlineCount_check who nowMs t).le

theorem allLost_le {t : NeighborTable N} (ht : t.Valid) {who : UInt64 × UInt8} {events : List Event}
    (hevents : ∀ e ∈ events, e.isHeartbeatOf who = false) :
    ((allLost t events).countP fun n => isFrom who n.nodeId n.port) +
      onlineCount who (run t events).entries ≤ onlineCount who t.entries := by
  induction events generalizing t with
  | nil => simp [allLost, run]
  | cons e events ih =>
    have hfirst := lost_le ht (hevents e List.mem_cons_self)
    have hrest := ih (next_valid ht e) fun e' he' => hevents e' (List.mem_cons_of_mem e he')
    simp only [allLost, run, List.countP_append]
    omega

theorem Heard.tableFull_iff {t : NeighborTable N} {nowMs : UInt32} {nodeId : UInt64} {port : UInt8}
    {heartbeat : Heartbeat} {r : NeighborTable N × HeartbeatOutcome}
    (h : Heard t nowMs nodeId port heartbeat r) :
    r.2.tableFull = true ↔ (nodeId ≠ 0 → ∀ n ∈ t.entries, n.nodeId ≠ nodeId) ∧
      (∀ n ∈ t.entries, n.port ≠ port) ∧ t.entries.length = N := by
  cases h with
  | renewed i n o hid hi hn hadded hfull hevicted =>
    rw [hfull]
    refine ⟨fun h => absurd h Bool.false_ne_true, ?_⟩
    rintro ⟨hunknown, -, -⟩
    exact absurd hn (hunknown hid n (List.mem_of_getElem? hi))
  | refused o hunknown hport hroom hadded hfull =>
    exact ⟨fun _ => ⟨hunknown, hport, hroom⟩, fun _ => hfull⟩
  | added o hunknown hroom hadded hfull hevicted =>
    rw [hfull]
    refine ⟨fun h => absurd h Bool.false_ne_true, ?_⟩
    rintro ⟨-, hport, hlen⟩
    rw [List.filter_eq_self.mpr fun n hn => decide_eq_true (hport n hn), hlen] at hroom
    exact absurd hroom (lt_irrefl N)

theorem Heard.refused_eq {t : NeighborTable N} {nowMs : UInt32} {nodeId : UInt64} {port : UInt8}
    {heartbeat : Heartbeat} {r : NeighborTable N × HeartbeatOutcome}
    (h : Heard t nowMs nodeId port heartbeat r) (hfull : r.2.tableFull = true) :
    r.1 = t ∧ r.2.added = false := by
  cases h with
  | renewed i n o hid hi hn hadded hnot hevicted => exact absurd hfull (by simp [hnot])
  | added o hunknown hroom hadded hnot hevicted => exact absurd hfull (by simp [hnot])
  | refused o hunknown hport hroom hadded hfull => exact ⟨rfl, hadded⟩

/-- The table of every run keeps its ports and its ids distinct, refuses only a heartbeat that there
is no room for, stays in the order of insertion, and reports a loss once. -/
theorem run_table (events : List Event) :
    let t := run (new : NeighborTable N) events
    t.Valid ∧ t.keys.Sublist (allInserted (new : NeighborTable N) events).dedup ∧
      (∀ nowMs nodeId port body,
        let r := t.onHeartbeat nowMs nodeId port body
        (r.2.tableFull = true ↔ (nodeId ≠ 0 → ∀ n ∈ t.entries, n.nodeId ≠ nodeId) ∧
          (∀ n ∈ t.entries, n.port ≠ port) ∧ t.entries.length = N) ∧
        (r.2.tableFull = true → r.1 = t ∧ r.2.added = false) ∧
        ((portsHeard (events ++ [.heartbeat nowMs nodeId port body])).card ≤ N →
          r.2.tableFull = false) ∧
        ∀ n ∈ r.1.entries, n ∈ t.entries ∨ n.online = true) ∧
      (∀ nowMs, (t.check nowMs).2 = wentOffline t (t.check nowMs).1) ∧
      ∀ who between, (∀ e ∈ between, e.isHeartbeatOf who = false) →
        ((allLost t between).countP fun n => isFrom who n.nodeId n.port) ≤ 1 := by
  have ht := run_valid new_valid (N := N) events
  refine ⟨ht, run_sublist_allInserted events, ?_, check_wentOffline _, ?_⟩
  · intro nowMs nodeId port body
    have h := onHeartbeat_cases ht nowMs nodeId port body
    refine ⟨h.tableFull_iff, h.refused_eq, ?_, h.stays_online⟩
    intro hcard
    rw [portsHeard_concat] at hcard
    by_contra hfull
    have hlt := h.lt_card ht (Bool.not_eq_false _ |>.mp hfull)
      (fun k hk => Finset.mem_union_left _ (run_ports_subset events k hk))
      (Finset.mem_union_right _ (Finset.mem_singleton_self port))
    exact absurd hlt (not_lt.mpr hcard)
  · intro who between hbetween
    have hle := allLost_le ht hbetween
    have hone := ht.onlineCount_le who
    omega

/-! ### The port a neighbour was last heard on -/

/-- The table's one entry for a node says that this heartbeat is the last one heard of it, and where. -/
def LastHeard (t : NeighborTable N) (nowMs : UInt32) (nodeId : UInt64) (port : UInt8)
    (heartbeat : Heartbeat) : Prop :=
  ∃ n, t.entries.filter (fun n => decide (n.nodeId = nodeId)) = [n] ∧ n.port = port ∧
    n.lastHeartbeatMs = nowMs ∧ n.heartbeatPeriodS = heartbeat.livelinessLeaseDurS

theorem Valid.filter_id {t : NeighborTable N} (ht : t.Valid) {n : Neighbor} (hn : n ∈ t.entries)
    (hid : n.nodeId ≠ 0) : t.entries.filter (fun m => decide (m.nodeId = n.nodeId)) = [n] := by
  have hle := ht.count_id_le hid
  rw [List.countP_eq_length_filter] at hle
  have hmem : n ∈ t.entries.filter (fun m => decide (m.nodeId = n.nodeId)) :=
    List.mem_filter.mpr ⟨hn, decide_eq_true rfl⟩
  obtain ⟨m, hm⟩ := List.length_eq_one_iff.mp (le_antisymm hle (List.length_pos_of_mem hmem))
  rw [hm, List.mem_singleton] at hmem
  rw [hm, hmem]

/-- The entry of a known node keeps the port it was added on. -/
theorem Heard.lastHeard_iff {t : NeighborTable N} (ht : t.Valid) {nowMs : UInt32} {nodeId : UInt64}
    {port : UInt8} {heartbeat : Heartbeat} {r : NeighborTable N × HeartbeatOutcome}
    (h : Heard t nowMs nodeId port heartbeat r) (hid : nodeId ≠ 0) (hfull : r.2.tableFull = false) :
    LastHeard r.1 nowMs nodeId port heartbeat ↔
      ∀ n ∈ t.entries, n.nodeId = nodeId → n.port = port := by
  have hvalid := h.valid ht
  cases h with
  | renewed i n o _ hi hn hadded hnot hevicted =>
    obtain ⟨hlt, hget⟩ := List.getElem?_eq_some_iff.mp hi
    have hmem : n ∈ t.entries := List.mem_of_getElem? hi
    have hold := ht.filter_id hmem (hn ▸ hid)
    have hnew := hvalid.filter_id (n := n.heard nowMs heartbeat) (List.mem_set hlt _)
      (show n.nodeId ≠ 0 from hn ▸ hid)
    subst hn
    constructor
    · rintro ⟨m, hm, hport, -, -⟩ k hk hkid
      have hmn : m = n.heard nowMs heartbeat :=
        List.singleton_injective (hm.symm.trans hnew)
      have hkn : k ∈ t.entries.filter (fun m => decide (m.nodeId = n.nodeId)) :=
        List.mem_filter.mpr ⟨hk, decide_eq_true hkid⟩
      rw [hold, List.mem_singleton] at hkn
      rw [hkn, ← hport, hmn]
      rfl
    · intro hport
      exact ⟨_, hnew, hport n hmem rfl, rfl, rfl⟩
  | refused o hunknown hport hroom hadded hnot => cases hnot.symm.trans hfull
  | added o hunknown hroom hadded hnot hevicted =>
    have hnew := hvalid.filter_id (n := (Neighbor.fresh nodeId port).heard nowMs heartbeat)
      (by simp) hid
    constructor
    · intro _ n hn hnid
      exact absurd hnid (hunknown hid n hn)
    · intro _
      exact ⟨_, hnew, rfl, rfl, rfl⟩

/-- After every heartbeat of a run that the table took, it says of its sender that it was last heard
then and there. -/
def SaysLastHeard (N : Nat) (events : List Event) : Prop :=
  ∀ before nowMs nodeId port body rest,
    events = before ++ .heartbeat nowMs nodeId port body :: rest → nodeId ≠ 0 →
      let r := (run (new : NeighborTable N) before).onHeartbeat nowMs nodeId port body
      r.2.tableFull = false → LastHeard r.1 nowMs nodeId port body

/-- Every heartbeat of a node that is in the table comes to the port of its entry. -/
def NeverMoved (N : Nat) (events : List Event) : Prop :=
  ∀ before nowMs nodeId port body rest,
    events = before ++ .heartbeat nowMs nodeId port body :: rest → nodeId ≠ 0 →
      ∀ n ∈ (run (new : NeighborTable N) before).entries, n.nodeId = nodeId → n.port = port

/-- A node that moves to another port while it is in the table keeps its old one there. -/
theorem saysLastHeard_iff (events : List Event) :
    SaysLastHeard N events ↔ NeverMoved N events := by
  constructor
  · intro hlast before nowMs nodeId port body rest hevents hid n hn hnid
    have ht := run_valid new_valid (N := N) before
    have h := onHeartbeat_cases ht nowMs nodeId port body
    have hfull : ((run (new : NeighborTable N) before).onHeartbeat nowMs nodeId port body).2.tableFull
        = false := by
      by_contra hfull
      obtain ⟨hunknown, -, -⟩ := h.tableFull_iff.mp (Bool.not_eq_false _ |>.mp hfull)
      exact hunknown hid n hn hnid
    exact (h.lastHeard_iff ht hid hfull).mp
      (hlast before nowMs nodeId port body rest hevents hid hfull) n hn hnid
  · intro hmoved before nowMs nodeId port body rest hevents hid r hfull
    have ht := run_valid new_valid (N := N) before
    exact ((onHeartbeat_cases ht nowMs nodeId port body).lastHeard_iff ht hid hfull).mpr
      (hmoved before nowMs nodeId port body rest hevents hid)

/-- A node heard on port 1, and a second later on port 2. -/
def movedCable : List Event :=
  [.heartbeat 1000 0xAA 1 ⟨1000000, 10⟩, .heartbeat 2000 0xAA 2 ⟨2000000, 10⟩]

theorem movedCable_not_saysLastHeard : ¬ SaysLastHeard 4 movedCable := by
  intro hlast
  obtain ⟨n, hn, hport, -, -⟩ := hlast [.heartbeat 1000 0xAA 1 ⟨1000000, 10⟩] 2000 0xAA 2
    ⟨2000000, 10⟩ [] rfl (by decide) (by decide +kernel)
  have hentry : n = ⟨0xAA, 1, 2000, 2000000, 10, true⟩ :=
    List.singleton_injective (hn.symm.trans (by decide +kernel))
  rw [hentry] at hport
  exact absurd hport (by decide)

end NeighborTable

end Bristlemouth
