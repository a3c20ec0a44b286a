import Bristlemouth.Dfu.Host
import Bristlemouth.Bcmp.Packet
import Bristlemouth.Lib.RawRing

/-!
# The rings of DFU

`EventQueue` of `dfu_core.rs`, `StreamBuffer` of `dfu_host.rs` and the node's `Outbox`, with their storage
as it is: indices that are computed, heads and counts that nothing bounds. Each holds the ring that the
other modules use for it, and each is a bounded queue over any run.
-/

set_option autoImplicit false

namespace Bristlemouth.Dfu

/-! ### The event queue -/

abbrev EventSlots := RawRing Event

namespace EventSlots

def new : EventSlots := ⟨List.replicate eventQueueLen Event.none, 0, 0⟩

def push (q : EventSlots) (event : Event) : Option (Bool × EventSlots) :=
  if q.count = eventQueueLen then some (false, q)
  else do
    let i ← q.index? eventQueueLen q.count
    let q ← q.set? i event
    return (true, { q with count := q.count + 1 })

def pop (q : EventSlots) : Option (Option Event × EventSlots) :=
  if q.count = 0 then some (none, q)
  else do
    let event ← q.get? q.head
    let q ← q.set? q.head Event.none
    let q ← q.advance? eventQueueLen 1
    return (some event, q)

def step (q : EventSlots) : Fifo.Op Event → Option (Fifo.Out Event × EventSlots)
  | .push event => (q.push event).map fun (ok, q) => (.pushed ok, q)
  | .pop => q.pop.map fun (event, q) => (.popped event, q)

variable {q : EventSlots} {r : EventQueue}

theorem push_holds (h : q.Holds r) (event : Event) :
    ∃ q', q.push event = some ((r.push event).2, q') ∧ q'.Holds (r.push event).1 := by
  have hcount := h.count
  by_cases hfull : r.len = eventQueueLen
  · refine ⟨q, ?_, ?_⟩
    · rw [push, if_pos (by omega), r.push_full event hfull]
    · rw [r.push_full event hfull]
      exact h
  · obtain ⟨q', hset, hq'⟩ := h.set? r.len event
    have hindex : q.index? eventQueueLen q.count = some (r.index r.len).val := by
      rw [hcount]
      exact h.index? r.len
    refine ⟨{ q' with count := q'.count + 1 }, ?_, ?_⟩
    · rw [push, if_neg (by omega), hindex]
      simp only [Option.bind_eq_bind, Option.bind_some, hset, RingQueue.push, dif_neg hfull]
      rfl
    · rw [RingQueue.push, dif_neg hfull]
      exact ⟨hq'.head, congrArg (· + 1) hq'.count, hq'.slots⟩

/-- The slot that is given up is cleared. -/
theorem pop_holds (h : q.Holds r) :
    match EventQueue.pop r with
    | none => q.pop = some (none, q)
    | some (event, r') => ∃ q', q.pop = some (some event, q') ∧ q'.Holds r' := by
  have hcount := h.count
  by_cases hempty : r.len = 0
  · rw [EventQueue.pop, if_pos hempty, pop, if_pos (by omega)]
  · have hindex : (r.index 0).val = r.head := Nat.mod_eq_of_lt r.head_lt
    obtain ⟨x, hset, hx⟩ := h.set? 0 Event.none
    obtain ⟨q', hadvance, hq'⟩ := hx.advance? (n := 1) (Nat.pos_of_ne_zero hempty)
    rw [hindex, ← h.head] at hset
    rw [EventQueue.pop, if_neg hempty]
    refine ⟨q', ?_, hq'⟩
    rw [pop, if_neg (by omega), h.get?_head]
    simp only [Option.bind_eq_bind, Option.bind_some, hset, hadvance]
    rfl

theorem step_refines {l : List Event} (h : q.Holds r) (hl : r.toList = l) (op : Fifo.Op Event) :
    ∃ q' r', q.step op = some ((Fifo.step eventQueueLen l op).1, q') ∧ q'.Holds (r' : EventQueue) ∧
      r'.toList = (Fifo.step eventQueueLen l op).2 := by
  have hlen := r.length_toList
  have hle := r.len_le
  subst hl
  cases op with
  | push event =>
    obtain ⟨q', hq', hholds⟩ := push_holds h event
    refine ⟨q', (r.push event).1, ?_, hholds, ?_⟩
    · rw [step, hq', Fifo.step]
      by_cases hfull : r.len = eventQueueLen
      · rw [if_neg (by omega), r.push_full event hfull]
        rfl
      · rw [if_pos (by omega), (r.toList_push event (by omega)).2]
        rfl
    · rw [Fifo.step]
      by_cases hfull : r.len = eventQueueLen
      · rw [if_neg (by omega), r.push_full event hfull]
      · rw [if_pos (by omega), (r.toList_push event (by omega)).1]
  | pop =>
    have hpop := pop_holds h
    cases hcase : EventQueue.pop r with
    | none =>
      rw [hcase] at hpop
      have hnil := EventQueue.pop_eq_none.mp hcase
      refine ⟨q, r, ?_, h, ?_⟩
      · rw [step, hpop, Fifo.step, hnil]
        rfl
      · rw [Fifo.step, hnil]
        rfl
    | some found =>
      obtain ⟨event, r'⟩ := found
      rw [hcase] at hpop
      obtain ⟨q', hq', hholds⟩ := hpop
      have hcons := EventQueue.pop_eq_some hcase
      refine ⟨q', r', ?_, hholds, ?_⟩
      · rw [step, hq', Fifo.step, hcons]
        rfl
      · rw [Fifo.step, hcons]
        rfl

end EventSlots

/-! ### The stream buffer -/

structure StreamStorage where
  capacity : Nat
  ring : RawRing UInt8

namespace StreamStorage

def new (capacity : Nat) : Option StreamStorage :=
  if 1 ≤ capacity ∧ capacity ≤ dfuMaxChunkSize then
    some ⟨capacity, ⟨List.replicate dfuMaxChunkSize 0, 0, 0⟩⟩
  else none

/-- The loop of `send`, from its `i`th byte on. -/
def store (capacity : Nat) : RawRing UInt8 → Nat → Bytes → Option (RawRing UInt8)
  | ring, _, [] => some ring
  | ring, i, byte :: data => do
    let k ← ring.index? capacity (ring.count + i)
    let ring ← ring.set? k byte
    store capacity ring (i + 1) data

def send (s : StreamStorage) (data : Bytes) : Option (Bool × StreamStorage) :=
  if s.ring.count + data.length > s.capacity then some (false, s)
  else do
    let ring ← store s.capacity s.ring 0 data
    return (true, { s with ring := { ring with count := ring.count + data.length } })

/-- The `n` bytes that the loop of `receive` reads, from the `i`th on. -/
def load (capacity : Nat) (ring : RawRing UInt8) : Nat → Nat → Option Bytes
  | _, 0 => some []
  | i, n + 1 => do
    let k ← ring.index? capacity i
    let byte ← ring.get? k
    let bytes ← load capacity ring (i + 1) n
    return byte :: bytes

/-- The count that is returned, and `buf` afterwards. -/
def receive (s : StreamStorage) (buf : Bytes) : Option ((Option Nat × Bytes) × StreamStorage) :=
  if s.ring.count = 0 then some ((none, buf), s)
  else do
    let n := min s.ring.count buf.length
    let bytes ← load s.capacity s.ring 0 n
    let ring ← s.ring.advance? s.capacity n
    return ((some n, buf.copyAt 0 bytes), { s with ring })

inductive Op where
  | send (data : Bytes)
  | receive (buf : Bytes)

inductive Out where
  | sent (ok : Bool)
  | received (n : Option Nat) (buf : Bytes)

def step (s : StreamStorage) : Op → Option (Out × StreamStorage)
  | .send data => (s.send data).map fun (ok, s) => (.sent ok, s)
  | .receive buf => (s.receive buf).map fun ((n, buf), s) => (.received n buf, s)

/-- A list of at most `capacity` bytes: a send is taken whole or refused, a receive takes a prefix. -/
def spec (capacity : Nat) (l : Bytes) : Op → Out × Bytes
  | .send data => if l.length + data.length ≤ capacity then (.sent true, l ++ data) else (.sent false, l)
  | .receive buf =>
    if l = [] then (.received none buf, l)
    else (.received (some (min l.length buf.length)) (buf.copyAt 0 (l.take buf.length)), l.drop buf.length)

/-- The stored ring is the one of the model. -/
structure Same (s : StreamStorage) (t : StreamBuffer) : Prop where
  capacity : s.capacity = t.capacity
  holds : s.ring.Holds t.ring

/-- The loop pushes byte by byte, and leaves the count to the end. -/
theorem store_holds {capacity : Nat} (data : Bytes) {ring : RawRing UInt8} {q : RingQueue UInt8 capacity}
    {i : Nat} (hlen : q.len = ring.count + i) (h : RawRing.Holds { ring with count := ring.count + i } q)
    (hfit : q.len + data.length ≤ capacity) :
    ∃ ring', store capacity ring i data = some ring' ∧ ring'.count = ring.count ∧
      RawRing.Holds { ring' with count := ring.count + (i + data.length) }
        (data.foldl (fun r byte => (r.push byte).1) q) := by
  induction data generalizing ring q i with
  | nil => exact ⟨ring, rfl, rfl, h⟩
  | cons byte data ih =>
    rw [List.length_cons] at hfit
    have hne : q.len ≠ capacity := by omega
    have hindex : ring.index? capacity (ring.count + i) = some (q.index q.len).val := by
      rw [← hlen]
      exact h.index? q.len
    obtain ⟨x, hset, hx⟩ := h.set? q.len byte
    rw [RawRing.set?_count, Option.map_eq_some_iff] at hset
    obtain ⟨next, hnext, rfl⟩ := hset
    have hcount := RawRing.count_of_set? hnext
    have hpush : (q.push byte).1.len = q.len + 1 := by rw [RingQueue.push, dif_neg hne]
    have hholds : RawRing.Holds { next with count := next.count + (i + 1) } (q.push byte).1 := by
      refine ⟨?_, ?_, ?_⟩
      · rw [RingQueue.push, dif_neg hne]
        exact hx.head
      · rw [hpush, hlen, hcount, Nat.add_assoc]
      · rw [RingQueue.push, dif_neg hne]
        exact hx.slots
    obtain ⟨ring', hstore, hcount', hend⟩ := ih (i := i + 1) (by rw [hpush, hlen, hcount, Nat.add_assoc])
      hholds (by omega)
    rw [hcount] at hcount' hend
    refine ⟨ring', ?_, hcount', ?_⟩
    · rw [store, hindex]
      simp only [Option.bind_eq_bind, Option.bind_some, hnext, hstore]
    · rw [List.foldl_cons, List.length_cons, ← Nat.add_assoc i, Nat.add_right_comm i]
      exact hend

theorem load_holds {capacity : Nat} {ring : RawRing UInt8} {q : RingQueue UInt8 capacity} (h : ring.Holds q)
    (n i : Nat) : load capacity ring i n = some ((List.range' i n).map q.nth) := by
  induction n generalizing i with
  | zero => rfl
  | succ n ih =>
    rw [load, h.index? i]
    simp only [Option.bind_eq_bind, Option.bind_some, h.get? i, ih]
    rfl

theorem send_same {s : StreamStorage} {t : StreamBuffer} (h : s.Same t) (data : Bytes) :
    ∃ s', s.send data = some ((t.send data).1, s') ∧ s'.Same (t.send data).2 := by
  obtain ⟨capacity, ring⟩ := s
  obtain ⟨hcapacity, hholds⟩ := h
  cases hcapacity
  have hcount := hholds.count
  dsimp only at hcount hholds
  by_cases hfull : t.ring.len + data.length > t.capacity
  · have hraw : ring.count + data.length > t.capacity := by omega
    refine ⟨⟨t.capacity, ring⟩, ?_, ?_⟩
    · rw [send, StreamBuffer.send, if_pos hfull]
      exact if_pos hraw
    · rw [StreamBuffer.send, if_pos hfull]
      exact ⟨rfl, hholds⟩
  · have hraw : ¬ ring.count + data.length > t.capacity := by omega
    obtain ⟨ring', hstore, hcount', hend⟩ := store_holds (i := 0) data hcount.symm hholds (by omega)
    rw [Nat.zero_add, ← hcount'] at hend
    refine ⟨⟨t.capacity, { ring' with count := ring'.count + data.length }⟩, ?_, ?_⟩
    · rw [send, StreamBuffer.send, if_neg hfull, if_neg hraw]
      simp only [hstore, Option.bind_eq_bind, Option.bind_some]
      rfl
    · rw [StreamBuffer.send, if_neg hfull]
      exact ⟨rfl, hend⟩

theorem receive_same {s : StreamStorage} {t : StreamBuffer} (h : s.Same t) (buf : Bytes) :
    match t.receive buf.length with
    | none => s.receive buf = some ((none, buf), s)
    | some (bytes, t') => ∃ s', s.receive buf = some ((some bytes.length, buf.copyAt 0 bytes), s') ∧
        s'.Same t' := by
  obtain ⟨capacity, ring⟩ := s
  obtain ⟨hcapacity, hholds⟩ := h
  cases hcapacity
  have hcount := hholds.count
  dsimp only at hcount hholds
  by_cases hempty : t.ring.len = 0
  · have hraw : ring.count = 0 := by omega
    rw [StreamBuffer.receive, if_pos hempty]
    exact if_pos hraw
  · have hraw : ¬ ring.count = 0 := by omega
    obtain ⟨ring', hadvance, hholds'⟩ := hholds.advance? (n := min t.ring.len buf.length) (Nat.min_le_left _ _)
    rw [StreamBuffer.receive, if_neg hempty]
    refine ⟨⟨t.capacity, ring'⟩, ?_, rfl, hholds'⟩
    rw [receive, if_neg hraw]
    simp only [hcount, load_holds hholds, hadvance, Option.bind_eq_bind, Option.bind_some, List.length_map,
      List.range_eq_range', List.length_range']
    rfl

theorem step_refines {s : StreamStorage} {t : StreamBuffer} (h : s.Same t) (op : Op) :
    ∃ s' t', s.step op = some ((spec t.capacity t.contents op).1, s') ∧ s'.Same t' ∧
      t'.capacity = t.capacity ∧ t'.contents = (spec t.capacity t.contents op).2 := by
  have hlen : t.contents.length = t.ring.len := t.ring.length_toList
  cases op with
  | send data =>
    obtain ⟨s', hs', hsame⟩ := send_same h data
    by_cases hroom : t.contents.length + data.length ≤ t.capacity
    · have hsend : (t.send data).1 = true := by rw [StreamBuffer.send, if_neg (by omega)]
      have hcontents := StreamBuffer.contents_send (Prod.ext hsend rfl)
      refine ⟨s', (t.send data).2, ?_, hsame, ?_, ?_⟩
      · rw [step, hs', hsend, spec, if_pos hroom]
        rfl
      · rw [StreamBuffer.send, if_neg (by omega)]
      · rw [spec, if_pos hroom]
        exact hcontents
    · have hsend : t.send data = (false, t) := by rw [StreamBuffer.send, if_pos (by omega)]
      rw [hsend] at hs' hsame
      refine ⟨s', t, ?_, hsame, rfl, ?_⟩
      · rw [step, hs', spec, if_neg hroom]
        rfl
      · rw [spec, if_neg hroom]
  | receive buf =>
    have hreceive := receive_same h buf
    by_cases hempty : t.ring.len = 0
    · have hnil : t.contents = [] := List.eq_nil_iff_length_eq_zero.mpr (hlen.trans hempty)
      rw [StreamBuffer.receive, if_pos hempty] at hreceive
      refine ⟨s, t, ?_, h, rfl, ?_⟩
      · rw [step, hreceive, spec, if_pos hnil]
        rfl
      · rw [spec, if_pos hnil]
    · have hne : t.contents ≠ [] := fun hnil => hempty (hlen.symm.trans (congrArg List.length hnil))
      cases hcase : t.receive buf.length with
      | none =>
        rw [StreamBuffer.receive, if_neg hempty] at hcase
        cases hcase
      | some found =>
        obtain ⟨bytes, t'⟩ := found
        rw [hcase] at hreceive
        obtain ⟨s', hs', hsame⟩ := hreceive
        obtain ⟨hcontents, hbytes⟩ := StreamBuffer.contents_receive hcase
        have hlength : bytes.length ≤ buf.length := by omega
        -- the bytes are the whole queue where the buffer is longer than that
        have htake : t.contents.take buf.length = bytes := by
          by_cases hall : t.contents.length ≤ buf.length
          · have hrest : t'.contents = [] := by
              apply List.eq_nil_iff_length_eq_zero.mpr
              have htotal := congrArg List.length hcontents
              rw [List.length_append] at htotal
              omega
            rw [List.take_of_length_le hall, hcontents, hrest, List.append_nil]
          · rw [hcontents, ← show bytes.length = buf.length by omega, List.take_left]
        have hdrop : t.contents.drop buf.length = t'.contents := by
          have hsplit := List.take_append_drop buf.length t.contents
          rw [htake] at hsplit
          exact List.append_cancel_left (hsplit.trans hcontents)
        have hcapacity : t'.capacity = t.capacity := by
          rw [StreamBuffer.receive, if_neg hempty] at hcase
          cases hcase
          rfl
        refine ⟨s', t', ?_, hsame, hcapacity, ?_⟩
        · rw [step, hs', spec, if_neg hne, htake, ← hbytes]
          rfl
        · rw [spec, if_neg hne]
          exact hdrop.symm

def offered : List Op → List Bytes := List.filterMap fun
  | .send data => some data
  | .receive _ => none

def taken : List Out → Bytes := List.flatMap fun
  | .received (some n) buf => buf.take n
  | _ => []

/-- What comes out and what is left are the sends that were taken, each whole, once and in its order. -/
theorem conserved (capacity : Nat) (ops : List Op) (l : Bytes) :
    ∃ accepted, List.Sublist accepted (offered ops) ∧
      taken (runSpec (spec capacity) l ops).1 ++ (runSpec (spec capacity) l ops).2 = l ++ accepted.flatten := by
  induction ops generalizing l with
  | nil => exact ⟨[], List.Sublist.refl [], (List.append_nil l).symm⟩
  | cons op ops ih =>
    cases op with
    | send data =>
      by_cases hroom : l.length + data.length ≤ capacity
      · obtain ⟨accepted, hsub, htotal⟩ := ih (l ++ data)
        refine ⟨data :: accepted, hsub.cons_cons data, ?_⟩
        rw [List.flatten_cons, ← List.append_assoc, ← htotal]
        simp only [runSpec, spec, if_pos hroom]
        rfl
      · obtain ⟨accepted, hsub, htotal⟩ := ih l
        refine ⟨accepted, hsub.cons data, ?_⟩
        rw [← htotal]
        simp only [runSpec, spec, if_neg hroom]
        rfl
    | receive buf =>
      by_cases hnil : l = []
      · obtain ⟨accepted, hsub, htotal⟩ := ih l
        refine ⟨accepted, hsub, ?_⟩
        rw [← htotal]
        simp only [runSpec, spec, if_pos hnil]
        rfl
      · obtain ⟨accepted, hsub, htotal⟩ := ih (l.drop buf.length)
        refine ⟨accepted, hsub, ?_⟩
        have hcopied : (buf.copyAt 0 (l.take buf.length)).take (min l.length buf.length) = l.take buf.length := by
          have htake := Bytes.take_copyAt (l.take buf.length) (Nat.zero_le buf.length)
          rwa [Nat.zero_add, List.length_take, Nat.min_comm, List.take_zero, List.nil_append] at htake
        have hout : ∀ outs : List Out, taken (.received (some (min l.length buf.length))
            (buf.copyAt 0 (l.take buf.length)) :: outs) = l.take buf.length ++ taken outs := by
          intro outs
          rw [taken, List.flatMap_cons]
          exact congrArg (· ++ taken outs) hcopied
        simp only [runSpec, spec, if_neg hnil]
        rw [hout, List.append_assoc, htotal, ← List.append_assoc, List.take_append_drop]

end StreamStorage

/-! ### The outbox -/

def outboxLen : Nat := 4

def outboxBody : Nat := DfuMessage.withTwoBytesLen + dfuMaxChunkSize

/-- A body in its array, and how long it is. -/
abbrev OutboxSlot := MessageType × Nat × Bytes

abbrev Outbox := RawRing OutboxSlot

namespace Outbox

def new : Outbox := ⟨List.replicate outboxLen (⟨0⟩, 0, List.replicate outboxBody 0), 0, 0⟩

def push (box : Outbox) (message : DfuMessage) : Option Outbox :=
  if box.count = outboxLen then some box
  else do
    let i ← box.index? outboxLen box.count
    let slot ← box.get? i
    match message.encode slot.2.2 with
    | .error _ => some box
    | .ok (body, n) =>
      let box ← box.set? i (⟨message.frameType.toUInt16⟩, n, body)
      return { box with count := box.count + 1 }

def pop (box : Outbox) : Option (Option OutboxSlot × Outbox) :=
  if box.count = 0 then some (none, box)
  else do
    let body ← box.get? box.head
    let box ← box.advance? outboxLen 1
    return (some body, box)

/-- The message in a slot. -/
def OutboxSlot.read (slot : OutboxSlot) : MessageType × Bytes := (slot.1, slot.2.2.take slot.2.1)

def step (box : Outbox) : Fifo.Op DfuMessage → Option (Option (MessageType × Bytes) × Outbox)
  | .push message => (box.push message).map fun box => (none, box)
  | .pop => box.pop.map fun (slot, box) => (slot.map OutboxSlot.read, box)

def entry (message : DfuMessage) : MessageType × Bytes := (⟨message.frameType.toUInt16⟩, message.toBytes)

/-- A list of at most `outboxLen` bodies. What does not fit it, or a slot, is dropped. -/
def spec (l : List (MessageType × Bytes)) :
    Fifo.Op DfuMessage → Option (MessageType × Bytes) × List (MessageType × Bytes)
  | .push message =>
    (none, if l.length < outboxLen ∧ message.encodedLen ≤ outboxBody then l ++ [entry message] else l)
  | .pop => (l.head?, l.tail)

structure Reads (box : Outbox) (l : List (MessageType × Bytes)) : Prop where
  room : ∀ slot ∈ box.storage, slot.2.2.length = outboxBody
  held : ∃ q : RingQueue OutboxSlot outboxLen, box.Holds q ∧ q.toList.map OutboxSlot.read = l

theorem encode_fits {message : DfuMessage} {buf : Bytes} (hbuf : buf.length = outboxBody)
    (h : message.encodedLen ≤ outboxBody) :
    message.encode buf = .ok (buf.copyAt 0 message.toBytes, message.encodedLen) := by
  have hroom : ¬ buf.length < message.encodedLen := by omega
  cases message with
  | payload c =>
    have hbody : outboxBody = DfuMessage.withTwoBytesLen + 1024 := rfl
    have hpayload : DfuMessage.withTwoBytesLen + c.payload.length ≤ outboxBody := h
    have hshort : ¬ c.payload.length > DfuMessage.maxPayloadLen := by
      have hmax : DfuMessage.maxPayloadLen = 65535 := rfl
      omega
    simp only [DfuMessage.encode, decide_eq_false hshort, Bool.false_eq_true, if_false]
    exact if_neg hroom
  | _ => exact if_neg hroom

theorem encode_refused {message : DfuMessage} {buf : Bytes} (hbuf : buf.length = outboxBody)
    (h : ¬ message.encodedLen ≤ outboxBody) : ∃ e, message.encode buf = .error e := by
  have hroom : buf.length < message.encodedLen := by omega
  cases message with
  | payload c =>
    by_cases hlong : c.payload.length > DfuMessage.maxPayloadLen
    · exact ⟨.invalid, if_pos (decide_eq_true hlong)⟩
    · refine ⟨.truncated, ?_⟩
      simp only [DfuMessage.encode, decide_eq_false hlong, Bool.false_eq_true, if_false]
      exact if_pos hroom
  | _ => exact ⟨.truncated, if_pos hroom⟩

variable {box : Outbox} {l : List (MessageType × Bytes)}

theorem push_reads (h : box.Reads l) (message : DfuMessage) :
    ∃ box', box.push message = some box' ∧ box'.Reads (spec l (.push message)).2 := by
  obtain ⟨hroom, q, hholds, rfl⟩ := h
  have hcount := hholds.count
  have hlen : (q.toList.map OutboxSlot.read).length = q.len := by rw [List.length_map, q.length_toList]
  have hle := q.len_le
  by_cases hfull : q.len = outboxLen
  · refine ⟨box, ?_, hroom, q, hholds, ?_⟩
    · rw [push, if_pos (by omega)]
    · rw [spec, if_neg (by omega)]
  · have hindex : box.index? outboxLen box.count = some (q.index q.len).val := by
      rw [hcount]
      exact hholds.index? q.len
    have hslot := hholds.get? q.len
    have hbuf := hroom _ (List.mem_of_getElem? hslot)
    by_cases hfits : message.encodedLen ≤ outboxBody
    · have hencode := encode_fits hbuf hfits
      obtain ⟨x, hset, hx⟩ := hholds.set? q.len
        (⟨message.frameType.toUInt16⟩, message.encodedLen, Bytes.copyAt (q.nth q.len).2.2 0 message.toBytes)
      have hpush := (q.toList_push (⟨message.frameType.toUInt16⟩, message.encodedLen,
        Bytes.copyAt (q.nth q.len).2.2 0 message.toBytes) (by omega)).1
      have hread : OutboxSlot.read (⟨message.frameType.toUInt16⟩, message.encodedLen,
          Bytes.copyAt (q.nth q.len).2.2 0 message.toBytes) = entry message := by
        have htake := Bytes.take_copyAt message.toBytes (Nat.zero_le (q.nth q.len).2.2.length)
        rw [Nat.zero_add, message.length_toBytes, List.take_zero, List.nil_append] at htake
        exact congrArg (Prod.mk _) htake
      generalize hnew : ((⟨message.frameType.toUInt16⟩, message.encodedLen,
        Bytes.copyAt (q.nth q.len).2.2 0 message.toBytes) : OutboxSlot) = slot at hset hx hpush hread
      have hslotlen : slot.2.2.length = outboxBody := by
        rw [← hnew, ← hbuf]
        exact Bytes.length_copyAt _ _ _ (by rw [message.length_toBytes]; omega)
      refine ⟨{ x with count := x.count + 1 }, ?_, ?_, (q.push slot).1, ?_, ?_⟩
      · rw [push, if_neg (by omega), hindex]
        simp only [Option.bind_eq_bind, Option.bind_some, hslot, hencode, hnew, hset]
        rfl
      · intro y hy
        rcases RawRing.mem_of_set? hset hy with hold | rfl
        · exact hroom y hold
        · exact hslotlen
      · rw [RingQueue.push, dif_neg hfull]
        exact ⟨hx.head, congrArg (· + 1) hx.count, hx.slots⟩
      · rw [spec, if_pos ⟨by omega, hfits⟩, hpush, List.map_append, List.map_singleton, hread]
    · obtain ⟨e, hencode⟩ := encode_refused hbuf hfits
      refine ⟨box, ?_, hroom, q, hholds, ?_⟩
      · rw [push, if_neg (by omega), hindex]
        simp only [Option.bind_eq_bind, Option.bind_some, hslot, hencode]
      · rw [spec, if_neg fun h => hfits h.2]

theorem pop_reads (h : box.Reads l) :
    ∃ box', box.step .pop = some (l.head?, box') ∧ box'.Reads l.tail := by
  obtain ⟨hroom, q, hholds, rfl⟩ := h
  have hcount := hholds.count
  by_cases hempty : q.len = 0
  · have hnil : q.toList = [] := List.eq_nil_iff_length_eq_zero.mpr (q.length_toList.trans hempty)
    refine ⟨box, ?_, hroom, q, hholds, ?_⟩
    · rw [step, pop, if_pos (by omega), hnil]
      rfl
    · rw [hnil]
      rfl
  · have hcons := q.toList_eq_cons (Nat.pos_of_ne_zero hempty)
    obtain ⟨box', hadvance, hbox'⟩ := hholds.advance? (n := 1) (Nat.pos_of_ne_zero hempty)
    have hstorage : box'.storage = box.storage := by
      rw [RawRing.advance?] at hadvance
      by_cases hbad : outboxLen = 0 ∨ box.count < 1
      · rw [if_pos hbad] at hadvance
        cases hadvance
      · rw [if_neg hbad] at hadvance
        cases hadvance
        rfl
    refine ⟨box', ?_, ?_, RingQueue.advance q, hbox', ?_⟩
    · rw [step, pop, if_neg (by omega), hholds.get?_head, hcons]
      simp only [Option.bind_eq_bind, Option.bind_some, hadvance]
      rfl
    · rw [hstorage]
      exact hroom
    · rw [q.toList_advance, List.map_tail]

theorem step_refines (h : box.Reads l) (op : Fifo.Op DfuMessage) :
    ∃ box', box.step op = some ((spec l op).1, box') ∧ box'.Reads (spec l op).2 := by
  cases op with
  | push message =>
    obtain ⟨box', hbox', hreads⟩ := push_reads h message
    refine ⟨box', ?_, hreads⟩
    rw [step, hbox']
    rfl
  | pop => exact pop_reads h

def taken : List (Option (MessageType × Bytes)) → List (MessageType × Bytes) := List.filterMap id

/-- What comes out and what is left are messages that were pushed, each once and in their order. -/
theorem conserved (ops : List (Fifo.Op DfuMessage)) (l : List (MessageType × Bytes)) :
    (taken (runSpec spec l ops).1 ++ (runSpec spec l ops).2).Sublist
      (l ++ (Fifo.offered ops).map entry) := by
  induction ops generalizing l with
  | nil => exact (List.append_nil l).symm ▸ List.Sublist.refl l
  | cons op ops ih =>
    cases op with
    | push message =>
      by_cases hfits : l.length < outboxLen ∧ message.encodedLen ≤ outboxBody
      · have h := ih (l ++ [entry message])
        rw [List.append_assoc] at h
        simp only [runSpec, spec, if_pos hfits]
        exact h
      · have h := ih l
        simp only [runSpec, spec, if_neg hfits]
        exact h.trans ((List.sublist_cons_self (entry message) _).append_left l)
    | pop =>
      cases l with
      | nil => exact ih []
      | cons x l => exact (ih l).cons_cons x

end Outbox

/-! ### Over whole runs -/

/--
Over any run each ring does what its bounded queue does, without a panic, and stays in range; what it has
given out and what it still holds are what it took, once each and in order.
-/
theorem rings_refine_queues :
    (∀ ops : List (Fifo.Op Event), ∃ q : EventSlots,
      runOps EventSlots.step EventSlots.new ops =
          some ((runSpec (Fifo.step eventQueueLen) [] ops).1, q) ∧
        q.contents eventQueueLen = (runSpec (Fifo.step eventQueueLen) [] ops).2 ∧
        q.InRange eventQueueLen ∧
        List.Sublist (Fifo.taken (runSpec (Fifo.step eventQueueLen) [] ops).1 ++ q.contents eventQueueLen)
          (Fifo.offered ops)) ∧
    (∀ capacity, 1 ≤ capacity → capacity ≤ dfuMaxChunkSize → ∃ s, StreamStorage.new capacity = some s ∧
      ∀ ops : List StreamStorage.Op, ∃ s' : StreamStorage,
        runOps StreamStorage.step s ops = some ((runSpec (StreamStorage.spec capacity) [] ops).1, s') ∧
          s'.capacity = capacity ∧
          s'.ring.contents capacity = (runSpec (StreamStorage.spec capacity) [] ops).2 ∧
          s'.ring.InRange capacity ∧
          ∃ accepted, List.Sublist accepted (StreamStorage.offered ops) ∧
            StreamStorage.taken (runSpec (StreamStorage.spec capacity) [] ops).1 ++ s'.ring.contents capacity =
              accepted.flatten) ∧
    (∀ ops : List (Fifo.Op DfuMessage), ∃ box : Outbox,
      runOps Outbox.step Outbox.new ops = some ((runSpec Outbox.spec [] ops).1, box) ∧
        (box.contents outboxLen).map Outbox.OutboxSlot.read = (runSpec Outbox.spec [] ops).2 ∧
        box.InRange outboxLen ∧
        List.Sublist (Outbox.taken (runSpec Outbox.spec [] ops).1 ++
            (box.contents outboxLen).map Outbox.OutboxSlot.read)
          ((Fifo.offered ops).map Outbox.entry)) := by
  refine ⟨fun ops => ?_, fun capacity hlow hhigh => ?_, fun ops => ?_⟩
  · have hstep : ∀ (q : EventSlots) (l : List Event) (op : Fifo.Op Event),
        (∃ r : EventQueue, q.Holds r ∧ r.toList = l) →
          ∃ q', q.step op = some ((Fifo.step eventQueueLen l op).1, q') ∧
            ∃ r : EventQueue, q'.Holds r ∧ r.toList = (Fifo.step eventQueueLen l op).2 := by
      rintro q l op ⟨r, hholds, hlist⟩
      obtain ⟨q', r', hstep, hholds', hlist'⟩ := EventSlots.step_refines hholds hlist op
      exact ⟨q', hstep, r', hholds', hlist'⟩
    obtain ⟨q, hrun, r, hholds, hlist⟩ := runOps_refines hstep ops
      ⟨EventQueue.new, RawRing.holds_new Event.none (by decide) (Nat.le_refl _), rfl⟩
    have hcontents := hholds.contents.trans hlist
    refine ⟨q, hrun, hcontents, hholds.inRange, ?_⟩
    rw [hcontents]
    exact Fifo.conserved eventQueueLen ops []
  · have hcap : 1 ≤ capacity ∧ capacity ≤ dfuMaxChunkSize := ⟨hlow, hhigh⟩
    refine ⟨⟨capacity, ⟨List.replicate dfuMaxChunkSize 0, 0, 0⟩⟩, if_pos hcap, fun ops => ?_⟩
    have hstep : ∀ (s : StreamStorage) (l : Bytes) (op : StreamStorage.Op),
        (∃ t : StreamBuffer, s.Same t ∧ t.capacity = capacity ∧ t.contents = l) →
          ∃ s', s.step op = some ((StreamStorage.spec capacity l op).1, s') ∧
            ∃ t : StreamBuffer, s'.Same t ∧ t.capacity = capacity ∧
              t.contents = (StreamStorage.spec capacity l op).2 := by
      rintro s l op ⟨t, hsame, rfl, rfl⟩
      obtain ⟨s', t', hstep, hsame', hcapacity', hlist'⟩ := StreamStorage.step_refines hsame op
      exact ⟨s', hstep, t', hsame', hcapacity', hlist'⟩
    have hnew : StreamStorage.Same ⟨capacity, ⟨List.replicate dfuMaxChunkSize 0, 0, 0⟩⟩
        ⟨capacity, RingQueue.new 0 hlow, hhigh⟩ := ⟨rfl, RawRing.holds_new 0 hlow hhigh⟩
    obtain ⟨s', hrun, t, hsame, rfl, hlist⟩ := runOps_refines hstep ops ⟨_, hnew, rfl, rfl⟩
    have hcontents := hsame.holds.contents.trans hlist
    obtain ⟨accepted, hsub, htotal⟩ := StreamStorage.conserved t.capacity ops []
    refine ⟨s', hrun, hsame.capacity, hcontents, hsame.holds.inRange, accepted, hsub, ?_⟩
    rw [hcontents]
    exact htotal
  · have hnew : Outbox.new.Reads [] := by
      refine ⟨fun slot hslot => ?_, RingQueue.new _ (by decide), RawRing.holds_new _ (by decide) (Nat.le_refl _),
        rfl⟩
      rw [List.eq_of_mem_replicate hslot]
      exact List.length_replicate
    have hstep : ∀ (box : Outbox) (l : List (MessageType × Bytes)) (op : Fifo.Op DfuMessage), box.Reads l →
        ∃ box', box.step op = some ((Outbox.spec l op).1, box') ∧ box'.Reads (Outbox.spec l op).2 :=
      fun _ _ op h => Outbox.step_refines h op
    obtain ⟨box, hrun, hroom, q, hholds, hlist⟩ := runOps_refines hstep ops hnew
    rw [← hholds.contents] at hlist
    refine ⟨box, hrun, hlist, hholds.inRange, ?_⟩
    rw [hlist]
    exact Outbox.conserved ops []

end Bristlemouth.Dfu
