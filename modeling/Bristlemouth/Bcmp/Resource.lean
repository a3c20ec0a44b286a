import Bristlemouth.Wire.Record

/-!
# Resource table replies

`resource.rs`: a head with two counts, and that many length-prefixed names behind it, the publishers
first. The decoder walks the records once to find where the first list ends; the iterators walk the two
lists again and take for granted that every record is whole.
-/

set_option autoImplicit false

namespace Bristlemouth

namespace Resource

def headerLen : Nat := 2

def maxNameLen : Nat := 65535

/-- One record from the front of `buf`: its name, and the bytes it takes. -/
def decode (buf : Bytes) : Except BmWireError (Bytes × Nat) :=
  match buf.slice? 0 headerLen with
  | none => .error .truncated
  | some head =>
    let len := (u16At head 0).toNat
    match buf.slice? headerLen len with
    | none => .error .truncated
    | some name => .ok (name, headerLen + len)

/-- The record of a name. -/
def toBytes (name : Bytes) : Bytes := u16ToLe (UInt16.ofNat name.length) ++ name

end Resource

/-- `measure`, from `start`: where `count` records that begin there end. -/
def measureFrom (buf : Bytes) : Nat → Nat → Except BmWireError Nat
  | 0, start => .ok start
  | count + 1, start =>
    if start ≤ buf.length then
      match Resource.decode (buf.drop start) with
      | .ok (_, len) => measureFrom buf count (start + len)
      | .error e => .error e
    else .error .truncated

def measure (buf : Bytes) (count : UInt16) : Except BmWireError Nat := measureFrom buf count.toNat 0

structure ResourceTableReply where
  nodeId : UInt64
  numPubs : UInt16
  numSubs : UInt16
  publishers : Bytes
  subscribers : Bytes
deriving DecidableEq

namespace ResourceTableReply

def headerLen : Nat := 12

def decode (buf : Bytes) : Except BmWireError ResourceTableReply :=
  match buf.slice? 0 headerLen with
  | none => .error .truncated
  | some head => do
    let numPubs := u16At head 8
    let numSubs := u16At head 10
    let records : Bytes := buf.drop headerLen
    let pubBytes ← measure records numPubs
    let subBytes ← measure (records.drop pubBytes) numSubs
    .ok {
      nodeId := u64At head 0
      numPubs
      numSubs
      publishers := records.take pubBytes
      subscribers := records.slice pubBytes subBytes }

end ResourceTableReply

/-! ### The iterators -/

/-- What `next` of the iterators returns. -/
inductive RecordsNext where
  | done
  | item (name rest : Bytes)
  | panic

/-- A record that is cut off is a panic: the decoder has seen to it that there is none. -/
def recordsNext (rest : Bytes) : RecordsNext :=
  if rest.isEmpty then .done
  else match Resource.decode rest with
    | .ok (name, len) => .item name (rest.drop len)
    | .error _ => .panic

/-- The iteration over `rest` returns these names and ends, without a panic on the way. -/
inductive RecordsYield : Bytes → List Bytes → Prop where
  | done {rest : Bytes} (h : recordsNext rest = .done) : RecordsYield rest []
  | item {rest behind name : Bytes} {names : List Bytes} (h : recordsNext rest = .item name behind)
      (hbehind : RecordsYield behind names) : RecordsYield rest (name :: names)

/-! ### The encoder -/

/-- The buffer after the call, and how many records were written and where they end. -/
def writeRecords (count : UInt16) (buf : Bytes) (start : Nat) :
    List Bytes → Bytes × Except BmWireError (UInt16 × Nat)
  | [] => (buf, .ok (count, start))
  | name :: rest =>
    if name.length > Resource.maxNameLen then (buf, .error .invalid)
    else if count.toNat + 1 > 65535 then (buf, .error .invalid)
    else
      let stop := start + Resource.headerLen + name.length
      if stop > buf.length then (buf, .error .truncated)
      else
        let buf := buf.copyAt start (u16ToLe (UInt16.ofNat name.length))
        writeRecords (count + 1) (buf.copyAt (start + Resource.headerLen) name) stop rest

/-- `write_head` -/
def writeResourceHead (buf : Bytes) (nodeId : UInt64) (numPubs numSubs : UInt16) : Bytes :=
  ((buf.copyAt 0 (u64ToLe nodeId)).copyAt 8 (u16ToLe numPubs)).copyAt 10 (u16ToLe numSubs)

/-- The buffer after the call, and the bytes written to its start. -/
def encodeResourceTableReply (buf : Bytes) (nodeId : UInt64) (publishers subscribers : List Bytes) :
    Bytes × Except BmWireError Nat :=
  if buf.length < ResourceTableReply.headerLen then (buf, .error .truncated)
  else match writeRecords 0 buf ResourceTableReply.headerLen publishers with
    | (buf, .error e) => (buf, .error e)
    | (buf, .ok (numPubs, start)) =>
      match writeRecords 0 buf start subscribers with
      | (buf, .error e) => (buf, .error e)
      | (buf, .ok (numSubs, stop)) => (writeResourceHead buf nodeId numPubs numSubs, .ok stop)

/-! ### Records -/

namespace Resource

@[simp] theorem length_toBytes (name : Bytes) : (toBytes name).length = headerLen + name.length := by
  simp [toBytes, headerLen]

theorem decode_eq (buf : Bytes) : decode buf =
    if 2 + (u16At buf 0).toNat ≤ buf.length then
      .ok (buf.slice 2 (u16At buf 0).toNat, 2 + (u16At buf 0).toNat)
    else .error .truncated := by
  unfold decode
  by_cases hhead : 2 ≤ buf.length
  · have hlen : u16At (buf.slice 0 2) 0 = u16At buf 0 := u16At_slice (by decide)
    rw [Bytes.slice?_of_le (show 0 + headerLen ≤ buf.length from (Nat.zero_add _).le.trans hhead)]
    simp only [headerLen, hlen, Bytes.slice?]
    by_cases hroom : 2 + (u16At buf 0).toNat ≤ buf.length
    · rw [if_pos hroom, if_pos hroom]
    · rw [if_neg hroom, if_neg hroom]
  · have hshort : ¬(0 + headerLen ≤ buf.length) := by
      rw [Nat.zero_add]
      exact hhead
    rw [Bytes.slice?, if_neg hshort, if_neg (by omega)]

/-- A record is read where the buffer begins with one. -/
theorem decode_iff (buf name : Bytes) (n : Nat) : decode buf = .ok (name, n) ↔
    name.length ≤ maxNameLen ∧ n = (toBytes name).length ∧ ∃ rest, buf = toBytes name ++ rest := by
  rw [decode_eq]
  constructor
  · intro h
    split at h
    · rename_i hroom
      cases h
      have hlen : (buf.slice 2 (u16At buf 0).toNat).length = (u16At buf 0).toNat := Bytes.length_slice hroom
      have hlt := (u16At buf 0).toNat_lt
      have hhead : buf.slice 0 2 = u16ToLe (u16At buf 0) := slice_u16At (by omega)
      refine ⟨?_, ?_, buf.drop (2 + (u16At buf 0).toNat), ?_⟩
      · rw [hlen, maxNameLen]
        omega
      · rw [length_toBytes, hlen, headerLen]
      · have hwhole := Bytes.slice_add buf 0 2 (u16At buf 0).toNat
        rw [toBytes, hlen, UInt16.ofNat_toNat, ← hhead]
        simp only [Nat.zero_add] at hwhole
        rw [hwhole, Bytes.slice, List.drop_zero, List.take_append_drop]
    · cases h
  · rintro ⟨hname, rfl, rest, rfl⟩
    have hword : u16At (toBytes name ++ rest) 0 = UInt16.ofNat name.length := by
      rw [toBytes, List.append_assoc, u16At, Bytes.slice_append_self (length_u16ToLe _), u16FromLe_u16ToLe]
    have hslice : (toBytes name ++ rest).slice 2 name.length = name := by
      rw [toBytes, List.append_assoc, Bytes.slice_append_right (by rw [length_u16ToLe]), length_u16ToLe,
        Nat.sub_self, Bytes.slice_append_self rfl]
    rw [hword, toNat_ofNat_u16 hname, hslice, length_toBytes, headerLen, if_pos]
    rw [List.length_append, length_toBytes, headerLen]
    omega

theorem decode_toBytes {name : Bytes} (h : name.length ≤ maxNameLen) (rest : Bytes) :
    decode (toBytes name ++ rest) = .ok (name, (toBytes name).length) :=
  (decode_iff _ _ _).mpr ⟨h, rfl, rest, rfl⟩

end Resource

/-- The records of a list of names. -/
def recordsBytes (names : List Bytes) : Bytes := names.flatMap Resource.toBytes

/-- Every name has a record. -/
def NamesFit (names : List Bytes) : Prop := ∀ name ∈ names, name.length ≤ Resource.maxNameLen

@[simp] theorem recordsBytes_nil : recordsBytes [] = [] := rfl

@[simp] theorem recordsBytes_cons (name : Bytes) (names : List Bytes) :
    recordsBytes (name :: names) = Resource.toBytes name ++ recordsBytes names := rfl

/-- Where the walk ends, there were `count` records. -/
theorem measureFrom_sound {buf : Bytes} {count start stop : Nat} (hstart : start ≤ buf.length)
    (h : measureFrom buf count start = .ok stop) : ∃ names rest, names.length = count ∧ NamesFit names ∧
      buf.drop start = recordsBytes names ++ rest ∧ stop = start + (recordsBytes names).length := by
  induction count generalizing start with
  | zero => exact ⟨[], buf.drop start, rfl, List.forall_mem_nil _, rfl, (Except.ok.inj h).symm⟩
  | succ count ih =>
    rw [measureFrom, if_pos hstart] at h
    split at h
    · rename_i name len hrecord
      obtain ⟨hname, rfl, rest, hdrop⟩ := (Resource.decode_iff _ _ _).mp hrecord
      have hlen := congrArg List.length hdrop
      rw [List.length_drop, List.length_append] at hlen
      obtain ⟨names, behind, hcount, hnames, hbehind, rfl⟩ := ih (by omega) h
      refine ⟨name :: names, behind, ?_, ?_, ?_, ?_⟩
      · rw [List.length_cons, hcount]
      · exact List.forall_mem_cons.mpr ⟨hname, hnames⟩
      · rw [← List.drop_drop, hdrop, List.drop_left] at hbehind
        rw [hdrop, hbehind, recordsBytes_cons, List.append_assoc]
      · rw [recordsBytes_cons, List.length_append, Nat.add_assoc]
    · cases h

/-- The walk over records that are there ends behind them. -/
theorem measureFrom_complete {names : List Bytes} (hnames : NamesFit names) {buf rest : Bytes} {start : Nat}
    (hstart : start ≤ buf.length) (h : buf.drop start = recordsBytes names ++ rest) :
    measureFrom buf names.length start = .ok (start + (recordsBytes names).length) := by
  induction names generalizing start with
  | nil => rfl
  | cons name names ih =>
    obtain ⟨hname, hnames⟩ := List.forall_mem_cons.mp hnames
    rw [recordsBytes_cons, List.append_assoc] at h
    have hlen := congrArg List.length h
    rw [List.length_drop, List.length_append] at hlen
    have hbehind : buf.drop (start + (Resource.toBytes name).length) = recordsBytes names ++ rest := by
      rw [← List.drop_drop, h, List.drop_left]
    rw [List.length_cons, measureFrom, if_pos hstart, h, Resource.decode_toBytes hname]
    dsimp only
    rw [ih hnames (by omega) hbehind, recordsBytes_cons, List.length_append, Nat.add_assoc]

theorem recordsNext_toBytes {name : Bytes} (h : name.length ≤ Resource.maxNameLen) (rest : Bytes) :
    recordsNext (Resource.toBytes name ++ rest) = .item name rest := by
  have hne : (Resource.toBytes name ++ rest).isEmpty = false := by
    rw [List.isEmpty_eq_false_iff]
    intro hnil
    have hlen := congrArg List.length hnil
    rw [List.length_append, Resource.length_toBytes, Resource.headerLen, List.length_nil] at hlen
    omega
  rw [recordsNext, hne, Resource.decode_toBytes h]
  simp only [Bool.false_eq_true, if_false, List.drop_left]

theorem recordsYield_recordsBytes {names : List Bytes} (h : NamesFit names) :
    RecordsYield (recordsBytes names) names := by
  induction names with
  | nil => exact .done rfl
  | cons name names ih =>
    obtain ⟨hname, hnames⟩ := List.forall_mem_cons.mp h
    exact .item (recordsNext_toBytes hname _) (ih hnames)

/-- An iteration has one outcome. -/
theorem RecordsYield.unique {rest : Bytes} {names others : List Bytes} (h : RecordsYield rest names)
    (hother : RecordsYield rest others) : names = others := by
  induction h generalizing others with
  | done hdone =>
    cases hother with
    | done => rfl
    | item hitem => exact absurd (hdone.symm.trans hitem) nofun
  | item hitem hbehind ih =>
    cases hother with
    | done hdone => exact absurd (hdone.symm.trans hitem) nofun
    | item hitem' hbehind' =>
      have hsame := hitem.symm.trans hitem'
      rw [RecordsNext.item.injEq] at hsame
      obtain ⟨rfl, rfl⟩ := hsame
      rw [ih hbehind']

/-! ### Decoding -/

namespace ResourceTableReply

/-- The reply's lists, and where they lie in what was decoded. -/
structure Holds (r : ResourceTableReply) (buf : Bytes) (pubs subs : List Bytes) : Prop where
  pubCount : pubs.length = r.numPubs.toNat
  subCount : subs.length = r.numSubs.toNat
  pubsYielded : RecordsYield r.publishers pubs
  subsYielded : RecordsYield r.subscribers subs
  inside : headerLen + r.publishers.length + r.subscribers.length ≤ buf.length
  publishersAt : r.publishers = buf.slice headerLen r.publishers.length
  subscribersAt : r.subscribers = buf.slice (headerLen + r.publishers.length) r.subscribers.length

theorem decode_bind {buf : Bytes} {r : ResourceTableReply} : decode buf = .ok r ↔
    headerLen ≤ buf.length ∧ ∃ pubBytes subBytes,
      measure (buf.drop headerLen) (u16At buf 8) = .ok pubBytes ∧
      measure ((buf.drop headerLen).drop pubBytes) (u16At buf 10) = .ok subBytes ∧
      r = {
        nodeId := u64At buf 0
        numPubs := u16At buf 8
        numSubs := u16At buf 10
        publishers := (buf.drop headerLen).take pubBytes
        subscribers := Bytes.slice (buf.drop headerLen) pubBytes subBytes } := by
  unfold decode
  by_cases hhead : headerLen ≤ buf.length
  · have hnode : u64At (buf.slice 0 headerLen) 0 = u64At buf 0 := u64At_slice (by decide)
    have hpubs : u16At (buf.slice 0 headerLen) 8 = u16At buf 8 := u16At_slice (by decide)
    have hsubs : u16At (buf.slice 0 headerLen) 10 = u16At buf 10 := u16At_slice (by decide)
    rw [Bytes.slice?_of_le (show 0 + headerLen ≤ buf.length from (Nat.zero_add _).le.trans hhead)]
    simp only [hnode, hpubs, hsubs, bind, Except.bind, hhead, true_and]
    cases hpub : measure (buf.drop headerLen) (u16At buf 8) with
    | error e => simp
    | ok pubBytes =>
      dsimp only
      cases hsub : measure ((buf.drop headerLen).drop pubBytes) (u16At buf 10) with
      | error e =>
        refine iff_of_false nofun ?_
        rintro ⟨pubBytes', subBytes, hpub', hsub', -⟩
        cases hpub'
        rw [hsub] at hsub'
        cases hsub'
      | ok subBytes =>
        constructor
        · intro h
          cases h
          exact ⟨pubBytes, subBytes, rfl, hsub, rfl⟩
        · rintro ⟨pubBytes', subBytes', hpub', hsub', rfl⟩
          cases hpub'
          rw [hsub] at hsub'
          cases hsub'
          rfl
  · have hshort : ¬(0 + headerLen ≤ buf.length) := by
      rw [Nat.zero_add]
      exact hhead
    rw [Bytes.slice?, if_neg hshort]
    exact iff_of_false nofun fun h => hhead h.1

/-- What is accepted has the records it declares. -/
theorem holds_of_decode {buf : Bytes} {r : ResourceTableReply} (h : decode buf = .ok r) :
    ∃ pubs subs, r.Holds buf pubs subs := by
  obtain ⟨hhead, pubBytes, subBytes, hpub, hsub, rfl⟩ := decode_bind.mp h
  obtain ⟨pubs, behind, hpubs, hpubsFit, hpubRegion, rfl⟩ := measureFrom_sound (Nat.zero_le _) hpub
  obtain ⟨subs, rest, hsubs, hsubsFit, hsubRegion, rfl⟩ := measureFrom_sound (Nat.zero_le _) hsub
  rw [List.drop_zero] at hpubRegion hsubRegion
  simp only [Nat.zero_add] at hsubRegion ⊢
  have hrecords : buf.drop headerLen = recordsBytes pubs ++ (recordsBytes subs ++ rest) := by
    rw [hpubRegion, List.drop_left] at hsubRegion
    rw [hpubRegion, hsubRegion]
  have hlen := congrArg List.length hrecords
  rw [List.length_drop, List.length_append, List.length_append] at hlen
  have hpublishers : (buf.drop headerLen).take (recordsBytes pubs).length = recordsBytes pubs := by
    rw [hrecords, List.take_left]
  have hsubscribers : Bytes.slice (buf.drop headerLen) (recordsBytes pubs).length (recordsBytes subs).length =
      recordsBytes subs := by
    rw [hrecords, Bytes.slice_append_right (Nat.le_refl _), Nat.sub_self, Bytes.slice_append_self rfl]
  have hat : ∀ off n, buf.slice (headerLen + off) n = Bytes.slice (buf.drop headerLen) off n := by
    intro off n
    rw [Bytes.slice, Bytes.slice, List.drop_drop]
  rw [hpublishers, hsubscribers]
  refine ⟨pubs, subs, hpubs, hsubs, recordsYield_recordsBytes hpubsFit, recordsYield_recordsBytes hsubsFit,
    ?_, ?_, ?_⟩
  · dsimp only
    omega
  · exact hpublishers.symm.trans (hat 0 (recordsBytes pubs).length).symm
  · exact hsubscribers.symm.trans (hat _ _).symm

/-- A head, the records it counts, and anything behind them are accepted. -/
theorem decode_records {nodeId : UInt64} {pubs subs : List Bytes} (hpubs : NamesFit pubs)
    (hsubs : NamesFit subs) (hpubCount : pubs.length ≤ 65535) (hsubCount : subs.length ≤ 65535)
    (trailing : Bytes) :
    decode (u64ToLe nodeId ++ (u16ToLe (UInt16.ofNat pubs.length) ++ u16ToLe (UInt16.ofNat subs.length)) ++
      (recordsBytes pubs ++ recordsBytes subs) ++ trailing) = .ok {
        nodeId
        numPubs := UInt16.ofNat pubs.length
        numSubs := UInt16.ofNat subs.length
        publishers := recordsBytes pubs
        subscribers := recordsBytes subs } := by
  generalize hhead : u64ToLe nodeId ++ (u16ToLe (UInt16.ofNat pubs.length) ++
    u16ToLe (UInt16.ofNat subs.length)) = head
  have hlen : head.length = headerLen := by
    rw [← hhead]
    simp [headerLen]
  have hread : ∀ off n, off + n ≤ 12 →
      Bytes.slice (head ++ (recordsBytes pubs ++ recordsBytes subs) ++ trailing) off n = head.slice off n := by
    intro off n hroom
    rw [List.append_assoc, Bytes.slice_append_left (by rw [hlen]; exact hroom)]
  have hnode : head.slice 0 8 = u64ToLe nodeId := by
    rw [← hhead, Bytes.slice_append_self (length_u64ToLe _)]
  have hpubWord : head.slice 8 2 = u16ToLe (UInt16.ofNat pubs.length) := by
    rw [← hhead, Bytes.slice_append_right (by rw [length_u64ToLe]), length_u64ToLe, Nat.sub_self,
      Bytes.slice_append_self (length_u16ToLe _)]
  have hsubWord : head.slice 10 2 = u16ToLe (UInt16.ofNat subs.length) := by
    rw [← hhead, Bytes.slice_append_right (by rw [length_u64ToLe]; decide), length_u64ToLe,
      Bytes.slice_append_right (by rw [length_u16ToLe]), length_u16ToLe, Nat.sub_self,
      Bytes.slice_of_length (length_u16ToLe _)]
  have hrecords : (head ++ (recordsBytes pubs ++ recordsBytes subs) ++ trailing).drop headerLen =
      recordsBytes pubs ++ (recordsBytes subs ++ trailing) := by
    rw [List.append_assoc, ← hlen, List.drop_left, List.append_assoc]
  have hpub := measureFrom_complete hpubs (Nat.zero_le _) (List.drop_zero.trans hrecords)
  have hsub := measureFrom_complete hsubs (Nat.zero_le _)
    (List.drop_zero (l := recordsBytes subs ++ trailing))
  rw [Nat.zero_add] at hpub hsub
  refine decode_bind.mpr ⟨?_, (recordsBytes pubs).length, (recordsBytes subs).length, ?_, ?_, ?_⟩
  · rw [List.append_assoc, List.length_append, hlen]
    exact Nat.le_add_right _ _
  · rw [u16At, hread 8 2 (by decide), hpubWord, u16FromLe_u16ToLe, measure, toNat_ofNat_u16 hpubCount]
    exact hpub
  · rw [u16At, hread 10 2 (by decide), hsubWord, u16FromLe_u16ToLe, measure, toNat_ofNat_u16 hsubCount,
      hrecords, List.drop_left]
    exact hsub
  · rw [u64At, u16At, u16At, hread 0 8 (by decide), hread 8 2 (by decide), hread 10 2 (by decide), hnode,
      hpubWord, hsubWord, hrecords, List.take_left, Bytes.slice_append_right (Nat.le_refl _), Nat.sub_self,
      Bytes.slice_append_self rfl, u64FromLe_u64ToLe, u16FromLe_u16ToLe, u16FromLe_u16ToLe]

end ResourceTableReply

/-! ### Encoding -/

/-- The records are written where the walk stands, if there is room and the count can hold them. -/
theorem writeRecords_fits {names : List Bytes} (hnames : NamesFit names) {count : UInt16}
    (hcount : count.toNat + names.length ≤ 65535) {done room : Bytes}
    (hroom : (recordsBytes names).length ≤ room.length) :
    writeRecords count (done ++ room) done.length names =
      (done ++ recordsBytes names ++ room.drop (recordsBytes names).length,
        .ok (UInt16.ofNat (count.toNat + names.length), done.length + (recordsBytes names).length)) := by
  induction names generalizing count done room with
  | nil => simp [writeRecords]
  | cons name names ih =>
    obtain ⟨hname, hnames⟩ := List.forall_mem_cons.mp hnames
    rw [List.length_cons] at hcount
    rw [recordsBytes_cons, List.length_append, Resource.length_toBytes, Resource.headerLen] at hroom
    have hstop : ¬done.length + Resource.headerLen + name.length > (done ++ room).length := by
      rw [List.length_append, Resource.headerLen]
      omega
    have hlen : (u16ToLe (UInt16.ofNat name.length)).length = Resource.headerLen := length_u16ToLe _
    have hwritten : ((done ++ room).copyAt done.length (u16ToLe (UInt16.ofNat name.length))).copyAt
        (done.length + Resource.headerLen) name =
          done ++ Resource.toBytes name ++ room.drop (Resource.toBytes name).length := by
      rw [Bytes.copyAt_append_at _ rfl,
        Bytes.copyAt_append_at _ (by rw [List.length_append, hlen]), Resource.toBytes, List.length_append,
        List.drop_drop, List.append_assoc done]
    have hnext : (count + 1).toNat = count.toNat + 1 := by
      rw [UInt16.toNat_add]
      exact Nat.mod_eq_of_lt (by change count.toNat + 1 < 65536; omega)
    have hend : done.length + Resource.headerLen + name.length = (done ++ Resource.toBytes name).length := by
      rw [List.length_append, Resource.length_toBytes]
      omega
    rw [writeRecords, if_neg (by omega), if_neg (by omega), if_neg hstop]
    dsimp only
    rw [hwritten, hend, ih hnames (by omega) (by rw [List.length_drop, Resource.length_toBytes, Resource.headerLen]; omega),
      hnext]
    refine Prod.ext ?_ ?_
    · simp only [recordsBytes_cons, List.length_append, List.drop_drop, List.append_assoc]
    · have hsum : count.toNat + 1 + names.length = count.toNat + (names.length + 1) := by omega
      rw [hsum, recordsBytes_cons, List.length_append, List.length_append, List.length_cons, Nat.add_assoc]

/-- What was written had room. -/
theorem room_of_writeRecords {names : List Bytes} {count num : UInt16} {buf out : Bytes} {start stop : Nat}
    (hstart : start ≤ buf.length) (h : writeRecords count buf start names = (out, .ok (num, stop))) :
    out.length = buf.length ∧ stop = start + (recordsBytes names).length ∧ stop ≤ buf.length := by
  induction names generalizing count buf start with
  | nil =>
    cases h
    exact ⟨rfl, rfl, hstart⟩
  | cons name names ih =>
    rw [writeRecords] at h
    split at h
    · cases h
    · split at h
      · cases h
      · dsimp only at h
        split at h
        · cases h
        · rename_i hstop
          have hfit : start + Resource.headerLen + name.length ≤ buf.length := by omega
          have hhead : (buf.copyAt start (u16ToLe (UInt16.ofNat name.length))).length = buf.length :=
            Bytes.length_copyAt _ _ _ (by rw [length_u16ToLe]; simp only [Resource.headerLen] at hfit; omega)
          have hlen : ((buf.copyAt start (u16ToLe (UInt16.ofNat name.length))).copyAt
              (start + Resource.headerLen) name).length = buf.length := by
            rw [Bytes.length_copyAt _ _ _ (by rw [hhead]; omega), hhead]
          obtain ⟨hout, hend, hinside⟩ := ih (by rw [hlen]; omega) h
          rw [hlen] at hout hinside
          rw [recordsBytes_cons, List.length_append, Resource.length_toBytes]
          exact ⟨hout, by omega, hinside⟩

/-- The head and the records of a reply. -/
def resourceReplyBytes (nodeId : UInt64) (pubs subs : List Bytes) : Bytes :=
  u64ToLe nodeId ++ (u16ToLe (UInt16.ofNat pubs.length) ++ u16ToLe (UInt16.ofNat subs.length)) ++
    (recordsBytes pubs ++ recordsBytes subs)

theorem length_resourceReplyBytes (nodeId : UInt64) (pubs subs : List Bytes) :
    (resourceReplyBytes nodeId pubs subs).length =
      ResourceTableReply.headerLen + (recordsBytes pubs).length + (recordsBytes subs).length := by
  simp only [resourceReplyBytes, List.length_append, length_u64ToLe, length_u16ToLe,
    ResourceTableReply.headerLen]
  omega

theorem writeResourceHead_append {front : Bytes} (h : front.length = ResourceTableReply.headerLen)
    (rest : Bytes) (nodeId : UInt64) (numPubs numSubs : UInt16) :
    writeResourceHead (front ++ rest) nodeId numPubs numSubs =
      u64ToLe nodeId ++ (u16ToLe numPubs ++ u16ToLe numSubs) ++ rest := by
  rw [writeResourceHead, show front ++ rest = [] ++ (front ++ rest) from rfl,
    @Bytes.copyAt_append_at [] (front ++ rest) 0 _ rfl, Bytes.copyAt_append_at _ (by simp), Bytes.copyAt_append_at _ (by simp)]
  have hdrop : (((front ++ rest).drop (u64ToLe nodeId).length).drop (u16ToLe numPubs).length).drop
      (u16ToLe numSubs).length = rest := by
    rw [List.drop_drop, List.drop_drop, length_u64ToLe, length_u16ToLe, length_u16ToLe]
    exact List.drop_left' h
  rw [hdrop, List.nil_append, List.append_assoc (u64ToLe nodeId)]

theorem encodeResourceTableReply_fits {pubs subs : List Bytes} (hpubs : NamesFit pubs) (hsubs : NamesFit subs)
    (hpubCount : pubs.length ≤ 65535) (hsubCount : subs.length ≤ 65535) (nodeId : UInt64) {buf : Bytes}
    (hroom : (resourceReplyBytes nodeId pubs subs).length ≤ buf.length) :
    encodeResourceTableReply buf nodeId pubs subs =
      (resourceReplyBytes nodeId pubs subs ++ buf.drop (resourceReplyBytes nodeId pubs subs).length,
        .ok (resourceReplyBytes nodeId pubs subs).length) := by
  have hlen := length_resourceReplyBytes nodeId pubs subs
  obtain ⟨front, room, rfl, hfront⟩ : ∃ front room, buf = front ++ room ∧
      front.length = ResourceTableReply.headerLen := by
    refine ⟨buf.take ResourceTableReply.headerLen, buf.drop ResourceTableReply.headerLen,
      (List.take_append_drop _ _).symm, ?_⟩
    rw [List.length_take]
    omega
  rw [List.length_append, hfront] at hroom
  have hpub := @writeRecords_fits pubs hpubs 0 (by simpa using hpubCount) front room (by omega)
  have hsub := @writeRecords_fits subs hsubs 0 (by simpa using hsubCount) (front ++ recordsBytes pubs)
    (room.drop (recordsBytes pubs).length) (by rw [List.length_drop]; omega)
  simp only [UInt16.toNat_zero, Nat.zero_add] at hpub hsub
  rw [hfront] at hpub
  rw [List.length_append, hfront] at hsub
  rw [encodeResourceTableReply, if_neg (by rw [List.length_append, hfront]; omega), hpub]
  dsimp only
  rw [hsub]
  dsimp only
  rw [List.append_assoc, List.append_assoc, writeResourceHead_append hfront, hlen]
  refine Prod.ext ?_ ?_
  · simp only [resourceReplyBytes, List.append_assoc, List.drop_drop]
    have hbehind : ∀ k, (front ++ room).drop (front.length + k) = room.drop k := by
      intro k
      rw [← List.drop_drop, List.drop_left]
    rw [← hfront, Nat.add_assoc, hbehind]
  · rfl

theorem room_of_encodeResourceTableReply {pubs subs : List Bytes} {nodeId : UInt64} {buf out : Bytes} {n : Nat}
    (h : encodeResourceTableReply buf nodeId pubs subs = (out, .ok n)) :
    (resourceReplyBytes nodeId pubs subs).length ≤ buf.length := by
  rw [encodeResourceTableReply] at h
  split at h
  · cases h
  · rename_i hhead
    split at h
    · cases h
    · rename_i written numPubs start hpub
      obtain ⟨hwritten, rfl, hstart⟩ := room_of_writeRecords (by omega) hpub
      split at h
      · cases h
      · rename_i hsub
        obtain ⟨-, rfl, hstop⟩ := room_of_writeRecords (by omega) hsub
        rw [length_resourceReplyBytes]
        omega

end Bristlemouth
