import Bristlemouth.Bcmp.Resource
import Bristlemouth.Lib.FixedArray

/-!
# The resource table

`ResourceTable` of `resource.rs`: what a node publishes and subscribes to, in one array of `N` slots of
`NAME` bytes each, and the reply it answers with.
-/

set_option autoImplicit false

namespace Bristlemouth

inductive ResourceType where
  | publisher
  | subscriber
deriving DecidableEq

/-- The name is the first `len` bytes of the slot's array. -/
structure ResourceSlot where
  kind : ResourceType
  len : Nat
  nameBytes : Bytes

namespace ResourceSlot

def empty (NAME : Nat) : ResourceSlot := ⟨.publisher, 0, List.replicate NAME 0⟩

def name (slot : ResourceSlot) : Bytes := slot.nameBytes.take slot.len

end ResourceSlot

inductive ResourceAddError where
  | alreadyPresent
  | full
deriving DecidableEq

structure ResourceTable (N NAME : Nat) where
  len : Nat
  entries : List ResourceSlot

namespace ResourceTable

variable {N NAME : Nat}

def new : ResourceTable N NAME := ⟨0, List.replicate N (.empty NAME)⟩

/-- One list's names, oldest first. -/
def iter (t : ResourceTable N NAME) (kind : ResourceType) : List Bytes :=
  ((t.entries.take t.len).filter fun entry => entry.kind = kind).map ResourceSlot.name

def count (t : ResourceTable N NAME) (kind : ResourceType) : UInt16 := UInt16.ofNat (t.iter kind).length

/-- A stored name that begins with `name` is a match. -/
def find (t : ResourceTable N NAME) (name : Bytes) (kind : ResourceType) : Bool :=
  (t.iter kind).any fun stored => stored.length ≥ name.length && stored.take name.length = name

def add (t : ResourceTable N NAME) (name : Bytes) (kind : ResourceType) :
    ResourceTable N NAME × Except ResourceAddError Unit :=
  if t.find name kind then (t, .error .alreadyPresent)
  else if t.len = t.entries.length ∨ name.length > NAME then (t, .error .full)
  else
    let entry := t.entries.getD t.len (.empty NAME)
    let entry := { kind, len := name.length, nameBytes := entry.nameBytes.copyAt 0 name }
    ({ len := t.len + 1, entries := t.entries.set t.len entry }, .ok ())

def replyLen (t : ResourceTable N NAME) : Nat :=
  ResourceTableReply.headerLen + ((t.entries.take t.len).map fun entry => Resource.headerLen + entry.len).sum

def encodeReply (t : ResourceTable N NAME) (buf : Bytes) (nodeId : UInt64) : Bytes × Except BmWireError Nat :=
  encodeResourceTableReply buf nodeId (t.iter .publisher) (t.iter .subscriber)

/-- The tables that calls of `add` make. -/
inductive Reached : ResourceTable N NAME → Prop where
  | new : Reached new
  | add {t : ResourceTable N NAME} (h : Reached t) (name : Bytes) (kind : ResourceType) :
      Reached (t.add name kind).1

/-! ### What is stored -/

structure Valid (t : ResourceTable N NAME) : Prop where
  slots : t.entries.length = N
  used : t.len ≤ N
  arrays : ∀ entry ∈ t.entries, entry.nameBytes.length = NAME
  names : ∀ entry ∈ t.entries, entry.len ≤ NAME

theorem new_valid : (new : ResourceTable N NAME).Valid where
  slots := List.length_replicate
  used := Nat.zero_le N
  arrays := by
    intro entry hentry
    rw [List.eq_of_mem_replicate hentry]
    exact List.length_replicate
  names := by
    intro entry hentry
    rw [List.eq_of_mem_replicate hentry]
    exact Nat.zero_le NAME

/-- `add` changes nothing or stores the name behind the others. -/
theorem add_cases {t : ResourceTable N NAME} (h : t.Valid) (name : Bytes) (kind : ResourceType) :
    (∃ e, t.add name kind = (t, .error e)) ∨
      (name.length ≤ NAME ∧ t.len < N ∧ ∃ slot : ResourceSlot, slot.kind = kind ∧ slot.name = name ∧
        slot.len = name.length ∧ slot.nameBytes.length = NAME ∧
          t.add name kind = (⟨t.len + 1, t.entries.set t.len slot⟩, .ok ())) := by
  unfold add
  split
  · exact Or.inl ⟨_, rfl⟩
  · split
    · exact Or.inl ⟨_, rfl⟩
    · rename_i hroom
      rw [not_or, h.slots] at hroom
      obtain ⟨hfull, hname⟩ := hroom
      have hused := h.used
      have hlt : t.len < t.entries.length := by
        rw [h.slots]
        omega
      have harray : (t.entries.getD t.len (.empty NAME)).nameBytes.length = NAME := by
        rw [List.getD_eq_getElem?_getD, List.getElem?_eq_getElem hlt, Option.getD_some]
        exact h.arrays _ (List.getElem_mem hlt)
      refine Or.inr ⟨by omega, by omega, _, rfl, ?_, rfl, ?_, rfl⟩
      · have htake := Bytes.take_copyAt name (Nat.zero_le (t.entries.getD t.len (.empty NAME)).nameBytes.length)
        rw [Nat.zero_add, List.take_zero, List.nil_append] at htake
        exact htake
      · rw [Bytes.length_copyAt _ _ _ (by omega), harray]

theorem Valid.add {t : ResourceTable N NAME} (h : t.Valid) (name : Bytes) (kind : ResourceType) :
    (t.add name kind).1.Valid := by
  obtain ⟨e, heq⟩ | ⟨hname, hroom, slot, -, -, hlen, harray, heq⟩ := add_cases h name kind
  · rw [heq]
    exact h
  · rw [heq]
    refine ⟨?_, hroom, ?_, ?_⟩
    · rw [List.length_set]
      exact h.slots
    · intro entry hentry
      rcases List.mem_or_eq_of_mem_set hentry with hentry | rfl
      · exact h.arrays entry hentry
      · exact harray
    · intro entry hentry
      rcases List.mem_or_eq_of_mem_set hentry with hentry | rfl
      · exact h.names entry hentry
      · rw [hlen]
        exact hname

theorem Reached.valid {t : ResourceTable N NAME} (h : Reached t) : t.Valid := by
  induction h with
  | new => exact new_valid
  | add _ name kind ih => exact ih.add name kind

theorem add_ok {t : ResourceTable N NAME} {name : Bytes} {kind : ResourceType} (hfind : t.find name kind = false)
    (hroom : t.len ≠ t.entries.length) (hname : name.length ≤ NAME) :
    (t.add name kind).1.len = t.len + 1 ∧ (t.add name kind).2 = .ok () := by
  unfold add
  rw [if_neg (by rw [hfind]; exact Bool.false_ne_true),
    if_neg (not_or.mpr ⟨hroom, Nat.not_lt.mpr hname⟩)]
  exact ⟨rfl, rfl⟩

/-- A name that is stored is the last of its list, and the other list is as it was. -/
theorem iter_add {t : ResourceTable N NAME} (h : t.Valid) {name : Bytes} {kind : ResourceType}
    (hok : (t.add name kind).2 = .ok ()) (other : ResourceType) :
    (t.add name kind).1.iter other = t.iter other ++ if kind = other then [name] else [] := by
  obtain ⟨e, heq⟩ | ⟨hname, hroom, slot, hkind, hslot, -, -, heq⟩ := add_cases h name kind
  · rw [heq] at hok
    cases hok
  · rw [heq, iter, iter]
    dsimp only
    rw [FixedArray.take_set_end (by rw [h.slots]; exact hroom), List.filter_append, List.map_append]
    congr 1
    by_cases hother : kind = other
    · rw [if_pos hother, List.filter_singleton, hkind]
      simp [hother, hslot]
    · rw [if_neg hother, List.filter_singleton, hkind]
      simp [hother]

/-- Every stored name is as long as its slot says. -/
theorem length_name {t : ResourceTable N NAME} (h : t.Valid) {entry : ResourceSlot} (hentry : entry ∈ t.entries) :
    entry.name.length = entry.len := by
  rw [ResourceSlot.name, List.length_take, h.arrays entry hentry, Nat.min_eq_left (h.names entry hentry)]

/-- The two lists are all there is. -/
theorem length_iters (t : ResourceTable N NAME) :
    (t.iter .publisher).length + (t.iter .subscriber).length = (t.entries.take t.len).length := by
  rw [iter, iter, List.length_map, List.length_map]
  induction t.entries.take t.len with
  | nil => rfl
  | cons entry rest ih =>
    rw [List.filter_cons, List.filter_cons]
    cases hkind : entry.kind <;> simp <;> omega

theorem replyLen_eq {t : ResourceTable N NAME} (h : t.Valid) (nodeId : UInt64) :
    t.replyLen = (resourceReplyBytes nodeId (t.iter .publisher) (t.iter .subscriber)).length := by
  rw [length_resourceReplyBytes, replyLen, Nat.add_assoc]
  congr 1
  rw [iter, iter]
  have hmem : ∀ entry ∈ t.entries.take t.len, entry.name.length = entry.len := by
    intro entry hentry
    exact length_name h (List.mem_of_mem_take hentry)
  generalize t.entries.take t.len = stored at hmem ⊢
  induction stored with
  | nil => rfl
  | cons entry rest ih =>
    obtain ⟨hentry, hrest⟩ := List.forall_mem_cons.mp hmem
    rw [List.map_cons, List.sum_cons, ih hrest, List.filter_cons, List.filter_cons]
    cases hkind : entry.kind <;> simp [hentry] <;> omega

/-- What a table answers with, where a record holds every name, is as long as `replyLen` says, is written
into every buffer that has room and no other, and is read back with the lists in order. What is accepted
from anybody has the records it declares, all of them inside, and the iterators return these. -/
theorem resource_table_codec {t : ResourceTable N NAME} (h : Reached t) (hcount : t.len ≤ 65535)
    (hnames : ∀ kind, NamesFit (t.iter kind)) (nodeId : UInt64) :
    (∀ buf, (∃ out n, t.encodeReply buf nodeId = (out, .ok n)) ↔ t.replyLen ≤ buf.length) ∧
      (∃ bytes : Bytes, bytes.length = t.replyLen ∧
        (∀ buf, t.replyLen ≤ buf.length →
          t.encodeReply buf nodeId = (bytes ++ buf.drop t.replyLen, .ok t.replyLen)) ∧
        ∀ trailing, ∃ r, ResourceTableReply.decode (bytes ++ trailing) = .ok r ∧ r.nodeId = nodeId ∧
          r.numPubs = t.count .publisher ∧ r.numSubs = t.count .subscriber ∧
            r.Holds (bytes ++ trailing) (t.iter .publisher) (t.iter .subscriber)) ∧
      ∀ buf r, ResourceTableReply.decode buf = .ok r → ∃ pubs subs, r.Holds buf pubs subs := by
  have hvalid := h.valid
  have hlen := replyLen_eq hvalid nodeId
  have htotal := t.length_iters
  have htake : (t.entries.take t.len).length ≤ t.len := List.length_take_le _ _
  have hwrite : ∀ buf : Bytes, t.replyLen ≤ buf.length → t.encodeReply buf nodeId =
      (resourceReplyBytes nodeId (t.iter .publisher) (t.iter .subscriber) ++ buf.drop t.replyLen,
        .ok t.replyLen) := by
    intro buf hroom
    rw [hlen] at hroom ⊢
    exact encodeResourceTableReply_fits (hnames _) (hnames _) (by omega) (by omega) nodeId hroom
  refine ⟨?_, ⟨_, hlen.symm, hwrite, ?_⟩, ?_⟩
  · intro buf
    constructor
    · rintro ⟨out, n, hok⟩
      rw [hlen]
      exact room_of_encodeResourceTableReply hok
    · intro hroom
      exact ⟨_, _, hwrite buf hroom⟩
  · intro trailing
    have hdecode := @ResourceTableReply.decode_records nodeId _ _ (hnames .publisher) (hnames .subscriber)
      (by omega) (by omega) trailing
    refine ⟨_, hdecode, rfl, rfl, rfl, ?_⟩
    obtain ⟨pubs, subs, hholds⟩ := ResourceTableReply.holds_of_decode hdecode
    have hpubs := hholds.pubsYielded.unique (recordsYield_recordsBytes (hnames .publisher))
    have hsubs := hholds.subsYielded.unique (recordsYield_recordsBytes (hnames .subscriber))
    rw [hpubs, hsubs] at hholds
    exact hholds
  · intro buf r hdecode
    exact ResourceTableReply.holds_of_decode hdecode

/-- One name in each list. -/
def twoNames : ResourceTable 2 4 := ((new.add [0x61] .publisher).1.add [0x62, 0x63] .subscriber).1

theorem resource_table_codec_two : twoNames.replyLen = 19 ∧
    (∃ out n, twoNames.encodeReply (List.replicate 19 0) 7 = (out, .ok n)) := by
  have hreached : Reached twoNames := (Reached.new.add _ _).add _ _
  have hnames : ∀ kind, NamesFit (twoNames.iter kind) := by
    intro kind
    cases kind <;> unfold NamesFit <;> decide
  have h := resource_table_codec hreached (by decide) hnames 7
  exact ⟨by decide, (h.1 _).mpr (by decide)⟩

/-- A slot may hold a name that no record does. -/
theorem encodeReply_long_name {name : Bytes} (hfit : name.length ≤ NAME)
    (hlong : Resource.maxNameLen < name.length) :
    ∃ t : ResourceTable 1 NAME, Reached t ∧ t.len ≤ 65535 ∧ ∃ buf : Bytes, t.replyLen ≤ buf.length ∧
      ∀ nodeId, t.encodeReply buf nodeId = (buf, .error .invalid) := by
  have hnew : (new : ResourceTable 1 NAME).len = 0 := rfl
  have hslots : (new : ResourceTable 1 NAME).entries.length = 1 := List.length_replicate
  have hfind : (new : ResourceTable 1 NAME).find name .publisher = false := rfl
  obtain ⟨hlen, hok⟩ := add_ok hfind (by rw [hnew, hslots]; decide) hfit
  have hpubs : ((new : ResourceTable 1 NAME).add name .publisher).1.iter .publisher = [name] := by
    rw [iter_add new_valid hok]
    rfl
  refine ⟨_, Reached.new.add name .publisher, by rw [hlen, hnew]; decide, ?_⟩
  generalize ((new : ResourceTable 1 NAME).add name .publisher).1 = t at hpubs
  refine ⟨List.replicate t.replyLen 0, by rw [List.length_replicate], ?_⟩
  intro nodeId
  have hshort : ¬(List.replicate t.replyLen (0 : UInt8)).length < ResourceTableReply.headerLen := by
    rw [List.length_replicate, replyLen]
    omega
  rw [encodeReply, encodeResourceTableReply, if_neg hshort, hpubs, writeRecords, if_pos hlong]

theorem long_name_not_encoded : ∃ t : ResourceTable 1 65536, Reached t ∧ t.len ≤ 65535 ∧
    ∃ buf : Bytes, t.replyLen ≤ buf.length ∧ ∀ nodeId, t.encodeReply buf nodeId = (buf, .error .invalid) := by
  have hlen : (List.replicate 65536 (0 : UInt8)).length = 65536 := List.length_replicate
  have hlong : Resource.maxNameLen < 65536 := by
    rw [Resource.maxNameLen]
    omega
  exact encodeReply_long_name hlen.le (hlong.trans_eq hlen.symm)

end ResourceTable

end Bristlemouth
