import Bristlemouth.Bcmp.ConfigBodies
import Bristlemouth.Config.KeyValue

/-!
# The status response

`bcmp/config.rs`: the message that lists a partition's keys. The length is summed before anything is
written, from the `key_len`s in the image; the encoder and the iterator over a received response walk the
entries one by one.
-/

set_option autoImplicit false

namespace Bristlemouth.Config

open Bytes ConfigPartition

/-- The longest body that is sent. -/
def statusResponseMaxLen : Nat := 1500

/-- `keys` is everything behind the head. -/
structure ConfigStatusResponse where
  header : ConfigHeader
  partitionByte : UInt8
  committed : Bool
  numKeys : UInt8
  keyData : Bytes

namespace ConfigStatusResponse

def headLen : Nat := 19

def decode (buf : Bytes) : Except BmWireError ConfigStatusResponse := do
  let header ← ConfigHeader.decode buf
  let head ← ConfigBody.slice buf 0 headLen
  .ok {
    header
    partitionByte := head.byteAt 16
    committed := head.byteAt 17 ≠ 0
    numKeys := head.byteAt 18
    keyData := buf.drop headLen }

end ConfigStatusResponse

/-- The iterator: what is left of the entries, and how many are still to come. -/
structure StatusKeys where
  rest : Bytes
  remaining : Nat

def ConfigStatusResponse.keys (r : ConfigStatusResponse) : StatusKeys := ⟨r.keyData, r.numKeys.toNat⟩

namespace StatusKeys

/-- An entry that runs past the body is an error, and the last thing returned. -/
def next (keys : StatusKeys) : Option (Except BmWireError Bytes × StatusKeys) :=
  match keys.remaining with
  | 0 => none
  | remaining + 1 =>
    match keys.rest with
    | [] => some (.error .truncated, { keys with remaining := 0 })
    | len :: rest =>
      match Bytes.slice? rest 0 len.toNat with
      | some key => some (.ok key, ⟨rest.drop key.length, remaining⟩)
      | none => some (.error .truncated, { keys with remaining := 0 })

/-- The iteration returns these and ends. -/
inductive Yields : StatusKeys → List (Except BmWireError Bytes) → Prop where
  | done {keys : StatusKeys} (h : keys.next = none) : Yields keys []
  | item {keys behind : StatusKeys} {first : Except BmWireError Bytes}
      {others : List (Except BmWireError Bytes)} (h : keys.next = some (first, behind))
      (hbehind : Yields behind others) : Yields keys (first :: others)

end StatusKeys

/-! ### The encoder -/

/-- `checked_add` of two `u64`s. -/
def checkedAddU64 (a b : Nat) : Option Nat := if a + b < 2 ^ 64 then some (a + b) else none

/-- One key more. -/
def addEntry (size : Nat) (key : StoredKey) : Option Nat := do
  let size ← checkedAddU64 size 1
  checkedAddU64 size key.keyLen

/-- The length the listed keys need, if it can be sent. -/
def statusLenOf (keys : List StoredKey) : Option Nat :=
  (keys.foldlM addEntry ConfigStatusResponse.headLen).filter fun size => size ≤ statusResponseMaxLen

/-- `status_response_len`. The outer option is an index outside the image. -/
def statusResponseLen (p : ConfigPartition) : Option (Option Nat) := p.storedKeys.map statusLenOf

/-- What the copy of a key reads: past the image there are zeros. -/
def keyBytes (p : ConfigPartition) (i keyLen : Nat) : Bytes :=
  (List.range keyLen).map fun j => (p.imageBytes[p.layout.keyOffset i + j]?).getD 0

/-- The loop over the keys, from key `i` at `start`. -/
def keyFields (p : ConfigPartition) : Nat → Nat → List StoredKey → Fields
  | _, _, [] => []
  | start, i, key :: rest =>
    (start, [UInt8.ofNat key.keyLen]) :: (start + 1, keyBytes p i key.keyLen) ::
      keyFields p (start + 1 + key.keyLen) (i + 1) rest

def statusFields (p : ConfigPartition) (header : ConfigHeader) (partitionByte : UInt8)
    (keys : List StoredKey) : Fields :=
  header.fields ++ ([(16, [partitionByte]), (17, [boolByte p.needsCommit]), (18, [UInt8.ofNat p.numKeys])] ++
    keyFields p ConfigStatusResponse.headLen 0 keys)

/-- `encode_status_response` -/
def encodeStatusResponse (buf : Bytes) (header : ConfigHeader) (partitionByte : UInt8)
    (p : ConfigPartition) : Except EncodeError (Bytes × Nat) :=
  match p.storedKeys with
  | none => .error .panic
  | some keys =>
    match statusLenOf keys with
    | none => .error (.error .invalid)
    | some len => encodeRecord (statusFields p header partitionByte keys) len buf

/-! ### Reading the entries -/

/-- An entry of the list. -/
def entryBytes (key : Bytes) : Bytes := UInt8.ofNat key.length :: key

def entriesBytes (keys : List Bytes) : Bytes := keys.flatMap entryBytes

@[simp] theorem entriesBytes_nil : entriesBytes [] = [] := rfl

@[simp] theorem entriesBytes_cons (key : Bytes) (keys : List Bytes) :
    entriesBytes (key :: keys) = entryBytes key ++ entriesBytes keys := rfl

@[simp] theorem length_entryBytes (key : Bytes) : (entryBytes key).length = 1 + key.length := by
  rw [entryBytes, List.length_cons, Nat.add_comm]

namespace StatusKeys

theorem next_entry {key : Bytes} (h : key.length ≤ 255) (rest : Bytes) (n : Nat) :
    next ⟨entryBytes key ++ rest, n + 1⟩ = some (.ok key, ⟨rest, n⟩) := by
  rw [entryBytes, List.cons_append]
  simp only [next]
  rw [toNat_ofNat_u8 h, slice?_of_le (by rw [List.length_append]; omega), slice_append_self rfl]
  simp only [List.drop_left]

/-- Where there is no entry, the iteration has an error to return. -/
theorem next_truncated {rest : Bytes} (h : ∀ key more, key.length ≤ 255 → rest ≠ entryBytes key ++ more)
    (n : Nat) : next ⟨rest, n + 1⟩ = some (.error .truncated, ⟨rest, 0⟩) := by
  cases rest with
  | nil => rfl
  | cons len rest =>
    have hlt := len.toNat_lt
    have hshort : ¬0 + len.toNat ≤ rest.length := by
      intro hroom
      have hlen : (Bytes.slice rest 0 len.toNat).length = len.toNat := length_slice hroom
      apply h (Bytes.slice rest 0 len.toNat) (rest.drop len.toNat) (by omega)
      rw [entryBytes, hlen, UInt8.ofNat_toNat, Bytes.slice, List.drop_zero, List.cons_append,
        List.take_append_drop]
    simp only [next]
    rw [Bytes.slice?, if_neg hshort]

/-- As many keys as are there come out, and an error if that is fewer than were declared. -/
theorem yields_cases (keys : StatusKeys) : ∃ names rest, keys.rest = entriesBytes names ++ rest ∧
    (names.length = keys.remaining ∧ Yields keys (names.map .ok) ∨
      names.length < keys.remaining ∧
        (∀ key more, key.length ≤ 255 → rest ≠ entryBytes key ++ more) ∧
          Yields keys (names.map .ok ++ [.error .truncated])) := by
  obtain ⟨rest, remaining⟩ := keys
  induction remaining generalizing rest with
  | zero => exact ⟨[], rest, rfl, Or.inl ⟨rfl, .done rfl⟩⟩
  | succ remaining ih =>
    by_cases hentry : ∃ key more, key.length ≤ 255 ∧ rest = entryBytes key ++ more
    · obtain ⟨key, more, hkey, rfl⟩ := hentry
      obtain ⟨names, behind, hmore, hcases⟩ := ih more
      have hnext := next_entry hkey more remaining
      refine ⟨key :: names, behind, ?_, ?_⟩
      · dsimp only at hmore ⊢
        rw [hmore, entriesBytes_cons, List.append_assoc]
      · rcases hcases with ⟨hcount, hyields⟩ | ⟨hcount, hnone, hyields⟩
        · refine Or.inl ⟨?_, .item hnext hyields⟩
          rw [List.length_cons, hcount]
        · refine Or.inr ⟨?_, hnone, .item hnext hyields⟩
          rw [List.length_cons]
          exact Nat.succ_lt_succ hcount
    · have hnone : ∀ key more, key.length ≤ 255 → rest ≠ entryBytes key ++ more := by
        intro key more hkey heq
        exact hentry ⟨key, more, hkey, heq⟩
      exact ⟨[], rest, rfl, Or.inr ⟨Nat.succ_pos _, hnone,
        .item (next_truncated hnone remaining) (.done rfl)⟩⟩

theorem yields_entries {names : List Bytes} (h : ∀ name ∈ names, name.length ≤ 255) (rest : Bytes) :
    Yields ⟨entriesBytes names ++ rest, names.length⟩ (names.map .ok) := by
  induction names with
  | nil => exact .done rfl
  | cons name names ih =>
    obtain ⟨hname, hnames⟩ := List.forall_mem_cons.mp h
    rw [entriesBytes_cons, List.append_assoc]
    exact .item (next_entry hname _ _) (ih hnames)

end StatusKeys

/-! ### What is written -/

/-- What the listed keys take. -/
def entriesLen (keys : List StoredKey) : Nat := (keys.map fun key => 1 + key.keyLen).sum

theorem addEntry_eq (size : Nat) (key : StoredKey) : addEntry size key =
    if size + (1 + key.keyLen) < 2 ^ 64 then some (size + (1 + key.keyLen)) else none := by
  rw [addEntry, ← Nat.add_assoc]
  by_cases hone : size + 1 < 2 ^ 64
  · rw [checkedAddU64, if_pos hone, Option.bind_eq_bind, Option.bind_some, checkedAddU64]
  · rw [checkedAddU64, if_neg hone, if_neg (by omega)]
    rfl

theorem foldlM_addEntry (keys : List StoredKey) {size : Nat} (hsize : size < 2 ^ 64) :
    keys.foldlM addEntry size =
      if size + entriesLen keys < 2 ^ 64 then some (size + entriesLen keys) else none := by
  induction keys generalizing size with
  | nil =>
    rw [entriesLen, List.map_nil, List.sum_nil, Nat.add_zero, if_pos hsize]
    rfl
  | cons key rest ih =>
    have hlen : entriesLen (key :: rest) = 1 + key.keyLen + entriesLen rest := rfl
    rw [List.foldlM_cons, addEntry_eq, hlen, ← Nat.add_assoc size (1 + key.keyLen)]
    by_cases hroom : size + (1 + key.keyLen) < 2 ^ 64
    · rw [if_pos hroom, Option.bind_eq_bind, Option.bind_some, ih hroom]
    · rw [if_neg hroom, if_neg (by omega)]
      rfl

theorem statusLenOf_eq (keys : List StoredKey) : statusLenOf keys =
    if ConfigStatusResponse.headLen + entriesLen keys ≤ statusResponseMaxLen then
      some (ConfigStatusResponse.headLen + entriesLen keys) else none := by
  rw [statusLenOf, foldlM_addEntry keys (by decide)]
  by_cases hfit : ConfigStatusResponse.headLen + entriesLen keys ≤ statusResponseMaxLen
  · have hsmall : ConfigStatusResponse.headLen + entriesLen keys < 2 ^ 64 := by
      rw [statusResponseMaxLen] at hfit
      omega
    rw [if_pos hsmall, if_pos hfit]
    simp [hfit]
  · rw [if_neg hfit]
    split
    · simp only [Option.filter_some, decide_eq_true_eq, if_neg hfit]
    · rfl

@[simp] theorem length_keyBytes (p : ConfigPartition) (i keyLen : Nat) :
    (keyBytes p i keyLen).length = keyLen := by
  rw [keyBytes, List.length_map, List.length_range]

theorem adjacent_keyFields (p : ConfigPartition) (start i : Nat) (keys : List StoredKey) :
    (keyFields p start i keys).Adjacent start := by
  induction keys generalizing start i with
  | nil => trivial
  | cons key rest ih =>
    refine ⟨rfl, rfl, ?_⟩
    rw [List.length_singleton, length_keyBytes]
    exact ih _ _

theorem length_keyFields (p : ConfigPartition) (start i : Nat) (keys : List StoredKey) :
    (keyFields p start i keys).bytes.length = entriesLen keys := by
  induction keys generalizing start i with
  | nil => rfl
  | cons key rest ih =>
    rw [keyFields, Fields.bytes_cons, Fields.bytes_cons, List.length_append, List.length_append, ih,
      length_keyBytes, List.length_singleton, ← Nat.add_assoc]
    rfl

theorem adjacent_statusFields (p : ConfigPartition) (header : ConfigHeader) (partitionByte : UInt8)
    (keys : List StoredKey) : (statusFields p header partitionByte keys).Adjacent 0 := by
  apply header.adjacent_append
  refine Fields.Adjacent.append ?_ ?_
  · simp
  · exact adjacent_keyFields ..

/-- The head, behind the header. -/
def statusHead (p : ConfigPartition) (partitionByte : UInt8) : Bytes :=
  [partitionByte, boolByte p.needsCommit, UInt8.ofNat p.numKeys]

theorem bytes_statusFields (p : ConfigPartition) (header : ConfigHeader) (partitionByte : UInt8)
    (keys : List StoredKey) : (statusFields p header partitionByte keys).bytes =
      header.toBytes ++ statusHead p partitionByte ++
        (keyFields p ConfigStatusResponse.headLen 0 keys).bytes := by
  rw [statusFields, ConfigHeader.bytes_append, Fields.bytes_append, List.append_assoc]
  rfl

theorem length_statusFields (p : ConfigPartition) (header : ConfigHeader) (partitionByte : UInt8)
    (keys : List StoredKey) : (statusFields p header partitionByte keys).bytes.length =
      ConfigStatusResponse.headLen + entriesLen keys := by
  rw [bytes_statusFields, List.length_append, List.length_append, header.length_toBytes, length_keyFields]
  rfl

/-- The keys of a partition, as the image has them. -/
def storedList (p : ConfigPartition) : List StoredKey :=
  (List.range p.numKeys).map fun i => ⟨(p.cell i).keyBuf, (p.cell i).keyLen, (p.cell i).valueType⟩

theorem mapM_some {α β : Type} {f : α → Option β} {g : α → β} {l : List α}
    (h : ∀ a ∈ l, f a = some (g a)) : l.mapM f = some (l.map g) := by
  induction l with
  | nil => rfl
  | cons a rest ih =>
    obtain ⟨ha, hrest⟩ := List.forall_mem_cons.mp h
    rw [List.mapM_cons, ha, ih hrest]
    rfl

section

variable {p : ConfigPartition}

theorem storedKeys_eq (hn : p.numKeys ≤ maxNumKv) : p.storedKeys = some (storedList p) := by
  apply mapM_some
  intro i hi
  exact storedKey_eq (Nat.lt_of_lt_of_le (List.mem_range.mp hi) hn)

/-- Of a partition with no more keys than it has cells a response is written, or there is an error. -/
theorem encodeStatusResponse_eq (hn : p.numKeys ≤ maxNumKv) (buf : Bytes) (header : ConfigHeader)
    (partitionByte : UInt8) : encodeStatusResponse buf header partitionByte p =
      if ConfigStatusResponse.headLen + entriesLen (storedList p) ≤ statusResponseMaxLen then
        if buf.length < ConfigStatusResponse.headLen + entriesLen (storedList p) then
          .error (.error .truncated)
        else .ok (buf.copyAt 0 (statusFields p header partitionByte (storedList p)).bytes,
          ConfigStatusResponse.headLen + entriesLen (storedList p))
      else .error (.error .invalid) := by
  rw [encodeStatusResponse, storedKeys_eq hn]
  dsimp only
  rw [statusLenOf_eq]
  by_cases hfit : ConfigStatusResponse.headLen + entriesLen (storedList p) ≤ statusResponseMaxLen
  · rw [if_pos hfit, if_pos hfit]
    exact encodeRecord_adjacent (adjacent_statusFields ..) (length_statusFields ..) buf
  · rw [if_neg hfit, if_neg hfit]

/-- A key no longer than its buffer is copied from there. -/
theorem keyBytes_eq {i : Nat} (hi : i < maxNumKv) (hlen : (p.cell i).keyLen ≤ keyBufLen) :
    keyBytes p i (p.cell i).keyLen = (p.cell i).name := by
  have hfits : p.layout.keyOffset i + keyBufLen ≤ p.layout.imageLen := p.layout.fits (f := .keyBuf i) hi
  have himage := p.layout.imageLen_le
  have hbuf : (p.cell i).keyBuf = p.image.slice (p.layout.keyOffset i) keyBufLen := rfl
  apply List.ext_getElem?
  intro j
  rw [keyBytes, Cell.name, hbuf, List.getElem?_map]
  by_cases hj : j < (p.cell i).keyLen
  · have hin : p.layout.keyOffset i + j < p.image.length := by
      rw [p.length_image]
      omega
    rw [List.getElem?_range hj, List.getElem?_take_of_lt hj, getElem?_slice, if_pos (by omega), imageBytes,
      Option.map_some, getElem?_slice, if_pos (by omega), Nat.zero_add, List.getElem?_eq_getElem hin]
    rfl
  · rw [List.getElem?_eq_none (by rw [List.length_range]; omega), List.getElem?_eq_none]
    · rfl
    · rw [List.length_take]
      exact (Nat.min_le_left _ _).trans (Nat.le_of_not_lt hj)

/-- The listed keys fit their buffers. -/
def KeysFit (p : ConfigPartition) : Prop := ∀ i, i < p.numKeys → (p.cell i).keyLen ≤ keyBufLen

theorem bytes_keyFields (hn : p.numKeys ≤ maxNumKv) (hfit : KeysFit p) (start : Nat) :
    (keyFields p start 0 (storedList p)).bytes = entriesBytes (p.listed.map Cell.name) := by
  have hfrom : ∀ k start i, i + k = p.numKeys →
      (keyFields p start i ((List.range' i k).map fun i =>
        ⟨(p.cell i).keyBuf, (p.cell i).keyLen, (p.cell i).valueType⟩)).bytes =
          entriesBytes (((List.range' i k).map p.cell).map Cell.name) := by
    intro k
    induction k with
    | zero =>
      intro start i hi
      rfl
    | succ k ih =>
      intro start i hi
      have hlen := hfit i (by omega)
      have hname : (p.cell i).name.length = (p.cell i).keyLen := by
        rw [Cell.name, List.length_take, length_keyBuf (by omega)]
        omega
      rw [List.range'_succ, List.map_cons, List.map_cons, List.map_cons, entriesBytes_cons, keyFields,
        Fields.bytes_cons, Fields.bytes_cons, ih _ (i + 1) (by omega)]
      dsimp only
      rw [keyBytes_eq (by omega) hlen, entryBytes, hname]
      rfl
  rw [storedList, listed, List.range_eq_range']
  exact hfrom p.numKeys start 0 (Nat.zero_add _)

end

/-! ### The decoder -/

theorem ConfigStatusResponse.decode_eq (buf : Bytes) : decode buf =
    if 19 ≤ buf.length then
      .ok {
        header := ⟨u64At buf 0, u64At buf 8⟩
        partitionByte := buf.byteAt 16
        committed := buf.byteAt 17 ≠ 0
        numKeys := buf.byteAt 18
        keyData := buf.drop 19 }
    else .error .truncated := by
  rw [decode, ConfigHeader.decode_bind, ConfigBody.slice_bind]
  simp only [headLen, Nat.zero_add, byteAt_slice, Nat.reduceLT]
  by_cases hroom : 19 ≤ buf.length
  · rw [if_pos hroom, if_pos (by omega)]
  · rw [if_neg hroom, ite_self]

theorem ConfigStatusResponse.decode_written (header : ConfigHeader) (partitionByte numKeys : UInt8)
    (committed : Bool) (keyData : Bytes) :
    decode (header.toBytes ++ [partitionByte, boolByte committed, numKeys] ++ keyData) =
      .ok { header, partitionByte, committed, numKeys, keyData } := by
  have hlen := header.length_toBytes
  have hlong : 19 ≤ (header.toBytes ++ [partitionByte, boolByte committed, numKeys] ++ keyData).length := by
    rw [List.length_append, List.length_append, hlen]
    exact Nat.le_add_right _ _
  have hbyte : ∀ i, 16 ≤ i → (header.toBytes ++ [partitionByte, boolByte committed, numKeys] ++
      keyData).byteAt i = Bytes.byteAt ([partitionByte, boolByte committed, numKeys] ++ keyData) (i - 16) := by
    intro i hi
    rw [List.append_assoc, byteAt_append_right (by rw [hlen]; exact hi), hlen]
  have hin : header.fields.In (header.toBytes ++ ([partitionByte, boolByte committed, numKeys] ++ keyData)) := by
    have hbytes : header.fields.bytes = header.toBytes := by
      simp [ConfigHeader.fields, ConfigHeader.toBytes]
    rw [← hbytes]
    exact @Fields.in_of_bytes _ _ (by simp [ConfigHeader.fields]) [] rfl _
  rw [← List.append_assoc] at hin
  have hheader := (@ConfigHeader.in_append_iff header [] _ (Nat.le_trans (by decide) hlong)).mp
    (by rw [List.append_nil]; exact hin)
  have hdrop : (header.toBytes ++ [partitionByte, boolByte committed, numKeys] ++ keyData).drop 19 = keyData :=
    List.drop_left' (by rw [List.length_append, hlen]; rfl)
  rw [decode_eq, if_pos hlong, ← hheader.1, hbyte 16 (by decide), hbyte 17 (by decide), hbyte 18 (by decide),
    hdrop]
  cases committed <;> rfl

/-! ### Partitions that were not loaded -/

/-- Everything but a load. -/
def Edits (_ : ConfigPartition) : Op → Prop
  | .load _ => False
  | _ => True

section

variable {p q : ConfigPartition}

theorem KeysFit.of_cells (h : KeysFit p) (hnum : q.numKeys = p.numKeys)
    (hcell : ∀ i, i < p.numKeys → (q.cell i).keyLen = (p.cell i).keyLen) : KeysFit q := by
  intro i hi
  rw [hnum] at hi
  rw [hcell i hi]
  exact h i hi

theorem KeysFit.stores (h : KeysFit p) {idx : Nat} {c : Cell} (hstores : Stores p q idx c)
    (hle : idx ≤ p.numKeys) (hnq : q.numKeys ≤ maxNumKv) (hc : c.keyLen ≤ keyBufLen) : KeysFit q := by
  intro i hi
  rw [hstores.cell i (by omega)]
  split
  · exact hc
  · apply h
    have hnum := hstores.numKeys
    split at hnum <;> omega

theorem KeysFit.step [Cbor2] [Cbor2.Minimal] {op : Op} {ok : Bool} (hn : p.numKeys ≤ maxNumKv)
    (h : KeysFit p) (hop : Edits p op) (houtcome : Outcome p op ok q) : KeysFit q := by
  have hnq := (houtcome.bounded hn).1
  cases houtcome with
  | @set key v ok q hset =>
    cases hset with
    | refused => exact h
    | failed idx hlen hroom hplace hfail =>
      obtain ⟨hidx, -⟩ := place_lt hn hplace
      have hdata : (v.encode (p.cell idx).slot).2.length ≤ slotLen := (length_encode v (length_slot hidx)).le
      refine h.of_cells ((numKeys_withSlot hidx hdata).trans (numKeys_withKeyBuf hidx)) ?_
      intro i hi
      by_cases heq : i = idx
      · rw [heq, cell_withSlot hidx hidx hdata, if_pos rfl, cell_withKeyBuf hidx hidx, if_pos rfl]
      · rw [cell_withSlot hidx (by omega) hdata, if_neg heq, cell_withKeyBuf hidx (by omega), if_neg heq]
    | stored idx q hlen hroom hplace hok hstores =>
      exact h.stores hstores (place_lt hn hplace).2 hnq hlen
  | @setCbor key value ok q hset =>
    cases hset with
    | refused => exact h
    | untyped hlen hroom hplace =>
      refine h.of_cells (numKeys_withKeyBuf hroom) ?_
      intro i hi
      rw [cell_withKeyBuf hroom (by omega), if_neg (by omega)]
    | stored idx q hlen hvalue hhead hty hplace hstores =>
      exact h.stores hstores (place_lt hn hplace).2 hnq hlen
  | removeKey hremoval =>
    cases hremoval with
    | missing => exact h
    | removed idx q hfind hremoves =>
      intro i hi
      rw [hremoves.cell i hi]
      have hnum := hremoves.numKeys
      split
      · exact h i (by omega)
      · exact h (i + 1) (by omega)
  | clear hzero =>
    intro i hi
    omega
  | sealImage hkeeps | markSaved hkeeps =>
    refine h.of_cells hkeeps.numKeys ?_
    intro i hi
    rw [hkeeps.cell i (by omega)]
  | load => exact hop.elim

theorem keysFit_of_reached [Cbor2] [Cbor2.Minimal] {l : Layout} (h : Reached Edits l p) : KeysFit p := by
  refine h.invariant ?_ ?_
  · intro i hi
    rw [ConfigPartition.new, numKeys_zeroed] at hi
    omega
  · intro p op ok q hn hp hop houtcome
    exact hp.step hn hop houtcome

/-- The response of such a partition, where it can be sent, lists its keys. -/
theorem response_of_keysFit (hn : p.numKeys ≤ maxNumKv) (hfit : KeysFit p) (header : ConfigHeader)
    (partitionByte : UInt8) {len : Nat} (hlen : statusResponseLen p = some (some len)) :
    ∃ bytes : Bytes, bytes.length = len ∧
      (∀ buf, len ≤ buf.length →
        encodeStatusResponse buf header partitionByte p = .ok (bytes ++ buf.drop len, len)) ∧
      ∀ trailing, ∃ r, ConfigStatusResponse.decode (bytes ++ trailing) = .ok r ∧ r.header = header ∧
        r.partitionByte = partitionByte ∧ r.committed = p.needsCommit ∧ r.numKeys.toNat = p.numKeys ∧
          r.keys.Yields (p.listed.map fun c => .ok c.name) := by
  have hcount : maxNumKv = 50 := rfl
  rw [statusResponseLen, storedKeys_eq hn, Option.map_some, statusLenOf_eq, Option.some.injEq] at hlen
  split at hlen
  · rename_i hmax
    cases hlen
    refine ⟨(statusFields p header partitionByte (storedList p)).bytes, length_statusFields .., ?_, ?_⟩
    · intro buf hroom
      rw [encodeStatusResponse_eq hn, if_pos hmax, if_neg (by omega), copyAt, length_statusFields,
        List.take_zero, List.nil_append, Nat.zero_add]
    · intro trailing
      have hnames : ∀ name ∈ p.listed.map Cell.name, name.length ≤ 255 := by
        intro name hname
        obtain ⟨c, hc, rfl⟩ := List.mem_map.mp hname
        obtain ⟨i, hi, rfl⟩ := mem_listed.mp hc
        rw [Cell.name, List.length_take, length_keyBuf (by omega)]
        exact (Nat.min_le_right _ _).trans (by decide)
      have hnum : (UInt8.ofNat p.numKeys).toNat = p.numKeys := toNat_ofNat_u8 (by omega)
      refine ⟨⟨header, partitionByte, p.needsCommit, UInt8.ofNat p.numKeys,
        entriesBytes (p.listed.map Cell.name) ++ trailing⟩, ?_, rfl, rfl, rfl, hnum, ?_⟩
      · rw [bytes_statusFields, bytes_keyFields hn hfit, List.append_assoc]
        exact ConfigStatusResponse.decode_written ..
      · have hyields := StatusKeys.yields_entries hnames trailing
        rw [List.length_map, length_listed, List.map_map] at hyields
        rw [ConfigStatusResponse.keys]
        dsimp only
        rw [hnum]
        exact hyields
  · cases hlen

end

/-- The response of a partition that was made by edits lists its keys, whatever follows it. Of a partition
that was loaded there is a response inside the buffer, or an error. What is accepted from anybody has its
keys returned one by one, and where there are fewer than it declares an error behind them. -/
theorem status_response [Cbor2] [Cbor2.Minimal] (l : Layout) (header : ConfigHeader) (partitionByte : UInt8) :
    (∀ p, Reached Edits l p → ∀ len, statusResponseLen p = some (some len) →
      ∃ bytes : Bytes, bytes.length = len ∧
        (∀ buf, len ≤ buf.length →
          encodeStatusResponse buf header partitionByte p = .ok (bytes ++ buf.drop len, len)) ∧
        ∀ trailing, ∃ r, ConfigStatusResponse.decode (bytes ++ trailing) = .ok r ∧ r.header = header ∧
          r.partitionByte = partitionByte ∧ r.committed = p.needsCommit ∧ r.numKeys.toNat = p.numKeys ∧
            r.keys.Yields (p.listed.map fun c => .ok c.name)) ∧
      (∀ p, Reached (fun _ _ => True) l p → ∀ buf,
        (∃ e, encodeStatusResponse buf header partitionByte p = .error (.error e)) ∨
          ∃ out len, encodeStatusResponse buf header partitionByte p = .ok (out, len) ∧
            statusResponseLen p = some (some len) ∧ len ≤ buf.length ∧ out.length = buf.length ∧
              out.drop len = buf.drop len) ∧
      ∀ buf r, ConfigStatusResponse.decode buf = .ok r → ∃ names rest,
        buf = buf.take ConfigStatusResponse.headLen ++ (entriesBytes names ++ rest) ∧
          (names.length = r.numKeys.toNat ∧ r.keys.Yields (names.map .ok) ∨
            names.length < r.numKeys.toNat ∧
              (∀ key more, key.length ≤ 255 → rest ≠ entryBytes key ++ more) ∧
                r.keys.Yields (names.map .ok ++ [.error .truncated])) := by
  refine ⟨?_, ?_, ?_⟩
  · intro p hp len hlen
    exact response_of_keysFit hp.bounded.1 (keysFit_of_reached hp) header partitionByte hlen
  · intro p hp buf
    have hn := hp.bounded.1
    rw [encodeStatusResponse_eq hn, statusResponseLen, storedKeys_eq hn, Option.map_some, statusLenOf_eq]
    split
    · split
      · exact Or.inl ⟨_, rfl⟩
      · rename_i hroom
        have hlen := length_statusFields p header partitionByte (storedList p)
        refine Or.inr ⟨_, _, rfl, rfl, by omega, length_copyAt _ _ _ (by omega), ?_⟩
        rw [copyAt, hlen, List.take_zero, List.nil_append, Nat.zero_add]
        exact List.drop_left' hlen
    · exact Or.inl ⟨_, rfl⟩
  · intro buf r h
    rw [ConfigStatusResponse.decode_eq] at h
    split at h
    · cases h
      obtain ⟨names, rest, hdata, hcases⟩ := StatusKeys.yields_cases
        ⟨buf.drop 19, (buf.byteAt 18).toNat⟩
      refine ⟨names, rest, ?_, hcases⟩
      dsimp only at hdata
      rw [← hdata]
      exact (List.take_append_drop 19 buf).symm
    · cases h

/-- The response that lists two keys, and one that declares two and has the first of them. -/
theorem status_response_twoKeys :
    (∃ bytes : Bytes, bytes.length = 23 ∧
      (∀ buf, 23 ≤ buf.length → encodeStatusResponse buf ⟨1, 2⟩ 0 twoKeys = .ok (bytes ++ buf.drop 23, 23)) ∧
      ∃ r, ConfigStatusResponse.decode (bytes ++ [0xff]) = .ok r ∧ r.numKeys.toNat = 2 ∧
        r.keys.Yields [.ok [0x61], .ok [0x62]]) ∧
    ∃ r names rest, ConfigStatusResponse.decode (List.replicate 18 0 ++ [2, 1, 0x61]) = .ok r ∧
      List.replicate 18 (0 : UInt8) ++ [2, 1, 0x61] =
        (List.replicate 18 (0 : UInt8) ++ [2, 1, 0x61]).take 19 ++ (entriesBytes names ++ rest) ∧
      (names.length = 2 ∧ r.keys.Yields (names.map .ok) ∨
        names.length < 2 ∧ r.keys.Yields (names.map .ok ++ [.error .truncated])) ∧
      r.keys.Yields [.ok [0x61], .error .truncated] := by
  obtain ⟨hmade, -, hanybody⟩ := @status_response Cbor2.shortest Cbor2.shortest_minimal .lp64 ⟨1, 2⟩ 0
  have hkeys : statusResponseLen twoKeys = some (some 23) ∧ twoKeys.numKeys = 2 ∧
      twoKeys.listed.map Cell.name = [[0x61], [0x62]] := by decide +kernel
  constructor
  · obtain ⟨bytes, hbytes, hencode, hdecode⟩ :=
      hmade twoKeys (reached_twoKeys fun _ => ⟨trivial, trivial⟩) 23 hkeys.1
    obtain ⟨r, hr, -, -, -, hcount, hyields⟩ := hdecode [0xff]
    have hnames : twoKeys.listed.map (fun c => (.ok c.name : Except BmWireError Bytes)) =
        [.ok [0x61], .ok [0x62]] := by
      have hmap := congrArg (List.map (Except.ok : Bytes → Except BmWireError Bytes)) hkeys.2.2
      rw [List.map_map] at hmap
      exact hmap
    exact ⟨bytes, hbytes, hencode, r, hr, hcount.trans hkeys.2.1, hnames ▸ hyields⟩
  · obtain ⟨names, rest, heq, hcases⟩ := hanybody (List.replicate 18 0 ++ [2, 1, 0x61]) _ rfl
    refine ⟨_, names, rest, rfl, heq, ?_, .item rfl (.item rfl (.done rfl))⟩
    rcases hcases with h | ⟨hfewer, -, hyields⟩
    · exact .inl h
    · exact .inr ⟨hfewer, hyields⟩

/-- One key is declared, and there is none. -/
theorem declared_key_missing : ∃ r, ConfigStatusResponse.decode (List.replicate 18 0 ++ [1]) = .ok r ∧
    r.numKeys = 1 ∧ r.keys.Yields [.error .truncated] :=
  ⟨_, rfl, rfl, .item rfl (.done rfl)⟩

end Bristlemouth.Config
