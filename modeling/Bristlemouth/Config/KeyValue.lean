import Bristlemouth.Config.Runs

/-!
# The partition is a map

Under keys of 1 to 31 bytes without a NUL the listed cells form a keyed list, named by
`key_buf[..key_len]`: a set is `KeyedList.put`, a removal is `List.eraseIdx`, and the names stay
distinct. That the getters read back what was set, and that every other key keeps its cell, are the
laws of such lists.
-/

set_option autoImplicit false

namespace Bristlemouth.Config

open Bytes ConfigPartition

/-- A key of 1 to 31 bytes without a NUL, as long as its text. -/
structure Key.Plain (key : Key) : Prop where
  len_eq : key.len = key.text.length
  pos : 0 < key.len
  le : key.len ≤ 31
  no_nul : 0 ∉ key.text

/-- A cell such a key is stored in. -/
structure Cell.Plain (c : Cell) : Prop where
  length : c.keyBuf.length = keyBufLen
  pos : 0 < c.keyLen
  le : c.keyLen ≤ 31
  no_nul : 0 ∉ c.name

theorem Cell.Plain.length_name {c : Cell} (h : c.Plain) : c.name.length = c.keyLen := by
  have hle := h.le
  rw [Cell.name, List.length_take, h.length]
  simp only [keyBufLen, maxKeyLenBytes]
  omega

namespace Key.Plain

variable {key : Key} {c : Cell}

theorem names_iff (hkey : key.Plain) (hc : c.Plain) : key.names c = true ↔ c.name = key.text := by
  have hle := hkey.le
  have hlen := hkey.len_eq
  have htake : CString.strncmpEq key.byte c.keyBuf.byteAt 0 key.len = true
      ↔ c.keyBuf.take key.len = key.text := by
    rw [hlen]
    refine CString.strncmpEq_take hkey.no_nul ?_
    rw [hc.length]
    simp only [keyBufLen, maxKeyLenBytes]
    omega
  rw [Key.names, Bool.and_eq_true, decide_eq_true_eq, htake, Cell.name]
  constructor
  · rintro ⟨hkeyLen, hname⟩
    rwa [hkeyLen]
  · intro hname
    have hkeyLen : c.keyLen = key.len := by rw [← hc.length_name, Cell.name, hname, hlen]
    exact ⟨hkeyLen, by rwa [hkeyLen] at hname⟩

theorem strlen_eq (hkey : key.Plain) : min key.strlen (keyBufLen - 1) = key.len := by
  have hle := hkey.le
  rw [Key.strlen, CString.strlen_of_no_nul hkey.no_nul, ← hkey.len_eq]
  simp only [keyBufLen, maxKeyLenBytes]
  omega

/-- Storing a key leaves its text at the front of the buffer. -/
theorem storeIn_eq (hkey : key.Plain) {buf : Bytes} (hbuf : buf.length = keyBufLen) :
    (key.storeIn buf).length = keyBufLen ∧ (key.storeIn buf).take key.len = key.text := by
  have hle := hkey.le
  have h32 : keyBufLen = 32 := rfl
  have htext : key.text.take key.len = key.text := by rw [hkey.len_eq, List.take_length]
  have hfit : 0 + key.text.length ≤ buf.length := by rw [← hkey.len_eq]; omega
  have hfirst : (buf.copyAt 0 key.text).length = keyBufLen := by rw [length_copyAt _ _ _ hfit, hbuf]
  have hprefix : (buf.copyAt 0 key.text).take key.len = key.text := by
    have htake := take_copyAt key.text (Nat.zero_le buf.length)
    rwa [Nat.zero_add, ← hkey.len_eq, List.take_zero, List.nil_append] at htake
  rw [Key.storeIn, hkey.strlen_eq, htext]
  constructor
  · rw [length_copyAt _ _ _ (by rw [hfirst, List.length_singleton]; omega), hfirst]
  · rw [copyAt, List.take_append_of_le_length (by rw [List.length_take, hfirst]; omega),
      List.take_take, Nat.min_self, hprefix]

theorem stored_plain (hkey : key.Plain) {buf slot : Bytes} (hbuf : buf.length = keyBufLen)
    (ty : Nat) :
    (Cell.mk (key.storeIn buf) key.len ty slot).Plain ∧
      (Cell.mk (key.storeIn buf) key.len ty slot).name = key.text := by
  obtain ⟨hlen, htake⟩ := hkey.storeIn_eq hbuf
  exact ⟨⟨hlen, hkey.pos, hkey.le, by rw [Cell.name, htake]; exact hkey.no_nul⟩, htake⟩

end Key.Plain

namespace ConfigPartition

/-- The invariant of a partition that has only seen plain keys. -/
structure Plain (p : ConfigPartition) : Prop where
  cells : ∀ c ∈ p.listed, c.Plain
  distinct : KeyedList.Distinct Cell.name p.listed

variable {p q : ConfigPartition} {key : Key} {idx : Nat}

theorem Plain.findIdx? (hp : p.Plain) (hkey : key.Plain) :
    p.listed.findIdx? key.names = KeyedList.lookup Cell.name key.text p.listed := by
  refine findIdx?_congr fun c hc => ?_
  exact Bool.eq_iff_iff.mpr ((hkey.names_iff (hp.cells c hc)).trans decide_eq_true_iff.symm)

theorem Plain.entry (hp : p.Plain) (hkey : key.Plain) :
    p.entry key = KeyedList.entry Cell.name key.text p.listed := by
  have hle := hkey.le
  rw [entry_of_le (by simp only [maxKeyLenBytes]; omega)]
  refine find?_congr fun c hc => ?_
  exact Bool.eq_iff_iff.mpr ((hkey.names_iff (hp.cells c hc)).trans decide_eq_true_iff.symm)

theorem Plain.find (hp : p.Plain) (hn : p.numKeys ≤ maxNumKv) (hkey : key.Plain) :
    p.find key = some (KeyedList.lookup Cell.name key.text p.listed) := by
  have hle := hkey.le
  rw [find_listed hn (by simp only [keyBufLen, maxKeyLenBytes]; omega), hp.findIdx? hkey]

/-- A set goes to the place of its key. -/
theorem Plain.place (hp : p.Plain) (hkey : key.Plain) (h : p.place key = some idx) :
    idx = KeyedList.place Cell.name key.text p.listed := by
  rw [ConfigPartition.place, hp.findIdx? hkey] at h
  rw [KeyedList.place]
  cases hlookup : KeyedList.lookup Cell.name key.text p.listed with
  | some i =>
    rw [hlookup] at h
    cases h
    rfl
  | none =>
    rw [hlookup] at h
    simp only [ite_eq_iff, reduceCtorEq, and_false, or_false, Option.some.injEq] at h
    rw [Option.getD_none, length_listed]
    exact h.2.symm

/-- An accepted set is a `put`. -/
theorem Plain.listed_stores (hp : p.Plain) (hn : p.numKeys ≤ maxNumKv) (hkey : key.Plain)
    (hplace : p.place key = some idx) {c : Cell} (hname : c.name = key.text)
    (hstores : Stores p q idx c) : q.listed = KeyedList.put Cell.name c p.listed := by
  obtain ⟨hidx, hle⟩ := place_lt hn hplace
  rw [hstores.listed hn hidx hle, KeyedList.put, hname, ← hp.place hkey hplace]

theorem Plain.put {c : Cell} (hp : p.Plain) (hc : c.Plain)
    (hlisted : q.listed = KeyedList.put Cell.name c p.listed) : q.Plain where
  cells b hb := by
    rw [hlisted] at hb
    rcases KeyedList.mem_put hb with rfl | hb
    · exact hc
    · exact hp.cells b hb
  distinct := hlisted ▸ KeyedList.distinct_put hp.distinct c

theorem Plain.removes (hp : p.Plain) (hremoves : Removes p q idx) : q.Plain where
  cells c hc := by
    rw [hremoves.listed] at hc
    exact hp.cells c (List.mem_of_mem_eraseIdx hc)
  distinct := hremoves.listed ▸ hp.distinct.eraseIdx idx

theorem Plain.of_listed (hp : p.Plain) (h : q.listed = p.listed) : q.Plain where
  cells := h ▸ hp.cells
  distinct := h ▸ hp.distinct

theorem Keeps.listed (h : Keeps p q) (hn : p.numKeys ≤ maxNumKv) : q.listed = p.listed := by
  rw [ConfigPartition.listed, ConfigPartition.listed, h.numKeys]
  refine List.map_congr_left fun i hi => ?_
  have hi := List.mem_range.mp hi
  exact h.cell i (by omega)

/-- A cell the lookup of a plain key finds carries its name. -/
theorem Plain.cell_of_place (hp : p.Plain) (hkey : key.Plain) (hplace : p.place key = some idx)
    (hlt : idx < p.numKeys) : (p.cell idx).Plain ∧ (p.cell idx).name = key.text := by
  have hcell := getElem?_listed hlt
  have hmem := List.mem_of_getElem? hcell
  refine ⟨hp.cells _ hmem, ?_⟩
  by_contra hne
  exact KeyedList.ne_place hcell hne (hp.place hkey hplace)

/-- The cells after a set that failed at the value. -/
theorem cell_failed {data : Bytes} (hidx : idx < maxNumKv) (hdata : data.length ≤ slotLen) {j : Nat}
    (hj : j < maxNumKv) : ((p.withKeyBuf idx key).withSlot idx data).cell j =
      if j = idx then ⟨key.storeIn (p.cell idx).keyBuf, (p.cell idx).keyLen, (p.cell idx).valueType,
        (p.cell idx).slot.copyAt 0 data⟩ else p.cell j := by
  rw [cell_withSlot hidx hj hdata, cell_withKeyBuf hidx hj, cell_withKeyBuf hidx hidx, if_pos rfl]
  split_ifs <;> rfl

theorem listed_failed (hn : p.numKeys ≤ maxNumKv) (key : Key) {data : Bytes} (hidx : idx < maxNumKv)
    (hdata : data.length ≤ slotLen) : ((p.withKeyBuf idx key).withSlot idx data).listed =
      p.listed.set idx ⟨key.storeIn (p.cell idx).keyBuf, (p.cell idx).keyLen, (p.cell idx).valueType,
        (p.cell idx).slot.copyAt 0 data⟩ :=
  listed_set hn ((numKeys_withSlot hidx hdata).trans (numKeys_withKeyBuf hidx)) fun _ hj =>
    cell_failed hidx hdata hj

/-- A refused encode over a listed cell keeps the cell's name. -/
theorem Plain.failed [Cbor2] [Cbor2.Minimal] (hp : p.Plain) (hn : p.numKeys ≤ maxNumKv)
    (hkey : key.Plain) (hplace : p.place key = some idx) {data : Bytes}
    (hdata : data.length ≤ slotLen) : ((p.withKeyBuf idx key).withSlot idx data).Plain := by
  obtain ⟨hidx, hle⟩ := place_lt hn hplace
  have hlisted := listed_failed hn key hidx hdata
  by_cases hlt : idx < p.numKeys
  · obtain ⟨hplain, hname⟩ := hp.cell_of_place hkey hplace hlt
    have hlen : (p.cell idx).keyLen = key.len := by
      rw [← hplain.length_name, hname, hkey.len_eq]
    rw [hlen] at hlisted
    obtain ⟨hstored, hsname⟩ := hkey.stored_plain hplain.length (p.cell idx).valueType
    refine hp.put hstored (hlisted.trans ?_)
    rw [KeyedList.put, hsname, ← hp.place hkey hplace, length_listed, if_pos hlt]
  · refine hp.of_listed ?_
    rw [hlisted]
    exact List.set_eq_of_length_le (by rw [length_listed]; omega)

/-- The cell an accepted raw set leaves. It keeps the buffer of a key that is listed. -/
theorem Plain.cbor_cell (hp : p.Plain) (hn : p.numKeys ≤ maxNumKv) (hkey : key.Plain)
    (hplace : p.place key = some idx) (ty : Nat) (slot : Bytes) {buf : Bytes}
    (hbuf : buf = if idx < p.numKeys then (p.cell idx).keyBuf else key.storeIn (p.cell idx).keyBuf) :
    (Cell.mk buf key.len ty slot).Plain ∧ (Cell.mk buf key.len ty slot).name = key.text := by
  subst hbuf
  split_ifs with hlt
  · obtain ⟨hplain, hname⟩ := hp.cell_of_place hkey hplace hlt
    have hlen : (p.cell idx).keyLen = key.len := by
      rw [← hplain.length_name, hname, hkey.len_eq]
    have htake : (p.cell idx).keyBuf.take key.len = key.text := by rw [← hlen]; exact hname
    exact ⟨⟨hplain.length, hkey.pos, hkey.le, by rw [Cell.name, htake]; exact hkey.no_nul⟩, htake⟩
  · exact hkey.stored_plain (length_keyBuf (place_lt hn hplace).1) ty

/-- The sets, removals and saves of plain keys; no load. -/
def PlainOp (_ : ConfigPartition) : Op → Prop
  | .set key _ | .setCbor key _ | .removeKey key => key.Plain
  | .clear | .sealImage | .markSaved => True
  | .load _ => False

theorem plain_step [Cbor2] [Cbor2.Minimal] {op : Op} {ok : Bool} (hn : p.numKeys ≤ maxNumKv)
    (hp : p.Plain) (hop : PlainOp p op) (h : Outcome p op ok q) : q.Plain := by
  have hfifty : slotLen = 50 := rfl
  cases h with
  | @set key v ok q h =>
    cases h with
    | refused => exact hp
    | failed idx hlen hroom hplace hfail =>
      have hidx := (place_lt hn hplace).1
      exact hp.failed hn hop hplace (length_encode v (length_slot hidx)).le
    | stored idx q hlen hroom hplace hok hstores =>
      obtain ⟨hplain, hname⟩ := hop.stored_plain (length_keyBuf (place_lt hn hplace).1) v.type.toNat
      exact hp.put hplain (hp.listed_stores hn hop hplace hname hstores)
  | @setCbor key value ok q h =>
    cases h with
    | refused => exact hp
    | untyped hlen hroom hplace =>
      have hcell : ∀ j, j < maxNumKv → (p.withKeyBuf p.numKeys key).cell j = if j = p.numKeys then
          { p.cell p.numKeys with keyBuf := key.storeIn (p.cell p.numKeys).keyBuf } else p.cell j :=
        fun j hj => cell_withKeyBuf hroom hj
      refine hp.of_listed ((listed_set hn (numKeys_withKeyBuf hroom) hcell).trans ?_)
      exact List.set_eq_of_length_le (by rw [length_listed])
    | stored idx q hlen hvalue hhead hty hplace hstores =>
      obtain ⟨hplain, hname⟩ := hp.cbor_cell hn hop hplace _ _ rfl
      exact hp.put hplain (hp.listed_stores hn hop hplace hname hstores)
  | removeKey h =>
    cases h with
    | missing => exact hp
    | removed idx q hfind hremoves => exact hp.removes hremoves
  | clear hzero =>
    have hnil : q.listed = [] := by rw [listed, hzero]; rfl
    exact ⟨by simp [hnil], by simp [hnil, KeyedList.Distinct]⟩
  | sealImage h | markSaved h => exact hp.of_listed (h.listed hn)
  | load => exact hop.elim

theorem reached_plain [Cbor2] [Cbor2.Minimal] {l : Layout} (h : Reached PlainOp l p) : p.Plain :=
  h.invariant ⟨by simp [listed, ConfigPartition.new], by simp [listed, ConfigPartition.new,
    KeyedList.Distinct]⟩ fun _ _ _ _ hn hp hop houtcome => plain_step hn hp hop houtcome

/-- What a set leaves of the other keys, and the count. -/
structure Assigned (p q : ConfigPartition) (key : Key) : Prop where
  numKeys : q.numKeys = if p.find key = some none then p.numKeys + 1 else p.numKeys
  kept : ∀ i, i < p.numKeys → (p.cell i).name ≠ key.text → q.cell i = p.cell i
  find : ∀ k : Key, k.Plain → k.text ≠ key.text → q.find k = p.find k
  reads : ∀ k : Key, k.Plain → k.text ≠ key.text → SameReadings q p k

/-- What a removal leaves. -/
structure Dropped (p q : ConfigPartition) (key : Key) : Prop where
  numKeys : q.numKeys + 1 = p.numKeys
  find : q.find key = some none
  kept : q.listed = p.listed.filter fun c => decide (c.name ≠ key.text)
  reads : ∀ k : Key, k.Plain → k.text ≠ key.text → SameReadings q p k

theorem Plain.assigned (hp : p.Plain) (hq : q.Plain) (hn : p.numKeys ≤ maxNumKv)
    (hnq : q.numKeys ≤ maxNumKv) (hkey : key.Plain) {c : Cell} (hname : c.name = key.text)
    (hlisted : q.listed = KeyedList.put Cell.name c p.listed) : Assigned p q key where
  numKeys := by
    rw [← length_listed q, hlisted, KeyedList.length_put, hname, hp.find hn hkey, length_listed]
    simp
  kept i hi hne := by
    have hcell := getElem?_listed hi
    have hlt : i < p.listed.length := by rw [length_listed]; exact hi
    have hput : q.listed[i]? = p.listed[i]? := by
      rw [hlisted]
      exact KeyedList.getElem?_put_of_ne hlt (KeyedList.ne_place hcell (hname ▸ hne))
    rw [hcell] at hput
    have hiq := (List.getElem?_eq_some_iff.mp hput).1
    rw [length_listed] at hiq
    exact Option.some.inj ((getElem?_listed hiq).symm.trans hput)
  find k hk hne := by
    rw [hq.find hnq hk, hp.find hn hk, hlisted]
    exact congrArg some (KeyedList.lookup_put_of_ne hp.distinct (hname ▸ hne))
  reads k hk hne := SameReadings.of_entry hnq hn (by
    rw [hq.entry hk, hp.entry hk, hlisted]
    exact KeyedList.entry_put_of_ne hp.distinct (hname ▸ hne))

/-- After an accepted set the getters read its cell. -/
theorem Plain.entry_put (hp : p.Plain) (hq : q.Plain) (hkey : key.Plain) {c : Cell}
    (hname : c.name = key.text) (hlisted : q.listed = KeyedList.put Cell.name c p.listed) :
    q.entry key = some c := by
  rw [hq.entry hkey, hlisted, ← hname]
  exact KeyedList.entry_put_self hp.distinct

theorem Plain.dropped (hp : p.Plain) (hn : p.numKeys ≤ maxNumKv) (hkey : key.Plain)
    (hfind : p.find key = some (some idx)) (hremoves : Removes p q idx) : Dropped p q key := by
  have hq := hp.removes hremoves
  have hnq : q.numKeys ≤ maxNumKv := by
    have hnum := hremoves.numKeys
    omega
  have hlookup : KeyedList.lookup Cell.name key.text p.listed = some idx :=
    Option.some.inj ((hp.find hn hkey).symm.trans hfind)
  refine ⟨?_, ?_, ?_, fun k hk hne => SameReadings.of_entry hnq hn ?_⟩
  · have hnum := hremoves.numKeys
    have hlt := hremoves.lt
    omega
  · rw [hq.find hnq hkey, hremoves.listed, KeyedList.lookup_eraseIdx_self hp.distinct hlookup]
  · rw [hremoves.listed, KeyedList.eraseIdx_eq_filter hp.distinct hlookup]
  · rw [hq.entry hk, hp.entry hk, hremoves.listed]
    exact KeyedList.entry_eraseIdx_of_ne hp.distinct hlookup hne

/-- An accepted typed set: the cell read back under its key holds the value. -/
theorem Plain.set [Cbor2] [Cbor2.Minimal] (hp : p.Plain) (hn : p.numKeys ≤ maxNumKv)
    (hkey : key.Plain) {v : TypedValue} (hset : p.set key v = some (true, q)) :
    ∃ c, q.numKeys ≤ maxNumKv ∧ q.entry key = some c ∧ c.Reads v ∧ Assigned p q key := by
  have hrun : (Op.set key v).run p = some (true, q) := hset
  obtain ⟨ok, r, hrun', houtcome⟩ := run_cases hn (Op.set key v)
  cases hrun.symm.trans hrun'
  have hq : q.Plain := plain_step hn hp (show PlainOp p (.set key v) from hkey) houtcome
  have hnq := (houtcome.bounded hn).1
  cases houtcome with
  | set h =>
    cases h with
    | stored idx q hlen hroom hplace hok hstores =>
      have hidx := (place_lt hn hplace).1
      obtain ⟨hplain, hname⟩ := hkey.stored_plain (length_keyBuf hidx) v.type.toNat
      have hlisted := hp.listed_stores hn hkey hplace hname hstores
      have hencode := v.encode_eq (length_slot (p := p) hidx)
      have hfit : v.item.encode.length ≤ slotLen := by
        by_contra hlong
        rw [hencode, if_neg hlong] at hok
        cases hok
      rw [if_pos hfit] at hencode
      have hslot : (v.encode (p.cell idx).slot).2
          = v.item.encode ++ (p.cell idx).slot.drop v.item.encode.length := by
        simp [hencode, copyAt]
      exact ⟨_, hnq, hp.entry_put hq hkey hname hlisted, Cell.reads_item hslot hfit,
        hp.assigned hq hn hnq hkey hname hlisted⟩

theorem Plain.setCbor [Cbor2] [Cbor2.Minimal] (hp : p.Plain) (hn : p.numKeys ≤ maxNumKv)
    (hkey : key.Plain) {value : Bytes} (hset : p.setCbor key value = some (true, q)) :
    ∃ c, q.numKeys ≤ maxNumKv ∧ q.entry key = some c ∧ c.slot.length = slotLen ∧
      (∃ rest, c.slot = value ++ rest) ∧ c.head.isSome ∧ Assigned p q key := by
  have hrun : (Op.setCbor key value).run p = some (true, q) := hset
  obtain ⟨ok, r, hrun', houtcome⟩ := run_cases hn (Op.setCbor key value)
  cases hrun.symm.trans hrun'
  have hq : q.Plain := plain_step hn hp (show PlainOp p (.setCbor key value) from hkey) houtcome
  have hnq := (houtcome.bounded hn).1
  cases houtcome with
  | setCbor h =>
    cases h with
    | stored idx q hlen hvalue hhead hty hplace hstores =>
      have hslot := length_slot (p := p) (place_lt hn hplace).1
      obtain ⟨hplain, hname⟩ := hp.cbor_cell hn hkey hplace _ _ rfl
      have hlisted := hp.listed_stores hn hkey hplace hname hstores
      have hcopy : (p.cell idx).slot.copyAt 0 value
          = value ++ (p.cell idx).slot.drop value.length := by simp [copyAt]
      refine ⟨_, hnq, hp.entry_put hq hkey hname hlisted, ?_, ⟨_, hcopy⟩, ?_,
        hp.assigned hq hn hnq hkey hname hlisted⟩
      · exact (length_copyAt _ _ _ (by omega)).trans hslot
      · rw [Cell.head, hcopy, Head.parse_append hhead]
        rfl

end ConfigPartition

/-- Under plain keys a partition is a map: the matching getter reads back what a set stored, a
removed key is gone, and every other key keeps its type, its value and its order. -/
theorem partition_map [Cbor2] [Cbor2.Minimal] {l : Layout} {p : ConfigPartition}
    (hp : Reached PlainOp l p) {key : Key} (hkey : key.Plain) :
    (∀ v q, p.setUint key v = some (true, q) →
      q.getUint key = some (some v) ∧ Assigned p q key) ∧
    (∀ v q, p.setInt key v = some (true, q) → q.getInt key = some (some v) ∧ Assigned p q key) ∧
    (∀ bits q, p.setFloat key bits = some (true, q) →
      q.getFloat key = some (some bits) ∧ Assigned p q key) ∧
    (∀ v q, p.setString key v = some (true, q) →
      (∀ u out, v.length ≤ out.length → ∃ out',
        q.getString u key out = some (.ok v.length, out') ∧ out'.take v.length = v) ∧
      Assigned p q key) ∧
    (∀ v q, p.setBuffer key v = some (true, q) →
      (∀ u out, v.length ≤ out.length → ∃ out',
        q.getBuffer u key out = some (.ok v.length, out') ∧ out'.take v.length = v) ∧
      Assigned p q key) ∧
    (∀ v q, p.setCbor key v = some (true, q) →
      (∀ out, slotLen ≤ out.length → ∃ out',
        q.getCbor key out = some (some slotLen, out') ∧ out'.take v.length = v) ∧
      Assigned p q key) ∧
    (∀ q, p.removeKey key = some (true, q) → Dropped p q key) := by
  have hplain := reached_plain hp
  have hn := hp.bounded.1
  refine ⟨fun v q hset => ?_, fun v q hset => ?_, fun bits q hset => ?_, fun v q hset => ?_,
    fun v q hset => ?_, fun v q hset => ?_, fun q hremove => ?_⟩
  · obtain ⟨c, hnq, hentry, hreads, hassigned⟩ := hplain.set hn hkey (v := .uint v) hset
    exact ⟨by rw [getUint_eq hnq, hentry]; exact congrArg some hreads, hassigned⟩
  · obtain ⟨c, hnq, hentry, hreads, hassigned⟩ := hplain.set hn hkey (v := .int v) hset
    exact ⟨by rw [getInt_eq hnq, hentry]; exact congrArg some hreads, hassigned⟩
  · obtain ⟨c, hnq, hentry, hreads, hassigned⟩ := hplain.set hn hkey (v := .float bits) hset
    exact ⟨by rw [getFloat_eq hnq, hentry]; exact congrArg some hreads, hassigned⟩
  · obtain ⟨c, hnq, hentry, hreads, hassigned⟩ := hplain.set hn hkey (v := .str v) hset
    refine ⟨fun u out hout => ?_, hassigned⟩
    obtain ⟨out', hcopy, htake⟩ := hreads u out hout
    exact ⟨out', by rw [getString, getStrLike_eq hnq, hentry]; exact congrArg some hcopy, htake⟩
  · obtain ⟨c, hnq, hentry, hreads, hassigned⟩ := hplain.set hn hkey (v := .bytes v) hset
    refine ⟨fun u out hout => ?_, hassigned⟩
    obtain ⟨out', hcopy, htake⟩ := hreads u out hout
    exact ⟨out', by rw [getBuffer, getStrLike_eq hnq, hentry]; exact congrArg some hcopy, htake⟩
  · obtain ⟨c, hnq, hentry, hlen, ⟨rest, hslot⟩, hhead, hassigned⟩ := hplain.setCbor hn hkey hset
    refine ⟨fun out hout => ⟨out.copyAt 0 c.slot, ?_, ?_⟩, hassigned⟩
    · rw [getCbor_eq hnq, hentry]
      simp only [Cell.getCbor, Option.isNone_eq_false_iff.mpr hhead, Bool.false_eq_true, false_or,
        if_neg (show ¬ out.length < slotLen by omega)]
    · simp [copyAt, hslot]
  · have hrun : (Op.removeKey key).run p = some (true, q) := hremove
    obtain ⟨ok, r, hrun', houtcome⟩ := run_cases hn (Op.removeKey key)
    cases hrun.symm.trans hrun'
    cases houtcome with
    | removeKey h =>
      cases h with
      | removed idx q hfind hremoves => exact hplain.dropped hn hkey hfind hremoves

/-- The first of two keys is removed, and a third is set where the second one's text still lies. -/
theorem partition_map_twoKeys : ∃ q r, twoKeys.removeKey (Key.new [0x61]) = some (true, q) ∧
    Dropped twoKeys q (Key.new [0x61]) ∧ (q.cell 1).slot.take 2 = [0x61, 0x78] ∧
    @setUint q Cbor2.shortest (Key.new [0x63]) 9 = some (true, r) ∧
      r.getUint (Key.new [0x63]) = some (some 9) ∧ Assigned q r (Key.new [0x63]) := by
  have hplain : ∀ b : UInt8, 0 ∉ [b] → (Key.new [b]).Plain := fun b hb =>
    ⟨rfl, Nat.one_pos, show 1 ≤ 31 by omega, hb⟩
  have hcalls : ((twoKeys.removeKey (Key.new [0x61])).bind fun removed =>
      (@setUint removed.2 Cbor2.shortest (Key.new [0x63]) 9).map fun set =>
        (removed.1, (removed.2.cell 1).slot.take 2, set.1)) = some (true, [0x61, 0x78], true) := by decide +kernel
  obtain ⟨⟨ok, q⟩, hremove, hset⟩ := Option.bind_eq_some_iff.mp hcalls
  obtain ⟨⟨ok', r⟩, hset, heq⟩ := Option.map_eq_some_iff.mp hset
  dsimp only at hset heq
  simp only [Prod.mk.injEq] at heq
  obtain ⟨rfl, hstale, rfl⟩ := heq
  have htwo : @Reached Cbor2.shortest PlainOp .lp64 twoKeys :=
    reached_twoKeys fun _ => ⟨hplain 0x61 (by decide), hplain 0x62 (by decide)⟩
  have hone : @Reached Cbor2.shortest PlainOp .lp64 q :=
    @Reached.step Cbor2.shortest _ _ _ _ (.removeKey (Key.new [0x61])) _ htwo (hplain 0x61 (by decide)) hremove
  obtain ⟨-, -, -, -, -, -, hdropped⟩ :=
    @partition_map Cbor2.shortest Cbor2.shortest_minimal .lp64 _ htwo _ (hplain 0x61 (by decide))
  obtain ⟨hassigned, -⟩ :=
    @partition_map Cbor2.shortest Cbor2.shortest_minimal .lp64 _ hone _ (hplain 0x63 (by decide))
  exact ⟨q, r, hremove, hdropped q hremove, hstale, hset, hassigned 9 r hset⟩

end Bristlemouth.Config
