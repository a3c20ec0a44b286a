import Bristlemouth.Config.CborMap
import Bristlemouth.Config.KeyValue
import Bristlemouth.Parser.Cursor
import Bristlemouth.Parser.TwoReaders

/-!
# The map tells what the getters tell

Typed setters and raw sets write a cell's type and its slot by different steps, and the map reads the slot
back by that type, through the parser. As long as no set is refused for its length and every raw value is
one whole item, a listed cell holds a value of its type, and both readers read it.
-/

set_option autoImplicit false

namespace Bristlemouth.Config

open Bytes Bristlemouth.Parser

/-- What an item is read as, by the getter of the value's type. -/
inductive ReadAs : Cbor.Scalar → TypedValue → Prop
  | uint (n : Nat) : ReadAs (.unsigned n) (.uint (UInt32.ofNat n))
  | int (n : Nat) : ReadAs (.unsigned n) (.int (UInt64.ofNat n).toInt64.toInt32)
  | negative (n : Nat) : ReadAs (.negative n) (.int (-(UInt64.ofNat n).toInt64 - 1).toInt32)
  | float (bits : UInt32) : ReadAs (.single bits) (.float bits)
  | text (body : Bytes) : ReadAs (.text body) (.str body)
  | bytes (body : Bytes) : ReadAs (.bytes body) (.bytes body)

/-- The slot starts with an item that is read as this value, and the cell's type is the value's. -/
def Cell.Holds (c : Cell) (v : TypedValue) : Prop :=
  c.valueType = v.type.toNat ∧ ∃ s h rest, ReadAs s v ∧ s.Encodes h ∧ c.slot = h ++ rest

/-- A cell that a map can be made of, or an array that leaves it a value short. -/
structure Cell.Legible (c : Cell) : Prop where
  length : c.slot.length = slotLen
  holds : c.valueType = ValueType.array.toNat ∧ c.head ≠ none ∨ ∃ v, c.Holds v

/-! ## What the sets leave -/

theorem Cell.Holds.not_array {c : Cell} {v : TypedValue} (h : c.Holds v) :
    c.valueType ≠ ValueType.array.toNat := by
  rw [h.1]
  cases v <;> simp [TypedValue.type, ValueType.toNat]

theorem readAs_item (v : TypedValue) : ReadAs v.item v := by
  cases v with
  | uint v =>
    have hread := ReadAs.uint v.toNat
    rwa [UInt32.ofNat_toNat] at hread
  | int v =>
    by_cases hneg : v.toInt64 < 0
    · have hread := ReadAs.negative (~~~ v.toInt64).toUInt64.toNat
      rw [UInt64.ofNat_toNat, Int64.toInt64_toUInt64, toInt32_not, Int32.toInt32_toInt64] at hread
      rwa [TypedValue.item, if_pos hneg]
    · have hread := ReadAs.int v.toInt64.toUInt64.toNat
      rw [UInt64.ofNat_toNat, Int64.toInt64_toUInt64, Int32.toInt32_toInt64] at hread
      rwa [TypedValue.item, if_neg hneg]
  | float bits => exact .float bits
  | str body => exact .text body
  | bytes body => exact .bytes body

/-- The numbers always fit, so it is a matter of the texts. -/
theorem fits_of_body {v : TypedValue} (hbody : ∀ body, v = .str body ∨ v = .bytes body → body.length < 2 ^ 64) :
    v.item.Fits := by
  cases v with
  | uint v => exact lt_trans v.toNat_lt (by decide)
  | int v =>
    rw [TypedValue.item]
    split_ifs
    · exact UInt64.toNat_lt _
    · exact UInt64.toNat_lt _
  | float bits => trivial
  | str body => exact hbody body (.inl rfl)
  | bytes body => exact hbody body (.inr rfl)

theorem fits_item {v : TypedValue} (hfit : v.item.encode.length ≤ slotLen) : v.item.Fits := by
  have hfifty : slotLen = 50 := rfl
  refine fits_of_body fun body hbody => ?_
  rcases hbody with rfl | rfl
  all_goals
    simp only [TypedValue.item, Cbor.Scalar.encode, List.length_append] at hfit
    omega

/-- A write at the front of a slot, and the rest of the old content. -/
theorem copyAt_front (buf data : Bytes) : buf.copyAt 0 data = data ++ buf.drop data.length := by
  simp [copyAt]

theorem parse_copyAt {buf data : Bytes} (h : Head.parse data ≠ none) :
    Head.parse (buf.copyAt 0 data) ≠ none := by
  obtain ⟨head, hhead⟩ := Option.ne_none_iff_exists'.mp h
  rw [copyAt_front, Head.parse_append hhead]
  exact Option.some_ne_none head

theorem holds_set [Cbor2] [Cbor2.Minimal] {v : TypedValue} {slot buf : Bytes} {len : Nat}
    (hslot : slot.length = slotLen) (hfit : v.item.encode.length ≤ slotLen) :
    (Cell.mk buf len v.type.toNat (v.encode slot).2).Holds v := by
  refine ⟨rfl, v.item, v.item.encode, slot.drop v.item.encode.length, readAs_item v,
    Cbor.Scalar.encodes_encode (fits_item hfit), ?_⟩
  dsimp only
  rw [v.encode_eq hslot, if_pos hfit, copyAt_front]

/-- The type that a raw set gives to an item. -/
theorem holds_raw {s : Cbor.Scalar} {value : Bytes} (hs : s.Encodes value) {head : Head}
    (hhead : Head.parse value = some head) {ty : ValueType} (hty : head.configType = some ty) (buf : Bytes)
    (len : Nat) (slot : Bytes) : ∃ v, (Cell.mk buf len ty.toNat (slot.copyAt 0 value)).Holds v := by
  have hcopy := copyAt_front slot value
  have hmajor : ∀ {major arg : Nat} {h body : Bytes}, Cbor.IsHead major arg h → major < 7 →
      value = h ++ body → ∃ info, head = ⟨UInt8.ofNat major, info, arg⟩ := by
    intro major arg h body hh hm hvalue
    obtain ⟨info, -, hparse⟩ := Head.parse_isHead hh hm body
    rw [← hvalue, hhead] at hparse
    exact ⟨info, Option.some_injective _ hparse⟩
  cases hs with
  | @unsigned n _ hh =>
    obtain ⟨info, rfl⟩ := hmajor hh (by omega) (List.append_nil value).symm
    cases hty
    exact ⟨_, rfl, _, _, _, .uint n, .unsigned hh, hcopy⟩
  | @negative n _ hh =>
    obtain ⟨info, rfl⟩ := hmajor hh (by omega) (List.append_nil value).symm
    cases hty
    exact ⟨_, rfl, _, _, _, .negative n, .negative hh, hcopy⟩
  | @bytes body _ hh =>
    obtain ⟨info, rfl⟩ := hmajor hh (by omega) rfl
    cases hty
    exact ⟨_, rfl, _, _, _, .bytes body, .bytes hh, hcopy⟩
  | @text body _ hh =>
    obtain ⟨info, rfl⟩ := hmajor hh (by omega) rfl
    cases hty
    exact ⟨_, rfl, _, _, _, .text body, .text hh, hcopy⟩
  | single bits =>
    have hparse := Head.parse_single bits []
    rw [List.append_nil, hhead] at hparse
    cases hparse
    cases hty
    exact ⟨_, rfl, _, _, _, .float bits, .single bits, hcopy⟩

namespace ConfigPartition

variable {p q : ConfigPartition} {l : Layout}

/-- Sets that are not refused for their length (a full partition refuses before it looks at the value), raw
values of one whole item or an array, and what else plain keys may do. -/
def WholeOp (p : ConfigPartition) (op : Op) : Prop :=
  PlainOp p op ∧ match op with
    | .set _ v => p.numKeys < maxNumKv → v.item.encode.length ≤ slotLen
    | .setCbor _ value => (∃ s : Cbor.Scalar, s.Encodes value) ∨
        ∃ n head body, Cbor.IsHead 4 n head ∧ value = head ++ body
    | _ => True

/-- The invariant: every listed cell is legible. -/
structure Legible (p : ConfigPartition) : Prop where
  plain : p.Plain
  cells : ∀ c ∈ p.listed, c.Legible

theorem Legible.of_listed (hp : p.Legible) (h : q.listed = p.listed) : q.Legible where
  plain := hp.plain.of_listed h
  cells := h ▸ hp.cells

theorem Legible.put {c : Cell} (hp : p.Legible) (hplain : c.Plain) (hc : c.Legible)
    (hlisted : q.listed = KeyedList.put Cell.name c p.listed) : q.Legible where
  plain := hp.plain.put hplain hlisted
  cells b hb := by
    rw [hlisted] at hb
    rcases KeyedList.mem_put hb with rfl | hb
    · exact hc
    · exact hp.cells b hb

theorem legible_step [Cbor2] [Cbor2.Minimal] {op : Op} {ok : Bool} (hn : p.numKeys ≤ maxNumKv)
    (hp : p.Legible) (hop : WholeOp p op) (h : Outcome p op ok q) : q.Legible := by
  obtain ⟨hplainOp, hwhole⟩ := hop
  cases h with
  | @set key v ok q h =>
    cases h with
    | refused => exact hp
    | failed idx hlen hroom hplace hfail =>
      have hslot := length_slot (p := p) (place_lt hn hplace).1
      rw [v.encode_eq hslot, if_pos (hwhole hroom)] at hfail
      cases hfail
    | stored idx q hlen hroom hplace hok hstores =>
      have hslot := length_slot (p := p) (place_lt hn hplace).1
      obtain ⟨hplain, hname⟩ := hplainOp.stored_plain (length_keyBuf (place_lt hn hplace).1) v.type.toNat
      exact hp.put hplain ⟨length_encode v hslot, .inr ⟨v, holds_set hslot (hwhole hroom)⟩⟩
        (hp.plain.listed_stores hn hplainOp hplace hname hstores)
  | @setCbor key value ok q h =>
    cases h with
    | refused => exact hp
    | untyped hlen hroom hplace =>
      have hcell : ∀ j, j < maxNumKv → (p.withKeyBuf p.numKeys key).cell j = if j = p.numKeys then
          { p.cell p.numKeys with keyBuf := key.storeIn (p.cell p.numKeys).keyBuf } else p.cell j :=
        fun j hj => cell_withKeyBuf hroom hj
      refine hp.of_listed ((listed_set hn (numKeys_withKeyBuf hroom) hcell).trans ?_)
      exact List.set_eq_of_length_le (by rw [length_listed])
    | @stored idx q hlen hvalue head hhead ty hty hplace hstores =>
      have hslot := length_slot (p := p) (place_lt hn hplace).1
      obtain ⟨hplain, hname⟩ := hp.plain.cbor_cell hn hplainOp hplace ty.toNat
        ((p.cell idx).slot.copyAt 0 value) rfl
      refine hp.put hplain ⟨(length_copyAt _ _ _ (by omega)).trans hslot, ?_⟩
        (hp.plain.listed_stores hn hplainOp hplace hname hstores)
      rcases hwhole with ⟨s, hs⟩ | ⟨n, h, body, hh, hvalueEq⟩
      · exact .inr (holds_raw hs hhead hty _ _ _)
      · left
        obtain ⟨info, -, hparse⟩ := Head.parse_isHead hh (by omega) body
        rw [← hvalueEq, hhead] at hparse
        have hne : Head.parse value ≠ none := by
          rw [hhead]
          exact Option.some_ne_none head
        cases hparse
        cases hty
        exact ⟨rfl, parse_copyAt hne⟩
  | removeKey h =>
    cases h with
    | missing => exact hp
    | removed idx q hfind hremoves =>
      refine ⟨hp.plain.removes hremoves, fun c hc => ?_⟩
      rw [hremoves.listed] at hc
      exact hp.cells c (List.mem_of_mem_eraseIdx hc)
  | clear hzero =>
    have hnil : q.listed = [] := by
      rw [listed, hzero]
      rfl
    exact ⟨⟨by simp [hnil], by simp [hnil, KeyedList.Distinct]⟩, by simp [hnil]⟩
  | sealImage h | markSaved h => exact hp.of_listed (h.listed hn)
  | load => exact hplainOp.elim

theorem reached_legible [Cbor2] [Cbor2.Minimal] (h : Reached WholeOp l p) : p.Legible := by
  refine h.invariant ?_ fun _ _ _ _ hn hp hop houtcome => legible_step hn hp hop houtcome
  have hnil : (ConfigPartition.new l).listed = [] := by simp [listed, ConfigPartition.new]
  exact ⟨⟨by simp [hnil], by simp [hnil, KeyedList.Distinct]⟩, by simp [hnil]⟩

end ConfigPartition

/-! ## What the getters read -/

theorem item_of_encodes (d : Nat) {s : Cbor.Scalar} {h : Bytes} (hs : s.Encodes h) :
    Cbor.Item d h ∧ Untagged h := by
  cases hs with
  | unsigned hh => exact ⟨.integer (by omega) hh, untagged_isHead hh (by omega) (by omega)⟩
  | negative hh => exact ⟨.integer (by omega) hh, untagged_isHead hh (by omega) (by omega)⟩
  | bytes hh =>
    exact ⟨.string (.inl rfl) hh, untagged_append _ (untagged_isHead hh (by omega) (by omega)) hh.length_pos⟩
  | text hh =>
    exact ⟨.string (.inr rfl) hh, untagged_append _ (untagged_isHead hh (by omega) (by omega)) hh.length_pos⟩
  | single bits =>
    have hh : Cbor.IsHead 7 bits.toNat (Cbor.initial 7 26 :: beBytes 4 bits.toNat) :=
      .long 2 (by omega) bits.toNat_lt
    refine ⟨.simple hh fun hlen => ?_, untagged_isHead hh (by omega) (by omega)⟩
    rw [List.length_cons, length_beBytes] at hlen
    omega

/-- A map of scalars is one well-formed item. -/
theorem item_encodeMap {pairs : List (Cbor.Scalar × Cbor.Scalar)} (hcount : pairs.length < 2 ^ 64)
    (hfits : ∀ pair ∈ pairs, pair.1.Fits ∧ pair.2.Fits) : Cbor.Item 1 (Cbor.encodeMap pairs) := by
  have hitems : (pairs.flatMap fun pair => pair.1.encode ++ pair.2.encode) =
      (pairs.flatMap fun pair => [pair.1.encode, pair.2.encode]).flatten := by
    induction pairs with
    | nil => rfl
    | cons pair pairs ih =>
      rw [List.flatMap_cons, List.flatMap_cons, List.flatten_append,
        ih (by rw [List.length_cons] at hcount; omega) fun p hp => hfits p (List.mem_cons_of_mem pair hp)]
      simp
  rw [Cbor.encodeMap, hitems]
  refine .container (.inr rfl) (Cbor.isHead_preferredHead 5 hcount) ?_ ?_
  · simp [List.length_flatMap, Cbor.itemsPer, Nat.mul_comm]
  · intro b hb
    obtain ⟨pair, hpair, hb⟩ := List.mem_flatMap.mp hb
    obtain ⟨hkey, hvalue⟩ := hfits pair hpair
    rcases List.mem_pair.mp hb with rfl | rfl
    · exact (item_of_encodes 0 (Cbor.Scalar.encodes_encode hkey)).1
    · exact (item_of_encodes 0 (Cbor.Scalar.encodes_encode hvalue)).1

namespace Cell

variable {c : Cell} {v : TypedValue}

theorem Holds.fits (h : c.Holds v) (hlen : c.slot.length = slotLen) : v.item.Fits := by
  have hfifty : slotLen = 50 := rfl
  obtain ⟨-, s, h, rest, hread, hs, hslot⟩ := h
  have hfit := congrArg List.length hslot
  rw [List.length_append, hlen] at hfit
  refine fits_of_body fun body hbody => ?_
  have hbodyLe : body.length ≤ h.length := by
    rcases hbody with rfl | rfl
    all_goals
      cases hread
      cases hs
      rw [List.length_append]
      omega
  omega

theorem Holds.reads (h : c.Holds v) (hlen : c.slot.length = slotLen) : c.Reads v := by
  have hfifty : slotLen = 50 := rfl
  obtain ⟨-, s, h, rest, hread, hs, hslot⟩ := h
  have hfit := congrArg List.length hslot
  rw [List.length_append, hlen] at hfit
  cases hread with
  | uint n => exact getUint_unsigned hs hslot
  | int n => exact getInt_unsigned hs hslot
  | negative n => exact getInt_negative hs hslot
  | float bits => exact getFloat_single hs hslot
  | text body =>
    cases hs with
    | text hh =>
      rw [List.length_append] at hfit
      exact fun u out hout => getStrLike_isHead hh (by omega) (by omega) hslot u hout
  | bytes body =>
    cases hs with
    | bytes hh =>
      rw [List.length_append] at hfit
      exact fun u out hout => getStrLike_isHead hh (by omega) (by omega) hslot u hout

theorem Holds.head_ne_none (h : c.Holds v) : c.head ≠ none := by
  obtain ⟨-, s, h, rest, -, hs, hslot⟩ := h
  obtain ⟨w, hw⟩ := Value.parse_item (u := .bits64) (item_of_encodes maxRecursions hs).1 hslot
  obtain ⟨head, hhead⟩ := (parses_alike .bits64 c.slot).mpr ⟨w, hw⟩
  rw [Cell.head, hhead]
  exact Option.some_ne_none head

theorem Legible.head_ne_none (h : c.Legible) : c.head ≠ none := by
  rcases h.holds with ⟨-, hhead⟩ | ⟨v, hv⟩
  · exact hhead
  · exact hv.head_ne_none

end Cell

namespace ConfigPartition

variable {p : ConfigPartition} {key : Key} {c : Cell} {v : TypedValue}

/-- The typed getter of a value answers it. A string is copied whole into any buffer that holds it. -/
def Gets (p : ConfigPartition) (key : Key) : TypedValue → Prop
  | .uint v => p.getUint key = some (some v)
  | .int v => p.getInt key = some (some v)
  | .float bits => p.getFloat key = some (some bits)
  | .str v => ∀ u out, v.length ≤ out.length → ∃ out',
      p.getString u key out = some (.ok v.length, out') ∧ out'.take v.length = v
  | .bytes v => ∀ u out, v.length ≤ out.length → ∃ out',
      p.getBuffer u key out = some (.ok v.length, out') ∧ out'.take v.length = v

theorem gets_of_entry (hn : p.numKeys ≤ maxNumKv) (hentry : p.entry key = some c) (hreads : c.Reads v) :
    p.Gets key v := by
  cases v with
  | uint v => exact (getUint_eq hn key).trans (by rw [hentry]; exact congrArg some hreads)
  | int v => exact (getInt_eq hn key).trans (by rw [hentry]; exact congrArg some hreads)
  | float bits => exact (getFloat_eq hn key).trans (by rw [hentry]; exact congrArg some hreads)
  | str v =>
    intro u out hout
    obtain ⟨out', hcopy, htake⟩ := hreads u out hout
    exact ⟨out', by rw [getString, getStrLike_eq hn, hentry]; exact congrArg some hcopy, htake⟩
  | bytes v =>
    intro u out hout
    obtain ⟨out', hcopy, htake⟩ := hreads u out hout
    exact ⟨out', by rw [getBuffer, getStrLike_eq hn, hentry]; exact congrArg some hcopy, htake⟩

/-- A listed key is found by its own name. -/
theorem Plain.entry_self (hp : p.Plain) (hc : c ∈ p.listed) : p.entry (Key.new c.name) = some c := by
  have hplain := hp.cells c hc
  have hlen : (Key.new c.name).len = c.keyLen := hplain.length_name
  have hkey : (Key.new c.name).Plain :=
    ⟨rfl, hlen.symm ▸ hplain.pos, hlen.symm ▸ hplain.le, hplain.no_nul⟩
  rw [hp.entry hkey]
  exact hp.distinct.entry_eq_some.mpr ⟨hc, rfl⟩

/-- The map looks a key up by its buffer, of which only the name counts. -/
theorem Plain.entry_stored (hp : p.Plain) (hc : c ∈ p.listed) :
    p.entry (.withLen c.keyBuf c.keyLen) = some c := by
  have hplain := hp.cells c hc
  have hle := hplain.le
  have hname := hplain.length_name
  have hsame : ∀ b, (Key.withLen c.keyBuf c.keyLen).names b = (Key.new c.name).names b := by
    intro b
    have hbyte : ∀ i, i < c.keyLen → c.keyBuf.byteAt i = c.name.byteAt i := by
      intro i hi
      rw [Cell.name, byteAt, byteAt, List.getD_eq_getElem?_getD, List.getD_eq_getElem?_getD,
        List.getElem?_take_of_lt hi]
    simp only [Key.names, Key.withLen, Key.new, hname]
    congr 1
    exact CString.strncmpEq_congr_left hbyte
  have hself := hp.entry_self hc
  rw [entry_of_le (by simp only [Key.new, maxKeyLenBytes, hname]; omega)] at hself
  rw [entry_of_le (by simp only [Key.withLen, maxKeyLenBytes]; omega)]
  rw [← hself]
  exact congrArg (fun f => List.find? f p.listed) (funext hsame)

end ConfigPartition

/-! ## What the map reads -/

/-- An item at the front of a buffer is ahead of its parser. -/
theorem ahead_front {u : Usize} {b rest : Bytes} (hshort : (b ++ rest).length < 2 ^ 31)
    (hitem : Cbor.Item maxRecursions b) (huntagged : Untagged b) {v : Value}
    (hv : Value.parse u (b ++ rest) = .ok v) : Ahead (b ++ rest) [b] rest v := by
  have hfirst := Value.parse_first hv
  refine ⟨hfirst.buf, hshort, ?_, ?_, ?_, ?_, fun _ => hfirst.on,
    fun hnil => absurd hnil (List.cons_ne_nil _ _)⟩
  · rw [hfirst.pos]
    exact Nat.zero_le _
  · rw [hfirst.pos]
    simp
  · intro a ha
    rw [List.mem_singleton] at ha
    subst ha
    exact ⟨hitem, huntagged⟩
  · rw [hfirst.remaining]
    rfl

section
variable [Cbor2] [Cbor2.Minimal] {u : Usize}

omit [Cbor2] [Cbor2.Minimal] in
theorem toUInt32_toUInt64 {x : UInt64} {n : Nat} (hx : x.toNat = n) : x.toUInt32 = UInt32.ofNat n := by
  rw [← hx]
  rfl

theorem putString_holds (log : Sink.Log) (text : Bool) {major : Nat} (hm : major = 2 ∨ major = 3)
    {buf head body rest : Bytes} {items : List Bytes} {w : Value} (hh : Cbor.IsHead major body.length head)
    (hfit : head.length + body.length ≤ slotLen) (h : Ahead buf ((head ++ body) :: items) rest w) :
    ∃ log', putString u log text w = some (log', .ok true) ∧
      log'.bytes =
        log.bytes ++ (Header.encode (if text then .text body.length else .bytes body.length) ++ body) := by
  have hpos := hh.length_pos
  have hcopy := h.copyOf (u := u) hm hh slotLen
  rw [if_pos (by omega)] at hcopy
  have htmp : copyChunksTo (List.replicate slotLen 0) [(0, body)] =
      some (copyAt (List.replicate slotLen 0) 0 body) := by
    rw [copyChunksTo, if_pos (by rw [length_zeroed]; omega)]
    rfl
  have hshort : body.length < slotLen := by omega
  have htake : (copyAt (List.replicate slotLen 0) 0 body).take body.length = body := by
    simp [copyAt]
  refine ⟨Sink.put (putHead log (if text then .text body.length else .bytes body.length)) body, ?_, ?_⟩
  · simp only [putString, hcopy, htmp, Option.bind_eq_bind, Option.bind_some, hshort, hshort.le, decide_true,
      and_self, if_true, htake]
  · rw [Sink.bytes_put, bytes_putHead, List.append_assoc]

/-- A cell's value is put into the map as its getter reads it. -/
theorem putValue_holds {c : Cell} {v : TypedValue} (hc : c.Holds v) (hlen : c.slot.length = slotLen)
    (log : Sink.Log) {w : Value} (hw : Value.parse u c.slot = .ok w) :
    ∃ log', putValue u log c.valueType w = some (log', .ok true) ∧
      log'.bytes = log.bytes ++ v.item.encode := by
  have hfifty : slotLen = 50 := rfl
  obtain ⟨hty, s, h, rest, hread, hs, hslot⟩ := hc
  have hfit := congrArg List.length hslot
  rw [List.length_append, hlen] at hfit
  obtain ⟨hitem, huntagged⟩ := item_of_encodes maxRecursions hs
  rw [hslot] at hw
  have hahead := ahead_front (by rw [List.length_append]; omega) hitem huntagged hw
  rw [hty]
  cases hread with
  | uint n =>
    cases hs with
    | unsigned hh =>
      obtain ⟨-, x, hx, hn⟩ := hahead.unsigned (u := u) hh
      refine ⟨putHead log (.positive x.toUInt32.toUInt64), ?_, ?_⟩
      · simp only [TypedValue.type, ValueType.toNat, putValue, hx]
      · rw [bytes_putHead, toUInt32_toUInt64 hn, item_uint]
  | int n =>
    cases hs with
    | unsigned hh =>
      obtain ⟨hunsigned, x, hx, hn⟩ := hahead.unsigned (u := u) hh
      have hfrom : UInt64.ofNat n = x := by rw [← hn, UInt64.ofNat_toNat]
      have hpositive : w.flags.negativeInteger = false := by
        rw [Value.isUnsignedInteger, Bool.and_eq_true, Bool.not_eq_true'] at hunsigned
        exact hunsigned.2
      have hget : w.getInt64 u = .ok x.toInt64 := by
        simp only [Value.getInt64, hx, hpositive, bind, Except.bind]
        rfl
      refine ⟨putHead log (intHeader x.toInt64.toInt32), ?_, ?_⟩
      · simp only [TypedValue.type, ValueType.toNat, putValue, hget]
      · rw [bytes_putHead, hfrom, item_int]
  | negative n =>
    cases hs with
    | negative hh =>
      rw [← List.append_nil h] at hahead
      obtain ⟨x, hx, hn⟩ := hahead.extract (u := u) hh (by decide)
      obtain ⟨info, argument, hon, -⟩ := hahead.head hh (by decide)
      have hfrom : UInt64.ofNat n = x := by rw [← hn, UInt64.ofNat_toNat]
      have hnegative : w.flags.negativeInteger = true :=
        (congrArg (fun v : Value => v.flags.negativeInteger) hon.self).symm
      have hget : w.getInt64 u = .ok (-x.toInt64 - 1) := by
        simp only [Value.getInt64, hx, hnegative, bind, Except.bind]
        rfl
      refine ⟨putHead log (intHeader (-x.toInt64 - 1).toInt32), ?_, ?_⟩
      · simp only [TypedValue.type, ValueType.toNat, putValue, hget]
      · rw [bytes_putHead, hfrom, item_int]
  | float bits =>
    cases hs with
    | single =>
      obtain ⟨hwide, x, hx, hn⟩ := hahead.wide (u := u) (k := 2) (.inl rfl) (length_beBytes ..)
      obtain ⟨m, info, argument, hon⟩ := hahead.on (List.cons_ne_nil _ _)
      have hdrop := hahead.drop_eq
      rw [List.cons_append] at hdrop
      obtain ⟨rfl, rfl⟩ := hon.initial_eq (by decide) (by decide) hdrop
      have hlarge : w.flags.integerTooLarge = true :=
        (congrArg (fun v : Value => v.flags.integerTooLarge) hon.self).symm
      have hbits : x.toUInt32 = bits := by
        rw [toUInt32_toUInt64 hn, beNat_beBytes,
          Nat.mod_eq_of_lt (show bits.toNat < 256 ^ 2 ^ 2 from bits.toNat_lt), UInt32.ofNat_toNat]
      have hget : w.getFloat u = .ok bits := by
        simp only [Value.getFloat, hx, hlarge, bind, Except.bind, ← hbits]
        rfl
      refine ⟨Sink.put (Sink.put log [0xfa]) (beBytes 4 bits.toNat), ?_, ?_⟩
      · simp only [TypedValue.type, ValueType.toNat, putValue, hget]
      · rw [Sink.bytes_put, Sink.bytes_put, List.append_assoc]
        rfl
  | text body =>
    cases hs with
    | text hh => exact putString_holds log true (.inr rfl) hh (by rw [List.length_append] at hfit; omega) hahead
  | bytes body =>
    cases hs with
    | bytes hh => exact putString_holds log false (.inl rfl) hh (by rw [List.length_append] at hfit; omega) hahead

namespace ConfigPartition

variable {p : ConfigPartition}

/-- A pair of the map. -/
def pairBytes (c : Cell) (v : TypedValue) : Bytes := (Cbor.Scalar.text c.name).encode ++ v.item.encode

/-- One turn of the loop: a value's key gets its pair, an array's key leaves the map a value short. -/
theorem encodeKey_legible (hp : p.Legible) (hn : p.numKeys ≤ maxNumKv) {c : Cell} (hc : c ∈ p.listed)
    (s : MapLoop Sink.Log) :
    ∃ t, p.encodeKey u ⟨c.keyBuf, c.keyLen, c.valueType⟩ s = some (t, .ok ()) ∧
      t.complete = (s.complete && decide (c.valueType ≠ ValueType.array.toNat)) ∧
      ∀ v, c.Holds v → t.sink.bytes = s.sink.bytes ++ pairBytes c v := by
  have hmax := u.le_max
  have hplain := hp.plain.cells c hc
  have hlegible := hp.cells c hc
  have hle := hplain.le
  have hkeyLen : keyLenOf u ⟨c.keyBuf, c.keyLen, c.valueType⟩ = some c.keyLen := by
    rw [keyLenOf, Usize.tryFrom_of_lt u (by dsimp only; omega)]
    refine Option.filter_eq_some_iff.mpr ⟨rfl, decide_eq_true ?_⟩
    simp only [keyBufLen, maxKeyLenBytes]
    omega
  obtain ⟨w, hfresh, hparse⟩ : ∃ w, p.freshValue u (.withLen c.keyBuf c.keyLen) = some (some w) ∧
      Value.parse u c.slot = .ok w := by
    rcases parsed_cases hn (.withLen c.keyBuf c.keyLen) with ⟨-, hnone⟩ | ⟨idx, c', hslot, hentry, hparsed⟩
    · rw [hp.plain.entry_stored hc] at hnone
      cases hnone
    · rw [hp.plain.entry_stored hc] at hentry
      cases hentry
      obtain ⟨head, hhead⟩ := Option.ne_none_iff_exists'.mp hlegible.head_ne_none
      obtain ⟨w, hw⟩ := (parses_alike u c.slot).mp ⟨head, hhead⟩
      refine ⟨w, ?_, hw⟩
      simp only [freshValue, hparsed, hhead, Option.map_some, Option.bind_eq_bind, Option.bind_some, hslot, hw,
        okOf]
  have hlength := hplain.length_name
  have hkey : (Sink.put (putHead s.sink (.text c.keyLen)) (c.keyBuf.take c.keyLen)).bytes =
      s.sink.bytes ++ (Cbor.Scalar.text c.name).encode := by
    rw [Sink.bytes_put, bytes_putHead, List.append_assoc, Cbor.Scalar.encode, hlength]
    rfl
  simp only [encodeKey, hkeyLen, hfresh, Option.bind_eq_bind, Option.bind_some, valueFor, Option.orElse, putFound]
  rcases hlegible.holds with ⟨harray, -⟩ | ⟨v, hv⟩
  · refine ⟨_, by rw [harray]; rfl, ?_, fun v hv => absurd harray (Cell.Holds.not_array hv)⟩
    rw [decide_eq_false (not_not.mpr harray)]
  · obtain ⟨log, hput, hbytes⟩ := putValue_holds hv hlegible.length
      (Sink.put (putHead s.sink (.text c.keyLen)) (c.keyBuf.take c.keyLen)) hparse
    refine ⟨_, by rw [hput]; rfl, ?_, fun v' hv' => ?_⟩
    · rw [decide_eq_true (Cell.Holds.not_array hv)]
    · obtain ⟨log', hput', hbytes'⟩ := putValue_holds hv' hlegible.length
        (Sink.put (putHead s.sink (.text c.keyLen)) (c.keyBuf.take c.keyLen)) hparse
      have hsame := Option.some_injective _ (hput.symm.trans hput')
      rw [Prod.mk.injEq] at hsame
      dsimp only
      rw [hsame.1, hbytes', hkey, List.append_assoc]
      rfl

theorem encodeKeys_legible (hp : p.Legible) (hn : p.numKeys ≤ maxNumKv) {is : List Nat}
    (his : ∀ i ∈ is, i < p.numKeys) (s : MapLoop Sink.Log) :
    ∃ t, p.encodeKeys u is s = some (t, .ok ()) ∧
      t.complete = (s.complete && decide (∀ i ∈ is, (p.cell i).valueType ≠ ValueType.array.toNat)) ∧
      ∀ value : Cell → TypedValue, (∀ i ∈ is, (p.cell i).Holds (value (p.cell i))) →
        t.sink.bytes = s.sink.bytes ++ is.flatMap fun i => pairBytes (p.cell i) (value (p.cell i)) := by
  induction is generalizing s with
  | nil => exact ⟨s, rfl, by simp, fun value _ => by simp⟩
  | cons i is ih =>
    have hi := his i List.mem_cons_self
    have hlisted : p.cell i ∈ p.listed := mem_listed.mpr ⟨i, hi, rfl⟩
    obtain ⟨t, hkey, hcomplete, hbytes⟩ := encodeKey_legible (u := u) hp hn hlisted s
    obtain ⟨t', hkeys, hcomplete', hbytes'⟩ := ih (fun j hj => his j (List.mem_cons_of_mem i hj)) t
    refine ⟨t', ?_, ?_, fun value hvalue => ?_⟩
    · simp only [encodeKeys, storedKey_eq (Nat.lt_of_lt_of_le hi hn), hkey, Option.bind_eq_bind, Option.bind_some]
      exact hkeys
    · rw [hcomplete', hcomplete, Bool.and_assoc, ← Bool.decide_and]
      simp only [List.forall_mem_cons]
    · rw [hbytes' value fun j hj => hvalue j (List.mem_cons_of_mem i hj),
        hbytes _ (hvalue i List.mem_cons_self), List.append_assoc, List.flatMap_cons]

/-- The map of legible cells. -/
theorem mapBytes_legible (hp : p.Legible) (hn : p.numKeys ≤ maxNumKv) :
    (∃ c ∈ p.listed, c.valueType = ValueType.array.toNat) ∧ p.mapBytes u = some (.error .noMap) ∨
      (∀ c ∈ p.listed, c.valueType ≠ ValueType.array.toNat) ∧
        ∀ value : Cell → TypedValue, (∀ c ∈ p.listed, c.Holds (value c)) →
          p.mapBytes u = some (.ok (Cbor.encodeMap (p.listed.map fun c => (.text c.name, (value c).item)))) := by
  obtain ⟨t, hkeys, hcomplete, hbytes⟩ := encodeKeys_legible (u := u) hp hn
    (fun i hi => List.mem_range.mp hi) (⟨putHead ⟨[]⟩ (.map p.numKeys), none, true⟩ : MapLoop Sink.Log)
  rw [Bool.true_and] at hcomplete
  simp only [mapBytes, encodeMap, hkeys, Option.bind_eq_bind, Option.bind_some, Option.map_some]
  by_cases hall : ∀ i ∈ List.range p.numKeys, (p.cell i).valueType ≠ ValueType.array.toNat
  · right
    refine ⟨fun c hc => ?_, fun value hvalue => ?_⟩
    · obtain ⟨i, hi, rfl⟩ := mem_listed.mp hc
      exact hall i (List.mem_range.mpr hi)
    · rw [hcomplete, decide_eq_true hall, if_pos rfl]
      have hwhole := hbytes value fun i hi => hvalue _ (mem_listed.mpr ⟨i, List.mem_range.mp hi, rfl⟩)
      rw [Except.map, hwhole, bytes_putHead, Cbor.encodeMap, List.length_map, length_listed, List.flatMap_map,
        listed, List.flatMap_map]
      rfl
  · left
    rw [hcomplete, decide_eq_false hall, if_neg Bool.false_ne_true]
    refine ⟨?_, rfl⟩
    simp only [not_forall, not_not] at hall
    obtain ⟨i, hi, harray⟩ := hall
    exact ⟨p.cell i, mem_listed.mpr ⟨i, List.mem_range.mp hi, rfl⟩, harray⟩

end ConfigPartition

/-- With plain keys, no set refused for its length and raw values of one whole item each, a partition has a
map unless an array is listed. The map is a well-formed one of as many pairs as there are keys, and pairs
every listed name with what its typed getter returns. -/
theorem map_tells_values {l : Layout} {p : ConfigPartition} (hp : Reached ConfigPartition.WholeOp l p)
    (u : Usize) :
    p.listed.length = p.numKeys ∧
    ((∃ c ∈ p.listed, c.valueType = ValueType.array.toNat) ∧
      (∀ out, ∃ out', p.cborMap u out = some (out', .error .noMap)) ∨
    (∀ c ∈ p.listed, c.valueType ≠ ValueType.array.toNat) ∧
      ∃ value : Cell → TypedValue,
        (∀ c ∈ p.listed, c.valueType = (value c).type.toNat ∧ p.Gets (Key.new c.name) (value c)) ∧
        ∀ map, map = Cbor.encodeMap (p.listed.map fun c => (.text c.name, (value c).item)) →
          Cbor.Item 1 map ∧ ∀ out : Bytes, map.length ≤ out.length →
            p.cborMap u out = some (out.copyAt 0 map, .ok map.length)) := by
  have hlegible := ConfigPartition.reached_legible hp
  have hn := hp.bounded.1
  obtain ⟨found, hfound, -, hcalls, -⟩ := ConfigPartition.cborMap_copies hn u
  refine ⟨ConfigPartition.length_listed p, ?_⟩
  rcases ConfigPartition.mapBytes_legible (u := u) hlegible hn with ⟨harray, hnone⟩ | ⟨hnot, hmap⟩
  · refine .inl ⟨harray, fun out => ?_⟩
    obtain ⟨⟨out', result⟩, hcall, hcopies⟩ := hcalls out
    cases hfound.symm.trans hnone
    exact ⟨out', hcall.trans (congrArg (fun r => some (out', r)) hcopies.result)⟩
  · have hvalues : ∀ c : Cell, ∃ v, c ∈ p.listed → c.Holds v := by
      intro c
      by_cases hc : c ∈ p.listed
      · rcases (hlegible.cells c hc).holds with ⟨harray, -⟩ | ⟨v, hv⟩
        · exact absurd harray (hnot c hc)
        · exact ⟨v, fun _ => hv⟩
      · exact ⟨.uint 0, fun hmem => absurd hmem hc⟩
    choose value hvalue using hvalues
    refine .inr ⟨hnot, value, fun c hc => ⟨(hvalue c hc).1, ?_⟩, fun map hmapEq => ⟨?_, fun out hout => ?_⟩⟩
    · exact ConfigPartition.gets_of_entry hn (hlegible.plain.entry_self hc)
        ((hvalue c hc).reads (hlegible.cells c hc).length)
    · rw [hmapEq]
      apply item_encodeMap
      · rw [List.length_map, ConfigPartition.length_listed]
        exact Nat.lt_of_le_of_lt hn (by decide)
      · intro pair hpair
        obtain ⟨c, hc, rfl⟩ := List.mem_map.mp hpair
        have hplain := hlegible.plain.cells c hc
        have hname : c.name.length < 2 ^ 64 := by
          have hle := hplain.le
          rw [hplain.length_name]
          omega
        exact ⟨hname, (hvalue c hc).fits (hlegible.cells c hc).length⟩
    · have hwhole := hmap value hvalue
      rw [← hmapEq] at hwhole
      cases hfound.symm.trans hwhole
      obtain ⟨⟨out', result⟩, hcall, hcopies⟩ := hcalls out
      have hresult := hcopies.result
      have hwritten := hcopies.written map rfl hout
      dsimp only at hresult hwritten
      rw [hcall, hresult, hwritten, Except.bind, if_neg (Nat.not_lt.mpr hout)]

end

/-- The map of a number and a text. -/
theorem map_tells_values_twoKeys : twoKeys.numKeys = 2 ∧
    ∃ value : Cell → TypedValue,
      (∀ c ∈ twoKeys.listed, c.valueType = (value c).type.toNat ∧ twoKeys.Gets (Key.new c.name) (value c)) ∧
      ∀ map, map = Cbor.encodeMap (twoKeys.listed.map fun c => (.text c.name, (value c).item)) →
        Cbor.Item 1 map ∧ ∀ out : Bytes, map.length ≤ out.length →
          @ConfigPartition.cborMap Cbor2.shortest twoKeys .bits64 out = some (out.copyAt 0 map, .ok map.length) := by
  have htypes : twoKeys.listed.map Cell.valueType = [ValueType.uint32.toNat, ValueType.str.toNat] := by
    decide +kernel
  have hplain : ∀ b : UInt8, 0 ∉ [b] → (Key.new [b]).Plain := fun b hb =>
    ⟨rfl, Nat.one_pos, show 1 ≤ 31 by omega, hb⟩
  obtain ⟨hcount, htells⟩ := @map_tells_values Cbor2.shortest Cbor2.shortest_minimal .lp64 twoKeys
    (reached_twoKeys fun p => ⟨⟨hplain 0x61 (by decide), fun _ => by decide⟩, hplain 0x62 (by decide), fun _ => by
      decide⟩) .bits64
  have hlength := congrArg List.length htypes
  rw [List.length_map] at hlength
  refine ⟨hcount.symm.trans hlength, ?_⟩
  rcases htells with ⟨⟨c, hc, harray⟩, -⟩ | ⟨-, hvalues⟩
  · have hmem := List.mem_map_of_mem (f := Cell.valueType) hc
    rw [htypes, harray] at hmem
    exact absurd hmem (by decide)
  · exact hvalues

end Bristlemouth.Config
