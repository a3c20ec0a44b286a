import Bristlemouth.Config.MapValues

/-!
# What a refused change leaves

A set that fails has often begun to write: the text of its key, and the head of a value that turns out too
long. In a partition that was never loaded this stays inside the cell the key names, or inside one that is
not listed. The cells of such a partition are sound: a key that fits its buffer, and a slot that starts with
an item head.
-/

set_option autoImplicit false

namespace Bristlemouth.Config

open Bytes

/-! ## Key buffers -/

namespace Key

variable {key : Key} {buf : Bytes} {i : Nat}

theorem byte_ne_zero (h : i < key.strlen) : key.byte i ≠ 0 := by
  have hlt : i < key.text.length := lt_of_lt_of_le h (CString.strlen_le _)
  have hnot := List.not_of_lt_findIdx h
  rw [byte, byteAt, List.getD_eq_getElem _ _ hlt]
  simpa using hnot

theorem byte_strlen (key : Key) : key.byte key.strlen = 0 := by
  rw [byte, byteAt]
  by_cases hlt : key.strlen < key.text.length
  · rw [List.getD_eq_getElem _ _ hlt]
    exact eq_of_beq (@List.findIdx_getElem _ (· == 0) key.text hlt)
  · exact List.getD_eq_default _ _ (by omega)

theorem length_storeIn (key : Key) (hbuf : buf.length = keyBufLen) :
    (key.storeIn buf).length = keyBufLen := by
  obtain ⟨htext, hnul⟩ := ConfigPartition.storeIn_bounds key
  have hfirst := length_copyAt buf 0 _ (htext.trans_eq hbuf.symm)
  rw [storeIn, length_copyAt _ _ _ (by rw [hfirst, hbuf]; exact hnul), hfirst, hbuf]

/-- The text, its NUL, and the old content after it. -/
theorem byteAt_storeIn (hbuf : buf.length = keyBufLen) (i : Nat) :
    (key.storeIn buf).byteAt i =
      if i < min key.strlen (keyBufLen - 1) then key.byte i
      else if i = min key.strlen (keyBufLen - 1) then 0 else buf.byteAt i := by
  have hstrlen : key.strlen ≤ key.text.length := CString.strlen_le _
  obtain ⟨htext, hnul⟩ := ConfigPartition.storeIn_bounds key
  have htake : (key.text.take (min key.strlen (keyBufLen - 1))).length = min key.strlen (keyBufLen - 1) := by
    rw [List.length_take]
    omega
  have hfirst := length_copyAt buf 0 _ (htext.trans_eq hbuf.symm)
  rw [storeIn]
  split_ifs with hlt heq
  · rw [byteAt_copyAt_of_disjoint (by rw [hfirst, hbuf]; exact hnul) (.inl hlt), byteAt,
      List.getD_eq_getElem?_getD, getElem?_copyAt (htext.trans_eq hbuf.symm), if_neg (Nat.not_lt_zero _),
      if_pos (by omega), Nat.sub_zero, List.getElem?_take_of_lt hlt, ← List.getD_eq_getElem?_getD]
    rfl
  · rw [heq]
    exact byteAt_copyAt_self (by rw [hfirst, hbuf]; exact hnul)
  · rw [byteAt_copyAt_of_disjoint (by rw [hfirst, hbuf]; exact hnul) (.inr (by rw [List.length_singleton]; omega)),
      byteAt_copyAt_of_disjoint (htext.trans_eq hbuf.symm) (.inr (by omega))]

theorem terminated_storeIn (key : Key) (hbuf : buf.length = keyBufLen) :
    ∃ k, k < keyBufLen ∧ (key.storeIn buf).byteAt k = 0 := by
  refine ⟨min key.strlen (keyBufLen - 1), ?_, ?_⟩
  · have hthirtyTwo : keyBufLen = 32 := rfl
    omega
  · rw [byteAt_storeIn hbuf, if_neg (Nat.lt_irrefl _), if_pos rfl]

end Key

theorem take_congr {a b : Bytes} {n : Nat} (ha : n ≤ a.length) (hb : n ≤ b.length)
    (h : ∀ i, i < n → a.byteAt i = b.byteAt i) : a.take n = b.take n := by
  apply List.ext_getElem?
  intro i
  by_cases hi : i < n
  · rw [List.getElem?_take_of_lt hi, List.getElem?_take_of_lt hi, getElem?_eq_byteAt (by omega),
      getElem?_eq_byteAt (by omega), h i hi]
  · rw [List.getElem?_take_eq_none (by omega), List.getElem?_take_eq_none (by omega)]

theorem map_eq_of_map {α β γ : Type} {f : α → β} {g : α → γ} (hfg : ∀ a b, f a = f b → g a = g b)
    {l l' : List α} (h : l'.map f = l.map f) : l'.map g = l.map g := by
  induction l generalizing l' with
  | nil =>
    rw [List.map_eq_nil_iff.mp h]
  | cons a l ih =>
    cases l' with
    | nil => cases h
    | cons b l' =>
      rw [List.map_cons, List.map_cons, List.cons.injEq] at h
      rw [List.map_cons, List.map_cons, hfg b a h.1, ih h.2]

theorem map_set_of_eq {α β : Type} {f : α → β} {l : List α} {i : Nat} {a : α}
    (h : ∀ b, l[i]? = some b → f a = f b) :
    (l.set i a).map f = l.map f := by
  apply List.ext_getElem?
  intro j
  rw [List.getElem?_map, List.getElem?_map, List.getElem?_set]
  split_ifs with hij hlt
  · subst hij
    have hget := List.getElem?_eq_getElem hlt
    rw [hget, Option.map_some, Option.map_some, h _ hget]
  · subst hij
    rw [List.getElem?_eq_none (by omega)]
  · rfl

namespace Cell

variable {c d : Cell} {key : Key}

/-- A listed cell of a partition that was never loaded. -/
structure Sound (c : Cell) : Prop where
  length_keyBuf : c.keyBuf.length = keyBufLen
  keyLen : c.keyLen ≤ maxKeyLenBytes
  terminated : ∃ k, k < keyBufLen ∧ c.keyBuf.byteAt k = 0
  length_slot : c.slot.length = slotLen
  head : c.head ≠ none

theorem Sound.length_name (hc : c.Sound) : c.name.length = c.keyLen := by
  have hle := hc.keyLen
  rw [name, List.length_take, hc.length_keyBuf]
  simp only [maxKeyLenBytes, keyBufLen] at hle ⊢
  omega

theorem byteAt_name {i : Nat} (hi : i < c.keyLen) : c.name.byteAt i = c.keyBuf.byteAt i := by
  rw [name, byteAt, byteAt, List.getD_eq_getElem?_getD, List.getD_eq_getElem?_getD, List.getElem?_take_of_lt hi]

/-- A cell is found by its own name. -/
theorem Sound.names_self (hc : c.Sound) : (Key.new c.name).names c = true := by
  have hname := hc.length_name
  have hsame : CString.strncmpEq (Key.new c.name).byte c.keyBuf.byteAt 0 c.keyLen = true :=
    (CString.strncmpEq_congr_left fun i hi => byteAt_name hi).trans (CString.strncmpEq_self c.keyBuf.byteAt 0 c.keyLen)
  rw [Key.names, Bool.and_eq_true, decide_eq_true_iff]
  simp only [Key.new, hname, true_and]
  exact hsame

/-- The lookup tests the name only. -/
theorem names_congr (hlen : d.keyLen = c.keyLen) (hname : d.name = c.name) (key : Key) :
    key.names d = key.names c := by
  rw [Key.names, Key.names, hlen]
  by_cases h : c.keyLen = key.len
  · refine congrArg _ (CString.strncmpEq_congr fun i hi => ?_)
    rw [← byteAt_name (by omega), ← byteAt_name (by omega), hname]
  · rw [decide_eq_false h, Bool.false_and, Bool.false_and]

/-- A key stored over one it finds leaves the name: the bytes up to the NUL are the same, and the NUL lands on
one or behind the name. -/
theorem Sound.take_storeIn (hc : c.Sound) (h : key.names c = true) :
    (key.storeIn c.keyBuf).take c.keyLen = c.name := by
  have hle := hc.keyLen
  have hbuf := hc.length_keyBuf
  have hfit : maxKeyLenBytes = keyBufLen := rfl
  have hthirtyTwo : keyBufLen = 32 := rfl
  rw [Key.names, Bool.and_eq_true, decide_eq_true_iff] at h
  obtain ⟨hkeyLen, hsame⟩ := h
  have hread : ∀ i, i < key.len → (∀ k, k < i → key.byte k ≠ 0) → key.byte i = c.keyBuf.byteAt i := by
    simpa only [CString.strncmpEq_iff, Nat.zero_add] using hsame
  refine take_congr (by rw [key.length_storeIn hbuf]; omega) (by omega) fun i hi => ?_
  rw [Key.byteAt_storeIn hbuf]
  split_ifs with hlt heq
  · exact hread i (by omega) fun k hk => Key.byte_ne_zero (by omega)
  · by_cases hshort : key.strlen ≤ keyBufLen - 1
    · have hstrlen : i = key.strlen := by omega
      have hnul := hread i (by omega) fun k hk => Key.byte_ne_zero (by omega)
      rw [hstrlen, Key.byte_strlen, ← hstrlen] at hnul
      exact hnul
    · obtain ⟨k, hk, hzero⟩ := hc.terminated
      have hbyte := hread k (by omega) fun j hj => Key.byte_ne_zero (by omega)
      exact absurd (hbyte.trans hzero) (Key.byte_ne_zero (by omega))
  · rfl

end Cell

/-! ## What a call leaves of the cells -/

theorem exists_isHead_preferredHead (major arg : Nat) :
    ∃ n, Cbor.IsHead major n (Cbor.preferredHead major arg) := by
  by_cases h : arg < 2 ^ 64
  · exact ⟨arg, Cbor.isHead_preferredHead major h⟩
  · have hlong : Cbor.preferredHead major arg = Cbor.initial major (24 + 3) :: beBytes (2 ^ 3) arg := by
      rw [Cbor.preferredHead, if_neg (by omega), if_neg (by omega), if_neg (by omega), if_neg (by omega)]
      rfl
    -- Eight bytes keep the rest of a length that does not fit them.
    have hrest := beBytes_beNat (beBytes (2 ^ 3) arg)
    rw [length_beBytes] at hrest
    rw [hlong, ← hrest]
    refine ⟨_, .long 3 (Nat.le_refl 3) ?_⟩
    exact (beNat_lt _).trans_eq (by rw [length_beBytes])

theorem parse_preferredHead {major : Nat} (hm : major < 7) (arg : Nat) :
    Head.parse (Cbor.preferredHead major arg) ≠ none := by
  obtain ⟨n, hh⟩ := exists_isHead_preferredHead major arg
  obtain ⟨info, -, hparse⟩ := Head.parse_isHead hh hm []
  rw [List.append_nil] at hparse
  rw [hparse]
  exact Option.some_ne_none _

/-- A typed set leaves an item head in the slot, also where the value does not fit. -/
theorem parse_encode [Cbor2] [Cbor2.Minimal] (v : TypedValue) {slot : Bytes} (hslot : slot.length = slotLen) :
    Head.parse (v.encode slot).2 ≠ none := by
  by_cases hfit : v.item.encode.length ≤ slotLen
  · have hholds : (Cell.mk [] 0 v.type.toNat (v.encode slot).2).Holds v := holds_set hslot hfit
    exact hholds.head_ne_none
  · have hhead : v.headBytes.length ≤ slotLen := (length_headBytes_le v).trans (by decide)
    rw [v.encode_eq hslot, if_neg hfit]
    cases v with
    | uint v => exact absurd hhead hfit
    | int v => exact absurd hhead hfit
    | float bits => exact absurd hhead hfit
    | str v => exact parse_copyAt (parse_preferredHead (show 3 < 7 by decide) v.length)
    | bytes v => exact parse_copyAt (parse_preferredHead (show 2 < 7 by decide) v.length)

namespace ConfigPartition

variable {p q : ConfigPartition} {l : Layout} {key : Key} {idx : Nat}

/-- Any calls but loads. -/
def LoadFree (_ : ConfigPartition) : Op → Prop
  | .load _ => False
  | _ => True

/-- The invariant of a partition that was never loaded. -/
def Sound (p : ConfigPartition) : Prop := ∀ c ∈ p.listed, c.Sound

theorem Sound.set {c : Cell} (hp : p.Sound) (hlisted : q.listed = p.listed.set idx c)
    (hc : idx < p.numKeys → c.Sound) : q.Sound := by
  intro d hd
  by_cases hidx : idx < p.numKeys
  · rw [hlisted] at hd
    rcases List.mem_or_eq_of_mem_set hd with hd | rfl
    · exact hp d hd
    · exact hc hidx
  · rw [hlisted, List.set_eq_of_length_le (by rw [length_listed]; omega)] at hd
    exact hp d hd

theorem Sound.stores {c : Cell} (hp : p.Sound) (hn : p.numKeys ≤ maxNumKv) (hplace : p.place key = some idx)
    (hstores : Stores p q idx c) (hc : c.Sound) : q.Sound := by
  obtain ⟨hidx, hle⟩ := place_lt hn hplace
  have hlisted := hstores.listed hn hidx hle
  split_ifs at hlisted
  · exact hp.set hlisted fun _ => hc
  · intro d hd
    rw [hlisted, List.mem_append, List.mem_singleton] at hd
    rcases hd with hd | rfl
    · exact hp d hd
    · exact hc

theorem names_of_place (hplace : p.place key = some idx) (hlt : idx < p.numKeys) :
    key.names (p.cell idx) = true := by
  unfold place at hplace
  cases hfind : p.listed.findIdx? key.names with
  | some i =>
    rw [hfind] at hplace
    cases hplace
    obtain ⟨hi, hnames, -⟩ := List.findIdx?_eq_some_iff_getElem.mp hfind
    have hcell := List.getElem?_eq_getElem hi
    rw [getElem?_listed hlt] at hcell
    rw [Option.some_injective _ hcell]
    exact hnames
  | none =>
    rw [hfind] at hplace
    simp only [ite_eq_iff, reduceCtorEq, and_false, or_false, Option.some.injEq] at hplace
    omega

theorem sound_step [Cbor2] [Cbor2.Minimal] {op : Op} {ok : Bool} (hn : p.numKeys ≤ maxNumKv) (hp : p.Sound)
    (hop : LoadFree p op) (h : Outcome p op ok q) : q.Sound := by
  cases h with
  | @set key v ok q h =>
    cases h with
    | refused => exact hp
    | failed idx hlen hroom hplace hfail =>
      have hidx := (place_lt hn hplace).1
      have hslot := length_slot (p := p) hidx
      have hdata := length_encode v hslot
      refine hp.set (listed_failed hn key hidx hdata.le) fun hlt => ?_
      have hc := hp _ (mem_listed.mpr ⟨idx, hlt, rfl⟩)
      refine ⟨Key.length_storeIn _ hc.length_keyBuf, hc.keyLen, Key.terminated_storeIn _ hc.length_keyBuf,
        (length_copyAt _ _ _ (by omega)).trans hslot, parse_copyAt (parse_encode v hslot)⟩
    | stored idx q hlen hroom hplace hok hstores =>
      have hidx := (place_lt hn hplace).1
      have hslot := length_slot (p := p) hidx
      have hbuf := length_keyBuf (p := p) hidx
      exact hp.stores hn hplace hstores ⟨Key.length_storeIn _ hbuf, hlen, Key.terminated_storeIn _ hbuf,
        length_encode v hslot, parse_encode v hslot⟩
  | @setCbor key value ok q h =>
    cases h with
    | refused => exact hp
    | untyped hlen hroom hplace =>
      refine hp.set (listed_set hn (numKeys_withKeyBuf hroom) fun j hj => cell_withKeyBuf hroom hj) fun hlt => ?_
      exact absurd hlt (Nat.lt_irrefl _)
    | @stored idx q hlen hvalue head hhead ty hty hplace hstores =>
      have hidx := (place_lt hn hplace).1
      have hslot := length_slot (p := p) hidx
      have hbuf := length_keyBuf (p := p) hidx
      have hparse : Head.parse value ≠ none := by
        rw [hhead]
        exact Option.some_ne_none head
      have hlength := (length_copyAt (p.cell idx).slot 0 value (by omega)).trans hslot
      refine hp.stores hn hplace hstores ?_
      by_cases hlt : idx < p.numKeys
      · have hc := hp _ (mem_listed.mpr ⟨idx, hlt, rfl⟩)
        rw [if_pos hlt]
        exact ⟨hbuf, hlen, hc.terminated, hlength, parse_copyAt hparse⟩
      · rw [if_neg hlt]
        exact ⟨Key.length_storeIn _ hbuf, hlen, Key.terminated_storeIn _ hbuf, hlength, parse_copyAt hparse⟩
  | removeKey h =>
    cases h with
    | missing => exact hp
    | removed idx q hfind hremoves =>
      intro c hc
      rw [hremoves.listed] at hc
      exact hp c (List.mem_of_mem_eraseIdx hc)
  | clear hzero =>
    have hnil : q.listed = [] := by
      rw [listed, hzero]
      rfl
    simp [Sound, hnil]
  | sealImage h | markSaved h =>
    intro c hc
    rw [h.listed hn] at hc
    exact hp c hc
  | load => exact hop.elim

theorem reached_sound [Cbor2] [Cbor2.Minimal] {allowed : ConfigPartition → Op → Prop}
    (hallowed : ∀ p op, allowed p op → LoadFree p op) (h : Reached allowed l p) : p.Sound := by
  refine h.invariant ?_ fun p op _ _ hn hp hop houtcome => sound_step hn hp (hallowed p op hop) houtcome
  simp [Sound, listed, ConfigPartition.new]

/-- A listed cell is found by its own name. -/
theorem Sound.find_self (hp : p.Sound) (hn : p.numKeys ≤ maxNumKv) {c : Cell} (hc : c ∈ p.listed) :
    ∃ i, p.find (Key.new c.name) = some (some i) := by
  have hcell := hp c hc
  have hlen : (Key.new c.name).len ≤ keyBufLen := hcell.length_name.trans_le hcell.keyLen
  rw [find_listed hn hlen]
  cases hidx : p.listed.findIdx? (Key.new c.name).names with
  | none =>
    have hself := hcell.names_self
    exact absurd hself (by rw [List.findIdx?_eq_none_iff.mp hidx c hc]; exact Bool.false_ne_true)
  | some i => exact ⟨i, rfl⟩

theorem lookups_return (hn : p.numKeys ≤ maxNumKv) (key : Key) :
    p.find key ≠ none ∧ p.getUint key ≠ none ∧ p.getInt key ≠ none ∧ p.getFloat key ≠ none := by
  rw [ConfigPartition.find_eq hn, getUint_eq hn, getInt_eq hn, getFloat_eq hn]
  simp only [ne_eq, reduceCtorEq, not_false_eq_true, and_self]

theorem reads_return [Cbor2] [Cbor2.Minimal] (hn : p.numKeys ≤ maxNumKv) (key : Key) (u : Usize) (out : Bytes) :
    p.getString u key out ≠ none ∧ p.getBuffer u key out ≠ none ∧ p.getCbor key out ≠ none ∧
      p.valueSize u key ≠ none ∧ p.cborMap u out ≠ none ∧ p.cborMapCrc32 u ≠ none := by
  obtain ⟨found, -, -, hcalls, hcrc⟩ := cborMap_copies hn u
  obtain ⟨called, hcall, -⟩ := hcalls out
  rw [getString, getBuffer, getStrLike_eq hn, getStrLike_eq hn, getCbor_eq hn, valueSize_eq hn, hcall, hcrc]
  simp only [ne_eq, reduceCtorEq, not_false_eq_true, and_self]

/-! ## Refusals -/

/-- What a refused change of a key leaves. Only the text and the value of the cell the key goes to may have been
written, and the text so that no name changes. -/
structure Confined (p q : ConfigPartition) (key : Key) : Prop where
  layout : q.layout = p.layout
  numKeys : q.numKeys = p.numKeys
  needsCommit : q.needsCommit = p.needsCommit
  listed : q.listed.map (fun c => (c.name, c.keyLen, c.valueType)) =
    p.listed.map fun c => (c.name, c.keyLen, c.valueType)
  field : ∀ f : Field, f.Valid → (∀ idx, p.place key = some idx → f ≠ .keyBuf idx ∧ f ≠ .slot idx) →
    q.field f = p.field f

theorem Confined.refl (p : ConfigPartition) (key : Key) : Confined p p key :=
  ⟨rfl, rfl, rfl, rfl, fun _ _ _ => rfl⟩

theorem Confined.cell_eq (h : Confined p q key) {i : Nat} (hi : i < maxNumKv) (hne : p.place key ≠ some i) :
    q.cell i = p.cell i := by
  have hidx : ∀ idx, p.place key = some idx → i ≠ idx := by
    rintro idx hplace rfl
    exact hne hplace
  apply cell_of_fields
  · exact h.field (.keyBuf i) hi fun idx hplace => by simp [hidx idx hplace]
  · exact h.field (.keyLen i) hi fun idx hplace => by simp
  · exact h.field (.valueType i) hi fun idx hplace => by simp
  · exact h.field (.slot i) hi fun idx hplace => by simp [hidx idx hplace]

theorem Confined.findIdx?_eq (h : Confined p q key) (k : Key) :
    q.listed.findIdx? k.names = p.listed.findIdx? k.names := by
  have hmap : q.listed.map k.names = p.listed.map k.names := by
    refine map_eq_of_map (fun a b hab => ?_) h.listed
    obtain ⟨hname, hlen⟩ := Prod.mk.inj hab
    exact Cell.names_congr (Prod.mk.inj hlen).1 hname k
  have hid : ∀ l : List Cell, l.findIdx? k.names = (l.map k.names).findIdx? id := fun l => by
    rw [List.findIdx?_map, Function.id_comp]
  rw [hid, hid, hmap]

theorem lt_of_find (hn : p.numKeys ≤ maxNumKv) {k : Key} {i : Nat} (h : p.find k = some (some i)) :
    i < p.numKeys := by
  rw [ConfigPartition.find_eq hn, Option.some_inj] at h
  exact List.mem_range.mp (List.mem_of_find?_eq_some h)

/-- A key too long for a key buffer is not found. -/
theorem Sound.find_long (hp : p.Sound) (hn : p.numKeys ≤ maxNumKv) {k : Key} (hlen : maxKeyLenBytes < k.len) :
    p.find k = some none := by
  rw [find_eq hn, List.find?_eq_none.mpr]
  intro i hi
  have hle := (hp _ (mem_listed.mpr ⟨i, List.mem_range.mp hi, rfl⟩)).keyLen
  rw [stopsAt, decide_eq_false (by omega), Bool.false_and]
  exact Bool.false_ne_true

/-- A key goes where it is found, and to the first cell that is not in use where it is not. -/
theorem Sound.find_of_place (hp : p.Sound) (hn : p.numKeys ≤ maxNumKv) (hplace : p.place key = some idx) :
    p.find key = some (some idx) ∨ p.find key = some none ∧ idx = p.numKeys := by
  unfold place at hplace
  cases hidx : p.listed.findIdx? key.names with
  | some i =>
    rw [hidx] at hplace
    cases hplace
    left
    obtain ⟨hlt, hnames, -⟩ := List.findIdx?_eq_some_iff_getElem.mp hidx
    have hle := (hp _ (List.getElem_mem hlt)).keyLen
    rw [Key.names, Bool.and_eq_true, decide_eq_true_iff] at hnames
    have hfit : key.len ≤ keyBufLen := hnames.1 ▸ hle
    rw [find_listed hn hfit, hidx]
  | none =>
    rw [hidx] at hplace
    simp only [ite_eq_iff, reduceCtorEq, and_false, or_false, Option.some.injEq] at hplace
    refine .inr ⟨?_, hplace.2.symm⟩
    by_cases hlen : maxKeyLenBytes < key.len
    · exact hp.find_long hn hlen
    · rw [find_listed hn (Nat.not_lt.mp hlen), hidx]

/-- No lookup goes another way. -/
theorem Confined.find_eq (h : Confined p q key) (hp : p.Sound) (hq : q.Sound) (hn : p.numKeys ≤ maxNumKv)
    (k : Key) : q.find k = p.find k := by
  have hnq : q.numKeys ≤ maxNumKv := by rw [h.numKeys]; exact hn
  by_cases hlen : maxKeyLenBytes < k.len
  · rw [hp.find_long hn hlen, hq.find_long hnq hlen]
  · have hfit : k.len ≤ keyBufLen := Nat.not_lt.mp hlen
    rw [find_listed hn hfit, find_listed hnq hfit, h.findIdx?_eq]

/-- Every key that is not found where the refused one goes reads as before. -/
theorem Confined.reads (h : Confined p q key) (hn : p.numKeys ≤ maxNumKv) {k : Key}
    (hother : ∀ i, p.find k = some (some i) → p.place key ≠ some i) : SameReadings q p k := by
  have hnq : q.numKeys ≤ maxNumKv := by rw [h.numKeys]; exact hn
  refine SameReadings.of_entry hnq hn ?_
  unfold entry
  split_ifs with hlen
  · rfl
  · rw [List.find?_eq_bind_findIdx?_getElem?, List.find?_eq_bind_findIdx?_getElem?, h.findIdx?_eq]
    cases hidx : p.listed.findIdx? k.names with
    | none => rfl
    | some i =>
      have hlt := (List.findIdx?_eq_some_iff_getElem.mp hidx).1
      rw [length_listed] at hlt
      have hfit : k.len ≤ keyBufLen := Nat.not_lt.mp hlen
      have hfind := find_listed hn hfit
      rw [hidx] at hfind
      rw [Option.bind_some, Option.bind_some, getElem?_listed hlt, getElem?_listed (by rw [h.numKeys]; exact hlt),
        h.cell_eq (by omega) (hother i hfind)]

/-- A set that failed at the value has written the cell's text and value. -/
theorem Sound.failed (hp : p.Sound) (hn : p.numKeys ≤ maxNumKv) (hplace : p.place key = some idx) {data : Bytes}
    (hdata : data.length ≤ slotLen) : Confined p ((p.withKeyBuf idx key).withSlot idx data) key := by
  have hidx := (place_lt hn hplace).1
  have hnum : ((p.withKeyBuf idx key).withSlot idx data).numKeys = p.numKeys :=
    (numKeys_withSlot hidx hdata).trans (numKeys_withKeyBuf hidx)
  refine ⟨by simp, hnum, by simp, ?_, fun f hf hne => ?_⟩
  · rw [listed_failed hn key hidx hdata]
    refine map_set_of_eq fun c hc => ?_
    have hlt : idx < p.numKeys := by
      rw [← length_listed]
      exact (List.getElem?_eq_some_iff.mp hc).1
    rw [getElem?_listed hlt] at hc
    cases hc
    have hname := (hp _ (mem_listed.mpr ⟨idx, hlt, rfl⟩)).take_storeIn (names_of_place hplace hlt)
    exact congrArg (fun name => (name, (p.cell idx).keyLen, (p.cell idx).valueType)) hname
  · obtain ⟨hbuf, hslot⟩ := hne idx hplace
    exact (field_withSlot_of_ne hidx hf hslot.symm hdata).trans (field_withKeyBuf_of_ne hidx hf hbuf.symm)

end ConfigPartition

/-- The key that a call changes. -/
def Op.key : Op → Option Key
  | .set key _ | .setCbor key _ | .removeKey key => some key
  | .clear | .sealImage | .markSaved | .load _ => none

namespace ConfigPartition

variable {p q : ConfigPartition} {key : Key}

theorem confined_step [Cbor2] [Cbor2.Minimal] {op : Op} (hn : p.numKeys ≤ maxNumKv) (hp : p.Sound)
    (hkey : op.key = some key) (h : Outcome p op false q) : Confined p q key := by
  cases h with
  | set h =>
    cases hkey
    cases h with
    | refused => exact .refl p _
    | failed idx hlen hroom hplace hfail =>
      exact hp.failed hn hplace (length_encode _ (length_slot (place_lt hn hplace).1)).le
  | setCbor h =>
    cases hkey
    cases h with
    | refused => exact .refl p _
    | untyped hlen hroom hplace hhead hty =>
      have hnum : (p.withKeyBuf p.numKeys key).numKeys = p.numKeys := numKeys_withKeyBuf hroom
      refine ⟨by simp, hnum, by simp, ?_, fun f hf hne => ?_⟩
      · rw [listed_set hn hnum fun j hj => cell_withKeyBuf hroom hj,
          List.set_eq_of_length_le (by rw [length_listed])]
      · exact field_withKeyBuf_of_ne hroom hf (hne _ hplace).1.symm
  | removeKey h =>
    cases hkey
    cases h with
    | missing => exact .refl p _
  | load => cases hkey

end ConfigPartition

/-- In any run a partition counts at most fifty keys and no call fails to return. Without loads, every listed key
fits its buffer and is found by its name, and its slot starts with an item head. -/
theorem partition_invariant [Cbor2] [Cbor2.Minimal] {l : Layout} {p : ConfigPartition}
    (hp : Reached (fun _ _ => True) l p) :
    (p.numKeys ≤ maxNumKv ∧ p.layout = l ∧ (∀ op : Op, ∃ ok q, op.run p = some (ok, q)) ∧
      (∀ key, p.find key ≠ none ∧ p.getUint key ≠ none ∧ p.getInt key ≠ none ∧ p.getFloat key ≠ none) ∧
      (∀ key u out, p.getString u key out ≠ none ∧ p.getBuffer u key out ≠ none ∧ p.getCbor key out ≠ none ∧
        p.valueSize u key ≠ none ∧ p.cborMap u out ≠ none ∧ p.cborMapCrc32 u ≠ none)) ∧
    (Reached ConfigPartition.LoadFree l p → ∀ c ∈ p.listed, c.keyLen ≤ maxKeyLenBytes ∧ c.head ≠ none ∧
      ∃ i, p.find (Key.new c.name) = some (some i)) := by
  obtain ⟨hn, hlayout⟩ := hp.bounded
  refine ⟨⟨hn, hlayout, fun op => ?_, ConfigPartition.lookups_return hn, ConfigPartition.reads_return hn⟩,
    fun hfree c hc => ?_⟩
  · obtain ⟨ok, q, hrun, -⟩ := ConfigPartition.run_cases hn op
    exact ⟨ok, q, hrun⟩
  · have hsound := ConfigPartition.reached_sound (fun _ _ h => h) hfree
    have hcell := hsound c hc
    exact ⟨hcell.keyLen, hcell.head, hsound.find_self hn hc⟩

/-- A partition of one number. -/
theorem partition_invariant_first : ∃ q,
    @Op.run Cbor2.shortest (.new .lp64) (.set (Key.new [0x61, 0x62]) (.uint 7)) = some (true, q) ∧
      q.numKeys ≤ maxNumKv ∧ ∀ c ∈ q.listed, c.keyLen ≤ maxKeyLenBytes ∧ c.head ≠ none ∧
        ∃ i, q.find (Key.new c.name) = some (some i) := by
  have hset : (@Op.run Cbor2.shortest (.new .lp64) (.set (Key.new [0x61, 0x62]) (.uint 7))).map Prod.fst
      = some true := by decide +kernel
  obtain ⟨⟨ok, q⟩, hq, hok⟩ := Option.map_eq_some_iff.mp hset
  cases hok
  have hfree : ConfigPartition.LoadFree (.new .lp64) (.set (Key.new [0x61, 0x62]) (.uint 7)) := trivial
  obtain ⟨⟨hn, -⟩, hlisted⟩ := @partition_invariant Cbor2.shortest Cbor2.shortest_minimal .lp64 q
    (@Reached.step Cbor2.shortest _ _ _ _ _ _ (@Reached.new Cbor2.shortest _ _) trivial hq)
  exact ⟨q, hq, hn, hlisted (@Reached.step Cbor2.shortest _ _ _ _ _ _ (@Reached.new Cbor2.shortest _ _) hfree hq)⟩

/-- A refused set or removal, in a partition that was never loaded, is confined to the cell its key goes to: the
count, the names, the lengths and the types stay, every lookup goes its way, and every other key reads as it did. -/
theorem refused_changes_confined [Cbor2] [Cbor2.Minimal] {l : Layout} {p q : ConfigPartition}
    (hp : Reached ConfigPartition.LoadFree l p) {op : Op} {key : Key} (hkey : op.key = some key)
    (hrun : op.run p = some (false, q)) :
    ConfigPartition.Confined p q key ∧ (∀ k, q.find k = p.find k) ∧
      ∀ k, (∀ i, p.find k = some (some i) → p.place key ≠ some i) → ConfigPartition.SameReadings q p k := by
  have hn := hp.bounded.1
  have hsound := ConfigPartition.reached_sound (fun _ _ h => h) hp
  obtain ⟨ok, q', hrun', houtcome⟩ := ConfigPartition.run_cases hn op
  cases hrun.symm.trans hrun'
  have hfree : ConfigPartition.LoadFree p op := by
    cases op with
    | load => cases hkey
    | _ => trivial
  have hconfined := ConfigPartition.confined_step hn hsound hkey houtcome
  exact ⟨hconfined, hconfined.find_eq hsound (ConfigPartition.sound_step hn hsound hfree houtcome) hn,
    fun k hother => hconfined.reads hn hother⟩

/-- A string too long for its slot leaves its head in a cell that is not listed. -/
theorem refused_changes_confined_long : ∃ q,
    @Op.run Cbor2.shortest (.new .lp64) (.set (Key.new [0x61, 0x62]) (.str (List.replicate 60 0x63))) =
        some (false, q) ∧
      (q.cell 0).head ≠ none ∧ ConfigPartition.Confined (.new .lp64) q (Key.new [0x61, 0x62]) := by
  have hset : (@Op.run Cbor2.shortest (.new .lp64)
      (.set (Key.new [0x61, 0x62]) (.str (List.replicate 60 0x63)))).map
        (fun r => (r.1, (r.2.cell 0).head.map Head.arg)) = some (false, some 60) := by decide +kernel
  obtain ⟨⟨ok, q⟩, hq, heq⟩ := Option.map_eq_some_iff.mp hset
  obtain ⟨hok, hhead⟩ := Prod.mk.inj heq
  dsimp only at hok hhead
  rw [hok] at hq
  refine ⟨q, hq, fun hnone => ?_, (@refused_changes_confined Cbor2.shortest Cbor2.shortest_minimal .lp64 _ _
    (@Reached.new Cbor2.shortest _ _) _ _ rfl hq).1⟩
  rw [hnone] at hhead
  cases hhead

/-- What a refused set or removal spares: the count, the flag, the names, the lengths and the types, every value but
that of the named key or of a cell that is not listed, and the readings of every other key. -/
theorem refused_changes_spare_others [Cbor2] [Cbor2.Minimal] {l : Layout} {p q : ConfigPartition}
    (hp : Reached ConfigPartition.LoadFree l p) {op : Op} {key : Key} (hkey : op.key = some key)
    (hrun : op.run p = some (false, q)) :
    q.numKeys = p.numKeys ∧ q.needsCommit = p.needsCommit ∧
      q.listed.map (fun c => (c.name, c.keyLen, c.valueType)) =
        p.listed.map (fun c => (c.name, c.keyLen, c.valueType)) ∧
      (∀ i, i < maxNumKv → q.slot i ≠ p.slot i → p.find key = some (some i) ∨ p.numKeys ≤ i) ∧
      ∀ k, (∀ i, p.find k = some (some i) → p.find key ≠ some (some i)) → ConfigPartition.SameReadings q p k := by
  have hn := hp.bounded.1
  have hsound := ConfigPartition.reached_sound (fun _ _ h => h) hp
  obtain ⟨ok, q', hrun', houtcome⟩ := ConfigPartition.run_cases hn op
  cases hrun.symm.trans hrun'
  have hconfined := ConfigPartition.confined_step hn hsound hkey houtcome
  refine ⟨hconfined.numKeys, hconfined.needsCommit, hconfined.listed, fun i hi hslot => ?_, fun k hother => ?_⟩
  · by_cases hplace : p.place key = some i
    · rcases hsound.find_of_place hn hplace with hfound | ⟨-, rfl⟩
      · exact .inl hfound
      · exact .inr (Nat.le_refl p.numKeys)
    · rw [ConfigPartition.slot_eq hi, ConfigPartition.slot_eq hi, hconfined.cell_eq hi hplace] at hslot
      exact absurd rfl hslot
  · refine hconfined.reads hn fun i hfind hplace => ?_
    rcases hsound.find_of_place hn hplace with hfound | ⟨-, hidx⟩
    · exact hother i hfind hfound
    · have hlt := ConfigPartition.lt_of_find hn hfind
      omega

/-- A text too long for its slot replaces a number's head, and the other key reads as it did. -/
theorem refused_changes_spare_others_twoKeys : ∃ q,
    @Op.run Cbor2.shortest twoKeys (.set (Key.new [0x61]) (.str (List.replicate 60 0x63))) = some (false, q) ∧
      (q.cell 0).head.map Head.arg = some 60 ∧ q.numKeys = twoKeys.numKeys ∧
      ConfigPartition.SameReadings q twoKeys (Key.new [0x62]) := by
  have hset : (@Op.run Cbor2.shortest twoKeys (.set (Key.new [0x61]) (.str (List.replicate 60 0x63)))).map
      (fun r => (r.1, (r.2.cell 0).head.map Head.arg)) = some (false, some 60) := by decide +kernel
  obtain ⟨⟨ok, q⟩, hq, heq⟩ := Option.map_eq_some_iff.mp hset
  obtain ⟨hok, hhead⟩ := Prod.mk.inj heq
  dsimp only at hok hhead
  rw [hok] at hq
  obtain ⟨hcount, -, -, -, hreads⟩ := @refused_changes_spare_others Cbor2.shortest Cbor2.shortest_minimal .lp64 _ _
    (reached_twoKeys fun _ => ⟨trivial, trivial⟩) _ _ rfl hq
  refine ⟨q, hq, hhead, hcount, hreads _ fun i hfind hother => ?_⟩
  have hkeys : twoKeys.find (Key.new [0x62]) = some (some 1) ∧ twoKeys.find (Key.new [0x61]) = some (some 0) := by
    decide +kernel
  rw [hkeys.1] at hfind
  rw [hkeys.2, ← hfind] at hother
  cases hother

end Bristlemouth.Config
