import Bristlemouth.Config.Cells
import Bristlemouth.Lib.KeyedList

/-!
# What a change can do

Every set, accepted or refused, is one of the cases of `SetTyped` or `SetCbor`, and every removal one
of `Removal`. None of them fails while the partition counts at most fifty keys. An accepted set
changes one cell (`Stores`), a removal closes the gap in the list of cells.
-/

set_option autoImplicit false

namespace Bristlemouth.Config

open Bytes

namespace ConfigPartition

variable {p q : ConfigPartition} {key : Key} {ty : ValueType} {idx : Nat}
  {encode : Bytes → Bool × Bytes}

/-- The cell a set of `key` goes to: the one the lookup finds, or the first one not in use. -/
def place (p : ConfigPartition) (key : Key) : Option Nat :=
  match p.listed.findIdx? key.names with
  | some idx => some idx
  | none => if key.isValid ∧ p.numKeys < maxNumKv then some p.numKeys else none

theorem place_lt (hn : p.numKeys ≤ maxNumKv) (h : p.place key = some idx) :
    idx < maxNumKv ∧ idx ≤ p.numKeys := by
  unfold place at h
  cases hfind : p.listed.findIdx? key.names with
  | some i =>
    rw [hfind] at h
    cases h
    have hlt := (List.findIdx?_eq_some_iff_getElem.mp hfind).1
    rw [length_listed] at hlt
    omega
  | none =>
    rw [hfind] at h
    simp only [ite_eq_iff, reduceCtorEq, and_false, or_false, Option.some.injEq] at h
    omega

/-- One cell is written, and listed if it was not. -/
structure Stores (p q : ConfigPartition) (idx : Nat) (c : Cell) : Prop where
  layout : q.layout = p.layout
  numKeys : q.numKeys = if idx < p.numKeys then p.numKeys else p.numKeys + 1
  needsCommit : q.needsCommit = true
  cell : ∀ j, j < maxNumKv → q.cell j = if j = idx then c else p.cell j

inductive SetTyped (p : ConfigPartition) (key : Key) (ty : ValueType)
    (encode : Bytes → Bool × Bytes) : Bool → ConfigPartition → Prop
  | refused (h : maxKeyLenBytes < key.len ∨ maxNumKv ≤ p.numKeys ∨ p.place key = none) :
      SetTyped p key ty encode false p
  | failed (idx : Nat) (hlen : key.len ≤ maxKeyLenBytes) (hroom : p.numKeys < maxNumKv)
      (hplace : p.place key = some idx) (hfail : (encode (p.cell idx).slot).1 = false) :
      SetTyped p key ty encode false
        ((p.withKeyBuf idx key).withSlot idx (encode (p.cell idx).slot).2)
  | stored (idx : Nat) (q : ConfigPartition) (hlen : key.len ≤ maxKeyLenBytes)
      (hroom : p.numKeys < maxNumKv) (hplace : p.place key = some idx)
      (hok : (encode (p.cell idx).slot).1 = true)
      (hstores : Stores p q idx ⟨key.storeIn (p.cell idx).keyBuf, key.len, ty.toNat,
        (encode (p.cell idx).slot).2⟩) :
      SetTyped p key ty encode true q

theorem Stores.of_writes {c : Cell} {r : ConfigPartition}
    (hlayout : r.layout = p.layout) (hnum : r.numKeys = p.numKeys) (hroom : p.numKeys < 255)
    (hcell : ∀ j, j < maxNumKv → r.cell j = if j = idx then c else p.cell j) :
    Stores p (if idx < p.numKeys then r else r.withNumKeys (p.numKeys + 1)).withCommit idx c := by
  split_ifs with hlt
  · exact ⟨hlayout, by rw [numKeys_withCommit, hnum, if_pos hlt], rfl, hcell⟩
  · refine ⟨by simp [hlayout], ?_, rfl, fun j hj => ?_⟩
    · rw [numKeys_withCommit, numKeys_withNumKeys (by omega), if_neg hlt]
    · rw [cell_withCommit, cell_withNumKeys hj, hcell j hj]

theorem setTypedAt_cases (hn : p.numKeys < maxNumKv) (hlen : key.len ≤ maxKeyLenBytes)
    (hplace : p.place key = some idx) (hidx : idx < maxNumKv) {found : Bool}
    (hfound : found = decide (idx < p.numKeys))
    (hslot : (encode (p.cell idx).slot).2.length = slotLen) :
    ∃ ok r, p.setTypedAt idx found key ty encode = some (ok, r) ∧
      SetTyped p key ty encode ok r := by
  have hkeyBuf : (p.withKeyBuf idx key).cell idx
      = { p.cell idx with keyBuf := key.storeIn (p.cell idx).keyBuf } :=
    (cell_withKeyBuf hidx hidx).trans (if_pos rfl)
  have hread : (p.withKeyBuf idx key).image.slice? (p.layout.valueOffset idx) slotLen
      = some (p.cell idx).slot := by
    have hslot := slot_eq (p := p.withKeyBuf idx key) hidx
    rwa [slot, layout_withKeyBuf, hkeyBuf] at hslot
  have hwrite : (p.withKeyBuf idx key).write? (p.layout.valueOffset idx)
      (encode (p.cell idx).slot).2
        = some ((p.withKeyBuf idx key).withSlot idx (encode (p.cell idx).slot).2) := by
    rw [← layout_withKeyBuf (p := p)]
    exact writeSlot_eq hidx (by omega)
  simp only [setTypedAt, writeKeyBuf_eq hidx, Option.bind_eq_bind, Option.bind_some,
    layout_withKeyBuf, hread, hwrite]
  cases hok : (encode (p.cell idx).slot).1 with
  | false =>
    exact ⟨false, _, rfl, .failed idx hlen hn hplace hok⟩
  | true =>
    have hmax : maxNumKv = 50 := rfl
    have hkey : maxKeyLenBytes = 32 := rfl
    let r := ((p.withKeyBuf idx key).withSlot idx (encode (p.cell idx).slot).2).withMeta idx key.len ty
    have hr : r.numKeys = p.numKeys := by
      rw [numKeys_withMeta hidx, numKeys_withSlot hidx (by omega), numKeys_withKeyBuf hidx]
    have hcell : ∀ j, j < maxNumKv → r.cell j = if j = idx then
        ⟨key.storeIn (p.cell idx).keyBuf, key.len, ty.toNat, (encode (p.cell idx).slot).2⟩
        else p.cell j := fun j hj => by
      rw [cell_withMeta hidx hj (by omega), cell_withSlot hidx hj (by omega),
        cell_withSlot hidx hidx (by omega), cell_withKeyBuf hidx hj, hkeyBuf, if_pos rfl]
      split_ifs with hji
      · rw [copyAt_zero_of_length (by rw [hslot, length_slot hidx])]
      · rfl
    have hstores := Stores.of_writes (p := p) (r := r) (by simp [r]) hr (by omega) hcell
    refine ⟨true, _, ?_, .stored idx _ hlen hn hplace hok hstores⟩
    simp only [if_true, writeKeyMeta_eq hidx, Option.bind_some, hfound]
    by_cases hlt : idx < p.numKeys
    · simp [hlt, r, withCommit]
    · have hinc := incNumKeys_eq (p := r) (by omega)
      rw [hr] at hinc
      simp only [r] at hinc
      simp [hlt, hinc, r, withCommit]

/-- Every typed set. -/
theorem setTyped_cases (hn : p.numKeys ≤ maxNumKv)
    (hencode : ∀ s : Bytes, s.length = slotLen → (encode s).2.length = slotLen) :
    ∃ ok r, p.setTyped key ty encode = some (ok, r) ∧ SetTyped p key ty encode ok r := by
  unfold setTyped
  by_cases hlen : maxKeyLenBytes < key.len
  · exact ⟨false, p, if_pos hlen, .refused (.inl hlen)⟩
  by_cases hroom : maxNumKv ≤ p.numKeys
  · exact ⟨false, p, by rw [if_neg hlen, if_pos hroom], .refused (.inr (.inl hroom))⟩
  · rw [if_neg hlen, if_neg hroom, find_listed hn (by simp only [keyBufLen]; omega)]
    have hat : ∀ i found, p.place key = some i → found = decide (i < p.numKeys) →
        ∃ ok r, p.setTypedAt i found key ty encode = some (ok, r) ∧
          SetTyped p key ty encode ok r := fun i found hplace hfound =>
      have hi := (place_lt hn hplace).1
      setTypedAt_cases (by omega) (by omega) hplace hi hfound (hencode _ (length_slot hi))
    cases hidx : p.listed.findIdx? key.names with
    | some idx =>
      have hlt := (List.findIdx?_eq_some_iff_getElem.mp hidx).1
      rw [length_listed] at hlt
      exact hat idx true (by rw [place, hidx]) (by simp [hlt])
    | none =>
      cases hvalid : key.isValid with
      | true =>
        have hplace : p.place key = some p.numKeys := by
          rw [place, hidx]
          exact if_pos ⟨hvalid, by omega⟩
        simpa [hvalid] using hat p.numKeys false hplace (by simp)
      | false =>
        have hplace : p.place key = none := by
          rw [place, hidx]
          exact if_neg (by simp [hvalid])
        exact ⟨false, p, by simp, .refused (.inr (.inr hplace))⟩

inductive SetCbor (p : ConfigPartition) (key : Key) (value : Bytes) :
    Bool → ConfigPartition → Prop
  | refused : SetCbor p key value false p
  | untyped (hlen : key.len ≤ maxKeyLenBytes) (hroom : p.numKeys < maxNumKv)
      (hplace : p.place key = some p.numKeys) {head : Head} (hhead : Head.parse value = some head)
      (hty : head.configType = none) : SetCbor p key value false (p.withKeyBuf p.numKeys key)
  | stored (idx : Nat) (q : ConfigPartition) (hlen : key.len ≤ maxKeyLenBytes)
      (hvalue : value.length ≤ slotLen) {head : Head} (hhead : Head.parse value = some head)
      {ty : ValueType} (hty : head.configType = some ty) (hplace : p.place key = some idx)
      (hstores : Stores p q idx
        ⟨if idx < p.numKeys then (p.cell idx).keyBuf else key.storeIn (p.cell idx).keyBuf,
          key.len, ty.toNat, (p.cell idx).slot.copyAt 0 value⟩) : SetCbor p key value true q

/-- The tail of `set_cbor`, on the partition with the text of a new key written. -/
theorem setCborAt_eq {value : Bytes} {head : Head} {r : ConfigPartition} (hidx : idx < maxNumKv)
    (hnum : r.numKeys = p.numKeys) (hle : idx ≤ p.numKeys) (hty : head.configType = some ty)
    (hvalue : value.length ≤ slotLen) :
    r.setCborAt idx p.numKeys key head value = some (true,
      (if idx < p.numKeys then (r.withMeta idx key.len ty).withSlot idx value
        else ((r.withMeta idx key.len ty).withSlot idx value).withNumKeys (p.numKeys + 1)).withCommit) := by
  have hwrite := writeSlot_eq (p := r.withMeta idx key.len ty) hidx hvalue
  simp only [setCborAt, hty, writeKeyMeta_eq hidx, Option.bind_eq_bind, Option.bind_some, hwrite]
  by_cases hlt : idx < p.numKeys
  · simp [hlt, show idx ≠ p.numKeys by omega, withCommit]
  · have heq : idx = p.numKeys := by omega
    have hcount : ((r.withMeta idx key.len ty).withSlot idx value).numKeys = p.numKeys := by
      rw [numKeys_withSlot hidx hvalue, numKeys_withMeta hidx, hnum]
    have hinc := incNumKeys_eq (p := (r.withMeta idx key.len ty).withSlot idx value) (by omega)
    rw [hcount] at hinc
    rw [if_pos heq, hinc, if_neg hlt]
    rfl

theorem setCborAt_cases {value : Bytes} {head : Head} {r : ConfigPartition}
    (hlen : key.len ≤ maxKeyLenBytes) (hvalue : value.length ≤ slotLen)
    (hhead : Head.parse value = some head) (hplace : p.place key = some idx)
    (hn : p.numKeys ≤ maxNumKv)
    (hr : r = if idx < p.numKeys then p else p.withKeyBuf idx key) :
    ∃ ok q, r.setCborAt idx p.numKeys key head value = some (ok, q) ∧
      SetCbor p key value ok q := by
  obtain ⟨hidx, hle⟩ := place_lt hn hplace
  have hmax : maxNumKv = 50 := rfl
  have hkey : maxKeyLenBytes = 32 := rfl
  have hnum : r.numKeys = p.numKeys := by
    rw [hr]
    split_ifs
    · rfl
    · exact numKeys_withKeyBuf hidx
  cases hty : head.configType with
  | none =>
    refine ⟨false, r, by rw [setCborAt, hty], ?_⟩
    rw [hr]
    split_ifs with hlt
    · exact .refused
    · have heq : idx = p.numKeys := by omega
      subst heq
      exact .untyped hlen (by omega) hplace hhead hty
  | some ty =>
    let s := (r.withMeta idx key.len ty).withSlot idx value
    have hs : s.numKeys = p.numKeys := by
      rw [numKeys_withSlot hidx hvalue, numKeys_withMeta hidx, hnum]
    have hcell : ∀ j, j < maxNumKv → s.cell j = if j = idx then
        ⟨if idx < p.numKeys then (p.cell idx).keyBuf else key.storeIn (p.cell idx).keyBuf,
          key.len, ty.toNat, (p.cell idx).slot.copyAt 0 value⟩ else p.cell j := fun j hj => by
      rw [cell_withSlot hidx hj hvalue, cell_withMeta hidx hj (by omega),
        cell_withMeta hidx hidx (by omega), if_pos rfl, hr]
      by_cases hlt : idx < p.numKeys
      · simp only [if_pos hlt]
        split_ifs <;> rfl
      · simp only [if_neg hlt, cell_withKeyBuf hidx hj, cell_withKeyBuf hidx hidx, if_true]
        split_ifs <;> rfl
    have hlayout : s.layout = p.layout := by
      simp only [s, layout_withSlot, layout_withMeta, hr]
      split_ifs <;> simp
    have hstores := Stores.of_writes (p := p) (r := s) hlayout hs (by omega) hcell
    exact ⟨true, _, setCborAt_eq hidx hnum hle hty hvalue,
      .stored idx _ hlen hvalue hhead hty hplace hstores⟩

/-- Every raw set. -/
theorem setCbor_cases (hn : p.numKeys ≤ maxNumKv) (key : Key) (value : Bytes) :
    ∃ ok q, p.setCbor key value = some (ok, q) ∧ SetCbor p key value ok q := by
  unfold setCbor
  by_cases hlen : maxKeyLenBytes < key.len
  · exact ⟨false, p, if_pos hlen, .refused⟩
  by_cases hvalue : slotLen < value.length ∨ value = []
  · exact ⟨false, p, by rw [if_neg hlen, if_pos hvalue], .refused⟩
  rw [if_neg hlen, if_neg hvalue]
  cases hhead : Head.parse value with
  | none => exact ⟨false, p, rfl, .refused⟩
  | some head =>
    have hat : ∀ i r, p.place key = some i → r = (if i < p.numKeys then p else p.withKeyBuf i key) →
        ∃ ok q, r.setCborAt i p.numKeys key head value = some (ok, q) ∧ SetCbor p key value ok q :=
      fun i r hplace hr => setCborAt_cases (by omega) (by omega) hhead hplace hn hr
    rw [find_listed hn (by simp only [keyBufLen]; omega)]
    cases hidx : p.listed.findIdx? key.names with
    | some idx =>
      have hlt := (List.findIdx?_eq_some_iff_getElem.mp hidx).1
      rw [length_listed] at hlt
      exact hat idx p (by rw [place, hidx]) (by rw [if_pos hlt])
    | none =>
      by_cases hnew : key.isValid = false ∨ maxNumKv ≤ p.numKeys
      · exact ⟨false, p, by simp [hnew], .refused⟩
      · have hplace : p.place key = some p.numKeys := by
          rw [place, hidx]
          exact if_pos ⟨by simpa using fun h => hnew (.inl h), by omega⟩
        have hbuf : p.writeKeyBuf p.numKeys key = some (p.withKeyBuf p.numKeys key) :=
          writeKeyBuf_eq (by omega)
        simpa [hnew, hbuf] using
          hat p.numKeys (p.withKeyBuf p.numKeys key) hplace (by simp)

/-! ## Removing a key -/

theorem copyWithin?_eq {src len dst : Nat} (hsrc : src + len ≤ maxImageLen)
    (hdst : dst + len ≤ maxImageLen) :
    p.copyWithin? src len dst = some (p.put dst (p.image.slice src len)) := by
  have hlen : (p.image.slice src len).length = len :=
    length_slice (hsrc.trans_eq p.length_image.symm)
  rw [copyWithin?, slice?_of_le (hsrc.trans_eq p.length_image.symm)]
  exact write?_eq (by rw [hlen]; exact hdst)

/-- The key records after `idx` move down by one. -/
def shiftKeys (p : ConfigPartition) (idx : Nat) : ConfigPartition :=
  p.put (p.layout.keyOffset idx)
    (p.image.slice (p.layout.keyOffset (idx + 1)) ((p.numKeys - 1 - idx) * p.layout.keySize))

/-- The value slots after `idx` move down by one. -/
def shiftSlots (p : ConfigPartition) (idx n : Nat) : ConfigPartition :=
  p.put (p.layout.valueOffset idx)
    (p.image.slice (p.layout.valueOffset (idx + 1)) ((n - 1 - idx) * slotLen))

theorem keys_fit {n : Nat} (l : Layout) (hn : n ≤ maxNumKv) (hidx : idx < n) :
    l.keyOffset (idx + 1) + (n - 1 - idx) * l.keySize ≤ headerLen + maxNumKv * l.keySize ∧
      l.keyOffset idx + l.keySize = l.keyOffset (idx + 1) := by
  have hmul : (idx + 1 + (n - 1 - idx)) * l.keySize ≤ maxNumKv * l.keySize :=
    Nat.mul_le_mul_right _ (by omega)
  have hsucc : (idx + 1) * l.keySize = idx * l.keySize + l.keySize := Nat.succ_mul ..
  rw [Nat.add_mul] at hmul
  simp only [Layout.keyOffset]
  omega

theorem slots_fit {n : Nat} (l : Layout) (hn : n ≤ maxNumKv) (hidx : idx < n) :
    l.valueOffset (idx + 1) + (n - 1 - idx) * slotLen ≤ l.imageLen ∧
      l.valueOffset idx + slotLen = l.valueOffset (idx + 1) := by
  have hmul : (idx + 1 + (n - 1 - idx)) * slotLen ≤ maxNumKv * slotLen :=
    Nat.mul_le_mul_right _ (by omega)
  have hsucc : (idx + 1) * slotLen = idx * slotLen + slotLen := Nat.succ_mul ..
  rw [Nat.add_mul] at hmul
  simp only [Layout.valueOffset, Layout.imageLen]
  omega

theorem image_shiftKeys (hn : p.numKeys ≤ maxNumKv) (hidx : idx < p.numKeys) :
    (p.shiftKeys idx).image = p.image.copyAt (p.layout.keyOffset idx)
        (p.image.slice (p.layout.keyOffset (idx + 1)) ((p.numKeys - 1 - idx) * p.layout.keySize)) ∧
      (p.image.slice (p.layout.keyOffset (idx + 1))
        ((p.numKeys - 1 - idx) * p.layout.keySize)).length
        = (p.numKeys - 1 - idx) * p.layout.keySize := by
  have hfit := keys_fit p.layout hn hidx
  have hmax := p.layout.imageLen_le
  have hlen : (p.image.slice (p.layout.keyOffset (idx + 1))
      ((p.numKeys - 1 - idx) * p.layout.keySize)).length
        = (p.numKeys - 1 - idx) * p.layout.keySize := by
    refine length_slice ?_
    rw [p.length_image]
    simp only [Layout.imageLen] at hmax
    omega
  refine ⟨image_put ?_, hlen⟩
  rw [hlen]
  simp only [Layout.imageLen] at hmax
  omega

theorem image_shiftSlots {n : Nat} (hn : n ≤ maxNumKv) (hidx : idx < n) :
    (p.shiftSlots idx n).image = p.image.copyAt (p.layout.valueOffset idx)
        (p.image.slice (p.layout.valueOffset (idx + 1)) ((n - 1 - idx) * slotLen)) ∧
      (p.image.slice (p.layout.valueOffset (idx + 1)) ((n - 1 - idx) * slotLen)).length
        = (n - 1 - idx) * slotLen := by
  have hfit := slots_fit p.layout hn hidx
  have hmax := p.layout.imageLen_le
  have hlen : (p.image.slice (p.layout.valueOffset (idx + 1)) ((n - 1 - idx) * slotLen)).length
        = (n - 1 - idx) * slotLen := length_slice (by rw [p.length_image]; omega)
  exact ⟨image_put (by rw [hlen]; omega), hlen⟩

/-- A piece of a key record after both moves: of the next record from `idx` on. -/
theorem slice_key_shift {i c w : Nat} (hn : p.numKeys ≤ maxNumKv) (hidx : idx < p.numKeys)
    (hi : i + 1 < p.numKeys) (hc : c + w ≤ p.layout.keySize) :
    ((p.shiftKeys idx).shiftSlots idx p.numKeys).image.slice (p.layout.keyOffset i + c) w
      = p.image.slice (p.layout.keyOffset (if i < idx then i else i + 1) + c) w := by
  obtain ⟨hkeys, -⟩ := image_shiftKeys hn hidx
  obtain ⟨hslots, hlen⟩ := image_shiftSlots (p := p.shiftKeys idx) hn hidx
  have hlayout : (p.shiftKeys idx).layout = p.layout := layout_put ..
  have hslotsFit := slots_fit p.layout hn hidx
  have hmax := p.layout.imageLen_le
  have hbelow := p.layout.keyOffset_add_le_values (show i < maxNumKv by omega) idx
  rw [hlayout] at hslots hlen
  rw [hslots, slice_copyAt_of_disjoint (by rw [(p.shiftKeys idx).length_image, hlen]; omega)
    (by omega), hkeys]
  refine slice_shift ?_ hidx hi hc
  have hmul : p.numKeys * p.layout.keySize ≤ maxNumKv * p.layout.keySize :=
    Nat.mul_le_mul_right _ hn
  rw [p.length_image]
  simp only [Layout.imageLen] at hmax
  omega

theorem slice_slot_shift {i : Nat} (hn : p.numKeys ≤ maxNumKv) (hidx : idx < p.numKeys)
    (hi : i + 1 < p.numKeys) :
    ((p.shiftKeys idx).shiftSlots idx p.numKeys).image.slice (p.layout.valueOffset i) slotLen
      = p.image.slice (p.layout.valueOffset (if i < idx then i else i + 1)) slotLen := by
  obtain ⟨hkeys, hklen⟩ := image_shiftKeys hn hidx
  obtain ⟨hslots, hlen⟩ := image_shiftSlots (p := p.shiftKeys idx) hn hidx
  have hlayout : (p.shiftKeys idx).layout = p.layout := layout_put ..
  have hkeysFit := keys_fit p.layout hn hidx
  have hmax := p.layout.imageLen_le
  have hmul : p.numKeys * slotLen ≤ maxNumKv * slotLen := Nat.mul_le_mul_right _ hn
  rw [hlayout] at hslots
  rw [hslots, ← Nat.add_zero (p.layout.valueOffset i)]
  refine Eq.trans (slice_shift (c := 0) ?_ hidx hi (Nat.le_refl _)) ?_
  · rw [(p.shiftKeys idx).length_image]
    simp only [Layout.imageLen] at hmax
    omega
  · rw [hkeys, Nat.add_zero]
    refine slice_copyAt_of_disjoint (by rw [p.length_image, hklen]; simp only [Layout.imageLen] at hmax; omega) (.inr ?_)
    rw [hklen]
    omega

theorem cell_shift {i : Nat} (hn : p.numKeys ≤ maxNumKv) (hidx : idx < p.numKeys)
    (hi : i + 1 < p.numKeys) :
    ((p.shiftKeys idx).shiftSlots idx p.numKeys).cell i
      = p.cell (if i < idx then i else i + 1) := by
  have hlayout : ((p.shiftKeys idx).shiftSlots idx p.numKeys).layout = p.layout := by
    simp [shiftSlots, shiftKeys]
  have hsize := p.layout.keySize_eq
  have hkey : ∀ c w, c + w ≤ p.layout.keySize → _ := fun c w hc =>
    slice_key_shift (c := c) (w := w) hn hidx hi hc
  have hbuf := hkey 0 keyBufLen (by omega)
  have hlen := hkey keyBufLen p.layout.keyLenWidth (by omega)
  have hty := hkey (keyBufLen + p.layout.keyLenWidth) p.layout.valueTypeWidth (by omega)
  have hslot := slice_slot_shift hn hidx hi
  rw [Nat.add_zero, Nat.add_zero] at hbuf
  rw [← Nat.add_assoc, ← Nat.add_assoc] at hty
  simp only [cell, field, hlayout, Layout.offset, Layout.width, hbuf, hlen, hty, hslot]

theorem numKeys_shift (hn : p.numKeys ≤ maxNumKv) (hidx : idx < p.numKeys) :
    ((p.shiftKeys idx).shiftSlots idx p.numKeys).numKeys = p.numKeys := by
  obtain ⟨hkeys, hklen⟩ := image_shiftKeys hn hidx
  obtain ⟨hslots, hlen⟩ := image_shiftSlots (p := p.shiftKeys idx) hn hidx
  have hlayout : (p.shiftKeys idx).layout = p.layout := layout_put ..
  have hkeysFit := keys_fit p.layout hn hidx
  have hslotsFit := slots_fit p.layout hn hidx
  have hmax := p.layout.imageLen_le
  have hhead := p.layout.headerLen_le_keyOffset idx
  have hheadValue := p.layout.headerLen_le_valueOffset idx
  have hnine : headerLen = 9 := rfl
  rw [hlayout] at hslots hlen
  simp only [Layout.imageLen] at hmax hslotsFit
  rw [numKeys, hslots, byteAt_copyAt_of_disjoint (by rw [(p.shiftKeys idx).length_image]; omega)
      (.inl (by omega)), hkeys,
    byteAt_copyAt_of_disjoint (by rw [p.length_image]; omega) (.inl (by omega))]
  rfl

/-- The cell at `idx` is taken out and the later ones close the gap. -/
structure Removes (p q : ConfigPartition) (idx : Nat) : Prop where
  lt : idx < p.numKeys
  layout : q.layout = p.layout
  numKeys : q.numKeys = p.numKeys - 1
  needsCommit : q.needsCommit = true
  cell : ∀ i, i < q.numKeys → q.cell i = p.cell (if i < idx then i else i + 1)

inductive Removal (p : ConfigPartition) (key : Key) : Bool → ConfigPartition → Prop
  | missing (hfind : p.find key = some none) : Removal p key false p
  | removed (idx : Nat) (q : ConfigPartition) (hfind : p.find key = some (some idx))
      (hremoves : Removes p q idx) : Removal p key true q

theorem Removes.of_shift {r : ConfigPartition} (hn : p.numKeys ≤ maxNumKv)
    (hidx : idx < p.numKeys) (hlayout : r.layout = p.layout) (hnum : r.numKeys = p.numKeys)
    (hcell : ∀ i, i + 1 < p.numKeys → r.cell i = p.cell (if i < idx then i else i + 1)) :
    ∃ q, (do
        let r ← r.decNumKeys
        some (true, r.withCommit)) = some (true, q) ∧ Removes p q idx := by
  have hmax : maxNumKv = 50 := rfl
  have hdec := decNumKeys_eq (p := r) (by omega)
  have hcount : (r.withNumKeys (r.numKeys - 1)).withCommit.numKeys = p.numKeys - 1 := by
    rw [numKeys_withCommit, numKeys_withNumKeys (by omega), hnum]
  refine ⟨(r.withNumKeys (r.numKeys - 1)).withCommit, by simp [hdec], hidx, by simp [hlayout],
    hcount, rfl, fun i hi => ?_⟩
  rw [hcount] at hi
  rw [cell_withCommit, cell_withNumKeys (by omega), hcell i (by omega)]

/-- Every removal, of a key of any length. -/
theorem removeKey_cases (hn : p.numKeys ≤ maxNumKv) (key : Key) :
    ∃ ok q, p.removeKey key = some (ok, q) ∧ Removal p key ok q := by
  have hfind := find_eq hn key
  cases hidx : (List.range p.numKeys).find? (p.stopsAt key) with
  | none =>
    rw [hidx] at hfind
    exact ⟨false, p, by simp [removeKey, hfind], .missing hfind⟩
  | some idx =>
    rw [hidx] at hfind
    have hlt : idx < p.numKeys := List.mem_range.mp (List.mem_of_find?_eq_some hidx)
    by_cases hlast : idx < p.numKeys - 1
    · have hkeys := keys_fit p.layout hn hlt
      have hslots := slots_fit p.layout hn hlt
      have hmax := p.layout.imageLen_le
      have hfirst : p.copyWithin? (p.layout.keyOffset (idx + 1))
          ((p.numKeys - 1 - idx) * p.layout.keySize)
          (p.layout.keyOffset (idx + 1) - p.layout.keySize) = some (p.shiftKeys idx) := by
        simp only [Layout.imageLen] at hmax
        rw [← hkeys.2, Nat.add_sub_cancel, hkeys.2]
        exact copyWithin?_eq (by omega) (by omega)
      have hsecond : (p.shiftKeys idx).copyWithin? ((p.shiftKeys idx).layout.valueOffset (idx + 1))
          ((p.numKeys - 1 - idx) * slotLen)
          ((p.shiftKeys idx).layout.valueOffset (idx + 1) - slotLen)
            = some ((p.shiftKeys idx).shiftSlots idx p.numKeys) := by
        have hlayout : (p.shiftKeys idx).layout = p.layout := layout_put ..
        rw [hlayout, ← hslots.2, Nat.add_sub_cancel, hslots.2]
        refine (copyWithin?_eq (by omega) (by omega)).trans ?_
        rw [shiftSlots, hlayout]
      obtain ⟨q, hq, hremoves⟩ := Removes.of_shift hn hlt
        (r := (p.shiftKeys idx).shiftSlots idx p.numKeys) (by simp [shiftSlots, shiftKeys])
        (numKeys_shift hn hlt) (fun i hi => cell_shift hn hlt hi)
      refine ⟨true, q, ?_, .removed idx q hfind hremoves⟩
      rw [← hq]
      simp [removeKey, hfind, hlast, hfirst, hsecond, withCommit]
    · obtain ⟨q, hq, hremoves⟩ := Removes.of_shift hn hlt (r := p) rfl rfl
        (fun i hi => by rw [if_pos (by omega)])
      refine ⟨true, q, ?_, .removed idx q hfind hremoves⟩
      rw [← hq]
      simp [removeKey, hfind, hlast, withCommit]

/-! ## The listed cells afterwards -/

theorem listed_set {c : Cell} (hn : p.numKeys ≤ maxNumKv) (hnum : q.numKeys = p.numKeys)
    (hcell : ∀ j, j < maxNumKv → q.cell j = if j = idx then c else p.cell j) :
    q.listed = p.listed.set idx c := by
  apply List.ext_getElem?
  intro j
  rw [List.getElem?_set, length_listed]
  by_cases hj : j < p.numKeys
  · rw [getElem?_listed (by omega), hcell j (by omega), getElem?_listed hj]
    by_cases hji : j = idx
    · rw [if_pos hji, if_pos hji.symm, if_pos (by omega)]
    · rw [if_neg hji, if_neg (Ne.symm hji)]
  · rw [List.getElem?_eq_none (by rw [length_listed]; omega),
      List.getElem?_eq_none (l := p.listed) (by rw [length_listed]; omega)]
    by_cases hji : idx = j
    · rw [if_pos hji, if_neg (by omega)]
    · rw [if_neg hji]

theorem Stores.listed {c : Cell} (h : Stores p q idx c) (hn : p.numKeys ≤ maxNumKv)
    (hidx : idx < maxNumKv) (hle : idx ≤ p.numKeys) :
    q.listed = if idx < p.listed.length then p.listed.set idx c else p.listed ++ [c] := by
  rw [length_listed]
  have hnum := h.numKeys
  split_ifs with hlt
  · rw [if_pos hlt] at hnum
    exact listed_set hn hnum h.cell
  · have heq : idx = p.numKeys := by omega
    rw [if_neg hlt] at hnum
    rw [ConfigPartition.listed, hnum, List.range_succ, List.map_append, List.map_singleton,
      h.cell _ (heq ▸ hidx), if_pos heq.symm, ConfigPartition.listed]
    congr 1
    refine List.map_congr_left fun j hj => ?_
    have hj := List.mem_range.mp hj
    rw [h.cell j (by omega), if_neg (by omega)]

theorem Removes.listed (h : Removes p q idx) : q.listed = p.listed.eraseIdx idx := by
  have hlt := h.lt
  have hnum := h.numKeys
  apply List.ext_getElem?
  intro j
  rw [List.getElem?_eraseIdx]
  by_cases hj : j < q.numKeys
  · rw [getElem?_listed hj, h.cell j hj]
    split_ifs
    · rw [getElem?_listed (by omega)]
    · rw [getElem?_listed (by omega)]
  · rw [List.getElem?_eq_none (by rw [length_listed]; omega)]
    split_ifs
    · rw [List.getElem?_eq_none (by rw [length_listed]; omega)]
    · rw [List.getElem?_eq_none (by rw [length_listed]; omega)]

end ConfigPartition

end Bristlemouth.Config
