import Bristlemouth.Config.Partition
import Mathlib.Data.List.Range

/-!
# The image as a table of cells

An image is its header and fifty cells, each a key record and a value slot. `ConfigPartition.listed`
is the list of the cells in use. A write inside one field changes that field only (`field_putIn`,
`field_putIn_of_ne`), so the operations are functions on the listed cells, and what they do to the
image is kept to these lemmas.
-/

set_option autoImplicit false

namespace Bristlemouth.Config

open Bytes

/-- A key record and its value slot. -/
structure Cell where
  keyBuf : Bytes
  keyLen : Nat
  valueType : Nat
  slot : Bytes
deriving DecidableEq

/-- `key_buf[..key_len]`. -/
def Cell.name (c : Cell) : Bytes := c.keyBuf.take c.keyLen

/-- Whether `find_key_idx` stops at a cell, for a key that fits a key buffer. -/
def Key.names (key : Key) (c : Cell) : Bool :=
  decide (c.keyLen = key.len) && CString.strncmpEq key.byte c.keyBuf.byteAt 0 key.len

/-- `snprintf` of a key over the old content of a key buffer. -/
def Key.storeIn (key : Key) (keyBuf : Bytes) : Bytes :=
  (keyBuf.copyAt 0 (key.text.take (min key.strlen (keyBufLen - 1)))).copyAt
    (min key.strlen (keyBufLen - 1)) [0]

namespace ConfigPartition

variable {p : ConfigPartition}

/-- A write, left out where it does not fit the image. -/
def put (p : ConfigPartition) (off : Nat) (data : Bytes) : ConfigPartition :=
  (p.write? off data).getD p

theorem write?_eq {off : Nat} {data : Bytes} (h : off + data.length ≤ maxImageLen) :
    p.write? off data = some (p.put off data) := by simp [put, write?, h]

@[simp] theorem layout_put (off : Nat) (data : Bytes) : (p.put off data).layout = p.layout := by
  unfold put write?
  split <;> rfl

@[simp] theorem needsCommit_put (off : Nat) (data : Bytes) :
    (p.put off data).needsCommit = p.needsCommit := by
  unfold put write?
  split <;> rfl

theorem image_put {off : Nat} {data : Bytes} (h : off + data.length ≤ maxImageLen) :
    (p.put off data).image = p.image.copyAt off data := by
  simp [put, write?, h]

def field (p : ConfigPartition) (f : Field) : Bytes :=
  p.image.slice (p.layout.offset f) (p.layout.width f)

/-- A write inside a field. -/
def putIn (p : ConfigPartition) (f : Field) (i : Nat) (data : Bytes) : ConfigPartition :=
  p.put (p.layout.offset f + i) data

@[simp] theorem layout_putIn (f : Field) (i : Nat) (data : Bytes) :
    (p.putIn f i data).layout = p.layout := layout_put ..

@[simp] theorem needsCommit_putIn (f : Field) (i : Nat) (data : Bytes) :
    (p.putIn f i data).needsCommit = p.needsCommit := needsCommit_put ..

theorem fits_image {f : Field} (hf : f.Valid) :
    p.layout.offset f + p.layout.width f ≤ maxImageLen :=
  (p.layout.fits hf).trans p.layout.imageLen_le

theorem length_field {f : Field} (hf : f.Valid) : (p.field f).length = p.layout.width f :=
  length_slice ((fits_image hf).trans_eq p.length_image.symm)

section

variable {f : Field} {i : Nat} {data : Bytes}

theorem write?_putIn (hf : f.Valid) (h : i + data.length ≤ p.layout.width f) :
    p.write? (p.layout.offset f + i) data = some (p.putIn f i data) := by
  have hfits := fits_image (p := p) hf
  exact write?_eq (by omega)

theorem image_putIn (hf : f.Valid) (h : i + data.length ≤ p.layout.width f) :
    (p.putIn f i data).image = p.image.copyAt (p.layout.offset f + i) data := by
  have hfits := fits_image (p := p) hf
  exact image_put (by omega)

theorem field_putIn (hf : f.Valid) (h : i + data.length ≤ p.layout.width f) :
    (p.putIn f i data).field f = (p.field f).copyAt i data := by
  have hfits := fits_image (p := p) hf
  rw [← p.length_image] at hfits
  rw [field, layout_putIn, image_putIn hf h, slice_copyAt_within hfits h]
  rfl

theorem field_putIn_of_ne {g : Field} (hf : f.Valid) (hg : g.Valid) (hne : f ≠ g)
    (h : i + data.length ≤ p.layout.width f) : (p.putIn f i data).field g = p.field g := by
  have hfits := fits_image (p := p) hf
  rw [← p.length_image] at hfits
  have hdisjoint := p.layout.disjoint hf hg hne
  rw [field, layout_putIn, image_putIn hf h, slice_copyAt_of_disjoint (by omega) (by omega)]
  rfl

end

def cell (p : ConfigPartition) (i : Nat) : Cell where
  keyBuf := p.field (.keyBuf i)
  keyLen := leNat (p.field (.keyLen i))
  valueType := leNat (p.field (.valueType i))
  slot := p.field (.slot i)

/-- The cells in use. -/
def listed (p : ConfigPartition) : List Cell := (List.range p.numKeys).map p.cell

@[simp] theorem length_listed (p : ConfigPartition) : p.listed.length = p.numKeys := by
  simp [listed]

theorem getElem?_listed {i : Nat} (h : i < p.numKeys) : p.listed[i]? = some (p.cell i) := by
  simp [listed, h]

theorem mem_listed {c : Cell} : c ∈ p.listed ↔ ∃ i, i < p.numKeys ∧ p.cell i = c := by
  simp [listed]

theorem length_keyBuf {i : Nat} (h : i < maxNumKv) : (p.cell i).keyBuf.length = keyBufLen :=
  length_field (f := .keyBuf i) h

theorem length_slot {i : Nat} (h : i < maxNumKv) : (p.cell i).slot.length = slotLen :=
  length_field (f := .slot i) h

theorem numKeys_eq (p : ConfigPartition) : p.numKeys = ((p.field .numKeys).byteAt 0).toNat := by
  rw [numKeys, field, Layout.width, byteAt_slice (by omega)]
  rfl

theorem storedKey_eq {i : Nat} (h : i < maxNumKv) :
    p.storedKey i = some ⟨(p.cell i).keyBuf, (p.cell i).keyLen, (p.cell i).valueType⟩ := by
  have hbuf := fits_image (p := p) (f := .keyBuf i) h
  have hlen := fits_image (p := p) (f := .keyLen i) h
  have hty := fits_image (p := p) (f := .valueType i) h
  simp only [Layout.offset, Layout.width, ← p.length_image] at hbuf hlen hty
  simp only [storedKey, slice?_of_le hbuf, slice?_of_le hlen, slice?_of_le hty,
    Option.bind_eq_bind, Option.bind_some]
  rfl

theorem slot_eq {i : Nat} (h : i < maxNumKv) : p.slot i = some (p.cell i).slot := by
  have hslot := fits_image (p := p) (f := .slot i) h
  simp only [Layout.offset, Layout.width, ← p.length_image] at hslot
  rw [slot, slice?_of_le hslot]
  rfl

/-- Whether `find_key_idx` stops at index `i`. -/
def stopsAt (p : ConfigPartition) (key : Key) (i : Nat) : Bool :=
  decide ((p.cell i).keyLen = key.len) &&
    CString.strncmpEq key.byte (fun j => p.image.byteAt (p.layout.keyOffset i + j)) 0 key.len

theorem findM?_some {α : Type} {f : α → Option Bool} {g : α → Bool} {l : List α}
    (h : ∀ a ∈ l, f a = some (g a)) : l.findM? f = some (l.find? g) := by
  induction l with
  | nil => rfl
  | cons a l ih =>
    rw [List.findM?, h a List.mem_cons_self, List.find?_cons]
    cases g a with
    | true => rfl
    | false => exact ih fun b hb => h b (List.mem_cons_of_mem _ hb)

theorem find?_congr {α : Type} {f g : α → Bool} {l : List α} (h : ∀ a ∈ l, f a = g a) :
    l.find? f = l.find? g := by
  induction l with
  | nil => rfl
  | cons a l ih =>
    rw [List.find?_cons, List.find?_cons, h a List.mem_cons_self,
      ih fun b hb => h b (List.mem_cons_of_mem _ hb)]

theorem findIdx?_congr {α : Type} {f g : α → Bool} {l : List α} (h : ∀ a ∈ l, f a = g a) :
    l.findIdx? f = l.findIdx? g := by
  induction l with
  | nil => rfl
  | cons a l ih =>
    rw [List.findIdx?_cons, List.findIdx?_cons, h a List.mem_cons_self,
      ih fun b hb => h b (List.mem_cons_of_mem _ hb)]

theorem find_eq (hn : p.numKeys ≤ maxNumKv) (key : Key) :
    p.find key = some ((List.range p.numKeys).find? (p.stopsAt key)) := by
  refine findM?_some fun i hi => ?_
  rw [storedKey_eq (lt_of_lt_of_le (List.mem_range.mp hi) hn)]
  simp only [Option.bind_eq_bind, Option.bind_some, stopsAt, ne_eq]
  split_ifs with hlen <;> simp [hlen]

theorem stopsAt_eq {key : Key} {i : Nat} (hlen : key.len ≤ keyBufLen) :
    p.stopsAt key i = key.names (p.cell i) := by
  rw [stopsAt, Key.names]
  congr 1
  refine CString.strncmpEq_congr fun j hj => ?_
  exact (byteAt_slice (show j < keyBufLen by omega)).symm

theorem find?_range_map {α : Type} (f : Nat → α) (g : α → Bool) (n : Nat) :
    (List.range n).find? (fun i => g (f i)) = ((List.range n).map f).findIdx? g := by
  induction n with
  | zero => rfl
  | succ n ih =>
    rw [List.range_succ, List.map_append, List.find?_append, List.findIdx?_append, ih]
    cases h : g (f n) <;> simp [h]

/-- For a key that fits a key buffer the lookup is a search of the listed cells. -/
theorem find_listed (hn : p.numKeys ≤ maxNumKv) {key : Key} (hlen : key.len ≤ keyBufLen) :
    p.find key = some (p.listed.findIdx? key.names) := by
  rw [find_eq hn, listed, ← find?_range_map p.cell key.names]
  congr 1
  exact find?_congr fun i _ => stopsAt_eq hlen

/-! ## The writes of a setter -/

/-- `write_key_buf`. -/
def withKeyBuf (p : ConfigPartition) (idx : Nat) (key : Key) : ConfigPartition :=
  (p.putIn (.keyBuf idx) 0 (key.text.take (min key.strlen (keyBufLen - 1)))).putIn (.keyBuf idx)
    (min key.strlen (keyBufLen - 1)) [0]

/-- A write at the start of a slot. -/
def withSlot (p : ConfigPartition) (idx : Nat) (data : Bytes) : ConfigPartition :=
  p.putIn (.slot idx) 0 data

/-- `write_key_meta`. -/
def withMeta (p : ConfigPartition) (idx len : Nat) (ty : ValueType) : ConfigPartition :=
  (p.putIn (.valueType idx) 0 (leBytes p.layout.valueTypeWidth ty.toNat)).putIn (.keyLen idx) 0
    (leBytes p.layout.keyLenWidth len)

def withNumKeys (p : ConfigPartition) (n : Nat) : ConfigPartition :=
  p.putIn .numKeys 0 [UInt8.ofNat n]

def withCommit (p : ConfigPartition) : ConfigPartition := { p with needsCommit := true }

section

variable {idx j n : Nat} {key : Key} {data : Bytes} {ty : ValueType}

theorem storeIn_bounds (key : Key) :
    0 + (key.text.take (min key.strlen (keyBufLen - 1))).length ≤ keyBufLen ∧
      min key.strlen (keyBufLen - 1) + [(0 : UInt8)].length ≤ keyBufLen := by
  have hbuf : keyBufLen = 32 := rfl
  simp only [List.length_take, List.length_singleton]
  omega

theorem writeKeyBuf_eq (hi : idx < maxNumKv) :
    p.writeKeyBuf idx key = some (p.withKeyBuf idx key) := by
  obtain ⟨htext, hnul⟩ := storeIn_bounds key
  have hstrlen : key.strlen ≤ key.text.length := CString.strlen_le _
  have hslice : key.text.slice? 0 (min key.strlen (keyBufLen - 1))
      = some (key.text.take (min key.strlen (keyBufLen - 1))) := by
    rw [slice?_of_le (by omega)]
    rfl
  have hfirst := write?_putIn (p := p) (f := .keyBuf idx) hi htext
  have hsecond := write?_putIn (f := .keyBuf idx) hi hnul
    (p := p.putIn (.keyBuf idx) 0 (key.text.take (min key.strlen (keyBufLen - 1))))
  simp only [layout_putIn, Layout.offset, Nat.add_zero] at hfirst hsecond
  simp only [writeKeyBuf, hslice, Option.bind_eq_bind, Option.bind_some, hfirst, hsecond]
  rfl

theorem writeKeyMeta_eq (hi : idx < maxNumKv) :
    p.writeKeyMeta idx key ty = some (p.withMeta idx key.len ty) := by
  have hfirst : p.write? (p.layout.offset (.valueType idx) + 0) (leBytes p.layout.valueTypeWidth ty.toNat)
      = some (p.putIn (.valueType idx) 0 (leBytes p.layout.valueTypeWidth ty.toNat)) :=
    write?_putIn hi (by simp [Layout.width])
  have hsecond : ∀ q : ConfigPartition, q.layout = p.layout →
      q.write? (p.layout.offset (.keyLen idx) + 0) (leBytes p.layout.keyLenWidth key.len)
        = some (q.putIn (.keyLen idx) 0 (leBytes p.layout.keyLenWidth key.len)) := by
    intro q hq
    rw [← hq]
    exact write?_putIn hi (by simp [Layout.width])
  have hsecond := hsecond _ (layout_putIn (.valueType idx) 0 (leBytes p.layout.valueTypeWidth ty.toNat))
  simp only [Layout.offset, Nat.add_zero] at hfirst hsecond
  simp only [writeKeyMeta, Option.bind_eq_bind, hfirst, Option.bind_some, hsecond]
  rfl

theorem writeSlot_eq (hi : idx < maxNumKv) (h : data.length ≤ slotLen) :
    p.write? (p.layout.valueOffset idx) data = some (p.withSlot idx data) :=
  write?_putIn (f := .slot idx) (i := 0) hi (by simpa [Layout.width] using h)

theorem incNumKeys_eq (h : p.numKeys < maxNumKv) :
    p.incNumKeys = some (p.withNumKeys (p.numKeys + 1)) := by
  have hmax : maxNumKv = 50 := rfl
  rw [incNumKeys, if_neg (by omega)]
  exact write?_putIn (f := .numKeys) (i := 0) trivial (Nat.le_refl 1)

theorem decNumKeys_eq (h : 0 < p.numKeys) :
    p.decNumKeys = some (p.withNumKeys (p.numKeys - 1)) := by
  rw [decNumKeys, if_neg (by omega)]
  exact write?_putIn (f := .numKeys) (i := 0) trivial (Nat.le_refl 1)

@[simp] theorem layout_withKeyBuf : (p.withKeyBuf idx key).layout = p.layout := by
  simp [withKeyBuf]

@[simp] theorem layout_withSlot : (p.withSlot idx data).layout = p.layout := layout_putIn ..

@[simp] theorem layout_withMeta : (p.withMeta idx n ty).layout = p.layout := by simp [withMeta]

@[simp] theorem layout_withNumKeys : (p.withNumKeys n).layout = p.layout := layout_putIn ..

@[simp] theorem layout_withCommit : p.withCommit.layout = p.layout := rfl

@[simp] theorem needsCommit_withKeyBuf : (p.withKeyBuf idx key).needsCommit = p.needsCommit := by
  simp [withKeyBuf]

@[simp] theorem needsCommit_withSlot : (p.withSlot idx data).needsCommit = p.needsCommit :=
  needsCommit_putIn ..

@[simp] theorem needsCommit_withCommit : p.withCommit.needsCommit = true := rfl

theorem field_withKeyBuf (hi : idx < maxNumKv) :
    (p.withKeyBuf idx key).field (.keyBuf idx) = key.storeIn (p.field (.keyBuf idx)) := by
  obtain ⟨htext, hnul⟩ := storeIn_bounds key
  rw [withKeyBuf, field_putIn (f := .keyBuf idx) hi hnul, field_putIn (f := .keyBuf idx) hi htext]
  rfl

theorem field_withKeyBuf_of_ne {g : Field} (hi : idx < maxNumKv) (hg : g.Valid)
    (hne : Field.keyBuf idx ≠ g) : (p.withKeyBuf idx key).field g = p.field g := by
  obtain ⟨htext, hnul⟩ := storeIn_bounds key
  rw [withKeyBuf, field_putIn_of_ne (f := .keyBuf idx) hi hg hne hnul,
    field_putIn_of_ne (f := .keyBuf idx) hi hg hne htext]

theorem field_withSlot (hi : idx < maxNumKv) (h : data.length ≤ slotLen) :
    (p.withSlot idx data).field (.slot idx) = (p.field (.slot idx)).copyAt 0 data :=
  field_putIn (f := .slot idx) hi (by simpa [Layout.width] using h)

theorem field_withSlot_of_ne {g : Field} (hi : idx < maxNumKv) (hg : g.Valid)
    (hne : Field.slot idx ≠ g) (h : data.length ≤ slotLen) :
    (p.withSlot idx data).field g = p.field g :=
  field_putIn_of_ne (f := .slot idx) hi hg hne (by simpa [Layout.width] using h)

theorem field_withMeta_of_ne {g : Field} (hi : idx < maxNumKv) (hg : g.Valid)
    (hty : Field.valueType idx ≠ g) (hlen : Field.keyLen idx ≠ g) :
    (p.withMeta idx n ty).field g = p.field g := by
  rw [withMeta, field_putIn_of_ne (f := .keyLen idx) hi hg hlen (by simp [Layout.width]),
    field_putIn_of_ne (f := .valueType idx) hi hg hty (by simp [Layout.width])]

theorem keyLen_withMeta (hi : idx < maxNumKv) (hn : n < 2 ^ 32) :
    leNat ((p.withMeta idx n ty).field (.keyLen idx)) = n := by
  have hlen : (leBytes p.layout.keyLenWidth n).length = p.layout.keyLenWidth := length_leBytes ..
  rw [withMeta, field_putIn (f := .keyLen idx) hi (by simp [Layout.width]),
    copyAt_zero_of_length, leNat_leBytes]
  · apply Nat.mod_eq_of_lt
    rcases p.layout.size_ok with hw | hw <;> rw [hw] <;> omega
  · rw [length_field (f := .keyLen idx) hi, layout_putIn, hlen]
    rfl

theorem valueType_withMeta (hi : idx < maxNumKv) :
    leNat ((p.withMeta idx n ty).field (.valueType idx)) = ty.toNat := by
  have hlen : (leBytes p.layout.valueTypeWidth ty.toNat).length = p.layout.valueTypeWidth :=
    length_leBytes ..
  rw [withMeta, field_putIn_of_ne (f := .keyLen idx) hi (g := .valueType idx) hi
    (by simp) (by simp [Layout.width]), field_putIn (f := .valueType idx) hi (by simp [Layout.width]),
    copyAt_zero_of_length, leNat_leBytes]
  · apply Nat.mod_eq_of_lt
    rcases p.layout.enum_ok with hw | hw | hw <;> rw [hw] <;> cases ty <;> decide
  · rw [length_field (f := .valueType idx) hi, hlen]
    rfl

theorem numKeys_of_field {q : ConfigPartition} (h : q.field .numKeys = p.field .numKeys) :
    q.numKeys = p.numKeys := by rw [numKeys_eq, numKeys_eq, h]

theorem numKeys_withNumKeys (h : n < 256) : (p.withNumKeys n).numKeys = n := by
  have hfield : (p.withNumKeys n).field .numKeys = (p.field .numKeys).copyAt 0 [UInt8.ofNat n] :=
    field_putIn (f := .numKeys) (i := 0) trivial (Nat.le_refl 1)
  have hone : [UInt8.ofNat n].length = (p.field .numKeys).length :=
    (length_field (f := .numKeys) trivial).symm
  rw [numKeys_eq, hfield, copyAt_zero_of_length hone]
  exact Nat.mod_eq_of_lt h

theorem field_withNumKeys_of_ne {g : Field} (hg : g.Valid) (hne : Field.numKeys ≠ g) :
    (p.withNumKeys n).field g = p.field g :=
  field_putIn_of_ne (f := .numKeys) (i := 0) trivial hg hne (Nat.le_refl 1)

/-- A cell is its four fields. -/
theorem cell_of_fields {q : ConfigPartition} (hbuf : q.field (.keyBuf j) = p.field (.keyBuf j))
    (hlen : q.field (.keyLen j) = p.field (.keyLen j))
    (hty : q.field (.valueType j) = p.field (.valueType j))
    (hslot : q.field (.slot j) = p.field (.slot j)) : q.cell j = p.cell j := by
  simp only [cell, hbuf, hlen, hty, hslot]

theorem cell_withKeyBuf (hi : idx < maxNumKv) (hj : j < maxNumKv) :
    (p.withKeyBuf idx key).cell j =
      if j = idx then { p.cell idx with keyBuf := key.storeIn (p.cell idx).keyBuf }
      else p.cell j := by
  split_ifs with hji
  · subst hji
    simp only [cell, field_withKeyBuf hi, field_withKeyBuf_of_ne hi (g := .keyLen j) hi (by simp),
      field_withKeyBuf_of_ne hi (g := .valueType j) hi (by simp),
      field_withKeyBuf_of_ne hi (g := .slot j) hi (by simp)]
  · have hne : ∀ g : Field, g.Valid → Field.keyBuf idx ≠ g →
        (p.withKeyBuf idx key).field g = p.field g := fun g hg => field_withKeyBuf_of_ne hi hg
    apply cell_of_fields
    · exact hne (.keyBuf j) hj (by simp [Ne.symm hji])
    · exact hne (.keyLen j) hj (by simp)
    · exact hne (.valueType j) hj (by simp)
    · exact hne (.slot j) hj (by simp)

theorem cell_withSlot (hi : idx < maxNumKv) (hj : j < maxNumKv) (h : data.length ≤ slotLen) :
    (p.withSlot idx data).cell j =
      if j = idx then { p.cell idx with slot := (p.cell idx).slot.copyAt 0 data } else p.cell j := by
  have hne : ∀ g : Field, g.Valid → Field.slot idx ≠ g →
      (p.withSlot idx data).field g = p.field g := fun g hg hne =>
    field_withSlot_of_ne hi hg hne h
  split_ifs with hji
  · subst hji
    simp only [cell, field_withSlot hi h, hne (.keyBuf j) hi (by simp),
      hne (.keyLen j) hi (by simp), hne (.valueType j) hi (by simp)]
  · apply cell_of_fields
    · exact hne (.keyBuf j) hj (by simp)
    · exact hne (.keyLen j) hj (by simp)
    · exact hne (.valueType j) hj (by simp)
    · exact hne (.slot j) hj (by simp [Ne.symm hji])

theorem cell_withMeta (hi : idx < maxNumKv) (hj : j < maxNumKv) (hn : n < 2 ^ 32) :
    (p.withMeta idx n ty).cell j =
      if j = idx then { p.cell idx with keyLen := n, valueType := ty.toNat } else p.cell j := by
  have hne : ∀ g : Field, g.Valid → Field.valueType idx ≠ g → Field.keyLen idx ≠ g →
      (p.withMeta idx n ty).field g = p.field g := fun g hg => field_withMeta_of_ne hi hg
  split_ifs with hji
  · subst hji
    simp only [cell, keyLen_withMeta hi hn, valueType_withMeta hi,
      hne (.keyBuf j) hi (by simp) (by simp), hne (.slot j) hi (by simp) (by simp)]
  · apply cell_of_fields
    · exact hne (.keyBuf j) hj (by simp) (by simp)
    · exact hne (.keyLen j) hj (by simp) (by simp [Ne.symm hji])
    · exact hne (.valueType j) hj (by simp [Ne.symm hji]) (by simp)
    · exact hne (.slot j) hj (by simp) (by simp)

theorem cell_withNumKeys (hj : j < maxNumKv) : (p.withNumKeys n).cell j = p.cell j := by
  apply cell_of_fields
  · exact field_withNumKeys_of_ne (g := .keyBuf j) hj (by simp)
  · exact field_withNumKeys_of_ne (g := .keyLen j) hj (by simp)
  · exact field_withNumKeys_of_ne (g := .valueType j) hj (by simp)
  · exact field_withNumKeys_of_ne (g := .slot j) hj (by simp)

@[simp] theorem cell_withCommit : p.withCommit.cell j = p.cell j := rfl

@[simp] theorem numKeys_withCommit : p.withCommit.numKeys = p.numKeys := rfl

theorem numKeys_withKeyBuf (hi : idx < maxNumKv) : (p.withKeyBuf idx key).numKeys = p.numKeys :=
  numKeys_of_field (field_withKeyBuf_of_ne hi trivial (by simp))

theorem numKeys_withSlot (hi : idx < maxNumKv) (h : data.length ≤ slotLen) :
    (p.withSlot idx data).numKeys = p.numKeys :=
  numKeys_of_field (field_withSlot_of_ne hi trivial (by simp) h)

theorem numKeys_withMeta (hi : idx < maxNumKv) : (p.withMeta idx n ty).numKeys = p.numKeys :=
  numKeys_of_field (field_withMeta_of_ne hi trivial (by simp) (by simp))

end

end ConfigPartition

end Bristlemouth.Config
