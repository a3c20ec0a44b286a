import Bristlemouth.Mcuboot.Tlv
import Bristlemouth.Wire.Record

/-!
# Every entry of an area, in order

`TlvArea::iter` and `TlvArea::find` as a whole: the items the iterator yields until it is done. An area
that is laid out entry by entry is read back, unless a protected area is followed by an area with no
entries: the iterator has then stepped over the second info header and is past the end.
-/

set_option autoImplicit false

namespace Bristlemouth.Mcuboot

open Bytes

namespace TlvArea

variable (area : TlvArea)

theorem lt_of_next {off off' : Nat} {item : Except TlvError Tlv}
    (h : area.next off = some (item, off')) : off < off' ∧ off < area.endOff := by
  unfold next at h
  split_ifs at h with hdone
  cases hentry : area.entryAt (area.skipInfo off) with
  | error e =>
    simp only [hentry, Option.some.injEq, Prod.mk.injEq] at h
    omega
  | ok x =>
    obtain ⟨tlv, stop⟩ := x
    simp only [hentry, Option.some.injEq, Prod.mk.injEq] at h
    obtain ⟨-, rfl⟩ := h
    have hskip := area.le_skipInfo off
    have hstop : area.skipInfo off + entrySize ≤ stop := by
      unfold entryAt pair at hentry
      simp only at hentry
      split_ifs at hentry with hfit hpair
      · change (if area.endOff < area.skipInfo off + entrySize +
          (u16At area.image (area.skipInfo off + 2)).toNat then _ else _) = _ at hentry
        split_ifs at hentry
        cases hentry
        exact Nat.le_add_right _ _
      · cases hentry
    have hfour : entrySize = 4 := rfl
    omega

/-- What the iterator yields from `off` on. -/
def iterFrom (off : Nat) : List (Except TlvError Tlv) :=
  match _h : area.next off with
  | none => []
  | some (item, off') => item :: iterFrom off'
termination_by area.endOff - off
decreasing_by
  obtain ⟨hlt, hin⟩ := area.lt_of_next _h
  omega

/-- `TlvArea::iter`, collected. -/
def iter : List (Except TlvError Tlv) := area.iterFrom area.first

end TlvArea

/-- `map_while(Result::ok)`. -/
def mapWhileOk {ε α : Type} : List (Except ε α) → List α
  | .ok a :: items => a :: mapWhileOk items
  | _ => []

/-- The value of the first entry of `kind`, if the area reads without error up to it. -/
def TlvArea.find (area : TlvArea) (kind : UInt16) : Option Bytes :=
  ((mapWhileOk area.iter).find? fun tlv => tlv.kind = kind).map Tlv.value

/-! ### Laid out as MCUboot lays them out -/

/-- `struct image_tlv` and its value. -/
structure Entry where
  kind : UInt16
  value : Bytes
deriving DecidableEq

def Entry.bytes (e : Entry) : Bytes :=
  u16ToLe e.kind ++ u16ToLe (UInt16.ofNat e.value.length) ++ e.value

def Entry.tlv (isProtected : Bool) (e : Entry) : Tlv := ⟨e.kind, e.value, isProtected⟩

/-- What `it_tlv_tot` says of an area with these entries. -/
def areaSize (entries : List Entry) : Nat := tlvInfoSize + (entries.flatMap Entry.bytes).length

def areaBytes (magic : UInt16) (entries : List Entry) : Bytes :=
  u16ToLe magic ++ u16ToLe (UInt16.ofNat (areaSize entries)) ++ entries.flatMap Entry.bytes

/-- An image's areas: the protected one, which may be missing, and the other one, which MCUboot always
looks for. -/
structure Layout where
  /-- The header, its padding and the body. -/
  before : Bytes
  protectedArea : Option (List Entry)
  unprotected : List Entry
  after : Bytes
  protectedFits : ∀ entries, protectedArea = some entries → areaSize entries < 2 ^ 16
  unprotectedFits : areaSize unprotected < 2 ^ 16

namespace Layout

variable (l : Layout)

/-- The protected area's bytes, none if it is missing. -/
def protectedBytes : Bytes := l.protectedArea.elim [] (areaBytes protInfoMagic)

def image : Bytes :=
  l.before ++ (l.protectedBytes ++ (areaBytes infoMagic l.unprotected ++ l.after))

/-- The header puts the area where it is, and says how long its protected part is. -/
def HasHeader (header : Header) : Prop :=
  header.tlvOff = some l.before.length ∧ header.protectTlvSize.toNat = l.protectedBytes.length

/-- The entries in order, protected first. -/
def tlvs : List Tlv :=
  (l.protectedArea.getD []).map (Entry.tlv true) ++ l.unprotected.map (Entry.tlv false)

/-- The area `parse` finds. -/
def area : TlvArea where
  image := l.image
  start := l.before.length
  first := l.before.length + tlvInfoSize
  protEnd := l.before.length + l.protectedBytes.length
  endOff := l.before.length + l.protectedBytes.length + areaSize l.unprotected

end Layout

@[simp] theorem Entry.length_bytes (e : Entry) : e.bytes.length = entrySize + e.value.length := by
  simp only [Entry.bytes, List.length_append, length_u16ToLe]
  rfl

@[simp] theorem length_areaBytes (magic : UInt16) (entries : List Entry) :
    (areaBytes magic entries).length = areaSize entries := by
  simp only [areaBytes, areaSize, List.length_append, length_u16ToLe]
  rfl

theorem Entry.value_le_of_mem {entries : List Entry} {e : Entry} (h : e ∈ entries) :
    entrySize + e.value.length ≤ (entries.flatMap Entry.bytes).length := by
  induction entries with
  | nil => cases h
  | cons d entries ih =>
    rw [List.flatMap_cons, List.length_append]
    rcases List.mem_cons.mp h with rfl | hmem
    · rw [Entry.length_bytes]
      exact Nat.le_add_right _ _
    · exact (ih hmem).trans (Nat.le_add_left _ _)

/-- Two `u16`s that lie after `done`. -/
theorem pair_append {bytes done rest : Bytes} {a b : UInt16}
    (h : bytes = done ++ (u16ToLe a ++ u16ToLe b ++ rest)) : pair bytes done.length = .ok (a, b) := by
  have hfirst : bytes.slice done.length 2 = u16ToLe a := by
    rw [h, slice_append_right (Nat.le_refl _), Nat.sub_self, List.append_assoc]
    exact slice_append_self (length_u16ToLe a)
  have hsecond : bytes.slice (done.length + 2) 2 = u16ToLe b := by
    rw [h, slice_append_right (Nat.le_add_right _ _), List.append_assoc,
      slice_append_right (by rw [length_u16ToLe]; omega), length_u16ToLe,
      show done.length + 2 - done.length - 2 = 0 by omega]
    exact slice_append_self (length_u16ToLe b)
  have hroom : done.length + 4 ≤ bytes.length := by
    rw [h]
    simp only [List.length_append, length_u16ToLe]
    omega
  rw [pair, if_pos hroom, u16At_of_slice hfirst, u16At_of_slice hsecond]

namespace TlvArea

variable {area : TlvArea}

/-- The entry that lies after `done` is read as what it is. -/
theorem entryAt_append {done rest : Bytes} {e : Entry} (h : area.image = done ++ (e.bytes ++ rest))
    (hvalue : e.value.length < 2 ^ 16) (hfit : done.length + e.bytes.length ≤ area.endOff) :
    area.entryAt done.length
      = .ok (e.tlv (decide (done.length < area.protEnd)), done.length + e.bytes.length) := by
  have hlen := e.length_bytes
  have hto : (UInt16.ofNat e.value.length).toNat = e.value.length :=
    UInt16.toNat_ofNat_of_lt' hvalue
  have hpair : pair area.image done.length = .ok (e.kind, UInt16.ofNat e.value.length) := by
    refine @pair_append _ _ (e.value ++ rest) _ _ ?_
    rw [h, Entry.bytes, List.append_assoc]
  have hslice : area.image.slice (done.length + entrySize) e.value.length = e.value := by
    rw [h, slice_append_right (Nat.le_add_right _ _), Nat.add_sub_cancel_left, Entry.bytes,
      List.append_assoc, slice_append_right (by simp [entrySize])]
    simp only [List.length_append, length_u16ToLe]
    exact slice_append_self rfl
  unfold entryAt
  simp only [if_neg (show ¬ area.endOff < done.length + entrySize by omega), hpair]
  change (if area.endOff < done.length + entrySize + (UInt16.ofNat e.value.length).toNat then _
    else _) = _
  rw [hto, if_neg (by omega), hslice, hlen, Nat.add_assoc]
  rfl

theorem iterFrom_done {off : Nat} (h : area.endOff ≤ off) : area.iterFrom off = [] := by
  have hnext : area.next off = none := if_pos h
  rw [iterFrom]
  split
  · rfl
  · rename_i hsome
    rw [hnext] at hsome
    cases hsome

theorem iterFrom_cons {off off' : Nat} {item : Except TlvError Tlv}
    (h : area.next off = some (item, off')) : area.iterFrom off = item :: area.iterFrom off' := by
  rw [iterFrom]
  split
  · rename_i hnone
    rw [h] at hnone
    cases hnone
  · rename_i hsome
    rw [h] at hsome
    cases hsome
    rfl

/-- Entries that lie after `done` are yielded one by one, as long as none begins at the second info
header. -/
theorem iterFrom_entries {isProtected : Bool} {rest : Bytes} (entries : List Entry) :
    ∀ {done : Bytes}, area.image = done ++ (entries.flatMap Entry.bytes ++ rest) →
      (∀ e ∈ entries, e.value.length < 2 ^ 16) →
      done.length + (entries.flatMap Entry.bytes).length ≤ area.endOff →
      (isProtected = true → done.length + (entries.flatMap Entry.bytes).length ≤ area.protEnd) →
      (isProtected = false → area.protEnd < done.length) →
      area.iterFrom done.length = (entries.map (Entry.tlv isProtected)).map .ok
        ++ area.iterFrom (done.length + (entries.flatMap Entry.bytes).length) := by
  induction entries with
  | nil =>
    intro done _ _ _ _ _
    rfl
  | cons e entries ih =>
    intro done himage hvalues hfit hin hout
    rw [List.flatMap_cons, List.append_assoc] at himage
    rw [List.flatMap_cons, List.length_append] at hfit hin ⊢
    have hlen := e.length_bytes
    have hfour : entrySize = 4 := rfl
    have hflag : decide (done.length < area.protEnd) = isProtected := by
      cases isProtected with
      | true => exact decide_eq_true (by have := hin rfl; omega)
      | false => exact decide_eq_false (by have := hout rfl; omega)
    have hskip : area.skipInfo done.length = done.length := by
      refine if_neg fun hboth => ?_
      cases isProtected with
      | true => have := hin rfl; omega
      | false => have := hout rfl; omega
    have hentry := entryAt_append himage (hvalues e List.mem_cons_self) (by omega)
    rw [hflag] at hentry
    have hnext : area.next done.length = some (.ok (e.tlv isProtected), done.length + e.bytes.length) := by
      rw [next_eq_ok, hskip]
      exact ⟨by omega, hentry⟩
    have hstep : (done ++ e.bytes).length = done.length + e.bytes.length := List.length_append
    have hrest := @ih (done ++ e.bytes) (by rw [himage, List.append_assoc])
      (fun d hd => hvalues d (List.mem_cons_of_mem e hd)) (by omega)
      (fun h => by have := hin h; omega) (fun h => by have := hout h; omega)
    rw [hstep] at hrest
    rw [iterFrom_cons hnext, hrest, Nat.add_assoc]
    rfl

/-- At the end of the protected area the iterator goes on after the second info header. -/
theorem iterFrom_protEnd (hsome : area.protEnd ≠ area.start)
    (hmore : area.protEnd + tlvInfoSize < area.endOff) :
    area.iterFrom area.protEnd = area.iterFrom (area.protEnd + tlvInfoSize) := by
  have hfour : tlvInfoSize = 4 := rfl
  have hskip : area.skipInfo area.protEnd = area.protEnd + tlvInfoSize := if_pos ⟨hsome, rfl⟩
  have hstay : area.skipInfo (area.protEnd + tlvInfoSize) = area.protEnd + tlvInfoSize :=
    if_neg fun hboth => by omega
  have hsame : area.next area.protEnd = area.next (area.protEnd + tlvInfoSize) := by
    unfold next
    rw [if_neg (by omega), if_neg (by omega), hskip, hstay]
  cases hnext : area.next (area.protEnd + tlvInfoSize) with
  | none =>
    unfold next at hnext
    rw [if_neg (by omega)] at hnext
    split at hnext <;> cases hnext
  | some x => rw [iterFrom_cons hnext, iterFrom_cons (hsame.trans hnext)]

/-- An empty second area is one step too far. -/
theorem iterFrom_protEnd_empty (hsome : area.protEnd ≠ area.start)
    (hend : area.endOff = area.protEnd + tlvInfoSize) :
    area.iterFrom area.protEnd = [.error .truncated] := by
  have hfour : tlvInfoSize = 4 := rfl
  have hentrySize : entrySize = 4 := rfl
  have hskip : area.skipInfo area.protEnd = area.protEnd + tlvInfoSize := if_pos ⟨hsome, rfl⟩
  have hentry : area.entryAt (area.protEnd + tlvInfoSize) = .error .truncated := by
    unfold entryAt
    exact if_pos (by omega)
  have hnext : area.next area.protEnd = some (.error .truncated, area.endOff) := by
    unfold next
    rw [if_neg (by omega), hskip, hentry]
  rw [iterFrom_cons hnext, iterFrom_done (Nat.le_refl _)]

end TlvArea

/-! ### Reading a layout -/

theorem mapWhileOk_map_ok {ε α : Type} (items : List α) :
    mapWhileOk (items.map (Except.ok : α → Except ε α)) = items := by
  induction items with
  | nil => rfl
  | cons a items ih => exact congrArg (a :: ·) ih

namespace Layout

variable (l : Layout) {header : Header}

/-- `parse` finds the area of a layout, whatever it holds. -/
theorem parse_image (h : l.HasHeader header) : TlvArea.parse l.image header = .ok l.area := by
  obtain ⟨hoff, hprotect⟩ := h
  have hsecond : pair l.image (l.before.length + l.protectedBytes.length)
      = .ok (infoMagic, UInt16.ofNat (areaSize l.unprotected)) := by
    rw [← List.length_append]
    refine @pair_append _ _ (l.unprotected.flatMap Entry.bytes ++ l.after) _ _ ?_
    rw [image, areaBytes]
    simp only [List.append_assoc]
  have hfrom : TlvArea.parseFrom l.image l.before.length l.protectedBytes.length infoMagic
      (UInt16.ofNat (areaSize l.unprotected)) = .ok l.area := by
    have hlen : l.image.length = l.before.length + (l.protectedBytes.length
        + (areaSize l.unprotected + l.after.length)) := by
      simp only [image, List.length_append, length_areaBytes]
    have hto : (UInt16.ofNat (areaSize l.unprotected)).toNat = areaSize l.unprotected :=
      UInt16.toNat_ofNat_of_lt' l.unprotectedFits
    unfold TlvArea.parseFrom
    rw [if_neg (by simp)]
    simp only [hto]
    rw [if_neg (by omega)]
    rfl
  unfold TlvArea.parse
  rw [hoff, hprotect]
  change (pair l.image l.before.length >>= fun x => _) = _
  cases harea : l.protectedArea with
  | none =>
    have hnil : l.protectedBytes = [] := by rw [protectedBytes, harea]; rfl
    rw [hnil] at hsecond hfrom ⊢
    rw [List.length_nil, Nat.add_zero] at hsecond
    rw [hsecond]
    exact hfrom
  | some entries =>
    have hbytes : l.protectedBytes = areaBytes protInfoMagic entries := by
      rw [protectedBytes, harea]
      rfl
    have hto : (UInt16.ofNat (areaSize entries)).toNat = areaSize entries :=
      UInt16.toNat_ofNat_of_lt' (l.protectedFits entries harea)
    have hfirst : pair l.image l.before.length
        = .ok (protInfoMagic, UInt16.ofNat (areaSize entries)) := by
      refine @pair_append _ _ (entries.flatMap Entry.bytes
        ++ (areaBytes infoMagic l.unprotected ++ l.after)) _ _ ?_
      rw [image, hbytes, areaBytes]
      simp only [List.append_assoc]
    rw [hfirst]
    change (if l.protectedBytes.length ≠ (UInt16.ofNat (areaSize entries)).toNat then _ else _) = _
    rw [if_neg (by rw [hto, hbytes, length_areaBytes]; simp), hsecond]
    exact hfrom

theorem area_iter_unprotected (h : l.protectedArea = none) :
    l.area.iter = l.tlvs.map .ok := by
  have hnil : l.protectedBytes = [] := by rw [protectedBytes, h]; rfl
  have hlen : (l.before ++ u16ToLe infoMagic ++ u16ToLe (UInt16.ofNat (areaSize l.unprotected))).length
      = l.before.length + tlvInfoSize := by
    simp only [List.length_append, length_u16ToLe]
    rfl
  have hwalk := @TlvArea.iterFrom_entries l.area false l.after l.unprotected
    (l.before ++ u16ToLe infoMagic ++ u16ToLe (UInt16.ofNat (areaSize l.unprotected)))
    (by
      change l.image = _
      rw [image, hnil, areaBytes]
      simp only [List.append_assoc, List.nil_append])
    (fun e he => by
      have hvalue := Entry.value_le_of_mem he
      have hfits := l.unprotectedFits
      rw [areaSize] at hfits
      omega)
    (by rw [hlen]; change _ ≤ _ + _ + areaSize _; rw [areaSize]; omega)
    (fun h => nomatch h)
    (fun _ => by
      rw [hlen]
      change _ + _ < _
      rw [hnil, tlvInfoSize, List.length_nil]
      omega)
  rw [hlen] at hwalk
  rw [TlvArea.iter]
  refine hwalk.trans ?_
  rw [TlvArea.iterFrom_done (by
    change _ + _ + areaSize _ ≤ _
    rw [hnil, areaSize, List.length_nil]
    omega), List.append_nil, tlvs, h]
  rfl

variable {entries : List Entry}

theorem protectedBytes_some (h : l.protectedArea = some entries) :
    l.protectedBytes = areaBytes protInfoMagic entries := by
  rw [protectedBytes, h]
  rfl

/-- The entries of a protected area, and what the iterator yields after it. -/
theorem area_iter_protected (h : l.protectedArea = some entries) :
    l.area.iter = (entries.map (Entry.tlv true)).map .ok ++ l.area.iterFrom l.area.protEnd := by
  have hbytes := l.protectedBytes_some h
  have hlen : (l.before ++ u16ToLe protInfoMagic ++ u16ToLe (UInt16.ofNat (areaSize entries))).length
      = l.before.length + tlvInfoSize := by
    simp only [List.length_append, length_u16ToLe]
    rfl
  have hprot : l.area.protEnd = l.before.length + areaSize entries := by
    change _ + _ = _
    rw [hbytes, length_areaBytes]
  have hend : l.area.endOff = l.area.protEnd + areaSize l.unprotected := rfl
  have hsize : areaSize entries = tlvInfoSize + (entries.flatMap Entry.bytes).length := rfl
  have hwalk := @TlvArea.iterFrom_entries l.area true (areaBytes infoMagic l.unprotected ++ l.after) entries
    (l.before ++ u16ToLe protInfoMagic ++ u16ToLe (UInt16.ofNat (areaSize entries)))
    (by
      change l.image = _
      rw [image, hbytes, areaBytes]
      simp only [List.append_assoc])
    (fun e he => by
      have hvalue := Entry.value_le_of_mem he
      have hfits := l.protectedFits entries h
      omega)
    (by rw [hlen]; omega)
    (fun _ => by rw [hlen]; omega)
    (fun h => nomatch h)
  rw [hlen] at hwalk
  rw [TlvArea.iter]
  refine hwalk.trans ?_
  rw [hprot, hsize, ← Nat.add_assoc]

theorem protEnd_ne_start (h : l.protectedArea = some entries) : l.area.protEnd ≠ l.area.start := by
  change l.before.length + l.protectedBytes.length ≠ l.before.length
  rw [l.protectedBytes_some h, length_areaBytes, areaSize, tlvInfoSize]
  omega

/-- The entries after the second info header, when there are any. -/
theorem area_iterFrom_protEnd (h : l.protectedArea = some entries) (hne : l.unprotected ≠ []) :
    l.area.iterFrom l.area.protEnd = (l.unprotected.map (Entry.tlv false)).map .ok := by
  have hend : l.area.endOff = l.area.protEnd + areaSize l.unprotected := rfl
  have hsize : areaSize l.unprotected = tlvInfoSize + (l.unprotected.flatMap Entry.bytes).length := rfl
  have hfour : entrySize = 4 := rfl
  have hinfo : tlvInfoSize = 4 := rfl
  obtain ⟨e, he⟩ := List.exists_mem_of_ne_nil _ hne
  have hsome := Entry.value_le_of_mem he
  have hlen : (l.before ++ l.protectedBytes ++ u16ToLe infoMagic
      ++ u16ToLe (UInt16.ofNat (areaSize l.unprotected))).length = l.area.protEnd + tlvInfoSize := by
    simp only [List.length_append, length_u16ToLe]
    rfl
  have hwalk := @TlvArea.iterFrom_entries l.area false l.after l.unprotected
    (l.before ++ l.protectedBytes ++ u16ToLe infoMagic
      ++ u16ToLe (UInt16.ofNat (areaSize l.unprotected)))
    (by
      change l.image = _
      rw [image, areaBytes]
      simp only [List.append_assoc])
    (fun d hd => by
      have hvalue := Entry.value_le_of_mem hd
      have hfits := l.unprotectedFits
      omega)
    (by rw [hlen]; omega)
    (fun h => nomatch h)
    (fun _ => by rw [hlen]; omega)
  rw [hlen] at hwalk
  rw [TlvArea.iterFrom_protEnd (l.protEnd_ne_start h) (by omega), hwalk,
    TlvArea.iterFrom_done (by omega), List.append_nil]

/-- The iterator yields a layout's entries, and nothing else exactly when no empty area follows a
protected one. -/
theorem area_iter_iff :
    l.area.iter = l.tlvs.map .ok ↔ l.protectedArea = none ∨ l.unprotected ≠ [] := by
  cases h : l.protectedArea with
  | none => exact iff_of_true (l.area_iter_unprotected h) (.inl rfl)
  | some entries =>
    have htlvs : l.tlvs.map (Except.ok : Tlv → Except TlvError Tlv)
        = (entries.map (Entry.tlv true)).map .ok ++ (l.unprotected.map (Entry.tlv false)).map .ok := by
      rw [tlvs, h, Option.getD_some, List.map_append]
    rw [l.area_iter_protected h, htlvs, List.append_cancel_left_eq]
    constructor
    · intro heq
      right
      intro hnil
      have hend : l.area.endOff = l.area.protEnd + tlvInfoSize := by
        change _ + areaSize _ = _
        rw [hnil]
        rfl
      rw [TlvArea.iterFrom_protEnd_empty (l.protEnd_ne_start h) hend, hnil] at heq
      cases heq
    · rintro (hnone | hne)
      · cases hnone
      · exact l.area_iterFrom_protEnd h hne

theorem area_find (h : l.area.iter = l.tlvs.map .ok) (kind : UInt16) :
    l.area.find kind = (l.tlvs.find? fun tlv => tlv.kind = kind).map Tlv.value := by
  rw [TlvArea.find, h, mapWhileOk_map_ok]

/-- What `parse`, the iterator and `find` make of a laid-out image. -/
theorem reads_back_iff (h : l.HasHeader header) :
    (∃ area, TlvArea.parse l.image header = .ok area ∧ area.iter = l.tlvs.map .ok ∧
        ∀ kind, area.find kind = (l.tlvs.find? fun tlv => tlv.kind = kind).map Tlv.value) ↔
      l.protectedArea = none ∨ l.unprotected ≠ [] := by
  rw [← l.area_iter_iff]
  constructor
  · rintro ⟨area, hparse, hiter, -⟩
    rw [l.parse_image h] at hparse
    cases hparse
    exact hiter
  · intro hiter
    exact ⟨l.area, l.parse_image h, hiter, l.area_find hiter⟩

end Layout

/-- A protected entry of two bytes and an empty unprotected one. -/
def twoAreas : Layout where
  before := List.replicate 32 0
  protectedArea := some [⟨0x50, [0xaa, 0xbb]⟩]
  unprotected := [⟨0x10, []⟩]
  after := []
  protectedFits := by rintro _ ⟨⟩; decide
  unprotectedFits := by decide

theorem Layout.reads_back_iff_twoAreas :
    ∃ area, TlvArea.parse twoAreas.image ⟨0x96f3b83d, 0, 32, 10, 0, 0, ⟨0, 0, 0, 0⟩, 0⟩ = .ok area ∧
      area.iter = [.ok ⟨0x50, [0xaa, 0xbb], true⟩, .ok ⟨0x10, [], false⟩] ∧
        ∀ kind, area.find kind = (twoAreas.tlvs.find? fun tlv => tlv.kind = kind).map Tlv.value :=
  (twoAreas.reads_back_iff ⟨by decide, by decide⟩).mpr (.inr (by decide))

/-- A protected entry, and after it an area that is its info header alone. -/
def noUnprotected : Layout where
  before := List.replicate 32 0
  protectedArea := some [⟨0x50, [0xaa, 0xbb]⟩]
  unprotected := []
  after := []
  protectedFits := by rintro _ ⟨⟩; decide
  unprotectedFits := by decide

theorem noUnprotected_yields_error :
    noUnprotected.HasHeader ⟨0x96f3b83d, 0, 32, 10, 0, 0, ⟨0, 0, 0, 0⟩, 0⟩ ∧
      ∃ area, TlvArea.parse noUnprotected.image ⟨0x96f3b83d, 0, 32, 10, 0, 0, ⟨0, 0, 0, 0⟩, 0⟩
          = .ok area ∧
        area.iter = [.ok ⟨0x50, [0xaa, 0xbb], true⟩, .error .truncated] ∧
          area.iter ≠ noUnprotected.tlvs.map .ok := by
  refine ⟨⟨by decide, by decide⟩, noUnprotected.area, by decide, ?_, ?_⟩
  · rw [noUnprotected.area_iter_protected rfl,
      TlvArea.iterFrom_protEnd_empty (noUnprotected.protEnd_ne_start rfl) rfl]
    rfl
  · rw [Ne, noUnprotected.area_iter_iff]
    decide

end Bristlemouth.Mcuboot
