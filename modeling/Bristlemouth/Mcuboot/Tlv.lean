import Bristlemouth.Wire.Le

/-!
# The TLV area after an image

`image.rs` and `tlv.rs`: where an image's TLV area starts, how `TlvArea.parse` accepts it, and the
walk of the iterator over its entries, protected ones first.
-/

set_option autoImplicit false

namespace Bristlemouth.Mcuboot

open Bytes

structure Version where
  major : UInt8
  minor : UInt8
  revision : UInt16
  buildNum : UInt32
deriving DecidableEq

structure Header where
  magic : UInt32
  loadAddr : UInt32
  hdrSize : UInt16
  protectTlvSize : UInt16
  imgSize : UInt32
  flags : UInt32
  version : Version
  pad1 : UInt32
deriving DecidableEq

/-- `BOOT_TLV_OFF`. The C wraps; this is `none`. -/
def Header.tlvOff (h : Header) : Option Nat :=
  if h.imgSize.toNat + h.hdrSize.toNat < 2 ^ 32 then some (h.imgSize.toNat + h.hdrSize.toNat)
  else none

def infoMagic : UInt16 := 0x6907

def protInfoMagic : UInt16 := 0x6908

/-- `sizeof(struct image_tlv_info)`. -/
def tlvInfoSize : Nat := 4

/-- `sizeof(struct image_tlv)`. -/
def entrySize : Nat := 4

inductive TlvError where
  | truncated
  | badMagic
  | protectedSize
deriving DecidableEq, Repr

structure Tlv where
  kind : UInt16
  value : Bytes
  isProtected : Bool
deriving DecidableEq

structure TlvArea where
  image : Bytes
  start : Nat
  first : Nat
  protEnd : Nat
  endOff : Nat
deriving DecidableEq

/-- Two little-endian `u16`s at `off`. -/
def pair (bytes : Bytes) (off : Nat) : Except TlvError (UInt16 × UInt16) :=
  if off + 4 ≤ bytes.length then .ok (u16At bytes off, u16At bytes (off + 2))
  else .error .truncated

namespace TlvArea

/-- The part of `parse` after the protected area, if there is one. -/
def parseFrom (image : Bytes) (start protect : Nat) (magic total : UInt16) :
    Except TlvError TlvArea :=
  if magic ≠ infoMagic then .error .badMagic
  else
    let protEnd := start + protect
    let endOff := protEnd + total.toNat
    if image.length < endOff then .error .truncated
    else .ok ⟨image, start, start + tlvInfoSize, protEnd, endOff⟩

def parse (image : Bytes) (header : Header) : Except TlvError TlvArea := do
  let start ← match header.tlvOff with
    | some start => .ok start
    | none => .error .truncated
  let protect := header.protectTlvSize.toNat
  let (magic, total) ← pair image start
  if magic = protInfoMagic then
    if protect ≠ total.toNat then .error .protectedSize
    else
      let (magic, total) ← pair image (start + protect)
      parseFrom image start protect magic total
  else if protect ≠ 0 then .error .protectedSize
  else parseFrom image start protect magic total

variable (area : TlvArea)

/-- The entry whose header is at `off`, and the offset after its value. -/
def entryAt (off : Nat) : Except TlvError (Tlv × Nat) := do
  let valueOff := off + entrySize
  if area.endOff < valueOff then .error .truncated
  else
    let (kind, len) ← pair area.image off
    let valueEnd := valueOff + len.toNat
    if area.endOff < valueEnd then .error .truncated
    else .ok (⟨kind, area.image.slice valueOff len.toNat, decide (off < area.protEnd)⟩, valueEnd)

/-- Past the unprotected area's info header, which sits between the two areas. -/
def skipInfo (off : Nat) : Nat :=
  if area.protEnd ≠ area.start ∧ off = area.protEnd then off + tlvInfoSize else off

/-- `TlvIter::next` at `off`: the item, and the iterator's offset afterwards. -/
def next (off : Nat) : Option (Except TlvError Tlv × Nat) :=
  if area.endOff ≤ off then none
  else
    match area.entryAt (area.skipInfo off) with
    | .ok (tlv, next) => some (.ok tlv, next)
    | .error e => some (.error e, area.endOff)

/-- The offsets the iterator is at, call by call. -/
inductive Walks (area : TlvArea) : Nat → Prop
  | first : Walks area area.first
  | next {off off' : Nat} {item : Except TlvError Tlv} (h : Walks area off)
      (hnext : area.next off = some (item, off')) : Walks area off'

end TlvArea

/-- The entries laid out one after the other from the first one, by their declared lengths. -/
inductive Laid (image : Bytes) (first : Nat) : Nat → Prop
  | first : Laid image first first
  | next {off : Nat} (h : Laid image first off) :
      Laid image first (off + entrySize + (u16At image (off + 2)).toNat)

variable {image : Bytes} {header : Header} {area : TlvArea}

theorem Laid.le {first off : Nat} (h : Laid image first off) : first ≤ off := by
  induction h with
  | first => exact Nat.le_refl _
  | next h ih => omega

theorem TlvArea.parseFrom_ok {start protect : Nat} {magic total : UInt16}
    (h : parseFrom image start protect magic total = .ok area) :
    area.image = image ∧ area.start = start ∧ area.first = start + tlvInfoSize ∧
      area.protEnd = start + protect ∧ area.protEnd ≤ area.endOff ∧
      area.endOff ≤ image.length := by
  unfold parseFrom at h
  simp only at h
  split_ifs at h with hmagic hlen
  cases h
  exact ⟨rfl, rfl, rfl, rfl, Nat.le_add_right .., Nat.le_of_not_lt hlen⟩

/-- What `parse` accepts. -/
theorem TlvArea.parse_ok (h : parse image header = .ok area) :
    area.image = image ∧ header.tlvOff = some area.start ∧
      area.first = area.start + tlvInfoSize ∧
      area.protEnd = area.start + header.protectTlvSize.toNat ∧ area.protEnd ≤ area.endOff ∧
      area.endOff ≤ image.length := by
  unfold parse at h
  cases hoff : header.tlvOff with
  | none =>
    rw [hoff] at h
    cases h
  | some start =>
    have hfrom : ∃ magic total, parseFrom image start header.protectTlvSize.toNat magic total
        = .ok area := by
      rw [hoff] at h
      change (pair image start >>= fun x => _) = _ at h
      cases hpair : pair image start with
      | error e =>
        rw [hpair] at h
        cases h
      | ok mt =>
        rw [hpair] at h
        change (if mt.1 = protInfoMagic then _ else _) = _ at h
        split_ifs at h
        · cases hpair' : pair image (start + header.protectTlvSize.toNat) with
          | error e =>
            rw [hpair'] at h
            cases h
          | ok mt' =>
            rw [hpair'] at h
            exact ⟨mt'.1, mt'.2, h⟩
        · exact ⟨mt.1, mt.2, h⟩
    obtain ⟨magic, total, hfrom⟩ := hfrom
    obtain ⟨himage, hstart, hfirst, hprot, hle, hend⟩ := parseFrom_ok hfrom
    exact ⟨himage, congrArg some hstart.symm, by rw [hfirst, hstart], by rw [hprot, hstart], hle, hend⟩

/-- An entry that is yielded: where it lies, and what it says of itself. -/
theorem TlvArea.entryAt_ok {off stop : Nat} {tlv : Tlv} (h : area.entryAt off = .ok (tlv, stop))
    (hend : area.endOff ≤ area.image.length) :
    stop = off + entrySize + (u16At area.image (off + 2)).toNat ∧ stop ≤ area.endOff ∧
      tlv.value.length = (u16At area.image (off + 2)).toNat ∧
      tlv.isProtected = decide (off < area.protEnd) := by
  unfold entryAt at h
  simp only at h
  split_ifs at h with hfit
  unfold pair at h
  split_ifs at h with hpair
  · change (if area.endOff < off + entrySize + (u16At area.image (off + 2)).toNat then _ else _)
      = _ at h
    split_ifs at h with hvalue
    have hstop : off + entrySize + (u16At area.image (off + 2)).toNat ≤ area.endOff :=
      Nat.le_of_not_lt hvalue
    cases h
    exact ⟨rfl, hstop, length_slice (hstop.trans hend), rfl⟩
  · cases h

theorem TlvArea.entryAt_of_fits {off : Nat} (hend : area.endOff ≤ area.image.length)
    (hfit : off + entrySize + (u16At area.image (off + 2)).toNat ≤ area.endOff) :
    ∃ tlv, area.entryAt off
      = .ok (tlv, off + entrySize + (u16At area.image (off + 2)).toNat) := by
  have hfour : entrySize = 4 := rfl
  refine ⟨⟨u16At area.image off, area.image.slice (off + entrySize)
    (u16At area.image (off + 2)).toNat, decide (off < area.protEnd)⟩, ?_⟩
  unfold entryAt
  simp only [if_neg (show ¬ area.endOff < off + entrySize by omega), pair,
    if_pos (show off + 4 ≤ area.image.length by omega)]
  exact if_neg (Nat.not_lt.mpr hfit)

theorem TlvArea.next_eq_ok {off stop : Nat} {tlv : Tlv} :
    area.next off = some (.ok tlv, stop) ↔
      off < area.endOff ∧ area.entryAt (area.skipInfo off) = .ok (tlv, stop) := by
  unfold next
  by_cases hdone : area.endOff ≤ off
  · simp [hdone]
  · rw [if_neg hdone]
    cases hentry : area.entryAt (area.skipInfo off) with
    | ok x => simp [Nat.lt_of_not_le hdone, Prod.ext_iff]
    | error e => simp

theorem TlvArea.skipInfo_of_lt {off : Nat} (h : off < area.protEnd) : area.skipInfo off = off :=
  if_neg fun hskip => absurd hskip.2 (by omega)

theorem TlvArea.le_skipInfo (off : Nat) : off ≤ area.skipInfo off := by
  unfold skipInfo
  split_ifs <;> omega

/-- Inside the protected area the iterator is where the entries are laid out. -/
theorem TlvArea.walks_laid {off : Nat} (hle : area.protEnd ≤ area.endOff)
    (hend : area.endOff ≤ area.image.length) (h : area.Walks off) (hlt : off < area.protEnd) :
    Laid area.image area.first off := by
  induction h with
  | first => exact .first
  | @next off off' item h hnext ih =>
    cases item with
    | error e =>
      unfold next at hnext
      split_ifs at hnext
      cases hentry : area.entryAt (area.skipInfo off) with
      | ok x => simp [hentry] at hnext
      | error e' =>
        simp only [hentry, Option.some.injEq, Prod.mk.injEq] at hnext
        omega
    | ok tlv =>
      obtain ⟨-, hentry⟩ := next_eq_ok.mp hnext
      obtain ⟨hstop, -, -, -⟩ := entryAt_ok hentry hend
      have hskip := area.le_skipInfo off
      have hoff : off < area.protEnd := by omega
      rw [skipInfo_of_lt hoff] at hstop
      rw [hstop]
      exact .next (ih hoff)

/-- Every laid-out entry that begins inside the protected area is reached. -/
theorem TlvArea.laid_walks {off : Nat} (hle : area.protEnd ≤ area.endOff)
    (hend : area.endOff ≤ area.image.length) (h : Laid area.image area.first off)
    (hlt : off < area.protEnd) : area.Walks off := by
  induction h with
  | first => exact .first
  | @next off h ih =>
    have hoff : off < area.protEnd := by omega
    have hfit : off + entrySize + (u16At area.image (off + 2)).toNat ≤ area.endOff := by omega
    obtain ⟨tlv, hentry⟩ := entryAt_of_fits hend hfit
    have hnext : area.next off
        = some (.ok tlv, off + entrySize + (u16At area.image (off + 2)).toNat) := by
      rw [next_eq_ok, skipInfo_of_lt hoff]
      exact ⟨by omega, hentry⟩
    exact .next (ih hoff) hnext

/-- A yielded value is the slice that its entry, which lies in the image, declares. -/
def Tlv.IsAt (tlv : Tlv) (image : Bytes) (off : Nat) : Prop :=
  off + entrySize + (u16At image (off + 2)).toNat ≤ image.length ∧ tlv.kind = u16At image off ∧
    tlv.value = image.slice (off + entrySize) (u16At image (off + 2)).toNat

instance (tlv : Tlv) (image : Bytes) (off : Nat) : Decidable (tlv.IsAt image off) := by
  unfold Tlv.IsAt
  infer_instance

theorem TlvArea.isAt_of_entryAt {off stop : Nat} {tlv : Tlv} (h : area.entryAt off = .ok (tlv, stop))
    (hend : area.endOff ≤ area.image.length) : tlv.IsAt area.image off ∧ off < stop := by
  obtain ⟨hstop, hfit, -, -⟩ := entryAt_ok h hend
  have hfour : entrySize = 4 := rfl
  refine ⟨⟨by omega, ?_⟩, by omega⟩
  obtain ⟨tlv', hentry⟩ := entryAt_of_fits hend (hstop ▸ hfit)
  unfold entryAt at h
  simp only at h
  split_ifs at h with hroom
  unfold pair at h
  split_ifs at h with hpair
  · change (if area.endOff < off + entrySize + (u16At area.image (off + 2)).toNat then _ else _)
      = _ at h
    split_ifs at h
    cases h
    exact ⟨rfl, rfl⟩
  · cases h

/-- An entry that ends at `stop` keeps to its own area. -/
def InOwnArea (area : TlvArea) (tlv : Tlv) (stop : Nat) : Prop :=
  if tlv.isProtected then
    area.start + (entrySize + tlv.value.length) ≤ stop ∧ stop ≤ area.protEnd
  else area.protEnd + (entrySize + tlv.value.length) ≤ stop

instance (area : TlvArea) (tlv : Tlv) (stop : Nat) : Decidable (InOwnArea area tlv stop) := by
  unfold InOwnArea
  infer_instance

/-- Every yielded entry is the image's at the place where it ends and keeps to its own area, exactly when every
entry laid out from inside the protected area that ends inside the whole area also ends inside the protected one. -/
theorem inOwnArea_iff (hparse : TlvArea.parse image header = .ok area) :
    (∀ off, area.Walks off → ∀ tlv stop, area.next off = some (.ok tlv, stop) →
        tlv.IsAt image (stop - (entrySize + tlv.value.length)) ∧ InOwnArea area tlv stop) ↔
      ∀ off, Laid image area.first off → off < area.protEnd →
        off + entrySize + (u16At image (off + 2)).toNat ≤ area.endOff →
        off + entrySize + (u16At image (off + 2)).toNat ≤ area.protEnd := by
  obtain ⟨himage, -, hfirst, hprot, hle, hend⟩ := TlvArea.parse_ok hparse
  rw [← himage] at hend ⊢
  constructor
  · intro hown off hlaid hlt hfit
    have hwalks := TlvArea.laid_walks hle hend hlaid hlt
    obtain ⟨tlv, hentry⟩ := TlvArea.entryAt_of_fits hend hfit
    have hnext : area.next off
        = some (.ok tlv, off + entrySize + (u16At area.image (off + 2)).toNat) := by
      rw [TlvArea.next_eq_ok, TlvArea.skipInfo_of_lt hlt]
      exact ⟨by omega, hentry⟩
    have harea := (hown off hwalks tlv _ hnext).2
    have hflag := (TlvArea.entryAt_ok hentry hend).2.2.2
    rw [decide_eq_true hlt] at hflag
    rw [InOwnArea, if_pos hflag] at harea
    exact harea.2
  · intro hlaid off hwalks tlv stop hnext
    obtain ⟨hlt, hentry⟩ := TlvArea.next_eq_ok.mp hnext
    obtain ⟨hstop, hfit, hlen, hflag⟩ := TlvArea.entryAt_ok hentry hend
    have hskip := area.le_skipInfo off
    have hentryOff : stop - (entrySize + tlv.value.length) = area.skipInfo off := by omega
    refine ⟨hentryOff ▸ (TlvArea.isAt_of_entryAt hentry hend).1, ?_⟩
    rw [InOwnArea]
    by_cases hin : area.skipInfo off < area.protEnd
    · have hoff : off < area.protEnd := by omega
      rw [hflag, decide_eq_true hin, if_pos rfl]
      rw [TlvArea.skipInfo_of_lt hoff] at hstop hlen
      have hkept := TlvArea.walks_laid hle hend hwalks hoff
      have hstart := hkept.le
      exact ⟨by omega, by rw [hstop] at hfit ⊢; exact hlaid off hkept hoff hfit⟩
    · rw [hflag, decide_eq_false hin, if_neg (by simp)]
      omega

/-- A protected area of ten bytes that its only entry fills. -/
def filledImage : Bytes :=
  List.replicate 32 0 ++ [0x08, 0x69, 0x0a, 0x00, 0x50, 0x00, 0x02, 0x00, 0xaa, 0xbb] ++
    [0x07, 0x69, 0x08, 0x00, 0x10, 0x00, 0x00, 0x00]

def filledHeader : Header := ⟨0x96f3b83d, 0, 32, 10, 0, 0, ⟨0, 0, 0, 0⟩, 0⟩

theorem inOwnArea_iff_filled :
    TlvArea.parse filledImage filledHeader = .ok ⟨filledImage, 32, 36, 42, 50⟩ ∧
      (TlvArea.mk filledImage 32 36 42 50).next 36 = some (.ok ⟨0x50, [0xaa, 0xbb], true⟩, 42) ∧
      ∀ off, (TlvArea.mk filledImage 32 36 42 50).Walks off →
        ∀ tlv stop, (TlvArea.mk filledImage 32 36 42 50).next off = some (.ok tlv, stop) →
          tlv.IsAt filledImage (stop - (entrySize + tlv.value.length)) ∧
            InOwnArea (TlvArea.mk filledImage 32 36 42 50) tlv stop := by
  have hlaid : ∀ off, Laid filledImage 36 off → off = 36 ∨ 42 ≤ off := by
    intro off h
    induction h with
    | first => exact .inl rfl
    | next h ih =>
      rcases ih with rfl | hle
      · exact .inr (by decide)
      · exact .inr (by omega)
  have hparse : TlvArea.parse filledImage filledHeader = .ok ⟨filledImage, 32, 36, 42, 50⟩ := by decide
  refine ⟨hparse, by decide, (inOwnArea_iff hparse).mpr ?_⟩
  intro off h hlt _
  rcases hlaid off h with rfl | hle
  · decide
  · exact absurd hlt (Nat.not_lt.mpr hle)

/-- A protected area of ten bytes whose only entry claims four bytes where two are left. -/
def overrunImage : Bytes :=
  List.replicate 32 0 ++ [0x08, 0x69, 0x0a, 0x00, 0x50, 0x00, 0x04, 0x00, 0xaa, 0xbb] ++
    [0x07, 0x69, 0x0c, 0x00, 0x10, 0x00, 0x00, 0x00, 0x10, 0x00, 0x00, 0x00]

def overrunHeader : Header := ⟨0x96f3b83d, 0, 32, 10, 0, 0, ⟨0, 0, 0, 0⟩, 0⟩

theorem overrun_not_inOwnArea : ∃ area, TlvArea.parse overrunImage overrunHeader = .ok area ∧
    ∃ off tlv stop, area.Walks off ∧ area.next off = some (.ok tlv, stop) ∧
      tlv.isProtected = true ∧ ¬ InOwnArea area tlv stop :=
  ⟨⟨overrunImage, 32, 36, 42, 54⟩, by decide, 36, ⟨0x50, [0xaa, 0xbb, 0x07, 0x69], true⟩, 44,
    .first, by decide, rfl, by decide⟩

end Bristlemouth.Mcuboot
