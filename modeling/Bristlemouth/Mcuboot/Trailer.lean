import Bristlemouth.Wire.Le
import Mathlib.Tactic.IntervalCases

/-!
# The MCUboot trailer

`trailer.rs`: where the fields at the end of a slot are, how they are read, and
`boot_set_pending` and `boot_set_confirmed`.
-/

set_option autoImplicit false

namespace Bristlemouth.Mcuboot

def magicSize : Nat := 16
def erased : UInt8 := 0xFF
def flagSet : UInt8 := 1

/-- The magic of alignment 8. -/
def magicAlign8 : Bytes :=
  [0x77, 0xc2, 0x95, 0xf3, 0x60, 0xd2, 0xef, 0x7f, 0x35, 0x52, 0x50, 0x0f, 0x2c, 0xb6, 0x79, 0x80]

/-- The magic of the other alignments, after the alignment itself. -/
def magicTail : Bytes :=
  [0x2d, 0xe1, 0x5d, 0x29, 0x41, 0x0b, 0x8d, 0x77, 0x67, 0x9c, 0x11, 0x0f, 0x1f, 0x8a]

inductive Error where
  | flash
  | badImage
  | badVect
deriving DecidableEq, Repr

/-- A computation on a slot's flash: what fails keeps what was done before it. -/
abbrev FlashM (F : Type) := ExceptT Error (StateM F)

theorem FlashM.bind_ok {F α β : Type} {x : FlashM F α} {f : α → FlashM F β} {s s' : F} {a : α}
    (h : x s = (.ok a, s')) : (x >>= f) s = f a s' := by
  change (StateT.bind x (ExceptT.bindCont f)) s = f a s'
  simp only [StateT.bind, bind]
  rw [h]
  rfl

theorem FlashM.bind_error {F α β : Type} {x : FlashM F α} {f : α → FlashM F β} {s s' : F} {e : Error}
    (h : x s = (.error e, s')) : (x >>= f) s = (.error e, s') := by
  change (StateT.bind x (ExceptT.bindCont f)) s = (.error e, s')
  simp only [StateT.bind, bind]
  rw [h]
  rfl

/-- One slot's flash. Offsets are from the start of the slot. -/
class Flash (F : Type) where
  read : UInt32 → Nat → FlashM F Bytes
  write : UInt32 → Bytes → FlashM F Unit
  erase : UInt32 → UInt32 → FlashM F Unit

/-! ### Geometry -/

def magicAlignSize (align : UInt32) : UInt32 := if align > 16 then align else 16

/-- Everything below the swap status. -/
def infoSize (align : UInt32) : UInt32 := align * 4 + magicAlignSize align

/-- A slot that holds its trailer. -/
structure Trailer where
  slotSize : UInt32
  align : UInt32
  align_eq : align = 8 ∨ align = 16 ∨ align = 32
  align_dvd : slotSize % align = 0
  infoSize_le : ¬ slotSize < infoSize align
deriving DecidableEq

namespace Trailer

def new (slotSize align : UInt32) : Option Trailer :=
  if ha : align = 8 ∨ align = 16 ∨ align = 32 then
    if hd : slotSize % align = 0 then
      if hi : slotSize < infoSize align then none
      else some ⟨slotSize, align, ha, hd, hi⟩
    else none
  else none

def magicOff (t : Trailer) : UInt32 := t.slotSize - 16

def imageOkOff (t : Trailer) : UInt32 := (t.magicOff - t.align) &&& ~~~(t.align - 1)

def copyDoneOff (t : Trailer) : UInt32 := t.imageOkOff - t.align

def swapInfoOff (t : Trailer) : UInt32 := t.copyDoneOff - t.align

def swapSizeOff (t : Trailer) : UInt32 := t.swapInfoOff - t.align

def magic (t : Trailer) : Bytes :=
  if t.align = 8 then magicAlign8 else u16ToLe t.align.toUInt16 ++ magicTail

/-! The offsets as numbers, from the end of the slot. -/

variable (t : Trailer)

/-- The alignment in numbers, with the space the magic takes. -/
theorem align_cases :
    (t.align.toNat = 8 ∧ (magicAlignSize t.align).toNat = 16) ∨
    (t.align.toNat = 16 ∧ (magicAlignSize t.align).toNat = 16) ∨
    (t.align.toNat = 32 ∧ (magicAlignSize t.align).toNat = 32) := by
  rcases t.align_eq with h | h | h
  · rw [h]; exact .inl (by decide)
  · rw [h]; exact .inr (.inl (by decide))
  · rw [h]; exact .inr (.inr (by decide))

theorem dvd_slotSize : t.slotSize.toNat % t.align.toNat = 0 := by
  have h := congrArg UInt32.toNat t.align_dvd
  rwa [UInt32.toNat_mod] at h

theorem infoSize_le_slotSize :
    4 * t.align.toNat + (magicAlignSize t.align).toNat ≤ t.slotSize.toNat := by
  have h := t.infoSize_le
  rw [UInt32.lt_iff_toNat_lt] at h
  have hsum : (infoSize t.align).toNat = 4 * t.align.toNat + (magicAlignSize t.align).toNat := by
    rcases t.align_eq with h | h | h <;> rw [h] <;> decide
  omega

theorem toNat_mask (x : UInt32) : (x &&& ~~~(t.align - 1)).toNat = x.toNat - x.toNat % t.align.toNat := by
  rw [toNat_and_not]
  congr 1
  rw [UInt32.toNat_and]
  rcases t.align_eq with h | h | h <;> rw [h]
  · exact Nat.and_two_pow_sub_one_eq_mod _ 3
  · exact Nat.and_two_pow_sub_one_eq_mod _ 4
  · exact Nat.and_two_pow_sub_one_eq_mod _ 5

theorem toNat_magicOff : t.magicOff.toNat + 16 = t.slotSize.toNat := by
  have h := t.infoSize_le_slotSize
  have ha := t.align_cases
  have h16 : (16 : UInt32).toNat = 16 := rfl
  have hsub : t.magicOff.toNat = t.slotSize.toNat - (16 : UInt32).toNat :=
    toNat_sub_of_toNat_le (by omega)
  omega

theorem toNat_padOff :
    (t.magicOff &&& ~~~(t.align - 1)).toNat + (magicAlignSize t.align).toNat = t.slotSize.toNat := by
  have h := t.infoSize_le_slotSize
  have ha := t.align_cases
  have hd := t.dvd_slotSize
  have hm := t.toNat_magicOff
  rw [toNat_mask]
  rcases ha with ⟨ha, hs⟩ | ⟨ha, hs⟩ | ⟨ha, hs⟩ <;> rw [ha] at hd ⊢ <;> rw [hs] <;> omega

theorem toNat_imageOkOff :
    t.imageOkOff.toNat + t.align.toNat + (magicAlignSize t.align).toNat = t.slotSize.toNat := by
  have h := t.infoSize_le_slotSize
  have ha := t.align_cases
  have hd := t.dvd_slotSize
  have hm := t.toNat_magicOff
  have hsub : (t.magicOff - t.align).toNat = t.magicOff.toNat - t.align.toNat :=
    toNat_sub_of_toNat_le (by omega)
  rw [imageOkOff, toNat_mask, hsub]
  rcases ha with ⟨ha, hs⟩ | ⟨ha, hs⟩ | ⟨ha, hs⟩ <;> rw [ha] at h hd ⊢ <;> rw [hs] at h ⊢ <;> omega

theorem toNat_copyDoneOff :
    t.copyDoneOff.toNat + 2 * t.align.toNat + (magicAlignSize t.align).toNat = t.slotSize.toNat := by
  have h := t.infoSize_le_slotSize
  have ho := t.toNat_imageOkOff
  have hsub : t.copyDoneOff.toNat = t.imageOkOff.toNat - t.align.toNat :=
    toNat_sub_of_toNat_le (by omega)
  omega

theorem toNat_swapInfoOff :
    t.swapInfoOff.toNat + 3 * t.align.toNat + (magicAlignSize t.align).toNat = t.slotSize.toNat := by
  have h := t.infoSize_le_slotSize
  have ho := t.toNat_copyDoneOff
  have hsub : t.swapInfoOff.toNat = t.copyDoneOff.toNat - t.align.toNat :=
    toNat_sub_of_toNat_le (by omega)
  omega

@[simp] theorem length_magic : t.magic.length = magicSize := by
  unfold magic
  split <;> simp [magicAlign8, magicTail, magicSize]

end Trailer

/-! ### Fields -/

inductive Magic where
  | good
  | bad
  | unset
deriving DecidableEq, Repr

inductive Flag where
  | set
  | bad
  | unset
deriving DecidableEq, Repr

inductive SwapType where
  | none
  | test
  | perm
  | revert
deriving DecidableEq, Repr

def SwapType.toUInt8 : SwapType → UInt8
  | .none => 1
  | .test => 2
  | .perm => 3
  | .revert => 4

structure SwapState where
  magic : Magic
  swapType : UInt8
  imageNum : UInt8
  copyDone : Flag
  imageOk : Flag
deriving DecidableEq

def classifyMagic (t : Trailer) (magic : Bytes) : Magic :=
  if magic = List.replicate magicSize erased then .unset
  else if magic = t.magic then .good
  else .bad

/-- The type and the image number of a `swap_info` byte. -/
def classifySwapInfo (swapInfo : UInt8) : UInt8 × UInt8 :=
  if swapInfo = erased ∨ (swapInfo &&& 0x0F) > SwapType.revert.toUInt8 then (SwapType.none.toUInt8, 0)
  else (swapInfo &&& 0x0F, swapInfo >>> 4)

theorem classifyMagic_magic (t : Trailer) : classifyMagic t t.magic = .good := by
  have hne : t.magic ≠ List.replicate magicSize erased := by
    unfold Trailer.magic
    rcases t.align_eq with h | h | h <;> rw [h] <;> decide
  rw [classifyMagic, if_neg hne, if_pos rfl]

def classifyFlag (flag : UInt8) : Flag :=
  if flag = erased then .unset else if flag = flagSet then .set else .bad

section Operations

variable {F : Type} [Flash F]

def readFlag (off : UInt32) : FlashM F Flag := do
  let flag ← Flash.read off 1
  return classifyFlag (flag.byteAt 0)

def readSwapState (t : Trailer) : FlashM F SwapState := do
  let magic ← Flash.read t.magicOff magicSize
  let swapInfo ← Flash.read t.swapInfoOff 1
  let info := classifySwapInfo (swapInfo.byteAt 0)
  let copyDone ← readFlag t.copyDoneOff
  let imageOk ← readFlag t.imageOkOff
  return { magic := classifyMagic t magic, swapType := info.1, imageNum := info.2, copyDone, imageOk }

/-- The magic, preceded by erased bytes to a write boundary. -/
def writeMagic (t : Trailer) : FlashM F Unit :=
  Flash.write (t.magicOff &&& ~~~(t.align - 1))
    (List.replicate ((magicAlignSize t.align).toNat - magicSize) erased ++ t.magic)

/-- One byte, then erased bytes to the alignment. -/
def writeByte (t : Trailer) (off : UInt32) (value : UInt8) : FlashM F Unit :=
  Flash.write off (value :: List.replicate (t.align.toNat - 1) erased)

def setPending (t : Trailer) (permanent : Bool) : FlashM F Unit := do
  let state ← readSwapState t
  match state.magic with
  | .good => return
  | .unset =>
    writeMagic t
    if permanent then
      writeByte t t.imageOkOff flagSet
    let swapType := if permanent then SwapType.perm else SwapType.test
    writeByte t t.swapInfoOff swapType.toUInt8
  | .bad =>
    -- The erase's result is ignored.
    let _ ← (tryCatch (Flash.erase 0 t.slotSize) fun _ => pure () : FlashM F Unit)
    throw .badImage

def setConfirmed (t : Trailer) : FlashM F Unit := do
  let state ← readSwapState t
  match state.magic with
  | .unset => return
  | .bad => throw .badVect
  | .good =>
    if state.imageOk ≠ .unset then
      return
    writeByte t t.imageOkOff flagSet

end Operations

/-- What the bootloader does next, from both slots' trailers. -/
def swapType (primary secondary : SwapState) : SwapType :=
  match secondary.magic, secondary.imageOk with
  | .good, .unset => .test
  | .good, .set => .perm
  | _, _ =>
    if primary.magic = .good ∧ secondary.magic = .unset ∧ primary.imageOk = .unset ∧
        primary.copyDone = .set then .revert
    else .none

end Bristlemouth.Mcuboot
