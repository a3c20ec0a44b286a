import Bristlemouth.Dfu.Client
import Bristlemouth.Mcuboot.Pending

/-!
# What the client accepts into a slot

The client holds an offer against the size of the slot. The trailer at the end
of the slot is no part of that: an image may be accepted that ends above
`swap_info`.
-/

set_option autoImplicit false

namespace Bristlemouth.Mcuboot

open Dfu

/-- The update slot as the client's environment, with what the client has sent. -/
structure SlotFx (program : UInt8 → UInt8 → UInt8) where
  trailer : Trailer
  memory : SlotMemory program
  sha : UInt32
  sent : List DfuMessage

variable {program : UInt8 → UInt8 → UInt8}

/-- `DevkitSlot` of `slot.rs`: the slot's own size is its answer, and its flash works. -/
instance : Effects (SlotFx program) where
  send fx message := { fx with sent := fx.sent ++ [message] }
  lpmPeripheralActive fx := fx
  lpmPeripheralInactive fx := fx
  updateFinished fx _ _ _ := fx
  flashOpen fx := (true, fx)
  flashClose fx := (true, fx)
  flashSize fx := (fx.trailer.slotSize, fx)
  flashErase fx offset len := (true, { fx with memory := ((Flash.erase offset len : FlashM _ Unit) fx.memory).2 })
  flashWrite fx offset data := (true, { fx with memory := ((Flash.write offset data : FlashM _ Unit) fx.memory).2 })
  hostGetChunk fx _ len := ((false, zeroChunk len), fx)
  setConfirmed fx := fx
  setPendingAndReset fx := { fx with memory := (setPending fx.trailer false fx.memory).2 }
  failUpdateAndReset fx := fx
  gitSha fx := fx.sha
  confirmKey fx := (none, fx)
  setConfirmKey fx _ := fx
  commitConfig fx := (true, fx)

variable (program) in
/-- An offer of an image of the size is answered with an acknowledgement. -/
def Acknowledges (t : Trailer) (imageSize : UInt32) : Prop :=
  ∃ (d : Dfu Client (SlotFx program)) (addresses : DfuAddress) (info : ImgInfo),
    d.fx.trailer = t ∧ d.core.current.body.bind Client.offerOf = some (addresses, info) ∧ info.imageSize = imageSize ∧
      ∃ ack : DfuResult, ack.success = 1 ∧ (Client.processUpdateRequest d).fx.sent = d.fx.sent ++ [.ack ack]

variable (program) in
/-- Whatever an image of the length holds, it becomes pending unharmed. -/
def Survives (t : Trailer) (length : Nat) : Prop :=
  ∀ (image : Bytes) (permanent : Bool) (m : SlotMemory program), image.length = length →
    m.bytes.length = t.slotSize.toNat →
      ∃ slot, installPending t image permanent m = (.ok (), slot) ∧ PendingIntact t image slot

theorem openSlot_sent (d : Dfu Client (SlotFx program)) (info : ImgInfo) :
    ∃ ack : DfuResult, (Client.openSlot d info).fx.sent = d.fx.sent ++ [.ack ack] ∧
      (ack.success = 1 ↔ info.imageSize < d.fx.trailer.slotSize) := by
  rw [Client.openSlot]
  dsimp only [Effects.flashOpen, Effects.flashSize, Effects.flashErase]
  rw [if_neg (by simp)]
  split
  · rename_i hlarge
    exact ⟨_, rfl, by simp [UInt32.not_lt.mpr hlarge]⟩
  · rename_i hfits
    rw [if_neg (by simp)]
    exact ⟨_, rfl, by simp [UInt32.not_le.mp hfits]⟩

/-- The offer is held against the whole slot. -/
theorem acknowledges_iff (t : Trailer) (imageSize : UInt32) :
    Acknowledges program t imageSize ↔ imageSize < t.slotSize := by
  constructor
  · rintro ⟨d, addresses, info, rfl, hoffer, rfl, ack, hsuccess, hsent⟩
    rw [Client.processUpdateRequest, hoffer] at hsent
    dsimp only at hsent
    split at hsent
    · have hack := List.append_cancel_left hsent
      cases hack
      cases hsuccess
    · split at hsent
      · have hack := List.append_cancel_left hsent
        cases hack
      · obtain ⟨ack', hsent', hiff⟩ := openSlot_sent (_ : Dfu Client (SlotFx program)) info
        rw [hsent'] at hsent
        have hack := List.append_cancel_left hsent
        cases hack
        exact hiff.mp hsuccess
  · intro hfits
    let offer : DfuStart := ⟨⟨2, 1⟩, ⟨imageSize, 1, 0, 0, 0, 0, 1⟩⟩
    let core := { newCore 1 {} with
      current := ⟨.receivedUpdateRequest, .message (DfuMessage.start offer).toBytes⟩ }
    let d : Dfu Client (SlotFx program) := ⟨core, Client.new, ⟨t, ⟨[]⟩, 0, []⟩⟩
    have hoffer : d.core.current.body.bind Client.offerOf = some (offer.addresses, offer.imgInfo) :=
      Client.offerOf_start offer
    obtain ⟨ack, hsent, hiff⟩ := openSlot_sent (⟨core, { Client.new with
        hostNodeId := 2
        imageSize := imageSize
        numChunks := Client.numChunksOf imageSize 1
        crc16 := 0 }, d.fx⟩ : Dfu Client (SlotFx program)) offer.imgInfo
    refine ⟨d, offer.addresses, offer.imgInfo, rfl, hoffer, rfl, ack, hiff.mpr hfits, ?_⟩
    rw [Client.processUpdateRequest, hoffer]
    exact hsent

/-- An acknowledged image can be made pending without damage exactly when it leaves the trailer its room. -/
theorem acknowledged_survives_iff (hprogram : ∀ b, program erased b = b) (t : Trailer) (imageSize : UInt32) :
    (Acknowledges program t imageSize ↔ imageSize < t.slotSize) ∧
      (Acknowledges program t imageSize →
        (Survives program t imageSize.toNat ↔ imageSize.toNat ≤ t.swapInfoOff.toNat)) := by
  refine ⟨acknowledges_iff t imageSize, fun hacked => ?_⟩
  have hfits := UInt32.lt_iff_toNat_lt.mp ((acknowledges_iff t imageSize).mp hacked)
  exact installPending_intact_iff hprogram t hfits.le

/-- The smallest slot that alignment 16 allows. -/
def smallSlot : Trailer := ⟨80, 16, .inr (.inl rfl), rfl, by decide⟩

/-- An image of all of it but a byte is acknowledged and then written over. -/
theorem acknowledged_not_survives :
    ¬ ∀ (t : Trailer) (imageSize : UInt32), Acknowledges (fun _ new => new) t imageSize →
      Survives (fun _ new => new) t imageSize.toNat := by
  intro h
  have hsurvives := h smallSlot 79 ((acknowledges_iff smallSlot 79).mpr (by decide))
  have hfits := (installPending_intact_iff (fun _ => rfl) smallSlot (n := (79 : UInt32).toNat) (by decide)).mp hsurvives
  exact absurd hfits (by decide)

theorem acknowledged_survives_smallSlot :
    Survives (fun _ new => new) smallSlot 16 ↔ (16 : UInt32).toNat ≤ smallSlot.swapInfoOff.toNat :=
  (acknowledged_survives_iff (fun _ => rfl) smallSlot 16).2 ((acknowledges_iff smallSlot 16).mpr (by decide))

end Bristlemouth.Mcuboot
