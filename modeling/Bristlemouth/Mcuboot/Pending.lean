import Bristlemouth.Mcuboot.CrashSafe

/-!
# Making a received image pending

`set_pending` writes the magic, the permanence flag and `swap_info`, all at or
above the offset of `swap_info`. An image that ends there survives it whatever
it holds; a longer one does not.
-/

set_option autoImplicit false

namespace Bristlemouth.Mcuboot

variable {program : UInt8 → UInt8 → UInt8}

/-- An erased slot that an image is then written to, and the request to try it. -/
def installPending (t : Trailer) (image : Bytes) (permanent : Bool) : FlashM (SlotMemory program) Unit := do
  Flash.erase 0 t.slotSize
  Flash.write 0 image
  setPending t permanent

/-- The image is pending and none of its bytes has changed. -/
def PendingIntact (t : Trailer) (image : Bytes) (slot : SlotMemory program) : Prop :=
  (∃ state, (readSwapState t : FlashM (SlotMemory program) SwapState) slot = (.ok state, slot) ∧
    state.magic = .good) ∧
  slot.bytes.slice 0 image.length = image

/-- The slot after an erase and a write of `image` from offset zero. -/
theorem run_install (hprogram : ∀ b, program erased b = b) (t : Trailer) (image : Bytes)
    (himage : image.length ≤ t.slotSize.toNat) (m : SlotMemory program)
    (hlen : m.bytes.length = t.slotSize.toNat) (permanent : Bool) :
    ∃ m' : SlotMemory program, installPending t image permanent m = setPending t permanent m' ∧
      m'.bytes = image ++ List.replicate (t.slotSize.toNat - image.length) erased := by
  have herase : m.bytes.copyAt (0 : UInt32).toNat (List.replicate t.slotSize.toNat erased) =
      List.replicate t.slotSize.toNat erased := by
    change m.bytes.copyAt 0 _ = _
    rw [Bytes.copyAt, List.length_replicate, List.drop_of_length_le (by omega)]
    simp
  refine ⟨_, rfl, ?_⟩
  rw [herase, show (0 : UInt32).toNat = 0 from rfl]
  have hblank : Bytes.slice (List.replicate t.slotSize.toNat erased) 0 image.length =
      List.replicate image.length erased := by
    simp [Bytes.slice, himage]
  rw [SlotMemory.bytes_programAt hprogram _ hblank]
  simp [Bytes.copyAt]

/--
Whatever the image holds, it becomes pending unharmed exactly when it ends at or
below `swap_info`.
-/
theorem installPending_intact_iff (hprogram : ∀ b, program erased b = b) (t : Trailer) {n : Nat}
    (hn : n ≤ t.slotSize.toNat) :
    (∀ (image : Bytes) (permanent : Bool) (m : SlotMemory program), image.length = n →
      m.bytes.length = t.slotSize.toNat →
        ∃ slot, installPending t image permanent m = (.ok (), slot) ∧ PendingIntact t image slot) ↔
      n ≤ t.swapInfoOff.toNat := by
  let _ := SlotMemory.reliable hprogram
  have hinfo := t.toNat_swapInfoOff
  have halign := t.align_cases
  constructor
  · intro h
    by_contra hlong
    -- an image of erased bytes hides `swap_info` from the check and is then written over
    obtain ⟨m', hinstall, hbytes⟩ := run_install hprogram t (List.replicate n erased)
      (by simpa using hn) ⟨List.replicate t.slotSize.toNat erased⟩ (by simp) false
    rw [List.length_replicate, List.replicate_append_replicate, Nat.add_sub_cancel' hn] at hbytes
    obtain ⟨slot, hrun, -, hkept⟩ := h (List.replicate n erased) false
      ⟨List.replicate t.slotSize.toNat erased⟩ (by simp) (by simp)
    obtain ⟨slot', hrun', -, hswap, -⟩ := run_setPending_erased t (s := m') (by
        intro i k _ hk
        change m'.bytes.slice i k = _
        rw [hbytes]
        simp [Bytes.slice]
        omega) false
    rw [hinstall, hrun'] at hrun
    cases hrun
    have hbyte := congrArg (fun b => Bytes.slice b t.swapInfoOff.toNat 1) hkept
    change slot.bytes.slice t.swapInfoOff.toNat 1 = _ at hswap
    rw [List.length_replicate, Bytes.slice_slice (by omega), Nat.zero_add, hswap] at hbyte
    have herased : Bytes.slice (List.replicate n erased) t.swapInfoOff.toNat 1 = [erased] := by
      have hone : min 1 (n - t.swapInfoOff.toNat) = 1 := by omega
      simp [Bytes.slice, hone]
    rw [herased] at hbyte
    exact absurd hbyte (by decide)
  · intro hfits image permanent m himage hlen
    obtain ⟨m', hinstall, hbytes⟩ := run_install hprogram t image (by omega) m hlen permanent
    obtain ⟨slot, hrun, hmagic, -, hkept⟩ := run_setPending_erased t (s := m') (by
        intro i k hi hk
        change m'.bytes.slice i k = _
        rw [hbytes, Bytes.slice_append_right (by omega)]
        simp [Bytes.slice]
        omega) permanent
    refine ⟨slot, by rw [hinstall, hrun], ⟨stateOf t slot.bytes, rfl, hmagic⟩, (hkept _ _ (by omega)).trans ?_⟩
    change m'.bytes.slice 0 image.length = image
    rw [hbytes]
    exact Bytes.slice_append_self rfl

end Bristlemouth.Mcuboot
