import Bristlemouth.Mcuboot.Memory

/-!
# Flash devices

What the operations rely on of an implementation of `Flash`: a read gives the contents, and a write
that returns `Ok` has stored its bytes over erased ones. Either may fail, and a failed write may have
done anything.

`Logged` records the writes asked of a device, and `Interrupted` loses power after some of them.
-/

set_option autoImplicit false

namespace Bristlemouth.Mcuboot

/-- The contents after a write that returned `Ok`. -/
structure Stored (old : Bytes) (off : Nat) (data new : Bytes) : Prop where
  frame : ∀ i n, i + n ≤ off ∨ off + data.length ≤ i → new.slice i n = old.slice i n
  stored : ∀ i n, i + n ≤ data.length → old.slice (off + i) n = List.replicate n erased →
    new.slice (off + i) n = data.slice i n

class Device (F : Type) [Flash F] where
  bytes : F → Bytes
  read_bytes : ∀ (s : F) off len, bytes ((Flash.read off len : FlashM F Bytes) s).2 = bytes s
  read_ok : ∀ (s s' : F) off len data, (Flash.read off len : FlashM F Bytes) s = (.ok data, s') →
    data = (bytes s).slice off.toNat len
  write_ok : ∀ (s s' : F) off data, (Flash.write off data : FlashM F Unit) s = (.ok (), s') →
    Stored (bytes s) off.toNat data (bytes s')

/-- A device whose reads and writes succeed. -/
class Reliable (F : Type) [Flash F] extends Device F where
  read_total : ∀ (s : F) off len, ∃ data s', (Flash.read off len : FlashM F Bytes) s = (.ok data, s')
  write_total : ∀ (s : F) off data, ∃ s', (Flash.write off data : FlashM F Unit) s = (.ok (), s')

/-! ### A slot in memory -/

theorem getElem?_zipWith_program {program : UInt8 → UInt8 → UInt8} (h : ∀ b, program erased b = b)
    {old data : Bytes} {i : Nat} (hi : old[i]? = some erased) :
    (List.zipWith program old data)[i]? = data[i]? := by
  rw [List.getElem?_zipWith, hi]
  cases data[i]? with
  | none => rfl
  | some b => simp [h]

namespace SlotMemory

variable {program : UInt8 → UInt8 → UInt8}

theorem stored_programAt (h : ∀ b, program erased b = b) (m : SlotMemory program) (off : Nat)
    (data : Bytes) : Stored m.bytes off data (m.programAt off data).bytes := by
  have hlen : (m.bytes.slice off data.length).length = min data.length (m.bytes.length - off) := by
    simp [Bytes.slice]
  have hzip : (List.zipWith program (m.bytes.slice off data.length) data).length =
      min data.length (m.bytes.length - off) := by
    rw [List.length_zipWith, hlen]
    omega
  by_cases hoff : off ≤ m.bytes.length
  · constructor
    · intro i n hd
      exact Bytes.slice_copyAt_of_disjoint (by omega) (by omega)
    · intro i n hn he
      have hin : n = 0 ∨ off + i + n ≤ m.bytes.length := by
        have hl := congrArg List.length he
        simp only [Bytes.slice, List.length_take, List.length_drop, List.length_replicate] at hl
        omega
      rcases hin with rfl | hin
      · simp
      · rw [programAt, Bytes.slice_copyAt_inside (by omega) (by omega) (by omega), Nat.add_sub_cancel_left]
        refine List.ext_getElem? fun j => ?_
        rw [Bytes.getElem?_slice, Bytes.getElem?_slice]
        by_cases hj : j < n
        · have hbyte := congrArg (fun b : Bytes => b[j]?) he
          simp only [Bytes.getElem?_slice, if_pos hj, List.getElem?_replicate] at hbyte
          rw [if_pos hj, if_pos hj, getElem?_zipWith_program h]
          rw [Bytes.getElem?_slice, if_pos (by omega), ← Nat.add_assoc, hbyte]
        · rw [if_neg hj, if_neg hj]
  · -- Past the end nothing is stored.
    have hbytes : (m.programAt off data).bytes = m.bytes := by
      rw [programAt, List.length_eq_zero_iff.mp (hzip.trans (by omega))]
      simp [Bytes.copyAt]
    rw [hbytes]
    refine ⟨fun _ _ _ => rfl, fun i n hn he => ?_⟩
    have hl := congrArg List.length he
    simp only [Bytes.slice, List.length_take, List.length_drop, List.length_replicate] at hl
    have hzero : n = 0 := by omega
    rw [hzero]
    simp

abbrev reliable (h : ∀ b, program erased b = b) : Reliable (SlotMemory program) where
  bytes := SlotMemory.bytes
  read_bytes _ _ _ := rfl
  read_ok _ _ _ _ _ hr := by cases hr; rfl
  write_ok m m' off data hw := by
    cases hw
    exact m.stored_programAt h off.toNat data
  read_total m off len := ⟨_, m, rfl⟩
  write_total m off data := ⟨_, rfl⟩

end SlotMemory

/-! ### What has been asked of a device -/

structure Logged (F : Type) where
  slot : F
  writes : List (UInt32 × Bytes)

section Logged

variable {F : Type} [Flash F]

instance : Flash (Logged F) where
  read off len := fun m =>
    let r := (Flash.read off len : FlashM F Bytes) m.slot
    (r.1, { m with slot := r.2 })
  write off data := fun m =>
    let r := (Flash.write off data : FlashM F Unit) m.slot
    (r.1, ⟨r.2, m.writes ++ [(off, data)]⟩)
  erase off len := fun m =>
    let r := (Flash.erase off len : FlashM F Unit) m.slot
    (r.1, { m with slot := r.2 })

instance [Device F] : Device (Logged F) where
  bytes m := Device.bytes m.slot
  read_bytes m off len := Device.read_bytes m.slot off len
  read_ok m m' off len data h := by
    have hslot := congrArg (fun r => (r.1, r.2.slot)) h
    exact Device.read_ok m.slot m'.slot off len data hslot
  write_ok m m' off data h := by
    have hslot := congrArg (fun r => (r.1, r.2.slot)) h
    exact Device.write_ok m.slot m'.slot off data hslot

instance [Reliable F] : Reliable (Logged F) where
  read_total m off len := by
    obtain ⟨data, s', h⟩ := Reliable.read_total m.slot off len
    exact ⟨data, ⟨s', m.writes⟩, by simp only [Flash.read, h]⟩
  write_total m off data := by
    obtain ⟨s', h⟩ := Reliable.write_total m.slot off data
    exact ⟨⟨s', m.writes ++ [(off, data)]⟩, by simp only [Flash.write, h]⟩

end Logged

/-- A device that loses power after `left` writes more. -/
structure Interrupted (F : Type) where
  slot : F
  left : Nat

instance {F : Type} [Flash F] : Flash (Interrupted F) where
  read off len := fun m =>
    let r := (Flash.read off len : FlashM F Bytes) m.slot
    (r.1, { m with slot := r.2 })
  write off data := fun m =>
    match m.left with
    | 0 => (.error .flash, m)
    | left + 1 =>
      let r := (Flash.write off data : FlashM F Unit) m.slot
      (r.1, ⟨r.2, left⟩)
  erase off len := fun m =>
    let r := (Flash.erase off len : FlashM F Unit) m.slot
    (r.1, { m with slot := r.2 })

end Bristlemouth.Mcuboot
