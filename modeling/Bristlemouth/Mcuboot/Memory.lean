import Bristlemouth.Mcuboot.Trailer

/-!
# A slot whose flash operations succeed

`program old new` is the byte a location holds after `new` is programmed over
`old`: `new` itself in a simulator, the bitwise conjunction on NOR flash. All
that is used of it is that programming an erased byte stores it.
-/

set_option autoImplicit false

namespace Bristlemouth.Mcuboot

structure SlotMemory (program : UInt8 → UInt8 → UInt8) where
  bytes : Bytes

namespace SlotMemory

variable {program : UInt8 → UInt8 → UInt8}

def programAt (m : SlotMemory program) (off : Nat) (data : Bytes) : SlotMemory program :=
  ⟨m.bytes.copyAt off (List.zipWith program (m.bytes.slice off data.length) data)⟩

instance : Flash (SlotMemory program) where
  read off len := fun m => (.ok (m.bytes.slice off.toNat len), m)
  write off data := fun m => (.ok (), m.programAt off.toNat data)
  erase off len := fun m => (.ok (), ⟨m.bytes.copyAt off.toNat (List.replicate len.toNat erased)⟩)

theorem zipWith_program_erased (h : ∀ b, program erased b = b) (data : Bytes) :
    List.zipWith program (List.replicate data.length erased) data = data := by
  induction data with
  | nil => rfl
  | cons b data ih => rw [List.length_cons, List.replicate_succ, List.zipWith_cons_cons, h, ih]

/-- Programming an erased range stores the data. -/
theorem bytes_programAt (h : ∀ b, program erased b = b) (m : SlotMemory program) {off : Nat} {data : Bytes}
    (he : m.bytes.slice off data.length = List.replicate data.length erased) :
    (m.programAt off data).bytes = m.bytes.copyAt off data := by
  rw [programAt, he, zipWith_program_erased h]

end SlotMemory

end Bristlemouth.Mcuboot
