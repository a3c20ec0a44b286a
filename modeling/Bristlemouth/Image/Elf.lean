import Mathlib.Data.List.Sort
import Bristlemouth.Lib.Checked
import Bristlemouth.Lib.Fields
import Bristlemouth.Wire.Le

/-!
# A flat binary from an ELF file

`elf.rs`, with its panics: an index outside a slice and a sum that does not fit are `none`. A `u64` sum of
two `u32`s and a `usize` product of two `u16`s cannot overflow and are sums and products of naturals.
-/

set_option autoImplicit false

namespace Bristlemouth.Image

open Bytes

/-- Why a file could not be read. -/
inductive Error where
  | elf (why : String)
  | nothingAt (base : UInt32)
  | sectionBelow (addr base : UInt32)
  | overlap (addr : UInt32)
  | tooLong (len limit : Nat)
deriving DecidableEq

def shtNobits : UInt32 := 8
def shfAlloc : UInt32 := 2
def ptLoad : UInt32 := 1
def phdrSize : Nat := 32
def shdrSize : Nat := 40

def word (bytes : Bytes) (i : Nat) : Option UInt32 :=
  if i + 4 ≤ bytes.length then some (u32At bytes i) else none

def half (bytes : Bytes) (i : Nat) : Option UInt16 :=
  if i + 2 ≤ bytes.length then some (u16At bytes i) else none

def addU32 (a b : UInt32) : Option UInt32 := if a.toNat + b.toNat < 2 ^ 32 then some (a + b) else none

def subU32 (a b : UInt32) : Option UInt32 := if b.toNat ≤ a.toNat then some (a - b) else none

def addU64 (a b : Nat) : Option Nat := if a + b < 2 ^ 64 then some (a + b) else none

/-- `out[i..i + data.len()].copy_from_slice(data)`. -/
def copyInto (out : Bytes) (i : Nat) (data : Bytes) : Option Bytes :=
  if i + data.length ≤ out.length then some (out.copyAt i data) else none

/-- A loaded section: its load address and its bytes. -/
structure Section where
  addr : UInt32
  data : Bytes
deriving DecidableEq

/-- One past the section's last address. -/
def Section.stop (s : Section) : Nat := s.addr.toNat + s.data.length

def isElf (file : Bytes) : Bool := file.take 4 = [0x7F, 0x45, 0x4C, 0x46]

/-- `table`: the entries. -/
def table (elf : Bytes) (offAt sizeAt countAt minSize : Nat) : Checked Error (List Bytes) := do
  match elf.slice? 0 52 with
  | none => throw (.elf "shorter than its header")
  | some header => do
    let off ← word header offAt
    let size ← half header sizeAt
    let count ← half header countAt
    if count = 0 then return []
    else if size.toNat < minSize then throw (.elf "a header table's entries are too short")
    else
      -- `off` and the product are far from where `saturating_add` stops
      match elf.slice? off.toNat (size.toNat * count.toNat) with
      | none => throw (.elf "a header table is outside the file")
      | some bytes => return bytes.chunks size.toNat

/-- The load address of the file bytes from `offset` to `stop`: by the first `PT_LOAD` segment that holds
them, or else `addr`. -/
def loadAddr (offset : UInt32) (stop : Nat) (addr : UInt32) : List Bytes → Checked Error UInt32
  | [] => return addr
  | ph :: segments => do
    let kind ← word ph 0
    if kind ≠ ptLoad then loadAddr offset stop addr segments
    else
      let pOffset ← word ph 4
      let pPaddr ← word ph 12
      let pFilesz ← word ph 16
      if pOffset.toNat ≤ offset.toNat ∧ stop ≤ pOffset.toNat + pFilesz.toNat then
        let into ← subU32 offset pOffset
        return pPaddr + into
      else loadAddr offset stop addr segments

/-- One section header, `none` when the section is not loaded. -/
def loaded (elf : Bytes) (segments : List Bytes) (sh : Bytes) : Checked Error (Option Section) := do
  let kind ← word sh 4
  let flags ← word sh 8
  let addr ← word sh 12
  let offset ← word sh 16
  let size ← word sh 20
  if flags &&& shfAlloc = 0 ∨ kind = shtNobits ∨ size = 0 then return none
  else match elf.slice? offset.toNat size.toNat with
    | none => throw (.elf "a section's bytes are outside the file")
    | some data => do
      let load ← loadAddr offset (offset.toNat + size.toNat) addr segments
      if 2 ^ 32 < load.toNat + size.toNat then throw (.elf "a section wraps the address space")
      else return some ⟨load, data⟩

/-- The loaded sections in the order of their headers. -/
def loadedAll (elf : Bytes) (segments : List Bytes) : List Bytes → Checked Error (List Section)
  | [] => return []
  | sh :: headers => do
    let s ← loaded elf segments sh
    let rest ← loadedAll elf segments headers
    return s.toList ++ rest

def Section.le (a b : Section) : Prop := a.addr.toNat ≤ b.addr.toNat

instance : DecidableRel Section.le := fun a b => inferInstanceAs (Decidable (a.addr.toNat ≤ b.addr.toNat))

def sections (elf : Bytes) : Checked Error (List Section) := do
  if isElf elf = false then throw (.elf "no ELF magic")
  else if elf.slice? 4 2 ≠ some [1, 1] then throw (.elf "not 32-bit little-endian")
  else
    let segments ← table elf 28 42 44 phdrSize
    let headers ← table elf 32 46 48 shdrSize
    let out ← loadedAll elf segments headers
    return out.insertionSort Section.le

/-- How far after `base` the last section ends, zero when there is none. -/
def imageLen (base : UInt32) : List Section → Option Nat
  | [] => some 0
  | s :: rest => do
    let gap ← subU32 s.addr base
    let len ← addU64 gap.toNat s.data.length
    let most ← imageLen base rest
    return max len most

/-- The loop that lays the sections out; `stop` is where the one before ends. -/
def lay (base : UInt32) : UInt32 → List Section → Bytes → Checked Error Bytes
  | _, [], out => return out
  | stop, s :: rest, out => do
    if s.addr.toNat < stop.toNat then throw (.overlap s.addr)
    else
      let gap ← subU32 s.addr base
      let out ← copyInto out gap.toNat s.data
      let stop ← addU32 s.addr (UInt32.ofNat s.data.length)
      lay base stop rest out

/-- What `flat` does with the sections. -/
def flatten (sections : List Section) (base : UInt32) (fill : UInt8) (maxLen : UInt64) : Checked Error Bytes :=
  match sections.find? fun s => s.addr.toNat < base.toNat with
  | some s => throw (.sectionBelow s.addr base)
  | none =>
    if sections.any (fun s => s.addr = base) = false then throw (.nothingAt base)
    else do
      let len ← imageLen base sections
      if maxLen.toNat < len then throw (.tooLong len maxLen.toNat)
      else lay base base sections (List.replicate len fill)

def flat (elf : Bytes) (base : UInt32) (fill : UInt8) (maxLen : UInt64) : Checked Error Bytes := do
  let sections ← sections elf
  flatten sections base fill maxLen

end Bristlemouth.Image
