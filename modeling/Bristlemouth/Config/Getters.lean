import Bristlemouth.Config.Cells

/-!
# What the getters read

A getter's answer is a function of one cell, the one its key is stored in (`ConfigPartition.entry`).
So two partitions in which a key has the same entry read the same under it, whatever else is in their
images.
-/

set_option autoImplicit false

namespace Bristlemouth.Config

open Bytes

namespace Cell

def head (c : Cell) : Option Head := Head.parse c.slot

def getUint (c : Cell) : Option UInt32 := do
  let head ← c.head
  if head.major = 0 then some (UInt32.ofNat head.arg) else none

def getInt (c : Cell) : Option Int32 := do
  let head ← c.head
  let v := (UInt64.ofNat head.arg).toInt64
  if head.major = 0 then some v.toInt32 else if head.major = 1 then some (-v - 1).toInt32 else none

def getFloat (c : Cell) : Option UInt32 := do
  let head ← c.head
  if head.major = 7 ∧ head.info = 26 then some (UInt32.ofNat head.arg) else none

def getStrLike (c : Cell) (u : Usize) (major : UInt8) (out : Bytes) :
    Except CopyError Nat × Bytes :=
  match c.head with
  | none => (.error .refused, out)
  | some head => if head.major ≠ major then (.error .refused, out) else copyString u c.slot out

def getCbor (c : Cell) (out : Bytes) : Option Nat × Bytes :=
  if c.head.isNone ∨ out.length < slotLen then (none, out) else (some slotLen, out.copyAt 0 c.slot)

def valueSize (c : Cell) (u : Usize) : Option Nat := do
  let head ← c.head
  match head.configType with
  | none => none
  | some .uint32 | some .int32 | some .float => some 4
  | some .str | some .bytes | some .array => head.length u

end Cell

namespace ConfigPartition

variable {p q : ConfigPartition}

/-- The cell the getters read a key from. -/
def entry (p : ConfigPartition) (key : Key) : Option Cell :=
  if maxKeyLenBytes < key.len then none else p.listed.find? key.names

theorem entry_of_le {key : Key} (hlen : key.len ≤ maxKeyLenBytes) :
    p.entry key = p.listed.find? key.names := if_neg (by omega)

theorem find?_of_findIdx? {α : Type} {f : α → Bool} {l : List α} {i : Nat}
    (h : l.findIdx? f = some i) : l[i]? = l.find? f := by
  rw [List.find?_eq_bind_findIdx?_getElem?, h]
  rfl

theorem parsed_cases (hn : p.numKeys ≤ maxNumKv) (key : Key) :
    p.parsed key = some none ∧ p.entry key = none ∨
      ∃ idx c, p.slot idx = some c.slot ∧ p.entry key = some c ∧
        p.parsed key = some (c.head.map fun head => (idx, head)) := by
  by_cases hlen : maxKeyLenBytes < key.len
  · exact .inl ⟨if_pos hlen, if_pos hlen⟩
  · have hfind : p.find key = some (p.listed.findIdx? key.names) :=
      find_listed hn (by simp only [keyBufLen]; omega)
    cases hidx : p.listed.findIdx? key.names with
    | none =>
      refine .inl ⟨by simp [parsed, hlen, hfind, hidx], ?_⟩
      rw [entry_of_le (by omega), List.find?_eq_bind_findIdx?_getElem?, hidx]
      rfl
    | some idx =>
      have hlt := (List.findIdx?_eq_some_iff_getElem.mp hidx).1
      rw [length_listed] at hlt
      have hslot := slot_eq (p := p) (lt_of_lt_of_le hlt hn)
      refine .inr ⟨idx, p.cell idx, hslot, ?_, by simp [parsed, hlen, hfind, hidx, hslot, Cell.head]⟩
      rw [entry_of_le (by omega), ← find?_of_findIdx? hidx, getElem?_listed hlt]

section

variable (hn : p.numKeys ≤ maxNumKv) (key : Key)

include hn

theorem getUint_eq : p.getUint key = some ((p.entry key).bind Cell.getUint) := by
  obtain ⟨hparsed, hentry⟩ | ⟨idx, c, -, hentry, hparsed⟩ := parsed_cases hn key
  · simp [getUint, hparsed, hentry]
  · cases h : c.head <;> simp [getUint, hparsed, hentry, Cell.getUint, h]

theorem getInt_eq : p.getInt key = some ((p.entry key).bind Cell.getInt) := by
  obtain ⟨hparsed, hentry⟩ | ⟨idx, c, -, hentry, hparsed⟩ := parsed_cases hn key
  · simp [getInt, hparsed, hentry]
  · cases h : c.head <;> simp [getInt, hparsed, hentry, Cell.getInt, h]

theorem getFloat_eq : p.getFloat key = some ((p.entry key).bind Cell.getFloat) := by
  obtain ⟨hparsed, hentry⟩ | ⟨idx, c, -, hentry, hparsed⟩ := parsed_cases hn key
  · simp [getFloat, hparsed, hentry]
  · cases h : c.head <;> simp [getFloat, hparsed, hentry, Cell.getFloat, h]

theorem getStrLike_eq (u : Usize) (major : UInt8) (out : Bytes) :
    p.getStrLike u key major out = some (match p.entry key with
      | none => (.error .refused, out)
      | some c => c.getStrLike u major out) := by
  obtain ⟨hparsed, hentry⟩ | ⟨idx, c, hslot, hentry, hparsed⟩ := parsed_cases hn key
  · simp [getStrLike, hparsed, hentry]
  · cases h : c.head with
    | none => simp [getStrLike, hparsed, hentry, Cell.getStrLike, h]
    | some head =>
      by_cases hmajor : head.major = major <;>
        simp [getStrLike, hparsed, hentry, Cell.getStrLike, h, hslot, hmajor]

theorem getCbor_eq (out : Bytes) :
    p.getCbor key out = some (match p.entry key with
      | none => (none, out)
      | some c => c.getCbor out) := by
  obtain ⟨hparsed, hentry⟩ | ⟨idx, c, hslot, hentry, hparsed⟩ := parsed_cases hn key
  · simp [getCbor, hparsed, hentry]
  · cases h : c.head with
    | none => simp [getCbor, hparsed, hentry, Cell.getCbor, h]
    | some head =>
      by_cases hout : out.length < slotLen <;>
        simp [getCbor, hparsed, hentry, Cell.getCbor, h, hslot, hout]

theorem valueSize_eq (u : Usize) :
    p.valueSize u key = some ((p.entry key).bind fun c => c.valueSize u) := by
  obtain ⟨hparsed, hentry⟩ | ⟨idx, c, -, hentry, hparsed⟩ := parsed_cases hn key
  · simp [valueSize, hparsed, hentry]
  · cases h : c.head with
    | none => simp [valueSize, hparsed, hentry, Cell.valueSize, h]
    | some head =>
      cases hty : head.configType with
      | none => simp [valueSize, hparsed, hentry, Cell.valueSize, h, hty]
      | some ty => cases ty <;> simp [valueSize, hparsed, hentry, Cell.valueSize, h, hty]

end

/-- Every getter gives the same answer for a key. -/
structure SameReadings (p q : ConfigPartition) (key : Key) : Prop where
  getUint : p.getUint key = q.getUint key
  getInt : p.getInt key = q.getInt key
  getFloat : p.getFloat key = q.getFloat key
  getString : ∀ u out, p.getString u key out = q.getString u key out
  getBuffer : ∀ u out, p.getBuffer u key out = q.getBuffer u key out
  getCbor : ∀ out, p.getCbor key out = q.getCbor key out
  valueSize : ∀ u, p.valueSize u key = q.valueSize u key

theorem SameReadings.of_entry (hp : p.numKeys ≤ maxNumKv) (hq : q.numKeys ≤ maxNumKv) {key : Key}
    (h : p.entry key = q.entry key) : SameReadings p q key where
  getUint := by rw [getUint_eq hp, getUint_eq hq, h]
  getInt := by rw [getInt_eq hp, getInt_eq hq, h]
  getFloat := by rw [getFloat_eq hp, getFloat_eq hq, h]
  getString u out := by rw [ConfigPartition.getString, getStrLike_eq hp, h, ← getStrLike_eq hq]; rfl
  getBuffer u out := by rw [ConfigPartition.getBuffer, getStrLike_eq hp, h, ← getStrLike_eq hq]; rfl
  getCbor out := by rw [getCbor_eq hp, getCbor_eq hq, h]
  valueSize u := by rw [valueSize_eq hp, valueSize_eq hq, h]

end ConfigPartition

end Bristlemouth.Config
