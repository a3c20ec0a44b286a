import Bristlemouth.Config.Head
import Bristlemouth.Lib.CString
import Bristlemouth.Wire.Crc

/-!
# A config partition

`configuration.rs`: the store's operations, as they edit the image. An operation answers `none` where
the code would index outside the image or overflow a count; a setter answers its return value and the
partition afterwards.

The heads of values are written by the `cbor2` crate. `Cbor2` is that encoder over a slice,
`Cbor2.Minimal` what RFC 8949 and its documentation promise of it.
-/

set_option autoImplicit false

namespace Bristlemouth.Config

open Bytes

/-- `cbor2::core::Header`, the definite ones the store writes. -/
inductive Header where
  | positive (n : UInt64)
  | negative (n : UInt64)
  | bytes (len : Nat)
  | text (len : Nat)
  | map (len : Nat)
deriving DecidableEq

def Header.major : Header → Nat
  | positive _ => 0
  | negative _ => 1
  | bytes _ => 2
  | text _ => 3
  | map _ => 5

def Header.arg : Header → Nat
  | positive n | negative n => n.toNat
  | bytes len | text len | map len => len

def Header.encode (h : Header) : Bytes := Cbor.preferredHead h.major h.arg

/-- What a write through `Encoder::from(&mut tail)` does to the slice under `tail`. -/
structure Pushed where
  ok : Bool
  buf : Bytes
  used : Nat

/-- The encoder of the `cbor2` crate over a byte slice. -/
class Cbor2 where
  push : Header → Bytes → Pushed
  writeAll : Bytes → Bytes → Pushed

/-- Where there is room, a head is written in its shortest form and bytes are written as they are. -/
class Cbor2.Minimal [Cbor2] : Prop where
  push_eq : ∀ (h : Header) (buf : Bytes), h.encode.length ≤ buf.length →
    Cbor2.push h buf = ⟨true, buf.copyAt 0 h.encode, h.encode.length⟩
  writeAll_eq : ∀ bs buf : Bytes, bs.length ≤ buf.length →
    Cbor2.writeAll bs buf = ⟨true, buf.copyAt 0 bs, bs.length⟩

/-- An encoder that does just that, and refuses where there is no room. -/
@[reducible] def Cbor2.shortest : Cbor2 where
  push h buf := if h.encode.length ≤ buf.length then
      ⟨true, buf.copyAt 0 h.encode, h.encode.length⟩ else ⟨false, buf, 0⟩
  writeAll bs buf := if bs.length ≤ buf.length then ⟨true, buf.copyAt 0 bs, bs.length⟩
    else ⟨false, buf, 0⟩

theorem Cbor2.shortest_minimal : @Cbor2.Minimal Cbor2.shortest :=
  @Cbor2.Minimal.mk Cbor2.shortest (fun _ _ hfit => if_pos hfit) (fun _ _ hfit => if_pos hfit)

/-- A key as the store receives it: the memory at the pointer, and a `key_len`. -/
structure Key where
  text : Bytes
  len : Nat
deriving DecidableEq

namespace Key

def new (key : Bytes) : Key := ⟨key, key.length⟩

def withLen (text : Bytes) (len : Nat) : Key := ⟨text, len⟩

/-- `key[i]`, reading past the end of `text` as NUL. -/
def byte (k : Key) (i : Nat) : UInt8 := k.text.byteAt i

def strlen (k : Key) : Nat := CString.strlen k.text

def isAsciiAlphanumeric (b : UInt8) : Bool :=
  (48 ≤ b && b ≤ 57) || (65 ≤ b && b ≤ 90) || (97 ≤ b && b ≤ 122)

/-- `is_key_valid`: alphanumerics, `_` and NUL. -/
def isValid (k : Key) : Bool :=
  (List.range k.len).all fun i =>
    isAsciiAlphanumeric (k.byte i) || k.byte i == 95 || k.byte i == 0

end Key

structure StoredKey where
  keyBuf : Bytes
  keyLen : Nat
  valueType : Nat
deriving DecidableEq

/-- Encode one head into a slot. -/
def push [Cbor2] (slot : Bytes) (header : Header) : Bool × Bytes :=
  let pushed := Cbor2.push header slot
  (pushed.ok, pushed.buf)

/-- `push_f32_wide`: the five-byte float. -/
def pushF32Wide [Cbor2] (slot : Bytes) (bits : UInt32) : Bool × Bytes :=
  let pushed := Cbor2.writeAll (0xfa :: beBytes 4 bits.toNat) slot
  (pushed.ok, pushed.buf)

/-- The head is written, then the body if it fits. -/
def pushString [Cbor2] (slot : Bytes) (header : Header) (body : Bytes) : Bool × Bytes :=
  let pushed := Cbor2.push header (List.replicate 9 0)
  if pushed.ok then
    let headLen := pushed.used
    let slot := slot.copyAt 0 (pushed.buf.take headLen)
    if headLen + body.length ≤ slot.length then (true, slot.copyAt headLen body) else (false, slot)
  else (false, slot)

structure ConfigPartition where
  layout : Layout
  image : Bytes
  needsCommit : Bool
  length_image : image.length = maxImageLen

namespace ConfigPartition

def zeroed (layout : Layout) (needsCommit : Bool) : ConfigPartition :=
  ⟨layout, List.replicate maxImageLen 0, needsCommit, List.length_replicate⟩

def new (layout : Layout) : ConfigPartition := zeroed layout false

variable (p : ConfigPartition)

/-- `self.image[off..off + data.len()].copy_from_slice(data)`. -/
def write? (off : Nat) (data : Bytes) : Option ConfigPartition :=
  if h : off + data.length ≤ maxImageLen then
    some { p with
      image := p.image.copyAt off data
      length_image := (length_copyAt _ _ _ (h.trans_eq p.length_image.symm)).trans p.length_image }
  else none

/-- `self.image.copy_within(from..from + len, to)`. -/
def copyWithin? (src len dst : Nat) : Option ConfigPartition := do
  let bs ← p.image.slice? src len
  p.write? dst bs

/-- The image that is saved and loaded. -/
def imageBytes : Bytes := p.image.slice 0 p.layout.imageLen

def crc32 : UInt32 := UInt32.ofNat (leNat (p.image.slice 0 4))

def version : UInt32 := UInt32.ofNat (leNat (p.image.slice 4 4))

def numKeys : Nat := (p.image.byteAt 8).toNat

def putU32 (off : Nat) (v : UInt32) : Option ConfigPartition := p.write? off (leBytes 4 v.toNat)

/-- `self.image[8] += 1`. -/
def incNumKeys : Option ConfigPartition :=
  if p.numKeys = 255 then none else p.write? 8 [UInt8.ofNat (p.numKeys + 1)]

/-- `self.image[8] -= 1`. -/
def decNumKeys : Option ConfigPartition :=
  if p.numKeys = 0 then none else p.write? 8 [UInt8.ofNat (p.numKeys - 1)]

/-- `bm_config_read`: what it leaves in the image's bytes, and whether it succeeded. -/
structure Read (len : Nat) where
  ok : Bool
  content : Bytes
  length_content : content.length = len

/-- `load_and_verify_nvm_config`, then `config_init`'s fallback. -/
def loadWith (read : Read p.layout.imageLen) : Option (Bool × ConfigPartition) := do
  let p ← p.write? 0 read.content
  let covered ← p.image.slice? 4 (p.layout.imageLen - 4)
  if read.ok ∧ crc32Ieee covered = p.crc32 ∧ p.numKeys ≤ maxNumKv then some (true, p)
  else
    let p ← p.write? 8 [0]
    let p ← p.putU32 4 (UInt32.ofNat configVersion)
    some (false, p)

def storedKey (i : Nat) : Option StoredKey := do
  let off := p.layout.keyOffset i
  let kw := p.layout.keyLenWidth
  let vw := p.layout.valueTypeWidth
  let keyBuf ← p.image.slice? off keyBufLen
  let keyLen ← p.image.slice? (off + keyBufLen) kw
  let valueType ← p.image.slice? (off + keyBufLen + kw) vw
  some ⟨keyBuf, leNat keyLen, leNat valueType⟩

/-- `get_stored_keys`. -/
def storedKeys : Option (List StoredKey) := (List.range p.numKeys).mapM p.storedKey

/-- `find_key_idx`: the first key of this length that `strncmp`s equal over it. Past the image the
comparison reads NULs. -/
def find (key : Key) : Option (Option Nat) :=
  (List.range p.numKeys).findM? fun i => do
    let off := p.layout.keyOffset i
    let stored ← p.storedKey i
    if stored.keyLen ≠ key.len then some false
    else some (CString.strncmpEq key.byte (fun j => p.image.byteAt (off + j)) 0 key.len)

/-- `snprintf(key_buf, 32, "%s", key)`. The rest of `key_buf` is left as it was. -/
def writeKeyBuf (idx : Nat) (key : Key) : Option ConfigPartition := do
  let off := p.layout.keyOffset idx
  let n := min key.strlen (keyBufLen - 1)
  let text ← key.text.slice? 0 n
  let p ← p.write? off text
  p.write? (off + n) [0]

def writeKeyMeta (idx : Nat) (key : Key) (ty : ValueType) : Option ConfigPartition := do
  let off := p.layout.keyOffset idx + keyBufLen
  let kw := p.layout.keyLenWidth
  let vw := p.layout.valueTypeWidth
  let p ← p.write? (off + kw) (leBytes vw ty.toNat)
  p.write? off (leBytes kw key.len)

def slot (idx : Nat) : Option Bytes := p.image.slice? (p.layout.valueOffset idx) slotLen

/-- `prepare_cbor_parser`: the key's index and its slot's head. -/
def parsed (key : Key) : Option (Option (Nat × Head)) :=
  if maxKeyLenBytes < key.len then some none
  else do
    match ← p.find key with
    | none => some none
    | some idx =>
      let slot ← p.slot idx
      some ((Head.parse slot).map fun head => (idx, head))

/-- `get_config_uint`, truncated to 32 bits. -/
def getUint (key : Key) : Option (Option UInt32) := do
  match ← p.parsed key with
  | none => some none
  | some (_, head) => some (if head.major = 0 then some (UInt32.ofNat head.arg) else none)

/-- `get_config_int`: either integer major type, truncated to 32 bits. The negation wraps. -/
def getInt (key : Key) : Option (Option Int32) := do
  match ← p.parsed key with
  | none => some none
  | some (_, head) =>
    let v := (UInt64.ofNat head.arg).toInt64
    some (if head.major = 0 then some v.toInt32
      else if head.major = 1 then some (-v - 1).toInt32
      else none)

/-- `get_config_float`: the bits, of the five-byte encoding only. -/
def getFloat (key : Key) : Option (Option UInt32) := do
  match ← p.parsed key with
  | none => some none
  | some (_, head) =>
    some (if head.major = 7 ∧ head.info = 26 then some (UInt32.ofNat head.arg) else none)

def getStrLike (u : Usize) (key : Key) (major : UInt8) (out : Bytes) :
    Option (Except CopyError Nat × Bytes) := do
  match ← p.parsed key with
  | none => some (.error .refused, out)
  | some (idx, head) =>
    if head.major ≠ major then some (.error .refused, out)
    else
      let slot ← p.slot idx
      some (copyString u slot out)

/-- `get_config_string`. -/
def getString (u : Usize) (key : Key) (out : Bytes) : Option (Except CopyError Nat × Bytes) :=
  p.getStrLike u key 3 out

/-- `get_config_buffer`. -/
def getBuffer (u : Usize) (key : Key) (out : Bytes) : Option (Except CopyError Nat × Bytes) :=
  p.getStrLike u key 2 out

/-- `get_config_cbor`: the whole slot, into a buffer of at least its size. -/
def getCbor (key : Key) (out : Bytes) : Option (Option Nat × Bytes) := do
  match ← p.parsed key with
  | none => some (none, out)
  | some (idx, _) =>
    if out.length < slotLen then some (none, out)
    else
      let slot ← p.slot idx
      some (some slotLen, out.copyAt 0 slot)

/-- `get_value_size`: the length a string's or an array's head claims. -/
def valueSize (u : Usize) (key : Key) : Option (Option Nat) := do
  match ← p.parsed key with
  | none => some none
  | some (_, head) =>
    some (match head.configType with
      | none => none
      | some .uint32 | some .int32 | some .float => some 4
      | some .str | some .bytes | some .array => head.length u)

/-- The part of `set_typed` after the key's index is known. -/
def setTypedAt (idx : Nat) (found : Bool) (key : Key) (ty : ValueType)
    (encode : Bytes → Bool × Bytes) : Option (Bool × ConfigPartition) := do
  let p ← p.writeKeyBuf idx key
  let off := p.layout.valueOffset idx
  let slot ← p.image.slice? off slotLen
  let encoded := encode slot
  let p ← p.write? off encoded.2
  if encoded.1 then
    let p ← p.writeKeyMeta idx key ty
    let p ← if found then some p else p.incNumKeys
    some (true, { p with needsCommit := true })
  else some (false, p)

/-- `prepare_cbor_encoder` and the typed setters' common tail. A full partition refuses before the
lookup; the key is written before the encode, and survives it failing. -/
def setTyped (key : Key) (ty : ValueType) (encode : Bytes → Bool × Bytes) :
    Option (Bool × ConfigPartition) :=
  if maxKeyLenBytes < key.len then some (false, p)
  else if maxNumKv ≤ p.numKeys then some (false, p)
  else do
    match ← p.find key with
    | some idx => p.setTypedAt idx true key ty encode
    | none => if key.isValid then p.setTypedAt p.numKeys false key ty encode else some (false, p)

def setUint [Cbor2] (key : Key) (value : UInt32) : Option (Bool × ConfigPartition) :=
  p.setTyped key .uint32 fun slot => push slot (.positive value.toUInt64)

def setInt [Cbor2] (key : Key) (value : Int32) : Option (Bool × ConfigPartition) :=
  let value := value.toInt64
  let header := if value < 0 then Header.negative (~~~ value).toUInt64 else .positive value.toUInt64
  p.setTyped key .int32 fun slot => push slot header

/-- `set_config_float`, of a float's bits. -/
def setFloat [Cbor2] (key : Key) (bits : UInt32) : Option (Bool × ConfigPartition) :=
  p.setTyped key .float fun slot => pushF32Wide slot bits

def setString [Cbor2] (key : Key) (value : Bytes) : Option (Bool × ConfigPartition) :=
  p.setTyped key .str fun slot => pushString slot (.text value.length) value

def setBuffer [Cbor2] (key : Key) (value : Bytes) : Option (Bool × ConfigPartition) :=
  p.setTyped key .bytes fun slot => pushString slot (.bytes value.length) value

/-- The part of `set_cbor` after the key's index is known and a new key's text is written. -/
def setCborAt (idx numKeys : Nat) (key : Key) (head : Head) (value : Bytes) :
    Option (Bool × ConfigPartition) :=
  match head.configType with
  | none => some (false, p)
  | some ty => do
    let p ← p.writeKeyMeta idx key ty
    let p ← p.write? (p.layout.valueOffset idx) value
    let p ← if idx = numKeys then p.incNumKeys else some p
    some (true, { p with needsCommit := true })

/-- `set_config_cbor`: the value's bytes as they are, typed by their first item's head. -/
def setCbor (key : Key) (value : Bytes) : Option (Bool × ConfigPartition) :=
  if maxKeyLenBytes < key.len then some (false, p)
  else if slotLen < value.length ∨ value = [] then some (false, p)
  else
    match Head.parse value with
    | none => some (false, p)
    | some head => do
      let numKeys := p.numKeys
      match ← p.find key with
      | some idx => p.setCborAt idx numKeys key head value
      | none =>
        if key.isValid = false ∨ maxNumKv ≤ numKeys then some (false, p)
        else
          let p ← p.writeKeyBuf numKeys key
          p.setCborAt numKeys numKeys key head value

/-- `remove_key`. Later keys and values shift down; the last ones keep a copy of what was there. -/
def removeKey (key : Key) : Option (Bool × ConfigPartition) := do
  match ← p.find key with
  | none => some (false, p)
  | some idx =>
    let numKeys := p.numKeys
    let p ← if idx < numKeys - 1 then do
        let ks := p.layout.keySize
        let src := p.layout.keyOffset (idx + 1)
        let p ← p.copyWithin? src ((numKeys - 1 - idx) * ks) (src - ks)
        let src := p.layout.valueOffset (idx + 1)
        p.copyWithin? src ((numKeys - 1 - idx) * slotLen) (src - slotLen)
      else some p
    let p ← p.decNumKeys
    some (true, { p with needsCommit := true })

/-- `clear_partition`. -/
def clear : Option ConfigPartition := do
  let p := zeroed p.layout p.needsCommit
  let p ← p.putU32 4 (UInt32.ofNat configVersion)
  some { p with needsCommit := true }

/-- The first half of `save_config`: the CRC goes into the header, and the image to the flash. -/
def sealImage : Option (Bytes × ConfigPartition) := do
  let covered ← p.image.slice? 4 (p.layout.imageLen - 4)
  let p ← p.putU32 0 (crc32Ieee covered)
  let saved ← p.image.slice? 0 p.layout.imageLen
  some (saved, p)

/-- The second half of `save_config`. -/
def markSaved : ConfigPartition := { p with needsCommit := false }

end ConfigPartition

end Bristlemouth.Config
