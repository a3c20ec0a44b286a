import Bristlemouth.Mcuboot.Entries

/-!
# Writing a header and an area

The encoders of `image.rs` and `tlv.rs`, write by write. A header is decoded as it was encoded, and the two
areas that are written are areas laid out entry by entry.
-/

set_option autoImplicit false

namespace Bristlemouth.Mcuboot

open Bytes

def imageMagic : UInt32 := 0x96f3b83d
def headerSize : Nat := 32
/-- The body starts here. -/
def bmHdrSize : UInt16 := 0x200

def put (out : Bytes) (i : Nat) (bytes : Bytes) : Bytes := out.copyAt i bytes

def Version.encode (v : Version) : Bytes := [v.major, v.minor] ++ (u16ToLe v.revision ++ u32ToLe v.buildNum)

def Version.decode (bytes : Bytes) : Version where
  major := bytes.byteAt 0
  minor := bytes.byteAt 1
  revision := u16At bytes 2
  buildNum := u32At bytes 4

namespace Header

def new (imgSize : UInt32) (version : Version) : Header where
  magic := imageMagic
  loadAddr := 0
  hdrSize := bmHdrSize
  protectTlvSize := 0
  imgSize := imgSize
  flags := 0
  version := version
  pad1 := 0

def encode (h : Header) : Bytes :=
  let out := List.replicate headerSize 0
  let out := put out 0 (u32ToLe h.magic)
  let out := put out 4 (u32ToLe h.loadAddr)
  let out := put out 8 (u16ToLe h.hdrSize)
  let out := put out 10 (u16ToLe h.protectTlvSize)
  let out := put out 12 (u32ToLe h.imgSize)
  let out := put out 16 (u32ToLe h.flags)
  let out := put out 20 h.version.encode
  put out 28 (u32ToLe h.pad1)

/-- The first `HEADER_SIZE` bytes. -/
def decode (bytes : Bytes) : Option Header :=
  if headerSize ≤ bytes.length then
    let b : Bytes := bytes.take headerSize
    some {
      magic := u32At b 0
      loadAddr := u32At b 4
      hdrSize := u16At b 8
      protectTlvSize := u16At b 10
      imgSize := u32At b 12
      flags := u32At b 16
      version := Version.decode (b.slice 20 8)
      pad1 := u32At b 28 }
  else none

end Header

/-! ### The TLV area -/

def keyhashKind : UInt16 := 0x01
def sha256Kind : UInt16 := 0x10
def ed25519Kind : UInt16 := 0x24
def sha256Len : Nat := 32
def ed25519Len : Nat := 64
def unsignedSize : Nat := tlvInfoSize + entrySize + sha256Len
def ed25519Size : Nat := unsignedSize + entrySize + sha256Len + entrySize + ed25519Len

/-- `[u8; SHA256_LEN]`. -/
abbrev Digest := { b : Bytes // b.length = sha256Len }

/-- `[u8; ED25519_LEN]`. -/
abbrev Signature := { b : Bytes // b.length = ed25519Len }

def info (out : Bytes) (total : UInt16) : Bytes × Nat :=
  (put (put out 0 (u16ToLe infoMagic)) 2 (u16ToLe total), tlvInfoSize)

def entry (out : Bytes) (i : Nat) (kind : UInt16) (value : Bytes) : Bytes × Nat :=
  (put (put (put out i (u16ToLe kind)) (i + 2) (u16ToLe (UInt16.ofNat value.length))) (i + entrySize) value,
    i + entrySize + value.length)

def encodeUnsigned (sha256 : Digest) : Bytes :=
  let out := info (List.replicate unsignedSize 0) (UInt16.ofNat unsignedSize)
  (entry out.1 out.2 sha256Kind sha256.val).1

def encodeEd25519 (sha256 keyhash : Digest) (signature : Signature) : Bytes :=
  let out := info (List.replicate ed25519Size 0) (UInt16.ofNat ed25519Size)
  let out := entry out.1 out.2 sha256Kind sha256.val
  let out := entry out.1 out.2 keyhashKind keyhash.val
  (entry out.1 out.2 ed25519Kind signature.val).1

/-! ### What is written is read -/

theorem Version.length_encode (v : Version) : v.encode.length = 8 := by
  simp [Version.encode]

theorem Version.decode_encode (v : Version) : Version.decode v.encode = v := by
  have hrevision : v.encode.slice 2 2 = u16ToLe v.revision := by
    rw [encode, slice_append_right (by simp), slice_append_left (by simp)]
    exact slice_of_length (by simp)
  have hbuild : v.encode.slice 4 4 = u32ToLe v.buildNum := by
    rw [encode, slice_append_right (by simp), slice_append_right (by simp)]
    exact slice_of_length (by simp)
  rw [Version.decode, u16At_of_slice hrevision, u32At_of_slice hbuild]
  rfl

theorem put_zero (buf a : Bytes) : put buf 0 a = buf.copyAt 0 a := rfl

/-- A write that goes on where the one before it ended. -/
theorem put_next {buf a b : Bytes} {n : Nat} (h : a.length = n) :
    put (buf.copyAt 0 a) n b = buf.copyAt 0 (a ++ b) := by
  have hbehind := copyAt_behind a b (Nat.zero_le buf.length)
  rwa [Nat.zero_add, h] at hbehind

namespace Header

variable (h : Header)

def fields : Fields :=
  [(0, u32ToLe h.magic), (4, u32ToLe h.loadAddr), (8, u16ToLe h.hdrSize), (10, u16ToLe h.protectTlvSize),
    (12, u32ToLe h.imgSize), (16, u32ToLe h.flags), (20, h.version.encode), (28, u32ToLe h.pad1)]

theorem adjacent_fields : h.fields.Adjacent 0 := by
  simp [fields, h.version.length_encode]

theorem length_fields : h.fields.bytes.length = headerSize := by
  simp [fields, h.version.length_encode, headerSize]

theorem encode_eq : h.encode = h.fields.bytes := by
  have hversion := h.version.length_encode
  have hall : h.encode = copyAt (List.replicate headerSize 0) 0 h.fields.bytes := by
    rw [encode, put_zero, put_next (by simp), put_next (by simp), put_next (by simp), put_next (by simp),
      put_next (by simp), put_next (by simp), put_next (by simp [hversion])]
    simp [fields]
  rw [hall, copyAt_zero_of_length (by rw [h.length_fields, List.length_replicate])]

theorem length_encode : h.encode.length = headerSize := by
  rw [encode_eq, length_fields]

theorem in_encode : h.fields.In h.encode := by
  have hin : h.fields.In ([] ++ (h.fields.bytes ++ [])) := Fields.in_of_bytes h.adjacent_fields rfl []
  rwa [List.nil_append, List.append_nil, ← encode_eq] at hin

theorem decode_encode (rest : Bytes) : decode (h.encode ++ rest) = some h := by
  have hlen := h.length_encode
  have htake : (h.encode ++ rest).take headerSize = h.encode := by
    rw [← hlen, List.take_left]
  have hin := h.in_encode
  simp only [fields, Fields.in_cons, length_u32ToLe, length_u16ToLe, h.version.length_encode] at hin
  obtain ⟨hmagic, hload, hsize, hprotect, himg, hflags, hversion, hpad, -⟩ := hin
  rw [decode, if_pos (by rw [List.length_append]; omega)]
  simp only [htake, u32At_of_slice hmagic, u32At_of_slice hload, u16At_of_slice hsize, u16At_of_slice hprotect,
    u32At_of_slice himg, u32At_of_slice hflags, u32At_of_slice hpad, hversion, Version.decode_encode]

end Header

theorem entry_next {buf a : Bytes} (e : Entry) :
    entry (buf.copyAt 0 a) a.length e.kind e.value = (buf.copyAt 0 (a ++ e.bytes), (a ++ e.bytes).length) := by
  rw [entry, put_next rfl, put_next (by simp), put_next (by simp [entrySize])]
  simp only [Entry.bytes, List.append_assoc, List.length_append, length_u16ToLe, entrySize, Prod.mk.injEq, true_and]
  omega

theorem info_eq (buf : Bytes) (total : UInt16) :
    info buf total = (buf.copyAt 0 (u16ToLe infoMagic ++ u16ToLe total), tlvInfoSize) := by
  exact congrArg (fun out => (out, tlvInfoSize)) (put_next (length_u16ToLe infoMagic))

def unsignedEntries (sha256 : Digest) : List Entry := [⟨sha256Kind, sha256.val⟩]

def signedEntries (sha256 keyhash : Digest) (signature : Signature) : List Entry :=
  [⟨sha256Kind, sha256.val⟩, ⟨keyhashKind, keyhash.val⟩, ⟨ed25519Kind, signature.val⟩]

theorem areaSize_unsigned (d : Digest) : areaSize (unsignedEntries d) = unsignedSize := by
  simp [areaSize, unsignedEntries, d.property, unsignedSize, Nat.add_assoc]

theorem areaSize_signed (d k : Digest) (s : Signature) : areaSize (signedEntries d k s) = ed25519Size := by
  simp [areaSize, signedEntries, d.property, k.property, s.property, ed25519Size, unsignedSize, Nat.add_assoc]

theorem encodeUnsigned_eq (d : Digest) : encodeUnsigned d = areaBytes infoMagic (unsignedEntries d) := by
  have hnext := @entry_next (List.replicate unsignedSize 0)
    (u16ToLe infoMagic ++ u16ToLe (UInt16.ofNat unsignedSize)) ⟨sha256Kind, d.val⟩
  have hlen : (u16ToLe infoMagic ++ u16ToLe (UInt16.ofNat unsignedSize)).length = tlvInfoSize := by
    simp [tlvInfoSize]
  rw [hlen] at hnext
  rw [encodeUnsigned, info_eq]
  dsimp only
  rw [hnext, areaBytes, areaSize_unsigned]
  dsimp only
  rw [copyAt_zero_of_length (by simp [d.property, unsignedSize, entrySize, tlvInfoSize, sha256Len])]
  simp [unsignedEntries]

theorem encodeEd25519_eq (d k : Digest) (s : Signature) :
    encodeEd25519 d k s = areaBytes infoMagic (signedEntries d k s) := by
  have hlen : (u16ToLe infoMagic ++ u16ToLe (UInt16.ofNat ed25519Size)).length = tlvInfoSize := by
    simp [tlvInfoSize]
  have hfirst := @entry_next (List.replicate ed25519Size 0)
    (u16ToLe infoMagic ++ u16ToLe (UInt16.ofNat ed25519Size)) ⟨sha256Kind, d.val⟩
  rw [hlen] at hfirst
  rw [encodeEd25519, info_eq]
  dsimp only
  rw [hfirst]
  dsimp only
  rw [@entry_next _ _ ⟨keyhashKind, k.val⟩]
  dsimp only
  rw [@entry_next _ _ ⟨ed25519Kind, s.val⟩]
  dsimp only
  rw [areaBytes, areaSize_signed, copyAt_zero_of_length
    (by simp [d.property, k.property, s.property, ed25519Size, unsignedSize, entrySize, tlvInfoSize, sha256Len,
      ed25519Len])]
  simp [signedEntries]

end Bristlemouth.Mcuboot
