import Bristlemouth.Image.Elf
import Bristlemouth.Mcuboot.Encode
import Bristlemouth.Wire.Crc

/-!
# Building an image, and reading one

`image.rs`, `info.rs` and `version.rs` of the image tool. SHA-256 and the signature are parameters. What the
builder returns is read back: its header, its area with the values that went into it, and the body's version
note, which is the first one of the image too. A note is found where the bytes carry one, laid out as its
fields one after the other.
-/

set_option autoImplicit false

namespace Bristlemouth.Image

open Bytes Mcuboot

/-! ### The version note -/

/-- `VERSION_MAGIC`. -/
def versionMagic : UInt64 := 0xDF7F9AFDEC06627C
/-- The fields before `versionStr`. -/
def fixedLen : Nat := 22
def maxVersionStrLen : Nat := 96

/-- `versionInfo_t` without its magic. `versionStr` is the text before it is decoded. -/
structure VersionInfo where
  gitSha : UInt32
  major : UInt8
  minor : UInt8
  revision : UInt8
  hwVersion : UInt8
  flags : UInt32
  versionStr : Bytes
deriving DecidableEq

namespace VersionInfo

/-- `windows(FIXED_LEN).position(..)`: where the first note is. -/
def position (bytes : Bytes) : Option Nat :=
  (List.range (bytes.length + 1 - fixedLen)).find? fun i => (bytes.slice i fixedLen).take 8 = u64ToLe versionMagic

def ofBytes (b : Bytes) : VersionInfo :=
  let len := min (u16At b 20).toNat maxVersionStrLen
  let text := b.drop fixedLen
  { gitSha := u32At b 8
    major := b.byteAt 12
    minor := b.byteAt 13
    revision := b.byteAt 14
    hwVersion := b.byteAt 15
    flags := u32At b 16
    versionStr := text.take (min len text.length) }

/-- The first note, and its offset. -/
def find (bytes : Bytes) : Option (Nat × VersionInfo) :=
  (position bytes).map fun i => (i, ofBytes (bytes.drop i))

/-- A note as it lies in memory, before its text, with the text's declared length. -/
def fields (v : VersionInfo) (declared : UInt16) : Fields :=
  [(0, u64ToLe versionMagic), (8, u32ToLe v.gitSha), (12, [v.major, v.minor, v.revision, v.hwVersion]),
    (16, u32ToLe v.flags), (20, u16ToLe declared)]

/-- The first note in the bytes is at `i` and says `v`: its fields, and behind them as much of its text as is
declared, is allowed and is there. -/
structure Carries (bytes : Bytes) (i : Nat) (v : VersionInfo) : Prop where
  note : ∃ declared text, bytes.drop i = (v.fields declared).bytes ++ text ∧
    v.versionStr = text.take (min declared.toNat maxVersionStrLen)
  first : ∀ j, j < i → bytes.slice j 8 ≠ u64ToLe versionMagic

end VersionInfo

/-! ### The builder -/

/-- Why an image could not be built or read. -/
inductive ImageError where
  | noVersion
  | tooLong (len limit : Nat)
  | notAnImage
  | tlv (e : TlvError)
deriving DecidableEq

def hdrSize : Nat := bmHdrSize.toNat

/-- `Trailer::BM.status_off(IMGTOOL_MAX_SECTORS)`: the slot less a swap status of 128 sectors and the rest of
the trailer, at alignment 16. -/
def maxImageLen : Nat := 0xF2000 - (128 * (3 * 16) + (16 * 4 + 16))

/-- A private key, by what the builder asks of it. -/
structure SigningKey where
  keyhash : Digest
  sign : Digest → Signature

section
variable (sha256 : Bytes → Digest)

def build (body : Bytes) (version : Version) (key : Option SigningKey) : Except ImageError Bytes :=
  let tlvSize := match key with
    | some _ => ed25519Size
    | none => unsignedSize
  let len := hdrSize + body.length + tlvSize
  if len > maxImageLen then .error (.tooLong len maxImageLen)
  else
    let image := (Header.new (UInt32.ofNat body.length) version).encode
    let image := (image ++ List.replicate (hdrSize - image.length) 0xFF).take hdrSize
    let image := image ++ body
    let digest := sha256 image
    .ok (image ++ match key with
      | some key => encodeEd25519 digest key.keyhash (key.sign digest)
      | none => encodeUnsigned digest)

structure Info where
  size : UInt32
  crc16 : UInt16
  header : Header
  tlvs : List (UInt16 × Bytes)
  sha256Ok : Bool
  trailing : Nat
  version : Option (Nat × VersionInfo)
deriving DecidableEq

def Info.read (file : Bytes) : Except ImageError Info := do
  let header ← match (Header.decode file).filter fun h => h.magic = imageMagic with
    | some header => .ok header
    | none => .error .notAnImage
  let area ← (TlvArea.parse file header).mapError .tlv
  let tlvs ← (area.iter.mapM fun (item : Except TlvError Tlv) =>
    item.map fun t => (t.kind, t.value)).mapError .tlv
  let digest := sha256 (file.take area.start)
  let sha256Ok := decide (area.find sha256Kind = some digest.val)
  let size ← if file.length < 2 ^ 32 then .ok (UInt32.ofNat file.length) else .error .notAnImage
  .ok {
    size := size
    crc16 := crc16Ccitt 0 file
    header := header
    tlvs := tlvs
    sha256Ok := sha256Ok
    trailing := file.length - area.endOff
    version := VersionInfo.find file }

/-! ### The image in parts -/

/-- The header and its padding. -/
def front (body : Bytes) (version : Version) : Bytes :=
  (Header.new (UInt32.ofNat body.length) version).encode ++ List.replicate (hdrSize - headerSize) 0xFF

/-- What the area says of a digest. -/
def entriesOf (digest : Digest) : Option SigningKey → List Entry
  | some key => signedEntries digest key.keyhash (key.sign digest)
  | none => unsignedEntries digest

theorem length_front (body : Bytes) (version : Version) : (front body version).length = hdrSize := by
  rw [front, List.length_append, Header.length_encode, List.length_replicate]
  rfl

/-- What the builder returns, and when. -/
theorem build_eq_ok {body image : Bytes} {version : Version} {key : Option SigningKey}
    (h : build sha256 body version key = .ok image) :
    image = front body version ++ body ++
        areaBytes infoMagic (entriesOf (sha256 (front body version ++ body)) key) ∧
      hdrSize + body.length + areaSize (entriesOf (sha256 (front body version ++ body)) key) ≤ maxImageLen := by
  have hresize : ((Header.new (UInt32.ofNat body.length) version).encode ++ List.replicate
      (hdrSize - (Header.new (UInt32.ofNat body.length) version).encode.length) 0xFF).take hdrSize =
        front body version := by
    rw [Header.length_encode, ← front, List.take_of_length_le (length_front body version).le]
  cases key with
  | none =>
    simp only [build, hresize] at h
    split_ifs at h with hlen
    cases h
    rw [encodeUnsigned_eq, entriesOf, areaSize_unsigned]
    exact ⟨rfl, Nat.not_lt.mp hlen⟩
  | some key =>
    simp only [build, hresize] at h
    split_ifs at h with hlen
    cases h
    rw [encodeEd25519_eq, entriesOf, areaSize_signed]
    exact ⟨rfl, Nat.not_lt.mp hlen⟩

/-- The image as the bootloader lays it out: one area and nothing after it. -/
def builtLayout (body : Bytes) (version : Version) (key : Option SigningKey) : Layout where
  before := front body version ++ body
  protectedArea := none
  unprotected := entriesOf (sha256 (front body version ++ body)) key
  after := []
  protectedFits := fun _ h => absurd h.symm (Option.some_ne_none _)
  unprotectedFits := by
    cases key with
    | none => exact (areaSize_unsigned _).trans_lt (by decide)
    | some key => exact (areaSize_signed _ _ _).trans_lt (by decide)

section

variable {sha256} {body image : Bytes} {version : Version} {key : Option SigningKey}

theorem length_before : (builtLayout sha256 body version key).before.length = hdrSize + body.length := by
  rw [builtLayout, List.length_append, length_front]

theorem length_image (h : build sha256 body version key = .ok image) :
    image.length = (builtLayout sha256 body version key).area.endOff ∧ image.length ≤ maxImageLen := by
  obtain ⟨himage, hlen⟩ := build_eq_ok sha256 h
  have hwhole : image.length =
      hdrSize + body.length + areaSize (entriesOf (sha256 (front body version ++ body)) key) := by
    rw [himage, List.length_append, List.length_append, length_front, length_areaBytes]
  refine ⟨hwhole.trans ?_, by omega⟩
  rw [Layout.area, length_before]
  rfl

namespace VersionInfo

theorem position_eq_some {bytes : Bytes} {i : Nat} : position bytes = some i ↔
    i + fixedLen ≤ bytes.length ∧ bytes.slice i 8 = u64ToLe versionMagic ∧
      ∀ j, j < i → bytes.slice j 8 ≠ u64ToLe versionMagic := by
  have htake : ∀ k, (bytes.slice k fixedLen).take 8 = bytes.slice k 8 := fun k => by
    rw [slice, slice, List.take_take]
    rfl
  simp only [position, List.find?_range_eq_some, List.mem_range, htake, decide_eq_true_iff, Bool.not_eq_true',
    decide_eq_false_iff_not]
  have hfixed : fixedLen = 22 := rfl
  constructor
  · rintro ⟨hmagic, hlt, hfirst⟩
    exact ⟨by omega, hmagic, hfirst⟩
  · rintro ⟨hle, hmagic, hfirst⟩
    exact ⟨hmagic, by omega, hfirst⟩

theorem adjacent_fields (v : VersionInfo) (declared : UInt16) : (v.fields declared).Adjacent 0 := by
  simp [fields]

theorem length_fields (v : VersionInfo) (declared : UInt16) : (v.fields declared).bytes.length = fixedLen := by
  simp [fields, fixedLen]

end VersionInfo

end

end

end Bristlemouth.Image
