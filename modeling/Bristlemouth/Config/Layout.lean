import Bristlemouth.Lib.Bytes

/-!
# The layout of a config partition

`configuration.rs`: a partition is one flat image, a nine-byte header, fifty key records and fifty
value slots. The widths of a record's `key_len` and `value_type` are the ABI's, so every offset is a
function of a `Layout`.

`Field` names the pieces of an image. Two of them never overlap and all of them lie in the image
(`Layout.disjoint`, `Layout.fits`); what an operation writes is read off from these two facts.
-/

set_option autoImplicit false

namespace Bristlemouth.Config

def maxNumKv : Nat := 50

def maxKeyLenBytes : Nat := 32

def maxConfigBufferSizeBytes : Nat := 50

def configVersion : Nat := 0

def headerLen : Nat := 9

def keyBufLen : Nat := maxKeyLenBytes

def slotLen : Nat := maxConfigBufferSizeBytes

/-- The widths of `ConfigKey`'s `size_t key_len` and of its enum `value_type`. -/
structure Layout where
  keyLenWidth : Nat
  valueTypeWidth : Nat
  size_ok : keyLenWidth = 4 ∨ keyLenWidth = 8
  enum_ok : valueTypeWidth = 1 ∨ valueTypeWidth = 2 ∨ valueTypeWidth = 4

namespace Layout

def lp64 : Layout := ⟨8, 4, .inr rfl, .inr (.inr rfl)⟩

def armEabiGcc : Layout := ⟨4, 1, .inl rfl, .inl rfl⟩

def new (keyLenWidth valueTypeWidth : Nat) : Option Layout :=
  if h : (keyLenWidth = 4 ∨ keyLenWidth = 8) ∧
      (valueTypeWidth = 1 ∨ valueTypeWidth = 2 ∨ valueTypeWidth = 4) then
    some ⟨keyLenWidth, valueTypeWidth, h.1, h.2⟩
  else none

variable (l : Layout)

def keySize : Nat := keyBufLen + l.keyLenWidth + l.valueTypeWidth

def imageLen : Nat := headerLen + maxNumKv * l.keySize + maxNumKv * slotLen

def keyOffset (i : Nat) : Nat := headerLen + i * l.keySize

def valueOffset (i : Nat) : Nat := headerLen + maxNumKv * l.keySize + i * slotLen

end Layout

/-- The largest image, `Layout.lp64`'s. -/
def maxImageLen : Nat := Layout.lp64.imageLen

theorem Layout.imageLen_le (l : Layout) : l.imageLen ≤ maxImageLen := by
  rcases l.size_ok with hk | hk <;> rcases l.enum_ok with hv | hv | hv <;>
    simp [imageLen, keySize, hk, hv, maxImageLen, lp64, headerLen, maxNumKv, slotLen, keyBufLen,
      maxKeyLenBytes, maxConfigBufferSizeBytes]

example : maxImageLen = 4709 ∧ Layout.armEabiGcc.imageLen = 4359 := by decide

/-- The pieces of an image: the header's three, and four for each index. -/
inductive Field where
  | crc
  | version
  | numKeys
  | keyBuf (i : Nat)
  | keyLen (i : Nat)
  | valueType (i : Nat)
  | slot (i : Nat)
deriving DecidableEq

namespace Field

/-- The index of a field lies below `MAX_NUM_KV`. -/
def Valid : Field → Prop
  | crc | version | numKeys => True
  | keyBuf i | keyLen i | valueType i | slot i => i < maxNumKv

instance (f : Field) : Decidable f.Valid := by
  cases f <;> (unfold Valid; infer_instance)

def index : Field → Nat
  | crc | version | numKeys => 0
  | keyBuf i | keyLen i | valueType i | slot i => i

theorem index_lt {f : Field} (h : f.Valid) : f.index < maxNumKv := by
  cases f with
  | crc | version | numKeys => exact (by decide : 0 < maxNumKv)
  | keyBuf i | keyLen i | valueType i | slot i => exact h

end Field

namespace Layout

variable (l : Layout)

def offset : Field → Nat
  | .crc => 0
  | .version => 4
  | .numKeys => 8
  | .keyBuf i => l.keyOffset i
  | .keyLen i => l.keyOffset i + keyBufLen
  | .valueType i => l.keyOffset i + keyBufLen + l.keyLenWidth
  | .slot i => l.valueOffset i

def width : Field → Nat
  | .crc | .version => 4
  | .numKeys => 1
  | .keyBuf _ => keyBufLen
  | .keyLen _ => l.keyLenWidth
  | .valueType _ => l.valueTypeWidth
  | .slot _ => slotLen

theorem keyOffset_add_le {i j : Nat} (h : i < j) : l.keyOffset i + l.keySize ≤ l.keyOffset j := by
  have hmul : (i + 1) * l.keySize ≤ j * l.keySize := Nat.mul_le_mul_right _ h
  rw [Nat.add_mul, Nat.one_mul] at hmul
  simp only [keyOffset]
  omega

theorem keyOffset_add_le_values {i : Nat} (h : i < maxNumKv) (j : Nat) :
    l.keyOffset i + l.keySize ≤ l.valueOffset j := by
  have hkeys := l.keyOffset_add_le h
  simp only [keyOffset, valueOffset] at hkeys ⊢
  omega

theorem valueOffset_add_le {i j : Nat} (h : i < j) :
    l.valueOffset i + slotLen ≤ l.valueOffset j := by
  have hmul : (i + 1) * slotLen ≤ j * slotLen := Nat.mul_le_mul_right _ h
  rw [Nat.add_mul, Nat.one_mul] at hmul
  simp only [valueOffset]
  omega

theorem keySize_eq : l.keySize = keyBufLen + l.keyLenWidth + l.valueTypeWidth := rfl

theorem headerLen_le_keyOffset (i : Nat) : headerLen ≤ l.keyOffset i := Nat.le_add_right ..

theorem headerLen_le_valueOffset (i : Nat) : headerLen ≤ l.valueOffset i := by
  simp only [valueOffset]
  omega

theorem fits {f : Field} (h : f.Valid) : l.offset f + l.width f ≤ l.imageLen := by
  have hvalues : l.valueOffset maxNumKv = l.imageLen := rfl
  have hhead := l.headerLen_le_valueOffset maxNumKv
  have hkeySize := l.keySize_eq
  have hnine : headerLen = 9 := rfl
  cases f with
  | crc | version | numKeys => simp only [offset, width]; omega
  | keyBuf i | keyLen i | valueType i =>
    have hkey := l.keyOffset_add_le_values h maxNumKv
    simp only [offset, width]
    omega
  | slot i =>
    have hslot := l.valueOffset_add_le h
    simp only [offset, width]
    omega

/-- The fields of an image do not overlap. -/
theorem disjoint {f g : Field} (hf : f.Valid) (hg : g.Valid) (hne : f ≠ g) :
    l.offset f + l.width f ≤ l.offset g ∨ l.offset g + l.width g ≤ l.offset f := by
  have hkeySize := l.keySize_eq
  have hnine : headerLen = 9 := rfl
  -- a key record lies after the header and before every slot, and records go by their index
  have hhead := And.intro (l.headerLen_le_keyOffset f.index) (l.headerLen_le_keyOffset g.index)
  have hheadValue := And.intro (l.headerLen_le_valueOffset f.index)
    (l.headerLen_le_valueOffset g.index)
  have hfg := l.keyOffset_add_le_values (Field.index_lt hf) g.index
  have hgf := l.keyOffset_add_le_values (Field.index_lt hg) f.index
  have hkeys : (f.index = g.index ∧ l.keyOffset f.index = l.keyOffset g.index) ∨
      l.keyOffset f.index + l.keySize ≤ l.keyOffset g.index ∨
      l.keyOffset g.index + l.keySize ≤ l.keyOffset f.index := by
    rcases Nat.lt_trichotomy f.index g.index with h | h | h
    · exact .inr (.inl (l.keyOffset_add_le h))
    · exact .inl ⟨h, congrArg _ h⟩
    · exact .inr (.inr (l.keyOffset_add_le h))
  have hslots : f.index = g.index ∨ l.valueOffset f.index + slotLen ≤ l.valueOffset g.index ∨
      l.valueOffset g.index + slotLen ≤ l.valueOffset f.index := by
    rcases Nat.lt_trichotomy f.index g.index with h | h | h
    · exact .inr (.inl (l.valueOffset_add_le h))
    · exact .inl h
    · exact .inr (.inr (l.valueOffset_add_le h))
  cases f <;> cases g <;>
    simp only [Field.index, offset, width, ne_eq, not_true_eq_false, Field.keyBuf.injEq,
      Field.keyLen.injEq, Field.valueType.injEq, Field.slot.injEq] at * <;>
    omega

end Layout

end Bristlemouth.Config
