import Bristlemouth.Lib.Bytes

/-!
# CRC-16/CCITT and CRC-32/IEEE

`crc.rs`: the reflected CRC that accumulates over a DFU image, chunk by chunk, and the one in the
header of a config image.
-/

set_option autoImplicit false

namespace Bristlemouth

/-- The body of the loop of `crc16_ccitt`. -/
def crc16Step (crc : UInt16) (byte : UInt8) : UInt16 :=
  let e := (crc ^^^ byte.toUInt16).toUInt8
  let f := (e ^^^ (e <<< 4)).toUInt16
  (crc >>> 8) ^^^ (f <<< 8) ^^^ (f <<< 3) ^^^ (f >>> 4)

def crc16Ccitt (seed : UInt16) (data : Bytes) : UInt16 := data.foldl crc16Step seed

@[simp] theorem crc16Ccitt_nil (seed : UInt16) : crc16Ccitt seed [] = seed := rfl

/-- The CRC chains across a split of the image. -/
theorem crc16Ccitt_append (seed : UInt16) (a b : Bytes) :
    crc16Ccitt seed (a ++ b) = crc16Ccitt (crc16Ccitt seed a) b := List.foldl_append

example : crc16Ccitt 0 [0x31, 0x32, 0x33, 0x34, 0x35, 0x36, 0x37, 0x38, 0x39] = 0x2189 := by decide

/-- `TABLE`: polynomial `0xedb88320`, by nibble. -/
def crc32Table : List UInt32 :=
  [0x00000000, 0x1db71064, 0x3b6e20c8, 0x26d930ac, 0x76dc4190, 0x6b6b51f4, 0x4db26158, 0x5005713c,
    0xedb88320, 0xf00f9344, 0xd6d6a3e8, 0xcb61b38c, 0x9b64c2b0, 0x86d3d2d4, 0xa00ae278, 0xbdbdf21c]

def crc32Nibble (crc nibble : UInt32) : UInt32 :=
  (crc >>> 4) ^^^ crc32Table.getD ((crc ^^^ nibble) &&& 0x0f).toNat 0

/-- The body of the loop of `crc32_ieee_update`, low nibble first. -/
def crc32Step (crc : UInt32) (byte : UInt8) : UInt32 :=
  crc32Nibble (crc32Nibble crc byte.toUInt32) (byte.toUInt32 >>> 4)

def crc32IeeeUpdate (crc : UInt32) (data : Bytes) : UInt32 := ~~~ data.foldl crc32Step (~~~ crc)

def crc32Ieee (data : Bytes) : UInt32 := crc32IeeeUpdate 0 data

example : crc32Ieee [0x31, 0x32, 0x33, 0x34, 0x35, 0x36, 0x37, 0x38, 0x39] = 0xcbf43926 := by decide

end Bristlemouth
