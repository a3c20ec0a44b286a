import Bristlemouth.Lib.Bytes

/-!
# CBOR items

The part of RFC 8949 a config value uses: heads of any width, integers, strings, single-precision
floats, and maps of them. `IsHead` and `Scalar.Encodes` say what a reader may meet, `preferredHead`
and `Scalar.encode` what a writer of shortest heads produces.
-/

set_option autoImplicit false

namespace Bristlemouth.Cbor

/-- The initial byte of an item. -/
def initial (major info : Nat) : UInt8 := UInt8.ofNat (32 * major + info)

/-- `bs` is a definite head: a major type and an argument, in any of the five widths. -/
inductive IsHead (major arg : Nat) : Bytes → Prop
  | short (h : arg < 24) : IsHead major arg [initial major arg]
  | long (k : Nat) (hk : k ≤ 3) (h : arg < 256 ^ 2 ^ k) :
      IsHead major arg (initial major (24 + k) :: Bytes.beBytes (2 ^ k) arg)

/-- The shortest head. -/
def preferredHead (major arg : Nat) : Bytes :=
  if arg < 24 then [initial major arg]
  else if arg < 256 then initial major 24 :: Bytes.beBytes 1 arg
  else if arg < 65536 then initial major 25 :: Bytes.beBytes 2 arg
  else if arg < 4294967296 then initial major 26 :: Bytes.beBytes 4 arg
  else initial major 27 :: Bytes.beBytes 8 arg

theorem isHead_preferredHead (major : Nat) {arg : Nat} (h : arg < 2 ^ 64) :
    IsHead major arg (preferredHead major arg) := by
  unfold preferredHead
  split_ifs with h0 h1 h2 h3
  · exact .short h0
  · exact .long 0 (by omega) (by omega)
  · exact .long 1 (by omega) (by omega)
  · exact .long 2 (by omega) (by omega)
  · exact .long 3 (by omega) (by omega)

theorem length_preferredHead_pos (major arg : Nat) : 0 < (preferredHead major arg).length := by
  unfold preferredHead
  split_ifs <;> simp

theorem length_preferredHead_le (major arg : Nat) : (preferredHead major arg).length ≤ 9 := by
  unfold preferredHead
  split_ifs <;> simp

theorem IsHead.length_pos {major arg : Nat} {h : Bytes} (hh : IsHead major arg h) :
    0 < h.length := by
  cases hh <;> simp

theorem IsHead.length_le {major arg : Nat} {h : Bytes} (hh : IsHead major arg h) :
    h.length ≤ 9 := by
  cases hh with
  | short => simp
  | long k hk =>
    have hpow : 2 ^ k ≤ 2 ^ 3 := Nat.pow_le_pow_right (by omega) hk
    simp only [List.length_cons, Bytes.length_beBytes]
    omega

/-- The items without a container. The integers carry the head's argument, a float its bits. -/
inductive Scalar where
  | unsigned (n : Nat)
  | negative (n : Nat)
  | bytes (b : Bytes)
  | text (b : Bytes)
  | single (bits : UInt32)
deriving DecidableEq

namespace Scalar

/-- A definite encoding of an item. A single-precision float has one. -/
inductive Encodes : Scalar → Bytes → Prop
  | unsigned {n : Nat} {h : Bytes} (hh : IsHead 0 n h) : Encodes (.unsigned n) h
  | negative {n : Nat} {h : Bytes} (hh : IsHead 1 n h) : Encodes (.negative n) h
  | bytes {b h : Bytes} (hh : IsHead 2 b.length h) : Encodes (.bytes b) (h ++ b)
  | text {b h : Bytes} (hh : IsHead 3 b.length h) : Encodes (.text b) (h ++ b)
  | single (bits : UInt32) :
      Encodes (.single bits) (initial 7 26 :: Bytes.beBytes 4 bits.toNat)

/-- The encoding with the shortest head. -/
def encode : Scalar → Bytes
  | .unsigned n => preferredHead 0 n
  | .negative n => preferredHead 1 n
  | .bytes b => preferredHead 2 b.length ++ b
  | .text b => preferredHead 3 b.length ++ b
  | .single bits => initial 7 26 :: Bytes.beBytes 4 bits.toNat

/-- The argument of an item's head fits sixty-four bits. -/
def Fits : Scalar → Prop
  | .unsigned n | .negative n => n < 2 ^ 64
  | .bytes b | .text b => b.length < 2 ^ 64
  | .single _ => True

theorem encodes_encode {s : Scalar} (h : s.Fits) : s.Encodes s.encode := by
  cases s with
  | unsigned n => exact .unsigned (isHead_preferredHead 0 h)
  | negative n => exact .negative (isHead_preferredHead 1 h)
  | bytes b => exact .bytes (isHead_preferredHead 2 h)
  | text b => exact .text (isHead_preferredHead 3 h)
  | single bits => exact .single bits

end Scalar

/-- A definite map of scalar pairs. -/
def encodeMap (pairs : List (Scalar × Scalar)) : Bytes :=
  preferredHead 5 pairs.length ++ pairs.flatMap fun p => p.1.encode ++ p.2.encode

end Bristlemouth.Cbor
