import Bristlemouth.Lib.Cbor

/-!
# Well-formed items

The grammar of RFC 8949: what one well-formed item is, byte for byte, with definite and indefinite
containers, chunked strings and tags. `Item d` bounds the containers that are nested by `d`.
-/

set_option autoImplicit false

namespace Bristlemouth.Cbor

def breakCode : UInt8 := 0xff

/-- Definite strings of one major type, one behind the other. -/
inductive Chunks (major : Nat) : Bytes → Prop
  | nil : Chunks major []
  | cons {h body rest : Bytes} (hh : IsHead major body.length h) (hrest : Chunks major rest) :
      Chunks major (h ++ body ++ rest)

/-- The items an array or a map has for each that its head counts. -/
def itemsPer (major : Nat) : Nat := if major = 5 then 2 else 1

/-- One well-formed item in which at most `d` containers are nested. -/
inductive Item : Nat → Bytes → Prop
  | integer {d major arg : Nat} {h : Bytes} (hm : major ≤ 1) (hh : IsHead major arg h) : Item d h
  /-- A simple value below 32 is not written in two bytes. -/
  | simple {d arg : Nat} {h : Bytes} (hh : IsHead 7 arg h) (hwide : h.length = 2 → 32 ≤ arg) : Item d h
  | string {d major : Nat} {h body : Bytes} (hm : major = 2 ∨ major = 3)
      (hh : IsHead major body.length h) : Item d (h ++ body)
  | chunked {d major : Nat} {bs : Bytes} (hm : major = 2 ∨ major = 3) (hchunks : Chunks major bs) :
      Item d (initial major 31 :: (bs ++ [breakCode]))
  | container {d major n : Nat} {h : Bytes} {items : List Bytes} (hm : major = 4 ∨ major = 5)
      (hh : IsHead major n h) (hlen : items.length = itemsPer major * n)
      (hitems : ∀ b ∈ items, Item d b) : Item (d + 1) (h ++ items.flatten)
  | unbounded {d major n : Nat} {items : List Bytes} (hm : major = 4 ∨ major = 5)
      (hlen : items.length = itemsPer major * n) (hitems : ∀ b ∈ items, Item d b) :
      Item (d + 1) (initial major 31 :: (items.flatten ++ [breakCode]))
  | tagged {d arg : Nat} {h b : Bytes} (hh : IsHead 6 arg h) (hb : Item d b) : Item d (h ++ b)

theorem Item.length_pos {d : Nat} {b : Bytes} (h : Item d b) : 0 < b.length := by
  cases h with
  | integer hm hh => exact hh.length_pos
  | simple hh hwide => exact hh.length_pos
  | string hm hh =>
    have hpos := hh.length_pos
    rw [List.length_append]
    omega
  | chunked hm hchunks => exact Nat.succ_pos _
  | container hm hh hlen hitems =>
    have hpos := hh.length_pos
    rw [List.length_append]
    omega
  | unbounded hm hlen hitems => exact Nat.succ_pos _
  | tagged hh hb =>
    have hpos := hh.length_pos
    rw [List.length_append]
    omega

/-- A bound on the nesting may be raised. -/
theorem Item.succ {d : Nat} {b : Bytes} (h : Item d b) : Item (d + 1) b := by
  induction h with
  | integer hm hh => exact .integer hm hh
  | simple hh hwide => exact .simple hh hwide
  | string hm hh => exact .string hm hh
  | chunked hm hchunks => exact .chunked hm hchunks
  | container hm hh hlen _ ih => exact .container hm hh hlen ih
  | unbounded hm hlen _ ih => exact .unbounded hm hlen ih
  | tagged hh _ ih => exact .tagged hh ih

end Bristlemouth.Cbor
