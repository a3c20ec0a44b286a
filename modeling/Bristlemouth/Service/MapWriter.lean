import Bristlemouth.Config.Values
import Bristlemouth.Parser.Cursor

/-!
# Service bodies

`service.rs`: a body is a map with text keys, written into a caller's buffer by `MapWriter` and read back
item by item. A writer that runs out of room has failed for good, so a body is written whole or refused.
-/

set_option autoImplicit false

namespace Bristlemouth.Service

open Bytes Config Bristlemouth.Parser

/-- Where there is no room a write is refused. -/
class Cbor2.Refusing [Cbor2] : Prop where
  push_full : ∀ (h : Header) (buf : Bytes), buf.length < h.encode.length → (Cbor2.push h buf).ok = false
  writeAll_full : ∀ bs buf : Bytes, buf.length < bs.length → (Cbor2.writeAll bs buf).ok = false

theorem shortest_refusing : @Cbor2.Refusing Cbor2.shortest :=
  @Cbor2.Refusing.mk Cbor2.shortest
    (fun _ _ hshort => congrArg Pushed.ok (if_neg (Nat.not_le.mpr hshort)))
    (fun _ _ hshort => congrArg Pushed.ok (if_neg (Nat.not_le.mpr hshort)))

/-- The buffer, how much of it is written, and whether something did not fit. -/
structure MapWriter where
  out : Bytes
  pos : Nat
  full : Bool

namespace MapWriter

def took (w : MapWriter) (pushed : Pushed) : MapWriter :=
  ⟨w.out.take w.pos ++ pushed.buf, w.pos + pushed.used, w.full || !pushed.ok⟩

section
variable [Cbor2]

def push (w : MapWriter) (header : Header) : MapWriter := w.took (Cbor2.push header (w.out.drop w.pos))

def write (w : MapWriter) (bytes : Bytes) : MapWriter := w.took (Cbor2.writeAll bytes (w.out.drop w.pos))

def text (w : MapWriter) (text : Bytes) : MapWriter := (w.push (.text text.length)).write text

def positive (w : MapWriter) (value : UInt64) : MapWriter := w.push (.positive value)

def uint (w : MapWriter) (key : Bytes) (value : UInt64) : MapWriter := (w.text key).push (.positive value)

def map (w : MapWriter) (len : Nat) : MapWriter := w.push (.map len)

/-- Of an `f32`'s bits. -/
def float (w : MapWriter) (bits : UInt32) : MapWriter := (w.write [0xfa]).write (beBytes 4 bits.toNat)

/-- Of an `f64`'s bits. -/
def double (w : MapWriter) (bits : UInt64) : MapWriter := (w.write [0xfb]).write (beBytes 8 bits.toNat)

def new (out : Bytes) (fields : Nat) : MapWriter := push ⟨out, 0, false⟩ (.map fields)

end

end MapWriter

/-- The buffer afterwards, and the length that is returned. -/
def encodeMap [Cbor2] (out : Bytes) (fields : Nat) (body : MapWriter → MapWriter) :
    Bytes × Except CborError Nat :=
  let w := body (MapWriter.new out fields)
  (w.out, if w.full then .error .outOfMemory else .ok w.pos)

/-- The map, and the iterator on its first key. -/
def enterMap (u : Usize) (buf : Bytes) (fields : Nat) : Run (Value × Value) := do
  let map ← Value.parse u buf
  map.validateBasic u
  if !map.isMap then fail .illegalType
  else if (← map.mapLength u) ≠ fields then fail .unknownLength
  else
    let value ← map.enterContainer u
    return (map, value)

def skipKey (u : Usize) (value : Value) : Run Value :=
  if !value.isTextString then fail .illegalType else (value.advance u).get

def leaveMap (u : Usize) (map value : Value) : Run Unit := do
  let map ← (map.leaveContainer u value).get
  if !map.atEnd then fail .garbageAtEnd else return

/-! ### What is written -/

/-- `w'` is `w` with `bs` behind what was written, or has no room for it. -/
structure Wrote (bs : Bytes) (w w' : MapWriter) : Prop where
  full : w.full = true → w'.full = true
  fits : w.full = false → w.pos + bs.length ≤ w.out.length →
    w' = ⟨w.out.copyAt w.pos bs, w.pos + bs.length, false⟩
  short : w.full = false → w.pos ≤ w.out.length → w.out.length < w.pos + bs.length → w'.full = true

namespace Wrote

theorem nil (w : MapWriter) : Wrote [] w w := by
  refine ⟨id, fun hfull hfit => ?_, fun _ hinside hshort => absurd hinside (Nat.not_le.mpr hshort)⟩
  obtain ⟨out, pos, full⟩ := w
  cases hfull
  simp [copyAt]

theorem trans {a b : Bytes} {w x y : MapWriter} (h : Wrote a w x) (h' : Wrote b x y) :
    Wrote (a ++ b) w y := by
  refine ⟨fun hfull => h'.full (h.full hfull), fun hopen hfit => ?_, fun hopen hinside hshort => ?_⟩
  · rw [List.length_append] at hfit
    have hx := h.fits hopen (by omega)
    subst hx
    have hlen := length_copyAt w.out w.pos a (by omega)
    have hy := h'.fits rfl (by dsimp only; omega)
    rw [hy, List.length_append, Nat.add_assoc]
    congr 1
    exact copyAt_behind a b (by omega)
  · rw [List.length_append] at hshort
    by_cases hfit : w.pos + a.length ≤ w.out.length
    · have hx := h.fits hopen hfit
      subst hx
      have hlen := length_copyAt w.out w.pos a hfit
      exact h'.short rfl (by dsimp only; omega) (by dsimp only; omega)
    · exact h'.full (h.short hopen hinside (by omega))

/-- One call of the encoder, over what is left of the buffer. -/
theorem of_took {w : MapWriter} {bs : Bytes} {pushed : Pushed}
    (hfits : bs.length ≤ (w.out.drop w.pos).length →
      pushed = ⟨true, copyAt (w.out.drop w.pos) 0 bs, bs.length⟩)
    (hshort : (w.out.drop w.pos).length < bs.length → pushed.ok = false) :
    Wrote bs w (w.took pushed) := by
  rw [List.length_drop] at hfits hshort
  refine ⟨fun hfull => ?_, fun hopen hfit => ?_, fun _ hinside hlt => ?_⟩
  · rw [MapWriter.took, hfull]
    rfl
  · have hout : w.out.take w.pos ++ copyAt (w.out.drop w.pos) 0 bs = w.out.copyAt w.pos bs := by
      have hleft : (w.out.take w.pos).length = w.pos := by
        rw [List.length_take]
        omega
      have hright := @copyAt_append_right (w.out.take w.pos) (w.out.drop w.pos) 0 bs
      rw [List.take_append_drop, hleft] at hright
      exact hright.symm
    rw [hfits (by omega), MapWriter.took, hopen, hout]
    rfl
  · rw [MapWriter.took, hshort (by omega)]
    exact Bool.or_true _

/-- A pair in front of the pairs that are written behind it. -/
theorem cons {key value : Bytes} {pairs : List (Bytes × Bytes)} {w x y : MapWriter}
    (h : Wrote ((Cbor.Scalar.text key).encode ++ value) w x) (h' : Wrote (Ahead.pairItems pairs).flatten x y) :
    Wrote (Ahead.pairItems ((key, value) :: pairs)).flatten w y := by
  rw [Ahead.pairItems_cons, List.flatten_cons, List.flatten_cons, ← List.append_assoc]
  exact h.trans h'

section
variable [Cbor2] [Cbor2.Minimal] [Cbor2.Refusing]

theorem push (w : MapWriter) (header : Header) : Wrote header.encode w (w.push header) :=
  of_took (Cbor2.Minimal.push_eq header _) (Cbor2.Refusing.push_full header _)

theorem write (w : MapWriter) (bs : Bytes) : Wrote bs w (w.write bs) :=
  of_took (Cbor2.Minimal.writeAll_eq bs _) (Cbor2.Refusing.writeAll_full bs _)

theorem text (w : MapWriter) (bs : Bytes) : Wrote (Cbor.Scalar.text bs).encode w (w.text bs) :=
  (push w (.text bs.length)).trans (write _ bs)

theorem positive (w : MapWriter) (value : UInt64) :
    Wrote (Cbor.Scalar.unsigned value.toNat).encode w (w.positive value) :=
  push w (.positive value)

theorem uint (w : MapWriter) (key : Bytes) (value : UInt64) :
    Wrote ((Cbor.Scalar.text key).encode ++ (Cbor.Scalar.unsigned value.toNat).encode) w (w.uint key value) :=
  (text w key).trans (positive _ value)

theorem map (w : MapWriter) (len : Nat) : Wrote (Cbor.preferredHead 5 len) w (w.map len) :=
  push w (.map len)

theorem float (w : MapWriter) (bits : UInt32) :
    Wrote (Cbor.initial 7 26 :: beBytes 4 bits.toNat) w (w.float bits) :=
  (write w [0xfa]).trans (write _ (beBytes 4 bits.toNat))

theorem double (w : MapWriter) (bits : UInt64) :
    Wrote (Cbor.initial 7 27 :: beBytes 8 bits.toNat) w (w.double bits) :=
  (write w [0xfb]).trans (write _ (beBytes 8 bits.toNat))

end

end Wrote

/-- What an encoder does that writes `bytes`: all of them, or nothing that counts. -/
def Encodes (bytes : Bytes) (encode : Bytes → Bytes × Except CborError Nat) : Prop :=
  ∀ out : Bytes, if bytes.length ≤ out.length then encode out = (out.copyAt 0 bytes, .ok bytes.length)
    else (encode out).2 = .error .outOfMemory

theorem encodes_map [Cbor2] [Cbor2.Minimal] [Cbor2.Refusing] {fields : Nat} {body : MapWriter → MapWriter}
    {bs : Bytes} (hbody : ∀ w, Wrote bs w (body w)) :
    Encodes (Cbor.preferredHead 5 fields ++ bs) fun out => encodeMap out fields body := by
  intro out
  have hwrote : Wrote (Cbor.preferredHead 5 fields ++ bs) ⟨out, 0, false⟩ (body (MapWriter.new out fields)) :=
    (Wrote.map ⟨out, 0, false⟩ fields).trans (hbody _)
  by_cases hfit : (Cbor.preferredHead 5 fields ++ bs).length ≤ out.length
  · have hw := hwrote.fits rfl (by dsimp only; omega)
    rw [if_pos hfit]
    simp only [encodeMap, hw, Bool.false_eq_true, if_false, Nat.zero_add]
  · have hw := hwrote.short rfl (Nat.zero_le _) (by dsimp only; omega)
    rw [if_neg hfit]
    simp only [encodeMap, hw, if_true]

/-! ### What is read back -/

/-- Items that are written with a text in front of each, in the order of the pairs. -/
def bodyOf (pairs : List (Bytes × Bytes)) : Bytes :=
  Cbor.preferredHead 5 pairs.length ++ (Ahead.pairItems pairs).flatten

/-- A value that may stand in a map which `d` maps may stand around. -/
def Fine (d : Nat) (b : Bytes) : Prop := Cbor.Item d b ∧ Untagged b

theorem fine_unsigned (d : Nat) {n : Nat} (h : n < 2 ^ 64) : Fine d (Cbor.Scalar.unsigned n).encode := by
  have hh := Cbor.isHead_preferredHead 0 h
  exact ⟨.integer (Nat.zero_le 1) hh, untagged_isHead hh (by decide) (by decide)⟩

theorem fine_text (d : Nat) {text : Bytes} (h : text.length < 2 ^ 64) :
    Fine d (Cbor.Scalar.text text).encode := by
  have hh := Cbor.isHead_preferredHead 3 h
  exact ⟨.string (.inr rfl) hh, untagged_append _ (untagged_isHead hh (by decide) (by decide)) hh.length_pos⟩

theorem Fine.succ {d : Nat} {b : Bytes} (h : Fine d b) : Fine (d + 1) b := ⟨h.1.succ, h.2⟩

theorem fine_pairItems {d : Nat} {pairs : List (Bytes × Bytes)}
    (h : ∀ pair ∈ pairs, pair.1.length < 2 ^ 64 ∧ Fine d pair.2) : ∀ b ∈ Ahead.pairItems pairs, Fine d b := by
  intro b hb
  obtain ⟨pair, hpair, hmem⟩ := List.mem_flatMap.mp hb
  obtain ⟨hkey, hvalue⟩ := h pair hpair
  rcases List.mem_pair.mp hmem with rfl | rfl
  · exact fine_text d hkey
  · exact hvalue

theorem fine_bodyOf {d : Nat} {pairs : List (Bytes × Bytes)} (hlen : pairs.length < 2 ^ 64)
    (h : ∀ pair ∈ pairs, pair.1.length < 2 ^ 64 ∧ Fine d pair.2) : Fine (d + 1) (bodyOf pairs) := by
  have hh := Cbor.isHead_preferredHead 5 hlen
  have hcount : (Ahead.pairItems pairs).length = Cbor.itemsPer 5 * pairs.length := Ahead.length_pairItems pairs
  refine ⟨.container (.inr rfl) hh hcount fun b hb => (fine_pairItems h b hb).1, ?_⟩
  exact untagged_append _ (untagged_isHead hh (by decide) (by decide)) hh.length_pos

theorem length_le_pairItems {pairs : List (Bytes × Bytes)} {pair : Bytes × Bytes} (h : pair ∈ pairs) :
    pair.1.length + pair.2.length ≤ (Ahead.pairItems pairs).flatten.length := by
  induction pairs with
  | nil => exact absurd h List.not_mem_nil
  | cons first pairs ih =>
    rw [Ahead.pairItems_cons, List.flatten_cons, List.flatten_cons, List.length_append, List.length_append,
      Cbor.Scalar.encode, List.length_append]
    rcases List.mem_cons.mp h with rfl | h
    · omega
    · have hrest := ih h
      omega

/-- A body is longer than any entry of it. -/
theorem length_le_bodyOf {pairs : List (Bytes × Bytes)} {pair : Bytes × Bytes} (h : pair ∈ pairs) :
    pair.1.length + pair.2.length ≤ (bodyOf pairs).length := by
  have hitems := length_le_pairItems h
  rw [bodyOf, List.length_append]
  omega

/-- Each entry has a key, which has a head. -/
theorem length_pairs_le (pairs : List (Bytes × Bytes)) : pairs.length ≤ (bodyOf pairs).length := by
  have hitems : pairs.length ≤ (Ahead.pairItems pairs).flatten.length := by
    induction pairs with
    | nil => exact Nat.le_refl 0
    | cons first pairs ih =>
      have hhead := Cbor.length_preferredHead_pos 3 first.1.length
      rw [Ahead.pairItems_cons, List.flatten_cons, List.flatten_cons, List.length_append, List.length_append,
        Cbor.Scalar.encode, List.length_append, List.length_cons]
      omega
  rw [bodyOf, List.length_append]
  omega

section
variable {u : Usize} {buf rest value : Bytes} {items : List Bytes} {pairs : List (Bytes × Bytes)} {v : Value}

theorem enterMap_ok (hbuf : buf = bodyOf pairs) (hshort : buf.length < 2 ^ 31) (hlen : pairs.length < 2 ^ 32)
    (hfine : ∀ pair ∈ pairs, pair.1.length < 2 ^ 64 ∧ Fine 9 pair.2) :
    ∃ map w, enterMap u buf pairs.length = .ok (map, w) ∧ Ahead buf [buf] [] map ∧
      Ahead buf (Ahead.pairItems pairs) [] w := by
  have hh := @Cbor.isHead_preferredHead 5 pairs.length (by omega)
  obtain ⟨hitem, huntagged⟩ := fine_bodyOf (by omega) hfine
  obtain ⟨map, hmap, hahead⟩ := Ahead.parse (u := u) hshort (hbuf ▸ hitem) (hbuf ▸ huntagged)
  obtain ⟨behind, hadvance, -⟩ := hahead.advance (u := u)
  have hcount := Ahead.length_pairItems pairs
  have heach : ∀ b ∈ Ahead.pairItems pairs, Cbor.Item maxRecursions b ∧ Untagged b :=
    fun b hb => (fine_pairItems hfine b hb).succ
  have hinside : Ahead buf [Cbor.preferredHead 5 pairs.length ++ (Ahead.pairItems pairs).flatten] [] map := by
    rw [bodyOf] at hbuf
    rw [← hbuf]
    exact hahead
  have hismap : map.isMap = true := (hinside.map_iff hh (by decide)).mpr rfl
  have hlength := hinside.mapLength (u := u) hh hlen
  obtain ⟨w, hw, hwahead⟩ := hinside.enter (u := u) hh hcount heach
  refine ⟨map, w, ?_, hahead, hwahead⟩
  have hvalid : map.validateBasic u = .ok () := by rw [Value.validateBasic, hadvance]
  rw [enterMap, hmap]
  simp only [bind, Except.bind, hvalid, hismap, Bool.not_true, Bool.false_eq_true, if_false, hlength, ne_eq,
    not_true_eq_false, hw]
  rfl

theorem leaveMap_ok {map : Value} (hbuf : buf = bodyOf pairs) (hlen : pairs.length < 2 ^ 64)
    (hmap : Ahead buf [buf] [] map) (hend : Ahead buf [] [] v) : leaveMap u map v = .ok () := by
  rw [bodyOf] at hbuf
  have hh := Cbor.isHead_preferredHead 5 hlen
  have hwhole := hmap
  rw [congrArg (fun b => [b]) hbuf] at hwhole
  obtain ⟨w, hw, hahead⟩ := hwhole.leave (u := u) hh hend rfl
  have hzero : w.remaining = 0 := UInt32.toNat_inj.mp hahead.remaining
  have hat : w.atEnd = true := decide_eq_true hzero
  have hget : (map.leaveContainer u v).get = .ok w := by
    rw [hw]
    rfl
  rw [leaveMap, hget]
  simp only [bind, Except.bind, hat, Bool.not_true, Bool.false_eq_true, if_false]
  rfl

theorem skipKey_ok {text : Bytes} (h : Ahead buf ((Cbor.Scalar.text text).encode :: items) rest v) :
    ∃ w, skipKey u v = .ok w ∧ Ahead buf items rest w := by
  have htext : v.isTextString = true := (h.text_iff h.text_isHead (by decide)).mpr rfl
  obtain ⟨w, hw, hahead⟩ := h.advance (u := u)
  refine ⟨w, ?_, hahead⟩
  rw [skipKey, htext, hw]
  rfl

theorem advance_ok {b : Bytes} (h : Ahead buf (b :: items) rest v) :
    ∃ w, (v.advance u).get = .ok w ∧ Ahead buf items rest w := by
  obtain ⟨w, hw, hahead⟩ := h.advance (u := u)
  refine ⟨w, ?_, hahead⟩
  rw [hw]
  rfl

theorem unsigned_ok {n : UInt64} (h : Ahead buf ((Cbor.Scalar.unsigned n.toNat).encode :: items) rest v) :
    v.isUnsignedInteger = true ∧ v.extract u = .ok n := by
  obtain ⟨hunsigned, x, hx, hvalue⟩ := h.unsigned (u := u) (Cbor.isHead_preferredHead 0 n.toNat_lt)
  exact ⟨hunsigned, hx.trans (congrArg _ (UInt64.toNat_inj.mp hvalue))⟩

end

/-! ### Decoders that write as they read -/

/-- A decoder of `D`: what it wrote stays written when it fails. -/
abbrev Into (D α : Type) := ExceptT Halt (StateM D) α

def reading {D α : Type} (r : Run α) : Into D α := ExceptT.mk (pure r)

/-- What is left in `d`, and the outcome. -/
def Into.into {D α : Type} (x : Into D α) (d : D) : D × Run α := ((x.run.run d).2, (x.run.run d).1)

section
variable {D α β : Type} (d : D)

@[simp] theorem reading_ok_bind (a : α) (f : α → Into D β) : (reading (.ok a) >>= f) = f a := rfl

@[simp] theorem into_reading (r : Run α) : (reading r : Into D α).into d = (d, r) := rfl

@[simp] theorem into_modify_bind (g : D → D) (f : Unit → Into D β) :
    ((modify g : Into D Unit) >>= f).into d = (f ()).into (g d) := rfl

@[simp] theorem into_get_bind (f : D → Into D β) : ((get : Into D D) >>= f).into d = (f d).into d := rfl

end

end Bristlemouth.Service
