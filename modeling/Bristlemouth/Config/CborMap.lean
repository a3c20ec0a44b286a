import Bristlemouth.Config.Runs
import Bristlemouth.Config.Values
import Bristlemouth.Lib.Sink
import Bristlemouth.Parser.Total
import Bristlemouth.Wire.CrcDivision

/-!
# The config map

`ConfigPartition::cbor_map`: every stored key and its value as one map. It is written twice, into a buffer
and through a checksum, by one function over a `Sink`. What a sink is given does not depend on the sink.
-/

set_option autoImplicit false

namespace Bristlemouth.Config

open Bytes Bristlemouth.Parser

inductive MapError where
  | noMap
  | tooSmall (len : Nat)
  | unreachable
deriving DecidableEq

/-- A caller's buffer, counting what does not fit. -/
structure BufSink where
  out : Bytes
  len : Nat

instance : Sink BufSink where
  put s bytes :=
    ⟨if s.len + bytes.length ≤ s.out.length then s.out.copyAt s.len bytes else s.out, s.len + bytes.length⟩

/-- A running CRC-32. -/
structure CrcSink where
  crc : UInt32

instance : Sink CrcSink where
  put s bytes := ⟨crc32IeeeUpdate s.crc bytes⟩

/-- The loop's state. -/
structure MapLoop (S : Type) where
  sink : S
  /-- `it`, which keeps the value of an earlier key. -/
  it : Option Value
  complete : Bool

/-- `Result::ok` of a call that may not panic. -/
def okOf {α : Type} : Run α → Option (Option α)
  | .ok a => some (some a)
  | .error (.error _) => some none
  | .error .panic => none
  | .error .diverge => none

def rebind (v : Value) (buf : Bytes) : Value := { v with buf }

/-- A key whose slot does not parse is given the last iterator, over zeros. -/
def valueFor (fresh it : Option Value) : Option Value :=
  fresh.orElse fun _ => it.map fun v => rebind v (List.replicate slotLen 0)

/-- The stored length of a key, unless it is over the buffer's. -/
def keyLenOf (u : Usize) (stored : StoredKey) : Option Nat :=
  (u.tryFrom stored.keyLen).filter fun n => n ≤ keyBufLen

/-- The closure that copies chunks into `tmp`. -/
def copyChunksTo : Bytes → List (Nat × Bytes) → Option Bytes
  | tmp, [] => some tmp
  | tmp, (start, chunk) :: copies =>
    if start + chunk.length ≤ tmp.length then copyChunksTo (tmp.copyAt start chunk) copies else none

section
variable {S : Type} [Sink S] [Cbor2]

def putHead (sink : S) (header : Header) : S :=
  let pushed := Cbor2.push header (List.replicate 9 0)
  Sink.put sink (pushed.buf.take pushed.used)

/-- A `STR` or `BYTES` value. -/
def putString (u : Usize) (sink : S) (text : Bool) (value : Value) : Option (S × Except MapError Bool) := do
  let (copies, result) := value.copyString u slotLen
  let tmp ← copyChunksTo (List.replicate slotLen 0) copies
  match result with
  | .ok copied =>
    if copied.all ∧ copied.total < slotLen then
      let sink := putHead sink (if text then .text copied.total else .bytes copied.total)
      some (Sink.put sink (tmp.take copied.total), .ok true)
    else some (sink, .ok false)
  | .error (.error .unreachable) => some (sink, .error .unreachable)
  | .error (.error _) => some (sink, .ok false)
  | .error .panic => none
  | .error .diverge => none

/-- The match on `value_type`: what is put, and whether the key got a value. -/
def putValue (u : Usize) (sink : S) (valueType : Nat) (value : Value) : Option (S × Except MapError Bool) :=
  match valueType with
  | 0 =>
    match value.extract u with
    | .error _ => none
    | .ok n => some (putHead sink (.positive n.toUInt32.toUInt64), .ok true)
  | 1 =>
    match value.getInt64 u with
    | .error _ => none
    | .ok n => some (putHead sink (intHeader n.toInt32), .ok true)
  | 2 =>
    match value.getFloat u with
    | .error (.error _) => some (sink, .error .unreachable)
    | .error .panic => none
    | .error .diverge => none
    | .ok bits => some (Sink.put (Sink.put sink [0xfa]) (beBytes 4 bits.toNat), .ok true)
  | 3 => putString u sink true value
  | 4 => putString u sink false value
  | _ => some (sink, .ok false)

/-- A value is put, if there is one. -/
def putFound (u : Usize) (valueType : Nat) (s : MapLoop S) : Option Value → Option (MapLoop S × Except MapError Unit)
  | none => some (s, .error .unreachable)
  | some value => do
    match ← putValue u s.sink valueType value with
    | (sink, .error e) => some ({ s with sink }, .error e)
    | (sink, .ok complete) => some ({ s with sink, complete := s.complete && complete }, .ok ())

end

namespace ConfigPartition

section
variable {S : Type} [Sink S] [Cbor2]

/-- The value under a key, read by the parser. -/
def freshValue (p : ConfigPartition) (u : Usize) (key : Key) : Option (Option Value) := do
  match ← p.parsed key with
  | none => some none
  | some (idx, _) =>
    let slot ← p.slot idx
    okOf (Value.parse u slot)

/-- One turn of the loop. -/
def encodeKey (p : ConfigPartition) (u : Usize) (stored : StoredKey) (s : MapLoop S) :
    Option (MapLoop S × Except MapError Unit) :=
  match keyLenOf u stored with
  | none => some (s, .error .unreachable)
  | some keyLen => do
    let sink := Sink.put (putHead s.sink (.text keyLen)) (stored.keyBuf.take keyLen)
    let fresh ← p.freshValue u (.withLen stored.keyBuf keyLen)
    putFound u stored.valueType ⟨sink, fresh.orElse fun _ => s.it, s.complete⟩ (valueFor fresh s.it)

def encodeKeys (p : ConfigPartition) (u : Usize) :
    List Nat → MapLoop S → Option (MapLoop S × Except MapError Unit)
  | [], s => some (s, .ok ())
  | i :: is, s => do
    let stored ← p.storedKey i
    match ← p.encodeKey u stored s with
    | (s, .error e) => some (s, .error e)
    | (s, .ok ()) => p.encodeKeys u is s

def encodeMap (p : ConfigPartition) (u : Usize) (sink : S) : Option (S × Except MapError Unit) := do
  match ← p.encodeKeys u (List.range p.numKeys) ⟨putHead sink (.map p.numKeys), none, true⟩ with
  | (s, .error e) => some (s.sink, .error e)
  | (s, .ok ()) => some (s.sink, if s.complete then .ok () else .error .noMap)

/-- The buffer afterwards, and the map's length. -/
def cborMap (p : ConfigPartition) (u : Usize) (out : Bytes) : Option (Bytes × Except MapError Nat) := do
  match ← p.encodeMap u (⟨out, 0⟩ : BufSink) with
  | (sink, .error e) => some (sink.out, .error e)
  | (sink, .ok ()) =>
    some (sink.out, if sink.out.length < sink.len then .error (.tooSmall sink.len) else .ok sink.len)

/-- The bytes of the map, as a pass that only keeps them has them. -/
def mapBytes (p : ConfigPartition) (u : Usize) : Option (Except MapError Bytes) :=
  (p.encodeMap u (⟨[]⟩ : Sink.Log)).map fun r => r.2.map fun _ => r.1.bytes

def cborMapCrc32 (p : ConfigPartition) (u : Usize) : Option UInt32 := do
  match ← p.encodeMap u (⟨0⟩ : CrcSink) with
  | (sink, .ok ()) => some sink.crc
  | (_, .error _) => some 0

end

end ConfigPartition

/-! ### One pass for all sinks -/

namespace BufSink

theorem length_put (s : BufSink) (bytes : Bytes) : (Sink.put s bytes).out.length = s.out.length := by
  simp only [Sink.put]
  split_ifs with hfit
  · exact length_copyAt s.out s.len bytes hfit
  · rfl

theorem len_play (log : Sink.Log) (s : BufSink) :
    (log.play s).out.length = s.out.length ∧ (log.play s).len = s.len + log.bytes.length := by
  obtain ⟨pieces⟩ := log
  induction pieces generalizing s with
  | nil => exact ⟨rfl, rfl⟩
  | cons piece pieces ih =>
    obtain ⟨hout, hlen⟩ := ih (Sink.put s piece)
    refine ⟨hout.trans (length_put s piece), hlen.trans ?_⟩
    change s.len + piece.length + pieces.flatten.length = s.len + (piece :: pieces).flatten.length
    rw [List.flatten_cons, List.length_append, Nat.add_assoc]

/-- What fits as a whole is in the buffer. -/
theorem out_play (log : Sink.Log) (s : BufSink) (hfit : s.len + log.bytes.length ≤ s.out.length) :
    (log.play s).out = s.out.copyAt s.len log.bytes := by
  obtain ⟨pieces⟩ := log
  induction pieces generalizing s with
  | nil =>
    change s.out = s.out.copyAt s.len []
    simp [copyAt]
  | cons piece pieces ih =>
    change s.len + (piece ++ pieces.flatten).length ≤ s.out.length at hfit
    rw [List.length_append] at hfit
    have hpiece : s.len + piece.length ≤ s.out.length := by omega
    have hput : Sink.put s piece = ⟨s.out.copyAt s.len piece, s.len + piece.length⟩ := by
      simp only [Sink.put, if_pos hpiece]
    have hlen := length_copyAt s.out s.len piece hpiece
    have hrest := ih ⟨s.out.copyAt s.len piece, s.len + piece.length⟩ (by
      change s.len + piece.length + pieces.flatten.length ≤ (s.out.copyAt s.len piece).length
      omega)
    change (Sink.putAll (Sink.put s piece) pieces).out = s.out.copyAt s.len (piece ++ pieces.flatten)
    rw [hput]
    exact hrest.trans (copyAt_behind piece pieces.flatten (by omega))

end BufSink

instance : Sink.Streams CrcSink where
  put_nil s := by
    obtain ⟨crc⟩ := s
    exact congrArg CrcSink.mk UInt32.not_not
  put_append s a b := congrArg CrcSink.mk (crc32IeeeUpdate_append s.crc a b)

section
variable {S T : Type} [Sink S] [Sink T] [Cbor2] {f : S → T}

theorem putHead_map (hf : Sink.Carries f) (s : S) (h : Header) : putHead (f s) h = f (putHead s h) :=
  (hf s _).symm

theorem putString_map (hf : Sink.Carries f) (u : Usize) (s : S) (text : Bool) (v : Value) :
    putString u (f s) text v = (putString u s text v).map fun r => (f r.1, r.2) := by
  rw [putString, putString]
  generalize v.copyString u slotLen = copying
  obtain ⟨copies, result⟩ := copying
  cases htmp : copyChunksTo (List.replicate slotLen 0) copies with
  | none => simp [htmp]
  | some tmp =>
    simp only [htmp, Option.bind_eq_bind, Option.bind_some]
    cases result with
    | ok copied =>
      dsimp only
      by_cases hwhole : copied.all = true ∧ copied.total < slotLen
      · rw [if_pos hwhole, if_pos hwhole, putHead_map hf, ← hf]
        rfl
      · rw [if_neg hwhole, if_neg hwhole]
        rfl
    | error halt =>
      cases halt with
      | panic => rfl
      | diverge => rfl
      | error e => cases e <;> rfl

theorem putValue_map (hf : Sink.Carries f) (u : Usize) (s : S) (valueType : Nat) (v : Value) :
    putValue u (f s) valueType v = (putValue u s valueType v).map fun r => (f r.1, r.2) := by
  match valueType with
  | 0 =>
    rw [putValue, putValue]
    cases v.extract u with
    | error halt => rfl
    | ok n => simp [putHead_map hf]
  | 1 =>
    rw [putValue, putValue]
    cases v.getInt64 u with
    | error halt => rfl
    | ok n => simp [putHead_map hf]
  | 2 =>
    rw [putValue, putValue]
    cases v.getFloat u with
    | error halt => cases halt <;> rfl
    | ok bits => simp only [Option.map_some, hf _ _]
  | 3 => exact putString_map hf u s true v
  | 4 => exact putString_map hf u s false v
  | _ + 5 => rfl

/-- The loop over another sink. -/
def MapLoop.map (f : S → T) (s : MapLoop S) : MapLoop T := ⟨f s.sink, s.it, s.complete⟩

theorem putFound_map (hf : Sink.Carries f) (u : Usize) (valueType : Nat) (s : MapLoop S) (found : Option Value) :
    putFound u valueType (s.map f) found = (putFound u valueType s found).map fun r => (r.1.map f, r.2) := by
  cases found with
  | none => rfl
  | some value =>
    rw [putFound, putFound, MapLoop.map, putValue_map hf]
    cases putValue u s.sink valueType value with
    | none => rfl
    | some r =>
      obtain ⟨sink, result⟩ := r
      cases result with
      | error e => rfl
      | ok complete => rfl

namespace ConfigPartition

variable (p : ConfigPartition) (u : Usize)

theorem encodeKey_map (hf : Sink.Carries f) (stored : StoredKey) (s : MapLoop S) :
    p.encodeKey u stored (s.map f) = (p.encodeKey u stored s).map fun r => (r.1.map f, r.2) := by
  rw [encodeKey, encodeKey]
  cases keyLenOf u stored with
  | none => rfl
  | some keyLen =>
    cases hfresh : p.freshValue u (.withLen stored.keyBuf keyLen) with
    | none => simp [hfresh]
    | some fresh =>
      simp only [hfresh, Option.bind_eq_bind, Option.bind_some]
      rw [← putFound_map hf]
      simp only [MapLoop.map, putHead_map hf, hf _ _]

theorem encodeKeys_map (hf : Sink.Carries f) (is : List Nat) (s : MapLoop S) :
    p.encodeKeys u is (s.map f) = (p.encodeKeys u is s).map fun r => (r.1.map f, r.2) := by
  induction is generalizing s with
  | nil => rfl
  | cons i is ih =>
    rw [encodeKeys, encodeKeys]
    cases hstored : p.storedKey i with
    | none => simp
    | some stored =>
      simp only [Option.bind_eq_bind, Option.bind_some, encodeKey_map p u hf]
      cases hkey : p.encodeKey u stored s with
      | none => rfl
      | some r =>
        obtain ⟨s', result⟩ := r
        cases result with
        | error e => rfl
        | ok _ => exact ih s'

theorem encodeMap_map (hf : Sink.Carries f) (s : S) :
    p.encodeMap u (f s) = (p.encodeMap u s).map fun r => (f r.1, r.2) := by
  have hstart : (⟨putHead (f s) (.map p.numKeys), none, true⟩ : MapLoop T) =
      MapLoop.map f ⟨putHead s (.map p.numKeys), none, true⟩ := by
    rw [MapLoop.map, putHead_map hf]
  rw [encodeMap, encodeMap, hstart, encodeKeys_map p u hf]
  cases p.encodeKeys u (List.range p.numKeys) ⟨putHead s (.map p.numKeys), none, true⟩ with
  | none => rfl
  | some r =>
    obtain ⟨s', result⟩ := r
    cases result with
    | error e => rfl
    | ok _ => rfl

/-- What any sink is given. -/
theorem encodeMap_play (s : S) :
    p.encodeMap u s = (p.encodeMap u (⟨[]⟩ : Sink.Log)).map fun r => (r.1.play s, r.2) :=
  encodeMap_map p u (Sink.carries_play s) ⟨[]⟩

end ConfigPartition

end

/-! ### How long a map is -/

/-- The most that a key and its value take. -/
def maxPairLen : Nat := (9 + keyBufLen) + (9 + slotLen)

section
variable [Cbor2] [Cbor2.Minimal] {u : Usize}

theorem bytes_putHead (log : Sink.Log) (h : Header) : (putHead log h).bytes = log.bytes ++ h.encode := by
  have hle := length_encode_le h
  rw [putHead, Cbor2.Minimal.push_eq h _ (by rw [List.length_replicate]; exact hle)]
  simp [copyAt]

theorem length_putHead (log : Sink.Log) (h : Header) : (putHead log h).bytes.length ≤ log.bytes.length + 9 := by
  have hle := length_encode_le h
  rw [bytes_putHead, List.length_append]
  omega

theorem length_putString {log : Sink.Log} {text : Bool} {v : Value} {r : Sink.Log × Except MapError Bool}
    (h : putString u log text v = some r) : r.1.bytes.length ≤ log.bytes.length + (9 + slotLen) := by
  rw [putString] at h
  generalize v.copyString u slotLen = copying at h
  obtain ⟨copies, result⟩ := copying
  cases htmp : copyChunksTo (List.replicate slotLen 0) copies with
  | none =>
    simp [htmp] at h
  | some tmp =>
    simp only [htmp, Option.bind_eq_bind, Option.bind_some] at h
    cases result with
    | ok copied =>
      dsimp only at h
      by_cases hwhole : copied.all = true ∧ copied.total < slotLen
      · rw [if_pos hwhole] at h
        cases h
        have hhead := length_putHead log (if text then .text copied.total else .bytes copied.total)
        have htake := List.length_take_le copied.total tmp
        rw [Sink.bytes_put, List.length_append]
        omega
      · rw [if_neg hwhole] at h
        cases h
        exact Nat.le_add_right ..
    | error halt =>
      cases halt with
      | panic => cases h
      | diverge => cases h
      | error e => cases e <;> cases h <;> exact Nat.le_add_right ..

theorem length_putValue {log : Sink.Log} {valueType : Nat} {v : Value} {r : Sink.Log × Except MapError Bool}
    (h : putValue u log valueType v = some r) : r.1.bytes.length ≤ log.bytes.length + (9 + slotLen) := by
  rcases valueType with _ | _ | _ | _ | _ | _
  · rw [putValue] at h
    cases hn : v.extract u with
    | error halt =>
      rw [hn] at h
      cases h
    | ok n =>
      rw [hn] at h
      cases h
      exact (length_putHead log (.positive n.toUInt32.toUInt64)).trans (by omega)
  · rw [Nat.zero_add, putValue] at h
    cases hn : v.getInt64 u with
    | error halt =>
      rw [hn] at h
      cases h
    | ok n =>
      rw [hn] at h
      cases h
      exact (length_putHead log (intHeader n.toInt32)).trans (by omega)
  · rw [putValue] at h
    cases hn : v.getFloat u with
    | error halt =>
      rw [hn] at h
      cases halt with
      | error e =>
        cases h
        exact Nat.le_add_right ..
      | panic => cases h
      | diverge => cases h
    | ok bits =>
      rw [hn] at h
      cases h
      simp only [Sink.bytes_put, List.length_append, List.length_singleton, length_beBytes]
      omega
  · exact length_putString h
  · exact length_putString h
  · cases h
    exact Nat.le_add_right ..

theorem length_putFound {valueType : Nat} {s : MapLoop Sink.Log} {found : Option Value}
    {r : MapLoop Sink.Log × Except MapError Unit} (h : putFound u valueType s found = some r) :
    r.1.sink.bytes.length ≤ s.sink.bytes.length + (9 + slotLen) := by
  cases found with
  | none =>
    cases h
    exact Nat.le_add_right ..
  | some v =>
    cases hput : putValue u s.sink valueType v with
    | none => simp [putFound, hput] at h
    | some written =>
      obtain ⟨sink, result⟩ := written
      have hlen := length_putValue hput
      simp only [putFound, hput, Option.bind_eq_bind, Option.bind_some] at h
      cases result with
      | error e =>
        cases h
        exact hlen
      | ok complete =>
        cases h
        exact hlen

namespace ConfigPartition

variable {p : ConfigPartition}

theorem length_encodeKey {stored : StoredKey} {s : MapLoop Sink.Log}
    {r : MapLoop Sink.Log × Except MapError Unit} (h : p.encodeKey u stored s = some r) :
    r.1.sink.bytes.length ≤ s.sink.bytes.length + maxPairLen := by
  rw [encodeKey] at h
  cases hkeyLen : keyLenOf u stored with
  | none =>
    rw [hkeyLen] at h
    cases h
    exact Nat.le_add_right ..
  | some keyLen =>
    obtain ⟨-, hle⟩ := Option.filter_eq_some_iff.mp hkeyLen
    have hkey : keyLen ≤ keyBufLen := of_decide_eq_true hle
    have hhead := length_putHead s.sink (.text keyLen)
    have htake := List.length_take_le keyLen stored.keyBuf
    simp only [hkeyLen] at h
    cases hfresh : p.freshValue u (.withLen stored.keyBuf keyLen) with
    | none => simp [hfresh] at h
    | some fresh =>
      simp only [hfresh, Option.bind_eq_bind, Option.bind_some] at h
      have hvalue := length_putFound h
      rw [Sink.bytes_put, List.length_append] at hvalue
      rw [maxPairLen]
      omega

theorem length_encodeKeys {is : List Nat} {s : MapLoop Sink.Log} {r : MapLoop Sink.Log × Except MapError Unit}
    (h : p.encodeKeys u is s = some r) :
    r.1.sink.bytes.length ≤ s.sink.bytes.length + is.length * maxPairLen := by
  induction is generalizing s with
  | nil =>
    cases h
    exact Nat.le_add_right ..
  | cons i is ih =>
    rw [encodeKeys] at h
    cases hstored : p.storedKey i with
    | none => simp [hstored] at h
    | some stored =>
      cases hkey : p.encodeKey u stored s with
      | none => simp [hstored, hkey] at h
      | some written =>
        obtain ⟨s', result⟩ := written
        have hone := length_encodeKey hkey
        simp only [hstored, hkey, Option.bind_eq_bind, Option.bind_some] at h
        rw [List.length_cons, Nat.succ_mul]
        cases result with
        | error e =>
          cases h
          dsimp only at hone ⊢
          omega
        | ok _ =>
          have hrest := ih h
          dsimp only at hone
          omega

/-- Fifty pairs at most. -/
theorem length_mapBytes (hn : p.numKeys ≤ maxNumKv) {map : Bytes} (h : p.mapBytes u = some (.ok map)) :
    map.length ≤ 9 + maxNumKv * maxPairLen := by
  rw [mapBytes, encodeMap] at h
  cases hkeys : p.encodeKeys u (List.range p.numKeys) ⟨putHead (⟨[]⟩ : Sink.Log) (.map p.numKeys), none, true⟩ with
  | none => simp [hkeys] at h
  | some r =>
    obtain ⟨s, result⟩ := r
    have hlen := length_encodeKeys hkeys
    have hhead := length_putHead (⟨[]⟩ : Sink.Log) (.map p.numKeys)
    have hmul : p.numKeys * maxPairLen ≤ maxNumKv * maxPairLen := Nat.mul_le_mul_right _ hn
    have hempty : (⟨[]⟩ : Sink.Log).bytes.length = 0 := rfl
    rw [List.length_range] at hlen
    simp only [hkeys, Option.bind_eq_bind, Option.bind_some] at h
    cases result with
    | error e => cases h
    | ok _ =>
      have hbytes : s.sink.bytes = map := by
        dsimp only at h
        split_ifs at h
        · exact Except.ok.inj (Option.some_injective _ h)
        · cases h
      rw [← hbytes]
      dsimp only at hlen
      omega

end ConfigPartition

end

/-! ### No value stops a pass -/

theorem length_zeroed : (List.replicate slotLen (0 : UInt8)).length = slotLen := List.length_replicate

/-- A value that can be read under any type: a slot's own, or an earlier one over zeros. -/
structure Readable (u : Usize) (v : Value) : Prop where
  extract : ∃ n, v.extract u = .ok n
  copies : Value.CopiesFit slotLen (v.copyString u slotLen).1
  copied : Returns (fun _ => True) (v.copyString u slotLen).2

theorem readable_fresh (u : Usize) {v : Value} (hv : Sound v) (hty : v.ty ≠ invalid) : Readable u v where
  extract := Value.extract_ok hv hty
  copies := (Value.copyString_returns hv slotLen).1
  copied := (Value.copyString_returns hv slotLen).2

/-- Over zeros there is an argument to read, but no chunk of a string. -/
theorem readable_stale (u : Usize) {v : Value} (hpos : v.pos = 0) :
    Readable u (rebind v (List.replicate slotLen 0)) := by
  have hmax := u.le_max
  generalize hw : rebind v (List.replicate slotLen 0) = w
  have hbuf : w.buf = List.replicate slotLen 0 := by
    rw [← hw]
    rfl
  have hwpos : w.pos = 0 := by
    rw [← hw]
    exact hpos
  have hstring : Value.CopiesFit slotLen (w.copyString u slotLen).1 ∧
      Returns (fun _ => True) (w.copyString u slotLen).2 := by
    have hnone : Value.CopiesFit slotLen [] := fun _ hcopy => absurd hcopy List.not_mem_nil
    rw [Value.copyString, Value.iterateString]
    by_cases hkind : (!w.isTextString && !w.isByteString) = true
    · rw [if_pos hkind]
      exact ⟨hnone, trivial⟩
    · rw [if_neg hkind]
      -- the first byte is no head of the string's type
      have hchunk : ∀ pos, pos ≤ 1 → ({ w with
          pos, flags := { w.flags with iteratingStringChunks := true, negativeInteger := true } } :
            Value).stringChunk u = fail .illegalType := by
        intro pos hle
        have hzero : w.buf[pos]? = some 0 := by
          rw [hbuf, List.getElem?_replicate, if_pos (by simp only [slotLen, maxConfigBufferSizeBytes]; omega)]
        have hother : (0 : UInt8) &&& 0xe0 ≠ w.ty := by
          rcases Value.string_ty hkind with hty | hty <;> rw [hty] <;> decide
        have hbreak : (0 : UInt8) ≠ breakByte := by decide
        simp only [Value.stringChunk, Bool.not_true, Bool.and_false, Bool.false_eq_true, if_false, hzero,
          if_neg hbreak, if_pos hother]
      by_cases hknown : w.isLengthKnown = true
      · rw [if_pos hknown]
        simp only [Value.iterateChunks, hchunk w.pos (by omega)]
        exact ⟨hnone, trivial⟩
      · rw [if_neg hknown, addUsize, if_pos (by omega)]
        simp only [Value.iterateChunks, hchunk (w.pos + 1) (by omega)]
        exact ⟨hnone, trivial⟩
  refine ⟨?_, hstring.1, hstring.2⟩
  by_cases hsmall : (!w.flags.integerTooLarge) = true
  · rw [Value.extract, if_pos hsmall]
    exact ⟨_, rfl⟩
  · have hbytes : w.bytesAt u 1 = .ok (w.buf.drop 1) := by
      rw [Value.bytesAt_one (by omega), hwpos]
    have hwide : (if w.flags.integerIs64Bit = true then 8 else 4) ≤ (w.buf.drop 1).length := by
      rw [List.length_drop, hbuf, length_zeroed]
      simp only [slotLen, maxConfigBufferSizeBytes]
      by_cases h64 : w.flags.integerIs64Bit = true
      · rw [if_pos h64]
        omega
      · rw [if_neg h64]
        omega
    rw [Value.extract, if_neg hsmall]
    simp only [hbytes, bind, Except.bind, firstBytes]
    rw [if_pos hwide]
    exact ⟨_, rfl⟩

theorem copyChunksTo_eq {tmp : Bytes} {copies : List (Nat × Bytes)} (h : Value.CopiesFit tmp.length copies) :
    copyChunksTo tmp copies = some (Value.written tmp copies) := by
  induction copies generalizing tmp with
  | nil => rfl
  | cons copy copies ih =>
    obtain ⟨start, chunk⟩ := copy
    have hfit : start + chunk.length ≤ tmp.length := h _ List.mem_cons_self
    have hlen := length_copyAt tmp start chunk hfit
    rw [copyChunksTo, if_pos hfit, ih]
    · rfl
    · intro copy hcopy
      rw [hlen]
      exact h copy (List.mem_cons_of_mem _ hcopy)

/-- An outcome a pass may have: it does not know how long the map will be. -/
def MapError.Found : MapError → Prop
  | .noMap => True
  | .tooSmall _ => False
  | .unreachable => True

section
variable {S : Type} [Sink S] [Cbor2] {u : Usize}

theorem putString_some (s : S) (text : Bool) {v : Value} (hv : Readable u v) :
    ∃ r, putString u s text v = some r ∧ ∀ e, r.2 = .error e → e.Found := by
  obtain ⟨-, hcopies, hcopied⟩ := hv
  rw [putString]
  generalize v.copyString u slotLen = copying at hcopies hcopied
  obtain ⟨copies, result⟩ := copying
  have htmp : copyChunksTo (List.replicate slotLen 0) copies = _ :=
    copyChunksTo_eq (by rw [length_zeroed]; exact hcopies)
  simp only [htmp, Option.bind_eq_bind, Option.bind_some]
  cases result with
  | ok copied =>
    dsimp only
    by_cases hwhole : copied.all = true ∧ copied.total < slotLen
    · rw [if_pos hwhole]
      exact ⟨_, rfl, fun e he => by cases he⟩
    · rw [if_neg hwhole]
      exact ⟨_, rfl, fun e he => by cases he⟩
  | error halt =>
    cases halt with
    | panic => exact hcopied.elim
    | diverge => exact hcopied.elim
    | error e =>
      cases e
      case unreachable => exact ⟨_, rfl, fun e he => Except.error.inj he ▸ trivial⟩
      all_goals exact ⟨_, rfl, fun e he => by cases he⟩

theorem putValue_some (s : S) (valueType : Nat) {v : Value} (hv : Readable u v) :
    ∃ r, putValue u s valueType v = some r ∧ ∀ e, r.2 = .error e → e.Found := by
  obtain ⟨n, hn⟩ := hv.extract
  rcases valueType with _ | _ | _ | _ | _ | _
  · rw [putValue, hn]
    exact ⟨_, rfl, fun e he => by cases he⟩
  · rw [Nat.zero_add, putValue, Value.getInt64, hn]
    exact ⟨_, rfl, fun e he => by cases he⟩
  · rw [putValue, Value.getFloat]
    by_cases hsmall : (!v.flags.integerTooLarge) = true
    · rw [if_pos hsmall]
      exact ⟨_, rfl, fun e he => Except.error.inj he ▸ trivial⟩
    · rw [if_neg hsmall, hn]
      exact ⟨_, rfl, fun e he => by cases he⟩
  · exact putString_some s true hv
  · exact putString_some s false hv
  · exact ⟨_, rfl, fun e he => by cases he⟩

theorem putFound_some (valueType : Nat) (s : MapLoop S) {found : Option Value}
    (hfound : ∀ v, found = some v → Readable u v) :
    ∃ r, putFound u valueType s found = some r ∧ r.1.it = s.it ∧ ∀ e, r.2 = .error e → e.Found := by
  cases found with
  | none => exact ⟨_, rfl, rfl, fun e he => Except.error.inj he ▸ trivial⟩
  | some v =>
    obtain ⟨⟨sink, result⟩, hput, herror⟩ := putValue_some s.sink valueType (hfound v rfl)
    simp only [putFound, hput, Option.bind_eq_bind, Option.bind_some]
    cases result with
    | error e => exact ⟨_, rfl, rfl, fun e' he => Except.error.inj he ▸ herror e rfl⟩
    | ok complete => exact ⟨_, rfl, rfl, fun e he => by cases he⟩

end

namespace ConfigPartition

variable {p : ConfigPartition}

/-- An iterator that a slot was parsed to. -/
structure OfSlot (v : Value) : Prop where
  sound : Sound v
  pos : v.pos = 0
  valid : v.ty ≠ invalid

theorem freshValue_some (hn : p.numKeys ≤ maxNumKv) (u : Usize) (key : Key) :
    ∃ fresh, p.freshValue u key = some fresh ∧ ∀ v, fresh = some v → OfSlot v := by
  rcases parsed_cases hn key with ⟨hparsed, -⟩ | ⟨idx, c, hslot, -, hparsed⟩
  · rw [freshValue, hparsed]
    exact ⟨none, rfl, fun v hv => by cases hv⟩
  · cases hhead : c.head with
    | none =>
      rw [freshValue, hparsed, hhead]
      exact ⟨none, rfl, fun v hv => by cases hv⟩
    | some head =>
      have hlen : c.slot.length = slotLen := by
        rw [slot] at hslot
        exact (slice?_eq_some hslot).2.2
      have hshort : c.slot.length < 2 ^ 31 := by
        rw [hlen]
        decide
      have hparse := Value.parse_returns (u := u) hshort
      simp only [freshValue, hparsed, hhead, Option.map_some, Option.bind_eq_bind, Option.bind_some, hslot]
      cases hv : Value.parse u c.slot with
      | ok v =>
        obtain ⟨hsound, -, hpos⟩ := hparse.ok hv
        obtain ⟨⟨_, _, _, hon⟩, -⟩ := Value.parse_first hv
        exact ⟨some v, rfl, fun w hw => Option.some_injective _ hw ▸ ⟨hsound, hpos, hon.valid⟩⟩
      | error halt =>
        have hreturned := hparse.error hv
        cases halt with
        | error e => exact ⟨none, rfl, fun w hw => by cases hw⟩
        | panic => exact hreturned.elim
        | diverge => exact hreturned.elim

/-- The iterator kept from an earlier key is one that a slot was parsed to. -/
def KeptIt {S : Type} (s : MapLoop S) : Prop := ∀ v, s.it = some v → OfSlot v

section
variable {S : Type} [Sink S] [Cbor2] {u : Usize}

theorem encodeKey_some (hn : p.numKeys ≤ maxNumKv) (stored : StoredKey) {s : MapLoop S} (hs : KeptIt s) :
    ∃ r, p.encodeKey u stored s = some r ∧ KeptIt r.1 ∧ ∀ e, r.2 = .error e → e.Found := by
  rw [encodeKey]
  cases keyLenOf u stored with
  | none => exact ⟨_, rfl, hs, fun e he => Except.error.inj he ▸ trivial⟩
  | some keyLen =>
    obtain ⟨fresh, hfresh, hof⟩ := freshValue_some hn u (.withLen stored.keyBuf keyLen)
    have hreadable : ∀ v, valueFor fresh s.it = some v → Readable u v := by
      intro v hv
      cases fresh with
      | some w =>
        cases hv
        have hw := hof v rfl
        exact readable_fresh u hw.sound hw.valid
      | none =>
        obtain ⟨w, hw, hrebind⟩ := Option.map_eq_some_iff.mp hv
        subst hrebind
        exact readable_stale u (hs w hw).pos
    have hkept : KeptIt (⟨Sink.put (putHead s.sink (.text keyLen)) (stored.keyBuf.take keyLen),
        fresh.orElse fun _ => s.it, s.complete⟩ : MapLoop S) := by
      intro v hv
      cases fresh with
      | some w => exact hof v hv
      | none => exact hs v hv
    obtain ⟨r, hr, hit, herror⟩ := putFound_some stored.valueType
      (⟨Sink.put (putHead s.sink (.text keyLen)) (stored.keyBuf.take keyLen),
        fresh.orElse fun _ => s.it, s.complete⟩ : MapLoop S) hreadable
    simp only [hfresh, Option.bind_eq_bind, Option.bind_some]
    refine ⟨r, hr, ?_, herror⟩
    intro v hv
    rw [hit] at hv
    exact hkept v hv

theorem encodeKeys_some (hn : p.numKeys ≤ maxNumKv) {is : List Nat} (his : ∀ i ∈ is, i < maxNumKv)
    {s : MapLoop S} (hs : KeptIt s) :
    ∃ r, p.encodeKeys u is s = some r ∧ ∀ e, r.2 = .error e → e.Found := by
  induction is generalizing s with
  | nil => exact ⟨_, rfl, fun e he => by cases he⟩
  | cons i is ih =>
    obtain ⟨⟨s', result⟩, hkey, hkept, herror⟩ := encodeKey_some (u := u) hn
      ⟨(p.cell i).keyBuf, (p.cell i).keyLen, (p.cell i).valueType⟩ hs
    simp only [encodeKeys, storedKey_eq (his i List.mem_cons_self), hkey, Option.bind_eq_bind, Option.bind_some]
    cases result with
    | error e => exact ⟨_, rfl, fun e' he => Except.error.inj he ▸ herror e rfl⟩
    | ok _ => exact ih (fun j hj => his j (List.mem_cons_of_mem i hj)) hkept

/-- A pass does not panic, and finds a map, none, or what the C leaves undefined. -/
theorem encodeMap_some (hn : p.numKeys ≤ maxNumKv) (s : S) :
    ∃ r, p.encodeMap u s = some r ∧ ∀ e, r.2 = .error e → e.Found := by
  have hlt : ∀ i ∈ List.range p.numKeys, i < maxNumKv := fun i hi =>
    Nat.lt_of_lt_of_le (List.mem_range.mp hi) hn
  have hstart : KeptIt (⟨putHead s (.map p.numKeys), none, true⟩ : MapLoop S) := fun v hv => by cases hv
  obtain ⟨⟨s', result⟩, hkeys, herror⟩ := encodeKeys_some (u := u) hn hlt hstart
  simp only [encodeMap, hkeys, Option.bind_eq_bind, Option.bind_some]
  cases result with
  | error e => exact ⟨_, rfl, fun e' he => Except.error.inj he ▸ herror e rfl⟩
  | ok _ =>
    refine ⟨_, rfl, fun e he => ?_⟩
    dsimp only at he
    split_ifs at he
    cases he
    trivial

end

/-! ### The two passes -/

section
variable [Cbor2]

/-- What a call with a buffer leaves and returns, once the map is known. -/
structure Copies (found : Except MapError Bytes) (out : Bytes) (called : Bytes × Except MapError Nat) : Prop where
  length : called.1.length = out.length
  result : called.2 = found.bind fun map =>
    if out.length < map.length then .error (.tooSmall map.length) else .ok map.length
  written : ∀ map, found = .ok map → map.length ≤ out.length → called.1 = out.copyAt 0 map

theorem cborMap_copies (hn : p.numKeys ≤ maxNumKv) (u : Usize) : ∃ found, p.mapBytes u = some found ∧
    (∀ e, found = .error e → e.Found) ∧
    (∀ out, ∃ called, p.cborMap u out = some called ∧ Copies found out called) ∧
    p.cborMapCrc32 u = some (match found with
      | .ok map => crc32Ieee map
      | .error _ => 0) := by
  obtain ⟨⟨log, result⟩, hlog, herror⟩ := encodeMap_some (u := u) hn (⟨[]⟩ : Sink.Log)
  refine ⟨result.map fun _ => log.bytes, ?_, ?_, fun out => ?_, ?_⟩
  · rw [mapBytes, hlog]
    rfl
  · intro e he
    cases result with
    | error e' => exact Except.error.inj he ▸ herror e' rfl
    | ok _ => cases he
  · obtain ⟨hlength, hlen⟩ := BufSink.len_play log ⟨out, 0⟩
    have hout := BufSink.out_play log ⟨out, 0⟩
    rw [Nat.zero_add] at hlen hout
    simp only [cborMap, encodeMap_play p u (⟨out, 0⟩ : BufSink), hlog, Option.map_some, Option.bind_eq_bind,
      Option.bind_some]
    cases result with
    | error e => exact ⟨_, rfl, hlength, rfl, fun map hmap => by cases hmap⟩
    | ok _ =>
      refine ⟨_, rfl, hlength, ?_, fun map hmap hfit => ?_⟩
      · dsimp only
        rw [hlength, hlen]
        rfl
      · cases hmap
        exact hout hfit
  · simp only [cborMapCrc32, encodeMap_play p u (⟨0⟩ : CrcSink), hlog, Option.map_some, Option.bind_eq_bind,
      Option.bind_some]
    cases result with
    | error e => rfl
    | ok _ =>
      dsimp only
      rw [Sink.play_eq]
      rfl

end

end ConfigPartition

/-- Of any partition, also one that was loaded, the map a buffer gets is the one that was measured and the
one the checksum is of; it is too small exactly for a longer map. -/
theorem map_passes_agree [Cbor2] [Cbor2.Minimal] {l : Layout} {p : ConfigPartition}
    (hp : Reached (fun _ _ => True) l p) (u : Usize) : ∃ found, p.mapBytes u = some found ∧
      (∀ e, found = .error e → e.Found) ∧
      (∀ out, ∃ called, p.cborMap u out = some called ∧ ConfigPartition.Copies found out called) ∧
      p.cborMapCrc32 u = some (match found with
        | .ok map => crc32Ieee map
        | .error _ => 0) :=
  ConfigPartition.cborMap_copies hp.bounded.1 u

/-- The map of two keys, in a buffer of ten bytes, in one that is a byte short of it, and its checksum. -/
theorem map_passes_agree_twoKeys :
    @ConfigPartition.cborMap Cbor2.shortest twoKeys .bits64 (List.replicate 10 0xee) =
        some ([0xa2, 0x61, 0x61, 0x07, 0x61, 0x62, 0x61, 0x78, 0xee, 0xee], .ok 8) ∧
      (∃ out, @ConfigPartition.cborMap Cbor2.shortest twoKeys .bits64 (List.replicate 7 0xee) =
        some (out, .error (.tooSmall 8)) ∧ out.length = 7) ∧
      @ConfigPartition.cborMapCrc32 Cbor2.shortest twoKeys .bits64 =
        some (crc32Ieee [0xa2, 0x61, 0x61, 0x07, 0x61, 0x62, 0x61, 0x78]) := by
  obtain ⟨found, hfound, -, hcalls, hcrc⟩ := @map_passes_agree Cbor2.shortest Cbor2.shortest_minimal .lp64 _
    (reached_twoKeys fun _ => ⟨trivial, trivial⟩) .bits64
  have hmap : @ConfigPartition.mapBytes Cbor2.shortest twoKeys .bits64 =
      some (.ok [0xa2, 0x61, 0x61, 0x07, 0x61, 0x62, 0x61, 0x78]) := by
    decide +kernel
  obtain rfl := Option.some_injective _ (hfound.symm.trans hmap)
  refine ⟨?_, ?_, hcrc⟩
  · obtain ⟨⟨out, result⟩, hcall, hcopies⟩ := hcalls (List.replicate 10 0xee)
    have hresult : result = .ok 8 := hcopies.result
    have hout : out = [0xa2, 0x61, 0x61, 0x07, 0x61, 0x62, 0x61, 0x78, 0xee, 0xee] :=
      hcopies.written _ rfl (by decide)
    rw [hcall, hresult, hout]
  · obtain ⟨⟨out, result⟩, hcall, hcopies⟩ := hcalls (List.replicate 7 0xee)
    have hresult : result = .error (.tooSmall 8) := hcopies.result
    have hlength : out.length = 7 := hcopies.length
    exact ⟨out, by rw [hcall, hresult], hlength⟩

end Bristlemouth.Config
