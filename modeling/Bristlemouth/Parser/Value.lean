import Bristlemouth.Config.Head

/-!
# The CBOR reader

`cbor/parser.rs`: `Value` is an iterator on one item of a buffer. Every index into the buffer and
every sum of offsets is checked here as the compiler has it checked, so a call that would panic says
so, and a loop that would not end runs out of fuel.
-/

set_option autoImplicit false

namespace Bristlemouth.Parser

open Bytes Config

inductive CborError where
  | unknownLength
  | advancePastEof
  | garbageAtEnd
  | unexpectedEof
  | unexpectedBreak
  | unknownType
  | illegalType
  | illegalNumber
  | illegalSimpleType
  | improperValue
  | tooFewItems
  | dataTooLarge
  | nestingTooDeep
  | unsupportedType
  | outOfMemory
  | unreachable
deriving DecidableEq, Repr

/-- How a call ends without a result. -/
inductive Halt where
  | error (e : CborError)
  | panic
  | diverge
deriving DecidableEq, Repr

abbrev Run (α : Type) := Except Halt α

abbrev fail {α : Type} (e : CborError) : Run α := .error (.error e)

/-- A sum of offsets. -/
def addUsize (u : Usize) (a b : Nat) : Run Nat := if a + b ≤ u.max then .ok (a + b) else .error .panic

/-- `bytes[..n]`. -/
def firstBytes (bytes : Bytes) (n : Nat) : Run Bytes :=
  if n ≤ bytes.length then .ok (bytes.take n) else .error .panic

def maxRecursions : Nat := 10

-- `CborType`

def integer : UInt8 := 0x00
def byteString : UInt8 := 0x40
def textString : UInt8 := 0x60
def array : UInt8 := 0x80
def map : UInt8 := 0xa0
def tag : UInt8 := 0xc0
def simple : UInt8 := 0xe0
def boolean : UInt8 := 0xf5
def float : UInt8 := 0xfa
def double : UInt8 := 0xfb
def invalid : UInt8 := 0xff

def breakByte : UInt8 := 0xff

/-- `remaining` of a container of indefinite length. -/
def unbounded : UInt32 := 0xffffffff

/-- The bits of `flags`. The third is `BEFORE_FIRST_STRING_CHUNK` too. -/
structure Flags where
  integerIs64Bit : Bool
  integerTooLarge : Bool
  negativeInteger : Bool
  iteratingStringChunks : Bool
  unknownLength : Bool
  containerIsMap : Bool
  nextIsMapKey : Bool
deriving DecidableEq, Repr

def Flags.none : Flags := ⟨false, false, false, false, false, false, false⟩

structure Value where
  buf : Bytes
  pos : Nat
  remaining : UInt32
  flags : Flags
  ty : UInt8
  extra : UInt16
deriving DecidableEq, Repr

structure Copied where
  total : Nat
  all : Bool
  nul : Bool
deriving DecidableEq, Repr

def isFixedType (ty : UInt8) : Bool :=
  ty ≠ textString && ty ≠ byteString && ty ≠ array && ty ≠ map

/-- `read_be`, of at most eight bytes. -/
def readBe (bytes : Bytes) : UInt64 := UInt64.ofNat (beNat bytes)

/-- The bytes of a head's argument. -/
def needed (info : UInt8) : Nat := if info < 24 then 0 else argLen info

/-- What a method that changes `self` leaves and returns; an error leaves the value as far as it got. -/
abbrev Changed := Value × Run Unit

def Changed.andThen (c : Changed) (next : Value → Changed) : Changed :=
  match c with
  | (v, .ok ()) => next v
  | (v, .error h) => (v, .error h)

/-- A copy that was changed: the caller has it only if all went well. -/
def Changed.get (c : Changed) : Run Value :=
  match c with
  | (v, .ok ()) => .ok v
  | (_, .error h) => .error h

namespace Value

def canRead (v : Value) (n : Nat) : Bool := n ≤ v.buf.length - v.pos

/-- The source's `at`. -/
def bytesAt (u : Usize) (v : Value) (offset : Nat) : Run Bytes := do
  let start ← addUsize u v.pos offset
  return v.buf.drop start

def atEnd (v : Value) : Bool := v.remaining = 0

def isContainer (v : Value) : Bool := v.ty = array || v.ty = map

def isMap (v : Value) : Bool := v.ty = map

def isTextString (v : Value) : Bool := v.ty = textString

def isByteString (v : Value) : Bool := v.ty = byteString

def isUnsignedInteger (v : Value) : Bool := v.ty = integer && !v.flags.negativeInteger

def isFloat (v : Value) : Bool := v.ty = float

def isDouble (v : Value) : Bool := v.ty = double

def isTag (v : Value) : Bool := v.ty = tag

def isValid (v : Value) : Bool := v.ty ≠ invalid

def isLengthKnown (v : Value) : Bool := !v.flags.unknownLength

/-! ### Reading a head -/

/-- The part of `preparse_value` on the argument. Short arguments are kept, of the longer ones the
flags say where they are. -/
def preparseArgument (u : Usize) (v : Value) (info : UInt8) : Changed :=
  if needed info = 0 then (v, .ok ())
  else if !v.canRead (needed info + 1) then (v, fail .unexpectedEof)
  else if needed info ≤ 2 then
    match (do firstBytes (← v.bytesAt u 1) (needed info)) with
    | .error h => (v, .error h)
    | .ok bytes => ({ v with extra := UInt16.ofNat (beNat bytes) }, .ok ())
  else
    ({ v with
      extra := 0
      flags := { v.flags with
        integerIs64Bit := v.flags.integerIs64Bit || info &&& 1 ≠ 0
        integerTooLarge := v.flags.integerTooLarge || info &&& 2 ≠ 0 } }, .ok ())

/-- The part of `preparse_value` after the argument. -/
def preparseType (v : Value) (descriptor : UInt8) : Changed :=
  let info := descriptor &&& 0x1f
  if v.ty >>> 5 = 1 then
    ({ v with ty := integer, flags := { v.flags with negativeInteger := true } }, .ok ())
  else if v.ty >>> 5 = 7 then
    if info = 20 then ({ v with ty := boolean, extra := 0 }, .ok ())
    else if info = 26 ∨ info = 27 then
      ({ v with ty := descriptor, flags := { v.flags with integerTooLarge := true } }, .ok ())
    else if info = 21 ∨ info = 22 ∨ info = 23 ∨ info = 25 then ({ v with ty := descriptor }, .ok ())
    else if info = 24 ∧ v.extra < 32 then ({ v with ty := invalid }, fail .illegalSimpleType)
    else (v, .ok ())
  else (v, .ok ())

def preparseValue (u : Usize) (v : Value) : Changed :=
  let v := { v with
    ty := invalid
    flags := { Flags.none with
      containerIsMap := v.flags.containerIsMap
      nextIsMapKey := v.flags.nextIsMapKey } }
  match v.buf[v.pos]? with
  | none => (v, fail .unexpectedEof)
  | some descriptor =>
    let ty := descriptor &&& 0xe0
    let info := descriptor &&& 0x1f
    let v := { v with ty, extra := info.toUInt16 }
    if 27 < info then
      if info ≠ 31 then (v, fail (if ty = simple then .unknownType else .illegalNumber))
      else if !isFixedType ty then ({ v with flags := { v.flags with unknownLength := true } }, .ok ())
      else (v, fail (if ty = simple then .unexpectedBreak else .illegalNumber))
    else (v.preparseArgument u info).andThen fun v => v.preparseType descriptor

def preparseNextValueNodecrement (u : Usize) (v : Value) : Changed :=
  if v.remaining = unbounded ∧ v.buf[v.pos]? = some breakByte then
    if v.flags.containerIsMap ∧ v.flags.nextIsMapKey ∨ v.ty = tag then (v, fail .unexpectedBreak)
    else
      ({ v with
        ty := invalid
        remaining := 0
        flags := { v.flags with unknownLength := true } }, .ok ())
  else v.preparseValue u

/-- A tag counts neither as an item nor as a map key. -/
def preparseNextValue (u : Usize) (v : Value) : Changed :=
  if v.ty = tag then v.preparseNextValueNodecrement u
  else
    let v := if v.remaining = unbounded then v else { v with remaining := v.remaining - 1 }
    if v.remaining = 0 then
      ({ v with ty := invalid, flags := { v.flags with unknownLength := false } }, .ok ())
    else
      { v with flags := { v.flags with nextIsMapKey := !v.flags.nextIsMapKey } }.preparseNextValueNodecrement u

def parse (u : Usize) (buf : Bytes) : Run Value :=
  (preparseValue u ⟨buf, 0, 1, .none, invalid, 0⟩).get

/-! ### Arguments -/

/-- The argument of any head, with nothing checked. -/
def extract (u : Usize) (v : Value) : Run UInt64 :=
  if !v.flags.integerTooLarge then .ok v.extra.toUInt64
  else do
    let width := if v.flags.integerIs64Bit then 8 else 4
    return readBe (← firstBytes (← v.bytesAt u 1) width)

def extractNumberAndAdvance (u : Usize) (v : Value) : Run (Value × UInt64) := do
  let argument ← v.extract u
  match v.buf[v.pos]? with
  | none => .error .panic
  | some descriptor =>
    let pos ← addUsize u v.pos (needed (descriptor &&& 0x1f) + 1)
    return ({ v with pos }, argument)

def stringLength (u : Usize) (v : Value) : Run Nat :=
  if !v.isTextString && !v.isByteString then fail .unreachable
  else if !v.isLengthKnown then fail .unknownLength
  else do
    match u.tryFrom (← v.extract u).toNat with
    | none => fail .dataTooLarge
    | some len => return len

def mapLength (u : Usize) (v : Value) : Run Nat :=
  if !v.isMap then fail .unreachable
  else if !v.isLengthKnown then fail .unknownLength
  else do
    match u.tryFrom (← v.extract u).toNat with
    | none => fail .dataTooLarge
    | some len => return len

def getInt64 (u : Usize) (v : Value) : Run Int64 := do
  let n := (← v.extract u).toInt64
  return if v.flags.negativeInteger then -n - 1 else n

def getFloat (u : Usize) (v : Value) : Run UInt32 :=
  if !v.flags.integerTooLarge then fail .unreachable
  else do return (← v.extract u).toUInt32

/-! ### Strings -/

def transferString (u : Usize) (v : Value) (len offset : Nat) : Run (Option (Nat × Nat) × Value) := do
  let start ← addUsize u v.pos offset
  if !({ v with pos := start } : Value).canRead len then fail .unexpectedEof
  else
    let stop ← addUsize u start len
    return (some (start, len), { v with pos := stop, flags := { v.flags with negativeInteger := false } })

/-- The range of the next chunk, or `none` after the last. -/
def stringChunk (u : Usize) (v : Value) : Run (Option (Nat × Nat) × Value) :=
  if v.isLengthKnown && !v.flags.negativeInteger then .ok (none, v)
  else
    match v.buf[v.pos]? with
    | none => fail .unexpectedEof
    | some descriptor =>
      let info := descriptor &&& 0x1f
      if descriptor = breakByte then .ok (none, v)
      else if descriptor &&& 0xe0 ≠ v.ty then fail .illegalType
      else if info < 24 then v.transferString u info.toNat 1
      else if 27 < info then fail .illegalNumber
      else if !v.canRead (1 + argLen info) then fail .unexpectedEof
      else do
        let bytes ← firstBytes (← v.bytesAt u 1) (argLen info)
        match u.tryFrom (readBe bytes).toNat with
        | none => fail .dataTooLarge
        | some len => v.transferString u len (argLen info + 1)

structure Chunking where
  next : Value
  total : Nat
  all : Bool

/-- The loop of `iterate_string`: what it hands to `copy`, and the iterator behind the last chunk. -/
def iterateChunks (u : Usize) (buflen : Nat) : Nat → Chunking → List (Nat × Bytes) × Run Chunking
  | 0, _ => ([], .error .diverge)
  | fuel + 1, s =>
    match s.next.stringChunk u with
    | .error h => ([], .error h)
    | .ok (none, next) => ([], .ok { s with next })
    | .ok (some (start, len), next) =>
      if u.max < s.total + len then ([], fail .dataTooLarge)
      else if s.all && decide (s.total + len ≤ buflen) then
        match s.next.buf.slice? start len with
        | none => ([], .error .panic)
        | some chunk =>
          let (copies, result) := iterateChunks u buflen fuel ⟨next, s.total + len, true⟩
          ((s.total, chunk) :: copies, result)
      else iterateChunks u buflen fuel ⟨next, s.total + len, false⟩

/-- Behind the last chunk, and behind the break of a chunked string. -/
def finishString (u : Usize) (buflen : Nat) (s : Chunking) : Run (Copied × Value) := do
  let pos ← if s.next.isLengthKnown then .ok s.next.pos else addUsize u s.next.pos 1
  let next ← ({ s.next with pos }.preparseNextValue u).get
  return (⟨s.total, s.all, s.all && decide (s.total < buflen)⟩, next)

def iterateString (u : Usize) (v : Value) (buflen : Nat) :
    List (Nat × Bytes) × Run (Copied × Value) :=
  if !v.isTextString && !v.isByteString then ([], fail .unreachable)
  else
    match (if v.isLengthKnown then .ok v.pos else addUsize u v.pos 1) with
    | .error h => ([], .error h)
    | .ok pos =>
      let next := { v with
        pos, flags := { v.flags with iteratingStringChunks := true, negativeInteger := true } }
      match iterateChunks u buflen (v.buf.length + 1) ⟨next, 0, true⟩ with
      | (copies, .error h) => (copies, .error h)
      | (copies, .ok s) => (copies, finishString u buflen s)

/-- The chunks that are copied, and what the copy came to. -/
def copyString (u : Usize) (v : Value) (buflen : Nat) : List (Nat × Bytes) × Run Copied :=
  let (copies, result) := v.iterateString u buflen
  (copies, result.map Prod.fst)

/-! ### Containers -/

/-- The end of `enter_container`: the first item of a container that is not empty. -/
def enterFirst (u : Usize) (recursed : Value) : Run Value :=
  ({ recursed with
    flags := { Flags.none with containerIsMap := recursed.ty &&& 0x20 ≠ 0 } }.preparseNextValueNodecrement u).get

def enterContainer (u : Usize) (v : Value) : Run Value :=
  if !v.isContainer then fail .unreachable
  else if v.flags.unknownLength then do
    let pos ← addUsize u v.pos 1
    enterFirst u { v with remaining := unbounded, pos }
  else do
    let (recursed, len) ← v.extractNumberAndAdvance u
    if len.toUInt32.toUInt64 ≠ len ∨ len = 0xffffffff then fail .dataTooLarge
    else if recursed.ty = map ∧ len.toUInt32 > 0x7fffffff then fail .dataTooLarge
    else
      let remaining ←
        if recursed.ty = map then
          if len.toUInt32.toNat * 2 < 2 ^ 32 then .ok (len.toUInt32 * 2) else .error .panic
        else .ok len.toUInt32
      if len = 0 then return { recursed with remaining, ty := invalid }
      else enterFirst u { recursed with remaining }

def leaveContainer (u : Usize) (v recursed : Value) : Changed :=
  if !v.isContainer || recursed.ty ≠ invalid then (v, fail .unreachable)
  else
    match (if recursed.flags.unknownLength then addUsize u recursed.pos 1 else .ok recursed.pos) with
    | .error h => (v, .error h)
    | .ok pos => { v with pos }.preparseNextValue u

/-! ### Stepping over items -/

def advanceInternal (u : Usize) (v : Value) : Changed :=
  match v.extractNumberAndAdvance u with
  | .error h => (v, .error h)
  | .ok (v, _) => v.preparseNextValue u

/-- `while !recursed.at_end() { ... }`. -/
def untilEnd (step : Value → Changed) : Nat → Value → Changed
  | 0, v => (v, .error .diverge)
  | fuel + 1, v => if v.atEnd then (v, .ok ()) else (step v).andThen (untilEnd step fuel)

def advanceRecursive (u : Usize) (nesting : Nat) (v : Value) : Changed :=
  if isFixedType v.ty then v.advanceInternal u
  else if !v.isContainer then
    match (v.iterateString u u.max).2 with
    | .error h => (v, .error h)
    | .ok (_, next) => (next, .ok ())
  else
    match nesting with
    | 0 => (v, fail .nestingTooDeep)
    | nesting + 1 =>
      match v.enterContainer u with
      | .error h => (v, .error h)
      | .ok recursed =>
        match untilEnd (advanceRecursive u nesting) (v.buf.length + 1) recursed with
        | (_, .error h) => (v, .error h)
        | (recursed, .ok ()) => v.leaveContainer u recursed

def advance (u : Usize) (v : Value) : Changed :=
  if v.ty = invalid then (v, fail .unreachable)
  else if v.remaining = 0 then (v, fail .advancePastEof)
  else v.advanceRecursive u maxRecursions

def validateBasic (u : Usize) (v : Value) : Run Unit := (v.advance u).2

def skipTagLoop (u : Usize) : Nat → Value → Changed
  | 0, v => (v, .error .diverge)
  | fuel + 1, v =>
    if !v.isTag then (v, .ok ())
    else if v.remaining = 0 then (v, fail .advancePastEof)
    else (v.advanceInternal u).andThen (skipTagLoop u fuel)

def skipTag (u : Usize) (v : Value) : Changed := v.skipTagLoop u (v.buf.length + 1)

/-- The closure of `map_find_value`: whether every chunk handed to it is where it is in `key`. -/
def chunksEqual (key : Bytes) : List (Nat × Bytes) → Run Bool
  | [] => .ok true
  | (start, chunk) :: copies =>
    match key.slice? start chunk.length with
    | none => .error .panic
    | some part => do
      let rest ← chunksEqual key copies
      return decide (part = chunk) && rest

/-- One key of `map_find_value`: its value if it is the key looked for, or else the next item. -/
def matchKey (u : Usize) (element : Value) (key : Bytes) : Run (Value × Bool) :=
  if element.isTextString then
    let (copies, result) := element.iterateString u key.length
    match chunksEqual key copies with
    | .error h => .error h
    | .ok equal => do
      let (copied, next) ← result
      if equal && copied.all && decide (copied.total = key.length) then
        return (← (next.preparseValue u).get, true)
      else return (next, false)
  else do return (← (element.advance u).get, false)

def findValue (u : Usize) (key : Bytes) : Nat → Value → Run Value
  | 0, _ => .error .diverge
  | fuel + 1, element =>
    if element.atEnd then .ok { element with ty := invalid }
    else do
      let element ← (element.skipTag u).get
      let (element, found) ← element.matchKey u key
      if found then return element
      else
        let element ← (element.skipTag u).get
        let element ← (element.advance u).get
        findValue u key fuel element

def mapFindValue (u : Usize) (v : Value) (key : Bytes) : Run Value :=
  if !v.isMap then fail .unreachable
  else do findValue u key (v.buf.length + 1) (← v.enterContainer u)

end Value

structure CborString where
  value : Value
  len : Nat
deriving DecidableEq, Repr

def Value.string (u : Usize) (v : Value) : Run CborString :=
  if !v.isTextString && !v.isByteString then fail .unreachable
  else do
    let copied ← (v.copyString u u.max).2
    return ⟨v, copied.total⟩

namespace CborString

/-- What `for_each_chunk` hands out. It ignores an error, since the string was read before. -/
def chunks (u : Usize) (s : CborString) : List Bytes := (s.value.copyString u u.max).1.map Prod.snd

/-- The closure of `eq_bytes`, from the byte that `start` counts to. -/
def chunksAre (bytes : Bytes) : Nat → List Bytes → Run Bool
  | _, [] => .ok true
  | start, chunk :: chunks =>
    match bytes.slice? start chunk.length with
    | none => .error .panic
    | some part => do
      let rest ← chunksAre bytes (start + chunk.length) chunks
      return decide (part = chunk) && rest

def eqBytes (u : Usize) (s : CborString) (bytes : Bytes) : Run Bool :=
  if bytes.length ≠ s.len then .ok false else chunksAre bytes 0 (s.chunks u)

end CborString

end Bristlemouth.Parser
