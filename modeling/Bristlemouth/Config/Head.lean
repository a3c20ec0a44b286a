import Bristlemouth.Config.Layout
import Bristlemouth.Lib.Cbor

/-!
# Item heads and strings in a value slot

`configuration.rs`: `Head` reads the head of the first item of a slot, `copyString` copies a string
out of one, chunk by chunk. The heads a slot is written with come from the `cbor2` encoder, which is
a parameter.
-/

set_option autoImplicit false

namespace Bristlemouth.Config

open Bytes

/-- The width of a `usize` on the target. -/
inductive Usize where
  | bits32
  | bits64
deriving DecidableEq

namespace Usize

def max : Usize → Nat
  | bits32 => 2 ^ 32 - 1
  | bits64 => 2 ^ 64 - 1

/-- `usize::try_from(n).ok()`. -/
def tryFrom (u : Usize) (n : Nat) : Option Nat := if n ≤ u.max then some n else none

theorem le_max (u : Usize) : 2 ^ 32 - 1 ≤ u.max := by cases u <;> simp [max]

theorem tryFrom_of_lt (u : Usize) {n : Nat} (h : n < 2 ^ 32) : u.tryFrom n = some n := by
  have hmax := u.le_max
  exact if_pos (by omega)

end Usize

inductive ValueType where
  | uint32
  | int32
  | float
  | str
  | bytes
  | array
deriving DecidableEq, Repr

/-- `ty as u64`. -/
def ValueType.toNat : ValueType → Nat
  | uint32 => 0
  | int32 => 1
  | float => 2
  | str => 3
  | bytes => 4
  | array => 5

structure Head where
  major : UInt8
  info : UInt8
  arg : Nat
deriving DecidableEq, Repr

/-- `1 << (info - 24)`: the bytes an argument takes after the initial byte. -/
def argLen (info : UInt8) : Nat := 2 ^ (info.toNat - 24)

namespace Head

/-- `cbor_parser_init`: the first item's head, `none` where tinycbor returns an error. -/
def parse (buf : Bytes) : Option Head := do
  let descriptor ← buf.head?
  let major := descriptor >>> 5
  let info := descriptor &&& 0x1f
  if 27 < info then
    -- an indefinite length, which only strings, arrays and maps may have
    if info = 31 ∧ 2 ≤ major ∧ major ≤ 5 then some ⟨major, info, 0⟩ else none
  else
    let arg ← if info < 24 then some info.toNat else (buf.slice? 1 (argLen info)).map beNat
    if major = 7 ∧ info = 24 ∧ arg < 32 then none else some ⟨major, info, arg⟩

def isLengthKnown (h : Head) : Bool := h.info ≠ 31

/-- `cbor_type_to_config`. -/
def configType (h : Head) : Option ValueType :=
  if h.major = 0 then some .uint32
  else if h.major = 1 then some .int32
  else if h.major = 2 then some .bytes
  else if h.major = 3 then some .str
  else if h.major = 7 ∧ h.info = 26 then some .float
  else if h.major = 4 then some .array
  else none

def length (u : Usize) (h : Head) : Option Nat :=
  if h.isLengthKnown then u.tryFrom h.arg else none

end Head

inductive CopyError where
  | refused
  | tooSmall (len : Nat)
deriving DecidableEq, Repr

/-- The length in a chunk's head at `pos`, and the bytes of the head. -/
def chunkHead (slot : Bytes) (pos : Nat) (info : UInt8) : Option (Nat × Nat) :=
  if info < 24 then some (info.toNat, 1)
  else if 27 < info then none
  else (slot.slice? (pos + 1) (argLen info)).map fun bs => (beNat bs, 1 + argLen info)

/-- One round of the loop of `copy_string`: where the chunk at `pos` starts and how long it is. -/
def stringChunk (u : Usize) (slot : Bytes) (kind : UInt8) (pos : Nat) : Option (Nat × Nat) := do
  let descriptor ← slot[pos]?
  if descriptor &&& 0xe0 ≠ kind then none
  else
    let (len, headLen) ← chunkHead slot pos (descriptor &&& 0x1f)
    let len ← u.tryFrom len
    let start := pos + headLen
    if start + len ≤ slot.length then some (start, len) else none

theorem chunkHead_pos {slot : Bytes} {pos n headLen : Nat} {info : UInt8}
    (h : chunkHead slot pos info = some (n, headLen)) : 0 < headLen := by
  unfold chunkHead at h
  split_ifs at h
  · cases h
    omega
  · obtain ⟨bs, -, hbs⟩ := Option.map_eq_some_iff.mp h
    cases hbs
    omega

theorem stringChunk_bounds {u : Usize} {slot : Bytes} {kind : UInt8} {pos start len : Nat}
    (h : stringChunk u slot kind pos = some (start, len)) :
    pos < start ∧ start + len ≤ slot.length := by
  simp only [stringChunk, Option.bind_eq_bind, Option.bind_eq_some_iff] at h
  obtain ⟨d, hd, h⟩ := h
  split_ifs at h
  obtain ⟨⟨n, headLen⟩, hhead, h⟩ := Option.bind_eq_some_iff.mp h
  obtain ⟨m, hm, h⟩ := Option.bind_eq_some_iff.mp h
  have hpos := chunkHead_pos hhead
  split_ifs at h with hfit
  cases h
  exact ⟨by omega, hfit⟩

/-- What the loop of `copy_string` carries. -/
structure Copying where
  pos : Nat
  total : Nat
  fits : Bool
  out : Bytes

/-- The loop of `copy_string`. It ends at a break byte, after the only chunk of a string that is not
chunked, or at an error. The buffer comes back either way. -/
def copyChunks (u : Usize) (slot : Bytes) (kind : UInt8) (chunked : Bool) (s : Copying)
    (first : Bool) : Bool × Copying :=
  if chunked = false ∧ first = false then (true, s)
  else if slot[s.pos]? = some 0xff then (true, s)
  else
    match _hchunk : stringChunk u slot kind s.pos with
    | none => (false, s)
    | some (start, len) =>
      let newTotal := s.total + len
      if u.max < newTotal then (false, s)
      else if s.fits ∧ newTotal ≤ s.out.length then
        copyChunks u slot kind chunked
          ⟨start + len, newTotal, true, s.out.copyAt s.total (slot.slice start len)⟩ false
      else copyChunks u slot kind chunked ⟨start + len, newTotal, false, s.out⟩ false
termination_by slot.length + 1 - s.pos
decreasing_by
  all_goals
    have hbounds := stringChunk_bounds _hchunk
    omega

/-- `_cbor_value_copy_string` over the string whose head starts `slot`, and the buffer afterwards. -/
def copyString (u : Usize) (slot out : Bytes) : Except CopyError Nat × Bytes :=
  match Head.parse slot with
  | none => (.error .refused, out)
  | some head =>
    let chunked := !head.isLengthKnown
    -- a chunked string's own head is stepped over
    let s : Copying := ⟨if chunked then 1 else 0, 0, true, out⟩
    match copyChunks u slot (head.major <<< 5) chunked s true with
    | (false, s) => (.error .refused, s.out)
    | (true, s) =>
      if s.fits then (.ok s.total, if s.total < s.out.length then s.out.copyAt s.total [0] else s.out)
      else (.error (.tooSmall s.total), s.out)

theorem initial_shift {major info : Nat} (hm : major < 8) (hi : info < 32) :
    Cbor.initial major info >>> 5 = UInt8.ofNat major := by
  rw [← UInt8.toNat_inj, UInt8.toNat_shiftRight, Nat.shiftRight_eq_div_pow]
  change (32 * major + info) % 256 / 2 ^ 5 = major % 256
  omega

theorem initial_info {major info : Nat} (hi : info < 32) :
    Cbor.initial major info &&& 0x1f = UInt8.ofNat info := by
  rw [← UInt8.toNat_inj, UInt8.toNat_and]
  change (32 * major + info) % 256 &&& (2 ^ 5 - 1) = info % 256
  rw [Nat.and_two_pow_sub_one_eq_mod]
  omega

theorem and_kind (d : UInt8) : d &&& (0xe0 : UInt8) = (d >>> 5) <<< (5 : UInt8) := by
  have hall : ∀ n : Fin 256,
      UInt8.ofNat n.val &&& (0xe0 : UInt8) = (UInt8.ofNat n.val >>> (5 : UInt8)) <<< (5 : UInt8) := by
    decide +kernel
  simpa using hall ⟨d.toNat, d.toNat_lt⟩

theorem argLen_ofNat {k : Nat} (hk : k ≤ 3) : argLen (UInt8.ofNat (24 + k)) = 2 ^ k := by
  have hinfo : (UInt8.ofNat (24 + k)).toNat = 24 + k := Nat.mod_eq_of_lt (by omega)
  rw [argLen, hinfo, Nat.add_sub_cancel_left]

/-- A definite head as its readers see it: the initial byte, and the argument either in it or in the
bytes it announces. -/
theorem isHead_form {major arg : Nat} {h : Bytes} (hh : Cbor.IsHead major arg h) :
    ∃ info tail, h = Cbor.initial major info :: tail ∧
      (info < 24 ∧ tail = [] ∧ arg = info ∨
        24 ≤ info ∧ info ≤ 27 ∧ tail.length = argLen (UInt8.ofNat info) ∧ beNat tail = arg) := by
  cases hh with
  | short hlt => exact ⟨arg, [], rfl, .inl ⟨hlt, rfl, rfl⟩⟩
  | long k hk hlt =>
    refine ⟨24 + k, beBytes (2 ^ k) arg, rfl, .inr ⟨by omega, by omega, ?_, ?_⟩⟩
    · rw [length_beBytes, argLen_ofNat hk]
    · rw [beNat_beBytes, Nat.mod_eq_of_lt hlt]

/-- How the readers' tests come out on the information bits of a definite head. -/
theorem info_tests {info : Nat} (h : info ≤ 27) :
    (UInt8.ofNat info).toNat = info ∧ UInt8.ofNat info ≠ 31 ∧ ¬ 27 < UInt8.ofNat info ∧
      (UInt8.ofNat info < 24 ↔ info < 24) := by
  have hnat : (UInt8.ofNat info).toNat = info := Nat.mod_eq_of_lt (by omega)
  refine ⟨hnat, ?_, ?_, ?_⟩
  · intro heq
    rw [heq] at hnat
    change 31 = info at hnat
    omega
  · rw [UInt8.lt_iff_toNat_lt, hnat]
    change ¬ 27 < info
    omega
  · rw [UInt8.lt_iff_toNat_lt, hnat]
    rfl

theorem slice?_head {d : UInt8} {tail : Bytes} {n : Nat} (hn : tail.length = n) (rest : Bytes) :
    slice? (d :: (tail ++ rest)) 1 n = some tail := by
  rw [slice?_of_le (by simp only [List.length_cons, List.length_append]; omega)]
  exact congrArg some (slice_append_self hn)

/-- What `Head.parse` reads from a definite head. -/
theorem Head.parse_isHead {major arg : Nat} {h : Bytes} (hh : Cbor.IsHead major arg h)
    (hm : major < 7) (rest : Bytes) :
    ∃ info, info ≠ 31 ∧ Head.parse (h ++ rest) = some ⟨UInt8.ofNat major, info, arg⟩ := by
  have hseven : ¬ UInt8.ofNat major = 7 := by
    intro heq
    have hnat := congrArg UInt8.toNat heq
    change major % 256 = 7 at hnat
    omega
  obtain ⟨info, tail, rfl, hform⟩ := isHead_form hh
  have hle : info ≤ 27 := by omega
  obtain ⟨hnat, h31, h27, h24⟩ := info_tests hle
  refine ⟨UInt8.ofNat info, h31, ?_⟩
  simp only [Head.parse, List.cons_append, List.head?_cons, Option.bind_eq_bind, Option.bind_some]
  rw [initial_shift (by omega) (by omega), initial_info (by omega), if_neg h27]
  rcases hform with ⟨hlt, rfl, rfl⟩ | ⟨hge, -, hlen, rfl⟩
  · rw [if_pos (h24.mpr hlt), hnat]
    simp [hseven]
  · rw [if_neg fun hlt => absurd (h24.mp hlt) (by omega), slice?_head hlen]
    simp [hseven]

theorem Head.parse_single (bits : UInt32) (rest : Bytes) :
    Head.parse (Cbor.initial 7 26 :: beBytes 4 bits.toNat ++ rest) = some ⟨7, 26, bits.toNat⟩ := by
  have hlen : (beBytes 4 bits.toNat).length = argLen 26 := by simp [argLen]
  have hbits : beNat (beBytes 4 bits.toNat) = bits.toNat := by
    rw [beNat_beBytes]
    exact Nat.mod_eq_of_lt bits.toNat_lt
  simp only [Head.parse, List.cons_append, List.head?_cons, Option.bind_eq_bind, Option.bind_some]
  rw [show Cbor.initial 7 26 >>> 5 = 7 by decide, show Cbor.initial 7 26 &&& 0x1f = 26 by decide,
    if_neg (by decide), if_neg (by decide), slice?_head hlen]
  simp [hbits]

/-- Bytes after a readable head do not change what it reads as. -/
theorem Head.parse_append {buf : Bytes} {head : Head} (h : Head.parse buf = some head)
    (rest : Bytes) : Head.parse (buf ++ rest) = some head := by
  cases buf with
  | nil => simp [Head.parse] at h
  | cons d tail =>
    simp only [Head.parse, List.head?_cons, Option.bind_eq_bind, Option.bind_some,
      List.cons_append] at h ⊢
    split_ifs at h ⊢ with h27 h31 h24
    · exact h
    · exact h
    · obtain ⟨arg, harg, hrest⟩ := Option.bind_eq_some_iff.mp h
      obtain ⟨bs, hbs, rfl⟩ := Option.map_eq_some_iff.mp harg
      obtain ⟨hle, rfl, -⟩ := slice?_eq_some hbs
      have hslice : slice? (d :: (tail ++ rest)) 1 (argLen (d &&& 0x1f))
          = some (slice (d :: tail) 1 (argLen (d &&& 0x1f))) := by
        rw [slice?_of_le (by simp only [List.length_cons, List.length_append] at hle ⊢; omega),
          ← List.cons_append, slice_append_left hle]
      rw [hslice]
      exact hrest

theorem chunkHead_isHead {major arg : Nat} {h : Bytes} (hh : Cbor.IsHead major arg h)
    (rest : Bytes) :
    ∃ d : UInt8, (h ++ rest)[0]? = some d ∧ (major < 8 → d >>> 5 = UInt8.ofNat major) ∧
      chunkHead (h ++ rest) 0 (d &&& 0x1f) = some (arg, h.length) := by
  obtain ⟨info, tail, rfl, hform⟩ := isHead_form hh
  have hle : info ≤ 27 := by omega
  obtain ⟨hnat, -, h27, h24⟩ := info_tests hle
  refine ⟨Cbor.initial major info, rfl, fun hm => initial_shift hm (by omega : info < 32), ?_⟩
  rw [initial_info (by omega : info < 32), chunkHead]
  rcases hform with ⟨hlt, rfl, rfl⟩ | ⟨hge, -, hlen, rfl⟩
  · rw [if_pos (h24.mpr hlt), hnat]
    rfl
  · rw [if_neg fun hlt => absurd (h24.mp hlt) (by omega), if_neg h27, List.cons_append,
      slice?_head hlen]
    simp [hlen, Nat.add_comm]

theorem stringChunk_isHead {u : Usize} {major : Nat} {h body : Bytes}
    (hh : Cbor.IsHead major body.length h) (hm : major < 7) (hlen : body.length < 2 ^ 32)
    (rest : Bytes) :
    (h ++ body ++ rest)[0]? ≠ some 0xff ∧
      stringChunk u (h ++ body ++ rest) (UInt8.ofNat major <<< 5) 0
        = some (h.length, body.length) := by
  rw [List.append_assoc]
  obtain ⟨d, hd, hshift, hhead⟩ := chunkHead_isHead hh (body ++ rest)
  have hkind : d &&& (0xe0 : UInt8) = UInt8.ofNat major <<< (5 : UInt8) := by rw [and_kind, hshift (by omega)]
  constructor
  · intro h255
    rw [hd] at h255
    cases h255
    have hmajor := congrArg UInt8.toNat (hshift (by omega))
    change 7 = major % 256 at hmajor
    omega
  · have hfit : 0 + h.length + body.length ≤ (h ++ (body ++ rest)).length := by
      simp only [List.length_append]
      omega
    simp [stringChunk, hd, hkind, hhead, u.tryFrom_of_lt hlen, List.length_append]

/-- A definite string is copied whole into a buffer that holds it. -/
theorem copyString_isHead {u : Usize} {major : Nat} {h body : Bytes}
    (hh : Cbor.IsHead major body.length h) (hm : major < 7) (hlen : body.length < 2 ^ 32)
    (rest : Bytes) {out : Bytes} (hout : body.length ≤ out.length) :
    ∃ out', copyString u (h ++ body ++ rest) out = (.ok body.length, out') ∧
      out'.take body.length = body := by
  obtain ⟨info, h31, hparse⟩ := Head.parse_isHead hh hm (body ++ rest)
  obtain ⟨hff, hchunk⟩ := stringChunk_isHead (u := u) hh hm hlen rest
  have hmax := u.le_max
  rw [← List.append_assoc] at hparse
  have hbody : (h ++ body ++ rest).slice h.length body.length = body := by
    rw [List.append_assoc, slice_append_right (Nat.le_refl _), Nat.sub_self, slice_append_self rfl]
  -- the only chunk is the body; a second round finds the string complete
  have hcopy : copyChunks u (h ++ body ++ rest) (UInt8.ofNat major <<< 5) false ⟨0, 0, true, out⟩ true
      = (true, ⟨h.length + body.length, body.length, true, out.copyAt 0 body⟩) := by
    rw [copyChunks, if_neg (by simp), if_neg hff]
    split
    · next hnone => rw [hchunk] at hnone; cases hnone
    · next start len hsome =>
      rw [hchunk] at hsome
      cases hsome
      simp only [Nat.zero_add]
      rw [if_neg (by omega), if_pos ⟨trivial, hout⟩, copyChunks, if_pos ⟨rfl, rfl⟩, hbody]
  have hprefix : (out.copyAt 0 body).take body.length = body := by
    simpa using take_copyAt body (Nat.zero_le out.length)
  have hlength : (out.copyAt 0 body).length = out.length := length_copyAt _ _ _ (by omega)
  simp only [copyString, hparse, Head.isLengthKnown, ne_eq, h31, not_false_eq_true, decide_true,
    Bool.not_true, Bool.false_eq_true, if_false, hcopy, if_true]
  refine ⟨_, rfl, ?_⟩
  split_ifs with hroom
  · rw [copyAt, List.take_append_of_le_length (by simp [hlength, hout]), List.take_take]
    simpa using hprefix
  · exact hprefix

end Bristlemouth.Config
