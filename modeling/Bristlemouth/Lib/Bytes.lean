import Mathlib.Data.List.Basic
import Mathlib.Tactic.Ring

/-!
# Byte strings

Buffers as lists of bytes: slices, overwriting in place, and fixed-width
integers in either byte order. Nothing here knows of any wire format.
-/

set_option autoImplicit false

abbrev Bytes := List UInt8

namespace Bytes

/-- `buf[off..off + len]`, cut short where the buffer ends. -/
def slice (buf : Bytes) (off len : Nat) : Bytes := (buf.drop off).take len

/-- `buf.get(off..off + len)`. -/
def slice? (buf : Bytes) (off len : Nat) : Option Bytes :=
  if off + len ≤ buf.length then some (buf.slice off len) else none

/-- `buf[off..off + data.len()].copy_from_slice(data)`, for a range inside the buffer. -/
def copyAt (buf : Bytes) (off : Nat) (data : Bytes) : Bytes :=
  buf.take off ++ (data ++ buf.drop (off + data.length))

/-- `buf[i]`, zero past the end. -/
def byteAt (buf : Bytes) (i : Nat) : UInt8 := buf.getD i 0

theorem length_slice {buf : Bytes} {off len : Nat} (h : off + len ≤ buf.length) :
    (buf.slice off len).length = len := by
  simp only [slice, List.length_take, List.length_drop]
  omega

theorem slice?_eq_some {buf : Bytes} {off len : Nat} {s : Bytes} (h : buf.slice? off len = some s) :
    off + len ≤ buf.length ∧ s = buf.slice off len ∧ s.length = len := by
  unfold slice? at h
  split at h
  · rename_i hlen
    cases h
    exact ⟨hlen, rfl, length_slice hlen⟩
  · cases h

theorem slice?_of_le {buf : Bytes} {off len : Nat} (h : off + len ≤ buf.length) :
    buf.slice? off len = some (buf.slice off len) := if_pos h

@[simp] theorem length_copyAt (buf : Bytes) (off : Nat) (data : Bytes)
    (h : off + data.length ≤ buf.length) : (buf.copyAt off data).length = buf.length := by
  simp only [copyAt, List.length_append, List.length_take, List.length_drop]
  omega

theorem take_copyAt {buf : Bytes} {off : Nat} (data : Bytes) (h : off ≤ buf.length) :
    (buf.copyAt off data).take (off + data.length) = buf.take off ++ data := by
  have hl : (buf.take off).length = off := by simp [h]
  rw [copyAt, ← List.append_assoc, List.take_append_of_le_length (by simp [hl])]
  exact List.take_of_length_le (by simp [hl])

theorem slice_copyAt {buf : Bytes} {off : Nat} (data : Bytes) (h : off ≤ buf.length) :
    (buf.copyAt off data).slice off data.length = data := by
  have hl : (buf.take off).length = off := by simp [h]
  rw [slice, copyAt, List.drop_append_of_le_length (by omega), List.drop_of_length_le (by omega)]
  simp

theorem getElem?_copyAt {buf : Bytes} {off : Nat} {data : Bytes}
    (h : off + data.length ≤ buf.length) (i : Nat) :
    (buf.copyAt off data)[i]? =
      if i < off then buf[i]? else if i < off + data.length then data[i - off]? else buf[i]? := by
  have hl : (buf.take off).length = off := by simp; omega
  unfold copyAt
  split
  · rename_i hi
    rw [List.getElem?_append_left (by omega), List.getElem?_take_of_lt hi]
  · rename_i hi
    rw [List.getElem?_append_right (by omega), hl]
    split
    · rw [List.getElem?_append_left (by omega)]
    · rw [List.getElem?_append_right (by omega), List.getElem?_drop]
      congr 1
      omega

theorem getElem?_slice (buf : Bytes) (off len i : Nat) :
    (buf.slice off len)[i]? = if i < len then buf[off + i]? else none := by
  simp only [slice, List.getElem?_take, List.getElem?_drop]

theorem getElem?_eq_byteAt {buf : Bytes} {i : Nat} (h : i < buf.length) :
    buf[i]? = some (buf.byteAt i) := by
  simp [byteAt, List.getD, h]

/-- A write leaves every range disjoint from it as it was. -/
theorem slice_copyAt_of_disjoint {buf : Bytes} {off i n : Nat} {data : Bytes}
    (h : off + data.length ≤ buf.length) (hd : i + n ≤ off ∨ off + data.length ≤ i) :
    (buf.copyAt off data).slice i n = buf.slice i n := by
  apply List.ext_getElem?
  intro j
  rw [getElem?_slice, getElem?_slice, getElem?_copyAt h]
  split
  · rename_i hj
    split
    · rfl
    · rw [if_neg (by omega)]
  · rfl

theorem byteAt_copyAt_of_disjoint {buf : Bytes} {off i : Nat} {data : Bytes}
    (h : off + data.length ≤ buf.length) (hd : i < off ∨ off + data.length ≤ i) :
    (buf.copyAt off data).byteAt i = buf.byteAt i := by
  simp only [byteAt, List.getD_eq_getElem?_getD]
  rw [getElem?_copyAt h]
  split
  · rfl
  · rw [if_neg (by omega)]

/-- What is read inside a write is the corresponding part of the written bytes. -/
theorem slice_copyAt_inside {buf : Bytes} {off i n : Nat} {data : Bytes}
    (h : off + data.length ≤ buf.length) (hi : off ≤ i) (hn : i + n ≤ off + data.length) :
    (buf.copyAt off data).slice i n = data.slice (i - off) n := by
  apply List.ext_getElem?
  intro j
  rw [getElem?_slice, getElem?_slice, getElem?_copyAt h]
  split
  · rename_i hj
    rw [if_neg (by omega), if_pos (by omega)]
    congr 1
    omega
  · rfl

/-- A write inside a range, seen from that range. -/
theorem slice_copyAt_within {buf : Bytes} {off i n : Nat} {data : Bytes} (hn : off + n ≤ buf.length)
    (hi : i + data.length ≤ n) :
    (buf.copyAt (off + i) data).slice off n = (buf.slice off n).copyAt i data := by
  have hl : (buf.slice off n).length = n := length_slice hn
  apply List.ext_getElem?
  intro j
  rw [getElem?_slice, getElem?_copyAt (by omega), getElem?_copyAt (by omega), getElem?_slice]
  by_cases hj : j < n
  · rw [if_pos hj]
    by_cases hlow : j < i
    · rw [if_pos (by omega), if_pos hlow, if_pos hj]
    · rw [if_neg (by omega), if_neg hlow]
      by_cases hhigh : j < i + data.length
      · rw [if_pos (by omega), if_pos hhigh]
        congr 1
        omega
      · rw [if_neg (by omega), if_neg hhigh, if_pos hj]
  · rw [if_neg hj, if_neg (by omega), if_neg (by omega), if_neg hj]

theorem byteAt_slice {buf : Bytes} {off n i : Nat} (h : i < n) :
    (buf.slice off n).byteAt i = buf.byteAt (off + i) := by
  simp only [byteAt, List.getD_eq_getElem?_getD]
  rw [getElem?_slice, if_pos h]

theorem slice_append_left {a b : Bytes} {i n : Nat} (h : i + n ≤ a.length) :
    (a ++ b).slice i n = a.slice i n := by
  apply List.ext_getElem?
  intro j
  rw [getElem?_slice, getElem?_slice]
  split
  · rw [List.getElem?_append_left (by omega)]
  · rfl

theorem slice_append_right {a b : Bytes} {i n : Nat} (h : a.length ≤ i) :
    (a ++ b).slice i n = b.slice (i - a.length) n := by
  apply List.ext_getElem?
  intro j
  rw [getElem?_slice, getElem?_slice]
  split
  · rw [List.getElem?_append_right (by omega)]
    congr 1
    omega
  · rfl

theorem slice_append_self {a b : Bytes} {n : Nat} (h : a.length = n) : (a ++ b).slice 0 n = a := by
  rw [slice, List.drop_zero, List.take_append_of_le_length (by omega),
    List.take_of_length_le (by omega)]

theorem slice_of_length {b : Bytes} {n : Nat} (h : b.length = n) : b.slice 0 n = b := by
  rw [slice, List.drop_zero, List.take_of_length_le (by omega)]

@[simp] theorem slice_zero (b : Bytes) (i : Nat) : b.slice i 0 = [] := by simp [slice]

@[simp] theorem slice_cons_zero (x : UInt8) (b : Bytes) (n : Nat) :
    Bytes.slice (x :: b) 0 (n + 1) = x :: b.slice 0 n := by
  simp [slice]

theorem byteAt_append_right {a b : Bytes} {i : Nat} (h : a.length ≤ i) :
    (a ++ b).byteAt i = b.byteAt (i - a.length) := by
  simp [byteAt, List.getElem?_append_right h]

@[simp] theorem byteAt_cons_zero (x : UInt8) (b : Bytes) : Bytes.byteAt (x :: b) 0 = x := rfl

@[simp] theorem byteAt_cons_succ (x : UInt8) (b : Bytes) (i : Nat) :
    Bytes.byteAt (x :: b) (i + 1) = b.byteAt i := by
  simp [byteAt]

@[simp] theorem slice_cons_succ (x : UInt8) (b : Bytes) (i n : Nat) :
    Bytes.slice (x :: b) (i + 1) n = b.slice i n := rfl

theorem slice_take {buf : Bytes} {k i n : Nat} (h : i + n ≤ k) :
    Bytes.slice (buf.take k) i n = buf.slice i n := by
  apply List.ext_getElem?
  intro j
  rw [getElem?_slice, getElem?_slice]
  split
  · rw [List.getElem?_take_of_lt (by omega)]
  · rfl

theorem slice_slice {buf : Bytes} {off len i n : Nat} (h : i + n ≤ len) :
    (buf.slice off len).slice i n = buf.slice (off + i) n := by
  apply List.ext_getElem?
  intro j
  rw [getElem?_slice, getElem?_slice, getElem?_slice]
  split
  · rw [if_pos (by omega), Nat.add_assoc]
  · rfl

theorem copyAt_append_left {a b : Bytes} {off : Nat} {data : Bytes} (h : off + data.length ≤ a.length) :
    (a ++ b).copyAt off data = a.copyAt off data ++ b := by
  simp only [copyAt, List.append_assoc]
  rw [List.take_append_of_le_length (by omega), List.drop_append_of_le_length (by omega)]

theorem copyAt_append_right {a b : Bytes} {off : Nat} {data : Bytes} :
    (a ++ b).copyAt (a.length + off) data = a ++ b.copyAt off data := by
  simp [copyAt, List.take_append, List.drop_append, List.take_of_length_le, List.drop_of_length_le,
    Nat.add_assoc]

/-- A write that starts where `a` ends. -/
theorem copyAt_append_at {a b : Bytes} {off : Nat} (data : Bytes) (h : a.length = off) :
    (a ++ b).copyAt off data = (a ++ data) ++ b.drop data.length := by
  subst off
  rw [copyAt, List.take_left, List.drop_append, List.append_assoc,
    List.drop_of_length_le (by omega), List.nil_append]
  congr 3
  omega

/-- A write right behind a write is one write. -/
theorem copyAt_behind {buf : Bytes} {off : Nat} (a b : Bytes) (h : off ≤ buf.length) :
    (buf.copyAt off a).copyAt (off + a.length) b = buf.copyAt off (a ++ b) := by
  have hfirst : (buf.take off ++ a).length = off + a.length := by
    rw [List.length_append, List.length_take, Nat.min_eq_left h]
  have hwrite : buf.copyAt off a = (buf.take off ++ a) ++ buf.drop (off + a.length) := by
    rw [copyAt, List.append_assoc]
  rw [hwrite, copyAt_append_at b hfirst, List.drop_drop, copyAt, List.length_append]
  simp only [List.append_assoc, Nat.add_assoc]

/-- Writing back what a range already holds changes nothing. -/
theorem copyAt_slice_self {buf : Bytes} {off : Nat} {data : Bytes}
    (h : off + data.length ≤ buf.length) (hs : buf.slice off data.length = data) :
    buf.copyAt off data = buf := by
  apply List.ext_getElem?
  intro i
  rw [getElem?_copyAt h]
  split
  · rfl
  · split
    · have hi := getElem?_slice buf off data.length (i - off)
      rw [hs, if_pos (by omega)] at hi
      rw [hi]
      congr 1
      omega
    · rfl

theorem slice_add (buf : Bytes) (off m n : Nat) :
    buf.slice off m ++ buf.slice (off + m) n = buf.slice off (m + n) := by
  simp only [slice]
  rw [List.take_add, List.drop_drop]

theorem copyAt_zero_of_length {buf data : Bytes} (h : data.length = buf.length) :
    buf.copyAt 0 data = data := by
  simp [copyAt, h]

theorem slice_one {buf : Bytes} {i : Nat} (h : i < buf.length) : buf.slice i 1 = [buf.byteAt i] := by
  apply List.ext_getElem?
  intro j
  rw [getElem?_slice]
  cases j with
  | zero => simpa using getElem?_eq_byteAt h
  | succ j => simp

theorem copyAt_byteAt_self {buf : Bytes} {i : Nat} (h : i < buf.length) :
    buf.copyAt i [buf.byteAt i] = buf :=
  copyAt_slice_self h (slice_one h)

theorem byteAt_copyAt_self {buf : Bytes} {i : Nat} {v : UInt8} (h : i < buf.length) :
    (buf.copyAt i [v]).byteAt i = v := by
  simp [byteAt, List.getD_eq_getElem?_getD, getElem?_copyAt (show i + [v].length ≤ _ from h)]

/-- The later of two writes to one range wins. -/
theorem copyAt_copyAt {buf : Bytes} {off : Nat} {a b : Bytes} (h : off + a.length ≤ buf.length)
    (hab : a.length = b.length) : (buf.copyAt off a).copyAt off b = buf.copyAt off b := by
  have hb : off + b.length ≤ (buf.copyAt off a).length := by rw [length_copyAt _ _ _ h]; omega
  apply List.ext_getElem?
  intro i
  rw [getElem?_copyAt hb, getElem?_copyAt h, getElem?_copyAt (by omega)]
  split
  · rfl
  · split
    · rfl
    · rw [if_neg (by omega)]

/-- Writes to disjoint ranges commute. -/
theorem copyAt_comm {buf : Bytes} {i j : Nat} {a b : Bytes} (ha : i + a.length ≤ buf.length)
    (hb : j + b.length ≤ buf.length) (hd : i + a.length ≤ j ∨ j + b.length ≤ i) :
    (buf.copyAt i a).copyAt j b = (buf.copyAt j b).copyAt i a := by
  have hla := length_copyAt buf i a ha
  have hlb := length_copyAt buf j b hb
  apply List.ext_getElem?
  intro k
  rw [getElem?_copyAt (by omega), getElem?_copyAt ha, getElem?_copyAt (by omega), getElem?_copyAt hb]
  split <;> split <;> (try split) <;> (try split) <;> first | rfl | omega

/-- Moving the blocks after the one at `idx` down by one, in an array of `n` blocks: a piece of a block
below `idx` stays, one at or above it is the next block's. -/
theorem slice_shift {buf : Bytes} {base size n idx c w j : Nat} (hfit : base + n * size ≤ buf.length)
    (hidx : idx < n) (hj : j + 1 < n) (hc : c + w ≤ size) :
    (buf.copyAt (base + idx * size)
        (buf.slice (base + (idx + 1) * size) ((n - 1 - idx) * size))).slice (base + j * size + c) w
      = buf.slice (base + (if j < idx then j else j + 1) * size + c) w := by
  obtain ⟨m, rfl⟩ : ∃ m, n = idx + 1 + m := ⟨n - (idx + 1), by omega⟩
  rw [show idx + 1 + m - 1 - idx = m by omega]
  have hn : (idx + 1 + m) * size = idx * size + size + m * size := by ring
  have hsucc : (idx + 1) * size = idx * size + size := by ring
  have hlen : (buf.slice (base + (idx + 1) * size) (m * size)).length = m * size :=
    length_slice (by omega)
  split_ifs with hlt
  · have hbelow : (j + 1) * size ≤ idx * size := Nat.mul_le_mul_right _ hlt
    rw [Nat.add_mul, Nat.one_mul] at hbelow
    exact slice_copyAt_of_disjoint (by omega) (by omega)
  · obtain ⟨d, rfl⟩ : ∃ d, j = idx + d := ⟨j - idx, by omega⟩
    have hd : (d + 1) * size ≤ m * size := Nat.mul_le_mul_right _ (by omega)
    rw [Nat.add_mul, Nat.one_mul] at hd
    have hjd : (idx + d) * size = idx * size + d * size := by ring
    have hjs : (idx + d + 1) * size = idx * size + size + d * size := by ring
    rw [slice_copyAt_inside (by omega) (by omega) (by omega),
      show base + (idx + d) * size + c - (base + idx * size) = d * size + c by omega,
      slice_slice (by omega)]
    congr 1
    omega

/-- Two buffers of one length that agree except perhaps at the given offsets. -/
structure AgreesOff (offsets : List Nat) (a b : Bytes) : Prop where
  length : a.length = b.length
  same : ∀ i, i ∉ offsets → a[i]? = b[i]?

namespace AgreesOff

variable {offsets : List Nat} {a b data : Bytes} {off : Nat}

theorem refl (offsets : List Nat) (a : Bytes) : AgreesOff offsets a a := ⟨rfl, fun _ _ => rfl⟩

theorem eq (h : AgreesOff [] a b) : a = b := List.ext_getElem? fun i => h.same i List.not_mem_nil

theorem write (h : AgreesOff offsets a b) (hfit : off + data.length ≤ a.length)
    (hin : ∀ i, off ≤ i → i < off + data.length → i ∈ offsets) :
    AgreesOff offsets (a.copyAt off data) b := by
  refine ⟨(length_copyAt _ _ _ hfit).trans h.length, ?_⟩
  intro i hi
  rw [getElem?_copyAt hfit]
  split
  · exact h.same i hi
  · rename_i hlow
    rw [if_neg fun hhigh => hi (hin i (by omega) hhigh)]
    exact h.same i hi

/-- Writing one byte back. -/
theorem repair (h : AgreesOff (off :: offsets) a b) (hoff : off < b.length) :
    AgreesOff offsets (a.copyAt off [b.byteAt off]) b := by
  have hfit : off + [b.byteAt off].length ≤ a.length := by
    rw [h.length]
    exact hoff
  refine ⟨(length_copyAt _ _ _ hfit).trans h.length, ?_⟩
  intro i hi
  rw [getElem?_copyAt hfit]
  by_cases heq : i = off
  · subst heq
    rw [if_neg (by omega), if_pos (by simp), Nat.sub_self, getElem?_eq_byteAt hoff]
    rfl
  · have hout : a[i]? = b[i]? := h.same i (by simp [heq, hi])
    split
    · exact hout
    · rw [if_neg (by simp; omega)]
      exact hout

end AgreesOff

/-! ### Fixed-width integers -/

/-- The low `n` bytes of `x`, least significant first. -/
def leBytes : Nat → Nat → Bytes
  | 0, _ => []
  | n + 1, x => UInt8.ofNat x :: leBytes n (x / 256)

/-- The integer whose little-endian bytes are given. -/
def leNat : Bytes → Nat
  | [] => 0
  | b :: bs => b.toNat + 256 * leNat bs

def beBytes (n x : Nat) : Bytes := (leBytes n x).reverse

def beNat (bs : Bytes) : Nat := leNat bs.reverse

@[simp] theorem length_leBytes (n x : Nat) : (leBytes n x).length = n := by
  induction n generalizing x with
  | zero => rfl
  | succ n ih => simp [leBytes, ih]

@[simp] theorem length_beBytes (n x : Nat) : (beBytes n x).length = n := by simp [beBytes]

theorem leNat_leBytes (n x : Nat) : leNat (leBytes n x) = x % 256 ^ n := by
  induction n generalizing x with
  | zero => simp [leBytes, leNat, Nat.mod_one]
  | succ n ih =>
    have hb : (UInt8.ofNat x).toNat = x % 256 := by simp
    rw [leBytes, leNat, ih, hb, Nat.pow_succ', Nat.mod_mul]

theorem beNat_beBytes (n x : Nat) : beNat (beBytes n x) = x % 256 ^ n := by
  simp [beNat, beBytes, leNat_leBytes]

theorem leNat_lt (bs : Bytes) : leNat bs < 256 ^ bs.length := by
  induction bs with
  | nil => simp [leNat]
  | cons b bs ih =>
    have hb := b.toNat_lt
    rw [leNat, List.length_cons, Nat.pow_succ']
    omega

theorem beNat_lt (bs : Bytes) : beNat bs < 256 ^ bs.length := by
  simpa [beNat] using leNat_lt bs.reverse

/-- A byte string is recovered from its value and its length. -/
theorem leBytes_leNat (bs : Bytes) : leBytes bs.length (leNat bs) = bs := by
  induction bs with
  | nil => rfl
  | cons b bs ih =>
    have hb := b.toNat_lt
    have hlow : UInt8.ofNat (b.toNat + 256 * leNat bs) = b := by
      apply UInt8.toNat.inj
      simp only [UInt8.toNat_ofNat']
      omega
    have hhigh : (b.toNat + 256 * leNat bs) / 256 = leNat bs := by omega
    rw [leNat, List.length_cons, leBytes, hlow, hhigh, ih]

theorem beBytes_beNat (bs : Bytes) : beBytes bs.length (beNat bs) = bs := by
  have h := leBytes_leNat bs.reverse
  rw [List.length_reverse] at h
  simp [beBytes, beNat, h]

end Bytes
