import Bristlemouth.Lib.Bytes

/-!
# Records of adjacent fields

A record is written field by field, each at an offset of its own. Where every field starts at the end
of the one before it, what is written is the fields one after the other.
-/

set_option autoImplicit false

namespace Bytes

/-- The whole chunks of `n` bytes that the buffer has. -/
def chunks (n : Nat) (buf : Bytes) : List Bytes :=
  (List.range (buf.length / n)).map fun i => buf.slice (n * i) n

variable {n : Nat}

theorem chunks_append (hn : 0 < n) {a : Bytes} (ha : a.length = n) (rest : Bytes) :
    chunks n (a ++ rest) = a :: chunks n rest := by
  have hcount : (a ++ rest).length / n = rest.length / n + 1 := by
    rw [List.length_append, ha, Nat.add_div_left _ hn]
  rw [chunks, hcount, List.range_succ_eq_map, List.map_cons, List.map_map, Nat.mul_zero,
    slice_append_self ha]
  congr 1
  apply List.map_congr_left
  intro i _
  have hoff : n * (i + 1) - n = n * i := by
    rw [Nat.mul_succ, Nat.add_sub_cancel]
  rw [Function.comp_apply, Nat.succ_eq_add_one, slice_append_right (by rw [ha]; exact Nat.le_mul_of_pos_right n i.succ_pos),
    ha, hoff]

theorem chunks_flatMap {α : Type} (hn : 0 < n) {f : α → Bytes} (hf : ∀ a, (f a).length = n) (l : List α) :
    chunks n (l.flatMap f) = l.map f := by
  induction l with
  | nil => simp [chunks]
  | cons a rest ih => rw [List.flatMap_cons, chunks_append hn (hf a), ih, List.map_cons]

theorem flatten_chunks (hn : 0 < n) {k : Nat} {buf : Bytes} (h : buf.length = n * k) :
    (chunks n buf).flatten = buf := by
  induction k generalizing buf with
  | zero =>
    rw [Nat.mul_zero, List.length_eq_zero_iff] at h
    simp [h, chunks]
  | succ k ih =>
    rw [Nat.mul_succ] at h
    have hhead : (buf.take n).length = n := by
      rw [List.length_take]
      omega
    have htail : (buf.drop n).length = n * k := by
      rw [List.length_drop]
      omega
    conv_lhs => rw [← List.take_append_drop n buf]
    rw [chunks_append hn hhead, List.flatten_cons, ih htail, List.take_append_drop]

theorem length_of_mem_chunks {buf chunk : Bytes} (h : chunk ∈ chunks n buf) : chunk.length = n := by
  obtain ⟨i, hi, rfl⟩ := List.mem_map.mp h
  rw [List.mem_range] at hi
  apply length_slice
  have hle : n * (i + 1) ≤ n * (buf.length / n) := Nat.mul_le_mul_left n hi
  have hdiv := Nat.mul_div_le buf.length n
  rw [Nat.mul_succ] at hle
  omega

end Bytes

/-- The fields of a record and where each goes, in the order they are written. -/
abbrev Fields := List (Nat × Bytes)

namespace Fields

/-- Each field copied to its place, which has to lie inside the buffer. -/
def place : Fields → Bytes → Option Bytes
  | [], buf => some buf
  | (off, data) :: rest, buf =>
    if off + data.length ≤ buf.length then place rest (buf.copyAt off data) else none

/-- The fields of a record that starts at `base`. -/
def shift (base : Nat) (fields : Fields) : Fields := fields.map fun field => (base + field.1, field.2)

def bytes : Fields → Bytes
  | [] => []
  | field :: rest => field.2 ++ bytes rest

/-- Every field starts where the one before it ends, and the first at `off`. -/
def Adjacent : Nat → Fields → Prop
  | _, [] => True
  | off, field :: rest => field.1 = off ∧ Adjacent (off + field.2.length) rest

variable {fields more : Fields} {off base : Nat}

@[simp] theorem bytes_nil : bytes [] = [] := rfl

@[simp] theorem bytes_cons (field : Nat × Bytes) (rest : Fields) :
    bytes (field :: rest) = field.2 ++ bytes rest := rfl

@[simp] theorem adjacent_nil (off : Nat) : Adjacent off [] := trivial

@[simp] theorem adjacent_cons (off : Nat) (field : Nat × Bytes) (rest : Fields) :
    Adjacent off (field :: rest) ↔ field.1 = off ∧ Adjacent (off + field.2.length) rest := Iff.rfl

@[simp] theorem shift_nil (base : Nat) : shift base [] = [] := rfl

@[simp] theorem shift_cons (base : Nat) (field : Nat × Bytes) (rest : Fields) :
    shift base (field :: rest) = (base + field.1, field.2) :: shift base rest := rfl

theorem bytes_append (fields more : Fields) : bytes (fields ++ more) = bytes fields ++ bytes more := by
  induction fields with
  | nil => rfl
  | cons field rest ih => rw [List.cons_append, bytes_cons, bytes_cons, ih, List.append_assoc]

theorem bytes_shift (base : Nat) (fields : Fields) : bytes (shift base fields) = bytes fields := by
  induction fields with
  | nil => rfl
  | cons field rest ih => rw [shift_cons, bytes_cons, bytes_cons, ih]

theorem Adjacent.append (h : Adjacent off fields) (hmore : Adjacent (off + fields.bytes.length) more) :
    Adjacent off (fields ++ more) := by
  induction fields generalizing off with
  | nil => exact hmore
  | cons field rest ih =>
    obtain ⟨hoff, hrest⟩ := h
    refine ⟨hoff, ih hrest ?_⟩
    rw [bytes_cons, List.length_append, ← Nat.add_assoc] at hmore
    exact hmore

theorem Adjacent.shift (h : Adjacent off fields) (base : Nat) : Adjacent (base + off) (shift base fields) := by
  induction fields generalizing off with
  | nil => trivial
  | cons field rest ih =>
    obtain ⟨hoff, hrest⟩ := h
    rw [shift_cons, adjacent_cons, hoff, Nat.add_assoc]
    exact ⟨rfl, ih hrest⟩

/-- Adjacent fields are written without a gap, and nothing else is. -/
theorem place_adjacent (h : Adjacent off fields) {done buf : Bytes} (hdone : done.length = off)
    (hroom : fields.bytes.length ≤ buf.length) :
    fields.place (done ++ buf) = some (done ++ (fields.bytes ++ buf.drop fields.bytes.length)) := by
  induction fields generalizing off done buf with
  | nil => rfl
  | cons field rest ih =>
    obtain ⟨start, data⟩ := field
    obtain ⟨hoff, hrest⟩ := h
    dsimp only at hoff hrest
    rw [bytes_cons, List.length_append] at hroom
    dsimp only at hroom
    have hfit : start + data.length ≤ (done ++ buf).length := by
      rw [List.length_append]
      omega
    rw [place, if_pos hfit, Bytes.copyAt_append_at data (hdone.trans hoff.symm),
      ih hrest (by rw [List.length_append, hdone]) (by rw [List.length_drop]; omega), bytes_cons,
      List.drop_drop, List.length_append, List.append_assoc, List.append_assoc]

/-- Two fields with no byte in common. -/
def Apart (a b : Nat × Bytes) : Prop := a.1 + a.2.length ≤ b.1 ∨ b.1 + b.2.length ≤ a.1

/-- The field has a byte at `k`. -/
def Covers (field : Nat × Bytes) (k : Nat) : Prop := field.1 ≤ k ∧ k < field.1 + field.2.length

/-- Every field is in the buffer and every byte outside them is the one of `before`. -/
structure Painted (fields : Fields) (before buf : Bytes) : Prop where
  length : buf.length = before.length
  inside : ∀ field ∈ fields, ∀ i < field.2.length, buf[field.1 + i]? = field.2[i]?
  outside : ∀ k, (∀ field ∈ fields, ¬ Covers field k) → buf[k]? = before[k]?

/-- Fields that do not overlap are all there once they are placed, in whatever order. -/
theorem place_painted (hapart : fields.Pairwise Apart) {before buf : Bytes}
    (h : fields.place before = some buf) : Painted fields before buf := by
  induction fields generalizing before with
  | nil =>
    cases h
    exact ⟨rfl, fun field hmem => absurd hmem List.not_mem_nil, fun _ _ => rfl⟩
  | cons field rest ih =>
    obtain ⟨off, data⟩ := field
    rw [List.pairwise_cons] at hapart
    rw [place] at h
    split_ifs at h with hfit
    have hrest := ih hapart.2 h
    have hcopy := @Bytes.getElem?_copyAt before off data hfit
    refine ⟨hrest.length.trans (Bytes.length_copyAt _ _ _ hfit), ?_, ?_⟩
    · intro field hmem i hi
      rcases List.mem_cons.mp hmem with rfl | hmem
      · -- the fields placed later leave it alone
        rw [hrest.outside (off + i) ?_, hcopy, if_neg (by omega), if_pos (by dsimp only at hi; omega),
          Nat.add_sub_cancel_left]
        intro other hother hcovers
        have hsplit := hapart.1 other hother
        unfold Apart at hsplit
        unfold Covers at hcovers
        dsimp only at hsplit hi
        omega
      · exact hrest.inside field hmem i hi
    · intro k hk
      have hself := hk (off, data) List.mem_cons_self
      unfold Covers at hself
      dsimp only at hself
      rw [hrest.outside k (fun other hother => hk other (List.mem_cons_of_mem _ hother)), hcopy]
      split
      · rfl
      · rw [if_neg (by omega)]

/-- The record as the first `n` bytes of the buffer. -/
def write (fields : Fields) (n : Nat) (buf : Bytes) : Option Bytes :=
  (fields.place (buf.take n)).map fun record => record ++ buf.drop n

theorem write_adjacent (h : Adjacent 0 fields) {n : Nat} (hlen : fields.bytes.length = n) {buf : Bytes}
    (hroom : n ≤ buf.length) : fields.write n buf = some (fields.bytes ++ buf.drop n) := by
  have htake : (buf.take n).length = n := by
    rw [List.length_take, Nat.min_eq_left hroom]
  have hplace := @place_adjacent fields 0 h [] (buf.take n) rfl (by omega)
  rw [List.nil_append, List.nil_append, List.drop_of_length_le (by omega), List.append_nil] at hplace
  rw [write, hplace, Option.map_some]

/-! ### Reading -/

/-- Every field is what the buffer holds in its place. -/
def In (fields : Fields) (buf : Bytes) : Prop :=
  ∀ field ∈ fields, buf.slice field.1 field.2.length = field.2

@[simp] theorem in_nil (buf : Bytes) : In [] buf := List.forall_mem_nil _

@[simp] theorem in_cons (field : Nat × Bytes) (rest : Fields) (buf : Bytes) :
    In (field :: rest) buf ↔ buf.slice field.1 field.2.length = field.2 ∧ In rest buf :=
  List.forall_mem_cons

theorem in_append {buf : Bytes} : In (fields ++ more) buf ↔ In fields buf ∧ In more buf :=
  List.forall_mem_append

theorem in_shift {buf : Bytes} : In (shift base fields) buf ↔ In fields (buf.drop base) := by
  induction fields with
  | nil => exact iff_of_true (in_nil buf) (in_nil _)
  | cons field rest ih =>
    rw [shift_cons, in_cons, in_cons, ih, Bytes.slice, Bytes.slice, List.drop_drop]

theorem in_of_bytes (h : Adjacent off fields) {done : Bytes} (hdone : done.length = off)
    (rest : Bytes) : In fields (done ++ (fields.bytes ++ rest)) := by
  induction fields generalizing off done with
  | nil => exact in_nil _
  | cons field fields ih =>
    obtain ⟨start, data⟩ := field
    obtain ⟨hoff, hrest⟩ := h
    dsimp only at hoff hrest
    rw [bytes_cons, List.append_assoc]
    refine (in_cons _ _ _).mpr ⟨?_, ?_⟩
    · dsimp only
      rw [Bytes.slice_append_right (by omega), hoff, hdone, Nat.sub_self, Bytes.slice_append_self rfl]
    · rw [← List.append_assoc]
      exact ih hrest (by rw [List.length_append, hdone])

/-- Adjacent fields that are all there are there one after the other. -/
theorem bytes_of_in (h : Adjacent off fields) {buf : Bytes} (hin : In fields buf) :
    fields.bytes = buf.slice off fields.bytes.length := by
  induction fields generalizing off with
  | nil => simp
  | cons field fields ih =>
    obtain ⟨start, data⟩ := field
    obtain ⟨hoff, hrest⟩ := h
    obtain ⟨hfield, hin⟩ := (in_cons _ _ _).mp hin
    dsimp only at hoff hrest hfield
    rw [bytes_cons, List.length_append, ← Bytes.slice_add, ← ih hrest hin, ← hoff, hfield]

end Fields

/-! ### Codecs -/

/-- How messages are written and read: `normal` is what re-encoding makes of bytes that were read. -/
structure Codec (M F E : Type) where
  Fits : M → Prop
  encodedLen : M → Nat
  encode : M → Bytes → Except F (Bytes × Nat)
  decode : Bytes → Except E M
  normal : Bytes → Bytes := id

namespace Codec

variable {M F E : Type}

/-- A message that fits is written into the front of every buffer that has room for it, and read back
from what was written with anything behind it. A message that was read is written as what it was read
from. -/
structure RoundTrips (c : Codec M F E) : Prop where
  written : ∀ m, c.Fits m → ∃ bytes, bytes.length = c.encodedLen m ∧
    (∀ buf, c.encodedLen m ≤ buf.length →
      c.encode m buf = .ok (bytes ++ buf.drop (c.encodedLen m), c.encodedLen m)) ∧
    ∀ trailing, c.decode (bytes ++ trailing) = .ok m
  read : ∀ buf m, c.decode buf = .ok m → c.encodedLen m ≤ buf.length ∧
    ∀ out, c.encodedLen m ≤ out.length →
      c.encode m out = .ok (c.normal (buf.take (c.encodedLen m)) ++ out.drop (c.encodedLen m),
        c.encodedLen m)

/-- It is enough to say what bytes a message is written as. -/
theorem roundTrips_of_bytes {c : Codec M F E} (toBytes : M → Bytes)
    (hlength : ∀ m, c.Fits m → (toBytes m).length = c.encodedLen m)
    (hencode : ∀ m, c.Fits m → ∀ buf, c.encodedLen m ≤ buf.length →
      c.encode m buf = .ok (toBytes m ++ buf.drop (c.encodedLen m), c.encodedLen m))
    (hdecode : ∀ m, c.Fits m → ∀ trailing, c.decode (toBytes m ++ trailing) = .ok m)
    (hread : ∀ buf m, c.decode buf = .ok m → c.Fits m ∧ c.encodedLen m ≤ buf.length ∧
      toBytes m = c.normal (buf.take (c.encodedLen m))) : c.RoundTrips where
  written m hm := ⟨toBytes m, hlength m hm, hencode m hm, hdecode m hm⟩
  read buf m h := by
    obtain ⟨hfits, hlen, hbytes⟩ := hread buf m h
    refine ⟨hlen, ?_⟩
    intro out hroom
    rw [hencode m hfits out hroom, hbytes]

/-- What re-encoding makes of a buffer it makes of every prefix alike, and leaves what was encoded. -/
structure Normal (c : Codec M F E) (fields : M → Fields) : Prop where
  take : ∀ n buf, (c.normal buf).take n = c.normal (buf.take n)
  fixed : ∀ m rest, c.normal ((fields m).bytes ++ rest) = (fields m).bytes ++ rest

/-- A codec is given by its fields: it writes each in its place, and reads a message from the buffers
that hold the message's fields. -/
theorem roundTrips_of_fields {c : Codec M F E} (fields : M → Fields) (hnormal : c.Normal fields)
    (hadjacent : ∀ m, c.Fits m → (fields m).Adjacent 0)
    (hlength : ∀ m, c.Fits m → (fields m).bytes.length = c.encodedLen m)
    (hencode : ∀ m, c.Fits m → ∀ buf written, (fields m).write (c.encodedLen m) buf = some written →
      c.encodedLen m ≤ buf.length → c.encode m buf = .ok (written, c.encodedLen m))
    (hdecode : ∀ buf m, c.decode buf = .ok m ↔
      c.Fits m ∧ c.encodedLen m ≤ buf.length ∧ (fields m).In (c.normal buf)) : c.RoundTrips := by
  apply roundTrips_of_bytes (fun m => (fields m).bytes) hlength
  · intro m hm buf hroom
    exact hencode m hm buf _ (Fields.write_adjacent (hadjacent m hm) (hlength m hm) hroom) hroom
  · intro m hm trailing
    refine (hdecode _ m).mpr ⟨hm, ?_, ?_⟩
    · rw [List.length_append, hlength m hm]
      exact Nat.le_add_right _ _
    · rw [hnormal.fixed]
      exact @Fields.in_of_bytes _ _ (hadjacent m hm) [] rfl trailing
  · intro buf m h
    obtain ⟨hfits, hlen, hin⟩ := (hdecode buf m).mp h
    refine ⟨hfits, hlen, ?_⟩
    rw [← hnormal.take, Fields.bytes_of_in (hadjacent m hfits) hin, hlength m hfits]
    rfl

theorem normal_id {c : Codec M F E} (h : c.normal = id) (fields : M → Fields) : c.Normal fields where
  take _ _ := by
    rw [h]
    rfl
  fixed _ _ := by
    rw [h]
    rfl

end Codec
