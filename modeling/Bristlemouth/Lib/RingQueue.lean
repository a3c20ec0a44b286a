import Mathlib.Data.List.Basic
import Mathlib.Data.Nat.ModEq
import Mathlib.Logic.Function.Iterate

/-!
# Bounded queues in a circular array

A ring of fixed capacity refines a first-in first-out list of at most that
length. The bounds on the head and the count travel with the ring, so no
operation can index outside its storage.
-/

set_option autoImplicit false

structure RingQueue (α : Type) (cap : Nat) where
  slots : Vector α cap
  head : Nat
  len : Nat
  head_lt : head < cap
  len_le : len ≤ cap

namespace RingQueue

variable {α : Type} {cap : Nat}

def new (fill : α) (h : 0 < cap) : RingQueue α cap := ⟨Vector.replicate cap fill, 0, 0, h, Nat.zero_le _⟩

theorem cap_pos (r : RingQueue α cap) : 0 < cap := Nat.lt_of_le_of_lt (Nat.zero_le _) r.head_lt

/-- The storage index `i` places after the head. -/
def index (r : RingQueue α cap) (i : Nat) : Fin cap := ⟨(r.head + i) % cap, Nat.mod_lt _ r.cap_pos⟩

def nth (r : RingQueue α cap) (i : Nat) : α := r.slots[r.index i]

/-- Oldest first. -/
def toList (r : RingQueue α cap) : List α := (List.range r.len).map r.nth

/-- Overwrite the slot `i` places after the head. -/
def setNth (r : RingQueue α cap) (i : Nat) (x : α) : RingQueue α cap :=
  { r with slots := r.slots.set (r.index i) x (r.index i).isLt }

/-- Append, or refuse a full ring. -/
def push (r : RingQueue α cap) (x : α) : RingQueue α cap × Bool :=
  if h : r.len = cap then (r, false)
  else ({ r.setNth r.len x with len := r.len + 1, len_le := by have := r.len_le; omega }, true)

/-- Drop the oldest element. -/
def advance (r : RingQueue α cap) : RingQueue α cap :=
  { r with
    head := (r.head + 1) % cap
    len := r.len - 1
    head_lt := Nat.mod_lt _ r.cap_pos
    len_le := by have := r.len_le; omega }

@[simp] theorem toList_new (fill : α) (h : 0 < cap) : (new fill h).toList = [] := rfl

@[simp] theorem length_toList (r : RingQueue α cap) : r.toList.length = r.len := by simp [toList]

theorem index_inj (r : RingQueue α cap) {i j : Nat} (hi : i < cap) (hj : j < cap)
    (h : r.index i = r.index j) : i = j := by
  have hm : (r.head + i) % cap = (r.head + j) % cap := congrArg Fin.val h
  have hmod : i ≡ j [MOD cap] := Nat.ModEq.add_left_cancel' r.head hm
  rwa [Nat.ModEq, Nat.mod_eq_of_lt hi, Nat.mod_eq_of_lt hj] at hmod

theorem nth_setNth_self (r : RingQueue α cap) (i : Nat) (x : α) : (r.setNth i x).nth i = x := by
  simp [nth, setNth, index]

theorem nth_setNth_ne (r : RingQueue α cap) {i j : Nat} (x : α) (hi : i < cap) (hj : j < cap)
    (h : i ≠ j) : (r.setNth i x).nth j = r.nth j := by
  have hne : (r.head + i) % cap ≠ (r.head + j) % cap := by
    intro he
    exact h (r.index_inj hi hj (Fin.ext he))
  simp [nth, setNth, index, hne]

theorem nth_advance (r : RingQueue α cap) (i : Nat) : r.advance.nth i = r.nth (i + 1) := by
  have h : ((r.head + 1) % cap + i) % cap = (r.head + (i + 1)) % cap := by
    rw [Nat.mod_add_mod]
    congr 1
    omega
  simp [nth, advance, index, h]

theorem toList_push (r : RingQueue α cap) (x : α) (h : r.len < cap) :
    (r.push x).1.toList = r.toList ++ [x] ∧ (r.push x).2 = true := by
  have hne : r.len ≠ cap := by omega
  refine ⟨?_, by simp [push, hne]⟩
  have hnth (i : Nat) (hi : i ≤ r.len) :
      (r.push x).1.nth i = if i = r.len then x else r.nth i := by
    simp only [push, hne, dif_neg, not_false_eq_true]
    split
    · subst i
      exact r.nth_setNth_self r.len x
    · exact r.nth_setNth_ne x h (by omega) (by omega)
  have hlen : (r.push x).1.len = r.len + 1 := by simp [push, hne]
  rw [toList, hlen, List.range_succ, List.map_append, toList]
  congr 1
  · apply List.map_congr_left
    intro i hi
    have hi' := List.mem_range.mp hi
    rw [hnth i (by omega), if_neg (by omega)]
  · simp [hnth]

/-- A push that does not fit changes nothing. -/
theorem push_full (r : RingQueue α cap) (x : α) (h : r.len = cap) : r.push x = (r, false) := dif_pos h

theorem toList_advance (r : RingQueue α cap) : r.advance.toList = r.toList.tail := by
  have hlen : r.advance.len = r.len - 1 := rfl
  rw [toList, hlen, toList, ← List.map_tail]
  cases hl : r.len with
  | zero => simp
  | succ n =>
    rw [List.range_succ_eq_map, List.tail_cons, List.map_map]
    apply List.map_congr_left
    intro i _
    exact r.nth_advance i

theorem toList_advance_iterate (r : RingQueue α cap) (n : Nat) :
    (advance^[n] r).toList = r.toList.drop n := by
  induction n generalizing r with
  | zero => rfl
  | succ n ih => rw [Function.iterate_succ_apply, ih, toList_advance, List.drop_tail]

/-- The head and the count after `n` elements were dropped; the slots are as they were. -/
theorem advance_iterate (r : RingQueue α cap) (n : Nat) :
    (advance^[n] r).head = (r.head + n) % cap ∧ (advance^[n] r).len = r.len - n ∧
      (advance^[n] r).slots = r.slots := by
  induction n generalizing r with
  | zero => exact ⟨(Nat.mod_eq_of_lt r.head_lt).symm, rfl, rfl⟩
  | succ n ih =>
    obtain ⟨hhead, hlen, hslots⟩ := ih r.advance
    rw [Function.iterate_succ_apply]
    refine ⟨?_, ?_, hslots⟩
    · rw [hhead, advance, Nat.mod_add_mod, Nat.add_assoc, Nat.add_comm 1 n]
    · rw [hlen, advance, Nat.sub_sub, Nat.add_comm 1 n]

theorem toList_foldl_push (r : RingQueue α cap) (xs : List α) (h : r.len + xs.length ≤ cap) :
    (xs.foldl (fun q x => (q.push x).1) r).toList = r.toList ++ xs := by
  induction xs generalizing r with
  | nil => simp
  | cons x xs ih =>
    rw [List.length_cons] at h
    have hpush := (r.toList_push x (by omega)).1
    have hlen : (r.push x).1.len = r.len + 1 := by
      rw [← length_toList, hpush, List.length_append, length_toList, List.length_singleton]
    rw [List.foldl_cons, ih _ (by omega), hpush, List.append_assoc, List.singleton_append]

/-- A push onto any ring: what does not fit is left out. -/
theorem toList_push_take (r : RingQueue α cap) (x : α) : (r.push x).1.toList = (r.toList ++ [x]).take cap := by
  have hlen := r.length_toList
  by_cases hfull : r.len = cap
  · rw [r.push_full x hfull, List.take_append_of_le_length (by omega), List.take_of_length_le (by omega)]
  · have hle := r.len_le
    rw [(r.toList_push x (by omega)).1, List.take_of_length_le]
    rw [List.length_append, List.length_singleton]
    omega

theorem toList_pushes_take (xs : List α) : ∀ r : RingQueue α cap,
    (xs.foldl (fun r x => (r.push x).1) r).toList = (r.toList ++ xs).take cap := by
  induction xs with
  | nil =>
    intro r
    have hle := r.len_le
    rw [List.append_nil, List.take_of_length_le (by rw [length_toList]; exact hle)]
    rfl
  | cons x xs ih =>
    intro r
    have htake : ∀ l : List α, (l.take cap ++ xs).take cap = (l ++ xs).take cap := by
      intro l
      by_cases hshort : l.length ≤ cap
      · rw [List.take_of_length_le hshort]
      · have hfull : (l.take cap).length = cap := List.length_take_of_le (by omega)
        rw [List.take_append_of_le_length hfull.ge, List.take_append_of_le_length (by omega), List.take_take,
          Nat.min_self]
    rw [List.foldl_cons, ih, toList_push_take, htake, List.append_assoc]
    rfl

/-- Clearing the oldest slot before dropping it leaves the same queue. -/
theorem toList_setNth_advance (r : RingQueue α cap) (x : α) (h : 0 < r.len) :
    (r.setNth 0 x).advance.toList = r.toList.tail := by
  have hcap := r.len_le
  have hlen : (r.setNth 0 x).len = r.len := rfl
  rw [toList_advance, toList, hlen, toList, ← List.map_tail, ← List.map_tail]
  apply List.map_congr_left
  intro i hi
  rw [List.range_eq_range', List.tail_range'] at hi
  have hi' := List.mem_range'_1.mp hi
  exact r.nth_setNth_ne x (by omega) (by omega) (by omega)

theorem head?_toList (r : RingQueue α cap) (h : 0 < r.len) : r.toList.head? = some (r.nth 0) := by
  obtain ⟨n, hn⟩ := Nat.exists_eq_succ_of_ne_zero (Nat.ne_of_gt h)
  simp [toList, hn, List.range_succ_eq_map]

theorem toList_eq_cons (r : RingQueue α cap) (h : 0 < r.len) :
    r.toList = r.nth 0 :: r.toList.tail := by
  have hh := r.head?_toList h
  cases hl : r.toList with
  | nil => simp [hl] at hh
  | cons a as =>
    rw [hl, List.head?_cons] at hh
    rw [Option.some.inj hh, List.tail_cons]

end RingQueue
