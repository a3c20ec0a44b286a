import Mathlib.Data.List.Rotate

/-!
# Arrays that are filled from the front

An array of fixed length of which the first `n` elements are in use: adding one writes it behind them,
and taking one out of the middle turns those behind it one place to the left.
-/

set_option autoImplicit false

namespace FixedArray

universe u

variable {α : Type u} {l : List α} {i n : Nat} {a : α}

/-- `l[i..n].rotate_left(1)` -/
def rotateLeft (l : List α) (i n : Nat) : List α :=
  l.take i ++ (((l.drop i).take (n - i)).rotate 1 ++ l.drop n)

theorem length_rotateLeft (hi : i ≤ n) (hn : n ≤ l.length) : (rotateLeft l i n).length = l.length := by
  simp only [rotateLeft, List.length_append, List.length_rotate, List.length_take, List.length_drop]
  omega

theorem mem_rotateLeft (h : a ∈ rotateLeft l i n) : a ∈ l := by
  rcases List.mem_append.mp h with h | h
  · exact List.mem_of_mem_take h
  · rcases List.mem_append.mp h with h | h
    · exact List.mem_of_mem_drop (List.mem_of_mem_take (List.mem_rotate.mp h))
    · exact List.mem_of_mem_drop h

/-- The element is out of use, and those behind it have moved up. -/
theorem take_rotateLeft (hi : i < n) (hn : n ≤ l.length) :
    (rotateLeft l i n).take (n - 1) = (l.take n).eraseIdx i := by
  have hlen : ((l.drop i).take (n - i)).length = n - i := by
    rw [List.length_take, List.length_drop]
    omega
  have hlow : (l.take i).length = i := by
    rw [List.length_take]
    omega
  obtain ⟨a, mid, hmid⟩ := List.exists_cons_of_length_pos (hlen ▸ Nat.sub_pos_of_lt hi)
  have hrest : (l.take n).drop (i + 1) = mid := by
    rw [← List.drop_drop, List.drop_take, hmid]
    rfl
  have hshort : mid.length = n - 1 - i := by
    rw [hmid, List.length_cons] at hlen
    omega
  rw [rotateLeft, hmid, List.rotate_cons_succ, List.rotate_zero, List.append_assoc, List.take_append,
    hlow, ← hshort, List.take_left, List.take_of_length_le (by omega), List.eraseIdx_eq_take_drop_succ,
    hrest, List.take_take, Nat.min_eq_left (Nat.le_of_lt hi)]

theorem take_set_end (h : n < l.length) (a : α) : (l.set n a).take (n + 1) = l.take n ++ [a] := by
  rw [List.take_set, List.take_succ_eq_append_getElem h,
    List.set_append_right _ _ (by rw [List.length_take]; omega), List.length_take,
    Nat.min_eq_left (Nat.le_of_lt h), Nat.sub_self, List.set_cons_zero]

end FixedArray
