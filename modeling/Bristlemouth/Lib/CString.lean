import Bristlemouth.Lib.Bytes

/-!
# C strings

`strlen` and the equality test of `strncmp`, on memory read through a function. Over strings without
a NUL the test is equality of the bytes (`strncmpEq_take`).
-/

set_option autoImplicit false

namespace CString

/-- Whether `strncmp` over `n` bytes from `j` finds `a` and `b` equal. It stops at a NUL. -/
def strncmpEq (a b : Nat → UInt8) : Nat → Nat → Bool
  | _, 0 => true
  | j, n + 1 => if a j ≠ b j then false else if a j = 0 then true else strncmpEq a b (j + 1) n

def strlen (text : Bytes) : Nat := text.findIdx (· == 0)

theorem strlen_le (text : Bytes) : strlen text ≤ text.length := List.findIdx_le_length

/-- The two agree up to and including the first NUL of `a`. -/
theorem strncmpEq_iff (a b : Nat → UInt8) (j n : Nat) :
    strncmpEq a b j n = true ↔ ∀ i, i < n → (∀ k, k < i → a (j + k) ≠ 0) → a (j + i) = b (j + i) := by
  induction n generalizing j with
  | zero => simp [strncmpEq]
  | succ n ih =>
    rw [strncmpEq]
    constructor
    · intro h i hi hnul
      split_ifs at h with hne hzero
      · have hij : i = 0 := by
          by_contra hpos
          exact hnul 0 (by omega) hzero
        subst hij
        exact not_not.mp hne
      · rcases i with _ | i
        · exact not_not.mp hne
        · have hrest := (ih (j + 1)).mp h i (by omega) fun k hk => by
            have hnext := hnul (k + 1) (by omega)
            rwa [← Nat.add_assoc, Nat.add_right_comm] at hnext
          rwa [Nat.add_right_comm, Nat.add_assoc] at hrest
    · intro h
      have hfirst : a j = b j := h 0 (by omega) (by omega)
      rw [if_neg (not_not.mpr hfirst)]
      split_ifs with hzero
      · rfl
      · refine (ih (j + 1)).mpr fun i hi hnul => ?_
        have hnext := h (i + 1) (by omega) fun k hk => by
          rcases k with _ | k
          · exact hzero
          · have hk := hnul k (by omega)
            rwa [Nat.add_right_comm, Nat.add_assoc] at hk
        rwa [← Nat.add_assoc, Nat.add_right_comm] at hnext

theorem strncmpEq_self (a : Nat → UInt8) (j n : Nat) : strncmpEq a a j n = true :=
  (strncmpEq_iff a a j n).mpr fun _ _ _ => rfl

theorem strncmpEq_congr {a b b' : Nat → UInt8} {n : Nat} (h : ∀ i, i < n → b i = b' i) :
    strncmpEq a b 0 n = strncmpEq a b' 0 n := by
  have hiff : strncmpEq a b 0 n = true ↔ strncmpEq a b' 0 n = true := by
    simp only [strncmpEq_iff, Nat.zero_add]
    exact forall_congr' fun i => forall_congr' fun hi => by rw [h i hi]
  exact Bool.eq_iff_iff.mpr hiff

theorem strncmpEq_congr_left {a a' b : Nat → UInt8} {n : Nat} (h : ∀ i, i < n → a i = a' i) :
    strncmpEq a b 0 n = strncmpEq a' b 0 n := by
  have hiff : strncmpEq a b 0 n = true ↔ strncmpEq a' b 0 n = true := by
    simp only [strncmpEq_iff, Nat.zero_add]
    refine forall_congr' fun i => forall_congr' fun hi => ?_
    have hnul : (∀ k, k < i → a k ≠ 0) ↔ ∀ k, k < i → a' k ≠ 0 :=
      forall_congr' fun k => forall_congr' fun hk => by rw [h k (by omega)]
    rw [hnul, h i hi]
  exact Bool.eq_iff_iff.mpr hiff

/-- On a string without a NUL the test is equality of the bytes. -/
theorem strncmpEq_take {a b : Bytes} (hnul : 0 ∉ a) (hlen : a.length ≤ b.length) :
    strncmpEq a.byteAt b.byteAt 0 a.length = true ↔ b.take a.length = a := by
  rw [strncmpEq_iff]
  constructor
  · intro h
    apply List.ext_getElem?
    intro i
    rw [List.getElem?_take]
    split_ifs with hi
    · have hbyte := h i hi fun k hk => by
        rw [Nat.zero_add]
        intro hzero
        apply hnul
        rw [← hzero]
        exact List.mem_of_getElem? (Bytes.getElem?_eq_byteAt (by omega))
      rw [Nat.zero_add] at hbyte
      rw [Bytes.getElem?_eq_byteAt (by omega), Bytes.getElem?_eq_byteAt hi, hbyte]
    · exact (List.getElem?_eq_none (by omega)).symm
  · intro h i hi _
    have hat : (b.take a.length)[i]? = a[i]? := by rw [h]
    rw [List.getElem?_take, if_pos hi] at hat
    simp only [Nat.zero_add, Bytes.byteAt, List.getD_eq_getElem?_getD, hat]

theorem strlen_of_no_nul {text : Bytes} (h : 0 ∉ text) : strlen text = text.length := by
  apply List.findIdx_eq_length_of_false
  intro x hx
  simp only [beq_eq_false_iff_ne, ne_eq]
  intro hzero
  exact h (hzero ▸ hx)

/-- A text in front of a NUL ends there. -/
theorem strlen_append_nul {text : Bytes} (h : 0 ∉ text) (rest : Bytes) :
    strlen (text ++ 0 :: rest) = text.length := by
  have hnone : text.findIdx (· == 0) = text.length := strlen_of_no_nul h
  rw [strlen, List.findIdx_append, hnone, if_neg (Nat.lt_irrefl _), List.findIdx_cons]
  exact Nat.zero_add _

end CString
