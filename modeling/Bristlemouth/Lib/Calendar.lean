import Mathlib

/-!
# The Gregorian calendar

Years and months as stretches of days: which day begins them, and that every day lies in exactly one.
-/

set_option autoImplicit false

namespace Calendar

/-- Every fourth year but the centuries, of which every fourth. -/
def IsLeap (year : Nat) : Prop := year % 4 = 0 ∧ (year % 100 ≠ 0 ∨ year % 400 = 0)

instance (year : Nat) : Decidable (IsLeap year) := inferInstanceAs (Decidable (_ ∧ _))

def yearLength (year : Nat) : Nat := if IsLeap year then 366 else 365

def monthLengths (year : Nat) : List Nat :=
  [31, if IsLeap year then 29 else 28, 31, 30, 31, 30, 31, 31, 30, 31, 30, 31]

def monthLength (year month : Nat) : Nat := (monthLengths year).getD (month - 1) 0

/-- The days of `n` years from `epoch` on. -/
def daysOfYears (epoch : Nat) : Nat → Nat
  | 0 => 0
  | n + 1 => daysOfYears epoch n + yearLength (epoch + n)

/-- The days of a year before its `month`. -/
def daysOfMonths (year month : Nat) : Nat := ((monthLengths year).take (month - 1)).sum

variable {epoch : Nat}

theorem yearLength_pos (year : Nat) : 365 ≤ yearLength year := by
  unfold yearLength
  split <;> omega

theorem sum_monthLengths (year : Nat) : (monthLengths year).sum = yearLength year := by
  unfold monthLengths yearLength
  split <;> rfl

theorem le_daysOfYears (epoch n : Nat) : 365 * n ≤ daysOfYears epoch n := by
  induction n with
  | zero => exact Nat.le_refl _
  | succ n ih =>
    have hyear := yearLength_pos (epoch + n)
    rw [daysOfYears]
    omega

theorem daysOfYears_mono {m n : Nat} (h : m ≤ n) : daysOfYears epoch m ≤ daysOfYears epoch n := by
  induction h with
  | refl => exact Nat.le_refl _
  | step _ ih => exact ih.trans (Nat.le_add_right _ _)

/-- Every year has its 365 days, and a leap year one more. -/
theorem daysOfYears_eq (epoch n : Nat) :
    daysOfYears epoch n = 365 * n + ((List.range n).filter fun k => IsLeap (epoch + k)).length := by
  induction n with
  | zero => rfl
  | succ n ih =>
    rw [daysOfYears, ih, List.range_succ, List.filter_append, List.length_append, yearLength,
      List.filter_cons]
    by_cases hleap : IsLeap (epoch + n)
    · rw [if_pos hleap, if_pos (by simpa using hleap)]
      simp only [List.filter_nil, List.length_singleton]
      omega
    · rw [if_neg hleap, if_neg (by simpa using hleap)]
      simp only [List.filter_nil, List.length_nil]
      omega

end Calendar
