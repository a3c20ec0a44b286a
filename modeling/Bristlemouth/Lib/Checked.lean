import Mathlib.Logic.Basic

/-!
# Computations that may panic

A result that may be an error, or missing where the code would panic: an index out of range, a sum that
overflows. `Safe` says that a computation does not panic and what its values satisfy.
-/

set_option autoImplicit false

/-- A computation with errors in `ε`; `none` is a panic. -/
abbrev Checked (ε α : Type) := ExceptT ε Option α

namespace Checked

variable {ε α β : Type} {x : Checked ε α} {f : α → Checked ε β} {P Q : α → Prop} {R : β → Prop}

/-- There is no panic, and a value satisfies `P`. -/
def Safe (x : Checked ε α) (P : α → Prop) : Prop :=
  ∃ r : Except ε α, x = some r ∧ ∀ a, r = .ok a → P a

theorem safe_pure {a : α} (h : P a) : Safe (pure a : Checked ε α) P := by
  refine ⟨.ok a, rfl, ?_⟩
  intro a' ha'
  cases ha'
  exact h

theorem safe_throw (e : ε) : Safe (throw e : Checked ε α) P := by
  refine ⟨.error e, rfl, ?_⟩
  intro a ha
  cases ha

theorem Safe.mono (h : Safe x P) (hPQ : ∀ a, P a → Q a) : Safe x Q := by
  obtain ⟨r, hx, hr⟩ := h
  exact ⟨r, hx, fun a ha => hPQ a (hr a ha)⟩

theorem Safe.bind (h : Safe x P) (hf : ∀ a, P a → Safe (f a) R) : Safe (x >>= f) R := by
  obtain ⟨r, hx, hr⟩ := h
  subst hx
  rcases r with e | a
  · exact safe_throw e
  · exact hf a (hr a rfl)

/-- What is known of a value includes that it is the computation's. -/
theorem Safe.eq_ok (h : Safe x P) : Safe x fun a => x = some (.ok a) ∧ P a := by
  obtain ⟨r, hx, hr⟩ := h
  refine ⟨r, hx, fun a ha => ⟨?_, hr a ha⟩⟩
  rw [hx, ha]

/-- A step that did not panic. -/
@[simp] theorem lift_some_bind (a : α) (f : α → Checked ε β) :
    ((liftM (some a) : Checked ε α) >>= f) = f a := rfl

@[simp] theorem lift_none_bind (f : α → Checked ε β) :
    ((liftM (none : Option α) : Checked ε α) >>= f) = none := rfl

theorem safe_lift {a : α} {o : Option α} (ho : o = some a) (hf : Safe (f a) R) :
    Safe ((liftM o : Checked ε α) >>= f) R := by
  rw [ho]
  exact hf

end Checked
