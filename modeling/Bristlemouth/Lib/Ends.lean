import Mathlib.Init

/-!
# How a computation ends

`Ends allowed post r` says that `r` ends with a value of which `post` holds, or with an error that is
allowed. Computations are put together: what holds of one part's value is what the next part starts from.
-/

set_option autoImplicit false

universe e a

/-- Every value has `post`, and every error is allowed. -/
def Ends {ε : Type e} {α : Type a} (allowed : ε → Prop) (post : α → Prop) : Except ε α → Prop
  | .ok a => post a
  | .error e => allowed e

namespace Ends

variable {ε : Type e} {α : Type a} {allowed : ε → Prop} {post : α → Prop}

theorem intro {r : Except ε α} (hok : ∀ a, r = .ok a → post a) (herror : ∀ e, r = .error e → allowed e) :
    Ends allowed post r := by
  cases r with
  | ok a => exact hok a rfl
  | error e => exact herror e rfl

theorem ok {r : Except ε α} (h : Ends allowed post r) {a : α} (hr : r = .ok a) : post a := by
  subst hr
  exact h

theorem error {r : Except ε α} (h : Ends allowed post r) {e : ε} (hr : r = .error e) : allowed e := by
  subst hr
  exact h

theorem mono {post' : α → Prop} {r : Except ε α} (h : Ends allowed post r) (himp : ∀ a, post a → post' a) :
    Ends allowed post' r :=
  intro (fun a ha => himp a (h.ok ha)) (fun _ he => h.error he)

theorem bind {β : Type a} {post' : β → Prop} {r : Except ε α} {f : α → Except ε β}
    (h : Ends allowed post r) (hf : ∀ a, post a → Ends allowed post' (f a)) : Ends allowed post' (r >>= f) := by
  cases r with
  | ok a => exact hf a h
  | error e => exact h

end Ends
