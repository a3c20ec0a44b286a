import Mathlib.Data.List.Forall2

/-!
# Glob patterns

A pattern is a list of tokens, of which `many` stands for any run of elements. `Matches fixed` is the
reading in which a `many` that meets an element with `fixed` takes just this one; if there is no such
element it is the usual one. A matcher that goes back to the latest `many` only finds what there is,
which is `matches_behind`.
-/

set_option autoImplicit false

namespace Glob

inductive Token (α : Type) where
  | lit (a : α)
  | one
  | many

section
variable {α : Type} {fixed : α → Prop}

/-- The token takes the element and nothing else. -/
inductive Takes (fixed : α → Prop) : Token α → α → Prop
  | lit (a : α) : Takes fixed (.lit a) a
  | one (a : α) : Takes fixed .one a
  | many {a : α} (h : fixed a) : Takes fixed .many a

/-- There is no element with `fixed` ahead. -/
def Free (fixed : α → Prop) (s : List α) : Prop := ∀ a, s.head? = some a → ¬ fixed a

inductive Matches (fixed : α → Prop) : List (Token α) → List α → Prop
  | nil : Matches fixed [] []
  | take {t : Token α} {a : α} {p : List (Token α)} {s : List α} (ht : Takes fixed t a)
      (h : Matches fixed p s) : Matches fixed (t :: p) (a :: s)
  | run {p : List (Token α)} {s : List α} (k : Nat) (hfree : Free fixed s)
      (h : Matches fixed p (s.drop k)) : Matches fixed (.many :: p) s

/-- `many` stands for any run whatever. -/
def Plain : List (Token α) → List α → Prop := Matches fun _ => False

theorem matches_cons_iff {t : Token α} {a : α} {p : List (Token α)} {s : List α}
    (ht : Takes fixed t a) : Matches fixed (t :: p) (a :: s) ↔ Matches fixed p s := by
  constructor
  · intro h
    cases h with
    | take _ h => exact h
    | run k hfree h =>
      cases ht with
      | many hfixed => exact absurd hfixed (hfree a rfl)
  · exact .take ht

theorem matches_many_iff {p : List (Token α)} {s : List α} (hfree : Free fixed s) :
    Matches fixed (.many :: p) s ↔ ∃ k, Matches fixed p (s.drop k) := by
  constructor
  · intro h
    cases h with
    | take ht h =>
      cases ht with
      | many hfixed => exact absurd hfixed (hfree _ rfl)
    | run k _ h => exact ⟨k, h⟩
  · rintro ⟨k, h⟩
    exact .run k hfree h

theorem not_matches_cons {t : Token α} {a : α} {p : List (Token α)} {s : List α}
    (ht : ¬ Takes fixed t a) (hmany : t ≠ .many) : ¬ Matches fixed (t :: p) (a :: s) := by
  intro h
  cases h with
  | take htakes _ => exact ht htakes
  | run k hfree h => exact hmany rfl

theorem not_matches_nil {a : α} {s : List α} : ¬ Matches fixed [] (a :: s) := by
  intro h
  cases h

/-- Only runs match the end. -/
theorem matches_end_iff {p : List (Token α)} : Matches fixed p [] ↔ ∀ t ∈ p, t = .many := by
  induction p with
  | nil => exact ⟨fun _ t ht => absurd ht List.not_mem_nil, fun _ => .nil⟩
  | cons t p ih =>
    have hfree : Free fixed ([] : List α) := by
      intro a ha
      cases ha
    constructor
    · intro h
      cases h with
      | run k _ h =>
        rw [List.drop_nil] at h
        intro t' ht'
        rcases List.mem_cons.mp ht' with rfl | hmem
        · rfl
        · exact ih.mp h t' hmem
    · intro h
      obtain rfl := h t List.mem_cons_self
      exact .run 0 hfree (ih.mpr fun t' ht' => h t' (List.mem_cons_of_mem _ ht'))

/-- The tokens take the elements one by one. -/
def Along (fixed : α → Prop) : List (Token α) → List α → Prop := List.Forall₂ (Takes fixed)

theorem matches_along_iff {seg q : List (Token α)} {part rest : List α} (h : Along fixed seg part) :
    Matches fixed (seg ++ q) (part ++ rest) ↔ Matches fixed q rest := by
  induction h with
  | nil => rfl
  | cons ht _ ih => exact (matches_cons_iff ht).trans ih

/-- The pattern is used up along the first elements, whatever follows them. -/
def Follows (fixed : α → Prop) (p : List (Token α)) (s : List α) : Prop :=
  ∃ part rest, s = part ++ rest ∧ Along fixed p part

theorem follows_cons_iff {t : Token α} {a : α} {p : List (Token α)} {s : List α} :
    Follows fixed (t :: p) (a :: s) ↔ Takes fixed t a ∧ Follows fixed p s := by
  constructor
  · rintro ⟨part, rest, hs, h⟩
    cases h with
    | cons ht h =>
      cases hs
      exact ⟨ht, _, rest, rfl, h⟩
  · rintro ⟨ht, part, rest, rfl, h⟩
    exact ⟨a :: part, rest, rfl, .cons ht h⟩

theorem follows_along_iff {seg q : List (Token α)} {part rest : List α} (h : Along fixed seg part) :
    Follows fixed (seg ++ q) (part ++ rest) ↔ Follows fixed q rest := by
  induction h with
  | nil => rfl
  | cons ht _ ih => rw [List.cons_append, List.cons_append, follows_cons_iff, ih, and_iff_right ht]

theorem follows_nil (s : List α) : Follows fixed [] s := ⟨[], s, rfl, .nil⟩

theorem follows_end_iff {p : List (Token α)} : Follows fixed p [] ↔ p = [] := by
  constructor
  · rintro ⟨part, rest, hs, h⟩
    obtain ⟨rfl, -⟩ := List.append_eq_nil_iff.mp hs.symm
    cases h
    rfl
  · rintro rfl
    exact follows_nil []

theorem exists_of_many {p : List (Token α)} {s : List α} (h : Matches fixed (.many :: p) s) :
    ∃ k, Matches fixed p (s.drop k) := by
  cases h with
  | take _ h => exact ⟨1, h⟩
  | run k _ h => exact ⟨k, h⟩

/-- Whatever matches from further on has its tokens behind `seg` no earlier than those that were taken one
by one have: a `many` of `seg` took an element with `fixed`, and is met earlier by no other reading. -/
theorem matches_behind {seg q : List (Token α)} {part rest : List α} (h : Along fixed seg part) (x : Nat)
    (hm : Matches fixed (seg ++ q) ((part ++ rest).drop x)) : ∃ y, Matches fixed q (rest.drop y) := by
  induction h generalizing x with
  | nil => exact ⟨x, hm⟩
  | @cons t a seg part ht _ ih =>
    cases x with
    | zero => exact ih 0 ((matches_cons_iff ht).mp hm)
    | succ x =>
      rw [List.cons_append, List.cons_append, List.drop_succ_cons] at hm
      generalize hs : (part ++ rest).drop x = s at hm
      cases hm with
      | @take _ b _ s' _ hm =>
        apply ih (x + 1)
        rw [← List.drop_drop, hs]
        exact hm
      | run k _ hm =>
        apply ih (x + k)
        rw [← List.drop_drop, hs]
        exact hm

/-- A reading with `fixed` elements is a reading. -/
theorem plain_of_matches {p : List (Token α)} {s : List α} (h : Matches fixed p s) : Plain p s := by
  have hfree : ∀ s : List α, Free (fun _ => False) s := fun _ _ _ hfalse => hfalse
  induction h with
  | nil => exact .nil
  | take ht _ ih =>
    cases ht with
    | lit => exact .take (.lit _) ih
    | one => exact .take (.one _) ih
    | many hfixed => exact .run 1 (hfree _) ih
  | run k _ _ ih => exact .run k (hfree _) ih

end

end Glob
