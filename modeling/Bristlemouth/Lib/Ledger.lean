import Mathlib.Data.List.Nodup
import Mathlib.Data.List.Perm.Basic

/-!
# Ledgers

Entries are opened under fresh keys and closed one at a time, in any order. Some of them are special: they
wait in a list of their own, and for each of them a claim joins a queue. Whichever special entry is closed
takes the claim at the head of the queue, which need not be its own.
-/

set_option autoImplicit false

universe u

/-- The lists as they stand, and what has become of everything so far, in order. -/
structure Ledger (κ : Type u) where
  opened : List κ
  special : List κ
  closed : List κ
  /-- The special entries closed, each with the claim it took. -/
  taken : List (κ × κ)
  live : List κ
  waiting : List κ
  queue : List κ

namespace Ledger

variable {κ : Type u}

/-- The ledger with another list of live entries. -/
def withLive (b : Ledger κ) (live : List κ) : Ledger κ := { b with live }

inductive Step : Ledger κ → Ledger κ → Prop
  | opens (b : Ledger κ) (key : κ) :
      Step b { b with opened := b.opened ++ [key], live := b.live ++ [key] }
  | opensSpecial (b : Ledger κ) (key : κ) :
      Step b { b with
        opened := b.opened ++ [key], live := b.live ++ [key]
        special := b.special ++ [key], waiting := b.waiting ++ [key], queue := b.queue ++ [key] }
  | closes (b : Ledger κ) {before after : List κ} {key : κ} (hlive : b.live = before ++ key :: after)
      (hnot : key ∉ b.waiting) :
      Step b { b with live := before ++ after, closed := b.closed ++ [key] }
  | closesSpecial (b : Ledger κ) {before after first rest queue : List κ} {key oldest : κ}
      (hlive : b.live = before ++ key :: after) (hwaiting : b.waiting = first ++ key :: rest)
      (hqueue : b.queue = oldest :: queue) :
      Step b { b with
        live := before ++ after, closed := b.closed ++ [key]
        waiting := first ++ rest, queue, taken := b.taken ++ [(key, oldest)] }

/-- Whether or not keys repeat, no more entries wait than are live. -/
theorem Step.covered [DecidableEq κ] {b b' : Ledger κ} (hstep : Step b b') (h : b.waiting.Subperm b.live) :
    b'.waiting.Subperm b'.live := by
  cases hstep with
  | opens key => exact h.trans (List.sublist_append_left _ _).subperm
  | opensSpecial key => exact (List.subperm_append_right [key]).mpr h
  | @closes before after key hlive hnot =>
    rw [hlive] at h
    apply List.subperm_ext_iff.mpr
    intro k hk
    have hne : k ≠ key := fun heq => hnot (heq ▸ hk)
    have hcount := List.subperm_ext_iff.mp h k hk
    rw [List.count_append, List.count_cons_of_ne (Ne.symm hne)] at hcount
    rw [List.count_append]
    exact hcount
  | @closesSpecial before after first rest queue key oldest hlive hwaiting hqueue =>
    rw [hlive, hwaiting] at h
    have hcons : (key :: (first ++ rest)).Subperm (key :: (before ++ after)) :=
      List.perm_middle.subperm_left.mp (List.perm_middle.subperm_right.mp h)
    exact (List.subperm_cons key).mp hcons

theorem covered_of_steps [DecidableEq κ] {b b' : Ledger κ} (hsteps : Relation.ReflTransGen Step b b')
    (h : b.waiting.Subperm b.live) : b'.waiting.Subperm b'.live := by
  induction hsteps with
  | refl => exact h
  | tail _ hstep ih => exact hstep.covered ih

/-- Steps only add to what has been opened. -/
theorem opened_grows {b b' : Ledger κ} (h : Relation.ReflTransGen Step b b') : b.opened <+: b'.opened := by
  induction h with
  | refl => exact List.prefix_refl _
  | tail _ hstep ih =>
    refine ih.trans ?_
    cases hstep with
    | opens => exact List.prefix_append _ _
    | opensSpecial => exact List.prefix_append _ _
    | closes => exact List.prefix_refl _
    | closesSpecial => exact List.prefix_refl _

theorem closed_perm {live before after closed opened : List κ} {key : κ}
    (hperm : (closed ++ live).Perm opened) (hlive : live = before ++ key :: after) :
    (closed ++ [key] ++ (before ++ after)).Perm opened := by
  refine List.Perm.trans ?_ hperm
  rw [hlive, List.append_assoc]
  apply List.Perm.append_left
  rw [List.singleton_append]
  exact List.perm_middle.symm

theorem sublist_of_split {l l' before after : List κ} {key : κ} (h : l.Sublist l')
    (hl : l = before ++ key :: after) : (before ++ after).Sublist l' := by
  refine List.Sublist.trans ?_ h
  rw [hl]
  exact List.Sublist.append_left (List.sublist_cons_self _ _) _

theorem not_mem_of_fresh {opened : List κ} {key : κ} (h : (opened ++ [key]).Nodup) : key ∉ opened :=
  fun hmem => (List.nodup_append.mp h).2.2 key hmem key List.mem_cons_self rfl

/-- The accounts agree. -/
structure Balanced [DecidableEq κ] (b : Ledger κ) : Prop where
  nodup : b.opened.Nodup
  perm : (b.closed ++ b.live).Perm b.opened
  live_sublist : b.live.Sublist b.opened
  special_sublist : b.special.Sublist b.opened
  waiting_eq : b.waiting = b.live.filter (· ∈ b.special)
  taken_closed : b.taken.map Prod.fst = b.closed.filter (· ∈ b.special)
  special_eq : b.taken.map Prod.snd ++ b.queue = b.special
  length_eq : b.queue.length = b.waiting.length

variable [DecidableEq κ] {b b' : Ledger κ}

theorem balanced_empty : (⟨[], [], [], [], [], [], []⟩ : Ledger κ).Balanced where
  nodup := List.nodup_nil
  perm := List.Perm.refl _
  live_sublist := List.Sublist.refl _
  special_sublist := List.Sublist.refl _
  waiting_eq := rfl
  taken_closed := rfl
  special_eq := rfl
  length_eq := rfl

namespace Balanced

theorem closed_live_nodup (h : b.Balanced) : (b.closed ++ b.live).Nodup := h.perm.nodup_iff.mpr h.nodup

theorem live_nodup (h : b.Balanced) : b.live.Nodup := h.live_sublist.nodup h.nodup

theorem closed_nodup (h : b.Balanced) : b.closed.Nodup := (List.nodup_append.mp h.closed_live_nodup).1

theorem special_nodup (h : b.Balanced) : b.special.Nodup := h.special_sublist.nodup h.nodup

theorem taken_nodup (h : b.Balanced) : (b.taken.map Prod.snd).Nodup := by
  have hspecial := h.special_nodup
  rw [← h.special_eq] at hspecial
  exact (List.nodup_append.mp hspecial).1

theorem mem_live_iff (h : b.Balanced) {key : κ} : key ∈ b.live ↔ key ∈ b.opened ∧ key ∉ b.closed := by
  have hmem : key ∈ b.closed ∨ key ∈ b.live ↔ key ∈ b.opened := by
    rw [← List.mem_append]
    exact h.perm.mem_iff
  have hdisjoint := (List.nodup_append.mp h.closed_live_nodup).2.2
  constructor
  · intro hlive
    exact ⟨hmem.mp (Or.inr hlive), fun hclosed => hdisjoint key hclosed key hlive rfl⟩
  · rintro ⟨hopened, hclosed⟩
    exact (hmem.mpr hopened).resolve_left hclosed

theorem mem_opened_of_closed (h : b.Balanced) {key : κ} (hclosed : key ∈ b.closed) : key ∈ b.opened :=
  h.perm.mem_iff.mp (List.mem_append_left _ hclosed)

theorem queue_empty (h : b.Balanced) (hnone : ∀ key ∈ b.live, key ∉ b.special) : b.queue = [] := by
  rw [← List.length_eq_zero_iff, h.length_eq, h.waiting_eq, List.length_eq_zero_iff]
  apply List.filter_eq_nil_iff.mpr
  intro key hkey
  rw [decide_eq_true_eq]
  exact hnone key hkey

end Balanced

/-- Taking one key out of a list without repetitions, wherever it stands. -/
theorem filter_ne_of_split {l before after : List κ} {key : κ} (hnodup : l.Nodup)
    (hl : l = before ++ key :: after) : l.filter (· ≠ key) = before ++ after := by
  subst hl
  have hdisjoint := (List.nodup_append.mp hnodup).2.2
  have hcons := List.nodup_cons.mp (List.nodup_append.mp hnodup).2.1
  have hbefore : before.filter (· ≠ key) = before := by
    apply List.filter_eq_self.mpr
    intro k hk
    rw [decide_eq_true_eq]
    exact hdisjoint k hk key List.mem_cons_self
  have hafter : after.filter (· ≠ key) = after := by
    apply List.filter_eq_self.mpr
    intro k hk
    rw [decide_eq_true_eq]
    intro heq
    subst heq
    exact hcons.1 hk
  rw [List.filter_append, List.filter_cons_of_neg (by simp), hbefore, hafter]

theorem Step.balanced (hstep : Step b b') (h : b.Balanced) (hfresh : b'.opened.Nodup) : b'.Balanced := by
  cases hstep with
  | opens key =>
    have hnew : key ∉ b.special := fun hmem => not_mem_of_fresh hfresh (h.special_sublist.subset hmem)
    exact {
      nodup := hfresh
      perm := by
        rw [← List.append_assoc]
        exact h.perm.append_right [key]
      live_sublist := h.live_sublist.append_right [key]
      special_sublist := h.special_sublist.trans (List.sublist_append_left _ _)
      waiting_eq := by
        rw [List.filter_append, List.filter_cons_of_neg (by simpa using hnew), List.filter_nil,
          List.append_nil]
        exact h.waiting_eq
      taken_closed := h.taken_closed
      special_eq := h.special_eq
      length_eq := h.length_eq }
  | opensSpecial key =>
    have hnew : key ∉ b.opened := not_mem_of_fresh hfresh
    have hkeep : ∀ l : List κ, key ∉ l → l.filter (· ∈ b.special ++ [key]) = l.filter (· ∈ b.special) := by
      intro l hl
      apply List.filter_congr
      intro k hk
      have hne : k ≠ key := fun heq => hl (heq ▸ hk)
      simp [hne]
    exact {
      nodup := hfresh
      perm := by
        rw [← List.append_assoc]
        exact h.perm.append_right [key]
      live_sublist := h.live_sublist.append_right [key]
      special_sublist := h.special_sublist.append_right [key]
      waiting_eq := by
        rw [List.filter_append, List.filter_cons_of_pos (by simp), List.filter_nil,
          hkeep b.live fun hmem => hnew (h.live_sublist.subset hmem), ← h.waiting_eq]
      taken_closed := by
        rw [hkeep b.closed fun hmem => hnew (h.mem_opened_of_closed hmem)]
        exact h.taken_closed
      special_eq := by
        rw [← List.append_assoc, h.special_eq]
      length_eq := by
        rw [List.length_append, List.length_append, h.length_eq] }
  | @closes before after key hlive hnot =>
    have hspecial : key ∉ b.special := by
      intro hmem
      apply hnot
      rw [h.waiting_eq, List.mem_filter, hlive, decide_eq_true_eq]
      exact ⟨List.mem_append_right _ List.mem_cons_self, hmem⟩
    exact {
      nodup := hfresh
      perm := closed_perm h.perm hlive
      live_sublist := sublist_of_split h.live_sublist hlive
      special_sublist := h.special_sublist
      waiting_eq := by
        rw [h.waiting_eq, hlive, List.filter_append, List.filter_append,
          List.filter_cons_of_neg (by simpa using hspecial)]
      taken_closed := by
        rw [List.filter_append, List.filter_cons_of_neg (by simpa using hspecial), List.filter_nil,
          List.append_nil]
        exact h.taken_closed
      special_eq := h.special_eq
      length_eq := h.length_eq }
  | @closesSpecial before after first rest queue key oldest hlive hwaiting hqueue =>
    have hnodup : b.waiting.Nodup := by
      rw [h.waiting_eq]
      exact h.live_nodup.filter _
    have hspecial : key ∈ b.special := by
      have hmem : key ∈ b.waiting := by
        rw [hwaiting]
        exact List.mem_append_right _ List.mem_cons_self
      rw [h.waiting_eq, List.mem_filter, decide_eq_true_eq] at hmem
      exact hmem.2
    exact {
      nodup := hfresh
      perm := closed_perm h.perm hlive
      live_sublist := sublist_of_split h.live_sublist hlive
      special_sublist := h.special_sublist
      waiting_eq := by
        -- both lists lose the same key
        rw [← filter_ne_of_split hnodup hwaiting, ← filter_ne_of_split h.live_nodup hlive, h.waiting_eq]
        exact List.filter_comm _ _ _
      taken_closed := by
        rw [List.map_append, List.filter_append, h.taken_closed,
          List.filter_cons_of_pos (by simpa using hspecial)]
        rfl
      special_eq := by
        rw [List.map_append, List.append_assoc, List.map_cons, List.map_nil, List.singleton_append, ← hqueue]
        exact h.special_eq
      length_eq := by
        have hlength := h.length_eq
        rw [hqueue, hwaiting, List.length_cons, List.length_append, List.length_cons] at hlength
        change queue.length = (first ++ rest).length
        rw [List.length_append]
        omega }

theorem balanced_of_steps (hsteps : Relation.ReflTransGen Step b b') (h : b.Balanced)
    (hfresh : b'.opened.Nodup) : b'.Balanced := by
  induction hsteps with
  | refl => exact h
  | tail hsteps hstep ih =>
    refine hstep.balanced (ih ?_) hfresh
    exact ((opened_grows (.single hstep)).sublist).nodup hfresh

end Ledger
