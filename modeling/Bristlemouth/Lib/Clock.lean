import Mathlib

/-!
# Periodic work on a wrapping clock

A deadline of a grid of times, kept modulo 2^32 and held against a clock that is. `nextAfter` is what
it stands for: the first point of the grid after the time last looked at.

`Sweeper` is work done at the deadline: however many points were missed, it is done once.
-/

set_option autoImplicit false

namespace Clock

/-! ### The grid -/

/-- The first point after `t` of the grid of `period` through `start`. -/
def nextAfter (period start t : Nat) : Nat := start + period * ((t - start) / period + 1)

/-- How many points of the grid there are after `s` up to `t`. -/
def pointsBetween (period start s t : Nat) : Nat := (t - start) / period - (s - start) / period

section Grid

variable {period start s t : Nat}

theorem nextAfter_self : nextAfter period start start = start + period := by
  simp [nextAfter]

theorem lt_nextAfter (hp : 0 < period) (hs : start ≤ t) : t < nextAfter period start t := by
  have hdiv := Nat.div_add_mod (t - start) period
  have hmod := Nat.mod_lt (t - start) hp
  rw [nextAfter, Nat.mul_add, Nat.mul_one]
  omega

theorem nextAfter_le (hs : start ≤ t) : nextAfter period start t ≤ t + period := by
  have hdiv := Nat.div_add_mod (t - start) period
  rw [nextAfter, Nat.mul_add, Nat.mul_one]
  omega

/-- A time that has not reached the deadline is followed by the same one. -/
theorem nextAfter_of_lt (hp : 0 < period) (hs : start ≤ s) (hst : s ≤ t)
    (h : t < nextAfter period start s) : pointsBetween period start s t = 0 ∧
      nextAfter period start t = nextAfter period start s := by
  have hlow : (s - start) / period ≤ (t - start) / period := Nat.div_le_div_right (by omega)
  have hhigh : (t - start) / period < (s - start) / period + 1 := by
    rw [Nat.div_lt_iff_lt_mul hp, Nat.mul_comm]
    rw [nextAfter] at h
    omega
  have heq : (t - start) / period = (s - start) / period := by omega
  exact ⟨by rw [pointsBetween, heq, Nat.sub_self], by rw [nextAfter, nextAfter, heq]⟩

/-- One that has reached it is followed by the deadline moved on by the missed periods and one more. -/
theorem nextAfter_of_le (hp : 0 < period) (h : nextAfter period start s ≤ t) :
    pointsBetween period start s t = (t - nextAfter period start s) / period + 1 ∧
      nextAfter period start t =
        nextAfter period start s + period * ((t - nextAfter period start s) / period + 1) := by
  have hgap : t - start = (t - nextAfter period start s) + period * ((s - start) / period + 1) := by
    rw [nextAfter] at h ⊢
    omega
  have hdiv : (t - start) / period =
      (t - nextAfter period start s) / period + ((s - start) / period + 1) := by
    rw [hgap, Nat.add_mul_div_left _ _ hp]
  constructor
  · rw [pointsBetween, hdiv]
    generalize (t - nextAfter period start s) / period = missed
    rw [Nat.add_left_comm, Nat.add_sub_cancel_left]
  · rw [nextAfter, hdiv]
    generalize (t - nextAfter period start s) / period = missed
    simp only [nextAfter, Nat.mul_add, Nat.mul_one]
    omega

end Grid

/-! ### The wrapping clock -/

section Wrapping

variable {deadline now : Nat}

/-- The sign bit of the difference says whether the deadline has been reached, for times less than half
the clock apart. -/
theorem due_iff (hlow : deadline ≤ now + 2 ^ 31) (hhigh : now < deadline + 2 ^ 31) :
    (UInt32.ofNat now - UInt32.ofNat deadline).toNat < 2 ^ 31 ↔ deadline ≤ now := by
  rw [UInt32.toNat_sub, UInt32.toNat_ofNat', UInt32.toNat_ofNat']
  omega

theorem toNat_sub_of_le (h : deadline ≤ now) (hhigh : now < deadline + 2 ^ 31) :
    (UInt32.ofNat now - UInt32.ofNat deadline).toNat = now - deadline := by
  rw [UInt32.toNat_sub, UInt32.toNat_ofNat', UInt32.toNat_ofNat']
  omega

/-- The deadline moved on by whole periods past the time. -/
theorem catchUp (period : UInt32) (h : deadline ≤ now) (hhigh : now < deadline + 2 ^ 31) :
    UInt32.ofNat deadline +
        period * ((UInt32.ofNat now - UInt32.ofNat deadline) / period + 1) =
      UInt32.ofNat (deadline + period.toNat * ((now - deadline) / period.toNat + 1)) := by
  have hdiff := toNat_sub_of_le h hhigh
  have hmissed : (UInt32.ofNat now - UInt32.ofNat deadline) / period =
      UInt32.ofNat ((now - deadline) / period.toNat) := by
    apply UInt32.toNat_inj.mp
    have hsmall : (now - deadline) / period.toNat ≤ now - deadline := Nat.div_le_self _ _
    rw [UInt32.toNat_div, hdiff, UInt32.toNat_ofNat', Nat.mod_eq_of_lt (by omega)]
  rw [hmissed, UInt32.ofNat_add, UInt32.ofNat_mul, UInt32.ofNat_add, UInt32.ofNat_toNat]
  rfl

end Wrapping

/-! ### Work at the deadline -/

/-- A state with a deadline in it, and the work that is due then. `Lively` is when doing the work again
at once finds nothing left to do. -/
structure Sweeper (σ ρ : Type) where
  period : UInt32
  next : σ → UInt32
  setNext : σ → UInt32 → σ
  sweep : σ → UInt32 → σ × List ρ
  Lively : σ → Prop
  period_pos : 0 < period.toNat
  period_le : period.toNat ≤ 2 ^ 31
  next_setNext : ∀ s n, next (setNext s n) = n
  setNext_setNext : ∀ s m n, setNext (setNext s m) n = setNext s n
  next_sweep : ∀ s now, next (sweep s now).1 = next s
  sweep_setNext : ∀ s n now, sweep (setNext s n) now = (setNext (sweep s now).1 n, (sweep s now).2)
  sweep_sweep : ∀ s now, Lively s → sweep (sweep s now).1 now = ((sweep s now).1, [])

namespace Sweeper

variable {σ ρ : Type} (w : Sweeper σ ρ)

/-- One sweep if the deadline has been reached, with the deadline moved past the time first. -/
def tick (s : σ) (now : UInt32) : σ × List ρ :=
  if (now - w.next s).toNat ≥ 2 ^ 31 then (s, [])
  else w.sweep (w.setNext s (w.next s + w.period * ((now - w.next s) / w.period + 1))) now

/-- A sweep at each of `k` deadlines in a row, all of them at one time. -/
def everySweep (now : UInt32) : Nat → σ → σ × List ρ
  | 0, s => (s, [])
  | k + 1, s =>
    let first := w.sweep (w.setNext s (w.next s + w.period)) now
    let rest := everySweep now k first.1
    (rest.1, first.2 ++ rest.2)

/-- The states between the ticks of a run, with the time of the last one: the phase is set at `start`,
and what happens between ticks leaves the deadline alone. -/
inductive Run (start : Nat) : σ → Nat → Prop
  | start (s : σ) (h : w.next s = UInt32.ofNat start + w.period) : Run start s start
  | between (s s' : σ) (t : Nat) (hs : Run start s t) (h : w.next s' = w.next s) : Run start s' t
  | tick (s : σ) (t now : Nat) (hs : Run start s t) (hle : t ≤ now) (hlt : now < t + 2 ^ 31) :
      Run start (w.tick s (UInt32.ofNat now)).1 now

variable {w} {start t now : Nat} {s : σ}

theorem tick_eq (ht : start ≤ t) (hnext : w.next s = UInt32.ofNat (nextAfter w.period.toNat start t))
    (hle : t ≤ now) (hlt : now < t + 2 ^ 31) :
    w.tick s (UInt32.ofNat now) =
      if nextAfter w.period.toNat start t ≤ now then
        w.sweep (w.setNext s (UInt32.ofNat (nextAfter w.period.toNat start now))) (UInt32.ofNat now)
      else (s, []) := by
  have hafter := lt_nextAfter w.period_pos ht
  have hwithin := @nextAfter_le w.period.toNat start t ht
  have hperiod := w.period_le
  have hdue := @due_iff (nextAfter w.period.toNat start t) now (by omega) (by omega)
  rw [tick, hnext]
  by_cases hreached : nextAfter w.period.toNat start t ≤ now
  · rw [if_pos hreached, if_neg (not_le.mpr (hdue.mpr hreached)), catchUp w.period hreached (by omega),
      ← (nextAfter_of_le w.period_pos hreached).2]
  · rw [if_neg hreached, if_pos (not_lt.mp fun h => hreached (hdue.mp h))]

theorem Run.next_eq (h : w.Run start s t) :
    start ≤ t ∧ w.next s = UInt32.ofNat (nextAfter w.period.toNat start t) := by
  induction h with
  | start s h =>
    refine ⟨le_refl _, ?_⟩
    rw [h, nextAfter_self, UInt32.ofNat_add, UInt32.ofNat_toNat]
  | between s s' t hs h ih => exact ⟨ih.1, h.trans ih.2⟩
  | tick s t now hs hle hlt ih =>
    obtain ⟨ht, hnext⟩ := ih
    refine ⟨le_trans ht hle, ?_⟩
    rw [tick_eq ht hnext hle hlt]
    by_cases hreached : nextAfter w.period.toNat start t ≤ now
    · rw [if_pos hreached, w.next_sweep, w.next_setNext]
    · rw [if_neg hreached, hnext,
        (nextAfter_of_lt w.period_pos ht hle (not_le.mp hreached)).2]

theorem deadline_succ (m : UInt32) (k : Nat) :
    m + w.period + w.period * UInt32.ofNat k = m + w.period * UInt32.ofNat (k + 1) := by
  rw [UInt32.ofNat_add, UInt32.mul_add, UInt32.add_assoc, UInt32.add_comm w.period]
  simp

/-- The sweeps after the first one at the same time only move the deadline. -/
theorem everySweep_again (now m : UInt32) (k : Nat) (hs : w.Lively s) :
    w.everySweep now k (w.setNext (w.sweep s now).1 m) =
      (w.setNext (w.sweep s now).1 (m + w.period * UInt32.ofNat k), []) := by
  induction k generalizing m with
  | zero =>
    rw [everySweep, show UInt32.ofNat 0 = 0 from rfl, UInt32.mul_zero, UInt32.add_zero]
  | succ k ih =>
    simp only [everySweep, w.next_setNext, w.setNext_setNext, w.sweep_setNext, w.sweep_sweep s now hs, ih,
      deadline_succ, List.nil_append]

theorem everySweep_succ (now : UInt32) (k : Nat) (hs : w.Lively s) :
    w.everySweep now (k + 1) s =
      w.sweep (w.setNext s (w.next s + w.period * UInt32.ofNat (k + 1))) now := by
  simp only [everySweep, w.sweep_setNext, everySweep_again now _ k hs, deadline_succ, List.append_nil]

/-- A tick does what sweeping at every deadline since the last one would have done at its time. -/
theorem tick_eq_everySweep (h : w.Run start s t) (hle : t ≤ now) (hlt : now < t + 2 ^ 31)
    (hs : w.Lively s) :
    w.tick s (UInt32.ofNat now) =
      w.everySweep (UInt32.ofNat now) (pointsBetween w.period.toNat start t now) s := by
  obtain ⟨ht, hnext⟩ := h.next_eq
  rw [tick_eq ht hnext hle hlt]
  by_cases hreached : nextAfter w.period.toNat start t ≤ now
  · obtain ⟨hpoints, hmoved⟩ := nextAfter_of_le w.period_pos hreached
    rw [if_pos hreached, hpoints, everySweep_succ _ _ hs, hmoved, hnext, UInt32.ofNat_add, UInt32.ofNat_mul,
      UInt32.ofNat_toNat]
  · rw [if_neg hreached, (nextAfter_of_lt w.period_pos ht hle (not_le.mp hreached)).1]
    rfl

variable (w) in
/-- What a tick at `now` makes of `s`, where the last one was at `t`: a sweep if a point of the grid lies
between them, and nothing otherwise. -/
structure Ticks (start t now : Nat) (s : σ) (r : σ × List ρ) : Prop where
  deadline : w.next s = UInt32.ofNat (nextAfter w.period.toNat start t)
  swept : nextAfter w.period.toNat start t ≤ now →
    r = w.sweep (w.setNext s (UInt32.ofNat (nextAfter w.period.toNat start now))) (UInt32.ofNat now)
  skipped : now < nextAfter w.period.toNat start t → r = (s, [])
  next : w.next r.1 = UInt32.ofNat (nextAfter w.period.toNat start now)
  later : now < nextAfter w.period.toNat start now
  grid : ∃ k, nextAfter w.period.toNat start now = start + w.period.toNat * k
  collapsed : w.Lively s →
    r = w.everySweep (UInt32.ofNat now) (pointsBetween w.period.toNat start t now) s

theorem Run.ticks (h : w.Run start s t) (hle : t ≤ now) (hlt : now < t + 2 ^ 31) :
    w.Ticks start t now s (w.tick s (UInt32.ofNat now)) := by
  obtain ⟨ht, hnext⟩ := h.next_eq
  have htick := tick_eq ht hnext hle hlt
  constructor
  · exact hnext
  · intro hreached
    rw [htick, if_pos hreached]
  · intro hbefore
    rw [htick, if_neg (not_le.mpr hbefore)]
  · exact (Run.tick s t now h hle hlt).next_eq.2
  · exact lt_nextAfter w.period_pos (le_trans ht hle)
  · exact ⟨_, rfl⟩
  · exact tick_eq_everySweep h hle hlt

end Sweeper

end Clock
