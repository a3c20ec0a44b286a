import Bristlemouth.Dfu.Acts

/-!
# Which timers fire

The timers and the clock as times that do not wrap. As long as no deadline is 2^31 ms away from the clock,
the signed differences of `fire_due` and `next_deadline` are those of the times.
-/

set_option autoImplicit false

namespace Bristlemouth.Dfu

namespace Core

/-- The earliest running timer's deadline. -/
def nextDeadline (c : Core) : Option UInt32 :=
  @List.argmin UInt32 Int Int.instLinearOrder.toPreorder _ (fun d => asI32 (d - c.now))
    (Timer.all.filterMap c.timers)

/-- The clock and the deadlines stand for these times. -/
structure Stands (c : Core) (time : Nat) (deadline : Timer → Option Nat) : Prop where
  now : c.now = UInt32.ofNat time
  timers : ∀ t, c.timers t = (deadline t).map UInt32.ofNat
  near : ∀ t d, deadline t = some d → d < time + 2 ^ 31 ∧ time < d + 2 ^ 31

/-- The timer's deadline has been reached. -/
def Reached (time : Nat) (deadline : Timer → Option Nat) (t : Timer) : Prop :=
  ∃ d, deadline t = some d ∧ d ≤ time

/-- An earlier deadline, or the same one and an earlier timer. -/
def Before (deadline : Timer → Option Nat) (a b : Timer) : Prop :=
  ∃ d e, deadline a = some d ∧ deadline b = some e ∧
    (d < e ∨ d = e ∧ Timer.all.idxOf a < Timer.all.idxOf b)

end Core

/-- The signed difference of two wrapped times is the difference of the times. -/
theorem asI32_sub {a b : Nat} (hlow : a < b + 2 ^ 31) (hhigh : b < a + 2 ^ 31) :
    asI32 (UInt32.ofNat a - UInt32.ofNat b) = (a : Int) - b := by
  have hnat : (UInt32.ofNat a - UInt32.ofNat b).toBitVec.toNat = (2 ^ 32 - b % 2 ^ 32 + a % 2 ^ 32) % 2 ^ 32 := by
    rw [UInt32.toNat_toBitVec, UInt32.toNat_sub, UInt32.toNat_ofNat', UInt32.toNat_ofNat']
  rw [asI32, BitVec.toInt_eq_toNat_cond, hnat]
  split <;> omega

/-- Among timers in their order, the first of the list is the first of all. -/
theorem Timer.idxOf_filter (p : Timer → Bool) {a b : Timer} (ha : p a = true) (hb : p b = true)
    (h : (Timer.all.filter p).idxOf a ≤ (Timer.all.filter p).idxOf b) :
    Timer.all.idxOf a ≤ Timer.all.idxOf b := by
  have hall : ∀ x y z : Bool, ∀ a b : Timer,
      (Timer.rec x y z a : Bool) = true → (Timer.rec x y z b : Bool) = true →
      (Timer.all.filter (Timer.rec x y z)).idxOf a ≤ (Timer.all.filter (Timer.rec x y z)).idxOf b →
      Timer.all.idxOf a ≤ Timer.all.idxOf b := by
    intro x y z a b
    cases x <;> cases y <;> cases z <;> cases a <;> cases b <;> decide
  have hp : p = Timer.rec (p .chunk) (p .ack) (p .update) := by
    funext t
    cases t <;> rfl
  rw [hp] at ha hb h
  exact hall _ _ _ a b ha hb h

namespace Core

variable {c : Core} {time : Nat} {deadline : Timer → Option Nat}

theorem Stands.isDue (h : Stands c time deadline) (t : Timer) : c.isDue t = true ↔ Reached time deadline t := by
  unfold Core.isDue Reached
  rw [h.timers t, h.now]
  cases hd : deadline t with
  | none => simp
  | some d =>
    obtain ⟨hlow, hhigh⟩ := h.near t d hd
    simp only [Option.map_some, decide_eq_true_eq]
    rw [asI32_sub hhigh hlow]
    simp

theorem Stands.deadlineKey (h : Stands c time deadline) {t : Timer} {d : Nat} (hd : deadline t = some d) :
    c.deadlineKey t = (d : Int) - time := by
  obtain ⟨hlow, hhigh⟩ := h.near t d hd
  unfold Core.deadlineKey
  rw [h.timers t, h.now, hd]
  exact asI32_sub hlow hhigh

/-- The timer that `fire_due` takes next is due, and before every other due one. -/
theorem Stands.nextDue_some (h : Stands c time deadline) {t : Timer} (hnext : c.nextDue = some t) :
    Reached time deadline t ∧ ∀ u, Reached time deadline u → u ≠ t → Before deadline t u := by
  unfold nextDue at hnext
  have hmem := List.argmin_mem hnext
  have hdue : c.isDue t = true := (List.mem_filter.mp hmem).2
  have hreached := (h.isDue t).mp hdue
  refine ⟨hreached, ?_⟩
  intro u hu hne
  obtain ⟨d, hd, -⟩ := hreached
  have hudue : c.isDue u = true := (h.isDue u).mpr hu
  obtain ⟨e, he, -⟩ := hu
  have hin : u ∈ Timer.all.filter c.isDue := List.mem_filter.mpr ⟨u.mem_all, hudue⟩
  have hle := List.le_of_mem_argmin hin hnext
  rw [h.deadlineKey hd, h.deadlineKey he] at hle
  refine ⟨d, e, hd, he, ?_⟩
  by_cases heq : d = e
  · right
    have hkey : c.deadlineKey u ≤ c.deadlineKey t := by rw [h.deadlineKey hd, h.deadlineKey he, heq]
    have hindex := List.index_of_argmin hnext hin hkey
    have horder := Timer.idxOf_filter c.isDue hdue hudue hindex
    have hne' : Timer.all.idxOf t ≠ Timer.all.idxOf u := by
      cases t <;> cases u <;> first | exact absurd rfl hne | decide
    exact ⟨heq, by omega⟩
  · left
    omega

theorem Stands.nextDue_none (h : Stands c time deadline) (hnext : c.nextDue = none) (t : Timer) :
    ¬ Reached time deadline t := by
  intro hreached
  have hin : t ∈ Timer.all.filter c.isDue := List.mem_filter.mpr ⟨t.mem_all, (h.isDue t).mpr hreached⟩
  unfold nextDue at hnext
  rw [List.argmin_eq_none.mp hnext] at hin
  cases hin

/-- A turn of the loop takes its timer out of the deadlines. -/
theorem Stands.expire (h : Stands c time deadline) (t : Timer) :
    Stands (c.expire t) time (Function.update deadline t none) where
  now := h.now
  timers u := by
    unfold Core.expire
    by_cases hu : u = t
    · subst hu
      simp
    · simp only [Function.update_of_ne hu]
      exact h.timers u
  near u d hd := by
    by_cases hu : u = t
    · subst hu
      simp at hd
    · rw [Function.update_of_ne hu] at hd
      exact h.near u d hd

/-- What the loop of `fire_due` leaves, with the timers it stopped in their order. -/
structure Fires (c : Core) (time : Nat) (deadline : Timer → Option Nat) (order : List Timer) (c' : Core) :
    Prop where
  nodup : order.Nodup
  fired : ∀ t, t ∈ order ↔ Reached time deadline t
  ordered : order.Pairwise (Before deadline)
  turns : c' = order.foldl Core.expire c
  done : c'.nextDue = none

theorem before_of_update {a b t : Timer} (h : Before (Function.update deadline t none) a b) :
    Before deadline a b := by
  obtain ⟨d, e, hd, he, hlt⟩ := h
  have hof : ∀ {u : Timer} {x : Nat}, Function.update deadline t none u = some x → deadline u = some x := by
    intro u x hx
    by_cases hu : u = t
    · subst hu
      simp at hx
    · rwa [Function.update_of_ne hu] at hx
  exact ⟨d, e, hof hd, hof he, hlt⟩

theorem reached_update {t u : Timer} :
    Reached time (Function.update deadline t none) u ↔ Reached time deadline u ∧ u ≠ t := by
  unfold Reached
  by_cases hu : u = t
  · subst hu
    simp
  · rw [Function.update_of_ne hu]
    simp [hu]

/-- Every turn stops a timer, and with as many turns as due timers none is left. -/
theorem Stands.fireDueLoop (fuel : Nat) : ∀ {c : Core} {deadline : Timer → Option Nat},
    Stands c time deadline → (Timer.all.filter c.isDue).length ≤ fuel →
    ∃ order, Fires c time deadline order (fireDueLoop fuel c) := by
  induction fuel with
  | zero =>
    intro c deadline h hfuel
    have hnone : Timer.all.filter c.isDue = [] := List.length_eq_zero_iff.mp (Nat.le_zero.mp hfuel)
    have hnext : c.nextDue = none := by
      unfold nextDue
      rw [hnone]
      rfl
    refine ⟨[], List.nodup_nil, ?_, .nil, rfl, hnext⟩
    intro t
    exact iff_of_false List.not_mem_nil (h.nextDue_none hnext t)
  | succ fuel ih =>
    intro c deadline h hfuel
    cases hnext : c.nextDue with
    | none =>
      have hloop : Core.fireDueLoop (fuel + 1) c = c := by rw [Core.fireDueLoop, hnext]
      rw [hloop]
      refine ⟨[], List.nodup_nil, ?_, .nil, rfl, hnext⟩
      intro t
      exact iff_of_false List.not_mem_nil (h.nextDue_none hnext t)
    | some t =>
      have hloop : Core.fireDueLoop (fuel + 1) c = Core.fireDueLoop fuel (c.expire t) := by
        rw [Core.fireDueLoop, hnext]
      obtain ⟨hreached, hbefore⟩ := h.nextDue_some hnext
      have hexpired := h.expire t
      have hfewer : (Timer.all.filter (c.expire t).isDue).length < (Timer.all.filter c.isDue).length := by
        have hsub : (Timer.all.filter (c.expire t).isDue).Sublist
            ((Timer.all.filter c.isDue).filter fun u => u ≠ t) := by
          rw [List.filter_filter]
          refine List.monotone_filter_right _ fun u hu => ?_
          rw [hexpired.isDue, reached_update] at hu
          simpa [(h.isDue u)] using ⟨hu.2, hu.1⟩
        refine hsub.length_le.trans_lt (List.length_filter_lt_length_iff_exists.mpr ⟨t, ?_, by simp⟩)
        exact List.mem_filter.mpr ⟨t.mem_all, (h.isDue t).mpr hreached⟩
      obtain ⟨order, hfires⟩ := ih hexpired (by omega)
      rw [hloop]
      refine ⟨t :: order, ?_, ?_, ?_, hfires.turns, hfires.done⟩
      · refine List.nodup_cons.mpr ⟨?_, hfires.nodup⟩
        intro hin
        exact (reached_update.mp ((hfires.fired t).mp hin)).2 rfl
      · intro u
        rw [List.mem_cons, hfires.fired u, reached_update]
        constructor
        · rintro (rfl | ⟨hu, -⟩)
          · exact hreached
          · exact hu
        · intro hu
          by_cases hut : u = t
          · exact .inl hut
          · exact .inr ⟨hu, hut⟩
      · refine List.pairwise_cons.mpr ⟨?_, hfires.ordered.imp before_of_update⟩
        intro u hu
        obtain ⟨hu, hne⟩ := reached_update.mp ((hfires.fired u).mp hu)
        exact hbefore u hu hne

theorem timers_expires (order : List Timer) : ∀ (c : Core) (t : Timer),
    (order.foldl Core.expire c).timers t = if t ∈ order then none else c.timers t := by
  induction order with
  | nil =>
    intro c t
    rw [if_neg List.not_mem_nil]
    rfl
  | cons u order ih =>
    intro c t
    rw [List.foldl_cons, ih]
    by_cases hin : t ∈ order
    · rw [if_pos hin, if_pos (List.mem_cons_of_mem u hin)]
    · by_cases htu : t = u
      · subst htu
        rw [if_neg hin, if_pos List.mem_cons_self]
        exact Function.update_self ..
      · rw [if_neg hin, if_neg (fun h => (List.mem_cons.mp h).elim htu hin)]
        exact Function.update_of_ne htu ..

theorem queue_expires (order : List Timer) : ∀ c : Core, (order.foldl Core.expire c).queue
    = (order.map fun t => Event.bare t.event).foldl (fun q e => (q.push e).1) c.queue := by
  induction order with
  | nil => exact fun _ => rfl
  | cons t order ih => exact fun c => ih (c.expire t)

theorem clock_expires (order : List Timer) : ∀ c : Core, (order.foldl Core.expire c).clock = c.clock := by
  induction order with
  | nil => exact fun _ => rfl
  | cons t order ih => exact fun c => ih (c.expire t)

theorem periods_expires (order : List Timer) : ∀ c : Core,
    (order.foldl Core.expire c).periods = c.periods := by
  induction order with
  | nil => exact fun _ => rfl
  | cons t order ih => exact fun c => ih (c.expire t)

/-- A running timer's deadline that no other is earlier than. -/
def Earliest (deadline : Timer → Option Nat) (d : Nat) : Prop :=
  (∃ t, deadline t = some d) ∧ ∀ t e, deadline t = some e → d ≤ e

theorem Stands.nextDeadline (h : Stands c time deadline) :
    (c.nextDeadline = none ∧ ∀ t, deadline t = none) ∨
      ∃ d, c.nextDeadline = some (UInt32.ofNat d) ∧ Earliest deadline d := by
  unfold Core.nextDeadline
  cases hmin : @List.argmin UInt32 Int Int.instLinearOrder.toPreorder _ (fun d => asI32 (d - c.now))
      (Timer.all.filterMap c.timers) with
  | none =>
    left
    refine ⟨rfl, ?_⟩
    intro t
    have hnil := List.argmin_eq_none.mp hmin
    cases hd : deadline t with
    | none => rfl
    | some d =>
      have hin : UInt32.ofNat d ∈ Timer.all.filterMap c.timers :=
        List.mem_filterMap.mpr ⟨t, t.mem_all, by rw [h.timers t, hd]; rfl⟩
      rw [hnil] at hin
      cases hin
  | some x =>
    right
    obtain ⟨t, -, ht⟩ := List.mem_filterMap.mp (List.argmin_mem hmin)
    rw [h.timers t, Option.map_eq_some_iff] at ht
    obtain ⟨d, hd, rfl⟩ := ht
    refine ⟨d, rfl, ⟨t, hd⟩, ?_⟩
    intro u e he
    have hin : UInt32.ofNat e ∈ Timer.all.filterMap c.timers :=
      List.mem_filterMap.mpr ⟨u, u.mem_all, by rw [h.timers u, he]; rfl⟩
    have hle := List.le_of_mem_argmin hin hmin
    obtain ⟨hlow, hhigh⟩ := h.near t d hd
    obtain ⟨hlow', hhigh'⟩ := h.near u e he
    rw [h.now, asI32_sub hlow hhigh, asI32_sub hlow' hhigh'] at hle
    omega

/-- The deadlines that are left. -/
def remaining (time : Nat) (deadline : Timer → Option Nat) (t : Timer) : Option Nat :=
  (deadline t).filter fun d => time < d

/-- What firing the due timers does: which stop and in which order their events are posted, that the
others are left, and what the next deadline is. -/
structure Fired (c : Core) (time : Nat) (deadline : Timer → Option Nat) (c' : Core) : Prop where
  events : ∃ order : List Timer, order.Nodup ∧ (∀ t, t ∈ order ↔ Reached time deadline t) ∧
    order.Pairwise (Before deadline) ∧ c'.queue.toList
      = (c.queue.toList ++ order.map fun t => Event.bare t.event).take eventQueueLen
  stopped : ∀ t, Reached time deadline t → c'.timers t = none
  running : ∀ t, ¬ Reached time deadline t → c'.timers t = c.timers t
  noneDue : ∀ t, c'.isDue t = false
  clock : c'.clock = c.clock
  periods : c'.periods = c.periods
  next : (c'.nextDeadline = none ∧ ∀ t, remaining time deadline t = none) ∨
    ∃ d, c'.nextDeadline = some (UInt32.ofNat d) ∧ time < d ∧ Earliest (remaining time deadline) d

theorem Stands.fireDue (h : Stands c time deadline) : Fired c time deadline c.fireDue := by
  obtain ⟨order, hfires⟩ := h.fireDueLoop Timer.all.length (List.length_filter_le _ _)
  have hturns : c.fireDue = order.foldl Core.expire c := hfires.turns
  have htimers : ∀ t, c.fireDue.timers t = if t ∈ order then none else c.timers t := by
    rw [hturns]
    exact timers_expires order c
  have hclock : c.fireDue.clock = c.clock := by
    rw [hturns]
    exact clock_expires order c
  have hleft : Stands c.fireDue time (remaining time deadline) := by
    refine ⟨(congrArg (Option.getD · 0) hclock).trans h.now, ?_, ?_⟩
    · intro t
      rw [htimers, h.timers t]
      by_cases hin : t ∈ order
      · obtain ⟨d, hd, hle⟩ := (hfires.fired t).mp hin
        rw [if_pos hin, remaining, hd]
        simp [hle]
      · rw [if_neg hin, remaining]
        cases hd : deadline t with
        | none => rfl
        | some d =>
          have hlt : time < d := by
            by_contra hnot
            exact hin ((hfires.fired t).mpr ⟨d, hd, Nat.le_of_not_lt hnot⟩)
          simp [hlt]
    · intro t d hd
      exact h.near t d (Option.filter_eq_some_iff.mp hd).1
  refine ⟨⟨order, hfires.nodup, hfires.fired, hfires.ordered, ?_⟩, ?_, ?_, ?_, hclock, ?_, ?_⟩
  · rw [hturns, queue_expires]
    exact RingQueue.toList_pushes_take _ _
  · intro t ht
    rw [htimers, if_pos ((hfires.fired t).mpr ht)]
  · intro t ht
    rw [htimers, if_neg fun hin => ht ((hfires.fired t).mp hin)]
  · intro t
    rw [Bool.eq_false_iff, Ne, hleft.isDue]
    rintro ⟨d, hd, hle⟩
    have hlt := (Option.filter_eq_some_iff.mp hd).2
    simp only [decide_eq_true_eq] at hlt
    omega
  · rw [hturns]
    exact periods_expires order c
  · rcases hleft.nextDeadline with ⟨hnone, hall⟩ | ⟨d, hnext, hearliest⟩
    · exact .inl ⟨hnone, hall⟩
    · obtain ⟨t, ht⟩ := hearliest.1
      have hlt := (Option.filter_eq_some_iff.mp ht).2
      simp only [decide_eq_true_eq] at hlt
      exact .inr ⟨d, hnext, hlt, hearliest⟩

/-- A call that moves the clock from one time to another: a delay, the time that a poll or a step is given,
which the clock may be past, and the first such time. -/
inductive Advances (c : Core) (time : Nat) : Nat → Core → Prop
  | delay (ms : UInt32) : Advances c time (time + ms.toNat) (c.delay ms)
  | given {nowMs : Nat} (hclock : c.clock.isSome = true) (hahead : nowMs < time + 2 ^ 31)
      (hbehind : time < nowMs + 2 ^ 31) :
      Advances c time (max time nowMs) (c.advanceTo (UInt32.ofNat nowMs))
  | first {nowMs : Nat} (hclock : c.clock = none) (hle : time ≤ nowMs) :
      Advances c time nowMs (c.advanceTo (UInt32.ofNat nowMs))

theorem Stands.ofClock {time' : Nat} (htimers : ∀ t, c.timers t = (deadline t).map UInt32.ofNat)
    (hnear : ∀ t d, deadline t = some d → d < time' + 2 ^ 31 ∧ time' < d + 2 ^ 31) :
    Stands { c with clock := some (UInt32.ofNat time') } time' deadline := ⟨rfl, htimers, hnear⟩

/-- The clock does not go back, and what is due by it fires. -/
theorem advance_fires {time' : Nat} {c' : Core} (hnow : c.now = UInt32.ofNat time)
    (h : Advances c time time' c') (htimers : ∀ t, c.timers t = (deadline t).map UInt32.ofNat)
    (hnear : ∀ t d, deadline t = some d → d < time' + 2 ^ 31 ∧ time' < d + 2 ^ 31) :
    time ≤ time' ∧ c'.clock = some (UInt32.ofNat time') ∧
      Fired { c with clock := some (UInt32.ofNat time') } time' deadline c' := by
  have hfired := (Stands.ofClock htimers hnear).fireDue
  have hclock : (Core.fireDue { c with clock := some (UInt32.ofNat time') }).clock
      = some (UInt32.ofNat time') := hfired.clock
  suffices hsame : time ≤ time' ∧ c' = Core.fireDue { c with clock := some (UInt32.ofNat time') } by
    obtain ⟨hle, rfl⟩ := hsame
    exact ⟨hle, hclock, hfired⟩
  cases h with
  | delay ms =>
    refine ⟨Nat.le_add_right _ _, ?_⟩
    rw [Core.delay, hnow, UInt32.ofNat_add, UInt32.ofNat_toNat]
  | first hnone hle =>
    refine ⟨hle, ?_⟩
    have hahead : c.aheadOf (UInt32.ofNat time') = false := by
      rw [Core.aheadOf, hnone]
    rw [Core.advanceTo, hahead]
    rfl
  | @given nowMs hrunning hahead hbehind =>
    refine ⟨Nat.le_max_left _ _, ?_⟩
    obtain ⟨clock, hsome⟩ := Option.isSome_iff_exists.mp hrunning
    have hclock' : clock = UInt32.ofNat time := by
      rw [Core.now, hsome] at hnow
      exact hnow
    have hold : c.aheadOf (UInt32.ofNat nowMs) = decide (nowMs < time) := by
      rw [Core.aheadOf, hsome, hclock']
      simp only [asI32_sub hahead hbehind]
      exact decide_eq_decide.mpr (by omega)
    rw [Core.advanceTo, hold]
    by_cases hlt : nowMs < time
    · rw [if_pos (decide_eq_true hlt), Nat.max_eq_left (by omega), ← hclock', ← hsome]
    · rw [if_neg (by simpa using hlt), Nat.max_eq_right (by omega)]

/-- A core whose chunk timer alone is running. -/
def withChunkTimer (clock deadline : UInt32) : Core :=
  { newCore 1 {} with clock := some clock, timers := fun t => if t = .chunk then some deadline else none }

/-- Two seconds that take the clock across its end. -/
theorem advance_fires_wrap :
    4294967280 ≤ 4294967280 + (3000 : UInt32).toNat ∧
      ((withChunkTimer 4294967280 1984).delay 3000).clock
        = some (UInt32.ofNat (4294967280 + (3000 : UInt32).toNat)) ∧
      Fired { withChunkTimer 4294967280 1984 with
          clock := some (UInt32.ofNat (4294967280 + (3000 : UInt32).toNat)) }
        (4294967280 + (3000 : UInt32).toNat) (fun t => if t = .chunk then some 4294969280 else none)
        ((withChunkTimer 4294967280 1984).delay 3000) :=
  advance_fires rfl (.delay 3000) (by intro t; cases t <;> rfl) (by
    intro t d hd
    cases t
    · cases hd
      exact ⟨by decide, by decide⟩
    · cases hd
    · cases hd)

/-- A delay of more than 2^31 ms, after which the deadline that was ten ms away is taken for one to come. -/
theorem long_delay_fires_nothing :
    (withChunkTimer 0 10).now = UInt32.ofNat 0 ∧ (withChunkTimer 0 10).timers .chunk = some (UInt32.ofNat 10) ∧
      Reached (0 + (2147483668 : UInt32).toNat) (fun t => if t = .chunk then some 10 else none) .chunk ∧
      ((withChunkTimer 0 10).delay 2147483668).timers .chunk = some 10 :=
  ⟨rfl, rfl, ⟨10, rfl, by decide⟩, by decide⟩

end Core

end Bristlemouth.Dfu
