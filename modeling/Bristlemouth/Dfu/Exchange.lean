import Bristlemouth.Dfu.Quiet
import Bristlemouth.Dfu.Traced

/-!
# Two machines that exchange messages

A host and a client, each with an environment that keeps what it sends until it
is delivered. Messages arrive in order and none is lost; which machine moves next
is left open.
-/

set_option autoImplicit false

namespace Bristlemouth.Dfu

open Core EventQueue

/-! ### A step in which no timer fires -/

section Untimed

variable {R E : Type}

/-- A timer that fires when the machine is polled is stopped. -/
def Untimed (d : Dfu R E) (nowMs : UInt32) : Prop := (d.poll nowMs).core.timers = d.core.timers

instance (d : Dfu R E) (nowMs : UInt32) : Decidable (Untimed d nowMs) :=
  decidable_of_iff (∀ t ∈ Timer.all, (d.poll nowMs).core.timers t = d.core.timers t)
    ⟨fun h => funext fun t => h t t.mem_all, fun h t _ => congrFun h t⟩

theorem fireDueLoop_stopped (fuel : Nat) {c : Core} {t : Timer} (h : c.timers t = none) :
    (fireDueLoop fuel c).timers t = none := by
  induction fuel generalizing c with
  | zero => exact h
  | succ fuel ih =>
    rw [fireDueLoop]
    split
    · rename_i due _
      apply ih
      by_cases hdue : t = due
      · simp [expire, hdue]
      · simpa [expire, hdue] using h
    · exact h

theorem fireDue_untimed {c : Core} (h : c.fireDue.timers = c.timers) : c.nextDue = none := by
  cases hnext : c.nextDue with
  | none => rfl
  | some t =>
    have hrunning := running_of_nextDue hnext
    have hstopped : c.fireDue.timers t = none := by
      rw [fireDue, Timer.all, List.length_cons, fireDueLoop, hnext]
      exact fireDueLoop_stopped _ (by simp [expire])
    rw [h] at hstopped
    rw [hstopped] at hrunning
    cases hrunning

theorem fireDue_of_none {c : Core} (h : c.nextDue = none) : c.fireDue = c := by
  rw [fireDue, Timer.all, List.length_cons, fireDueLoop, h]

/-- Polled again, with whatever is queued by then, no timer is due either. -/
theorem poll_untimed {d : Dfu R E} {nowMs : UInt32} (h : Untimed d nowMs) :
    ∃ clock, d.poll nowMs = { d with core := { d.core with clock } } ∧
      ∀ queue, ({ d with core := { d.core with clock, queue } } : Dfu R E).poll nowMs =
        { d with core := { d.core with clock, queue } } := by
  have hpolled : (d.core.advanceTo nowMs).timers = d.core.timers := h
  cases hahead : d.core.aheadOf nowMs with
  | true =>
    rw [advanceTo, if_pos hahead] at hpolled
    have hnone := fireDue_untimed hpolled
    refine ⟨d.core.clock, ?_, fun queue => ?_⟩
    · rw [poll, advanceTo, if_pos hahead, fireDue_of_none hnone]
    · have hagain : ({ d.core with queue } : Core).aheadOf nowMs = true := hahead
      have hsame : ({ d.core with queue } : Core).nextDue = none := hnone
      rw [poll, advanceTo, if_pos hagain, fireDue_of_none hsame]
  | false =>
    rw [advanceTo, hahead, if_neg Bool.false_ne_true] at hpolled
    have hnone := fireDue_untimed hpolled
    refine ⟨some nowMs, ?_, fun queue => ?_⟩
    · rw [poll, advanceTo, hahead, if_neg Bool.false_ne_true, fireDue_of_none hnone]
    · have hagain : ({ d.core with clock := some nowMs, queue } : Core).aheadOf nowMs = false := by
        simp [aheadOf, asI32]
      have hsame : ({ d.core with clock := some nowMs, queue } : Core).nextDue = none := hnone
      rw [poll, advanceTo, hagain, if_neg Bool.false_ne_true, fireDue_of_none hsame]

theorem begin_untimed {d : Dfu R E} {nowMs : UInt32} (h : Untimed d nowMs) {event : Event} {events : List Event}
    (hqueue : d.core.queue.toList = event :: events) :
    ∃ clock queue, RingQueue.toList queue = events ∧
      d.begin nowMs = some (event, { d with core := { d.core with clock, queue, current := event } }) := by
  obtain ⟨clock, hpoll, hagain⟩ := poll_untimed h
  cases hpop : EventQueue.pop d.core.queue with
  | none =>
    rw [pop_eq_none.mp hpop] at hqueue
    cases hqueue
  | some popped =>
    obtain ⟨first, queue⟩ := popped
    have hlist := pop_eq_some hpop
    rw [hqueue] at hlist
    injection hlist with hfirst hrest
    refine ⟨clock, queue, hrest.symm, ?_⟩
    have hpop' : EventQueue.pop (d.poll nowMs).core.queue = some (first, queue) := by rw [hpoll]; exact hpop
    rw [Dfu.begin, hpop', hpoll, hfirst]
    exact congrArg (fun d : Dfu R E => some (first, d.withCurrent first)) (hagain queue)

theorem begin_untimed_none {d : Dfu R E} {nowMs : UInt32} (h : Untimed d nowMs) (hqueue : d.core.queue.toList = []) :
    d.begin nowMs = none ∧ ∃ clock, d.poll nowMs = { d with core := { d.core with clock } } := by
  obtain ⟨clock, hpoll, -⟩ := poll_untimed h
  refine ⟨?_, clock, hpoll⟩
  have hpop : EventQueue.pop (d.poll nowMs).core.queue = none := by rw [hpoll]; exact pop_eq_none.mpr hqueue
  rw [Dfu.begin, hpop]

theorem delay_untimed {c : Core} {ms : UInt32} (h : (c.delay ms).timers = c.timers) (rebootInfo : RebootInfo) :
    (c.setRebootInfo rebootInfo).delay ms = { c with rebootInfo, clock := some (c.now + ms) } := by
  have hnone : ({ c with clock := some (c.now + ms) } : Core).nextDue = none := fireDue_untimed h
  exact fireDue_of_none hnone

/-- If it is an offer that is run next, no timer fires while its slot is opened either. -/
def UntimedOffer (d : Dfu R E) (nowMs : UInt32) : Prop :=
  ∀ next ∈ d.begin nowMs, next.1.kind = .receivedUpdateRequest →
    (next.2.core.delay 10).timers = next.2.core.timers

instance (d : Dfu R E) (nowMs : UInt32) : Decidable (UntimedOffer d nowMs) :=
  decidable_of_iff (∀ next ∈ d.begin nowMs, next.1.kind = .receivedUpdateRequest →
      ∀ t ∈ Timer.all, (next.2.core.delay 10).timers t = next.2.core.timers t)
    ⟨fun h next hnext hkind => funext fun t => h next hnext hkind t t.mem_all,
      fun h next hnext hkind t _ => congrFun (h next hnext hkind) t⟩

end Untimed

/-! ### The environment -/

/-- A flash slot that does what it is asked, the image that a host has, and what was sent and is not
delivered yet. -/
structure Port where
  size : UInt32
  sha : UInt32
  image : Bytes
  out : List DfuMessage

namespace Port

/-- What lies at an offset of the host's storage, where the image follows its info. -/
def stored (p : Port) (offset : UInt32) (len : Nat) : Bytes :=
  (p.image.drop (offset.toNat - ImgInfo.len)).take len

instance : Effects Port where
  send p message := { p with out := p.out ++ [message] }
  lpmPeripheralActive p := p
  lpmPeripheralInactive p := p
  updateFinished p _ _ _ := p
  flashOpen p := (true, p)
  flashClose p := (true, p)
  flashSize p := (p.size, p)
  flashErase p _ _ := (true, p)
  flashWrite p _ _ := (true, p)
  hostGetChunk p offset len :=
    ((true, ⟨(zeroChunk len).1.copyAt 0 (p.stored offset len), by
      rw [Bytes.length_copyAt _ _ _ (by rw [(zeroChunk len).2, stored, List.length_take]; omega),
        (zeroChunk len).2]⟩), p)
  setConfirmed p := p
  setPendingAndReset p := p
  failUpdateAndReset p := p
  gitSha p := p.sha
  confirmKey p := (none, p)
  setConfirmKey p _ := p
  commitConfig p := (true, p)

end Port

section Slot

variable (fx : Traced Port)

@[simp] theorem flashOpen_port : Effects.flashOpen fx = (true, fx) := rfl

@[simp] theorem flashClose_port : Effects.flashClose fx = (true, fx) := rfl

@[simp] theorem flashSize_port : Effects.flashSize fx = (fx.inner.size, fx) := rfl

@[simp] theorem flashErase_port (offset len : UInt32) : Effects.flashErase fx offset len = (true, fx) := rfl

@[simp] theorem flashWrite_port (offset : UInt32) (data : Bytes) : Effects.flashWrite fx offset data =
    (true, { fx with writes := fx.writes ++ [⟨offset, data, true⟩] }) := rfl

end Slot

section Out

variable {R : Type}

def out (d : Dfu R (Traced Port)) : List DfuMessage := d.fx.inner.out

def withOut (d : Dfu R (Traced Port)) (out : List DfuMessage) : Dfu R (Traced Port) :=
  { d with fx := { d.fx with inner := { d.fx.inner with out } } }

end Out

/-! ### The exchange -/

structure Exchange (R : Type) where
  host : Dfu ClientHost (Traced Port)
  client : Dfu R (Traced Port)
  /-- History only: how many events were run and how many messages delivered. -/
  done : Nat

inductive Move where
  | hostStep (nowMs : UInt32)
  | clientStep (nowMs : UInt32)
  /-- The oldest message that was sent to the client arrives. -/
  | toClient
  | toHost

/-- The moves that may be made at a time. -/
def Move.all (nowMs : UInt32) : List Move := [.hostStep nowMs, .clientStep nowMs, .toClient, .toHost]

namespace Exchange

variable {R : Type}

/-- What has still to be run or to arrive. -/
def load (x : Exchange R) : Nat :=
  x.host.core.queue.toList.length + x.client.core.queue.toList.length + 2 * (x.host.out.length + x.client.out.length)

variable [Roles R]

/-- The transfer is over when the client has got to validating it. What comes after that is not followed. -/
def finished (x : Exchange R) : Bool := decide (x.client.core.state = .clientValidating)

def move (x : Exchange R) : Move → Exchange R
  | .hostStep nowMs =>
    { x with host := (x.host.step nowMs).2, done := x.done + (x.host.step nowMs).1.toList.length }
  | .clientStep nowMs =>
    { x with client := (x.client.step nowMs).2, done := x.done + (x.client.step nowMs).1.toList.length }
  | .toClient =>
    match x.host.out with
    | [] => x
    | message :: rest => ⟨x.host.withOut rest, (x.client.onMessage message.toBytes).2, x.done + 1⟩
  | .toHost =>
    match x.client.out with
    | [] => x
    | message :: rest => ⟨(x.host.onMessage message.toBytes).2, x.client.withOut rest, x.done + 1⟩

def apply (x : Exchange R) (m : Move) : Exchange R := if x.finished then x else x.move m

def runs (x : Exchange R) (moves : List Move) : Exchange R := moves.foldl apply x

/-- No timer fires in the move. -/
def Timely (x : Exchange R) : Move → Prop
  | .hostStep nowMs => Untimed x.host nowMs
  | .clientStep nowMs => Untimed x.client nowMs ∧ UntimedOffer x.client nowMs
  | _ => True

/-- No timer fires in the run. -/
def TimelyRun : Exchange R → List Move → Prop
  | _, [] => True
  | x, m :: moves => (x.finished = false → x.Timely m) ∧ TimelyRun (x.apply m) moves

instance (x : Exchange R) (m : Move) : Decidable (x.Timely m) :=
  match m with
  | .hostStep nowMs => inferInstanceAs (Decidable (Untimed x.host nowMs))
  | .clientStep nowMs => inferInstanceAs (Decidable (Untimed x.client nowMs ∧ UntimedOffer x.client nowMs))
  | .toClient => isTrue trivial
  | .toHost => isTrue trivial

def decTimelyRun : (x : Exchange R) → (moves : List Move) → Decidable (TimelyRun x moves)
  | _, [] => isTrue trivial
  | x, m :: moves =>
    haveI := decTimelyRun (x.apply m) moves
    inferInstanceAs (Decidable ((x.finished = false → x.Timely m) ∧ TimelyRun (x.apply m) moves))

instance (x : Exchange R) (moves : List Move) : Decidable (TimelyRun x moves) := decTimelyRun x moves

end Exchange

end Bristlemouth.Dfu
