import Bristlemouth.Dfu.ImageIntegrity

/-!
# Writes and the slot

The image offered is held against the slot, but what is written goes by the
lengths of the chunks received. A transfer stays inside the slot for as long as
its chunks do.
-/

set_option autoImplicit false

namespace Bristlemouth.Dfu

open Core

namespace Observed

section Bounds

variable {R E : Type} [Roles R] [Effects E] [HasClient R] {o : Observed R E}

/-- No write so far went past the end of the slot. -/
def StaysInside (size : UInt32) (o : Observed R E) : Prop :=
  ∀ w ∈ o.machine.fx.writes, w.offset.toNat + w.data.length ≤ size.toNat

/-- The bounds of the transfer: its writes by what it received, that by the offer, and the offer by the slot. -/
structure Within (size : UInt32) (o : Observed R E) : Prop where
  received : ∀ w ∈ o.writes, w.offset.toNat + w.data.length ≤ o.received.length
  most : o.received.length ≤ o.most
  slot : ∀ info, o.offer = some info → info.imageSize < size

/-- The offer that is gone on with fits a slot of constant size. -/
theorem Following.apply_slot (h : Following o) {size : UInt32} (hsize : ∀ e : E, (Effects.flashSize e).1 = size)
    (hslot : ∀ info, o.offer = some info → info.imageSize < size) (i : Input) :
    ∀ info, (o.apply i).offer = some info → info.imageSize < size := by
  intro info hinfo
  rcases o.apply_cases i with ⟨_, j, _, happly⟩ | ⟨nowMs, event, d₀, _, hbegin, happly⟩
  · rw [happly] at hinfo
    exact hslot info hinfo
  · have hb := Dfu.begun hbegin
    rw [happly, show (o.after event ((libSmRun d₀).withCurrent Event.none)).offer =
      (accepted o.machine.core.state (libSmRun d₀).core.state event).or o.offer from rfl, accepted] at hinfo
    split at hinfo
    · rename_i hentered
      obtain ⟨hidle, hafter⟩ := hentered
      obtain ⟨_, addresses, offered, hoffer, _, _, hfits⟩ := libSmRun_offered (hb.settling h.settling)
        (by rw [hb.state, hidle]; decide) hafter
      rw [hb.current] at hoffer
      rw [hoffer, Option.map_some, Option.some_or, Option.some.injEq] at hinfo
      rw [← hinfo]
      exact hfits.trans_eq (hsize _)
    · rw [Option.none_or] at hinfo
      exact hslot info hinfo

theorem Following.runs_slot (h : Following o) {size : UInt32} (hsize : ∀ e : E, (Effects.flashSize e).1 = size)
    (hslot : ∀ info, o.offer = some info → info.imageSize < size) (inputs : List Input) :
    ∀ info, (o.runs inputs).offer = some info → info.imageSize < size := by
  induction inputs generalizing o with
  | nil => exact hslot
  | cons i inputs ih => exact ih (h.apply i) (h.apply_slot hsize hslot i)

/-- Whatever a call wrote belongs to the transfer going on after it. -/
theorem Following.apply_writes (h : Following o) (i : Input) {w : FlashWrite} (hw : w ∈ (o.apply i).machine.fx.writes) :
    w ∈ o.machine.fx.writes ∨ w ∈ (o.apply i).writes := by
  rcases o.apply_cases i with ⟨_, j, hj, happly⟩ | ⟨nowMs, event, d₀, _, hbegin, happly⟩
  · rw [happly] at hw
    rw [(apply_still_fx o.machine hj).2] at hw
    exact .inl hw
  · have hb := Dfu.begun hbegin
    have hprefix : o.machine.fx.writes <+: (libSmRun d₀).fx.writes := by
      obtain ⟨acts, hrun, _⟩ := runState_dfuActs d₀.core.state d₀
      rw [(libSmRun_writes (hb.settling h.settling)).1, hrun.fx, ← hb.fx]
      exact Traced.prefix_writes_foldl _ acts
    have hmark : (o.after event ((libSmRun d₀).withCurrent Event.none)).mark ≤ o.machine.fx.writes.length := by
      rw [after]
      dsimp only
      split
      · exact Nat.le_refl _
      · exact h.mark
    obtain ⟨new, hnew⟩ := hprefix
    rw [happly] at hw ⊢
    rw [show (o.after event ((libSmRun d₀).withCurrent Event.none)).machine.fx.writes = o.machine.fx.writes ++ new
      from hnew.symm] at hw
    refine (List.mem_append.mp hw).imp_right fun hlate => ?_
    rw [writes, show (o.after event ((libSmRun d₀).withCurrent Event.none)).machine.fx.writes =
      o.machine.fx.writes ++ new from hnew.symm, List.drop_append_of_le_length hmark]
    exact List.mem_append_right _ hlate

theorem Following.runs_staysInside (h : Following o) {size : UInt32} (hin : o.StaysInside size) {inputs : List Input}
    (hroom : ∀ ran, ran <+: inputs → (o.runs ran).received.length ≤ size.toNat) : (o.runs inputs).StaysInside size := by
  induction inputs generalizing o with
  | nil => exact hin
  | cons i inputs ih =>
    have hnext := h.apply i
    refine ih hnext (fun w hw => ?_) fun ran hran => hroom (i :: ran) (by simpa using hran)
    rcases h.apply_writes i hw with hold | hlate
    · exact hin w hold
    · exact (hnext.bounded w hlate).trans (hroom [i] (by simp))

theorem within_runs (h : Following o) {size : UInt32} (hsize : ∀ e : E, (Effects.flashSize e).1 = size)
    (hslot : ∀ info, o.offer = some info → info.imageSize < size) (inputs : List Input) :
    Within size (o.runs inputs) where
  received := (h.runs inputs).bounded
  most := (h.runs inputs).most
  slot := h.runs_slot hsize hslot inputs

end Bounds

end Observed

section Slot

variable {E : Type} [Effects E] (selfNodeId : UInt64) (rebootInfo : RebootInfo) (fx : E)

/-- A write goes no further than the chunks received since the transfer started, and so stays inside the
slot in a run where these never come to more than it holds. -/
theorem writes_within_received {size : UInt32} (hsize : ∀ e : E, (Effects.flashSize e).1 = size) (inputs : List Input) :
    ((Observed.new selfNodeId rebootInfo Client.new fx).runs inputs).Within size ∧
      ((∀ ran, ran <+: inputs →
          ((Observed.new selfNodeId rebootInfo Client.new fx).runs ran).received.length ≤ size.toNat) →
        ((Observed.new selfNodeId rebootInfo Client.new fx).runs inputs).StaysInside size) ∧
      ((Observed.new selfNodeId rebootInfo ClientHost.new fx).runs inputs).Within size ∧
      ((∀ ran, ran <+: inputs →
          ((Observed.new selfNodeId rebootInfo ClientHost.new fx).runs ran).received.length ≤ size.toNat) →
        ((Observed.new selfNodeId rebootInfo ClientHost.new fx).runs inputs).StaysInside size) := by
  have hclient : ((Observed.new selfNodeId rebootInfo Client.new fx)).Following :=
    Observed.new_following selfNodeId rebootInfo fx List.length_replicate
  have hboth : ((Observed.new selfNodeId rebootInfo ClientHost.new fx)).Following :=
    Observed.new_following selfNodeId rebootInfo fx List.length_replicate
  refine ⟨Observed.within_runs hclient hsize (by simp [Observed.new]) inputs, fun hroom => ?_,
    Observed.within_runs hboth hsize (by simp [Observed.new]) inputs, fun hroom => ?_⟩
  · exact hclient.runs_staysInside (by simp [Observed.StaysInside, Observed.new, Dfu.new]) hroom
  · exact hboth.runs_staysInside (by simp [Observed.StaysInside, Observed.new, Dfu.new]) hroom

end Slot

/-! ### A chunk longer than the slot -/

/-- An image of one byte for a slot of two, and a chunk of three. -/
def longChunk : List Input :=
  [.step 0, .step 0, .onMessage (DfuMessage.start ⟨⟨2, 1⟩, ⟨1, 1, 0, 0, 0, 0, 1⟩⟩).toBytes, .step 0, .step 0,
    .onMessage (DfuMessage.payload ⟨⟨2, 1⟩, [1, 2, 3]⟩).toBytes, .step 0]

theorem longChunk_not_staysInside :
    ¬ ∀ inputs : List Input, ((Observed.new 1 {} Client.new (Answers.allOk 2)).runs inputs).StaysInside 2 := by
  intro h
  have hwrites : ((Observed.new 1 {} Client.new (Answers.allOk 2)).runs longChunk).machine.fx.writes.map
      (fun w => w.offset.toNat + w.data.length) = [3] := by decide +kernel
  have hin : ∀ n ∈ ((Observed.new 1 {} Client.new (Answers.allOk 2)).runs longChunk).machine.fx.writes.map
      (fun w => w.offset.toNat + w.data.length), n ≤ (2 : UInt32).toNat := by
    simpa [Observed.StaysInside] using h longChunk
  rw [hwrites] at hin
  exact absurd (hin 3 (by simp)) (by decide)

/-- The one byte that was offered. -/
def offeredChunk : List Input :=
  [.step 0, .step 0, .onMessage (DfuMessage.start ⟨⟨2, 1⟩, ⟨1, 1, 0, 0, 0, 0, 1⟩⟩).toBytes, .step 0, .step 0,
    .onMessage (DfuMessage.payload ⟨⟨2, 1⟩, [1]⟩).toBytes, .step 0]

/-- The long chunk is written as far as it was received, and the offered one stays inside the slot. -/
theorem writes_within_received_longChunk :
    ((Observed.new 1 {} Client.new (Answers.allOk 2)).runs longChunk).Within 2 ∧
    ((Observed.new 1 {} ClientHost.new (Answers.allOk 2)).runs longChunk).Within 2 ∧
    ((Observed.new 1 {} Client.new (Answers.allOk 2)).runs offeredChunk).StaysInside 2 ∧
    ((Observed.new 1 {} ClientHost.new (Answers.allOk 2)).runs offeredChunk).StaysInside 2 := by
  have hclient : ∀ n, n ≤ offeredChunk.length →
      ((Observed.new 1 {} Client.new (Answers.allOk 2)).runs (offeredChunk.take n)).received.length ≤ (2 : UInt32).toNat := by
    decide +kernel
  have hboth : ∀ n, n ≤ offeredChunk.length →
      ((Observed.new 1 {} ClientHost.new (Answers.allOk 2)).runs (offeredChunk.take n)).received.length ≤ (2 : UInt32).toNat := by
    decide +kernel
  obtain ⟨hlong, -, hlongBoth, -⟩ := writes_within_received 1 {} (Answers.allOk 2) (fun _ => rfl) longChunk
  obtain ⟨-, hstays, -, hstaysBoth⟩ := writes_within_received 1 {} (Answers.allOk 2) (fun _ => rfl) offeredChunk
  refine ⟨hlong, hlongBoth, hstays fun ran hran => ?_, hstaysBoth fun ran hran => ?_⟩
  · rw [List.prefix_iff_eq_take.mp hran]
    exact hclient ran.length hran.length_le
  · rw [List.prefix_iff_eq_take.mp hran]
    exact hboth ran.length hran.length_le

end Bristlemouth.Dfu
