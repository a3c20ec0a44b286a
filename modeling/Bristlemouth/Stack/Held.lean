import Bristlemouth.Lib.Bytes
import Mathlib.Data.List.Nodup

/-!
# Held requests

`HeldRequests` of `held.rs`: the frames of tracked requests, kept for sending
again, and the queue of those a sweep has retried.
-/

set_option autoImplicit false

namespace Bristlemouth

/-- `frame[..len]` of a slot; an empty slot has no frame. -/
structure HeldRequest where
  seqNum : UInt32
  frame : Bytes
deriving DecidableEq

def HeldRequest.empty : HeldRequest := ⟨0, []⟩

structure HeldRequests where
  slots : List HeldRequest
  due : List UInt32
deriving DecidableEq

namespace HeldRequests

def new (slots : List HeldRequest) : HeldRequests := ⟨slots, []⟩

def isFrom (seqNum : UInt32) (held : HeldRequest) : Bool := held.frame ≠ [] ∧ held.seqNum = seqNum

/-- The first empty slot is taken, if there is one. -/
def fill (seqNum : UInt32) (frame : Bytes) : List HeldRequest → List HeldRequest
  | [] => []
  | held :: slots =>
    if held.frame = [] then ⟨seqNum, frame⟩ :: slots else held :: fill seqNum frame slots

/-- The first slot with the number is emptied, if there is one. -/
def vacate (seqNum : UInt32) : List HeldRequest → List HeldRequest
  | [] => []
  | held :: slots =>
    if isFrom seqNum held then { held with frame := [] } :: slots else held :: vacate seqNum slots

def hold (h : HeldRequests) (seqNum : UInt32) (frame : Bytes) : HeldRequests :=
  { h with slots := fill seqNum frame h.slots }

def undue (h : HeldRequests) (seqNum : UInt32) : HeldRequests := { h with due := h.due.erase seqNum }

def release (h : HeldRequests) (seqNum : UInt32) : HeldRequests :=
  undue { h with slots := vacate seqNum h.slots } seqNum

/-- A request already owed a re-send is not owed two. -/
def markDue (h : HeldRequests) (seqNum : UInt32) : HeldRequests :=
  if h.slots.any (isFrom seqNum) ∧ seqNum ∉ h.due ∧ h.due.length < h.slots.length then
    { h with due := h.due ++ [seqNum] }
  else h

def nextDue (h : HeldRequests) : HeldRequests × Option Bytes :=
  match h.due with
  | [] => (h, none)
  | seqNum :: _ => (h.undue seqNum, (h.slots.find? (isFrom seqNum)).map (·.frame))

end HeldRequests

/-! ### The frames held -/

def HeldRequest.entry (held : HeldRequest) : Option (UInt32 × Bytes) :=
  if held.frame = [] then none else some (held.seqNum, held.frame)

namespace HeldRequests

def entriesOf (slots : List HeldRequest) : List (UInt32 × Bytes) := slots.filterMap HeldRequest.entry

/-- The numbers with a frame, each with its frame. -/
def entries (h : HeldRequests) : List (UInt32 × Bytes) := entriesOf h.slots

theorem entriesOf_cons_empty {held : HeldRequest} {slots : List HeldRequest} (h : held.frame = []) :
    entriesOf (held :: slots) = entriesOf slots := by
  simp [entriesOf, HeldRequest.entry, h]

theorem entriesOf_cons_full {held : HeldRequest} {slots : List HeldRequest} (h : held.frame ≠ []) :
    entriesOf (held :: slots) = (held.seqNum, held.frame) :: entriesOf slots := by
  simp [entriesOf, HeldRequest.entry, h]

theorem length_fill (seqNum : UInt32) (frame : Bytes) (slots : List HeldRequest) :
    (fill seqNum frame slots).length = slots.length := by
  induction slots with
  | nil => rfl
  | cons held slots ih =>
    rw [fill]
    split
    · rfl
    · rw [List.length_cons, ih, List.length_cons]

theorem length_vacate (seqNum : UInt32) (slots : List HeldRequest) :
    (vacate seqNum slots).length = slots.length := by
  induction slots with
  | nil => rfl
  | cons held slots ih =>
    rw [vacate]
    split
    · rfl
    · rw [List.length_cons, ih, List.length_cons]

/-- While a slot is free, holding a frame adds it. -/
theorem entriesOf_fill {seqNum : UInt32} {frame : Bytes} {slots : List HeldRequest}
    (hframe : frame ≠ []) (hroom : (entriesOf slots).length < slots.length) :
    (entriesOf (fill seqNum frame slots)).Perm ((seqNum, frame) :: entriesOf slots) := by
  induction slots with
  | nil => exact absurd hroom (by simp [entriesOf])
  | cons held slots ih =>
    rw [fill]
    by_cases hempty : held.frame = []
    · rw [if_pos hempty, entriesOf_cons_full hframe, entriesOf_cons_empty hempty]
    · rw [if_neg hempty, entriesOf_cons_full hempty, entriesOf_cons_full hempty]
      rw [entriesOf_cons_full hempty, List.length_cons, List.length_cons] at hroom
      exact ((ih (by omega)).cons _).trans (List.Perm.swap _ _ _)

/-- Emptying a slot takes its number out. -/
theorem entriesOf_vacate {seqNum : UInt32} {slots : List HeldRequest}
    (hnodup : ((entriesOf slots).map Prod.fst).Nodup) :
    entriesOf (vacate seqNum slots) = (entriesOf slots).filter fun entry => entry.1 ≠ seqNum := by
  induction slots with
  | nil => rfl
  | cons held slots ih =>
    rw [vacate]
    by_cases hempty : held.frame = []
    · rw [if_neg (by simp [isFrom, hempty]), entriesOf_cons_empty hempty, entriesOf_cons_empty hempty]
      rw [entriesOf_cons_empty hempty] at hnodup
      exact ih hnodup
    · rw [entriesOf_cons_full hempty, List.map_cons, List.nodup_cons] at hnodup
      obtain ⟨habsent, hnodup⟩ := hnodup
      by_cases hseq : held.seqNum = seqNum
      · rw [if_pos (by simp [isFrom, hempty, hseq]), entriesOf_cons_empty rfl,
          entriesOf_cons_full hempty, List.filter_cons_of_neg (by simp [hseq])]
        symm
        rw [List.filter_eq_self]
        intro entry hentry
        rw [decide_eq_true_iff]
        rintro heq
        apply habsent
        rw [hseq, ← heq]
        exact List.mem_map.mpr ⟨_, hentry, rfl⟩
      · rw [if_neg (by simp [isFrom, hseq]), entriesOf_cons_full hempty, entriesOf_cons_full hempty,
          List.filter_cons_of_pos (by simp [hseq]), ih hnodup]

theorem any_isFrom {seqNum : UInt32} {slots : List HeldRequest} :
    slots.any (isFrom seqNum) = true ↔ seqNum ∈ (entriesOf slots).map Prod.fst := by
  induction slots with
  | nil => simp [entriesOf]
  | cons held slots ih =>
    rw [List.any_cons, Bool.or_eq_true, ih]
    by_cases hempty : held.frame = []
    · rw [entriesOf_cons_empty hempty]
      simp [isFrom, hempty]
    · rw [entriesOf_cons_full hempty, List.map_cons, List.mem_cons]
      simp [isFrom, hempty, eq_comm]

/-- The frame found for a number is the one held for it. -/
theorem find_isFrom {seqNum : UInt32} {frame : Bytes} {slots : List HeldRequest}
    (hnodup : ((entriesOf slots).map Prod.fst).Nodup) (hmem : (seqNum, frame) ∈ entriesOf slots) :
    (slots.find? (isFrom seqNum)).map (·.frame) = some frame := by
  induction slots with
  | nil => exact absurd hmem (by simp [entriesOf])
  | cons held slots ih =>
    by_cases hempty : held.frame = []
    · rw [entriesOf_cons_empty hempty] at hnodup hmem
      rw [List.find?_cons_of_neg (by simp [isFrom, hempty])]
      exact ih hnodup hmem
    · rw [entriesOf_cons_full hempty] at hnodup hmem
      rw [List.map_cons, List.nodup_cons] at hnodup
      obtain ⟨habsent, hnodup⟩ := hnodup
      obtain heq | hmem := List.mem_cons.mp hmem
      · cases heq
        rw [List.find?_cons_of_pos (by simp [isFrom, hempty])]
        rfl
      · have hne : held.seqNum ≠ seqNum := by
          rintro rfl
          exact habsent (List.mem_map.mpr ⟨_, hmem, rfl⟩)
        rw [List.find?_cons_of_neg (by simp [isFrom, hne])]
        exact ih hnodup hmem

/-! ### The two stores of one `HeldRequests` -/

def numbers (h : HeldRequests) : List UInt32 := h.entries.map Prod.fst

/-- No number is held or due twice, and what is due is held. -/
structure Sound (h : HeldRequests) : Prop where
  nodup : h.numbers.Nodup
  due_nodup : h.due.Nodup
  due_held : ∀ seqNum ∈ h.due, seqNum ∈ h.numbers

variable {h : HeldRequests} {seqNum : UInt32}

@[simp] theorem entries_undue (h : HeldRequests) (seqNum : UInt32) :
    (h.undue seqNum).entries = h.entries := rfl

@[simp] theorem entries_markDue (h : HeldRequests) (seqNum : UInt32) :
    (h.markDue seqNum).entries = h.entries := by
  unfold markDue
  split <;> rfl

@[simp] theorem slots_markDue (h : HeldRequests) (seqNum : UInt32) :
    (h.markDue seqNum).slots = h.slots := by
  unfold markDue
  split <;> rfl

@[simp] theorem length_slots_release (h : HeldRequests) (seqNum : UInt32) :
    (h.release seqNum).slots.length = h.slots.length := length_vacate seqNum h.slots

namespace Sound

theorem entries_release (hs : h.Sound) :
    (h.release seqNum).entries = h.entries.filter fun entry => entry.1 ≠ seqNum :=
  entriesOf_vacate hs.nodup

theorem numbers_release (hs : h.Sound) :
    (h.release seqNum).numbers = h.numbers.filter fun held => held ≠ seqNum := by
  rw [numbers, numbers, hs.entries_release, List.filter_map]
  rfl

theorem undue (hs : h.Sound) : (h.undue seqNum).Sound where
  nodup := hs.nodup
  due_nodup := hs.due_nodup.erase seqNum
  due_held := fun _ hdue => hs.due_held _ (List.mem_of_mem_erase hdue)

theorem release (hs : h.Sound) : (h.release seqNum).Sound := by
  constructor
  · rw [hs.numbers_release]
    exact hs.nodup.filter _
  · exact hs.due_nodup.erase seqNum
  · intro due hdue
    have hdue' := (List.Nodup.mem_erase_iff hs.due_nodup).mp hdue
    rw [hs.numbers_release, List.mem_filter, decide_eq_true_iff]
    exact ⟨hs.due_held due hdue'.2, hdue'.1⟩

theorem markDue (hs : h.Sound) : (h.markDue seqNum).Sound := by
  have hnumbers : (h.markDue seqNum).numbers = h.numbers := by simp [numbers]
  refine ⟨by rw [hnumbers]; exact hs.nodup, ?_, ?_⟩
  · unfold HeldRequests.markDue
    split
    · rename_i hnew
      exact hs.due_nodup.append (List.nodup_singleton _) (by simpa using hnew.2.1)
    · exact hs.due_nodup
  · intro due hdue
    rw [hnumbers]
    unfold HeldRequests.markDue at hdue
    split at hdue
    · rename_i hnew
      obtain hdue | hdue := List.mem_append.mp hdue
      · exact hs.due_held due hdue
      · rw [List.mem_singleton.mp hdue]
        exact any_isFrom.mp hnew.1
    · exact hs.due_held due hdue

theorem hold (hs : h.Sound) {frame : Bytes} (hframe : frame ≠ [])
    (hroom : h.entries.length < h.slots.length) (hnew : seqNum ∉ h.numbers) :
    (h.hold seqNum frame).Sound ∧
      (h.hold seqNum frame).entries.Perm ((seqNum, frame) :: h.entries) := by
  have hperm : (h.hold seqNum frame).entries.Perm ((seqNum, frame) :: h.entries) :=
    entriesOf_fill hframe hroom
  have hnumbers : (h.hold seqNum frame).numbers.Perm (seqNum :: h.numbers) := hperm.map Prod.fst
  refine ⟨⟨?_, hs.due_nodup, ?_⟩, hperm⟩
  · rw [hnumbers.nodup_iff]
    exact List.nodup_cons.mpr ⟨hnew, hs.nodup⟩
  · intro due hdue
    exact hnumbers.mem_iff.mpr (List.mem_cons_of_mem _ (hs.due_held due hdue))

/-- The frame handed out is the one held for the number at the front of the queue. -/
theorem nextDue (hs : h.Sound) {due : List UInt32} (hdue : h.due = seqNum :: due) :
    ∃ frame, h.nextDue = (h.undue seqNum, some frame) ∧ (seqNum, frame) ∈ h.entries := by
  have hmem : seqNum ∈ h.numbers := hs.due_held seqNum (by rw [hdue]; exact List.mem_cons_self)
  obtain ⟨⟨seqNum', frame⟩, hentry, rfl⟩ := List.mem_map.mp hmem
  refine ⟨frame, ?_, hentry⟩
  simp only [HeldRequests.nextDue, hdue]
  rw [find_isFrom hs.nodup hentry]

end Sound

theorem nextDue_nil (hdue : h.due = []) : h.nextDue = (h, none) := by
  simp only [nextDue, hdue]

end HeldRequests

end Bristlemouth
