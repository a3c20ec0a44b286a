import Bristlemouth.Service.SysInfo

/-!
# Power info callbacks

`Callbacks` of `service/power_info.rs`: the callbacks queued by the requests for power timings that are
waiting. Whichever of them ends dequeues the oldest callback.
-/

set_option autoImplicit false

namespace Bristlemouth.Service.PowerInfo

open Config Bristlemouth.Parser

/-- What becomes of a callback when a request ends. -/
inductive Ended where
  /-- The request was not one of these. -/
  | other
  /-- The oldest callback is dequeued and not called. -/
  | dropped (callback : UInt32)
  | called (callback : UInt32) (reply : PowerInfoReply)
deriving DecidableEq

/-- The callback that is dequeued. -/
def Ended.callback? : Ended → Option UInt32
  | .other => none
  | .dropped callback => some callback
  | .called callback _ => some callback

/-- The parts in use of two arrays of `N` ids. -/
structure Callbacks (N : Nat) where
  queue : List UInt32
  waiting : List UInt32
  length_eq : queue.length = waiting.length
  length_le : waiting.length ≤ N

namespace Callbacks

variable {N : Nat}

def new : Callbacks N := ⟨[], [], rfl, Nat.zero_le N⟩

def isWaiting (c : Callbacks N) (id : UInt32) : Bool := c.waiting.contains id

/-- The store afterwards, and whether there was room. -/
def push (c : Callbacks N) (id : UInt32) : Callbacks N × Bool :=
  if h : c.waiting.length = N then (c, false)
  else
    ({ queue := c.queue ++ [id]
       waiting := c.waiting ++ [id]
       length_eq := by
        rw [List.length_append, List.length_append, c.length_eq]
       length_le := by
        rw [List.length_append]
        exact Nat.lt_of_le_of_ne c.length_le h }, true)

/-- The oldest callback and the entry at `index` go. -/
def dequeue (c : Callbacks N) (index : Nat) (h : index < c.waiting.length) : Callbacks N where
  queue := c.queue.tail
  waiting := c.waiting.eraseIdx index
  length_eq := by
    rw [List.length_tail, List.length_eraseIdx_of_lt h, c.length_eq]
  length_le := by
    have hle := c.length_le
    rw [List.length_eraseIdx_of_lt h]
    omega

/-- Whether a dequeued callback is called: a decoder that does not come to an end calls nothing either. -/
def outcome (u : Usize) (callback : UInt32) (reply : Option Bytes) : Ended :=
  match reply with
  | none => .dropped callback
  | some data =>
    match (decodeInto u data).into ⟨0, 0, 0⟩ with
    | (d, .ok ()) => .called callback d
    | (_, .error _) => .dropped callback

/-- The request `id` ends, with this data or, when it expires, with none. -/
def onEnd (u : Usize) (c : Callbacks N) (id : UInt32) (reply : Option Bytes) : Callbacks N × Ended :=
  let index := c.waiting.findIdx fun w => w = id
  if h : index < c.waiting.length then (c.dequeue index h, outcome u (c.queue.headD 0) reply)
  else (c, .other)

theorem outcome_callback? (u : Usize) (callback : UInt32) (reply : Option Bytes) :
    (outcome u callback reply).callback? = some callback := by
  cases reply with
  | none => rfl
  | some data =>
    unfold outcome
    dsimp only
    split
    · rfl
    · rfl

theorem push_of_room {c : Callbacks N} (h : c.waiting.length < N) (id : UInt32) :
    (c.push id).2 = true ∧ (c.push id).1.queue = c.queue ++ [id] ∧
      (c.push id).1.waiting = c.waiting ++ [id] := by
  rw [push, dif_neg (Nat.ne_of_lt h)]
  exact ⟨rfl, rfl, rfl⟩

/-- Only the end of a request that waits changes anything, and it takes the oldest callback. -/
theorem onEnd_cases (u : Usize) (c : Callbacks N) (id : UInt32) (reply : Option Bytes) :
    (id ∉ c.waiting ∧ c.onEnd u id reply = (c, .other)) ∨
      ∃ first rest oldest queue, c.waiting = first ++ id :: rest ∧ c.queue = oldest :: queue ∧
        (c.onEnd u id reply).1.waiting = first ++ rest ∧ (c.onEnd u id reply).1.queue = queue ∧
        (c.onEnd u id reply).2 = outcome u oldest reply := by
  by_cases hmem : id ∈ c.waiting
  · right
    have hlt : (c.waiting.findIdx fun w => w = id) < c.waiting.length :=
      List.findIdx_lt_length_of_exists ⟨id, hmem, decide_eq_true rfl⟩
    have hget : c.waiting[c.waiting.findIdx fun w => w = id] = id := by
      have h := List.findIdx_getElem (w := hlt)
      exact of_decide_eq_true h
    have hpos : 0 < c.queue.length := by
      rw [c.length_eq]
      exact Nat.zero_lt_of_lt hlt
    obtain ⟨oldest, queue, hqueue⟩ := List.exists_cons_of_length_pos hpos
    refine ⟨c.waiting.take (c.waiting.findIdx fun w => w = id),
      c.waiting.drop ((c.waiting.findIdx fun w => w = id) + 1), oldest, queue, ?_, hqueue, ?_⟩
    · conv_lhs => rw [← List.take_append_drop (c.waiting.findIdx fun w => w = id) c.waiting]
      rw [List.drop_eq_getElem_cons hlt, hget]
    · have hdequeue : c.onEnd u id reply =
          (c.dequeue _ hlt, outcome u (c.queue.headD 0) reply) := dif_pos hlt
      rw [hdequeue, hqueue]
      refine ⟨List.eraseIdx_eq_take_drop_succ _ _, ?_, rfl⟩
      change c.queue.tail = queue
      rw [hqueue]
      rfl
  · left
    refine ⟨hmem, dif_neg ?_⟩
    intro hlt
    apply hmem
    have h := of_decide_eq_true (List.findIdx_getElem (w := hlt))
    rw [← h]
    exact List.getElem_mem hlt

end Callbacks

end Bristlemouth.Service.PowerInfo
