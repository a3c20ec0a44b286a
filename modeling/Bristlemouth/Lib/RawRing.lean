import Bristlemouth.Lib.RingQueue

/-!
# Rings as code keeps them

A storage, a head and a count, with nothing that says they fit together: an index outside the storage, a
remainder by zero and a count below zero are panics. `Holds` is that such a ring is a `RingQueue`, and the
rule for runs lifts what one operation does to any number of them.
-/

set_option autoImplicit false

/-- Of storage that may be longer than the ring in it. -/
structure RawRing (α : Type) where
  storage : List α
  head : Nat
  count : Nat

namespace RawRing

variable {α : Type}

/-- The index `i` places behind the head. -/
def index? (r : RawRing α) (cap i : Nat) : Option Nat := if cap = 0 then none else some ((r.head + i) % cap)

def get? (r : RawRing α) (i : Nat) : Option α := r.storage[i]?

def set? (r : RawRing α) (i : Nat) (x : α) : Option (RawRing α) :=
  if i < r.storage.length then some { r with storage := r.storage.set i x } else none

/-- The `n` oldest are no longer in the ring. -/
def advance? (r : RawRing α) (cap n : Nat) : Option (RawRing α) :=
  if cap = 0 ∨ r.count < n then none
  else some { r with head := (r.head + n) % cap, count := r.count - n }

theorem set?_count (r : RawRing α) (c i : Nat) (x : α) :
    ({ r with count := c } : RawRing α).set? i x = (r.set? i x).map fun r => { r with count := c } := by
  by_cases hi : i < r.storage.length
  · rw [set?, if_pos hi, set?, if_pos hi, Option.map_some]
  · rw [set?, if_neg hi, set?, if_neg hi, Option.map_none]

theorem count_of_set? {r r' : RawRing α} {i : Nat} {x : α} (h : r.set? i x = some r') : r'.count = r.count := by
  by_cases hi : i < r.storage.length
  · rw [set?, if_pos hi] at h
    cases h
    rfl
  · rw [set?, if_neg hi] at h
    cases h

theorem mem_of_set? {r r' : RawRing α} {i : Nat} {x y : α} (h : r.set? i x = some r') (hy : y ∈ r'.storage) :
    y ∈ r.storage ∨ y = x := by
  by_cases hi : i < r.storage.length
  · rw [set?, if_pos hi] at h
    cases h
    exact List.mem_or_eq_of_mem_set hy
  · rw [set?, if_neg hi] at h
    cases h

/-- The first `cap` places of the storage are the slots of `q`, and head and count are its own. -/
structure Holds {cap : Nat} (r : RawRing α) (q : RingQueue α cap) : Prop where
  head : r.head = q.head
  count : r.count = q.len
  slots : ∀ i : Fin cap, r.storage[i.val]? = some q.slots[i]

namespace Holds

variable {cap : Nat} {r : RawRing α} {q : RingQueue α cap}

theorem index? (h : r.Holds q) (i : Nat) : r.index? cap i = some (q.index i).val := by
  have hcap := q.cap_pos
  rw [RawRing.index?, if_neg (by omega), h.head]
  rfl

theorem get? (h : r.Holds q) (i : Nat) : r.get? (q.index i).val = some (q.nth i) := h.slots (q.index i)

theorem get?_head (h : r.Holds q) : r.get? r.head = some (q.nth 0) := by
  have hindex : (q.index 0).val = q.head := Nat.mod_eq_of_lt q.head_lt
  rw [h.head, ← hindex]
  exact h.get? 0

theorem length_le (h : r.Holds q) : cap ≤ r.storage.length := by
  have hcap := q.cap_pos
  obtain ⟨hlt, -⟩ := List.getElem?_eq_some_iff.mp (h.slots ⟨cap - 1, by omega⟩)
  dsimp only at hlt
  omega

/-- A write that leaves head and count alone. -/
theorem set? (h : r.Holds q) (i : Nat) (x : α) :
    ∃ r', r.set? (q.index i).val x = some r' ∧ r'.Holds (q.setNth i x) := by
  have hlen := h.length_le
  have hlt := (q.index i).isLt
  refine ⟨_, if_pos (by omega), h.head, h.count, fun j => ?_⟩
  have hslot := h.slots j
  by_cases hij : (q.index i).val = j.val
  · have heq : q.index i = j := Fin.ext hij
    subst heq
    simp [RingQueue.setNth, List.getElem?_set_self (show (q.index i).val < r.storage.length by omega)]
  · simp [RingQueue.setNth, hij, hslot]

theorem advance? (h : r.Holds q) {n : Nat} (hn : n ≤ q.len) :
    ∃ r', r.advance? cap n = some r' ∧ r'.Holds (RingQueue.advance^[n] q) := by
  have hcap := q.cap_pos
  have hcount := h.count
  obtain ⟨hhead, hlen, hslots⟩ := q.advance_iterate n
  refine ⟨_, if_neg (by omega), ?_, ?_, ?_⟩
  · rw [hhead, h.head]
  · rw [hlen, h.count]
  · rw [hslots]
    exact h.slots

end Holds

/-- Oldest first. -/
def contents (r : RawRing α) (cap : Nat) : List α :=
  (List.range r.count).filterMap fun i => r.storage[(r.head + i) % cap]?

theorem Holds.contents {cap : Nat} {r : RawRing α} {q : RingQueue α cap} (h : r.Holds q) :
    r.contents cap = q.toList := by
  have hread : (fun i => r.storage[(r.head + i) % cap]?) = some ∘ q.nth := by
    funext i
    rw [h.head]
    exact h.slots (q.index i)
  rw [RawRing.contents, RingQueue.toList, hread, h.count, List.filterMap_eq_map]

/-- The head and the count are where they may be. -/
def InRange (r : RawRing α) (cap : Nat) : Prop := r.head < cap ∧ r.count ≤ cap

theorem Holds.inRange {cap : Nat} {r : RawRing α} {q : RingQueue α cap} (h : r.Holds q) : r.InRange cap := by
  have hhead := q.head_lt
  have hlen := q.len_le
  rw [← h.head] at hhead
  rw [← h.count] at hlen
  exact ⟨hhead, hlen⟩

/-- A storage of one element throughout is an empty ring of every capacity it has room for. -/
theorem holds_new {cap n : Nat} (x : α) (hcap : 0 < cap) (hn : cap ≤ n) :
    (⟨List.replicate n x, 0, 0⟩ : RawRing α).Holds (RingQueue.new x hcap) := by
  refine ⟨rfl, rfl, fun i => ?_⟩
  have hi : i.val < n := Nat.lt_of_lt_of_le i.isLt hn
  simp [RingQueue.new, hi]

end RawRing

/-! ### Bounded queues -/

namespace Fifo

variable {α : Type}

inductive Op (α : Type) where
  | push (x : α)
  | pop

inductive Out (α : Type) where
  | pushed (ok : Bool)
  | popped (x : Option α)

/-- A list of at most `cap` elements, oldest first. -/
def step (cap : Nat) (l : List α) : Op α → Out α × List α
  | .push x => if l.length < cap then (.pushed true, l ++ [x]) else (.pushed false, l)
  | .pop => (.popped l.head?, l.tail)

def offered : List (Op α) → List α := List.filterMap fun
  | .push x => some x
  | .pop => none

def taken : List (Out α) → List α := List.filterMap fun
  | .pushed _ => none
  | .popped x => x

end Fifo

/-! ### Runs -/

section
variable {S T Op Out : Type}

/-- The operations one after the other, as long as none of them panics. -/
def runOps (step : S → Op → Option (Out × S)) : S → List Op → Option (List Out × S)
  | s, [] => some ([], s)
  | s, op :: ops => do
    let (out, s) ← step s op
    let (outs, s) ← runOps step s ops
    return (out :: outs, s)

def runSpec (step : T → Op → Out × T) : T → List Op → List Out × T
  | t, [] => ([], t)
  | t, op :: ops =>
    let (out, t) := step t op
    let (outs, t) := runSpec step t ops
    (out :: outs, t)

/-- What each operation keeps to, a run keeps to. -/
theorem runOps_refines {step : S → Op → Option (Out × S)} {spec : T → Op → Out × T} {R : S → T → Prop}
    (hstep : ∀ s t op, R s t → ∃ s', step s op = some ((spec t op).1, s') ∧ R s' (spec t op).2)
    (ops : List Op) {s : S} {t : T} (h : R s t) :
    ∃ s', runOps step s ops = some ((runSpec spec t ops).1, s') ∧ R s' (runSpec spec t ops).2 := by
  induction ops generalizing s t with
  | nil => exact ⟨s, rfl, h⟩
  | cons op ops ih =>
    obtain ⟨x, hx, hrx⟩ := hstep s t op h
    obtain ⟨s', hs', hr⟩ := ih hrx
    refine ⟨s', ?_, hr⟩
    simp only [runOps, hx, hs', Option.bind_eq_bind, Option.bind_some]
    rfl

end

/-- What comes out and what is left are elements that were pushed, each once and in their order. -/
theorem Fifo.conserved {α : Type} (cap : Nat) (ops : List (Fifo.Op α)) (l : List α) :
    (Fifo.taken (runSpec (Fifo.step cap) l ops).1 ++ (runSpec (Fifo.step cap) l ops).2).Sublist
      (l ++ Fifo.offered ops) := by
  induction ops generalizing l with
  | nil => exact (List.append_nil l).symm ▸ List.Sublist.refl l
  | cons op ops ih =>
    cases op with
    | push x =>
      by_cases hroom : l.length < cap
      · have h := ih (l ++ [x])
        rw [List.append_assoc] at h
        simp only [runSpec, Fifo.step, if_pos hroom]
        exact h
      · have h := ih l
        simp only [runSpec, Fifo.step, if_neg hroom]
        exact h.trans ((List.sublist_cons_self x _).append_left l)
    | pop =>
      cases l with
      | nil => exact ih []
      | cons x l => exact (ih l).cons_cons x
