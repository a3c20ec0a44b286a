import Bristlemouth.Bcmp.Registry
import Bristlemouth.Lib.Clock
import Bristlemouth.Wire.Util

/-!
# Service requests

`service/request.rs`: the requests a node has made and is waiting on, and the sweep that gives up on
them. The registry's sweep and this one keep their phases alike.
-/

set_option autoImplicit false

namespace Bristlemouth

def expiryPeriodMs : UInt32 := 500

structure ReplyHeader where
  targetNodeId : UInt64
  id : UInt32
  dataSize : UInt32
deriving DecidableEq

def ReplyHeader.len : Nat := 16

def ReplyHeader.decode (body : Bytes) : Except BmWireError ReplyHeader := do
  let b ← lePrefix ReplyHeader.len body
  return { targetNodeId := u64At b 0, id := u32At b 8, dataSize := u32At b 12 }

/-- A request waiting on its reply, to a service named in up to `NAME` bytes. -/
structure Request (NAME : Nat) where
  service : Bytes
  id : UInt32
  startMs : UInt32
  timeoutMs : UInt32
  service_le : service.length ≤ NAME
deriving DecidableEq

def Request.expiredAt {NAME : Nat} (request : Request NAME) (nowMs : UInt32) : Bool :=
  timeRemaining request.startMs nowMs request.timeoutMs == 0

inductive ReplyOutcome (NAME : Nat) where
  | short
  | otherTarget
  | unknown
  | answered (request : Request NAME) (data : Bytes)
deriving DecidableEq

/-- The occupied part of the array, with room for `N` requests. -/
structure Requests (N NAME : Nat) where
  list : List (Request NAME)
  requestCount : UInt32
  nextSweepMs : UInt32
deriving DecidableEq

namespace Requests

variable {N NAME : Nat}

def resuming (requestCount nextSweepMs : UInt32) : Requests N NAME :=
  { list := [], requestCount, nextSweepMs }

def new : Requests N NAME := resuming 0 expiryPeriodMs

def startedAt (nowMs : UInt32) : Requests N NAME := resuming 0 (nowMs + expiryPeriodMs)

/-- The timeout wraps to 32 bits of milliseconds. -/
def add (r : Requests N NAME) (service : Bytes) (timeoutS nowMs : UInt32) :
    Requests N NAME × Option UInt32 :=
  if h : r.list.length = N ∨ service.length > NAME then (r, none)
  else
    ({ r with
        requestCount := r.requestCount + 1
        list := r.list ++ [{ service, id := r.requestCount, startMs := nowMs,
                             timeoutMs := timeoutS * 1000, service_le := by omega }] },
      some r.requestCount)

/-- The first request with the id, and the list without it. -/
def take (r : Requests N NAME) (id : UInt32) : Option (Request NAME × Requests N NAME) := do
  let index ← r.list.findIdx? fun request => request.id = id
  let request ← r.list[index]?
  return (request, { r with list := r.list.eraseIdx index })

def onReply (r : Requests N NAME) (nodeId : UInt64) (body : Bytes) :
    Requests N NAME × ReplyOutcome NAME :=
  match ReplyHeader.decode body with
  | .error _ => (r, .short)
  | .ok header =>
    if header.targetNodeId ≠ nodeId then (r, .otherTarget)
    else
      match r.take header.id with
      | none => (r, .unknown)
      | some (request, r) =>
        -- No more of the data than arrived.
        let data := body.drop ReplyHeader.len
        (r, .answered request (data.take (min header.dataSize.toNat data.length)))

/-- The loop of the sweep: the array is compacted under the walk. -/
def sweepFrom (nowMs : UInt32) (list : List (Request NAME)) (index : Nat) :
    List (Request NAME) × List (Request NAME) :=
  if h : index < list.length then
    let request := list[index]
    if request.expiredAt nowMs then
      let (list, expired) := sweepFrom nowMs (list.eraseIdx index) index
      (list, request :: expired)
    else sweepFrom nowMs list (index + 1)
  else (list, [])
termination_by list.length - index
decreasing_by
  · rw [List.length_eraseIdx_of_lt h]
    omega
  · omega

def sweep (r : Requests N NAME) (nowMs : UInt32) : Requests N NAME × List (Request NAME) :=
  let (list, expired) := sweepFrom nowMs r.list 0
  ({ r with list }, expired)

/-- What is reported is each expired request, in list order. -/
def onTick (r : Requests N NAME) (nowMs : UInt32) : Requests N NAME × List (Request NAME) :=
  if (nowMs - r.nextSweepMs).toNat ≥ 2 ^ 31 then (r, [])
  else
    let missed := (nowMs - r.nextSweepMs) / expiryPeriodMs
    sweep { r with nextSweepMs := r.nextSweepMs + expiryPeriodMs * (missed + 1) } nowMs

/-- Every request behind the index is looked at once, whatever was removed before it. -/
theorem sweepFrom_eq (nowMs : UInt32) (done rest : List (Request NAME)) :
    sweepFrom nowMs (done ++ rest) done.length =
      (done ++ rest.filter (fun request => !request.expiredAt nowMs),
        rest.filter (·.expiredAt nowMs)) := by
  induction rest generalizing done with
  | nil =>
    rw [sweepFrom, dif_neg (by simp)]
    rfl
  | cons request rest ih =>
    have hlt : done.length < (done ++ request :: rest).length := by simp
    have hrequest : (done ++ request :: rest)[done.length] = request := by simp
    rw [sweepFrom, dif_pos hlt, hrequest]
    dsimp only
    by_cases hexpired : request.expiredAt nowMs = true
    · have herase : (done ++ request :: rest).eraseIdx done.length = done ++ rest := by
        simp [List.eraseIdx_append_of_length_le]
      rw [if_pos hexpired, herase, ih done]
      simp [hexpired]
    · have hkeep : done ++ request :: rest = (done ++ [request]) ++ rest := by simp
      have hnext := ih (done ++ [request])
      rw [List.length_append, List.length_singleton] at hnext
      rw [if_neg hexpired, hkeep, hnext]
      simp [hexpired]

theorem sweep_eq (r : Requests N NAME) (nowMs : UInt32) :
    r.sweep nowMs = ({ r with list := r.list.filter fun request => !request.expiredAt nowMs },
      r.list.filter (·.expiredAt nowMs)) := by
  have h := sweepFrom_eq nowMs [] r.list
  rw [List.nil_append, List.length_nil] at h
  rw [sweep, h]
  rfl

end Requests

/-! ### The phase of the two sweeps -/

theorem PendingRequest.expiredAt_survivor {request left : PendingRequest} {nowMs : UInt32}
    (htimeout : request.timeoutMs ≠ 0) (h : request.survivor nowMs = some left) :
    left.expiredAt nowMs = false := by
  unfold PendingRequest.survivor at h
  by_cases hlive : request.expiredAt nowMs = true
  · rw [if_neg (by simp [hlive])] at h
    split_ifs at h
    cases h
    have hnone : nowMs - nowMs = 0 := UInt32.sub_self nowMs
    simp only [PendingRequest.expiredAt, PendingRequest.retriedAt, hnone, decide_eq_false_iff_not]
    intro hle
    exact htimeout (UInt32.le_zero_iff.mp hle)
  · rw [Bool.not_eq_true] at hlive
    rw [hlive] at h
    cases h
    exact hlive

theorem Registry.sweep_unexpired {TYPES PENDING : Nat} {r : Registry TYPES PENDING} {nowMs : UInt32}
    (h : ∀ request ∈ r.pending, request.expiredAt nowMs = false) : r.sweep nowMs = (r, []) := by
  have hkept : r.pending.filterMap (·.survivor nowMs) = r.pending := by
    rw [List.filterMap_congr (g := some) fun request hr => ?_, List.filterMap_some]
    rw [PendingRequest.survivor, h request hr]
    rfl
  have hreports : r.pending.filterMap (·.report nowMs) = [] := by
    rw [List.filterMap_eq_nil_iff]
    intro request hr
    rw [PendingRequest.report, h request hr]
    rfl
  rw [Registry.sweep_eq, hkept, hreports]

def Registry.sweeper (TYPES PENDING : Nat) : Clock.Sweeper (Registry TYPES PENDING) Expiry where
  period := messageTimerExpiryPeriodMs
  next := Registry.nextSweepMs
  setNext r n := { r with nextSweepMs := n }
  sweep := Registry.sweep
  Lively r := ∀ request ∈ r.pending, request.timeoutMs ≠ 0
  period_pos := by decide
  period_le := by decide
  next_setNext _ _ := rfl
  setNext_setNext _ _ _ := rfl
  next_sweep r now := by rw [Registry.sweep_eq]
  sweep_setNext r n now := by rw [Registry.sweep_eq, Registry.sweep_eq]
  sweep_sweep r now h := by
    refine Registry.sweep_unexpired fun left hleft => ?_
    rw [Registry.sweep_eq] at hleft
    obtain ⟨request, hr, hsurvives⟩ := List.mem_filterMap.mp hleft
    exact PendingRequest.expiredAt_survivor (h request hr) hsurvives

def Requests.sweeper (N NAME : Nat) : Clock.Sweeper (Requests N NAME) (Request NAME) where
  period := expiryPeriodMs
  next := Requests.nextSweepMs
  setNext r n := { r with nextSweepMs := n }
  sweep := Requests.sweep
  Lively _ := True
  period_pos := by decide
  period_le := by decide
  next_setNext _ _ := rfl
  setNext_setNext _ _ _ := rfl
  next_sweep r now := by rw [Requests.sweep_eq]
  sweep_setNext r n now := by rw [Requests.sweep_eq, Requests.sweep_eq]
  sweep_sweep r now _ := by
    simp only [Requests.sweep_eq, List.filter_filter, Bool.and_self, Bool.and_not_self]
    simp

/-- Each of the two sweeps runs when its time has come and not before, stays on the grid of its first
phase, and once over a gap does what a sweep at every missed point would have done. -/
theorem onTick_phase (TYPES PENDING N NAME : Nat) :
    (∀ start t now (r : Registry TYPES PENDING), (Registry.sweeper TYPES PENDING).Run start r t →
      t ≤ now → now < t + 2 ^ 31 →
        (Registry.sweeper TYPES PENDING).Ticks start t now r (r.onTick (UInt32.ofNat now))) ∧
    ∀ start t now (r : Requests N NAME), (Requests.sweeper N NAME).Run start r t →
      t ≤ now → now < t + 2 ^ 31 →
        (Requests.sweeper N NAME).Ticks start t now r (r.onTick (UInt32.ofNat now)) :=
  ⟨fun _ _ _ _ h hle hlt => h.ticks hle hlt, fun _ _ _ _ h hle hlt => h.ticks hle hlt⟩

/-- A request made a tenth of a second before the clock wraps. -/
def requestAtWrap : Registry 1 1 := ⟨[], [⟨⟨4⟩, 7, 4294967196, 150, 0⟩], 8, 50⟩

def serviceRequestAtWrap : Requests 1 8 := ⟨[⟨[0x61], 3, 4294967096, 1000, by decide⟩], 4, 300⟩

/-- Behind the wrap both sweeps run once for the points they missed, and stay on their grids. -/
theorem onTick_phase_atWrap :
    (requestAtWrap.onTick 400).2 = [.retry ⟨⟨4⟩, 7, 400, 150, 1⟩] ∧
    (requestAtWrap.onTick 400).1.nextSweepMs = 500 ∧
    requestAtWrap.onTick 400 = (Registry.sweeper 1 1).everySweep 400 3 requestAtWrap ∧
    (serviceRequestAtWrap.onTick 900).2.map Request.id = [3] ∧
    (serviceRequestAtWrap.onTick 900).1.nextSweepMs = 1300 ∧
    serviceRequestAtWrap.onTick 900 = (Requests.sweeper 1 8).everySweep 900 2 serviceRequestAtWrap := by
  obtain ⟨hregistry, hrequests⟩ := onTick_phase 1 1 1 8
  have hticks := hregistry (2 ^ 32 - 100) (2 ^ 32 - 100) (2 ^ 32 + 400) requestAtWrap
    (.start requestAtWrap (by decide)) (by omega) (by omega)
  have hticks' := hrequests (2 ^ 32 - 200) (2 ^ 32 - 200) (2 ^ 32 + 900) serviceRequestAtWrap
    (.start serviceRequestAtWrap (by decide)) (by omega) (by omega)
  have hretried : (requestAtWrap.onTick 400).2 = [.retry ⟨⟨4⟩, 7, 400, 150, 1⟩] := by
    have hswept : requestAtWrap.onTick 400 = Registry.sweep _ _ := hticks.swept (by decide)
    rw [hswept, Registry.sweep_eq]
    decide
  have hexpired : (serviceRequestAtWrap.onTick 900).2.map Request.id = [3] := by
    have hswept : serviceRequestAtWrap.onTick 900 = Requests.sweep _ _ := hticks'.swept (by decide)
    rw [hswept, Requests.sweep_eq]
    decide
  exact ⟨hretried, hticks.next.trans (by decide), hticks.collapsed (List.forall_mem_singleton.mpr (by decide)),
    hexpired, hticks'.next.trans (by decide), hticks'.collapsed trivial⟩

end Bristlemouth
