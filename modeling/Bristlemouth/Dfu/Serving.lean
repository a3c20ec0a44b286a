import Bristlemouth.Dfu.PendingChange
import Mathlib.Data.List.Forall2

/-!
# The host at work

An environment that keeps a record of the image reads and of the chunks sent, and an observer that
follows an update from the moment the host begins it.
-/

set_option autoImplicit false

namespace Bristlemouth.Dfu

open Core EventQueue

/-- One call of `host_get_chunk`: what it was asked for, the buffer afterwards, its answer. -/
structure ChunkRead where
  offset : UInt32
  data : Bytes
  ok : Bool

/-- Every call goes through to the environment. -/
structure Logged (E : Type) where
  inner : E
  reads : List ChunkRead
  chunks : List Bytes

namespace Logged

def chunkOf : DfuMessage → List Bytes
  | .payload chunk => [chunk.payload]
  | _ => []

instance {E : Type} [Effects E] : Effects (Logged E) where
  send e message := { e with inner := Effects.send e.inner message, chunks := e.chunks ++ chunkOf message }
  lpmPeripheralActive e := { e with inner := Effects.lpmPeripheralActive e.inner }
  lpmPeripheralInactive e := { e with inner := Effects.lpmPeripheralInactive e.inner }
  updateFinished e success err nodeId := { e with inner := Effects.updateFinished e.inner success err nodeId }
  flashOpen e := ((Effects.flashOpen e.inner).1, { e with inner := (Effects.flashOpen e.inner).2 })
  flashClose e := ((Effects.flashClose e.inner).1, { e with inner := (Effects.flashClose e.inner).2 })
  flashSize e := ((Effects.flashSize e.inner).1, { e with inner := (Effects.flashSize e.inner).2 })
  flashErase e offset len :=
    ((Effects.flashErase e.inner offset len).1, { e with inner := (Effects.flashErase e.inner offset len).2 })
  flashWrite e offset data :=
    ((Effects.flashWrite e.inner offset data).1, { e with inner := (Effects.flashWrite e.inner offset data).2 })
  hostGetChunk e offset len :=
    let got := Effects.hostGetChunk e.inner offset len
    (got.1, { e with inner := got.2, reads := e.reads ++ [⟨offset, got.1.2.1, got.1.1⟩] })
  setConfirmed e := { e with inner := Effects.setConfirmed e.inner }
  setPendingAndReset e := { e with inner := Effects.setPendingAndReset e.inner }
  failUpdateAndReset e := { e with inner := Effects.failUpdateAndReset e.inner }
  gitSha e := Effects.gitSha e.inner
  confirmKey e := ((Effects.confirmKey e.inner).1, { e with inner := (Effects.confirmKey e.inner).2 })
  setConfirmKey e value := { e with inner := Effects.setConfirmKey e.inner value }
  commitConfig e := ((Effects.commitConfig e.inner).1, { e with inner := (Effects.commitConfig e.inner).2 })

end Logged

/-- What a caller does to a node that may be a host. -/
inductive HostInput where
  | call (i : Input)
  | queueData (data : Bytes)

/-- A machine with the history of the update its host is at. -/
structure Serving (E : Type) where
  machine : Dfu ClientHost (Logged E)
  /-- The images of the accepted calls of `initiate_update`. -/
  accepted : List ImgInfo
  /-- How many reads and chunks there were before the update began. -/
  marks : Nat × Nat
  /-- The bytes `queue_data` took since then. -/
  queued : Bytes
  /-- What chunk requests took out of the stream buffer since then. -/
  taken : List Bytes

namespace Serving

variable {E : Type} [Effects E]

def reads (o : Serving E) : List ChunkRead := o.machine.fx.reads.drop o.marks.1

def chunks (o : Serving E) : List Bytes := o.machine.fx.chunks.drop o.marks.2

/-- A chunk request that the host is to answer. -/
def asks (state : State) (event : Event) : Bool :=
  state = .hostUpdate && event.kind = .chunkRequest && event.body.isSome

def chunkLen (h : Host) : Nat := min h.nextChunkLen.toNat dfuMaxChunkSize

def takenBy (d : Dfu ClientHost (Logged E)) : Input → Option Bytes
  | .step nowMs =>
    match d.begin nowMs with
    | none => none
    | some (event, _) =>
      if asks d.core.state event ∧ d.core.internal = false then
        (d.roles.host.stream.bind (StreamBuffer.receive · (chunkLen d.roles.host))).map Prod.fst
      else none
  | _ => none

def acceptedBy (d : Dfu ClientHost (Logged E)) : Input → Option ImgInfo
  | .initiateUpdate info dst notify timeoutMs internal =>
    if (d.initiateUpdate info dst notify timeoutMs internal).1 then some info else none
  | _ => none

/-- The history with one more call, which left the machine as given. -/
def after (o : Serving E) (i : Input) (machine : Dfu ClientHost (Logged E)) : Serving E :=
  let accepted := o.accepted ++ (acceptedBy o.machine i).toList
  if machine.core.state = .hostReqUpdate ∧ o.machine.core.state ≠ .hostReqUpdate then
    ⟨machine, accepted, (machine.fx.reads.length, machine.fx.chunks.length), [], []⟩
  else ⟨machine, accepted, o.marks, o.queued, o.taken ++ (takenBy o.machine i).toList⟩

def apply (o : Serving E) : HostInput → Serving E
  | .call i => o.after i (o.machine.apply i)
  | .queueData data =>
    let queued := o.machine.roles.host.queueData data
    { o with
      machine := { o.machine with roles := { o.machine.roles with host := queued.2 } }
      queued := if queued.1 then o.queued ++ data else o.queued }

def new (selfNodeId : UInt64) (rebootInfo : RebootInfo) (fx : E) : Serving E :=
  ⟨Dfu.new selfNodeId rebootInfo ClientHost.new ⟨fx, [], []⟩, [], (0, 0), [], []⟩

def runs (o : Serving E) (inputs : List HostInput) : Serving E := inputs.foldl apply o

end Serving

/-! ### What goes into the queue -/

namespace EventQueue

/-- More events at the end, all of them bare. -/
def GrowsBare (q q' : EventQueue) : Prop := ∃ es, q'.toList = q.toList ++ es ∧ ∀ e ∈ es, e.data = .none

theorem GrowsBare.refl (q : EventQueue) : GrowsBare q q := ⟨[], (List.append_nil _).symm, nofun⟩

theorem GrowsBare.trans {a b c : EventQueue} (h : GrowsBare a b) (h' : GrowsBare b c) : GrowsBare a c := by
  obtain ⟨xs, hxs, hx⟩ := h
  obtain ⟨ys, hys, hy⟩ := h'
  refine ⟨xs ++ ys, by rw [hys, hxs, List.append_assoc], ?_⟩
  intro e he
  rcases List.mem_append.mp he with he | he
  · exact hx e he
  · exact hy e he

theorem growsBare_push (q : EventQueue) (kind : EventType) : GrowsBare q (q.push (Event.bare kind)).1 := by
  refine ⟨_, push_toList q _, ?_⟩
  intro e he
  split at he
  · rw [List.mem_singleton.mp he]
    rfl
  · cases he

end EventQueue

theorem growsBare_fireDueLoop (fuel : Nat) (c : Core) : GrowsBare c.queue (fireDueLoop fuel c).queue := by
  induction fuel generalizing c with
  | zero => exact .refl _
  | succ fuel ih =>
    rw [fireDueLoop]
    split
    · rename_i timer _
      exact (growsBare_push c.queue timer.event).trans (ih (c.expire timer))
    · exact .refl _

theorem growsBare_advanceTo (c : Core) (nowMs : UInt32) : GrowsBare c.queue (c.advanceTo nowMs).queue := by
  rw [advanceTo]
  split
  · exact growsBare_fireDueLoop _ c
  · exact growsBare_fireDueLoop _ { c with clock := some nowMs }

theorem growsBare_onCore (c : Core) {a : Act} (h : a.isPost = false) : GrowsBare c.queue (a.onCore c).queue := by
  cases a with
  | delay ms => exact growsBare_fireDueLoop _ { c with clock := some (c.now + ms) }
  | setPendingStateChange state => exact growsBare_push c.queue .none
  | post event => cases h
  | _ => exact .refl _

theorem growsBare_foldl (c : Core) {acts : List Act} (h : acts.countP Act.isPost = 0) :
    GrowsBare c.queue (acts.foldl Act.onCore c).queue := by
  induction acts generalizing c with
  | nil => exact .refl _
  | cons a acts ih =>
    rw [List.countP_eq_zero] at h
    have ha : a.isPost = false := Bool.eq_false_of_not_eq_true (h a List.mem_cons_self)
    refine (growsBare_onCore c ha).trans (ih (a.onCore c) ?_)
    exact List.countP_eq_zero.mpr fun b hb => h b (List.mem_cons_of_mem a hb)

section Machine

variable {E : Type} [Effects E]

theorem growsBare_libSmRun (d : Dfu ClientHost E) : GrowsBare d.core.queue (libSmRun d).core.queue := by
  obtain ⟨acts, hrun, hacts, -⟩ := runState_dfuActs d.core.state d
  obtain ⟨notify, clientNodeId, hcore⟩ := hrun.core
  have hgrows := growsBare_foldl { d.core with notify, clientNodeId } (RunActs.quiet_or hacts)
  rw [← hcore] at hgrows
  cases hpending : (runState d.core.state d).core.pending with
  | none =>
    rw [libSmRun_of_none hpending]
    exact hgrows
  | some next =>
    by_cases hnext : next = d.core.state
    · rw [libSmRun_of_self (hnext ▸ hpending)]
      exact hgrows
    · obtain ⟨entered, henter, hentry, -⟩ := enterState_dfuActs next (leave d next)
      have hentered := growsBare_foldl (leave d next).core hentry.quiet
      rw [libSmRun_of_some hpending hnext, henter.core]
      have hqueue : (leave d next).core.queue = (runState d.core.state d).core.queue := by rw [leave_core]
      rw [hqueue] at hentered
      exact hgrows.trans hentered

omit [Effects E] in
/-- The event that is run was queued, or is bare; what is queued behind it was, or is bare. -/
theorem begin_queue {d d₀ : Dfu ClientHost E} {nowMs : UInt32} {event : Event}
    (h : d.begin nowMs = some (event, d₀)) :
    ∀ e ∈ event :: d₀.core.queue.toList, e ∈ d.core.queue.toList ∨ e.data = .none := by
  rw [begin] at h
  split at h
  · cases h
  · rename_i first queue hpop
    cases h
    obtain ⟨xs, hxs, hx⟩ := growsBare_advanceTo d.core nowMs
    obtain ⟨ys, hys, hy⟩ := growsBare_advanceTo ((d.poll nowMs).withQueue queue).core nowMs
    have hlist : (d.core.advanceTo nowMs).queue.toList = event :: queue.toList := pop_eq_some hpop
    intro e he
    have hsplit : e ∈ (event :: queue.toList) ++ ys := by
      rw [List.cons_append]
      rcases List.mem_cons.mp he with rfl | he
      · exact List.mem_cons_self
      · exact List.mem_cons_of_mem _ (hys ▸ he)
    rcases List.mem_append.mp hsplit with he | he
    · rw [← hlist, hxs] at he
      rcases List.mem_append.mp he with he | he
      · exact .inl he
      · exact .inr (hx e he)
    · exact .inr (hy e he)

end Machine

/-! ### What is served -/

/-- Offset and length of the first `n` reads of an image of `total` bytes in chunks of `size`. -/
def schedule (size total n : Nat) : List (UInt32 × Nat) :=
  (List.range n).map fun i => (UInt32.ofNat (ImgInfo.len + min (i * size) total), min size (total - i * size))

/-- An image that is read where the host keeps it. -/
structure ServesImage (info : ImgInfo) (bytesRemaining : UInt32) (reads : List ChunkRead) (chunks : List Bytes) :
    Prop where
  asked : reads.map (fun r => (r.offset, r.data.length)) =
    schedule info.chunkSize.toNat info.imageSize.toNat reads.length
  ok : ∀ r ∈ reads, r.ok = true
  sent : chunks = reads.map ChunkRead.data
  remaining : bytesRemaining.toNat = info.imageSize.toNat - reads.length * info.chunkSize.toNat
  consumed : bytesRemaining.toNat + (reads.map fun r => r.data.length).sum = info.imageSize.toNat

/-- An image that the application feeds. A chunk may be longer than what was taken for it. -/
structure ServesStream (info : ImgInfo) (bytesRemaining : UInt32) (stream : Option StreamBuffer) (queued : Bytes)
    (taken chunks : List Bytes) : Prop where
  order : 1 ≤ info.chunkSize.toNat → ∃ s, stream = some s ∧ queued = taken.flatten ++ s.contents
  sent : List.Forall₂ (· <+: ·) taken chunks
  remaining : bytesRemaining.toNat + taken.flatten.length = info.imageSize.toNat

theorem toNat_nextChunkLen (h : Host) :
    h.nextChunkLen.toNat = min h.bytesRemaining.toNat h.imgInfo.chunkSize.toNat := by
  have hsize : h.imgInfo.chunkSize.toUInt32.toNat = h.imgInfo.chunkSize.toNat := UInt16.toNat_toUInt32 _
  rw [Host.nextChunkLen, ← hsize]
  change (if h.bytesRemaining ≤ h.imgInfo.chunkSize.toUInt32 then _ else _ : UInt32).toNat = _
  split
  · rename_i hle
    exact (Nat.min_eq_left (UInt32.le_iff_toNat_le.mp hle)).symm
  · rename_i hle
    rw [UInt32.le_iff_toNat_le] at hle
    exact (Nat.min_eq_right (by omega)).symm

theorem chunkLen_eq {h : Host} (hsize : h.imgInfo.chunkSize.toNat ≤ dfuMaxChunkSize) :
    Serving.chunkLen h = min h.bytesRemaining.toNat h.imgInfo.chunkSize.toNat := by
  rw [Serving.chunkLen, toNat_nextChunkLen]
  omega

theorem toNat_sub_ofNat {a : UInt32} {n : Nat} (h : n ≤ a.toNat) : (a - UInt32.ofNat n).toNat = a.toNat - n := by
  have hlt := a.toNat_lt
  have hn : (UInt32.ofNat n).toNat = n := by
    rw [UInt32.toNat_ofNat']
    exact Nat.mod_eq_of_lt (by omega)
  rw [UInt32.toNat_sub_of_le _ _ (UInt32.le_iff_toNat_le.mpr (by omega)), hn]

/-- The offset is what is left, counted from the end of the image. -/
theorem offset_eq {imageSize bytesRemaining : UInt32} {n size : Nat}
    (h : bytesRemaining.toNat = imageSize.toNat - n * size) :
    UInt32.ofNat ImgInfo.len + imageSize - bytesRemaining =
      UInt32.ofNat (ImgInfo.len + min (n * size) imageSize.toNat) := by
  have himage : imageSize = bytesRemaining + UInt32.ofNat (min (n * size) imageSize.toNat) := by
    rw [← UInt32.toNat_inj, UInt32.toNat_add, UInt32.toNat_ofNat', Nat.add_mod_mod, h]
    have hlt := imageSize.toNat_lt
    rw [Nat.mod_eq_of_lt (by omega)]
    omega
  have hcancel : ∀ a b c : UInt32, a + (b + c) - b = a + c := by
    intro a b c
    rw [UInt32.add_comm b c, ← UInt32.add_assoc, UInt32.add_sub_cancel]
  rw [UInt32.ofNat_add]
  conv_lhs => rw [himage]
  exact hcancel _ _ _

theorem schedule_succ (size total n : Nat) : schedule size total (n + 1) =
    schedule size total n ++ [(UInt32.ofNat (ImgInfo.len + min (n * size) total), min size (total - n * size))] := by
  rw [schedule, List.range_succ, List.map_append]
  rfl

theorem ServesImage.next {info : ImgInfo} {bytesRemaining : UInt32} {reads : List ChunkRead} {chunks : List Bytes}
    (h : ServesImage info bytesRemaining reads chunks) {r : ChunkRead} (hok : r.ok = true)
    (hoffset : r.offset = UInt32.ofNat ImgInfo.len + info.imageSize - bytesRemaining)
    (hlen : r.data.length = min bytesRemaining.toNat info.chunkSize.toNat) :
    ServesImage info (bytesRemaining - UInt32.ofNat r.data.length) (reads ++ [r]) (chunks ++ [r.data]) := by
  have hremaining := h.remaining
  refine ⟨?_, ?_, ?_, ?_, ?_⟩
  · have hoffset := hoffset.trans (offset_eq hremaining)
    have hlength : r.data.length =
        min info.chunkSize.toNat (info.imageSize.toNat - reads.length * info.chunkSize.toNat) := by
      rw [hlen, hremaining, Nat.min_comm]
    rw [List.map_append, h.asked, List.length_append, List.length_singleton, schedule_succ, ← hoffset, ← hlength]
    rfl
  · intro x hx
    rcases List.mem_append.mp hx with hx | hx
    · exact h.ok x hx
    · rw [List.mem_singleton.mp hx]
      exact hok
  · rw [List.map_append, ← h.sent]
    rfl
  · rw [toNat_sub_ofNat (by omega), hlen, List.length_append, List.length_singleton, Nat.add_mul, Nat.one_mul]
    omega
  · have hconsumed := h.consumed
    rw [toNat_sub_ofNat (by omega), List.map_append, List.sum_append, List.map_singleton, List.sum_singleton]
    omega

/-- No offset is past the end of 32 bits where the image ends before it. -/
theorem ServesImage.toNat_offset {info : ImgInfo} {bytesRemaining : UInt32} {reads : List ChunkRead}
    {chunks : List Bytes} (h : ServesImage info bytesRemaining reads chunks)
    (hfits : ImgInfo.len + info.imageSize.toNat ≤ 2 ^ 32) {i : Nat} {r : ChunkRead} (hr : reads[i]? = some r)
    (hdata : r.data ≠ []) : r.offset.toNat = ImgInfo.len + i * info.chunkSize.toNat := by
  obtain ⟨hi, -⟩ := List.getElem?_eq_some_iff.mp hr
  have hasked := congrArg (fun l : List (UInt32 × Nat) => l[i]?) h.asked
  simp only [schedule, List.getElem?_map, hr, Option.map_some, List.getElem?_range hi, Option.some.injEq,
    Prod.mk.injEq] at hasked
  obtain ⟨hoffset, hlen⟩ := hasked
  have hpos := List.length_pos_iff.mpr hdata
  rw [hoffset, UInt32.toNat_ofNat', Nat.mod_eq_of_lt (by omega)]
  omega

theorem ServesStream.next {info : ImgInfo} {bytesRemaining : UInt32} {s s' : StreamBuffer} {queued : Bytes}
    {taken chunks : List Bytes} (h : ServesStream info bytesRemaining (some s) queued taken chunks) {len : Nat}
    {bytes chunk : Bytes} (hreceive : s.receive len = some (bytes, s')) (hlen : len ≤ bytesRemaining.toNat)
    (hchunk : bytes <+: chunk) :
    ServesStream info (bytesRemaining - UInt32.ofNat bytes.length) (some s') queued (taken ++ [bytes])
      (chunks ++ [chunk]) := by
  obtain ⟨hcontents, hlength⟩ := StreamBuffer.contents_receive hreceive
  have hremaining := h.remaining
  refine ⟨fun hsize => ?_, ?_, ?_⟩
  · obtain ⟨s₀, hs, hqueued⟩ := h.order hsize
    cases hs
    refine ⟨s', rfl, ?_⟩
    rw [hqueued, hcontents, List.flatten_append, List.flatten_singleton, List.append_assoc]
  · exact List.rel_append h.sent (.cons hchunk .nil)
  · rw [toNat_sub_ofNat (by omega), List.flatten_append, List.flatten_singleton, List.length_append]
    omega

/-! ### The host's states -/

namespace Host

section Runs

variable {E : Type} [Effects E] (d : Dfu Host (Logged E))

/-- Nothing was served. -/
structure Unserved (d d' : Dfu Host (Logged E)) : Prop where
  imgInfo : d'.roles.imgInfo = d.roles.imgInfo
  bytesRemaining : d'.roles.bytesRemaining = d.roles.bytesRemaining
  stream : d'.roles.stream = d.roles.stream
  reads : d'.fx.reads = d.fx.reads
  chunks : d'.fx.chunks = d.fx.chunks

omit [Effects E] in
theorem Unserved.refl : Unserved d d := ⟨rfl, rfl, rfl, rfl, rfl⟩

omit [Effects E] in
theorem transitionToError_unserved (err : DfuErr) : Unserved d (transitionToError d err) := ⟨rfl, rfl, rfl, rfl, rfl⟩

omit [Effects E] in
theorem onAbort_unserved : Unserved d (onAbort d) := by
  rw [onAbort]
  split
  · exact .refl d
  · exact transitionToError_unserved d _

theorem send_unserved {message : DfuMessage} (h : Logged.chunkOf message = []) : Unserved d (d.send message) := by
  refine ⟨rfl, rfl, rfl, rfl, ?_⟩
  change d.fx.chunks ++ Logged.chunkOf message = d.fx.chunks
  rw [h, List.append_nil]

theorem reqUpdateRun_unserved : Unserved d (reqUpdateRun d) := by
  rw [reqUpdateRun]
  split
  · dsimp only
    split
    · exact ⟨rfl, rfl, rfl, rfl, rfl⟩
    · split
      · exact ⟨rfl, rfl, rfl, rfl, rfl⟩
      · exact ⟨rfl, rfl, rfl, rfl, rfl⟩
  · dsimp only
    split
    · exact ⟨rfl, rfl, rfl, rfl, rfl⟩
    · exact ⟨rfl, rfl, rfl, rfl, List.append_nil _⟩
  · exact onAbort_unserved d
  · exact .refl d

/-- Only a chunk request is served. -/
theorem updateRun_cases : Serving.asks .hostUpdate d.core.current = true ∧ updateRun d = sendChunk d ∨
    Serving.asks .hostUpdate d.core.current = false ∧ Unserved d (updateRun d) := by
  rw [updateRun]
  split
  · rename_i hkind
    split
    · rename_i hbody
      refine .inl ⟨?_, rfl⟩
      rw [Serving.asks, hkind, hbody]
      rfl
    · rename_i hbody
      refine .inr ⟨?_, .refl d⟩
      rw [Serving.asks, Bool.eq_false_of_not_eq_true hbody, Bool.and_false]
  · rename_i hkind
    refine .inr ⟨?_, send_unserved d rfl⟩
    rw [Serving.asks, hkind]
    rfl
  · rename_i hkind
    refine .inr ⟨?_, ?_⟩
    · rw [Serving.asks, hkind]
      rfl
    · split
      · exact send_unserved d rfl
      · exact .refl d
  · rename_i hkind
    refine .inr ⟨?_, ?_⟩
    · rw [Serving.asks, hkind]
      rfl
    · dsimp only
      split
      · exact ⟨rfl, rfl, rfl, rfl, rfl⟩
      · split
        · exact ⟨rfl, rfl, rfl, rfl, rfl⟩
        · exact ⟨rfl, rfl, rfl, rfl, rfl⟩
  · rename_i hkind
    refine .inr ⟨?_, onAbort_unserved d⟩
    rw [Serving.asks, hkind]
    rfl
  · rename_i hkind _ _ _ _
    refine .inr ⟨?_, .refl d⟩
    rw [Serving.asks, decide_eq_false hkind]
    rfl

omit [Effects E] in
theorem transitionToError_asks (err : DfuErr) :
    (transitionToError d err).roles = d.roles ∧ (transitionToError d err).fx = d.fx ∧
      (transitionToError d err).core.pending = some .error ∧ (transitionToError d err).core.error = err :=
  ⟨rfl, rfl, rfl, rfl⟩

/-- A failed read consumes nothing and sends nothing. -/
theorem sendChunk_fails (h : (readChunk d (Serving.chunkLen d.roles)).1 = none) :
    (sendChunk d).roles = d.roles ∧ (sendChunk d).fx.chunks = d.fx.chunks ∧
      (sendChunk d).core.pending = some .error ∧ (sendChunk d).core.error = .flashAccess := by
  have hroles : (readChunk d (Serving.chunkLen d.roles)).2.2.roles = d.roles ∧
      (readChunk d (Serving.chunkLen d.roles)).2.2.fx.chunks = d.fx.chunks := by
    rw [readChunk] at h ⊢
    split
    · exact ⟨rfl, rfl⟩
    · rename_i hstream
      rw [if_neg hstream] at h
      split
      · exact ⟨rfl, rfl⟩
      · rename_i hsome
        rw [hsome] at h
        cases h
  have hsend : sendChunk d = transitionToError (readChunk d (Serving.chunkLen d.roles)).2.2 .flashAccess := by
    rw [Serving.chunkLen] at h ⊢
    simp only [sendChunk, h]
  obtain ⟨hkept, hfx, hpending, herror⟩ :=
    transitionToError_asks (readChunk d (Serving.chunkLen d.roles)).2.2 .flashAccess
  rw [hsend, hkept, hfx, hpending, herror]
  exact ⟨hroles.1, hroles.2, rfl, rfl⟩

theorem sendChunk_reads {read : Nat} {chunk : Bytes} {d' : Dfu Host (Logged E)}
    (h : readChunk d (Serving.chunkLen d.roles) = (some read, chunk, d')) :
    sendChunk d = { d'.send (.payload ⟨toClient d', chunk⟩) with
      roles := { d'.roles with bytesRemaining := d'.roles.bytesRemaining - UInt32.ofNat read } } := by
  rw [Serving.chunkLen] at h
  simp only [sendChunk, h]
  rfl

/-- The image is asked for the next chunk, and the chunk is sent. -/
theorem sendChunk_image (hinternal : d.core.internal = true) :
    (readChunk d (Serving.chunkLen d.roles)).1 = none ∨
      ∃ r : ChunkRead, r.ok = true ∧ r.data.length = Serving.chunkLen d.roles ∧
        r.offset = UInt32.ofNat ImgInfo.len + d.roles.imgInfo.imageSize - d.roles.bytesRemaining ∧
        (sendChunk d).fx.reads = d.fx.reads ++ [r] ∧ (sendChunk d).fx.chunks = d.fx.chunks ++ [r.data] ∧
        (sendChunk d).roles =
          { d.roles with bytesRemaining := d.roles.bytesRemaining - UInt32.ofNat r.data.length } := by
  let offset := UInt32.ofNat ImgInfo.len + d.roles.imgInfo.imageSize - d.roles.bytesRemaining
  let got := Effects.hostGetChunk d.fx offset (Serving.chunkLen d.roles)
  have hread : readChunk d (Serving.chunkLen d.roles) =
      (if got.1.1 then some (Serving.chunkLen d.roles) else none, got.1.2.1, { d with fx := got.2 }) := by
    rw [readChunk, if_pos hinternal]
  cases hok : got.1.1 with
  | false =>
    rw [hok] at hread
    rw [hread]
    exact .inl rfl
  | true =>
    have hlen : got.1.2.1.length = Serving.chunkLen d.roles := got.1.2.2
    rw [hok, if_pos rfl] at hread
    have hsend := sendChunk_reads d hread
    refine .inr ⟨⟨offset, got.1.2.1, true⟩, rfl, hlen, rfl, ?_, ?_, ?_⟩
    · rw [hsend]
      change d.fx.reads ++ [⟨offset, got.1.2.1, got.1.1⟩] = _
      rw [hok]
    · rw [hsend]
      rfl
    · rw [hsend]
      dsimp only
      rw [hlen]

/-- What is waiting in the stream buffer is sent, filled up with zeros. -/
theorem sendChunk_stream (hinternal : d.core.internal = false) :
    d.roles.stream.bind (StreamBuffer.receive · (Serving.chunkLen d.roles)) = none ∧
      (readChunk d (Serving.chunkLen d.roles)).1 = none ∨
    ∃ bytes s chunk, d.roles.stream.bind (StreamBuffer.receive · (Serving.chunkLen d.roles)) = some (bytes, s) ∧
      bytes <+: chunk ∧ (sendChunk d).fx.reads = d.fx.reads ∧ (sendChunk d).fx.chunks = d.fx.chunks ++ [chunk] ∧
      (sendChunk d).roles =
        { d.roles with stream := some s, bytesRemaining := d.roles.bytesRemaining - UInt32.ofNat bytes.length } := by
  have hread := readChunk.eq_def d (Serving.chunkLen d.roles)
  rw [hinternal, if_neg Bool.false_ne_true] at hread
  cases hreceive : d.roles.stream.bind (StreamBuffer.receive · (Serving.chunkLen d.roles)) with
  | none =>
    rw [hreceive] at hread
    rw [hread]
    exact .inl ⟨rfl, rfl⟩
  | some got =>
    rw [hreceive] at hread
    have hsend := sendChunk_reads d hread
    refine .inr ⟨got.1, got.2, Bytes.copyAt (List.replicate (Serving.chunkLen d.roles) 0) 0 got.1, rfl, ?_, ?_, ?_, ?_⟩
    · exact List.prefix_append _ _
    · rw [hsend]
      rfl
    · rw [hsend]
      rfl
    · rw [hsend]

/-- The update that the host was asked to begin. -/
theorem reqUpdateEntry_begins {start : HostStart} (h : d.core.current.data = .hostStart start) :
    (reqUpdateEntry d).roles.imgInfo = start.start.imgInfo ∧
      (reqUpdateEntry d).roles.bytesRemaining = start.start.imgInfo.imageSize ∧
      (d.core.internal = false →
        (reqUpdateEntry d).roles.stream = StreamBuffer.new start.start.imgInfo.chunkSize.toNat) := by
  have hrequest : requestOf d.core.current.data = some (start.start.addresses, start.start.imgInfo) := by
    rw [h]
    rfl
  simp only [reqUpdateEntry, hrequest]
  cases hinternal : d.core.internal with
  | true =>
    have hkept : (reqUpdate d).core.internal = true := hinternal
    exact ⟨by split <;> rfl, by split <;> rfl, nofun⟩
  | false =>
    refine ⟨by split <;> rfl, by split <;> rfl, fun _ => ?_⟩
    split
    · rename_i hset
      exact absurd (hinternal.symm.trans hset) Bool.false_ne_true
    · rfl

end Runs

end Host

/-! ### The way into `HostUpdate` -/

/-- The state is not one that the client asks for. -/
def Core.NotServing (c : Core) : Prop := c.pending ≠ some .hostUpdate

theorem Core.NotServing.delay {c : Core} (h : c.NotServing) (ms : UInt32) : (c.delay ms).NotServing := by
  rw [NotServing, (c.delay_sameButTime ms).pending]
  exact h

namespace Client

variable {E : Type} [Effects E] {d : Dfu Client E}

omit [Effects E] in
theorem transitionToError_notServing (d : Dfu Client E) (err : DfuErr) :
    (transitionToError d err).core.NotServing := nofun

theorem openSlot_notServing (h : d.core.NotServing) (info : ImgInfo) : (openSlot d info).core.NotServing := by
  rw [openSlot]
  dsimp only
  split
  · exact transitionToError_notServing _ _
  · split
    · exact h
    · split
      · exact transitionToError_notServing _ _
      · exact nofun

theorem processUpdateRequest_notServing (h : d.core.NotServing) : (processUpdateRequest d).core.NotServing := by
  rw [processUpdateRequest]
  split
  · exact h
  · dsimp only
    split
    · exact h
    · split
      · exact transitionToError_notServing _ _
      · apply openSlot_notServing
        exact h

theorem gatherChunk_notServing (h : d.core.NotServing) (chunk : Bytes) : (gatherChunk d chunk).core.NotServing := by
  rw [gatherChunk]
  split
  · rw [processPayload]
    split
    · exact h
    · dsimp only
      split
      · exact h
      · split
        · exact h
        · exact h
  · exact transitionToError_notServing _ _

theorem receiveChunk_notServing (h : d.core.NotServing) (chunk : Bytes) : (receiveChunk d chunk).core.NotServing := by
  rw [receiveChunk]
  dsimp only
  split
  · exact gatherChunk_notServing h chunk
  · rw [finishTransfer]
    split
    · exact nofun
    · exact transitionToError_notServing _ _

theorem receivingRun_notServing (h : d.core.NotServing) : (receivingRun d).core.NotServing := by
  rw [receivingRun]
  split
  · split
    · exact h
    · exact receiveChunk_notServing h _
  · dsimp only
    split
    · exact transitionToError_notServing _ _
    · exact h
  · have hstopped : (d.core.stopTimer .chunk).NotServing := h
    exact hstopped.delay 100
  · exact h
  · exact h

theorem rebootReqRun_notServing (h : d.core.NotServing) : (rebootReqRun d).core.NotServing := by
  rw [rebootReqRun]
  split
  · split
    · exact nofun
    · exact h
  · dsimp only
    split
    · exact transitionToError_notServing _ _
    · exact h
  · exact h

theorem updateDoneRun_notServing (h : d.core.NotServing) : (updateDoneRun d).core.NotServing := by
  rw [updateDoneRun]
  split
  · split
    · exact nofun
    · exact h
  · dsimp only
    split
    · have hcleared : (d.core.setRebootInfo {}).NotServing := h
      exact hcleared.delay 100
    · exact h
  · exact h

theorem run_notServing (h : d.core.NotServing) (state : State) : (run d state).core.NotServing := by
  cases state with
  | clientReceiving => exact receivingRun_notServing h
  | clientRebootReq => exact rebootReqRun_notServing h
  | clientRebootDone => exact updateDoneRun_notServing h
  | _ => exact h

end Client

section Machine

variable {E : Type} [Effects E]

theorem runState_notServing {d : Dfu ClientHost E} (h : d.core.NotServing) {state : State}
    (hstate : state.isHost = false) : (runState state d).core.NotServing := by
  cases state with
  | init =>
    rw [runState]
    split
    · change some _ ≠ some State.hostUpdate
      split <;> (intro hpending; cases hpending)
    · exact h
  | idle =>
    rw [runState]
    split
    · exact Client.processUpdateRequest_notServing (d := ClientHost.asClient d) h
    · split
      · intro hpending
        cases hpending
      · exact h
    · exact h
  | error => exact h
  | hostReqUpdate | hostUpdate => cases hstate
  | _ => exact Client.run_notServing (d := ClientHost.asClient d) h _

end Machine

/-! ### Over a run -/

namespace Serving

open ClientHost Host

variable {E : Type} [Effects E] {o o' : Serving E}

def host (o : Serving E) : Host := o.machine.roles.host

/-- The update that the host is at has been served in sequence. -/
structure Sequenced (o : Serving E) : Prop where
  accepted : o.host.imgInfo ∈ o.accepted
  marks : o.marks.1 ≤ o.machine.fx.reads.length ∧ o.marks.2 ≤ o.machine.fx.chunks.length
  image : o.machine.core.internal = true →
    ServesImage o.host.imgInfo o.host.bytesRemaining o.reads o.chunks
  stream : o.machine.core.internal = false →
    ServesStream o.host.imgInfo o.host.bytesRemaining o.host.stream o.queued o.taken o.chunks

/-- What holds between any two calls. -/
structure Following (o : Serving E) : Prop where
  settling : o.machine.core.Settling
  small : ∀ info ∈ o.accepted, info.chunkSize.toNat ≤ dfuMaxChunkSize
  offered : ∀ e ∈ o.machine.core.queue.toList, ∀ start, e.data = .hostStart start → start.start.imgInfo ∈ o.accepted
  sequenced : o.machine.core.state.isHost = true → Sequenced o

omit [Effects E] in
theorem Sequenced.of_unserved (h : Sequenced o) (hkept : Unserved (asHost o.machine) (asHost o'.machine))
    (hinternal : o'.machine.core.internal = o.machine.core.internal) (haccepted : o.accepted ⊆ o'.accepted)
    (hmarks : o'.marks = o.marks) (hqueued : o'.queued = o.queued) (htaken : o'.taken = o.taken) : Sequenced o' := by
  have hinfo : o'.host.imgInfo = o.host.imgInfo := hkept.imgInfo
  have hremaining : o'.host.bytesRemaining = o.host.bytesRemaining := hkept.bytesRemaining
  have hstream : o'.host.stream = o.host.stream := hkept.stream
  have hreadlog : o'.machine.fx.reads = o.machine.fx.reads := hkept.reads
  have hchunklog : o'.machine.fx.chunks = o.machine.fx.chunks := hkept.chunks
  have hreads : o'.reads = o.reads := by rw [reads, reads, hreadlog, hmarks]
  have hchunks : o'.chunks = o.chunks := by rw [chunks, chunks, hchunklog, hmarks]
  refine ⟨?_, ?_, ?_, ?_⟩
  · rw [hinfo]
    exact haccepted h.accepted
  · rw [hmarks, hreadlog, hchunklog]
    exact h.marks
  · rw [hinternal, hinfo, hremaining, hreads, hchunks]
    exact h.image
  · rw [hinternal, hinfo, hremaining, hstream, hqueued, htaken, hchunks]
    exact h.stream

section Chunk

variable {d : Dfu Host (Logged E)} (hroles : d.roles = o.host) (hfx : d.fx = o.machine.fx)
  (hinternal : d.core.internal = o.machine.core.internal) (hroles' : o'.host = (sendChunk d).roles)
  (hfx' : o'.machine.fx = (sendChunk d).fx) (hinternal' : o'.machine.core.internal = o.machine.core.internal)
  (hsmall : o.host.imgInfo.chunkSize.toNat ≤ dfuMaxChunkSize) (hread : (readChunk d (chunkLen d.roles)).1 ≠ none)
  (haccepted : o'.accepted = o.accepted) (hmarks : o'.marks = o.marks)

include hroles hfx hinternal hroles' hfx' hinternal' hsmall hread haccepted hmarks

/-- One chunk more of an image. -/
theorem Sequenced.sendChunk_image (h : Sequenced o) (himage : o.machine.core.internal = true) : Sequenced o' := by
  rcases Host.sendChunk_image d (hinternal.trans himage) with
    hnone | ⟨r, hok, hlen, hoffset, hreads, hchunks, hsent⟩
  · exact absurd hnone hread
  rw [hroles] at hlen hoffset hsent
  rw [hfx] at hreads hchunks
  have hhost : o'.host = { o.host with bytesRemaining := o.host.bytesRemaining - UInt32.ofNat r.data.length } :=
    hroles'.trans hsent
  rw [← hfx'] at hreads hchunks
  obtain ⟨hmark, hmark'⟩ := h.marks
  have hreads' : o'.reads = o.reads ++ [r] := by
    rw [reads, reads, hreads, hmarks, List.drop_append_of_le_length hmark]
  have hchunks' : o'.chunks = o.chunks ++ [r.data] := by
    rw [chunks, chunks, hchunks, hmarks, List.drop_append_of_le_length hmark']
  refine ⟨?_, ?_, fun _ => ?_, fun hnot => ?_⟩
  · rw [hhost, haccepted]
    exact h.accepted
  · rw [hmarks, hreads, hchunks, List.length_append, List.length_append]
    exact ⟨by omega, by omega⟩
  · rw [hhost, hreads', hchunks']
    have hnext : r.data.length = min o.host.bytesRemaining.toNat o.host.imgInfo.chunkSize.toNat :=
      hlen.trans (chunkLen_eq hsmall)
    exact (h.image himage).next hok hoffset hnext
  · rw [hinternal', himage] at hnot
    cases hnot

/-- One chunk more of what is queued. -/
theorem Sequenced.sendChunk_stream (h : Sequenced o) (hstream : o.machine.core.internal = false)
    (hqueued : o'.queued = o.queued) (htaken : o'.taken = o.taken ++
      ((o.host.stream.bind (StreamBuffer.receive · (chunkLen o.host))).map Prod.fst).toList) : Sequenced o' := by
  rcases Host.sendChunk_stream d (hinternal.trans hstream) with
    ⟨-, hnone⟩ | ⟨bytes, s', chunk, hreceive, hprefix, hreads, hchunks, hsent⟩
  · exact absurd hnone hread
  rw [hroles] at hreceive hsent
  rw [hfx] at hreads hchunks
  have hhost : o'.host =
      { o.host with stream := some s', bytesRemaining := o.host.bytesRemaining - UInt32.ofNat bytes.length } :=
    hroles'.trans hsent
  rw [← hfx'] at hreads hchunks
  obtain ⟨hmark, hmark'⟩ := h.marks
  have hchunks' : o'.chunks = o.chunks ++ [chunk] := by
    rw [chunks, chunks, hchunks, hmarks, List.drop_append_of_le_length hmark']
  rw [hreceive, Option.map_some, Option.toList_some] at htaken
  obtain ⟨s, hbuffer, hreceived⟩ := Option.bind_eq_some_iff.mp hreceive
  refine ⟨?_, ?_, fun hnot => ?_, fun _ => ?_⟩
  · rw [hhost, haccepted]
    exact h.accepted
  · rw [hmarks, hreads, hchunks, List.length_append]
    exact ⟨hmark, by omega⟩
  · rw [hinternal', hstream] at hnot
    cases hnot
  · have hserves := h.stream hstream
    rw [hbuffer] at hserves
    rw [hhost, hqueued, htaken, hchunks']
    have hle : chunkLen o.host ≤ o.host.bytesRemaining.toNat := by
      rw [chunkLen_eq hsmall]
      exact Nat.min_le_left _ _
    exact hserves.next hreceived hle hprefix

end Chunk

theorem Following.queueData (h : Following o) (data : Bytes) : Following (o.apply (.queueData data)) := by
  refine ⟨h.settling, h.small, h.offered, fun hhost => ?_⟩
  have hseq := h.sequenced hhost
  cases hstream : o.machine.roles.host.stream with
  | none =>
    have happly : o.apply (.queueData data) = o := by
      simp only [apply, Host.queueData, hstream, Bool.false_eq_true, if_false]
    rw [happly]
    exact hseq
  | some s =>
    obtain ⟨hok, hsent⟩ : ∃ ok, ∃ s', s.send data = (ok, s') := ⟨_, _, rfl⟩
    obtain ⟨s', hsend⟩ := hsent
    have hqueue : o.machine.roles.host.queueData data = (hok, { o.machine.roles.host with stream := some s' }) := by
      simp only [Host.queueData, hstream, hsend]
    refine ⟨?_, hseq.marks, fun hinternal => ?_, fun hinternal => ?_⟩
    · have hinfo : (o.apply (.queueData data)).host.imgInfo = o.host.imgInfo := by
        rw [host, apply, hqueue]
        rfl
      rw [hinfo]
      exact hseq.accepted
    · have himage := hseq.image hinternal
      simp only [apply, host, hqueue]
      exact himage
    · have hserves := hseq.stream hinternal
      simp only [apply, host, hqueue]
      refine ⟨fun hsize => ?_, hserves.sent, hserves.remaining⟩
      obtain ⟨s₀, hs, hqueued⟩ := hserves.order hsize
      obtain rfl : s = s₀ := Option.some.inj (hstream.symm.trans hs)
      refine ⟨s', rfl, ?_⟩
      cases hok with
      | true => rw [if_pos rfl, hqueued, StreamBuffer.contents_send hsend, List.append_assoc]
      | false => rw [if_neg Bool.false_ne_true, hqueued, StreamBuffer.send_refused hsend]

omit [Effects E] in
theorem onMessage_cases (d : Dfu ClientHost (Logged E)) (body : Bytes) : (d.onMessage body).2 = d ∨
    ∃ event, event.data = .message body ∧ (d.onMessage body).2 = { d with core := d.core.post event } := by
  rw [onMessage]
  split
  · exact .inl rfl
  split
  · exact .inl rfl
  split
  · exact .inl rfl
  split
  · exact .inl rfl
  split
  · exact .inl rfl
  · rename_i event hevent
    split
    · refine .inr ⟨event, ?_, rfl⟩
      rw [Event.message] at hevent
      split at hevent
      · cases hevent
      · cases hevent
        rfl
    · exact .inl rfl

/-- A call that runs nothing and leaves the state and the roles as they were. -/
theorem Following.stood (h : Following o) {i : Input} {machine : Dfu ClientHost (Logged E)}
    (hcore : machine.core.state = o.machine.core.state ∧ machine.core.pending = o.machine.core.pending)
    (hroles : machine.roles = o.machine.roles) (hreads : machine.fx.reads = o.machine.fx.reads)
    (hchunks : machine.fx.chunks = o.machine.fx.chunks) (htaken : takenBy o.machine i = none)
    (hinternal : o.machine.core.state.isHost = true → machine.core.internal = o.machine.core.internal)
    (hsmall : ∀ info ∈ acceptedBy o.machine i, info.chunkSize.toNat ≤ dfuMaxChunkSize)
    (hqueue : ∀ e ∈ machine.core.queue.toList, e ∈ o.machine.core.queue.toList ∨
      ∀ start, e.data = .hostStart start → start.start.imgInfo ∈ acceptedBy o.machine i) :
    Following (o.after i machine) := by
  obtain ⟨hstate, hpending⟩ := hcore
  have hnot : ¬ (machine.core.state = .hostReqUpdate ∧ o.machine.core.state ≠ .hostReqUpdate) := by
    rintro ⟨hreq, hne⟩
    exact hne (hstate ▸ hreq)
  have hafter : o.after i machine = ⟨machine, o.accepted ++ (acceptedBy o.machine i).toList, o.marks, o.queued, o.taken⟩ := by
    simp only [after, if_neg hnot, htaken, Option.toList_none, List.append_nil]
  rw [hafter]
  refine ⟨?_, ?_, ?_, ?_⟩
  · intro next hnext
    rw [hpending] at hnext
    rw [hstate]
    exact h.settling next hnext
  · intro info hinfo
    rcases List.mem_append.mp hinfo with hinfo | hinfo
    · exact h.small info hinfo
    · exact hsmall info (Option.mem_toList.mp hinfo)
  · intro e he start hstart
    rcases hqueue e he with he | he
    · exact List.mem_append_left _ (h.offered e he start hstart)
    · exact List.mem_append_right _ (Option.mem_toList.mpr (he start hstart))
  · intro hhost
    have hhost : o.machine.core.state.isHost = true := hstate ▸ hhost
    have hkept : Unserved (asHost o.machine) (asHost machine) := by
      have hroles : (asHost machine).roles = (asHost o.machine).roles := congrArg ClientHost.host hroles
      exact ⟨by rw [hroles], by rw [hroles], by rw [hroles], hreads, hchunks⟩
    exact (h.sequenced hhost).of_unserved hkept (hinternal hhost) (List.subset_append_left _ _) rfl rfl rfl

theorem Following.still (h : Following o) {i : Input} (hi : i.isStep = false) : Following (o.apply (.call i)) := by
  rw [apply]
  cases i with
  | step nowMs => cases hi
  | onMessage body =>
    rcases onMessage_cases o.machine body with hsame | ⟨event, hdata, hposted⟩
    · rw [Dfu.apply, hsame]
      exact h.stood ⟨rfl, rfl⟩ rfl rfl rfl rfl (fun _ => rfl) (fun _ h => by cases h) fun e he => .inl he
    · rw [Dfu.apply, hposted]
      refine h.stood ⟨rfl, rfl⟩ rfl rfl rfl rfl (fun _ => rfl) (fun _ h => by cases h) fun e he => ?_
      have hlist : e ∈ o.machine.core.queue.toList ++ _ := push_toList o.machine.core.queue event ▸ he
      rcases List.mem_append.mp hlist with he | he
      · exact .inl he
      · refine .inr fun start hstart => ?_
        split at he
        · rw [List.mem_singleton.mp he, hdata] at hstart
          cases hstart
        · cases he
  | poll nowMs =>
    have hpoll := o.machine.core.advanceTo_sameButTime nowMs
    obtain ⟨es, hes, hbare⟩ := growsBare_advanceTo o.machine.core nowMs
    refine h.stood ⟨hpoll.state, hpoll.pending⟩ rfl rfl rfl rfl (fun _ => hpoll.internal) (fun _ h => by cases h) fun e he => ?_
    have hlist : e ∈ o.machine.core.queue.toList ++ es := hes ▸ he
    rcases List.mem_append.mp hlist with he | he
    · exact .inl he
    · refine .inr fun start hstart => ?_
      rw [hbare e he] at hstart
      cases hstart
  | initiateUpdate info dst notify timeoutMs internal =>
    have hrefused : ∀ (d : Dfu ClientHost (Logged E)), (d = o.machine ∨ d = o.machine.refuse notify dst) →
        o.machine.initiateUpdate info dst notify timeoutMs internal = (false, d) →
        Following (o.after (.initiateUpdate info dst notify timeoutMs internal)
          (o.machine.apply (.initiateUpdate info dst notify timeoutMs internal))) := by
      intro d hd hcall
      have haccepted : acceptedBy o.machine (.initiateUpdate info dst notify timeoutMs internal) = none := by
        rw [acceptedBy, hcall]
        rfl
      rw [Dfu.apply, hcall]
      have hsame : d.core = o.machine.core ∧ d.roles = o.machine.roles ∧ d.fx.reads = o.machine.fx.reads ∧
          d.fx.chunks = o.machine.fx.chunks := by
        rcases hd with rfl | rfl
        · exact ⟨rfl, rfl, rfl, rfl⟩
        · rw [refuse]
          split
          · exact ⟨rfl, rfl, rfl, rfl⟩
          · exact ⟨rfl, rfl, rfl, rfl⟩
      obtain ⟨hcore, hroles, hreads, hchunks⟩ := hsame
      refine h.stood ?_ hroles hreads hchunks rfl (fun _ => by rw [hcore]) (by rw [haccepted]; intro _ h; cases h) ?_
      · rw [hcore]
        exact ⟨rfl, rfl⟩
      · rw [hcore]
        exact fun e he => .inl he
    have hcall := initiateUpdate.eq_def o.machine info dst notify timeoutMs internal
    split at hcall
    · exact hrefused _ (.inl rfl) hcall
    rename_i hsmall
    split at hcall
    · exact hrefused _ (.inr rfl) hcall
    rename_i hidle
    rw [ne_eq, not_not] at hidle
    dsimp only at hcall
    split at hcall
    · rename_i hpushed
      have haccepted : acceptedBy o.machine (.initiateUpdate info dst notify timeoutMs internal) = some info := by
        rw [acceptedBy, hcall]
        rfl
      rw [Dfu.apply, hcall]
      refine h.stood ⟨rfl, rfl⟩ rfl rfl rfl rfl ?_ ?_ ?_
      · intro hhost
        rw [hidle] at hhost
        cases hhost
      · rw [haccepted]
        intro info' hinfo
        cases hinfo
        omega
      · intro e he
        have hlist : e ∈ o.machine.core.queue.toList ++ _ := push_toList o.machine.core.queue _ ▸ he
        rcases List.mem_append.mp hlist with he | he
        · exact .inl he
        · refine .inr fun start hstart => ?_
          rw [if_pos hpushed, List.mem_singleton] at he
          rw [he] at hstart
          cases hstart
          rw [haccepted]
          rfl
    · exact hrefused _ (.inr rfl) hcall

/-! ### A step -/

/-- What the host has afterwards, if it is still at the update. -/
inductive HostRan (d : Dfu ClientHost (Logged E)) : Prop where
  | away (h : (libSmRun d).core.state.isHost = false)
  | begins (start : HostStart) (hidle : d.core.state = .idle) (hstate : (libSmRun d).core.state = .hostReqUpdate)
      (hdata : d.core.current.data = .hostStart start)
      (hinfo : (libSmRun d).roles.host.imgInfo = start.start.imgInfo)
      (hremaining : (libSmRun d).roles.host.bytesRemaining = start.start.imgInfo.imageSize)
      (hstream : d.core.internal = false →
        (libSmRun d).roles.host.stream = StreamBuffer.new start.start.imgInfo.chunkSize.toNat)
  | kept (hhost : d.core.state.isHost = true) (hstate : (libSmRun d).core.state ≠ .hostReqUpdate ∨ d.core.state = .hostReqUpdate)
      (hquiet : asks d.core.state d.core.current = false) (h : Unserved (asHost d) (asHost (libSmRun d)))
  | served (hstate : d.core.state = .hostUpdate) (hsame : (libSmRun d).core.state = .hostUpdate)
      (hasks : asks d.core.state d.core.current = true)
      (hread : (readChunk (asHost d) (chunkLen d.roles.host)).1 ≠ none)
      (hrun : asHost (libSmRun d) = sendChunk (asHost d))

theorem hostRan {d : Dfu ClientHost (Logged E)} (hs : d.core.Settling) : HostRan d := by
  cases ran hs with
  | stays acts hruns hstands _ hquiet hnone =>
    have hpending : (libSmRun d).core.pending = none := by
      rw [hstands, hruns.pending_eq, lastRequest, hquiet, hnone]
      rfl
    have hstate : (libSmRun d).core.state = d.core.state := by rw [hstands, hruns.state_eq]
    cases hd : d.core.state with
    | hostReqUpdate =>
      refine .kept (by rw [hd]; rfl) (.inr hd) (by rw [hd]; rfl) ?_
      rw [hstands, hd]
      exact reqUpdateRun_unserved (asHost d)
    | hostUpdate =>
      have hrun : asHost (libSmRun d) = updateRun (asHost d) := by
        rw [hstands, hd]
        rfl
      rcases updateRun_cases (asHost d) with ⟨hasks, hsend⟩ | ⟨hquiet, hkept⟩
      · refine .served hd (hstate.trans hd) (by rw [hd]; exact hasks) (fun hfailed => ?_) (hrun.trans hsend)
        have herror : (libSmRun d).core.pending = some .error :=
          (congrArg (fun d : Dfu Host (Logged E) => d.core.pending) (hrun.trans hsend)).trans
            (sendChunk_fails (asHost d) hfailed).2.2.1
        rw [hpending] at herror
        cases herror
      · refine .kept (by rw [hd]; rfl) (.inl ?_) (by rw [hd]; exact hquiet) ?_
        · rw [hstate, hd]
          intro hreq
          cases hreq
        · rw [hrun]
          exact hkept
    | _ =>
      refine .away ?_
      rw [hstate, hd]
      rfl
  | moves next acts hruns _ hlast hne henters hbegins _ =>
    have hstate : (libSmRun d).core.state = next := by
      rw [libSmRun_state, hruns.pending_eq, hlast, Option.getD_some]
    cases next with
    | hostReqUpdate =>
      obtain ⟨hidle, ⟨start, hstart⟩, -⟩ := hbegins rfl
      have hcurrent : (leave d .hostReqUpdate).core.current = d.core.current := by
        rw [leave_core]
        exact hruns.current_eq
      have hinternal : (leave d .hostReqUpdate).core.internal = d.core.internal := by
        obtain ⟨notify, clientNodeId, hcore⟩ := hruns.core
        rw [leave_core]
        exact (congrArg Core.internal hcore).trans (foldl_unchanged _ acts).2.2.2.2.2
      have hentry : (libSmRun d).roles.host = (reqUpdateEntry (asHost (leave d .hostReqUpdate))).roles := by
        rw [henters]
        rfl
      obtain ⟨hinfo, hremaining, hstream⟩ :=
        reqUpdateEntry_begins (asHost (leave d .hostReqUpdate)) ((congrArg Event.data hcurrent).trans hstart)
      refine .begins start hidle hstate hstart ?_ ?_ fun hfed => ?_
      · rw [hentry]
        exact hinfo
      · rw [hentry]
        exact hremaining
      · rw [hentry]
        exact hstream (hinternal.trans hfed)
    | hostUpdate =>
      have hreq : d.core.state = .hostReqUpdate := by
        cases hhost : d.core.state.isHost with
        | true =>
          cases hd : d.core.state with
          | hostReqUpdate => rfl
          | hostUpdate => exact absurd hd.symm hne
          | _ =>
            rw [hd] at hhost
            cases hhost
        | false =>
          have hnot : d.core.NotServing := by
            intro hpending
            rcases hs _ hpending with ⟨-, h | h⟩ | ⟨-, h⟩ <;> cases h
          have hrun := runState_notServing hnot hhost
          rw [Core.NotServing, hruns.pending_eq, hlast] at hrun
          exact absurd rfl hrun
      refine .kept (by rw [hreq]; rfl) (.inr hreq) (by rw [hreq]; rfl) ?_
      have hrun := reqUpdateRun_unserved (asHost d)
      rw [henters, leave, hreq]
      exact ⟨hrun.imgInfo, hrun.bytesRemaining, hrun.stream, hrun.reads, hrun.chunks⟩
    | _ =>
      refine .away ?_
      rw [hstate]
      rfl

omit [Effects E] in
theorem new_contents {size : Nat} (hpos : 1 ≤ size) (hle : size ≤ dfuMaxChunkSize) :
    ∃ s, StreamBuffer.new size = some s ∧ s.contents = [] := ⟨_, dif_pos ⟨hpos, hle⟩, rfl⟩

omit [Effects E] in
/-- At the beginning nothing has been served. -/
theorem sequenced_begun {machine : Dfu ClientHost (Logged E)} {accepted : List ImgInfo} {info : ImgInfo}
    (hmem : info ∈ accepted) (hsmall : info.chunkSize.toNat ≤ dfuMaxChunkSize)
    (hinfo : machine.roles.host.imgInfo = info) (hremaining : machine.roles.host.bytesRemaining = info.imageSize)
    (hstream : machine.core.internal = false →
      machine.roles.host.stream = StreamBuffer.new info.chunkSize.toNat) :
    Sequenced ⟨machine, accepted, (machine.fx.reads.length, machine.fx.chunks.length), [], []⟩ := by
  refine ⟨?_, ⟨Nat.le_refl _, Nat.le_refl _⟩, fun _ => ?_, fun hfed => ?_⟩
  · rw [host, hinfo]
    exact hmem
  · rw [host, reads, chunks, hinfo, hremaining, List.drop_length, List.drop_length]
    exact ⟨rfl, nofun, rfl, by rw [List.length_nil, Nat.zero_mul, Nat.sub_zero], rfl⟩
  · rw [host, chunks, hinfo, hremaining, hstream hfed, List.drop_length]
    refine ⟨fun hpos => ?_, .nil, rfl⟩
    obtain ⟨s, hs, hempty⟩ := new_contents hpos hsmall
    refine ⟨s, hs, ?_⟩
    rw [hempty]
    rfl

theorem libSmRun_internal (d : Dfu ClientHost (Logged E)) : (libSmRun d).core.internal = d.core.internal := by
  obtain ⟨acts, hrun, -⟩ := runState_dfuActs d.core.state d
  obtain ⟨notify, clientNodeId, hcore⟩ := hrun.core
  have hinternal : (runState d.core.state d).core.internal = d.core.internal :=
    (congrArg Core.internal hcore).trans (foldl_unchanged _ acts).2.2.2.2.2
  cases hpending : (runState d.core.state d).core.pending with
  | none =>
    rw [libSmRun_of_none hpending]
    exact hinternal
  | some next =>
    by_cases hnext : next = d.core.state
    · rw [libSmRun_of_self (hnext ▸ hpending)]
      exact hinternal
    · obtain ⟨entered, henter, -⟩ := enterState_dfuActs next (leave d next)
      rw [libSmRun_of_some hpending hnext, henter.core, (foldl_unchanged _ entered).2.2.2.2.2, leave_core]
      exact hinternal

theorem Following.run (h : Following o) {nowMs : UInt32} {event : Event} {d : Dfu ClientHost (Logged E)}
    (hbegin : o.machine.begin nowMs = some (event, d)) :
    Following (o.after (.step nowMs) ((libSmRun d).withCurrent Event.none)) := by
  have hb := begun hbegin
  have hsettling := hb.settling h.settling
  have haccepted : acceptedBy o.machine (.step nowMs) = none := rfl
  have htaken : takenBy o.machine (.step nowMs) =
      if asks o.machine.core.state event = true ∧ o.machine.core.internal = false then
        (o.host.stream.bind (StreamBuffer.receive · (chunkLen o.host))).map Prod.fst
      else none := by rw [takenBy, hbegin, host]
  have hhost : d.roles.host = o.host := by rw [hb.roles, host]
  have hqueue := begin_queue hbegin
  obtain ⟨es, hes, hbare⟩ := growsBare_libSmRun d
  have hoffered : ∀ e ∈ (libSmRun d).core.queue.toList, ∀ start, e.data = .hostStart start →
      start.start.imgInfo ∈ o.accepted := by
    intro e he start hstart
    rw [hes] at he
    rcases List.mem_append.mp he with he | he
    · rcases hqueue e (List.mem_cons_of_mem _ he) with he | hnone
      · exact h.offered e he start hstart
      · rw [hnone] at hstart
        cases hstart
    · rw [hbare e he] at hstart
      cases hstart
  rw [after, haccepted, Option.toList_none, List.append_nil]
  cases hostRan hsettling with
  | away haway =>
    split
    · rename_i hreset
      have hreq : (libSmRun d).core.state = .hostReqUpdate := hreset.1
      rw [hreq] at haway
      cases haway
    · exact ⟨libSmRun_settling d, h.small, hoffered, fun hon => absurd (haway.symm.trans hon) Bool.false_ne_true⟩
  | begins start hidle hstate hdata hinfo hremaining hstream =>
    have hreset : ((libSmRun d).withCurrent Event.none).core.state = .hostReqUpdate ∧
        o.machine.core.state ≠ .hostReqUpdate := by
      refine ⟨hstate, ?_⟩
      rw [← hb.state, hidle]
      nofun
    have hmem : start.start.imgInfo ∈ o.accepted := by
      rw [hb.current] at hdata
      rcases hqueue event List.mem_cons_self with he | hnone
      · exact h.offered event he start hdata
      · rw [hnone] at hdata
        cases hdata
    rw [if_pos hreset]
    refine ⟨libSmRun_settling d, h.small, hoffered, fun _ => ?_⟩
    exact sequenced_begun hmem (h.small _ hmem) hinfo hremaining fun hfed =>
      hstream ((libSmRun_internal d).symm.trans hfed)
  | kept hon hstate hquiet hkept =>
    rw [hb.state] at hon hstate hquiet
    rw [hb.current] at hquiet
    have hreset : ¬ (((libSmRun d).withCurrent Event.none).core.state = .hostReqUpdate ∧
        o.machine.core.state ≠ .hostReqUpdate) := by
      rintro ⟨hreq, hne⟩
      rcases hstate with h | h
      · exact h hreq
      · exact hne h
    have hnone : takenBy o.machine (.step nowMs) = none := by
      rw [htaken, hquiet, if_neg]
      exact fun h => Bool.false_ne_true h.1
    rw [if_neg hreset, hnone, Option.toList_none, List.append_nil]
    refine ⟨libSmRun_settling d, h.small, hoffered, fun _ => ?_⟩
    have hunserved : Unserved (asHost o.machine) (asHost ((libSmRun d).withCurrent Event.none)) := by
      have hroles : (asHost d).roles = (asHost o.machine).roles := hhost
      have hfx : (asHost d).fx = (asHost o.machine).fx := hb.fx
      refine ⟨?_, ?_, ?_, ?_, ?_⟩
      · exact hkept.imgInfo.trans (by rw [hroles])
      · exact hkept.bytesRemaining.trans (by rw [hroles])
      · exact hkept.stream.trans (by rw [hroles])
      · exact hkept.reads.trans (by rw [hfx])
      · exact hkept.chunks.trans (by rw [hfx])
    have hinternal : ((libSmRun d).withCurrent Event.none).core.internal = o.machine.core.internal :=
      (libSmRun_internal d).trans hb.internal
    exact (h.sequenced hon).of_unserved hunserved hinternal (List.Subset.refl _) rfl rfl rfl
  | served hstate hsame hasks hread hrun =>
    rw [hb.state] at hstate hasks
    rw [hb.current] at hasks
    have hreset : ¬ (((libSmRun d).withCurrent Event.none).core.state = .hostReqUpdate ∧
        o.machine.core.state ≠ .hostReqUpdate) := by
      rintro ⟨hreq, -⟩
      have hreq' : (libSmRun d).core.state = .hostReqUpdate := hreq
      rw [hsame] at hreq'
      cases hreq'
    have hon : o.machine.core.state.isHost = true := by
      rw [hstate]
      rfl
    have hseq := h.sequenced hon
    have hsmall := h.small _ hseq.accepted
    have hroles' : (libSmRun d).roles.host = (sendChunk (asHost d)).roles := congrArg Dfu.roles hrun
    have hfx' : (libSmRun d).fx = (sendChunk (asHost d)).fx := congrArg Dfu.fx hrun
    have hinternal : (asHost d).core.internal = o.machine.core.internal := hb.internal
    have hinternal' : ((libSmRun d).withCurrent Event.none).core.internal = o.machine.core.internal :=
      (libSmRun_internal d).trans hb.internal
    rw [if_neg hreset]
    refine ⟨libSmRun_settling d, h.small, hoffered, fun _ => ?_⟩
    cases hkind : o.machine.core.internal with
    | true => exact hseq.sendChunk_image hhost hb.fx hinternal hroles' hfx' hinternal' hsmall hread rfl rfl hkind
    | false =>
      have htook : takenBy o.machine (.step nowMs) =
          (o.host.stream.bind (StreamBuffer.receive · (chunkLen o.host))).map Prod.fst := by
        rw [htaken, if_pos ⟨hasks, hkind⟩]
      refine hseq.sendChunk_stream hhost hb.fx hinternal hroles' hfx' hinternal' hsmall hread rfl rfl hkind rfl ?_
      rw [htook]

theorem Following.apply (h : Following o) (i : HostInput) : Following (o.apply i) := by
  cases i with
  | queueData data => exact h.queueData data
  | call i =>
    cases i with
    | step nowMs =>
      cases hbegin : o.machine.begin nowMs with
      | none =>
        have hstep : o.machine.apply (.step nowMs) = o.machine.poll nowMs :=
          congrArg Prod.snd (step_of_begin_none hbegin)
        have htaken : takenBy o.machine (.step nowMs) = none := by rw [takenBy, hbegin]
        have hpoll := h.still (i := .poll nowMs) rfl
        rw [Serving.apply, hstep]
        rw [Serving.apply] at hpoll
        have hsame : o.after (.step nowMs) (o.machine.poll nowMs) = o.after (.poll nowMs) (o.machine.poll nowMs) := by
          simp only [after, htaken]
          rfl
        rw [hsame]
        exact hpoll
      | some begun =>
        have hstep : o.machine.apply (.step nowMs) = (libSmRun begun.2).withCurrent Event.none :=
          congrArg Prod.snd (step_of_begin hbegin)
        rw [Serving.apply, hstep]
        exact h.run hbegin
    | _ => exact h.still rfl

omit [Effects E] in
theorem following_new (selfNodeId : UInt64) (rebootInfo : RebootInfo) (fx : E) :
    Following (new selfNodeId rebootInfo fx) := by
  refine ⟨new_settling selfNodeId rebootInfo ClientHost.new _, nofun, ?_, nofun⟩
  intro e he start hstart
  have hfirst : e = Event.bare .initSuccess := List.mem_singleton.mp he
  rw [hfirst] at hstart
  cases hstart

theorem Following.runs (h : Following o) (inputs : List HostInput) : Following (o.runs inputs) :=
  List.foldlRecOn (motive := Following) inputs Serving.apply h fun _ ho i _ => ho.apply i

/-- An update that has begun is served in sequence, whatever is asked for and however often, and a read that
fails consumes nothing, sends nothing and asks for `Error`. -/
theorem served_in_sequence (selfNodeId : UInt64) (rebootInfo : RebootInfo) (fx : E) (inputs : List HostInput) :
    let o := (new selfNodeId rebootInfo fx).runs inputs
    (o.machine.core.state = .hostUpdate → Sequenced o ∧ o.host.imgInfo.chunkSize.toNat ≤ dfuMaxChunkSize ∧
      (o.machine.core.internal = true → ImgInfo.len + o.host.imgInfo.imageSize.toNat ≤ 2 ^ 32 →
        ∀ (i : Nat) (r : ChunkRead), o.reads[i]? = some r → r.data ≠ [] →
          r.offset.toNat = ImgInfo.len + i * o.host.imgInfo.chunkSize.toNat)) ∧
    ∀ nowMs event d, o.machine.begin nowMs = some (event, d) → asks o.machine.core.state event = true →
      (readChunk (asHost d) (chunkLen o.host)).1 = none →
      (runState .hostUpdate d).roles.host = o.host ∧ (runState .hostUpdate d).fx.chunks = o.machine.fx.chunks ∧
        (runState .hostUpdate d).core.pending = some .error := by
  have h := (following_new selfNodeId rebootInfo fx).runs inputs
  refine ⟨fun hstate => ?_, fun nowMs event d hbegin hasks hfails => ?_⟩
  · have hseq := h.sequenced (by rw [hstate]; rfl)
    exact ⟨hseq, h.small _ hseq.accepted, fun hinternal hfits i r hr hdata =>
      (hseq.image hinternal).toNat_offset hfits hr hdata⟩
  · have hb := begun hbegin
    have hhost : (asHost d).roles = ((new selfNodeId rebootInfo fx).runs inputs).host := by
      rw [host, ← hb.roles]
      rfl
    rw [← hhost] at hfails
    obtain ⟨hroles, hchunks, hpending, -⟩ := sendChunk_fails (asHost d) hfails
    have hstate : ((new selfNodeId rebootInfo fx).runs inputs).machine.core.state = .hostUpdate := by
      rw [asks, Bool.and_eq_true, Bool.and_eq_true] at hasks
      exact of_decide_eq_true hasks.1.1
    have hrun : updateRun (asHost d) = sendChunk (asHost d) := by
      rcases updateRun_cases (asHost d) with ⟨-, hsend⟩ | ⟨hquiet, -⟩
      · exact hsend
      · rw [← hb.current, hstate] at hasks
        exact absurd (hquiet.symm.trans hasks) Bool.false_ne_true
    refine ⟨?_, ?_, ?_⟩
    · change (updateRun (asHost d)).roles = _
      rw [hrun, hroles, hhost]
    · change (updateRun (asHost d)).fx.chunks = _
      rw [hrun, hchunks, ← hb.fx]
      rfl
    · change (updateRun (asHost d)).core.pending = _
      rw [hrun, hpending]

/-- Node 1 has begun to serve an image to node 2. -/
def begunInputs (info : ImgInfo) : List HostInput :=
  [.call (.step 0), .call (.initiateUpdate info 2 false 60000 true), .call (.step 0), .call (.step 0),
    .call (.onMessage (DfuMessage.ack ⟨⟨2, 1⟩, 1, 0⟩).toBytes), .call (.step 0), .call (.step 0), .call (.step 0)]

/-- Node 2 asks for a chunk, by any number. -/
def askBody : Bytes := (DfuMessage.payloadReq ⟨⟨2, 1⟩, 7⟩).toBytes

def askInputs : List HostInput := [.call (.onMessage askBody), .call (.step 0)]

theorem runs_append (o : Serving E) (xs ys : List HostInput) : o.runs (xs ++ ys) = (o.runs xs).runs ys :=
  List.foldl_append

theorem runs_ask (o : Serving E) :
    o.runs askInputs = (o.apply (.call (.onMessage askBody))).apply (.call (.step 0)) := by
  rw [runs, askInputs, List.foldl_cons, List.foldl_cons, List.foldl_nil]

def smallImage : ImgInfo := ⟨2500, 1024, 0, 0, 0, 0, 0⟩

theorem served_in_sequence_smallImage :
    let o := (new 1 {} (Answers.allOk 0)).runs (begunInputs smallImage ++ askInputs ++ askInputs ++ askInputs)
    Sequenced o ∧ o.reads.map (fun r => (r.offset, r.data.length)) = [(18, 1024), (1042, 1024), (2066, 452)] := by
  have hstate : ((new 1 {} (Answers.allOk 0)).runs
      (begunInputs smallImage ++ askInputs ++ askInputs ++ askInputs)).machine.core.state = .hostUpdate := by
    decide +kernel
  have hserved := served_in_sequence 1 {} (Answers.allOk 0)
    (begunInputs smallImage ++ askInputs ++ askInputs ++ askInputs)
  exact ⟨(hserved.1 hstate).1, by decide +kernel⟩

/-! ### An image that ends past the last offset -/

/-- A host with nothing to do but to wait for the next request of node 2. -/
structure Waiting (info : ImgInfo) (n : Nat) (o : Serving (Answers 0)) : Prop where
  state : o.machine.core.state = .hostUpdate
  pending : o.machine.core.pending = none
  internal : o.machine.core.internal = true
  self : o.machine.core.selfNodeId = 1
  queue : o.machine.core.queue.toList = []
  clock : o.machine.core.clock = some 0
  due : ∀ t, o.machine.core.isDue t = false
  client : o.host.clientNodeId = 2
  info : o.host.imgInfo = info
  reads : o.reads.length = n

theorem advanceTo_still {c : Core} (hclock : c.clock = some 0) (hdue : ∀ t, c.isDue t = false) :
    c.advanceTo 0 = c := by
  have hahead : c.aheadOf 0 = false := by
    rw [aheadOf, hclock]
    decide
  have hset : ({ c with clock := some 0 } : Core) = c := by rw [← hclock]
  have hnone : Timer.all.filter c.isDue = [] := by
    rw [List.filter_eq_nil_iff]
    intro t _
    rw [hdue t]
    exact Bool.false_ne_true
  rw [advanceTo, hahead, if_neg Bool.false_ne_true, hset, fireDue]
  have hdue : c.nextDue = none := by
    rw [nextDue, hnone]
    rfl
  rw [Timer.all, List.length_cons, fireDueLoop, hdue]

def askEvent : Event := ⟨.chunkRequest, .message askBody⟩

theorem onMessage_ask {d : Dfu ClientHost (Logged (Answers 0))} (hstate : d.core.state = .hostUpdate)
    (hself : d.core.selfNodeId = 1) (hclient : d.roles.host.clientNodeId = 2) (hqueue : d.core.queue.toList = []) :
    (d.onMessage askBody).2 = { d with core := d.core.post askEvent } := by
  have haddress : DfuAddress.ofBody askBody = .ok ⟨2, 1⟩ := by decide +kernel
  have hvalid : d.sourceValid 2 = true := by
    rw [sourceValid, hstate]
    change (d.roles.host.clientNodeId == 2) = true
    rw [hclient]
    rfl
  have hkind : EventType.forFrameType (askBody.byteAt 0) = some .chunkRequest := by decide +kernel
  have hevent : Event.message .chunkRequest askBody = .ok askEvent := by decide +kernel
  have hroom : d.core.queue.len < eventQueueLen := by
    have hlen := congrArg List.length hqueue
    rw [RingQueue.length_toList] at hlen
    rw [hlen]
    decide
  have hpush := (d.core.queue.toList_push askEvent hroom).2
  simp only [onMessage, haddress, hself, ne_eq, not_true_eq_false, if_false, hvalid, Bool.not_true,
    Bool.false_eq_true, hkind, hevent, hpush, if_true]

theorem machine_after (o : Serving E) (i : Input) (machine : Dfu ClientHost (Logged E)) :
    (o.after i machine).machine = machine := by
  rw [after]
  split
  · rfl
  · rfl

theorem marks_after (o : Serving E) (i : Input) {machine : Dfu ClientHost (Logged E)}
    (h : machine.core.state ≠ .hostReqUpdate) : (o.after i machine).marks = o.marks := by
  rw [after, if_neg fun hreset => h hreset.1]

/-- The machine that is about to answer. -/
structure Asked (m d : Dfu ClientHost (Logged (Answers 0))) : Prop where
  core : ∃ queue, d.core = { m.core with queue, current := askEvent } ∧ queue.toList = []
  roles : d.roles = m.roles
  fx : d.fx = m.fx

theorem begin_ask {m : Dfu ClientHost (Logged (Answers 0))} (hqueue : m.core.queue.toList = [])
    (hclock : m.core.clock = some 0) (hdue : ∀ t, m.core.isDue t = false) :
    ∃ d, Dfu.begin { m with core := m.core.post askEvent } 0 = some (askEvent, d) ∧ Asked m d := by
  have hroom : m.core.queue.len < eventQueueLen := by
    have hlen := congrArg List.length hqueue
    rw [RingQueue.length_toList] at hlen
    rw [hlen]
    decide
  have hposted : (m.core.post askEvent).queue.toList = [askEvent] := by
    have hlist := (m.core.queue.toList_push askEvent hroom).1
    rw [hqueue] at hlist
    exact hlist
  have hstill : (m.core.post askEvent).advanceTo 0 = m.core.post askEvent := advanceTo_still hclock hdue
  cases hpop : EventQueue.pop (m.core.post askEvent).queue with
  | none =>
    rw [pop_eq_none.mp hpop] at hposted
    cases hposted
  | some popped =>
    obtain ⟨event, queue⟩ := popped
    have hlist := pop_eq_some hpop
    rw [hposted] at hlist
    injection hlist with hevent hrest
    have hagain : ({ m.core.post askEvent with queue } : Core).advanceTo 0 = { m.core.post askEvent with queue } :=
      advanceTo_still hclock hdue
    refine ⟨⟨{ m.core with queue, current := askEvent }, m.roles, m.fx⟩, ?_, ⟨queue, rfl, hrest.symm⟩, rfl, rfl⟩
    simp only [Dfu.begin, poll, hstill, hpop, withQueue, hagain, withCurrent, ← hevent]
    rfl

theorem Asked.answered {m d : Dfu ClientHost (Logged (Answers 0))} (h : Asked m d)
    (hstate : m.core.state = .hostUpdate) (hpending : m.core.pending = none) (hinternal : m.core.internal = true) :
    (libSmRun d).core = d.core ∧ (libSmRun d).roles.host.imgInfo = m.roles.host.imgInfo ∧
      (libSmRun d).roles.host.clientNodeId = m.roles.host.clientNodeId ∧
      ∃ r, (libSmRun d).fx.reads = m.fx.reads ++ [r] := by
  obtain ⟨queue, hcore, -⟩ := h.core
  have hkeeps : (asHost d).core.internal = true := by
    change d.core.internal = true
    rw [hcore]
    exact hinternal
  have hread := readChunk.eq_def (asHost d) (chunkLen (asHost d).roles)
  rw [if_pos hkeeps] at hread
  have hsend := sendChunk_reads (asHost d) hread
  have hrun : runState d.core.state d = onHost sendChunk d := by
    have hd : d.core.state = .hostUpdate := by
      rw [hcore]
      exact hstate
    have hupdate : updateRun (asHost d) = sendChunk (asHost d) := by
      have hcurrent : (asHost d).core.current = askEvent := by
        change d.core.current = askEvent
        rw [hcore]
      rw [updateRun, hcurrent]
      rfl
    rw [hd]
    change onHost updateRun d = _
    rw [onHost, hupdate]
    rfl
  have hsame : (onHost sendChunk d).core = d.core := by
    rw [onHost, hsend]
    rfl
  have hnone : (runState d.core.state d).core.pending = none := by
    rw [hrun, hsame, hcore]
    exact hpending
  rw [libSmRun_of_none hnone, hrun, ← h.roles, ← h.fx]
  refine ⟨hsame, ?_, ?_, ?_⟩
  · rw [onHost, hsend]
    rfl
  · rw [onHost, hsend]
    rfl
  · rw [onHost, hsend]
    exact ⟨_, rfl⟩

theorem Waiting.asked {info : ImgInfo} {n : Nat} {o : Serving (Answers 0)} (h : Waiting info n o) (hf : Following o) :
    Waiting info (n + 1) (o.runs askInputs) := by
  have hon : o.machine.core.state.isHost = true := by
    rw [h.state]
    rfl
  obtain ⟨hmark, -⟩ := (hf.sequenced hon).marks
  have hmessage := onMessage_ask h.state h.self h.client h.queue
  obtain ⟨d, hbegin, hasked⟩ := begin_ask h.queue h.clock h.due
  obtain ⟨hcore, hinfo, hclient, r, hreads⟩ := hasked.answered h.state h.pending h.internal
  obtain ⟨queue, hd, hempty⟩ := hasked.core
  have hstep : Dfu.apply { o.machine with core := o.machine.core.post askEvent } (.step 0) =
      (libSmRun d).withCurrent Event.none := congrArg Prod.snd (step_of_begin hbegin)
  have hlast : ((libSmRun d).withCurrent Event.none).core = { o.machine.core with queue, current := Event.none } := by
    rw [withCurrent, hcore, hd]
  have hfirst : (o.apply (.call (.onMessage askBody))).machine =
      { o.machine with core := o.machine.core.post askEvent } := (machine_after o _ _).trans hmessage
  have hmachine : (o.runs askInputs).machine = (libSmRun d).withCurrent Event.none := by
    rw [runs_ask, apply, machine_after, hfirst, hstep]
  have hmarks : (o.runs askInputs).marks = o.marks := by
    have hstate : ((libSmRun d).withCurrent Event.none).core.state ≠ .hostReqUpdate := by
      rw [hlast]
      exact fun hreq => nomatch h.state.symm.trans hreq
    have hstate' : (o.machine.apply (.onMessage askBody)).core.state ≠ .hostReqUpdate := by
      rw [Dfu.apply, hmessage]
      exact fun hreq => nomatch h.state.symm.trans hreq
    rw [runs_ask, apply, hfirst, hstep, marks_after _ _ hstate, apply, marks_after _ _ hstate']
  refine ⟨?_, ?_, ?_, ?_, ?_, ?_, ?_, ?_, ?_, ?_⟩
  · rw [hmachine, hlast]
    exact h.state
  · rw [hmachine, hlast]
    exact h.pending
  · rw [hmachine, hlast]
    exact h.internal
  · rw [hmachine, hlast]
    exact h.self
  · rw [hmachine, hlast]
    exact hempty
  · rw [hmachine, hlast]
    exact h.clock
  · rw [hmachine, hlast]
    exact h.due
  · rw [host, hmachine]
    exact hclient.trans h.client
  · rw [host, hmachine]
    exact hinfo.trans h.info
  · have hfx : ((libSmRun d).withCurrent Event.none).fx.reads = o.machine.fx.reads ++ [r] := hreads
    have hlen := h.reads
    rw [Serving.reads, List.length_drop] at hlen
    rw [Serving.reads, hmachine, hmarks, hfx, List.length_drop, List.length_append, List.length_singleton]
    omega

/-- An image as large as a size can say. -/
def hugeImage : ImgInfo := ⟨0xffffffff, 1023, 0, 0, 0, 0, 0⟩

/-- The image, asked for `n` chunks. -/
def hugeInputs (n : Nat) : List HostInput := begunInputs hugeImage ++ (List.replicate n askInputs).flatten

theorem hugeInputs_succ (n : Nat) : hugeInputs (n + 1) = hugeInputs n ++ askInputs := by
  rw [hugeInputs, hugeInputs, List.replicate_succ', List.flatten_append, List.flatten_singleton, List.append_assoc]

theorem waiting_asked (n : Nat) : Waiting hugeImage n ((new 1 {} (Answers.allOk 0)).runs (hugeInputs n)) := by
  induction n with
  | zero =>
    refine ⟨by decide +kernel, by decide +kernel, by decide +kernel, by decide +kernel, by decide +kernel,
      by decide +kernel, ?_, by decide +kernel, by decide +kernel, by decide +kernel⟩
    intro t
    cases t with
    | chunk => decide +kernel
    | ack => decide +kernel
    | update => decide +kernel
  | succ n ih =>
    have hf := (following_new 1 {} (Answers.allOk 0)).runs (hugeInputs n)
    rw [hugeInputs_succ, runs_append]
    exact ih.asked hf

/-- The last chunk of the image is asked for at the front of the slot. -/
theorem hugeImage_wraps :
    let o := (new 1 {} (Answers.allOk 0)).runs (hugeInputs 4198405)
    o.machine.core.state = .hostUpdate ∧ o.host.imgInfo = hugeImage ∧
      ∃ r ∈ o.reads, r.ok = true ∧ r.data.length = 3 ∧ r.offset.toNat < ImgInfo.len := by
  have hwaiting := waiting_asked 4198405
  have hf := (following_new 1 {} (Answers.allOk 0)).runs (hugeInputs 4198405)
  generalize (new 1 {} (Answers.allOk 0)).runs (hugeInputs 4198405) = o at hwaiting hf
  have hon : o.machine.core.state.isHost = true := by
    rw [hwaiting.state]
    rfl
  have himage := (hf.sequenced hon).image hwaiting.internal
  have hasked := himage.asked
  have hi : 4198404 < o.reads.length := by
    rw [hwaiting.reads]
    omega
  have hr := congrArg (fun l : List (UInt32 × Nat) => l[4198404]?) hasked
  simp only [schedule, List.getElem?_map, List.getElem?_eq_getElem hi, Option.map_some, List.getElem?_range hi,
    Option.some.injEq, Prod.mk.injEq, hwaiting.info] at hr
  obtain ⟨hoffset, hlen⟩ := hr
  have hmem : o.reads[4198404] ∈ o.reads := List.getElem_mem hi
  refine ⟨hwaiting.state, hwaiting.info, o.reads[4198404], hmem, himage.ok _ hmem, hlen.trans (by decide), ?_⟩
  rw [hoffset]
  decide +kernel

end Serving

end Bristlemouth.Dfu
