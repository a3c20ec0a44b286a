import Bristlemouth.Dfu.Exchange
import Bristlemouth.Dfu.ImageIntegrity
import Bristlemouth.Dfu.Serving

/-!
# The two sides of a transfer

An image that a host offers, what the host does on the way to its last chunk and
what the client does with each of them, while all goes well.
-/

set_option autoImplicit false

namespace Bristlemouth.Dfu

open Core EventQueue FlashWrite

/-- An image on offer: it has bytes, and no more chunks than a client counts. -/
structure Offer where
  hostNodeId : UInt64
  clientNodeId : UInt64
  info : ImgInfo
  image : Bytes
  size : info.imageSize.toNat = image.length
  nonempty : 0 < image.length
  chunkSize_pos : 0 < info.chunkSize.toNat
  chunkSize_le : info.chunkSize.toNat ≤ dfuMaxChunkSize
  countable : (image.length + info.chunkSize.toNat - 1) / info.chunkSize.toNat ≤ 65535

namespace Offer

variable (o : Offer)

/-- How many chunks the image makes. -/
def count : Nat := (o.image.length + o.info.chunkSize.toNat - 1) / o.info.chunkSize.toNat

def chunk (k : Nat) : Bytes := (o.image.drop (k * o.info.chunkSize.toNat)).take o.info.chunkSize.toNat

def startMessage : DfuMessage := .start ⟨⟨o.hostNodeId, o.clientNodeId⟩, o.info⟩

def ackMessage : DfuMessage := .ack ⟨⟨o.clientNodeId, o.hostNodeId⟩, 1, DfuErr.none.val⟩

def requestMessage (k : Nat) : DfuMessage := .payloadReq ⟨⟨o.clientNodeId, o.hostNodeId⟩, UInt16.ofNat k⟩

def chunkMessage (k : Nat) : DfuMessage := .payload ⟨⟨o.hostNodeId, o.clientNodeId⟩, o.chunk k⟩

variable {o}

theorem lt_count_iff {k : Nat} : k < o.count ↔ k * o.info.chunkSize.toNat < o.image.length := by
  have hpos := o.chunkSize_pos
  rw [count, Nat.lt_iff_add_one_le, Nat.le_div_iff_mul_le hpos, Nat.add_mul]
  omega

theorem count_pos : 0 < o.count := lt_count_iff.mpr (by rw [Nat.zero_mul]; exact o.nonempty)

theorem length_chunk (k : Nat) :
    (o.chunk k).length = min o.info.chunkSize.toNat (o.image.length - k * o.info.chunkSize.toNat) := by
  rw [chunk, List.length_take, List.length_drop]

theorem take_chunk (k : Nat) : o.image.take (k * o.info.chunkSize.toNat) ++ o.chunk k =
    o.image.take ((k + 1) * o.info.chunkSize.toNat) := by
  rw [chunk, Nat.add_mul, Nat.one_mul, List.take_add]

theorem take_all {k : Nat} (h : o.count ≤ k) : o.image.take (k * o.info.chunkSize.toNat) = o.image := by
  apply List.take_of_length_le
  have hlast : ¬ k < o.count := by omega
  rw [lt_count_iff] at hlast
  omega

/-- The client counts the chunks as they are. -/
theorem numChunksOf_eq : Client.numChunksOf o.info.imageSize o.info.chunkSize = UInt16.ofNat o.count := by
  have hpos := o.chunkSize_pos
  have hcount : o.count ≤ 65535 := o.countable
  have hsize : o.info.chunkSize.toUInt32.toNat = o.info.chunkSize.toNat := UInt16.toNat_toUInt32 _
  have hne : o.info.chunkSize ≠ 0 := by
    intro h
    rw [h] at hpos
    exact absurd hpos (by decide)
  have hdiv : (o.info.imageSize / o.info.chunkSize.toUInt32).toNat = o.image.length / o.info.chunkSize.toNat := by
    rw [UInt32.toNat_div, hsize, o.size]
  have hmod : (o.info.imageSize % o.info.chunkSize.toUInt32).toNat = o.image.length % o.info.chunkSize.toNat := by
    rw [UInt32.toNat_mod, hsize, o.size]
  have hup : o.count = o.image.length / o.info.chunkSize.toNat +
      if o.image.length % o.info.chunkSize.toNat = 0 then 0 else 1 := by
    have hsplit := Nat.div_add_mod o.image.length o.info.chunkSize.toNat
    have hlt := Nat.mod_lt o.image.length hpos
    rw [count]
    split
    · rename_i hexact
      rw [hexact, Nat.add_zero] at hsplit
      rw [Nat.add_zero]
      apply Nat.div_eq_of_lt_le
      · rw [Nat.mul_comm]
        omega
      · rw [Nat.add_mul, Nat.mul_comm]
        omega
    · rename_i hrest
      apply Nat.div_eq_of_lt_le
      · rw [Nat.add_mul, Nat.mul_comm]
        omega
      · rw [Nat.add_mul, Nat.add_mul, Nat.mul_comm]
        omega
  apply UInt16.toNat_inj.mp
  simp only [Client.numChunksOf, if_neg hne]
  rw [UInt32.toNat_toUInt16, UInt16.toNat_ofNat']
  split
  · rename_i hrest
    have hrest' : o.image.length % o.info.chunkSize.toNat ≠ 0 := by
      intro h
      exact hrest (UInt32.toNat_inj.mp (hmod.trans h))
    rw [if_neg hrest'] at hup
    rw [UInt32.toNat_add, hdiv, hup, show (1 : UInt32).toNat = 1 from rfl]
    omega
  · rename_i hexact
    have hexact' : o.image.length % o.info.chunkSize.toNat = 0 := by
      rw [← hmod, Decidable.not_not.mp hexact]
      rfl
    rw [if_pos hexact', Nat.add_zero] at hup
    rw [hdiv, hup]

end Offer

/-! ### Messages that arrive -/

/-- The event that a message is queued as. -/
def arrival (message : DfuMessage) : Event :=
  ⟨(EventType.forFrameType message.frameType).getD .none, .message message.toBytes⟩

theorem forFrameType_eq (message : DfuMessage) :
    EventType.forFrameType message.frameType = some (arrival message).kind := by
  cases message <;> rfl

theorem arrival_ne_none (message : DfuMessage) : arrival message ≠ Event.none := by
  intro h
  cases congrArg Event.data h

section Arrival

variable {R E : Type} [Roles R]

theorem onMessage_arrives {d : Dfu R E} {message : DfuMessage}
    (hself : message.addresses.dstNodeId = d.core.selfNodeId)
    (hvalid : d.sourceValid message.addresses.srcNodeId = true)
    (hshort : message.encodedLen ≤ DfuMessage.longestLen) (hroom : d.core.queue.toList.length < eventQueueLen) :
    (d.onMessage message.toBytes).2 = { d with core := d.core.post (arrival message) } := by
  have hfits : ¬ message.toBytes.length > maxEventBodyLen := by
    have hlongest : DfuMessage.longestLen = 1043 := rfl
    have hmost : maxEventBodyLen = 1447 := rfl
    rw [message.length_toBytes]
    omega
  have hkind : EventType.forFrameType (message.toBytes.byteAt 0) = some (arrival message).kind :=
    forFrameType_eq message
  have hevent : Event.message (arrival message).kind message.toBytes = .ok (arrival message) := if_neg hfits
  have hpush := (d.core.queue.toList_push (arrival message) (by rwa [RingQueue.length_toList] at hroom)).2
  simp only [onMessage, message.ofBody_toBytes, hself, ne_eq, not_true_eq_false, if_false, hvalid, Bool.not_true,
    Bool.false_eq_true, hkind, hevent, hpush, if_true]

end Arrival

/-! ### The host -/

/-- The host while it offers the image, or serves what remains of it. -/
structure Serves (o : Offer) (state : State) (remaining : UInt32) (d : Dfu ClientHost (Traced Port)) : Prop where
  state : d.core.state = state
  pending : d.core.pending = none
  self : d.core.selfNodeId = o.hostNodeId
  internal : d.core.internal = true
  client : d.roles.host.clientNodeId = o.clientNodeId
  info : d.roles.host.imgInfo = o.info
  remaining : d.roles.host.bytesRemaining = remaining
  image : d.fx.inner.image = o.image

section Host

variable {o : Offer} {d : Dfu ClientHost (Traced Port)}

/-- The update that the host was asked to begin. -/
def beginning (o : Offer) (notify : Bool) (timeoutMs : UInt32) : Event :=
  ⟨.beginHost, .hostStart ⟨⟨⟨o.hostNodeId, o.clientNodeId⟩, o.info⟩, notify, timeoutMs⟩⟩

theorem host_begins {notify : Bool} {timeoutMs : UInt32} (hstate : d.core.state = .idle)
    (hpending : d.core.pending = none) (hself : d.core.selfNodeId = o.hostNodeId) (hinternal : d.core.internal = true)
    (himage : d.fx.inner.image = o.image) (hcurrent : d.core.current = beginning o notify timeoutMs) :
    Serves o .hostReqUpdate o.info.imageSize (libSmRun d) ∧
      (libSmRun d).core.queue = (d.core.queue.push Event.none).1 ∧
      (libSmRun d).out = d.out ++ [o.startMessage] := by
  obtain ⟨⟨state, current, pending, error, selfNodeId, clientNodeId, notify', internal, queue, rebootInfo, clock,
    timers, periods, lost⟩, roles, fx⟩ := d
  dsimp only at hstate hpending hself hinternal himage hcurrent
  subst hstate hpending hself hinternal hcurrent
  exact ⟨⟨rfl, rfl, rfl, rfl, rfl, rfl, rfl, himage⟩, rfl, rfl⟩

/-- The event that comes with a change of state has nothing to say. -/
theorem host_idles {state : State} (hcurrent : d.core.current = Event.none) (hstate : d.core.state = state)
    (hwaits : state = .idle ∨ state = .hostReqUpdate ∨ state = .hostUpdate) (hpending : d.core.pending = none) :
    libSmRun d = d := by
  obtain ⟨⟨state', current, pending, error, selfNodeId, clientNodeId, notify', internal, queue, rebootInfo, clock,
    timers, periods, lost⟩, roles, fx⟩ := d
  dsimp only at hcurrent hstate hpending
  subst hcurrent hstate hpending
  rcases hwaits with rfl | rfl | rfl <;> rfl

theorem result_ack (c : Core) (hcurrent : c.current = arrival o.ackMessage) : Host.result c = some (1, .none) := by
  have hbody : c.current.body = some o.ackMessage.toBytes := by rw [hcurrent]; rfl
  have hlen : o.ackMessage.toBytes.length = 19 := o.ackMessage.length_toBytes
  have hfront : (o.ackMessage.frameType :: o.ackMessage.addresses.toBytes).length = 17 := by
    rw [List.length_cons, DfuAddress.length_toBytes]
    rfl
  have happend : o.ackMessage.toBytes = (o.ackMessage.frameType :: o.ackMessage.addresses.toBytes) ++ [1, 0] := rfl
  have hsuccess : o.ackMessage.toBytes.byteAt successOffset = 1 := by
    rw [happend, show successOffset = 17 from rfl, Bytes.byteAt_append_right hfront.le, hfront]
    rfl
  have herr : o.ackMessage.toBytes.byteAt errCodeOffset = 0 := by
    rw [happend, show errCodeOffset = 18 from rfl, Bytes.byteAt_append_right (hfront.le.trans (by decide)), hfront]
    rfl
  rw [Host.result, hbody]
  simp only [hsuccess, herr, hlen]
  rfl

theorem host_hears_ack {remaining : UInt32} (h : Serves o .hostReqUpdate remaining d)
    (hcurrent : d.core.current = arrival o.ackMessage) :
    Serves o .hostUpdate remaining (libSmRun d) ∧
      (libSmRun d).core.queue = (d.core.queue.push Event.none).1 ∧ (libSmRun d).out = d.out := by
  have hrun : runState d.core.state d = (d.stopTimer .ack).setPendingStateChange .hostUpdate := by
    rw [h.state]
    change ClientHost.onHost (Host.run · .hostReqUpdate) d = _
    have hkind : (ClientHost.asHost d).core.current.kind = .ackReceived := congrArg Event.kind hcurrent
    have hresult := result_ack ((ClientHost.asHost d).stopTimer .ack).core hcurrent
    simp only [ClientHost.onHost, Host.run, Host.reqUpdateRun, hkind, hresult]
    rfl
  unfold libSmRun
  dsimp only
  rw [hrun, h.state]
  exact ⟨⟨rfl, rfl, h.self, h.internal, h.client, h.info, h.remaining, h.image⟩, rfl, rfl⟩

/-- What is read for the next chunk is the image's. -/
theorem stored_chunk {p : Port} {k : Nat} (himage : p.image = o.image) (hk : k < o.count) :
    ((zeroChunk (o.chunk k).length).1.copyAt 0
      (p.stored (UInt32.ofNat (ImgInfo.len + k * o.info.chunkSize.toNat)) (o.chunk k).length)) = o.chunk k := by
  have hlen : ImgInfo.len = 18 := rfl
  have hmax : dfuMaxChunkSize = 1024 := rfl
  have hle := o.chunkSize_le
  have hcount : o.count ≤ 65535 := o.countable
  have hsmall : k * o.info.chunkSize.toNat ≤ 65535 * 1024 := Nat.mul_le_mul (by omega) (by omega)
  have hoffset : (UInt32.ofNat (ImgInfo.len + k * o.info.chunkSize.toNat)).toNat - ImgInfo.len =
      k * o.info.chunkSize.toNat := by
    rw [UInt32.toNat_ofNat']
    omega
  have hstored : p.stored (UInt32.ofNat (ImgInfo.len + k * o.info.chunkSize.toNat)) (o.chunk k).length =
      o.chunk k := by
    rw [Port.stored, hoffset, himage]
    exact List.take_eq_take_iff.mpr (by rw [Offer.length_chunk, List.length_drop]; omega)
  rw [hstored, Bytes.copyAt_zero_of_length]
  rw [(zeroChunk (o.chunk k).length).2]

/-- The next chunk is sent, whatever was asked for. -/
theorem host_sends_chunk {remaining : UInt32} {j k : Nat} (h : Serves o .hostUpdate remaining d)
    (hcurrent : d.core.current = arrival (o.requestMessage j)) (hk : k < o.count)
    (hremaining : remaining.toNat = o.image.length - k * o.info.chunkSize.toNat) :
    Serves o .hostUpdate (remaining - UInt32.ofNat (o.chunk k).length) (libSmRun d) ∧
      (libSmRun d).core.queue = d.core.queue ∧ (libSmRun d).out = d.out ++ [o.chunkMessage k] := by
  have hbody : (d.core.current.body).isSome = true := by rw [hcurrent]; rfl
  have hlen : min (ClientHost.asHost d).roles.nextChunkLen.toNat dfuMaxChunkSize = (o.chunk k).length := by
    have hle := o.chunkSize_le
    rw [toNat_nextChunkLen, show (ClientHost.asHost d).roles.bytesRemaining = remaining from h.remaining,
      show (ClientHost.asHost d).roles.imgInfo = o.info from h.info, hremaining, Offer.length_chunk]
    omega
  have hoffset : UInt32.ofNat ImgInfo.len + (ClientHost.asHost d).roles.imgInfo.imageSize -
      (ClientHost.asHost d).roles.bytesRemaining = UInt32.ofNat (ImgInfo.len + k * o.info.chunkSize.toNat) := by
    have hin := Offer.lt_count_iff.mp hk
    have hserved : remaining.toNat = o.info.imageSize.toNat - k * o.info.chunkSize.toNat := by rw [hremaining, o.size]
    have hle : min (k * o.info.chunkSize.toNat) o.info.imageSize.toNat = k * o.info.chunkSize.toNat := by
      rw [o.size]
      omega
    rw [show (ClientHost.asHost d).roles.bytesRemaining = remaining from h.remaining,
      show (ClientHost.asHost d).roles.imgInfo = o.info from h.info,
      offset_eq hserved, hle]
  have hread : Host.readChunk (ClientHost.asHost d) (o.chunk k).length =
      (some (o.chunk k).length, o.chunk k, ClientHost.asHost d) := by
    have hinternal : (ClientHost.asHost d).core.internal = true := h.internal
    rw [Host.readChunk, if_pos hinternal]
    dsimp only
    rw [hoffset]
    exact congrArg (fun b => (some (o.chunk k).length, b, ClientHost.asHost d)) (stored_chunk h.image hk)
  have hrun : runState d.core.state d = ({ d with roles := { d.roles with host := { d.roles.host with
      bytesRemaining := d.roles.host.bytesRemaining - UInt32.ofNat (o.chunk k).length } } } :
        Dfu ClientHost (Traced Port)).send (.payload ⟨Host.toClient (ClientHost.asHost d), o.chunk k⟩) := by
    rw [h.state]
    change ClientHost.onHost (Host.run · .hostUpdate) d = _
    have hkind : (ClientHost.asHost d).core.current.kind = .chunkRequest := congrArg Event.kind hcurrent
    have hbody' : (ClientHost.asHost d).core.current.body.isSome = true := hbody
    simp only [ClientHost.onHost, Host.run, Host.updateRun, hkind, hbody', if_true, Host.sendChunk, hlen, hread]
    rfl
  have haddress : Host.toClient (ClientHost.asHost d) = ⟨o.hostNodeId, o.clientNodeId⟩ := by
    rw [← h.self, ← h.client]
    rfl
  rw [libSmRun_of_none (by rw [hrun]; exact h.pending), hrun, h.remaining, haddress]
  exact ⟨⟨h.state, h.pending, h.self, h.internal, h.client, h.info, rfl, h.image⟩, rfl, rfl⟩

end Host

/-! ### The client -/

/-- The client before it hears of the image: its slot has room for it, and it is not the image it runs. -/
structure Idles (o : Offer) (pre : List FlashWrite) (v : Dfu Client (Traced Port)) : Prop where
  state : v.core.state = .idle
  pending : v.core.pending = none
  self : v.core.selfNodeId = o.clientNodeId
  page : v.roles.pageBuf.length = imgPageLen
  room : o.info.imageSize < v.fx.inner.size
  news : o.info.gitSha ≠ v.fx.inner.sha ∨ o.info.filterKey = imgInfoForceUpdate
  writes : v.fx.writes = pre

/-- The client that waits for the `k`th chunk. -/
structure Takes (o : Offer) (pre : List FlashWrite) (k : Nat) (v : Dfu Client (Traced Port)) : Prop where
  state : v.core.state = .clientReceiving
  pending : v.core.pending = none
  self : v.core.selfNodeId = o.clientNodeId
  host : v.roles.hostNodeId = o.hostNodeId
  holds : v.roles.Holds o.info
  current : v.roles.currentChunk = UInt16.ofNat k
  paging : ∃ ws, v.fx.writes = pre ++ ws ∧ v.roles.Paging ws (o.image.take (k * o.info.chunkSize.toNat))

/-- The client that has the whole image, and has validated it. -/
structure Validated (o : Offer) (pre : List FlashWrite) (v : Dfu Client (Traced Port)) : Prop where
  state : v.core.state = .clientValidating
  written : ∃ ws, v.fx.writes = pre ++ ws ∧ Contiguous 0 ws ∧ image ws = o.image
  offset : v.roles.flashOffset = o.info.imageSize
  crc : v.roles.runningCrc16 = crc16Ccitt 0 o.image
  good : o.info.crc16 = crc16Ccitt 0 o.image → v.core.pending = some .clientRebootReq
  bad : o.info.crc16 ≠ crc16Ccitt 0 o.image → v.core.error = .badCrc ∧ v.core.pending = some .error

section Client

variable {o : Offer} {pre : List FlashWrite} {v : Dfu Client (Traced Port)}

theorem openSlot_accepts {info : ImgInfo} (hroom : info.imageSize < v.fx.inner.size) : Client.openSlot v info =
    (((v.sendAck v.roles.hostNodeId 1 .none).setRebootInfo
      ⟨dfuRebootMagic, info.majorVer, info.minorVer, v.roles.hostNodeId, info.gitSha⟩).delay 10).setPendingStateChange
        .clientReceiving := by
  have hsize : ¬ v.fx.inner.size ≤ info.imageSize := UInt32.not_le.mpr hroom
  simp only [Client.openSlot, flashOpen_port, flashSize_port, flashErase_port, Bool.not_true, Bool.false_eq_true,
    if_false, if_neg hsize]
  rfl

/-- The client once it has taken up the offer. -/
def accept (o : Offer) (v : Dfu Client (Traced Port)) : Dfu Client (Traced Port) where
  core := { v.core with
    rebootInfo := ⟨dfuRebootMagic, o.info.majorVer, o.info.minorVer, o.hostNodeId, o.info.gitSha⟩
    clock := some (v.core.now + 10) }.setPendingStateChange .clientReceiving
  roles := { v.roles with
    hostNodeId := o.hostNodeId
    imageSize := o.info.imageSize
    numChunks := Client.numChunksOf o.info.imageSize o.info.chunkSize
    crc16 := o.info.crc16 }
  fx := Effects.send v.fx o.ackMessage

theorem processUpdateRequest_accepts (h : Idles o pre v) (hcurrent : v.core.current = arrival o.startMessage)
    (huntimed : (v.core.delay 10).timers = v.core.timers) : Client.processUpdateRequest v = accept o v := by
  have hoffer : v.core.current.body.bind Client.offerOf = some (⟨o.hostNodeId, o.clientNodeId⟩, o.info) := by
    rw [hcurrent]
    exact Client.offerOf_start ⟨⟨o.hostNodeId, o.clientNodeId⟩, o.info⟩
  have hnews : ¬ (o.info.gitSha = Effects.gitSha v.fx ∧ o.info.filterKey ≠ imgInfoForceUpdate) := by
    rintro ⟨hsha, hkey⟩
    exact h.news.elim (fun hother => hother hsha) hkey
  have hsize : ¬ o.info.chunkSize.toNat > dfuMaxChunkSize := Nat.not_lt.mpr o.chunkSize_le
  have hdelay := delay_untimed huntimed
    ⟨dfuRebootMagic, o.info.majorVer, o.info.minorVer, o.hostNodeId, o.info.gitSha⟩
  have haddress : v.core.addressTo o.hostNodeId = ⟨o.clientNodeId, o.hostNodeId⟩ := by rw [addressTo, h.self]
  simp only [Client.processUpdateRequest, hoffer]
  rw [if_neg hnews, if_neg hsize, openSlot_accepts (by exact h.room), accept, Offer.ackMessage, ← haddress]
  exact congrArg (fun core : Core =>
    (⟨core.setPendingStateChange .clientReceiving, _, _⟩ : Dfu Client (Traced Port))) hdelay

/-- Between the run of one state and the entry of the next. -/
def between (v : Dfu Client (Traced Port)) (next : State) : Dfu Client (Traced Port) :=
  { v with core := { v.core with pending := none, state := next } }

/-- The offer is taken up, and the first chunk asked for. -/
theorem client_accepts (h : Idles o pre v) :
    Takes o pre 0 (Client.entry (between (accept o v) .clientReceiving) .clientReceiving) ∧
      (Client.entry (between (accept o v) .clientReceiving) .clientReceiving).core.queue =
        (v.core.queue.push Event.none).1 ∧
      (Client.entry (between (accept o v) .clientReceiving) .clientReceiving).out =
        v.out ++ [o.ackMessage, o.requestMessage 0] := by
  have haddress : v.core.addressTo o.hostNodeId = ⟨o.clientNodeId, o.hostNodeId⟩ := by rw [addressTo, h.self]
  have hpaging : Client.Paging (accept o v).roles.restartTransfer [] (o.image.take (0 * o.info.chunkSize.toNat)) := by
    rw [Nat.zero_mul, List.take_zero]
    exact Client.paging_restart h.page
  refine ⟨⟨rfl, rfl, h.self, rfl, ⟨rfl, rfl, rfl⟩, rfl, [], ?_, hpaging.congr rfl rfl rfl rfl⟩, rfl, ?_⟩
  · exact h.writes.trans (List.append_nil _).symm
  · rw [Offer.requestMessage, ← haddress]
    exact List.append_assoc ..

/-- A chunk is read out of its body. -/
theorem chunkOf_payload (a : DfuAddress) {chunk : Bytes} (h : chunk.length ≤ dfuMaxChunkSize) :
    Client.chunkOf (DfuMessage.payload ⟨a, chunk⟩).toBytes = some chunk := by
  have hmax : dfuMaxChunkSize = 1024 := rfl
  have hfront : (0xD2 :: a.toBytes : Bytes).length = 17 := by
    rw [List.length_cons, DfuAddress.length_toBytes]
    rfl
  have happend : (DfuMessage.payload ⟨a, chunk⟩).toBytes =
      (0xD2 :: a.toBytes) ++ (u16ToLe (UInt16.ofNat chunk.length) ++ chunk) := rfl
  have hlen : (DfuMessage.payload ⟨a, chunk⟩).toBytes.length = 19 + chunk.length :=
    (DfuMessage.payload ⟨a, chunk⟩).length_toBytes
  have hcount : (UInt16.ofNat chunk.length).toNat = chunk.length := by
    rw [UInt16.toNat_ofNat']
    omega
  have htwo : (DfuMessage.payload ⟨a, chunk⟩).toBytes.slice? payloadLenOffset 2 =
      some (u16ToLe (UInt16.ofNat chunk.length)) := by
    rw [Bytes.slice?_of_le (by rw [hlen, show payloadLenOffset = 17 from rfl]; omega), happend,
      show payloadLenOffset = 17 from rfl, Bytes.slice_append_right hfront.le, hfront,
      Bytes.slice_append_self (by rw [length_u16ToLe])]
  have hrest : (DfuMessage.payload ⟨a, chunk⟩).toBytes.slice? payloadOffset chunk.length = some chunk := by
    rw [Bytes.slice?_of_le (by rw [hlen, show payloadOffset = 19 from rfl]), happend,
      show payloadOffset = 19 from rfl, Bytes.slice_append_right (hfront.le.trans (by decide)), hfront,
      Bytes.slice_append_right (by rw [length_u16ToLe]), length_u16ToLe, Bytes.slice_of_length rfl]
  simp only [Client.chunkOf, htwo, u16FromLe_u16ToLe, hcount, hrest, if_neg (Nat.not_lt.mpr h)]

theorem processPayload_inner (v : Dfu Client (Traced Port)) (chunk : Bytes) :
    (Client.processPayload v chunk).2.fx.inner = v.fx.inner := by
  unfold Client.processPayload
  split
  · rfl
  · dsimp only
    split
    · rfl
    · split <;> rfl

theorem finishTransfer_port (v : Dfu Client (Traced Port)) :
    (Client.finishTransfer v).core.pending = some .clientValidating := by
  by_cases h : v.roles.pageByteCounter = 0
  · rw [Client.finishTransfer_of_empty h]
    rfl
  · rw [Client.finishTransfer_of_wrote h rfl]
    rfl

variable {k : Nat}

theorem receivingRun_chunk (h : v.core.current = arrival (o.chunkMessage k)) :
    Client.receivingRun v = Client.receiveChunk v (o.chunk k) := by
  have hkind : v.core.current.kind = .imageChunk := congrArg Event.kind h
  have hlen : (o.chunk k).length ≤ dfuMaxChunkSize := by
    have hle := o.chunkSize_le
    rw [Offer.length_chunk]
    omega
  have hbody : v.core.current.body.bind Client.chunkOf = some (o.chunk k) := by
    rw [h]
    exact chunkOf_payload _ hlen
  simp only [Client.receivingRun, hkind, hbody]

/-- The pages of a slot that does what it is asked take every chunk. -/
theorem gatherChunk_port (h : Takes o pre k v) (hk : k < o.count) :
    ∃ ws, (Client.gatherChunk v (o.chunk k)).fx.writes = pre ++ ws ∧
      (Client.gatherChunk v (o.chunk k)).fx.inner = v.fx.inner ∧
      (Client.gatherChunk v (o.chunk k)).core = v.core.stopTimer .chunk ∧
      (Client.gatherChunk v (o.chunk k)).roles.currentChunk = UInt16.ofNat k ∧
      (Client.gatherChunk v (o.chunk k)).roles.Paging ws (o.image.take ((k + 1) * o.info.chunkSize.toNat)) := by
  obtain ⟨ws, hwrites, hpaging⟩ := h.paging
  have hle := o.chunkSize_le
  have hpos := o.chunkSize_pos
  have hin := Offer.lt_count_iff.mp hk
  have hlen := Offer.length_chunk (o := o) k
  have hsize := o.info.imageSize.toNat_lt
  rw [o.size] at hsize
  have hroom : (o.image.take (k * o.info.chunkSize.toNat)).length + (o.chunk k).length < 2 ^ 32 := by
    rw [List.length_take]
    omega
  have hsame : (Client.gatherChunk v (o.chunk k)).fx.inner = v.fx.inner := by
    rw [Client.gatherChunk_fx, processPayload_inner]
    rfl
  have hcurrent : (Client.gatherChunk v (o.chunk k)).roles.currentChunk = UInt16.ofNat k := by
    rw [Client.gatherChunk_roles, Client.processPayload_currentChunk]
    exact h.current
  have hgathers := Client.gatherChunk_gathers hpaging hwrites (hlen.trans_le (by omega)) hroom
  cases hgathers with
  | lost _ _ _ _ _ _ hfails =>
    cases hfails.2
  | kept ws' hwrites' hpaging' hfailed =>
    rw [Offer.take_chunk] at hpaging'
    refine ⟨ws', hwrites', hsame, ?_, hcurrent, hpaging'⟩
    cases hresult : (Client.processPayload (Client.hearChunk v (o.chunk k)) (o.chunk k)).1 with
    | false =>
      rw [hfailed hresult, List.length_nil] at hlen
      omega
    | true =>
      simp only [Client.gatherChunk, hresult, if_true]
      rw [Client.processPayload_core]
      rfl

/-- The client counts on, and knows its last chunk. -/
theorem current_lt_iff (hk : k < o.count) {c : Client} (hcurrent : c.currentChunk = UInt16.ofNat k)
    (hnum : c.numChunks = Client.numChunksOf o.info.imageSize o.info.chunkSize) :
    c.nextChunk.currentChunk = UInt16.ofNat (k + 1) ∧
      (c.nextChunk.currentChunk < c.nextChunk.numChunks ↔ k + 1 < o.count) := by
  have hcount : o.count ≤ 65535 := o.countable
  have hnext : c.nextChunk.currentChunk = UInt16.ofNat (k + 1) := by
    rw [Client.nextChunk, hcurrent, UInt16.ofNat_add]
    rfl
  refine ⟨hnext, ?_⟩
  have hnum' : c.nextChunk.numChunks = UInt16.ofNat o.count := hnum.trans Offer.numChunksOf_eq
  rw [hnext, hnum', UInt16.lt_iff_toNat_lt, UInt16.toNat_ofNat', UInt16.toNat_ofNat']
  omega

/-- A chunk that is not the last one: the next one is asked for. -/
theorem client_takes_chunk (h : Takes o pre k v) (hk : k + 1 < o.count) :
    Takes o pre (k + 1) (Client.receiveChunk v (o.chunk k)) ∧
      (Client.receiveChunk v (o.chunk k)).core.queue = v.core.queue ∧
      (Client.receiveChunk v (o.chunk k)).out = v.out ++ [o.requestMessage (k + 1)] := by
  obtain ⟨ws, hwrites, hinner, hcore, hcurrent, hpaging⟩ := gatherChunk_port h (Nat.lt_of_succ_lt hk)
  have hsame := Client.gatherChunk_sameUpdate v (o.chunk k)
  have hnum := hsame.numChunks.trans h.holds.numChunks
  obtain ⟨hnext, hmore⟩ := current_lt_iff (Nat.lt_of_succ_lt hk) hcurrent hnum
  have hself : (Client.gatherChunk v (o.chunk k)).core.selfNodeId = o.clientNodeId := by rw [hcore]; exact h.self
  have hhost : (Client.gatherChunk v (o.chunk k)).roles.hostNodeId = o.hostNodeId := hsame.hostNodeId.trans h.host
  have haddress : (Client.gatherChunk v (o.chunk k)).core.addressTo
      (Client.gatherChunk v (o.chunk k)).roles.hostNodeId = ⟨o.clientNodeId, o.hostNodeId⟩ := by
    rw [addressTo, hself, hhost]
  rw [Client.receiveChunk]
  dsimp only
  rw [if_pos (hmore.mpr hk)]
  refine ⟨⟨?_, ?_, hself, hhost,
    h.holds.of_sameUpdate ⟨hsame.imageSize, hsame.numChunks, hsame.crc16, hsame.hostNodeId⟩, hnext,
    ws, hwrites, hpaging.congr rfl rfl rfl rfl⟩, ?_, ?_⟩
  · exact (congrArg Core.state hcore).trans h.state
  · exact (congrArg Core.pending hcore).trans h.pending
  · exact (congrArg Core.queue hcore).trans rfl
  · rw [Offer.requestMessage, ← haddress, ← hnext, out, out, ← hinner]
    rfl

/-- The last chunk: what is left of a page is written, and the image is validated. -/
theorem client_takes_last (h : Takes o pre k v) (hk : k + 1 = o.count) :
    (Client.receiveChunk v (o.chunk k)).core.pending = some .clientValidating ∧
      Validated o pre (Client.entry (between (Client.receiveChunk v (o.chunk k)) .clientValidating)
        .clientValidating) := by
  obtain ⟨ws, hwrites, -, hcore, hcurrent, hpaging⟩ := gatherChunk_port h (show k < o.count by omega)
  have hsame := Client.gatherChunk_sameUpdate v (o.chunk k)
  have hnum := hsame.numChunks.trans h.holds.numChunks
  obtain ⟨-, hmore⟩ := current_lt_iff (show k < o.count by omega) hcurrent hnum
  have hholds := h.holds.of_sameUpdate (Client.receiveChunk_sameUpdate v (o.chunk k))
  have hlast : Client.receiveChunk v (o.chunk k) = Client.finishTransfer
      { Client.gatherChunk v (o.chunk k) with roles := (Client.gatherChunk v (o.chunk k)).roles.nextChunk } := by
    rw [Client.receiveChunk]
    dsimp only
    rw [if_neg fun hlt => absurd (hmore.mp hlt) (by omega)]
  rw [Offer.take_all hk.ge] at hpaging
  have hnext : (Client.gatherChunk v (o.chunk k)).roles.nextChunk.Paging ws o.image := hpaging.congr rfl rfl rfl rfl
  have hsize := o.info.imageSize.toNat_lt
  rw [o.size] at hsize
  obtain ⟨ws', hwrites', -, -, -, hend⟩ := Client.finishTransfer_flushes
    (d := { Client.gatherChunk v (o.chunk k) with roles := (Client.gatherChunk v (o.chunk k)).roles.nextChunk })
    hnext hwrites hsize
  have hpending := finishTransfer_port
    { Client.gatherChunk v (o.chunk k) with roles := (Client.gatherChunk v (o.chunk k)).roles.nextChunk }
  rw [← hlast] at hend hpending hwrites'
  have hflushed := (hend.resolve_right fun herror => by rw [hpending] at herror; cases herror).2
  have hoffset : (Client.receiveChunk v (o.chunk k)).roles.flashOffset = o.info.imageSize :=
    UInt32.toNat_inj.mp (hflushed.offset.trans o.size.symm)
  have hwhole : ¬ (Client.receiveChunk v (o.chunk k)).roles.imageSize ≠
      (Client.receiveChunk v (o.chunk k)).roles.flashOffset := not_not.mpr (hholds.imageSize.trans hoffset.symm)
  have hwritten : ∃ ws, (Client.receiveChunk v (o.chunk k)).fx.writes = pre ++ ws ∧
      Contiguous 0 ws ∧ image ws = o.image :=
    ⟨ws', hwrites', hflushed.contiguous, hflushed.written⟩
  refine ⟨hpending, ?_⟩
  change Validated o pre (Client.validatingEntry (between _ _))
  rw [Client.validatingEntry, if_neg (by exact hwhole)]
  split
  · rename_i hgood
    have hcrc : o.info.crc16 = crc16Ccitt 0 o.image := hholds.crc16.symm.trans (hgood.trans hflushed.crc)
    exact ⟨rfl, hwritten, hoffset, hflushed.crc, fun _ => rfl, fun hbad => absurd hcrc hbad⟩
  · rename_i hbad
    have hcrc : o.info.crc16 ≠ crc16Ccitt 0 o.image := by
      intro hgood
      exact hbad (hholds.crc16.trans (hgood.trans hflushed.crc.symm))
    exact ⟨rfl, hwritten, hoffset, hflushed.crc, fun hgood => absurd hgood hcrc, fun _ => ⟨rfl, rfl⟩⟩

end Client

end Bristlemouth.Dfu
