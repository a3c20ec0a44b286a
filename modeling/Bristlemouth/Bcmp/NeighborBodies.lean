import Bristlemouth.Wire.Record

/-!
# Neighbour table replies

`neighbors.rs`: a head with two counts, and the two arrays they count. A reply that has arrived keeps the
arrays as they came; one that is built takes lists.
-/

set_option autoImplicit false

namespace Bristlemouth

structure PortInfo where
  state : UInt8
  portType : UInt8
deriving DecidableEq

namespace PortInfo

def len : Nat := 2

def toBytes (p : PortInfo) : Bytes := [p.state, p.portType]

def decode (chunk : Bytes) : PortInfo := ⟨chunk.byteAt 0, chunk.byteAt 1⟩

end PortInfo

structure NeighborInfo where
  nodeId : UInt64
  port : UInt8
  online : UInt8
deriving DecidableEq

namespace NeighborInfo

def len : Nat := 10

def fields (n : NeighborInfo) : Fields := [(0, u64ToLe n.nodeId), (8, [n.port]), (9, [n.online])]

def toBytes (n : NeighborInfo) : Bytes := u64ToLe n.nodeId ++ [n.port, n.online]

def decode (chunk : Bytes) : NeighborInfo := ⟨u64At chunk 0, chunk.byteAt 8, chunk.byteAt 9⟩

end NeighborInfo

/-- A reply as it arrived. -/
structure NeighborTableReply where
  nodeId : UInt64
  ports : Bytes
  neighbors : Bytes
deriving DecidableEq

namespace NeighborTableReply

def headerLen : Nat := 11

/-- The counts are checked against what arrived. -/
def decode (buf : Bytes) : Except BmWireError NeighborTableReply :=
  match buf.slice? 0 headerLen with
  | none => .error .truncated
  | some head =>
    let portsBytes := (head.byteAt 8).toNat * PortInfo.len
    let neighborsBytes := (u16At head 9).toNat * NeighborInfo.len
    match buf.slice? headerLen (portsBytes + neighborsBytes) with
    | none => .error .truncated
    | some body =>
      .ok { nodeId := u64At head 0, ports := body.take portsBytes, neighbors := body.drop portsBytes }

def portCount (r : NeighborTableReply) : UInt8 := UInt8.ofNat (r.ports.length / PortInfo.len)

def neighborCount (r : NeighborTableReply) : UInt16 := UInt16.ofNat (r.neighbors.length / NeighborInfo.len)

/-- `ports()` -/
def portInfos (r : NeighborTableReply) : List PortInfo :=
  (Bytes.chunks PortInfo.len r.ports).map PortInfo.decode

/-- `neighbors()` -/
def neighborInfos (r : NeighborTableReply) : List NeighborInfo :=
  (Bytes.chunks NeighborInfo.len r.neighbors).map NeighborInfo.decode

def encodedLen (r : NeighborTableReply) : Nat := headerLen + r.ports.length + r.neighbors.length

end NeighborTableReply

/-- `write_head` -/
def neighborTableHead (nodeId : UInt64) (portLen : UInt8) (neighborLen : UInt16) : Fields :=
  [(0, u64ToLe nodeId), (8, [portLen]), (9, u16ToLe neighborLen)]

namespace NeighborTableReply

def fields (r : NeighborTableReply) : Fields :=
  neighborTableHead r.nodeId r.portCount r.neighborCount ++
    [(headerLen, r.ports), (headerLen + r.ports.length, r.neighbors)]

/-- `encode` of a reply that arrived. -/
def encodeInto (r : NeighborTableReply) (buf : Bytes) : Except EncodeError (Bytes × Nat) :=
  encodeRecord r.fields r.encodedLen buf

/-- Whole ports and neighbours, and no more than the head can count: a reply is made by `decode` only. -/
def Fits (r : NeighborTableReply) : Prop :=
  (∃ k ≤ 255, r.ports.length = PortInfo.len * k) ∧ ∃ m ≤ 65535, r.neighbors.length = NeighborInfo.len * m

end NeighborTableReply

/-! ### Building a reply -/

def neighborTableReplyLen (portCount neighborCount : Nat) : Nat :=
  NeighborTableReply.headerLen + portCount * PortInfo.len + neighborCount * NeighborInfo.len

/-- The loop over the ports, from `start`. -/
def portFields : Nat → List PortInfo → Fields
  | _, [] => []
  | start, port :: rest =>
    (start, [port.state]) :: (start + 1, [port.portType]) :: portFields (start + PortInfo.len) rest

/-- The loop over the neighbours, from `start`. -/
def neighborFields : Nat → List NeighborInfo → Fields
  | _, [] => []
  | start, neighbor :: rest =>
    neighbor.fields.shift start ++ neighborFields (start + NeighborInfo.len) rest

/-- What `encode_neighbor_table_reply` is given. -/
structure NeighborTableLists where
  nodeId : UInt64
  ports : List PortInfo
  neighbors : List NeighborInfo

namespace NeighborTableLists

def encodedLen (t : NeighborTableLists) : Nat := neighborTableReplyLen t.ports.length t.neighbors.length

def fields (t : NeighborTableLists) : Fields :=
  neighborTableHead t.nodeId (UInt8.ofNat t.ports.length) (UInt16.ofNat t.neighbors.length) ++
    (portFields NeighborTableReply.headerLen t.ports ++
      neighborFields (NeighborTableReply.headerLen + PortInfo.len * t.ports.length) t.neighbors)

/-- `encode_neighbor_table_reply_from` -/
def encodeInto (t : NeighborTableLists) (buf : Bytes) : Except EncodeError (Bytes × Nat) :=
  if t.ports.length > 255 ∨ t.neighbors.length > 65535 then .error (.error .invalid)
  else encodeRecord t.fields t.encodedLen buf

def ofReply (r : NeighborTableReply) : NeighborTableLists := ⟨r.nodeId, r.portInfos, r.neighborInfos⟩

/-- The reply that is read from what is built. -/
def reply (t : NeighborTableLists) : NeighborTableReply where
  nodeId := t.nodeId
  ports := t.ports.flatMap PortInfo.toBytes
  neighbors := t.neighbors.flatMap NeighborInfo.toBytes

end NeighborTableLists

/-! ### A reply that arrived -/

theorem adjacent_neighborTableHead (nodeId : UInt64) (portLen : UInt8) (neighborLen : UInt16) {more : Fields}
    (h : more.Adjacent 11) : (neighborTableHead nodeId portLen neighborLen ++ more).Adjacent 0 := by
  refine Fields.Adjacent.append ?_ ?_
  · simp [neighborTableHead]
  · simpa [neighborTableHead] using h

@[simp] theorem length_neighborTableHead (nodeId : UInt64) (portLen : UInt8) (neighborLen : UInt16) :
    (neighborTableHead nodeId portLen neighborLen).bytes.length = 11 := by
  simp [neighborTableHead]

namespace NeighborTableReply

theorem decode_eq (buf : Bytes) : decode buf =
    if 11 + (buf.byteAt 8).toNat * 2 + (u16At buf 9).toNat * 10 ≤ buf.length then
      .ok {
        nodeId := u64At buf 0
        ports := buf.slice 11 ((buf.byteAt 8).toNat * 2)
        neighbors := buf.slice (11 + (buf.byteAt 8).toNat * 2) ((u16At buf 9).toNat * 10) }
    else .error .truncated := by
  unfold decode
  by_cases hhead : 11 ≤ buf.length
  · have hports : (buf.slice 0 11).byteAt 8 = buf.byteAt 8 := by
      rw [Bytes.byteAt_slice (by decide)]
    have hneighbors : u16At (buf.slice 0 11) 9 = u16At buf 9 := u16At_slice (by decide)
    have hnode : u64At (buf.slice 0 11) 0 = u64At buf 0 := u64At_slice (by decide)
    rw [Bytes.slice?_of_le (show 0 + headerLen ≤ buf.length from (Nat.zero_add _).le.trans hhead)]
    simp only [headerLen, PortInfo.len, NeighborInfo.len, hports, hneighbors, hnode]
    by_cases hroom : 11 + (buf.byteAt 8).toNat * 2 + (u16At buf 9).toNat * 10 ≤ buf.length
    · rw [if_pos hroom, Bytes.slice?_of_le (by omega)]
      dsimp only
      congr 2
      · rw [Bytes.slice, Bytes.slice, List.take_take, Nat.min_eq_left (Nat.le_add_right _ _)]
      · rw [Bytes.slice, Bytes.slice, List.drop_take, List.drop_drop, Nat.add_sub_cancel_left]
    · rw [if_neg hroom, Bytes.slice?, if_neg (by omega)]
  · have hshort : ¬(0 + headerLen ≤ buf.length) := by
      rw [Nat.zero_add]
      exact hhead
    rw [Bytes.slice?, if_neg hshort, if_neg (by omega)]

theorem decode_iff (buf : Bytes) (r : NeighborTableReply) : decode buf = .ok r ↔
    r.Fits ∧ r.encodedLen ≤ buf.length ∧ r.fields.In buf := by
  rw [decode_eq, Fits, encodedLen, fields, Fields.in_append, portCount, neighborCount, headerLen,
    PortInfo.len, NeighborInfo.len]
  constructor
  · intro h
    split at h
    · rename_i hroom
      cases h
      have hports : (buf.slice 11 ((buf.byteAt 8).toNat * 2)).length = (buf.byteAt 8).toNat * 2 :=
        Bytes.length_slice (by omega)
      have hneighbors : (buf.slice (11 + (buf.byteAt 8).toNat * 2) ((u16At buf 9).toNat * 10)).length =
          (u16At buf 9).toNat * 10 := Bytes.length_slice hroom
      have hfirst := (buf.byteAt 8).toNat_lt
      have hsecond := (u16At buf 9).toNat_lt
      dsimp only
      rw [hports, hneighbors]
      refine ⟨⟨⟨(buf.byteAt 8).toNat, by omega, Nat.mul_comm _ _⟩,
        ⟨(u16At buf 9).toNat, by omega, Nat.mul_comm _ _⟩⟩, by omega, ?_, ?_⟩
      · simp [neighborTableHead, slice_eq_u64ToLe (show 0 + 8 ≤ buf.length by omega),
          slice_eq_u16ToLe (show 9 + 2 ≤ buf.length by omega),
          Bytes.slice_one (show 8 < buf.length by omega)]
      · simp [hports, hneighbors]
    · cases h
  · rintro ⟨⟨⟨k, hk, hports⟩, m, hm, hneighbors⟩, hroom, hhead, hin⟩
    obtain ⟨nodeId, ports, neighbors⟩ := r
    dsimp only at *
    rw [hports, hneighbors, Nat.mul_div_cancel_left _ (by decide), Nat.mul_div_cancel_left _ (by decide)] at hhead
    simp only [neighborTableHead, Fields.in_cons, Fields.in_nil, and_true, length_u64ToLe, length_u16ToLe,
      List.length_singleton] at hhead hin
    obtain ⟨hnode, hportCount, hneighborCount⟩ := hhead
    obtain ⟨hportBytes, hneighborBytes⟩ := hin
    have hn : (buf.byteAt 8).toNat * 2 = ports.length := by
      rw [byteAt_of_slice hportCount, toNat_ofNat_u8 hk, hports, Nat.mul_comm]
    have hl : (u16At buf 9).toNat * 10 = neighbors.length := by
      rw [u16At_of_slice hneighborCount, toNat_ofNat_u16 hm, hneighbors, Nat.mul_comm]
    rw [hn, hl, if_pos (by omega), hportBytes, hneighborBytes, u64At_of_slice hnode]

def codec : BodyCodec NeighborTableReply where
  Fits := Fits
  encodedLen := encodedLen
  encode := encodeInto
  decode := decode

theorem adjacent_fields (r : NeighborTableReply) : r.fields.Adjacent 0 :=
  adjacent_neighborTableHead _ _ _ (by simp [headerLen])

theorem length_fields (r : NeighborTableReply) : r.fields.bytes.length = r.encodedLen := by
  rw [fields, Fields.bytes_append, List.length_append, length_neighborTableHead]
  simp [encodedLen, headerLen]
  omega

theorem roundTrips : codec.RoundTrips := by
  apply Codec.roundTrips_of_fields fields
  · exact Codec.normal_id rfl _
  · exact fun r _ => r.adjacent_fields
  · exact fun r _ => r.length_fields
  · intro r _ buf written hwrite hroom
    exact encodeRecord_of_write hwrite hroom
  · exact decode_iff

end NeighborTableReply

/-! ### A reply that is built -/

theorem adjacent_portFields (start : Nat) (ports : List PortInfo) : (portFields start ports).Adjacent start := by
  induction ports generalizing start with
  | nil => trivial
  | cons port rest ih => exact ⟨rfl, rfl, ih _⟩

theorem bytes_portFields (start : Nat) (ports : List PortInfo) :
    (portFields start ports).bytes = ports.flatMap PortInfo.toBytes := by
  induction ports generalizing start with
  | nil => rfl
  | cons port rest ih =>
    rw [portFields, Fields.bytes_cons, Fields.bytes_cons, ih, List.flatMap_cons]
    rfl

theorem adjacent_neighborFields (start : Nat) (neighbors : List NeighborInfo) :
    (neighborFields start neighbors).Adjacent start := by
  induction neighbors generalizing start with
  | nil => trivial
  | cons neighbor rest ih =>
    have hone : neighbor.fields.Adjacent 0 := by
      simp [NeighborInfo.fields]
    refine Fields.Adjacent.append (hone.shift start) ?_
    rw [Fields.bytes_shift]
    have hlen : neighbor.fields.bytes.length = NeighborInfo.len := by
      simp [NeighborInfo.fields, NeighborInfo.len]
    rw [hlen]
    exact ih _

theorem bytes_neighborFields (start : Nat) (neighbors : List NeighborInfo) :
    (neighborFields start neighbors).bytes = neighbors.flatMap NeighborInfo.toBytes := by
  induction neighbors generalizing start with
  | nil => rfl
  | cons neighbor rest ih =>
    rw [neighborFields, Fields.bytes_append, Fields.bytes_shift, ih, List.flatMap_cons]
    simp [NeighborInfo.fields, NeighborInfo.toBytes]

@[simp] theorem PortInfo.length_toBytes (p : PortInfo) : p.toBytes.length = PortInfo.len := rfl

@[simp] theorem NeighborInfo.length_toBytes (n : NeighborInfo) : n.toBytes.length = NeighborInfo.len := by
  simp [NeighborInfo.toBytes, NeighborInfo.len]

theorem length_flatMap_const {α : Type} {f : α → Bytes} {n : Nat} (h : ∀ a, (f a).length = n) (l : List α) :
    (l.flatMap f).length = n * l.length := by
  induction l with
  | nil => rfl
  | cons a rest ih =>
    rw [List.flatMap_cons, List.length_append, h, ih, List.length_cons, Nat.mul_succ]
    omega

theorem PortInfo.decode_toBytes (p : PortInfo) : PortInfo.decode p.toBytes = p := rfl

theorem PortInfo.toBytes_decode {chunk : Bytes} (h : chunk.length = PortInfo.len) :
    (PortInfo.decode chunk).toBytes = chunk := by
  rw [PortInfo.len, List.length_eq_two] at h
  obtain ⟨a, b, rfl⟩ := h
  rfl

theorem NeighborInfo.decode_toBytes (n : NeighborInfo) : NeighborInfo.decode n.toBytes = n := by
  simp [NeighborInfo.decode, NeighborInfo.toBytes, u64At, Bytes.slice_append_self, Bytes.byteAt_append_right]

theorem NeighborInfo.toBytes_decode {chunk : Bytes} (h : chunk.length = NeighborInfo.len) :
    (NeighborInfo.decode chunk).toBytes = chunk := by
  rw [NeighborInfo.len] at h
  have htwo : [chunk.byteAt 8, chunk.byteAt 9] = chunk.slice 8 2 := by
    rw [← Bytes.slice_add chunk 8 1 1, Bytes.slice_one (by omega), Bytes.slice_one (by omega)]
    rfl
  rw [NeighborInfo.decode, NeighborInfo.toBytes, ← slice_u64At (by omega), htwo, Bytes.slice_add,
    Bytes.slice_of_length h]

namespace NeighborTableLists

def Fits (t : NeighborTableLists) : Prop := t.ports.length ≤ 255 ∧ t.neighbors.length ≤ 65535

def codec : BodyCodec NeighborTableLists where
  Fits := Fits
  encodedLen := encodedLen
  encode := encodeInto
  decode buf := (NeighborTableReply.decode buf).map ofReply

theorem length_ports (t : NeighborTableLists) : t.reply.ports.length = PortInfo.len * t.ports.length :=
  length_flatMap_const PortInfo.length_toBytes t.ports

theorem length_neighbors (t : NeighborTableLists) :
    t.reply.neighbors.length = NeighborInfo.len * t.neighbors.length :=
  length_flatMap_const NeighborInfo.length_toBytes t.neighbors

theorem adjacent_fields (t : NeighborTableLists) : t.fields.Adjacent 0 := by
  apply adjacent_neighborTableHead
  apply (adjacent_portFields _ _).append
  rw [bytes_portFields, length_flatMap_const PortInfo.length_toBytes]
  exact adjacent_neighborFields _ _

/-- Built from lists or taken as it came, a reply has the same bytes. -/
theorem bytes_fields (t : NeighborTableLists) : t.fields.bytes = t.reply.fields.bytes := by
  have hports : t.reply.portCount = UInt8.ofNat t.ports.length := by
    rw [NeighborTableReply.portCount, t.length_ports, Nat.mul_div_cancel_left _ (by decide)]
  have hneighbors : t.reply.neighborCount = UInt16.ofNat t.neighbors.length := by
    rw [NeighborTableReply.neighborCount, t.length_neighbors, Nat.mul_div_cancel_left _ (by decide)]
  rw [fields, NeighborTableReply.fields, hports, hneighbors, Fields.bytes_append, Fields.bytes_append,
    Fields.bytes_append, bytes_portFields, bytes_neighborFields]
  simp [reply]

theorem encodedLen_reply (t : NeighborTableLists) : t.reply.encodedLen = t.encodedLen := by
  rw [NeighborTableReply.encodedLen, t.length_ports, t.length_neighbors, encodedLen, neighborTableReplyLen,
    Nat.mul_comm PortInfo.len, Nat.mul_comm NeighborInfo.len]

theorem ofReply_reply (t : NeighborTableLists) : ofReply t.reply = t := by
  have hports : t.reply.portInfos = t.ports := by
    rw [NeighborTableReply.portInfos, reply, Bytes.chunks_flatMap (by decide) PortInfo.length_toBytes,
      List.map_map, show PortInfo.decode ∘ PortInfo.toBytes = id from funext PortInfo.decode_toBytes,
      List.map_id]
  have hneighbors : t.reply.neighborInfos = t.neighbors := by
    rw [NeighborTableReply.neighborInfos, reply,
      Bytes.chunks_flatMap (by decide) NeighborInfo.length_toBytes, List.map_map,
      show NeighborInfo.decode ∘ NeighborInfo.toBytes = id from funext NeighborInfo.decode_toBytes, List.map_id]
  rw [ofReply, hports, hneighbors]
  rfl

theorem flatMap_chunks {α : Type} {n k : Nat} (hn : 0 < n) {f : α → Bytes} {g : Bytes → α}
    (hfg : ∀ chunk : Bytes, chunk.length = n → f (g chunk) = chunk) {buf : Bytes} (h : buf.length = n * k) :
    ((Bytes.chunks n buf).map g).flatMap f = buf := by
  rw [List.flatMap_map]
  conv_rhs => rw [← Bytes.flatten_chunks hn h]
  rw [List.flatMap_def]
  congr 1
  conv_rhs => rw [← List.map_id (Bytes.chunks n buf)]
  apply List.map_congr_left
  intro chunk hchunk
  exact hfg chunk (Bytes.length_of_mem_chunks hchunk)

theorem reply_ofReply {r : NeighborTableReply} (h : r.Fits) : (ofReply r).reply = r := by
  obtain ⟨⟨k, -, hports⟩, m, -, hneighbors⟩ := h
  have hleft : (ofReply r).reply.ports = r.ports :=
    flatMap_chunks (by decide) (fun _ => PortInfo.toBytes_decode) hports
  have hright : (ofReply r).reply.neighbors = r.neighbors :=
    flatMap_chunks (by decide) (fun _ => NeighborInfo.toBytes_decode) hneighbors
  obtain ⟨nodeId, ports, neighbors⟩ := r
  exact congrArg₂ (NeighborTableReply.mk nodeId) hleft hright

theorem fits_reply {t : NeighborTableLists} (h : t.Fits) : t.reply.Fits :=
  ⟨⟨_, h.1, t.length_ports⟩, _, h.2, t.length_neighbors⟩

theorem fits_ofReply {r : NeighborTableReply} (h : r.Fits) : (ofReply r).Fits := by
  have hsame := reply_ofReply h
  obtain ⟨⟨k, hk, hports⟩, m, hm, hneighbors⟩ := h
  have hleft := (ofReply r).length_ports
  have hright := (ofReply r).length_neighbors
  rw [hsame] at hleft hright
  rw [hports, PortInfo.len] at hleft
  rw [hneighbors, NeighborInfo.len] at hright
  exact ⟨by omega, by omega⟩

theorem roundTrips : codec.RoundTrips := by
  apply Codec.roundTrips_of_bytes (fun t => t.fields.bytes)
  · intro t _
    rw [bytes_fields, NeighborTableReply.length_fields]
    exact t.encodedLen_reply
  · rintro t ⟨hports, hneighbors⟩ buf hroom
    have hlen : t.fields.bytes.length = t.encodedLen := by
      rw [bytes_fields, NeighborTableReply.length_fields, encodedLen_reply]
    change encodeInto t buf = .ok (_, t.encodedLen)
    rw [encodeInto, if_neg (by omega)]
    exact encodeRecord_of_write (Fields.write_adjacent t.adjacent_fields hlen hroom) hroom
  · intro t hfits trailing
    have hread : NeighborTableReply.decode (t.fields.bytes ++ trailing) = .ok t.reply := by
      refine (NeighborTableReply.decode_iff _ _).mpr ⟨fits_reply hfits, ?_, ?_⟩
      · rw [bytes_fields, List.length_append, NeighborTableReply.length_fields]
        exact Nat.le_add_right _ _
      · rw [bytes_fields]
        exact @Fields.in_of_bytes _ _ t.reply.adjacent_fields [] rfl trailing
    change (NeighborTableReply.decode _).map ofReply = _
    rw [hread, Except.map, ofReply_reply]
  · intro buf t h
    change (NeighborTableReply.decode buf).map ofReply = .ok t at h
    cases hread : NeighborTableReply.decode buf with
    | error e =>
      rw [hread] at h
      cases h
    | ok r =>
      rw [hread] at h
      cases h
      obtain ⟨hfits, hlen, hin⟩ := (NeighborTableReply.decode_iff _ _).mp hread
      have hsame := (ofReply r).encodedLen_reply
      rw [reply_ofReply hfits] at hsame
      change (ofReply r).Fits ∧ (ofReply r).encodedLen ≤ buf.length ∧ _ = buf.take (ofReply r).encodedLen
      refine ⟨fits_ofReply hfits, hsame ▸ hlen, ?_⟩
      rw [bytes_fields, reply_ofReply hfits, Fields.bytes_of_in r.adjacent_fields hin,
        NeighborTableReply.length_fields, hsame]
      rfl

end NeighborTableLists

end Bristlemouth
