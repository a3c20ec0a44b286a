import Bristlemouth.Wire.Checksum
import Bristlemouth.Wire.Udp

/-!
# Datagrams from `build` to `accept`

`build` of `udp.rs`. A frame it makes is read back field by field, whatever follows it, and its checksum
makes the one's-complement sum of the datagram and the pseudo-header come out as all ones.
-/

set_option autoImplicit false

namespace Bristlemouth

@[simp] def udpLengthOffset : Nat := udpDestinationPortOffset + 2

def uniqueLocalPrefix : UInt32 := 0xFD000000

def scopeLinkLocal : UInt8 := 2

namespace Datagram

def maxPayloadLen : Nat := 65535 - udpHeaderLen

/-- lwIP gives the address a scope no wider than link-local. -/
def hasLinkLocalScope (dst : BmIpAddr) : Bool :=
  let linkLocal := dst.octets.byteAt 0 == 0xFE && dst.octets.byteAt 1 &&& 0xC0 == 0x80
  let loopback := (dst.octets.take 15).all (· == 0) && dst.octets.byteAt 15 == 1
  let multicast := dst.octets.byteAt 0 == 0xFF && decide (dst.octets.byteAt 1 &&& 0x0F ≤ scopeLinkLocal)
  linkLocal || loopback || multicast

/-- The address a node sends from. -/
def sourceAddress (nodeId : UInt64) (dst : BmIpAddr) : BmIpAddr :=
  nodeidToIp (if hasLinkLocalScope dst then linkLocalPrefix else uniqueLocalPrefix) nodeId

/-- What `build_with` is given: the rest of the buffer filled in, and how much was written. -/
abbrev PayloadWriter :=
  (out : Bytes) → Except BmWireError ({ b : Bytes // b.length = out.length } × Nat)

/-- The checksum as it is stored: a computed zero is sent as all ones. -/
def storedChecksum (src dst : BmIpAddr) (datagram : Bytes) : UInt16 :=
  let checksum := swapBytes (ipv6PseudoChecksum src dst ipProtoUdp datagram)
  if checksum = 0 then 0xFFFF else checksum

/-- The buffer afterwards and the frame's length. -/
def buildWith (buf : Bytes) (src dst : BmIpAddr) (srcPort dstPort : UInt16) (payload : PayloadWriter) :
    Except BmWireError (Bytes × Nat) := do
  if buf.length < payloadOffset then throw .truncated
  let (out, payloadLen) ← payload (buf.drop payloadOffset)
  if maxPayloadLen < payloadLen then throw .invalid
  let udpLen := udpHeaderLen + payloadLen
  let stop := minFrameWithAddresses + udpLen
  let whole := buf.take payloadOffset ++ out.val
  if whole.length < stop then throw .truncated
  let frame ← writeHeaders (whole.take stop) src dst ipProtoUdp hopLimit udpLen
  if 65535 < udpLen then throw .invalid
  let frame := frame.copyAt udpSourcePortOffset (u16ToBe srcPort)
  let frame := frame.copyAt udpDestinationPortOffset (u16ToBe dstPort)
  let frame := frame.copyAt udpLengthOffset (u16ToBe (UInt16.ofNat udpLen))
  let frame := frame.copyAt udpChecksumOffset (u16ToBe 0)
  let checksum := storedChecksum src dst (frame.drop udpSourcePortOffset)
  return (frame.copyAt udpChecksumOffset (u16ToBe checksum) ++ whole.drop stop, stop)

theorem length_front {data out : Bytes} (h : data.length ≤ out.length) :
    (out.copyAt 0 data).length = out.length :=
  Bytes.length_copyAt out 0 data (by rw [Nat.zero_add]; exact h)

def build (buf : Bytes) (src dst : BmIpAddr) (srcPort dstPort : UInt16) (payload : Bytes) :
    Except BmWireError (Bytes × Nat) :=
  if maxPayloadLen < payload.length then .error .invalid
  else buildWith buf src dst srcPort dstPort fun out =>
    if h : payload.length ≤ out.length then
      .ok (⟨out.copyAt 0 payload, length_front h⟩, payload.length)
    else .error .truncated

/-! ### The frame that is built -/

/-- A datagram as it goes over the wire. -/
def bytes (srcPort dstPort checksum : UInt16) (payload : Bytes) : Bytes :=
  u16ToBe srcPort ++ (u16ToBe dstPort ++ (u16ToBe (UInt16.ofNat (udpHeaderLen + payload.length)) ++
    (u16ToBe checksum ++ payload)))

def frameBytes (src dst : BmIpAddr) (srcPort dstPort : UInt16) (payload : Bytes) : Bytes :=
  headerBytes src dst ipProtoUdp hopLimit (UInt16.ofNat (udpHeaderLen + payload.length)) ++
    bytes srcPort dstPort (storedChecksum src dst (bytes srcPort dstPort 0 payload)) payload

variable {src dst : BmIpAddr} {srcPort dstPort : UInt16} {payload : Bytes}

@[simp] theorem length_bytes (srcPort dstPort checksum : UInt16) (payload : Bytes) :
    (bytes srcPort dstPort checksum payload).length = udpHeaderLen + payload.length := by
  simp [bytes]
  omega

theorem length_frameBytes : (frameBytes src dst srcPort dstPort payload).length = payloadOffset + payload.length := by
  simp [frameBytes, payloadOffset]
  omega

/-- The writes of the UDP header, over whatever was there. -/
theorem header_writes (headers filler : Bytes) (hheaders : headers.length = 54)
    (hfiller : filler.length = 8) :
    let frame := (headers ++ (filler ++ payload)).copyAt udpSourcePortOffset (u16ToBe srcPort)
    let frame := frame.copyAt udpDestinationPortOffset (u16ToBe dstPort)
    let frame := frame.copyAt udpLengthOffset (u16ToBe (UInt16.ofNat (udpHeaderLen + payload.length)))
    frame.copyAt udpChecksumOffset (u16ToBe 0) = headers ++ bytes srcPort dstPort 0 payload := by
  dsimp only
  rw [Bytes.copyAt_append_at _ (by simp [hheaders]), Bytes.copyAt_append_at _ (by simp [hheaders]),
    Bytes.copyAt_append_at _ (by simp [hheaders]), Bytes.copyAt_append_at _ (by simp [hheaders])]
  simp [bytes, List.drop_append, hfiller]

theorem checksum_write (headers : Bytes) (checksum : UInt16) (hheaders : headers.length = 54) :
    (headers ++ bytes srcPort dstPort 0 payload).copyAt udpChecksumOffset (u16ToBe checksum) =
      headers ++ bytes srcPort dstPort checksum payload := by
  have hsplit : ∀ c, headers ++ bytes srcPort dstPort c payload =
      (headers ++ (u16ToBe srcPort ++ (u16ToBe dstPort ++
        u16ToBe (UInt16.ofNat (udpHeaderLen + payload.length))))) ++ (u16ToBe c ++ payload) := by
    intro c
    simp only [bytes, List.append_assoc]
  rw [hsplit, hsplit, Bytes.copyAt_append_at _ (by simp [hheaders])]
  simp

/-- What `build_with` has checked, and the buffer it leaves. -/
theorem buildWith_eq_ok {buf out : Bytes} {n : Nat} {writer : PayloadWriter}
    (h : buildWith buf src dst srcPort dstPort writer = .ok (out, n)) :
    ∃ written len, writer (buf.drop payloadOffset) = .ok (written, len) ∧ len ≤ maxPayloadLen ∧
      n = payloadOffset + len ∧ n ≤ buf.length ∧
      out = frameBytes src dst srcPort dstPort (written.val.take len) ++ written.val.drop len := by
  unfold buildWith at h
  by_cases hroom : buf.length < payloadOffset
  · rw [if_pos hroom] at h
    cases h
  rw [if_neg hroom] at h
  rcases hwriter : writer (buf.drop payloadOffset) with e | ⟨written, len⟩
  · rw [hwriter] at h
    cases h
  rw [hwriter] at h
  have hoff : payloadOffset = 62 := rfl
  have hmin : minFrameWithAddresses = 54 := rfl
  have hheader : udpHeaderLen = 8 := rfl
  have hwritten : written.val.length = buf.length - payloadOffset := written.property.trans List.length_drop
  simp only [bind, Except.bind, pure, Except.pure, throw, throwThe, MonadExceptOf.throw] at h
  by_cases hlen : maxPayloadLen < len
  · rw [if_pos hlen] at h
    cases h
  rw [if_neg hlen] at h
  by_cases hfit : (buf.take payloadOffset ++ written.val).length < minFrameWithAddresses + (udpHeaderLen + len)
  · rw [if_pos hfit] at h
    cases h
  rw [if_neg hfit] at h
  have hmax : len ≤ 65527 := Nat.le_of_not_lt hlen
  have htake : (buf.take payloadOffset).length = 62 := by
    rw [List.length_take]
    omega
  rw [List.length_append, htake] at hfit
  have hsent : (written.val.take len).length = len := by
    rw [List.length_take]
    omega
  have hfront : (buf.take payloadOffset ++ written.val).take (minFrameWithAddresses + (udpHeaderLen + len)) =
      buf.take payloadOffset ++ written.val.take len := by
    rw [List.take_append, htake, List.take_of_length_le (by omega)]
    congr 2
    omega
  have hback : (buf.take payloadOffset ++ written.val).drop (minFrameWithAddresses + (udpHeaderLen + len)) =
      written.val.drop len := by
    rw [List.drop_append, htake, List.drop_of_length_le (by omega), List.nil_append]
    congr 1
    omega
  have hdrop : (buf.take payloadOffset ++ written.val.take len).drop minFrameWithAddresses =
      (buf.take payloadOffset).drop minFrameWithAddresses ++ written.val.take len :=
    List.drop_append_of_le_length (by omega)
  have hfiller : ((buf.take payloadOffset).drop minFrameWithAddresses).length = 8 := by
    rw [List.length_drop, htake, hmin]
  rw [hfront, hback, writeHeaders, if_neg (by omega), if_neg (by rw [List.length_append, htake]; omega)] at h
  simp only [headerWrites_eq, hdrop] at h
  rw [if_neg (by omega)] at h
  generalize hpayload : written.val.take len = sent at *
  subst hsent
  generalize hheaders : headerBytes src dst ipProtoUdp hopLimit (UInt16.ofNat (udpHeaderLen + sent.length)) = headers at h
  have hlenHeaders : headers.length = 54 := by
    rw [← hheaders]
    exact length_headerBytes _ _ _ _ _
  have hwrites := @header_writes srcPort dstPort sent headers _ hlenHeaders hfiller
  dsimp only at hwrites
  rw [hwrites, List.drop_left' (by rw [hlenHeaders]; rfl), checksum_write headers _ hlenHeaders] at h
  injection h with h
  injection h with hout hn
  have hstop : n = payloadOffset + sent.length := by omega
  refine ⟨written, sent.length, rfl, hmax, hstop, ?_, ?_⟩
  · rw [hstop]
    have := congrArg List.length hpayload
    rw [List.length_take] at this
    omega
  · rw [← hout, hpayload, frameBytes, hheaders, List.append_assoc]

/-- What `build` has checked, and the buffer it leaves. -/
theorem build_eq_ok {buf out : Bytes} {n : Nat} (h : build buf src dst srcPort dstPort payload = .ok (out, n)) :
    payload.length ≤ maxPayloadLen ∧ n = payloadOffset + payload.length ∧ n ≤ buf.length ∧
      out = frameBytes src dst srcPort dstPort payload ++ buf.drop n := by
  unfold build at h
  by_cases hlen : maxPayloadLen < payload.length
  · rw [if_pos hlen] at h
    cases h
  rw [if_neg hlen] at h
  obtain ⟨written, len, hwriter, -, hn, hfit, hout⟩ := buildWith_eq_ok h
  split_ifs at hwriter with hroom
  cases hwriter
  have hcopy : Bytes.copyAt (buf.drop payloadOffset) 0 payload =
      payload ++ (buf.drop payloadOffset).drop payload.length := by
    rw [Bytes.copyAt, List.take_zero, List.nil_append, Nat.zero_add]
  refine ⟨Nat.le_of_not_lt hlen, hn, hfit, ?_⟩
  rw [hout]
  dsimp only
  rw [hcopy, List.take_left, List.drop_left, List.drop_drop, hn]

/-! ### The checksum -/

theorem wordSum_u16ToBe (x : UInt16) : wordSum (u16ToBe x) = x.toNat := by
  have hlt := x.toNat_lt
  simp only [u16ToBe, Bytes.beBytes, Bytes.leBytes, List.reverse_cons, List.reverse_nil, List.nil_append,
    List.cons_append, wordSum, UInt8.toNat_ofNat']
  omega

/-- The checksum field counts as the word it holds. -/
theorem wordSum_bytes (srcPort dstPort checksum : UInt16) (payload : Bytes) :
    wordSum (bytes srcPort dstPort checksum payload) =
      wordSum (bytes srcPort dstPort 0 payload) + checksum.toNat := by
  simp only [bytes]
  rw [wordSum_append (by simp), wordSum_append (by simp), wordSum_append (by simp), wordSum_append (by simp),
    wordSum_append (by simp), wordSum_append (by simp), wordSum_append (by simp), wordSum_append (by simp),
    wordSum_u16ToBe checksum, wordSum_u16ToBe 0]
  simp
  omega

theorem pseudoSum_bytes (src dst : BmIpAddr) (srcPort dstPort checksum : UInt16) (payload : Bytes) :
    pseudoSum src dst ipProtoUdp (bytes srcPort dstPort checksum payload) =
      pseudoSum src dst ipProtoUdp (bytes srcPort dstPort 0 payload) + checksum.toNat := by
  simp only [pseudoSum, length_bytes, wordSum_bytes srcPort dstPort checksum]
  omega

/-- The checksum that is computed over a datagram, in network order. -/
def computed (src dst : BmIpAddr) (datagram : Bytes) : Nat :=
  65535 - OnesComplement.fold (pseudoSum src dst ipProtoUdp datagram)

theorem toNat_storedChecksum (src dst : BmIpAddr) {datagram : Bytes} (h : datagram.length < 65536) :
    (storedChecksum src dst datagram).toNat =
      if computed src dst datagram = 0 then 65535 else computed src dst datagram := by
  have hlt := OnesComplement.fold_lt (pseudoSum src dst ipProtoUdp datagram)
  have hswapped : (swapBytes (ipv6PseudoChecksum src dst ipProtoUdp datagram)).toNat = computed src dst datagram := by
    rw [toNat_swapBytes, toNat_ipv6PseudoChecksum src dst ipProtoUdp h,
      OnesComplement.swap_compl (OnesComplement.swap_lt _), OnesComplement.swap_swap hlt, computed]
  have hzero : swapBytes (ipv6PseudoChecksum src dst ipProtoUdp datagram) = 0 ↔ computed src dst datagram = 0 := by
    rw [← hswapped, ← UInt16.toNat_inj]
    rfl
  unfold storedChecksum
  by_cases h₀ : computed src dst datagram = 0
  · rw [if_pos h₀, if_pos (hzero.mpr h₀)]
    rfl
  · rw [if_neg h₀, if_neg (mt hzero.mp h₀), hswapped]

theorem storedChecksum_ne_zero (src dst : BmIpAddr) (datagram : Bytes) : storedChecksum src dst datagram ≠ 0 := by
  unfold storedChecksum
  dsimp only
  split
  · decide
  · assumption

/-- With the stored checksum in it, the datagram and its pseudo-header sum up to all ones. -/
theorem fold_stored (src dst : BmIpAddr) (srcPort dstPort : UInt16) (hlen : payload.length ≤ maxPayloadLen) :
    OnesComplement.fold (pseudoSum src dst ipProtoUdp (bytes srcPort dstPort
      (storedChecksum src dst (bytes srcPort dstPort 0 payload)) payload)) = 0xFFFF := by
  have hmax : payload.length ≤ 65527 := hlen
  have hbytes : (bytes srcPort dstPort 0 payload).length < 65536 := by
    rw [length_bytes, udpHeaderLen]
    omega
  have hstored := toNat_storedChecksum src dst hbytes
  have hfold := OnesComplement.fold_lt (pseudoSum src dst ipProtoUdp (bytes srcPort dstPort 0 payload))
  have hclass : OnesComplement.fold (pseudoSum src dst ipProtoUdp (bytes srcPort dstPort 0 payload)) % 65535 =
      pseudoSum src dst ipProtoUdp (bytes srcPort dstPort 0 payload) % 65535 := OnesComplement.fold_modEq _
  rw [pseudoSum_bytes, hstored, computed]
  generalize hsum : pseudoSum src dst ipProtoUdp (bytes srcPort dstPort 0 payload) = sum at *
  have hpos : 0 < sum := by
    have hproto : ipProtoUdp.toNat = 17 := rfl
    rw [← hsum, pseudoSum, hproto]
    omega
  apply OnesComplement.fold_eq_ones (by omega)
  split <;> omega

/-! ### What is read back -/

theorem slice_srcPort (srcPort dstPort checksum : UInt16) (payload : Bytes) :
    (bytes srcPort dstPort checksum payload).slice 0 2 = u16ToBe srcPort := by
  simp [bytes, Bytes.slice_append_self]

theorem slice_dstPort (srcPort dstPort checksum : UInt16) (payload : Bytes) :
    (bytes srcPort dstPort checksum payload).slice 2 2 = u16ToBe dstPort := by
  simp [bytes, Bytes.slice_append_right, Bytes.slice_append_self]

theorem slice_checksum (srcPort dstPort checksum : UInt16) (payload : Bytes) :
    (bytes srcPort dstPort checksum payload).slice 6 2 = u16ToBe checksum := by
  simp [bytes, Bytes.slice_append_right, Bytes.slice_append_self]

theorem drop_bytes (srcPort dstPort checksum : UInt16) (payload : Bytes) :
    (bytes srcPort dstPort checksum payload).drop 8 = payload := by
  have hsplit : bytes srcPort dstPort checksum payload =
      (u16ToBe srcPort ++ (u16ToBe dstPort ++ (u16ToBe (UInt16.ofNat (udpHeaderLen + payload.length)) ++
        u16ToBe checksum))) ++ payload := by
    simp only [bytes, List.append_assoc]
  rw [hsplit]
  exact List.drop_left' (by simp)

theorem frameBytes_append (rest : Bytes) : frameBytes src dst srcPort dstPort payload ++ rest =
    headerBytes src dst ipProtoUdp hopLimit (UInt16.ofNat (udpHeaderLen + payload.length)) ++
      (bytes srcPort dstPort (storedChecksum src dst (bytes srcPort dstPort 0 payload)) payload ++ rest) := by
  rw [frameBytes, List.append_assoc]

theorem slice_frameBytes (i n : Nat) : (frameBytes src dst srcPort dstPort payload).slice (54 + i) n =
    (bytes srcPort dstPort (storedChecksum src dst (bytes srcPort dstPort 0 payload)) payload).slice i n := by
  rw [frameBytes, Bytes.slice_append_right (by rw [length_headerBytes]; omega), length_headerBytes,
    Nat.add_sub_cancel_left]

theorem readAddr_frameBytes (rest : Bytes) :
    readAddr (frameBytes src dst srcPort dstPort payload ++ rest) ipv6SourceAddressOffset = src ∧
      readAddr (frameBytes src dst srcPort dstPort payload ++ rest) ipv6DestinationAddressOffset = dst := by
  have hlen : 54 ≤ (frameBytes src dst srcPort dstPort payload ++ rest).length := by
    rw [List.length_append, length_frameBytes]
    have hoff : payloadOffset = 62 := rfl
    omega
  constructor
  · apply BmIpAddr.ext_octets
    rw [readAddr_octets (by simp only [ipv6AddressSize]; exact Nat.le_trans (by decide) hlen), frameBytes_append,
      slice_source]
  · apply BmIpAddr.ext_octets
    rw [readAddr_octets (by simp only [ipv6AddressSize]; exact Nat.le_trans (by decide) hlen), frameBytes_append,
      slice_destination]

/-- The fields of a frame, whatever follows it. -/
theorem accept_frameBytes (src dst : BmIpAddr) (srcPort dstPort : UInt16) (hlen : payload.length ≤ maxPayloadLen)
    (extra : Bytes) :
    accept (frameBytes src dst srcPort dstPort payload ++ extra) = .ok ⟨srcPort, dstPort, src.toNodeId, payload⟩ := by
  have hmax : payload.length ≤ 65527 := hlen
  have hoff : payloadOffset = 62 := rfl
  have hmin : minFrameWithAddresses = 54 := rfl
  have hheader : udpHeaderLen = 8 := rfl
  have hsize : UInt16.size = 65536 := rfl
  have hlenFrame : (frameBytes src dst srcPort dstPort payload).length = 62 + payload.length := length_frameBytes
  have hlenAll : (frameBytes src dst srcPort dstPort payload ++ extra).length = 62 + payload.length + extra.length := by
    rw [List.length_append, hlenFrame]
  have htype : ethernetType (frameBytes src dst srcPort dstPort payload ++ extra) = some ethernetTypeIpv6 := by
    rw [ethernetType_eq (by rw [hlenAll]; simp only [ethernetTypeOffset, ethernetTypeSize, ethernetSrcOffset,
      ethernetDestinationOffset]; omega), frameBytes_append, ethernetTypeSize, slice_etherType, u16FromBe_u16ToBe]
  have hpayloadLen : (u16FromBe ((frameBytes src dst srcPort dstPort payload ++ extra).slice
      ipv6PayloadLengthOffset 2)).toNat = 8 + payload.length := by
    rw [frameBytes_append, slice_payloadLength, u16FromBe_u16ToBe]
    exact UInt16.toNat_ofNat_of_lt' (by omega)
  have hstop : minFrameWithAddresses + (8 + payload.length) = 62 + payload.length := by omega
  have htake : (frameBytes src dst srcPort dstPort payload ++ extra).take (62 + payload.length) =
      frameBytes src dst srcPort dstPort payload := List.take_left' hlenFrame
  have hnil : frameBytes src dst srcPort dstPort payload = frameBytes src dst srcPort dstPort payload ++ [] :=
    (List.append_nil _).symm
  have hproto : (frameBytes src dst srcPort dstPort payload).byteAt ipv6NextHeaderOffset = ipProtoUdp := by
    have hbyte := @Bytes.byteAt_slice (frameBytes src dst srcPort dstPort payload) ipv6NextHeaderOffset 1 0 Nat.one_pos
    rw [hnil, frameBytes_append, slice_nextHeader, ← frameBytes_append, ← hnil] at hbyte
    exact hbyte.symm
  have hsource := (@readAddr_frameBytes src dst srcPort dstPort payload []).1
  rw [← hnil] at hsource
  have hsrcPort : (frameBytes src dst srcPort dstPort payload).slice udpSourcePortOffset 2 = u16ToBe srcPort :=
    (slice_frameBytes 0 2).trans (slice_srcPort ..)
  have hdstPort : (frameBytes src dst srcPort dstPort payload).slice udpDestinationPortOffset 2 = u16ToBe dstPort :=
    (slice_frameBytes 2 2).trans (slice_dstPort ..)
  have hdrop : (frameBytes src dst srcPort dstPort payload).drop payloadOffset = payload := by
    have hsum : payloadOffset = 54 + 8 := rfl
    rw [hsum, ← List.drop_drop, frameBytes, List.drop_left' (length_headerBytes ..)]
    exact drop_bytes ..
  unfold accept
  rw [if_neg (by omega), if_neg (not_not_intro htype)]
  simp only [hpayloadLen, hstop, htake]
  rw [if_neg (by omega), if_neg (not_not_intro hproto), if_neg (by omega), hsrcPort, hdstPort, hsource, hdrop,
    u16FromBe_u16ToBe, u16FromBe_u16ToBe]

theorem toNodeId_sourceAddress (nodeId : UInt64) (dst : BmIpAddr) : (sourceAddress nodeId dst).toNodeId = nodeId :=
  toNodeId_nodeidToIp _ _

/-- The datagram in a frame. -/
def inFrame (frame : Bytes) : Bytes := frame.drop udpSourcePortOffset

/-- The checksum in a frame. -/
def checksumIn (frame : Bytes) : UInt16 := u16FromBe (frame.slice udpChecksumOffset 2)

/-- The datagram with no checksum in it yet. -/
def unstamped (datagram : Bytes) : Bytes := datagram.copyAt 6 [0, 0]

/-- A frame `build` made is accepted with its ports, payload and source, whatever follows it. It still has its
destination in it, which `accept` does not return, and its checksum verifies and is not zero. -/
theorem accepted_as_built {buf out : Bytes} {n : Nat} (h : build buf src dst srcPort dstPort payload = .ok (out, n))
    (extra : Bytes) :
    accept (out.take n ++ extra) = .ok ⟨srcPort, dstPort, src.toNodeId, payload⟩ ∧
      (∀ nodeId, src = sourceAddress nodeId dst → src.toNodeId = nodeId) ∧
      readAddr (out.take n ++ extra) ipv6DestinationAddressOffset = dst ∧
      OnesComplement.fold (pseudoSum src dst ipProtoUdp (inFrame (out.take n))) = 0xFFFF ∧
      (checksumIn (out.take n)).toNat =
        (if computed src dst (unstamped (inFrame (out.take n))) = 0 then 0xFFFF
          else computed src dst (unstamped (inFrame (out.take n)))) ∧
      checksumIn (out.take n) ≠ 0 := by
  obtain ⟨hlen, hn, -, hout⟩ := build_eq_ok h
  have hframe : out.take n = frameBytes src dst srcPort dstPort payload := by
    rw [hout, hn]
    exact List.take_left' length_frameBytes
  have hdatagram : inFrame (frameBytes src dst srcPort dstPort payload) =
      bytes srcPort dstPort (storedChecksum src dst (bytes srcPort dstPort 0 payload)) payload :=
    List.drop_left' (length_headerBytes ..)
  have hstored : checksumIn (frameBytes src dst srcPort dstPort payload) =
      storedChecksum src dst (bytes srcPort dstPort 0 payload) := by
    have hslice := @slice_frameBytes src dst srcPort dstPort payload 6 2
    rw [slice_checksum] at hslice
    exact (congrArg u16FromBe hslice).trans (u16FromBe_u16ToBe _)
  have hcleared : ∀ c, unstamped (bytes srcPort dstPort c payload) = bytes srcPort dstPort 0 payload := by
    intro c
    have hsplit : ∀ c, bytes srcPort dstPort c payload = (u16ToBe srcPort ++ (u16ToBe dstPort ++
        u16ToBe (UInt16.ofNat (udpHeaderLen + payload.length)))) ++ (u16ToBe c ++ payload) := by
      intro c
      simp only [bytes, List.append_assoc]
    have hzero : u16ToBe 0 = [0, 0] := by decide
    rw [unstamped, hsplit, hsplit, Bytes.copyAt_append_at _ (by simp), hzero]
    simp
  rw [hframe, hdatagram, hstored, hcleared]
  refine ⟨accept_frameBytes src dst srcPort dstPort hlen extra, ?_, (readAddr_frameBytes extra).2,
    fold_stored src dst srcPort dstPort hlen, ?_, storedChecksum_ne_zero src dst _⟩
  · intro nodeId hsrc
    rw [hsrc]
    exact toNodeId_sourceAddress nodeId dst
  · have hmax : payload.length ≤ 65527 := hlen
    exact toNat_storedChecksum src dst (by rw [length_bytes, udpHeaderLen]; omega)

/-- One byte to all nodes on the link. -/
theorem accepted_as_built_one : ∃ out n,
    build (List.replicate 63 0) (sourceAddress 1 .linkLocalMulticast) .linkLocalMulticast 2222 3333 [7] = .ok (out, n) ∧
      accept (out.take n ++ [9, 9]) = .ok ⟨2222, 3333, (sourceAddress 1 .linkLocalMulticast).toNodeId, [7]⟩ :=
  ⟨_, _, rfl, (@accepted_as_built (sourceAddress 1 .linkLocalMulticast) .linkLocalMulticast 2222 3333 [7]
    (List.replicate 63 0) _ _ rfl [9, 9]).1⟩

/-- Nothing `accept` returns tells where the datagram was sent: one byte to the link and to every node is the
same datagram. -/
theorem destination_not_returned : ¬ ∃ destination : Datagram → BmIpAddr,
    ∀ (buf : Bytes) (src dst : BmIpAddr) (srcPort dstPort : UInt16) (payload out : Bytes) (n : Nat) (extra : Bytes),
      build buf src dst srcPort dstPort payload = .ok (out, n) →
        ∃ datagram, accept (out.take n ++ extra) = .ok datagram ∧ destination datagram = dst := by
  rintro ⟨destination, h⟩
  have hto : ∀ dst out n, build (List.replicate 63 0) (nodeidToIp linkLocalPrefix 1) dst 2222 3333 [7] = .ok (out, n) →
      destination ⟨2222, 3333, 1, [7]⟩ = dst := by
    intro dst out n hbuild
    obtain ⟨datagram, haccept, hdst⟩ := h _ _ _ _ _ _ _ _ [] hbuild
    obtain ⟨hlen, hn, -, hout⟩ := build_eq_ok hbuild
    rw [hout, hn, List.take_left' length_frameBytes, accept_frameBytes _ _ _ _ hlen, toNodeId_nodeidToIp] at haccept
    cases haccept
    exact hdst
  have hlink := hto .linkLocalMulticast _ _ rfl
  have hglobal := hto .globalMulticast _ _ rfl
  rw [hlink] at hglobal
  exact absurd hglobal (by decide)

end Datagram

end Bristlemouth
