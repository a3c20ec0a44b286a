import Bristlemouth.Wire.L2

/-!
# Transmit and receive agree

What a frame carries is stated once, by its fields. `build` makes a frame that
carries its message under a correct checksum, writes to the source address or
to the checksum change one field each, and `accept` is a function of the fields.
-/

set_option autoImplicit false

namespace Bristlemouth

namespace BmIpAddr

/-- Overwrite part of an address. A range that does not fit is ignored. -/
def write (a : BmIpAddr) (i : Nat) (data : Bytes) : BmIpAddr :=
  if h : i + data.length ≤ ipv6AddressSize then
    ⟨a.octets.copyAt i data, by rw [Bytes.length_copyAt _ _ _ (by rw [a.length_octets]; exact h), a.length_octets]⟩
  else a

theorem octets_write {a : BmIpAddr} {i : Nat} {data : Bytes} (h : i + data.length ≤ ipv6AddressSize) :
    (a.write i data).octets = a.octets.copyAt i data := by
  rw [write, dif_pos h]

/-- The byte with the ingress and the egress port. -/
def ports (a : BmIpAddr) : UInt8 := a.octets.byteAt 2

/-- What a receiver makes of a source address before it verifies the checksum. -/
def clearPorts (a : BmIpAddr) : BmIpAddr := (a.write 4 [0, 0]).write 2 [a.ports &&& 0x0F]

theorem ports_write (a : BmIpAddr) (v : UInt8) : (a.write 2 [v]).ports = v := by
  have h : (a.octets.copyAt 2 [v]).slice 2 1 = [v] := Bytes.slice_copyAt [v] (by simp)
  have hb : ((a.octets.copyAt 2 [v]).slice 2 1).byteAt 0 = (a.octets.copyAt 2 [v]).byteAt 2 :=
    Bytes.byteAt_slice (by omega)
  rw [h] at hb
  rw [ports, octets_write (by simp)]
  exact hb.symm

theorem write_ports_write (a : BmIpAddr) (v w : UInt8) :
    (a.write 2 [v]).write 2 [w] = a.write 2 [w] := by
  apply ext_octets
  rw [octets_write (by simp), octets_write (by simp), octets_write (by simp)]
  exact Bytes.copyAt_copyAt (by simp) rfl

theorem clearPorts_write (a : BmIpAddr) (v : UInt8) :
    (a.write 2 [v]).clearPorts = (a.write 4 [0, 0]).write 2 [v &&& 0x0F] := by
  apply ext_octets
  rw [clearPorts, ports_write]
  rw [octets_write (by simp), octets_write (by simp), octets_write (by simp), octets_write (by simp),
    octets_write (by simp)]
  have hcomm : (a.octets.copyAt 2 [v]).copyAt 4 [0, 0] = (a.octets.copyAt 4 [0, 0]).copyAt 2 [v] :=
    Bytes.copyAt_comm (by simp) (by simp) (.inl (by simp))
  rw [hcomm]
  exact Bytes.copyAt_copyAt (by simp) rfl

theorem octets_nodeidToIp (id : UInt64) :
    (nodeidToIp linkLocalPrefix id).octets = [0xFE, 0x80, 0, 0] ++ ([0, 0, 0, 0] ++ u64ToBe id) := by
  have h : u32ToBe linkLocalPrefix = [0xFE, 0x80, 0, 0] := by decide
  change u32ToBe linkLocalPrefix ++ _ = _
  rw [h]

/-- A node's own address has no ports in it and nothing where the legacy ports were. -/
theorem write_legacy_nodeidToIp (id : UInt64) :
    (nodeidToIp linkLocalPrefix id).write 4 [0, 0] = nodeidToIp linkLocalPrefix id := by
  apply ext_octets
  rw [octets_write (by simp)]
  apply Bytes.copyAt_slice_self (by simp)
  rw [octets_nodeidToIp, Bytes.slice_append_right (by simp)]
  simp

theorem ports_nodeidToIp (id : UInt64) : (nodeidToIp linkLocalPrefix id).ports = 0 := by
  rw [ports, octets_nodeidToIp]
  rfl

theorem write_ports_nodeidToIp (id : UInt64) :
    (nodeidToIp linkLocalPrefix id).write 2 [0] = nodeidToIp linkLocalPrefix id := by
  apply ext_octets
  rw [octets_write (by simp)]
  apply Bytes.copyAt_slice_self (by simp)
  rw [octets_nodeidToIp]
  rfl

/-- Ports stamped into a node's own address are gone once a receiver has cleared them. -/
theorem clearPorts_stamp (id : UInt64) (port : UInt8) :
    ((nodeidToIp linkLocalPrefix id).write 2 [((nodeidToIp linkLocalPrefix id).ports &&& (0x0F : UInt8))
      ||| ((port &&& (0x0F : UInt8)) <<< 4)]).clearPorts = nodeidToIp linkLocalPrefix id := by
  rw [clearPorts_write, stamp_low, ports_nodeidToIp, write_legacy_nodeidToIp]
  exact write_ports_nodeidToIp id

end BmIpAddr

/-- `frame` carries `header` and `body` from `src` to `dst`, whatever its checksum is worth. -/
structure Carries (frame : Bytes) (src dst : BmIpAddr) (header : BcmpHeader) (body : Bytes) : Prop where
  length : minFrameWithAddresses + (bcmpHeaderLen + body.length) ≤ frame.length
  etherType : frame.slice ethernetTypeOffset 2 = u16ToBe ethernetTypeIpv6
  payloadLength : (u16FromBe (frame.slice ipv6PayloadLengthOffset 2)).toNat = bcmpHeaderLen + body.length
  protocol : frame.slice ipv6NextHeaderOffset 1 = [ipProtoBcmp]
  source : frame.slice ipv6SourceAddressOffset ipv6AddressSize = src.octets
  destination : frame.slice ipv6DestinationAddressOffset ipv6AddressSize = dst.octets
  bcmp : frame.slice bcmpHeaderOffset (bcmpHeaderLen + body.length) = header.toBytes ++ body

namespace Carries

variable {frame : Bytes} {src dst : BmIpAddr} {header : BcmpHeader} {body : Bytes}

theorem body_length_lt (h : Carries frame src dst header body) : bcmpHeaderLen + body.length < 65536 := by
  rw [← h.payloadLength]
  exact UInt16.toNat_lt _

theorem append (h : Carries frame src dst header body) (extra : Bytes) :
    Carries (frame ++ extra) src dst header body := by
  obtain ⟨hlen, htype, hpl, hproto, hsrc, hdst, hbcmp⟩ := h
  simp at hlen
  refine ⟨by simp; omega, ?_, ?_, ?_, ?_, ?_, ?_⟩
  · rw [Bytes.slice_append_left (by simp; omega), htype]
  · rw [Bytes.slice_append_left (by simp; omega), hpl]
  · rw [Bytes.slice_append_left (by simp; omega), hproto]
  · rw [Bytes.slice_append_left (by simp; omega), hsrc]
  · rw [Bytes.slice_append_left (by simp; omega), hdst]
  · rw [Bytes.slice_append_left (by simp; omega), hbcmp]

theorem writeSource (h : Carries frame src dst header body) {i : Nat} {data : Bytes}
    (hi : i + data.length ≤ ipv6AddressSize) :
    Carries (frame.copyAt (ipv6SourceAddressOffset + i) data) (src.write i data) dst header body := by
  obtain ⟨hlen, htype, hpl, hproto, hsrc, hdst, hbcmp⟩ := h
  simp at hlen hi
  have hfit : ipv6SourceAddressOffset + i + data.length ≤ frame.length := by simp; omega
  refine ⟨by rw [Bytes.length_copyAt _ _ _ hfit]; simp; omega, ?_, ?_, ?_, ?_, ?_, ?_⟩
  · rw [Bytes.slice_copyAt_of_disjoint hfit (by simp; omega), htype]
  · rw [Bytes.slice_copyAt_of_disjoint hfit (by simp; omega), hpl]
  · rw [Bytes.slice_copyAt_of_disjoint hfit (by simp; omega), hproto]
  · rw [Bytes.slice_copyAt_within (by simp; omega) (by simp; omega), hsrc,
      BmIpAddr.octets_write (by simp; omega)]
  · rw [Bytes.slice_copyAt_of_disjoint hfit (by simp; omega), hdst]
  · rw [Bytes.slice_copyAt_of_disjoint hfit (by simp; omega), hbcmp]

theorem writeChecksum (h : Carries frame src dst header body) (checksum : UInt16) :
    Carries (frame.copyAt bcmpChecksumOffset (u16ToLe checksum)) src dst
      (header.withChecksum checksum) body := by
  obtain ⟨hlen, htype, hpl, hproto, hsrc, hdst, hbcmp⟩ := h
  simp at hlen
  have hfit : bcmpChecksumOffset + (u16ToLe checksum).length ≤ frame.length := by simp; omega
  refine ⟨by rw [Bytes.length_copyAt _ _ _ hfit]; simp; omega, ?_, ?_, ?_, ?_, ?_, ?_⟩
  · rw [Bytes.slice_copyAt_of_disjoint hfit (by simp), htype]
  · rw [Bytes.slice_copyAt_of_disjoint hfit (by simp), hpl]
  · rw [Bytes.slice_copyAt_of_disjoint hfit (by simp), hproto]
  · rw [Bytes.slice_copyAt_of_disjoint hfit (by simp), hsrc]
  · rw [Bytes.slice_copyAt_of_disjoint hfit (by simp), hdst]
  · rw [show bcmpChecksumOffset = bcmpHeaderOffset + checksumFieldOffset from rfl,
      Bytes.slice_copyAt_within (by simp; omega) (by simp; omega), hbcmp,
      Bytes.copyAt_append_left (by simp), BcmpHeader.toBytes_copyAt_checksum]

theorem readAddr_source (h : Carries frame src dst header body) :
    readAddr frame ipv6SourceAddressOffset = src := by
  have hlen := h.length
  simp at hlen
  exact BmIpAddr.ext_octets (by rw [readAddr_octets (by simp; omega), h.source])

theorem readAddr_destination (h : Carries frame src dst header body) :
    readAddr frame ipv6DestinationAddressOffset = dst := by
  have hlen := h.length
  simp at hlen
  exact BmIpAddr.ext_octets (by rw [readAddr_octets (by simp; omega), h.destination])

theorem byteAt_ports (h : Carries frame src dst header body) :
    frame.byteAt ipv6IngressEgressPortsOffset = src.ports := by
  rw [BmIpAddr.ports, ← h.source, Bytes.byteAt_slice (by simp)]
  rfl

theorem byteAt_protocol (h : Carries frame src dst header body) :
    frame.byteAt ipv6NextHeaderOffset = ipProtoBcmp := by
  have hb : (frame.slice ipv6NextHeaderOffset 1).byteAt 0 = frame.byteAt (ipv6NextHeaderOffset + 0) :=
    Bytes.byteAt_slice (by omega)
  rw [h.protocol] at hb
  exact hb.symm

theorem ethernetType_eq (h : Carries frame src dst header body) :
    ethernetType frame = some ethernetTypeIpv6 := by
  have hlen := h.length
  simp at hlen
  rw [Bristlemouth.ethernetType_eq (by simp; omega), show ethernetTypeSize = 2 from rfl, h.etherType,
    u16FromBe_u16ToBe]

theorem u16At_checksum (h : Carries frame src dst header body) :
    u16At frame bcmpChecksumOffset = header.checksum := by
  have hs : frame.slice bcmpChecksumOffset 2 =
      (frame.slice bcmpHeaderOffset (bcmpHeaderLen + body.length)).slice checksumFieldOffset 2 := by
    rw [Bytes.slice_slice (by simp; omega)]
    rfl
  rw [u16At, hs, h.bcmp]
  simp [BcmpHeader.toBytes, Bytes.slice_append_right, Bytes.slice_append_self]

/-- The clears of `process_received_message`, as the addresses see them. -/
theorem clearPorts (h : Carries frame src dst header body) :
    Carries ((frame.copyAt legacyPortClearOffset [0, 0]).copyAt ipv6IngressEgressPortsOffset
      [(frame.copyAt legacyPortClearOffset [0, 0]).byteAt ipv6IngressEgressPortsOffset &&& 0x0F])
      src.clearPorts dst header body := by
  have h₁ : Carries (frame.copyAt (ipv6SourceAddressOffset + 4) [0, 0]) (src.write 4 [0, 0]) dst
      header body := h.writeSource (by simp)
  have hports : (src.write 4 [0, 0]).ports = src.ports := by
    rw [BmIpAddr.ports, BmIpAddr.octets_write (by simp),
      Bytes.byteAt_copyAt_of_disjoint (by simp) (by omega), BmIpAddr.ports]
  have hbyte := h₁.byteAt_ports
  rw [hports] at hbyte
  have h₂ : Carries ((frame.copyAt (ipv6SourceAddressOffset + 4) [0, 0]).copyAt
      (ipv6SourceAddressOffset + 2) [src.ports &&& 0x0F]) ((src.write 4 [0, 0]).write 2
      [src.ports &&& 0x0F]) dst header body := h₁.writeSource (by simp)
  rw [← hbyte] at h₂
  rw [BmIpAddr.clearPorts, ← hbyte]
  exact h₂

theorem stampIngressPort (h : Carries frame src dst header body) (port : UInt8) :
    Carries (Bristlemouth.stampIngressPort frame port)
      (src.write 2 [(src.ports &&& (0x0F : UInt8)) ||| ((port &&& (0x0F : UInt8)) <<< 4)]) dst header
      body := by
  rw [Bristlemouth.stampIngressPort, h.byteAt_ports]
  apply h.writeSource
  simp

/-- The checksum a receiver computes for what a frame carries. -/
def checksum (src dst : BmIpAddr) (header : BcmpHeader) (body : Bytes) : UInt16 :=
  ipv6PseudoChecksum src dst ipProtoBcmp ((header.withChecksum 0).toBytes ++ body)

theorem checksum_eq (src dst : BmIpAddr) (header : BcmpHeader) (body : Bytes) :
    ipv6PseudoChecksum src dst ipProtoBcmp ((header.withChecksum 0).toBytes ++ body) =
      checksum src dst header body := rfl

theorem checksum_withChecksum (src dst : BmIpAddr) (header : BcmpHeader) (body : Bytes) (c : UInt16) :
    checksum src dst (header.withChecksum c) body = checksum src dst header body := rfl

/-- `accept` sees nothing of a frame but what it carries. -/
theorem accept_eq (h : Carries frame src dst header body) :
    (accept frame).2 =
      if checksum src.clearPorts dst header body = header.checksum then
        .ok ⟨header, body, src.clearPorts, dst, (src.ports >>> 4) &&& 0x0F⟩
      else .error .badChecksum := by
  have hlen := h.length
  simp at hlen
  have hguards : accept frame = processReceivedMessage frame (bcmpHeaderLen + body.length) := by
    unfold accept
    rw [if_neg (by simp; omega), h.ethernetType_eq, if_neg (by simp)]
    simp only [h.payloadLength, h.byteAt_protocol]
    rw [if_neg (by simp; omega), if_neg (by simp), if_neg (by simp)]
  rw [hguards]
  have h₁ := h.clearPorts
  have h₂ := h₁.writeChecksum 0
  have h₃ := h₂.writeChecksum header.checksum
  have hdrop : (header.toBytes ++ body).drop bcmpHeaderLen = body := by
    rw [List.drop_append_of_le_length (by simp), List.drop_of_length_le (by simp), List.nil_append]
  have hzero : ([0, 0] : Bytes) = u16ToLe 0 := by decide
  unfold processReceivedMessage
  simp only [h.byteAt_ports, h₁.u16At_checksum]
  rw [hzero] at h₁ h₂ h₃ ⊢
  rw [BcmpHeader.withChecksum_withChecksum, BcmpHeader.withChecksum_self] at h₃
  simp only [h₂.readAddr_source, h₂.readAddr_destination, h₂.bcmp, h₃.bcmp,
    BcmpHeader.decode_toBytes_append, hdrop, checksum_eq]
  by_cases hc : checksum src.clearPorts dst header body = header.checksum
  · rw [if_neg (by simpa using hc), if_pos hc]
  · rw [if_pos hc, if_neg hc]

end Carries

/-! ### What `accept` returns -/

/-- A decoded header is the bytes it was decoded from. -/
theorem BcmpHeader.toBytes_of_decode {buf : Bytes} {header : BcmpHeader}
    (h : BcmpHeader.decode buf = .ok header) :
    buf.take bcmpHeaderLen = header.toBytes ∧ bcmpHeaderLen ≤ buf.length := by
  rw [BcmpHeader.decode, lePrefix] at h
  split at h
  · rename_i hlen
    simp only [bind, Except.bind, Except.ok.injEq] at h
    subst h
    have hl : (buf.take bcmpHeaderLen).length = 13 := by simpa using hlen
    obtain ⟨b, hb⟩ : ∃ b : Bytes, buf.take bcmpHeaderLen = b := ⟨_, rfl⟩
    rw [hb] at hl ⊢
    refine ⟨?_, hlen⟩
    have hpair : [b.byteAt 4, b.byteAt 5] = b.slice 4 2 := by
      rw [← Bytes.slice_add b 4 1 1, Bytes.slice_one (by omega), Bytes.slice_one (by omega)]
      rfl
    have hlast : [b.byteAt 10, b.byteAt 11, b.byteAt 12] = b.slice 10 3 := by
      rw [← Bytes.slice_add b 10 1 2, ← Bytes.slice_add b 11 1 1, Bytes.slice_one (by omega),
        Bytes.slice_one (by omega), Bytes.slice_one (by omega)]
      rfl
    have hall : b = b.slice 0 13 := (Bytes.slice_of_length hl).symm
    rw [BcmpHeader.toBytes, hpair, hlast, u16At, u16At, u32At,
      u16ToLe_u16FromLe (Bytes.length_slice (by omega)),
      u16ToLe_u16FromLe (Bytes.length_slice (by omega)),
      u32ToLe_u32FromLe (Bytes.length_slice (by omega)), Bytes.slice_add, Bytes.slice_add,
      Bytes.slice_add, Bytes.slice_add]
    exact hall
  · cases h

theorem bcmp_of_processReceivedMessage {frame out : Bytes} {payloadLen : Nat} {received : Received}
    (hlen : payloadLen + minFrameWithAddresses ≤ frame.length) (hpayload : bcmpHeaderLen ≤ payloadLen)
    (h : processReceivedMessage frame payloadLen = (out, .ok received)) :
    bcmpHeaderLen + received.payload.length = payloadLen ∧
      out.slice bcmpHeaderOffset payloadLen = received.header.toBytes ++ received.payload := by
  simp at hlen hpayload
  unfold processReceivedMessage at h
  extract_lets ingressPort legacy ports checksumRead cleared src dst checksumCalc restored bcmp at h
  have hlegacy : legacy.length = frame.length := Bytes.length_copyAt _ _ _ (by simp; omega)
  have hports : ports.length = frame.length :=
    (Bytes.length_copyAt _ _ _ (by simp; omega)).trans hlegacy
  have hcleared : cleared.length = frame.length :=
    (Bytes.length_copyAt _ _ _ (by simp; omega)).trans hports
  have hrestored : restored.length = frame.length :=
    (Bytes.length_copyAt _ _ _ (by simp; omega)).trans hcleared
  split at h
  · exact absurd (congrArg Prod.snd h) nofun
  · split at h
    · rename_i header hdecode
      rw [Prod.mk.injEq, Except.ok.injEq] at h
      obtain ⟨hout, hreceived⟩ := h
      rw [← hout, ← hreceived]
      obtain ⟨htake, -⟩ := BcmpHeader.toBytes_of_decode hdecode
      have hbcmp : bcmp.length = payloadLen := Bytes.length_slice (by simp; omega)
      refine ⟨?_, ?_⟩
      · rw [List.length_drop, hbcmp]
        simp
        omega
      · change bcmp = header.toBytes ++ bcmp.drop bcmpHeaderLen
        rw [← htake, List.take_append_drop]
    · exact absurd (congrArg Prod.snd h) nofun

/-- What `accept` returns is what the frame it leaves behind holds. -/
theorem bcmp_of_accept {frame : Bytes} {received : Received}
    (h : (accept frame).2 = .ok received) :
    bcmpHeaderLen + received.payload.length < 65536 ∧
      (accept frame).1.slice bcmpHeaderOffset (bcmpHeaderLen + received.payload.length) =
        received.header.toBytes ++ received.payload := by
  unfold accept at h ⊢
  split at h
  · cases h
  · split at h
    · cases h
    · rename_i hshort htype
      rw [if_neg hshort, if_neg htype]
      dsimp only at h ⊢
      have hlt := (u16FromBe (frame.slice ipv6PayloadLengthOffset 2)).toNat_lt
      generalize (u16FromBe (frame.slice ipv6PayloadLengthOffset 2)).toNat = payloadLen at h hlt
      split at h
      · cases h
      · rename_i htruncated
        split at h
        · cases h
        · rename_i hproto
          split at h
          · cases h
          · rename_i hheader
            rw [if_neg htruncated, if_neg hproto, if_neg hheader]
            obtain ⟨hlen, hslice⟩ := bcmp_of_processReceivedMessage (by omega) (by omega)
              (Prod.ext rfl h)
            rw [hlen]
            exact ⟨hlt, hslice⟩

/-! ### What `build` makes -/

/-- The headers, a BCMP header and a body in one piece. -/
theorem carries_frame (src dst : BmIpAddr) (hop : UInt8) (header : BcmpHeader) {body : Bytes}
    (h : bcmpHeaderLen + body.length < 65536) :
    Carries (headerBytes src dst ipProtoBcmp hop (UInt16.ofNat (bcmpHeaderLen + body.length))
      ++ (header.toBytes ++ body)) src dst header body := by
  have hlen : (UInt16.ofNat (bcmpHeaderLen + body.length)).toNat = bcmpHeaderLen + body.length :=
    UInt16.toNat_ofNat_of_lt' h
  constructor
  · simp
  · exact slice_etherType ..
  · rw [slice_payloadLength, u16FromBe_u16ToBe, hlen]
  · exact slice_nextHeader ..
  · exact slice_source ..
  · exact slice_destination ..
  · rw [Bytes.slice_append_right (by simp), length_headerBytes]
    exact Bytes.slice_of_length (by simp)

/-- The header `build` puts around a body, under the checksum of what it sends. -/
def builtHeader (nodeId : UInt64) (dst : BmIpAddr) (messageType : MessageType) (seqNum : UInt32)
    (body : Bytes) : BcmpHeader :=
  (serializedHeader messageType seqNum).withChecksum
    (Carries.checksum (nodeidToIp linkLocalPrefix nodeId) dst (serializedHeader messageType seqNum) body)

theorem encode_append (header : BcmpHeader) {filler : Bytes} (body : Bytes)
    (h : filler.length = bcmpHeaderLen) :
    header.encode (filler ++ body) = .ok (header.toBytes ++ body) := by
  have hcopy : Bytes.copyAt ([] ++ (filler ++ body)) 0 header.toBytes =
      ([] ++ header.toBytes) ++ (filler ++ body).drop header.toBytes.length :=
    Bytes.copyAt_append_at header.toBytes rfl
  rw [List.nil_append, List.nil_append, BcmpHeader.length_toBytes, ← h, List.drop_left] at hcopy
  rw [BcmpHeader.encode, if_neg (by simp [h]), hcopy]

theorem serializeInPlace_eq (src dst : BmIpAddr) (hop : UInt8) (messageType : MessageType)
    (seqNum : UInt32) (filler body : Bytes) (hfill : filler.length = bcmpHeaderLen)
    (h : bcmpHeaderLen + body.length < 65536) :
    serializeInPlace (headerBytes src dst ipProtoBcmp hop (UInt16.ofNat (bcmpHeaderLen + body.length))
        ++ (filler ++ body)) messageType seqNum body.length =
      .ok (headerBytes src dst ipProtoBcmp hop (UInt16.ofNat (bcmpHeaderLen + body.length))
        ++ (((serializedHeader messageType seqNum).withChecksum
          (Carries.checksum src dst (serializedHeader messageType seqNum) body)).toBytes ++ body)) := by
  have hc := carries_frame src dst hop (serializedHeader messageType seqNum) h
  have hbcmp := hc.bcmp
  generalize hhd : headerBytes src dst ipProtoBcmp hop (UInt16.ofNat (bcmpHeaderLen + body.length)) =
    headers at *
  have hheaders : headers.length = bcmpHeaderOffset := by simp [← hhd]
  have hdrop : (headers ++ (filler ++ body)).drop bcmpHeaderOffset = filler ++ body := by
    rw [← hheaders, List.drop_left]
  have hwrite : (headers ++ (filler ++ body)).copyAt bcmpHeaderOffset
      ((serializedHeader messageType seqNum).toBytes ++ body) =
      headers ++ ((serializedHeader messageType seqNum).toBytes ++ body) := by
    rw [Bytes.copyAt_append_at _ hheaders, List.drop_of_length_le (by simp at hfill; simp [hfill]),
      List.append_nil]
  rw [serializeInPlace, if_neg (by simp at hheaders hfill; simp [hheaders, hfill]), hdrop,
    encode_append _ _ hfill]
  simp only [bind, Except.bind, hwrite]
  rw [hc.readAddr_source, hc.readAddr_destination, hbcmp]
  congr 1
  rw [show bcmpChecksumOffset = headers.length + checksumFieldOffset by rw [hheaders]; rfl,
    Bytes.copyAt_append_right, Bytes.copyAt_append_left (by simp),
    BcmpHeader.toBytes_copyAt_checksum]
  rfl

/-- Whatever follows the body in the buffer, `build` puts one frame at its start. -/
theorem build_eq {buf : Bytes} {body : BodyWriter}
    {written : { b : Bytes // b.length = (buf.drop (bcmpHeaderOffset + bcmpHeaderLen)).length }}
    {n : Nat} (nodeId : UInt64) (dst : BmIpAddr) (messageType : MessageType) (seqNum : UInt32)
    (hbody : body (buf.drop (bcmpHeaderOffset + bcmpHeaderLen)) = .ok (written, n))
    (hlen : bcmpHeaderLen + n < 65536) (hfit : bcmpHeaderOffset + bcmpHeaderLen + n ≤ buf.length) :
    build buf nodeId dst messageType seqNum body =
      .ok (headerBytes (nodeidToIp linkLocalPrefix nodeId) dst ipProtoBcmp hopLimit
          (UInt16.ofNat (bcmpHeaderLen + n))
        ++ ((builtHeader nodeId dst messageType seqNum (written.val.take n)).toBytes
          ++ written.val.take n) ++ written.val.drop n, bcmpHeaderOffset + bcmpHeaderLen + n) := by
  have hw := written.property
  generalize hwd : written.val = w at *
  have hwl : w.length + 67 = buf.length := by
    simp at hw hfit
    omega
  have htake : (w.take n).length = n := by
    simp at hfit ⊢
    omega
  -- the buffer once the body is in it
  have hbuf : buf.copyAt (bcmpHeaderOffset + bcmpHeaderLen) w =
      buf.take (bcmpHeaderOffset + bcmpHeaderLen) ++ w := by
    rw [Bytes.copyAt, List.drop_of_length_le (by simp; omega), List.append_nil]
  have hfill : ((buf.take (bcmpHeaderOffset + bcmpHeaderLen)).drop minFrameWithAddresses).length =
      bcmpHeaderLen := by
    simp
    omega
  have hdrop : (buf.take (bcmpHeaderOffset + bcmpHeaderLen) ++ w).drop minFrameWithAddresses =
      (buf.take (bcmpHeaderOffset + bcmpHeaderLen)).drop minFrameWithAddresses ++ w :=
    List.drop_append_of_le_length (by simp; omega)
  generalize (buf.take (bcmpHeaderOffset + bcmpHeaderLen)).drop minFrameWithAddresses = filler at *
  have hserial := serializeInPlace_eq (nodeidToIp linkLocalPrefix nodeId) dst hopLimit messageType seqNum
    filler (w.take n) hfill (by rw [htake]; exact hlen)
  rw [htake] at hserial
  generalize hhd : headerBytes (nodeidToIp linkLocalPrefix nodeId) dst ipProtoBcmp hopLimit
    (UInt16.ofNat (bcmpHeaderLen + n)) = headers at *
  have hheaders : headers.length = 54 := by simp [← hhd]
  have hframe : (headers ++ (filler ++ w)).take (minFrameWithAddresses + (bcmpHeaderLen + n)) =
      headers ++ (filler ++ w.take n) := by
    simp at hfill
    simp [List.take_append, hheaders, hfill, List.take_of_length_le]
  have hcopy : Bytes.copyAt ([] ++ (headers ++ (filler ++ w))) 0
      (headers ++ ((builtHeader nodeId dst messageType seqNum (w.take n)).toBytes ++ w.take n)) =
      ([] ++ (headers ++ ((builtHeader nodeId dst messageType seqNum (w.take n)).toBytes ++ w.take n))) ++
        (headers ++ (filler ++ w)).drop (headers ++
          ((builtHeader nodeId dst messageType seqNum (w.take n)).toBytes ++ w.take n)).length :=
    Bytes.copyAt_append_at _ rfl
  have hrest : (headers ++ (filler ++ w)).drop (headers ++
      ((builtHeader nodeId dst messageType seqNum (w.take n)).toBytes ++ w.take n)).length = w.drop n := by
    simp at hfill hfit
    simp [List.drop_append, hheaders, hfill, List.drop_of_length_le]
  rw [hrest, List.nil_append, List.nil_append] at hcopy
  have hgt : ¬ bcmpHeaderLen + n > 65535 := by omega
  rw [build, if_neg (by simp at hfit ⊢; omega), hbody]
  simp only [bind, Except.bind, hwd, hbuf, writeHeaders, if_neg hgt]
  rw [if_neg (by simp; omega)]
  simp only [headerWrites_eq, hdrop, hhd]
  rw [if_neg (by simp at hfill hfit; simp [hheaders, hfill]; omega), hframe, hserial]
  simp only [Except.ok.injEq, Prod.mk.injEq]
  exact ⟨hcopy, by simp; omega⟩

/-- What `build` has checked by the time it succeeds. -/
theorem build_eq_ok {buf out : Bytes} {frameLen : Nat} {nodeId : UInt64} {dst : BmIpAddr}
    {messageType : MessageType} {seqNum : UInt32} {body : BodyWriter}
    (h : build buf nodeId dst messageType seqNum body = .ok (out, frameLen)) :
    ∃ written n, body (buf.drop (bcmpHeaderOffset + bcmpHeaderLen)) = .ok (written, n) ∧
      bcmpHeaderLen + n < 65536 ∧ bcmpHeaderOffset + bcmpHeaderLen + n ≤ buf.length := by
  rw [build] at h
  split at h
  · cases h
  · rename_i hroom
    cases hbody : body (buf.drop (bcmpHeaderOffset + bcmpHeaderLen)) with
    | error e =>
      rw [hbody] at h
      cases h
    | ok r =>
      obtain ⟨written, n⟩ := r
      have hw := written.property
      refine ⟨written, n, rfl, ?_⟩
      simp only [hbody, bind, Except.bind, writeHeaders] at h
      by_cases hgt : bcmpHeaderLen + n > 65535
      · simp only [if_pos hgt] at h
        cases h
      · have hl : (buf.copyAt (bcmpHeaderOffset + bcmpHeaderLen) written.val).length = buf.length := by
          apply Bytes.length_copyAt
          simp at hw hroom
          simp [hw]
          omega
        simp only [if_neg hgt, hl] at h
        rw [if_neg (by simp at hroom ⊢; omega)] at h
        simp only [headerWrites_eq] at h
        refine ⟨by omega, ?_⟩
        by_contra hfit
        rw [if_pos (by simp at hl hroom hfit hw; simp; omega)] at h
        cases h

section Built

variable {buf out : Bytes} {frameLen : Nat} {body : BodyWriter}
variable {written : { b : Bytes // b.length = (buf.drop (bcmpHeaderOffset + bcmpHeaderLen)).length }}
variable {n : Nat} {nodeId : UInt64} {dst : BmIpAddr} {messageType : MessageType} {seqNum : UInt32}

theorem length_sent (hfit : bcmpHeaderOffset + bcmpHeaderLen + n ≤ buf.length) :
    (written.val.take n).length = n := by
  have hw := written.property
  simp at hw hfit
  simp [hw]
  omega

/-- The frame at the start of the buffer. -/
theorem take_of_build (hbody : body (buf.drop (bcmpHeaderOffset + bcmpHeaderLen)) = .ok (written, n))
    (h : build buf nodeId dst messageType seqNum body = .ok (out, frameLen)) :
    (written.val.take n).length = n ∧ bcmpHeaderLen + n < 65536 ∧
      frameLen = bcmpHeaderOffset + (bcmpHeaderLen + n) ∧
      out.take frameLen = headerBytes (nodeidToIp linkLocalPrefix nodeId) dst ipProtoBcmp hopLimit
          (UInt16.ofNat (bcmpHeaderLen + n))
        ++ ((builtHeader nodeId dst messageType seqNum (written.val.take n)).toBytes
          ++ written.val.take n) := by
  obtain ⟨w, m, hb, hlen, hfit⟩ := build_eq_ok h
  rw [hbody, Except.ok.injEq, Prod.mk.injEq] at hb
  obtain ⟨rfl, rfl⟩ := hb
  have hl : (written.val.take n).length = n := length_sent hfit
  rw [build_eq nodeId dst messageType seqNum hbody hlen hfit, Except.ok.injEq, Prod.mk.injEq] at h
  obtain ⟨hout, hframe⟩ := h
  refine ⟨hl, hlen, by rw [← hframe, Nat.add_assoc], ?_⟩
  rw [← hout, ← hframe, List.take_append_of_le_length (by simp [hl]; omega),
    List.take_of_length_le (by simp [hl]; omega)]

/-- Every frame `build` makes carries its message under a correct checksum. -/
theorem carries_build (hbody : body (buf.drop (bcmpHeaderOffset + bcmpHeaderLen)) = .ok (written, n))
    (h : build buf nodeId dst messageType seqNum body = .ok (out, frameLen)) :
    Carries (out.take frameLen) (nodeidToIp linkLocalPrefix nodeId) dst
      (builtHeader nodeId dst messageType seqNum (written.val.take n)) (written.val.take n) := by
  obtain ⟨hl, hlen, -, hframe⟩ := take_of_build hbody h
  have hc := carries_frame (nodeidToIp linkLocalPrefix nodeId) dst hopLimit
    (builtHeader nodeId dst messageType seqNum (written.val.take n)) (by rw [hl]; exact hlen)
  rw [hl] at hc
  rw [hframe]
  exact hc

end Built

/--
The body `build` is given either fits both the payload length and the buffer or
is refused, and every frame it makes is accepted with all that was put in,
whatever ingress port is stamped on the way and whatever follows the frame.
-/
theorem accept_build (buf : Bytes) (nodeId : UInt64) (dst : BmIpAddr) (messageType : MessageType)
    (seqNum : UInt32) (body : BodyWriter)
    (written : { b : Bytes // b.length = (buf.drop (bcmpHeaderOffset + bcmpHeaderLen)).length })
    (n : Nat) (hbody : body (buf.drop (bcmpHeaderOffset + bcmpHeaderLen)) = .ok (written, n)) :
    ((∃ built, build buf nodeId dst messageType seqNum body = .ok built) ↔
      bcmpHeaderLen + n ≤ 65535 ∧ bcmpHeaderOffset + bcmpHeaderLen + n ≤ buf.length) ∧
    ∀ out frameLen, build buf nodeId dst messageType seqNum body = .ok (out, frameLen) →
      ∀ (port : UInt8) (extra : Bytes), port.toNat ≤ 15 →
        ∃ r, (accept (stampIngressPort (out.take frameLen) port ++ extra)).2 = .ok r ∧
          r.header.messageType = messageType ∧ r.header.seqNum = seqNum ∧
          r.payload = written.val.take n ∧ r.src.toNodeId = nodeId ∧ r.dst = dst ∧
          r.ingressPort = port := by
  refine ⟨⟨?_, ?_⟩, ?_⟩
  · rintro ⟨⟨out, frameLen⟩, h⟩
    obtain ⟨w, m, hb, hlen, hfit⟩ := build_eq_ok h
    rw [hbody] at hb
    cases hb
    exact ⟨by omega, hfit⟩
  · rintro ⟨hlen, hfit⟩
    exact ⟨_, build_eq nodeId dst messageType seqNum hbody (by omega) hfit⟩
  · intro out frameLen h port extra hport
    obtain ⟨w, m, hb, hlen, hfit⟩ := build_eq_ok h
    rw [hbody] at hb
    cases hb
    have hc := (carries_build hbody h)
    have hports := (hc.stampIngressPort port).append extra
    refine ⟨_, (hports.accept_eq).trans (if_pos ?_), rfl, rfl, rfl, ?_, rfl, ?_⟩
    · rw [BmIpAddr.clearPorts_stamp]
      rfl
    · rw [BmIpAddr.clearPorts_stamp, toNodeId_nodeidToIp]
    · rw [BmIpAddr.ports_write, stamp_high, and_low_of_le hport]

/-- A body of three bytes. -/
def threeByteBody : BodyWriter := fun tail =>
  if h : 3 ≤ tail.length then
    .ok (⟨tail.copyAt 0 [0xAA, 0xBB, 0xCC], Bytes.length_copyAt tail 0 [0xAA, 0xBB, 0xCC] h⟩, 3)
  else .error .truncated

theorem threeByteBody_eq {tail : Bytes} (h : 3 ≤ tail.length) : threeByteBody tail =
    .ok (⟨tail.copyAt 0 [0xAA, 0xBB, 0xCC], Bytes.length_copyAt tail 0 [0xAA, 0xBB, 0xCC] h⟩, 3) := dif_pos h

/-- A body of three bytes in a buffer with two to spare, received on port 3. -/
theorem accept_build_threeBytes :
    ∃ out frameLen r, build (List.replicate 72 0xEE) 0x55AA0011 .linkLocalMulticast ⟨1⟩ 9 threeByteBody =
        .ok (out, frameLen) ∧
      (accept (stampIngressPort (out.take frameLen) 3 ++ [0xFF])).2 = .ok r ∧ r.header.seqNum = 9 ∧
        r.payload = [0xAA, 0xBB, 0xCC] ∧ r.ingressPort = 3 := by
  obtain ⟨hbuilds, haccepts⟩ := accept_build (List.replicate 72 0xEE) 0x55AA0011 .linkLocalMulticast ⟨1⟩ 9
    threeByteBody _ 3 (threeByteBody_eq (by decide))
  obtain ⟨⟨out, frameLen⟩, hbuild⟩ := hbuilds.mpr ⟨by decide, by decide⟩
  obtain ⟨r, haccept, -, hseqNum, hpayload, -, -, hport⟩ := haccepts out frameLen hbuild 3 [0xFF] (by decide)
  exact ⟨out, frameLen, r, hbuild, haccept, hseqNum, hpayload, hport⟩

end Bristlemouth
