import Bristlemouth.Bcmp.RoundTrip

/-!
# Re-flooding a link-local message

`forward.rs`: a fresh frame from this node around a received header and body,
with the egress port in the destination address until L2 takes it out.
-/

set_option autoImplicit false

namespace Bristlemouth

/-- The ports a link-local message is re-flooded out of. -/
def forwardEgressPorts (numPorts ingressPort : UInt8) : List UInt8 :=
  (portRange numPorts).filter fun port => port ≠ ingressPort

/-- `FF02::1` with `egress_port` where L2 looks for it. -/
def portSpecificDestination (egressPort : UInt8) : BmIpAddr :=
  ⟨BmIpAddr.linkLocalMulticast.octets.copyAt 12
    (u32ToLe ((0x01000000 : UInt32) ||| (egressPort.toUInt32 <<< 8))), by simp⟩

/-- The frame around a received message, and its length. -/
def serializeForwarded (frame bcmp : Bytes) : Except BmWireError (Bytes × Nat) :=
  if bcmp.length < bcmpHeaderLen then .error .truncated
  else if frame.length < bcmpHeaderOffset + bcmp.length then .error .truncated
  else
    let frame := frame.copyAt bcmpHeaderOffset bcmp
    -- Whatever the received frame carried as its checksum is not part of the new sum.
    let frame := frame.copyAt bcmpChecksumOffset [0, 0]
    let src := readAddr frame ipv6SourceAddressOffset
    let dst := readAddr frame ipv6DestinationAddressOffset
    let checksum := ipv6PseudoChecksum src dst ipProtoBcmp
      (frame.slice bcmpHeaderOffset bcmp.length)
    .ok (frame.copyAt bcmpChecksumOffset (u16ToLe checksum), bcmpHeaderOffset + bcmp.length)

/-- The destination and the MAC derived from it; only the address is cleared again later. -/
def applyPortSpecificDestination (frame : Bytes) (egressPort : UInt8) : Except BmWireError Bytes :=
  if frame.length < minFrameWithAddresses then .error .truncated
  else
    let dst := portSpecificDestination egressPort
    let frame := frame.copyAt ipv6DestinationAddressOffset dst.octets
    .ok (frame.copyAt ethernetDestinationOffset (multicastMacFromIpv6 dst))

def takeEgressPort (frame : Bytes) (numPorts : UInt8) : Except BmWireError (Bytes × UInt16) :=
  takeRequestedEgressPort frame numPorts

theorem mem_forwardEgressPorts {port numPorts ingressPort : UInt8} :
    port ∈ forwardEgressPorts numPorts ingressPort ↔
      (1 ≤ port ∧ port ≤ numPorts) ∧ port ≠ ingressPort := by
  rw [forwardEgressPorts, List.mem_filter, mem_portRange, decide_eq_true_iff]

theorem forwardEgressPorts_sorted (numPorts ingressPort : UInt8) :
    (forwardEgressPorts numPorts ingressPort).Pairwise (· < ·) := (portRange_sorted numPorts).filter _

/-! ### The destination -/

theorem egressPort_word (egressPort : UInt8) :
    u32ToLe ((0x01000000 : UInt32) ||| (egressPort.toUInt32 <<< 8)) = [0, egressPort, 0, 0x01] := by
  have hlt := egressPort.toNat_lt
  have hshift : (egressPort.toUInt32 <<< 8).toNat = 256 * egressPort.toNat := by
    rw [UInt32.toNat_shiftLeft, UInt8.toNat_toUInt32]
    change egressPort.toNat <<< 8 % 2 ^ 32 = _
    rw [Nat.shiftLeft_eq, Nat.mod_eq_of_lt (by omega), Nat.mul_comm]
  have hword : ((0x01000000 : UInt32) ||| (egressPort.toUInt32 <<< 8)).toNat =
      Bytes.leNat [0, egressPort, 0, 0x01] := by
    have hor := Nat.two_pow_add_eq_or_of_lt (show 256 * egressPort.toNat < 2 ^ 24 by omega) 1
    rw [UInt32.toNat_or, hshift]
    refine hor.symm.trans ?_
    change _ = 0 + 256 * (egressPort.toNat + 256 * (0 + 256 * (1 + 256 * 0)))
    omega
  rw [u32ToLe, hword]
  exact Bytes.leBytes_leNat [0, egressPort, 0, 0x01]

theorem portSpecificDestination_octets (egressPort : UInt8) :
    (portSpecificDestination egressPort).octets =
      [0xFF, 0x02, 0, 0, 0, 0, 0, 0, 0, 0, 0, 0, 0, egressPort, 0, 0x01] := by
  change BmIpAddr.linkLocalMulticast.octets.copyAt 12 _ = _
  rw [egressPort_word]
  rfl

/-- Clearing the port byte leaves `FF02::1`. -/
theorem portSpecificDestination_cleared (egressPort : UInt8) :
    (portSpecificDestination egressPort).write 13 [0] = BmIpAddr.linkLocalMulticast := by
  apply BmIpAddr.ext_octets
  rw [BmIpAddr.octets_write (by simp), portSpecificDestination_octets]
  rfl

namespace Carries

variable {frame : Bytes} {src dst : BmIpAddr} {header : BcmpHeader} {body : Bytes}

theorem writeDestination (h : Carries frame src dst header body) {i : Nat} {data : Bytes}
    (hi : i + data.length ≤ ipv6AddressSize) :
    Carries (frame.copyAt (ipv6DestinationAddressOffset + i) data) src (dst.write i data) header body := by
  obtain ⟨hlen, htype, hpl, hproto, hsrc, hdst, hbcmp⟩ := h
  simp at hlen hi
  have hfit : ipv6DestinationAddressOffset + i + data.length ≤ frame.length := by simp; omega
  refine ⟨by rw [Bytes.length_copyAt _ _ _ hfit]; simp; omega, ?_, ?_, ?_, ?_, ?_, ?_⟩
  · rw [Bytes.slice_copyAt_of_disjoint hfit (by simp; omega), htype]
  · rw [Bytes.slice_copyAt_of_disjoint hfit (by simp; omega), hpl]
  · rw [Bytes.slice_copyAt_of_disjoint hfit (by simp; omega), hproto]
  · rw [Bytes.slice_copyAt_of_disjoint hfit (by simp), hsrc]
  · rw [Bytes.slice_copyAt_within (by simp; omega) (by simp; omega), hdst,
      BmIpAddr.octets_write (by simp; omega)]
  · rw [Bytes.slice_copyAt_of_disjoint hfit (by simp; omega), hbcmp]

/-- The Ethernet addresses are not part of what a frame carries. -/
theorem writeMac (h : Carries frame src dst header body) {i : Nat} {data : Bytes}
    (hi : i + data.length ≤ ethernetTypeOffset) :
    Carries (frame.copyAt i data) src dst header body := by
  obtain ⟨hlen, htype, hpl, hproto, hsrc, hdst, hbcmp⟩ := h
  simp at hlen hi
  have hfit : i + data.length ≤ frame.length := by omega
  refine ⟨by rw [Bytes.length_copyAt _ _ _ hfit]; simp; omega, ?_, ?_, ?_, ?_, ?_, ?_⟩
  · rw [Bytes.slice_copyAt_of_disjoint hfit (by simp; omega), htype]
  · rw [Bytes.slice_copyAt_of_disjoint hfit (by simp; omega), hpl]
  · rw [Bytes.slice_copyAt_of_disjoint hfit (by simp; omega), hproto]
  · rw [Bytes.slice_copyAt_of_disjoint hfit (by simp; omega), hsrc]
  · rw [Bytes.slice_copyAt_of_disjoint hfit (by simp; omega), hdst]
  · rw [Bytes.slice_copyAt_of_disjoint hfit (by simp; omega), hbcmp]

end Carries

/-! ### The forwarded frame -/

section
variable {header : BcmpHeader} {body : Bytes}

/-- The new checksum is the one a receiver computes for the forwarder's addresses. -/
theorem carries_serializeForwarded (src dst : BmIpAddr) (hop : UInt8) (header : BcmpHeader)
    {body filler : Bytes} (hfill : filler.length = bcmpHeaderLen + body.length) (hlen : bcmpHeaderLen + body.length < 65536) :
    ∃ frame, serializeForwarded (headerBytes src dst ipProtoBcmp hop
        (UInt16.ofNat (bcmpHeaderLen + body.length)) ++ filler) (header.toBytes ++ body) =
        .ok (frame, bcmpHeaderOffset + (bcmpHeaderLen + body.length)) ∧
      frame.length = bcmpHeaderOffset + (bcmpHeaderLen + body.length) ∧
      Carries frame src dst (header.withChecksum (Carries.checksum src dst header body)) body := by
  have hbcmp : (header.toBytes ++ body).length = bcmpHeaderLen + body.length := by simp
  have hc := carries_frame src dst hop header hlen
  generalize hhd : headerBytes src dst ipProtoBcmp hop (UInt16.ofNat (bcmpHeaderLen + body.length)) =
    headers at *
  have hheaders : headers.length = bcmpHeaderOffset := by simp [← hhd]
  have hcopy : (headers ++ filler).copyAt bcmpHeaderOffset (header.toBytes ++ body) =
      headers ++ (header.toBytes ++ body) := by
    rw [Bytes.copyAt_append_at _ hheaders, List.drop_of_length_le (by omega), List.append_nil]
  have hzero : ([0, 0] : Bytes) = u16ToLe 0 := by decide
  have h₀ := hc.writeChecksum 0
  have h₁ := h₀.writeChecksum (Carries.checksum src dst header body)
  rw [BcmpHeader.withChecksum_withChecksum] at h₁
  have hroom : (headers ++ filler).length = bcmpHeaderOffset + (bcmpHeaderLen + body.length) := by
    rw [List.length_append, hheaders, hfill]
  have hwhole : (headers ++ (header.toBytes ++ body)).length =
      bcmpHeaderOffset + (bcmpHeaderLen + body.length) := by
    rw [List.length_append, hheaders, hbcmp]
  refine ⟨_, ?_, ?_, h₁⟩
  · rw [serializeForwarded, if_neg (by omega), if_neg (by omega), hcopy, hzero]
    simp only [h₀.readAddr_source, h₀.readAddr_destination, hbcmp, h₀.bcmp, Carries.checksum_eq]
  · simp only [bcmpHeaderOffset, bcmpHeaderLen] at hwhole
    simp only [ipv6DestinationAddressOffset, ipv6SourceAddressOffset] at hwhole
    simp at hwhole
    rw [Bytes.length_copyAt _ _ _ (by rw [Bytes.length_copyAt _ _ _ (by simp; omega)]; simp; omega),
      Bytes.length_copyAt _ _ _ (by simp; omega)]
    simp
    omega

/-- The port travels in the destination and is gone again before the frame is stamped. -/
theorem carries_takeEgressPort {frame : Bytes} {src dst : BmIpAddr} {numPorts egressPort : UInt8}
    (h : Carries frame src dst header body) (hlow : 1 ≤ egressPort) (hhigh : egressPort ≤ numPorts) :
    ∃ pointed out, applyPortSpecificDestination frame egressPort = .ok pointed ∧
      takeEgressPort pointed numPorts =
        .ok (out, (1 : UInt16) <<< (egressPort - 1).toUInt16) ∧
      out.length = frame.length ∧ Carries out src .linkLocalMulticast header body := by
  have hlen := h.length
  simp at hlen
  have hdst : Carries (frame.copyAt ipv6DestinationAddressOffset (portSpecificDestination egressPort).octets)
      src (portSpecificDestination egressPort) header body := by
    have h₁ : Carries (frame.copyAt (ipv6DestinationAddressOffset + 0)
        (portSpecificDestination egressPort).octets) src
        (dst.write 0 (portSpecificDestination egressPort).octets) header body :=
      h.writeDestination (by simp)
    have hall : dst.write 0 (portSpecificDestination egressPort).octets =
        portSpecificDestination egressPort := by
      apply BmIpAddr.ext_octets
      rw [BmIpAddr.octets_write (by simp)]
      exact Bytes.copyAt_zero_of_length (by simp)
    rw [hall] at h₁
    exact h₁
  have hmac : Carries ((frame.copyAt ipv6DestinationAddressOffset
      (portSpecificDestination egressPort).octets).copyAt ethernetDestinationOffset
      (multicastMacFromIpv6 (portSpecificDestination egressPort))) src
      (portSpecificDestination egressPort) header body := hdst.writeMac (by simp)
  have hl₁ : (frame.copyAt ipv6DestinationAddressOffset
      (portSpecificDestination egressPort).octets).length = frame.length :=
    Bytes.length_copyAt _ _ _ (by simp; omega)
  have happly : applyPortSpecificDestination frame egressPort =
      .ok ((frame.copyAt ipv6DestinationAddressOffset (portSpecificDestination egressPort).octets).copyAt
        ethernetDestinationOffset (multicastMacFromIpv6 (portSpecificDestination egressPort))) :=
    if_neg (by simp; omega)
  have hl₂ : ((frame.copyAt ipv6DestinationAddressOffset (portSpecificDestination egressPort).octets).copyAt
      ethernetDestinationOffset (multicastMacFromIpv6 (portSpecificDestination egressPort))).length =
        frame.length := by
    rw [Bytes.length_copyAt _ _ _ (by simp at hl₁; simp; omega), hl₁]
  generalize (frame.copyAt ipv6DestinationAddressOffset (portSpecificDestination egressPort).octets).copyAt
    ethernetDestinationOffset (multicastMacFromIpv6 (portSpecificDestination egressPort)) = pointed
    at happly hmac hl₂
  have hrequested : pointed.byteAt requestedEgressPortOffset = egressPort := by
    have hslice := hmac.destination
    have hbyte : (pointed.slice ipv6DestinationAddressOffset ipv6AddressSize).byteAt 13 =
        pointed.byteAt (ipv6DestinationAddressOffset + 13) := Bytes.byteAt_slice (by simp)
    rw [hslice, portSpecificDestination_octets] at hbyte
    exact hbyte.symm
  have hpositive : egressPort > 0 ∧ egressPort ≤ numPorts := by
    refine ⟨?_, hhigh⟩
    rw [UInt8.le_iff_toNat_le] at hlow
    exact UInt8.lt_iff_toNat_lt.mpr hlow
  have hcleared : Carries (pointed.copyAt (ipv6DestinationAddressOffset + 13) [0]) src
      ((portSpecificDestination egressPort).write 13 [0]) header body :=
    hmac.writeDestination (by simp)
  rw [portSpecificDestination_cleared] at hcleared
  refine ⟨pointed, _, happly, ?_, ?_, hcleared⟩
  · rw [takeEgressPort, takeRequestedEgressPort, if_neg (by simp; omega)]
    dsimp only
    rw [hrequested, if_pos hpositive]
    rfl
  · rw [Bytes.length_copyAt _ _ _ (by simp; omega), hl₂]

end

end Bristlemouth
