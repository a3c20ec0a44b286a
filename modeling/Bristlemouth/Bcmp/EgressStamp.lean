import Bristlemouth.Bcmp.RoundTrip

/-!
# The egress stamp

The checksum patch adds a port to a folded, byte-swapped one's-complement sum
without the end-around carry. It is therefore exact unless that one addition
carries out of sixteen bits.
-/

set_option autoImplicit false

namespace Bristlemouth

theorem xor_ones (x : UInt16) : x ^^^ 0xFFFF = ~~~x := by
  rw [show (0xFFFF : UInt16) = -1 by decide, UInt16.xor_neg_one]

theorem toNat_xor_ones (x : UInt16) : (x ^^^ 0xFFFF).toNat = 65535 - x.toNat := by
  rw [xor_ones, UInt16.toNat_not, UInt16.size]

theorem octets_write_ports (id : UInt64) (port : UInt8) :
    ((nodeidToIp linkLocalPrefix id).write 2 [port]).octets =
      [0xFE, 0x80, port, 0] ++ ([0, 0, 0, 0] ++ u64ToBe id) := by
  rw [BmIpAddr.octets_write (by simp), BmIpAddr.octets_nodeidToIp]
  rfl

/-- The ports byte is the high half of its word. -/
theorem pseudoSum_write_ports (id : UInt64) (port : UInt8) (dst : BmIpAddr) (nextHeader : UInt8)
    (data : Bytes) :
    pseudoSum ((nodeidToIp linkLocalPrefix id).write 2 [port]) dst nextHeader data =
      pseudoSum (nodeidToIp linkLocalPrefix id) dst nextHeader data + 256 * port.toNat := by
  have hword : wordSum ([0xFE, 0x80, port, 0] ++ ([0, 0, 0, 0] ++ u64ToBe id)) =
      wordSum ([0xFE, 0x80, 0, 0] ++ ([0, 0, 0, 0] ++ u64ToBe id)) + 256 * port.toNat := by
    simp only [List.cons_append, List.nil_append, wordSum, UInt8.toNat_zero]
    omega
  rw [pseudoSum, pseudoSum, octets_write_ports, BmIpAddr.octets_nodeidToIp, hword]
  omega

theorem pseudoSum_bcmp_pos (src dst : BmIpAddr) (data : Bytes) : 0 < pseudoSum src dst ipProtoBcmp data := by
  have h : ipProtoBcmp.toNat = 188 := rfl
  rw [pseudoSum, h]
  omega

/-- `Patch.add` as a number: the complement of the checksum grows by the port, modulo `2 ^ 16`. -/
theorem toNat_patch_add (checksum : UInt16) (port : UInt8) :
    (Patch.add.word checksum port).toNat =
      65535 - ((checksum ^^^ 0xFFFF).toNat + port.toNat) % 65536 := by
  rw [Patch.word, toNat_xor_ones, UInt16.toNat_add, UInt8.toNat_toUInt16]

/-- The patched checksum is the checksum of the stamped source exactly when the patch does not carry. -/
theorem checksum_write_ports_eq_iff (id : UInt64) (port : UInt8) (dst : BmIpAddr) (header : BcmpHeader)
    {body : Bytes} (h : bcmpHeaderLen + body.length < 65536) :
    Carries.checksum ((nodeidToIp linkLocalPrefix id).write 2 [port]) dst header body =
        Patch.add.word (Carries.checksum (nodeidToIp linkLocalPrefix id) dst header body) port ↔
      (Carries.checksum (nodeidToIp linkLocalPrefix id) dst header body ^^^ 0xFFFF).toNat
        + port.toNat ≤ 65535 := by
  have hlen : ((header.withChecksum 0).toBytes ++ body).length < 65536 := by
    simpa using h
  have hpos := pseudoSum_bcmp_pos (nodeidToIp linkLocalPrefix id) dst ((header.withChecksum 0).toBytes ++ body)
  have hport := port.toNat_lt
  have hold := toNat_ipv6PseudoChecksum (nodeidToIp linkLocalPrefix id) dst ipProtoBcmp hlen
  have hnew := toNat_ipv6PseudoChecksum ((nodeidToIp linkLocalPrefix id).write 2 [port]) dst ipProtoBcmp hlen
  rw [pseudoSum_write_ports] at hnew
  rw [Carries.checksum_eq] at hold hnew
  generalize pseudoSum (nodeidToIp linkLocalPrefix id) dst ipProtoBcmp
    ((header.withChecksum 0).toBytes ++ body) = s at *
  have hlt := OnesComplement.swap_lt (OnesComplement.fold s)
  have hlt' := OnesComplement.swap_lt (OnesComplement.fold (s + 256 * port.toNat))
  have hcompl : (Carries.checksum (nodeidToIp linkLocalPrefix id) dst header body ^^^ 0xFFFF).toNat =
      OnesComplement.swap (OnesComplement.fold s) := by
    rw [toNat_xor_ones, hold]
    omega
  have hiff : OnesComplement.swap (OnesComplement.fold (s + 256 * port.toNat)) =
      (OnesComplement.swap (OnesComplement.fold s) + port.toNat) % 65536 ↔
        OnesComplement.swap (OnesComplement.fold s) + port.toNat < 65536 :=
    OnesComplement.swap_fold_add_eq_iff hpos (by omega)
  rw [← UInt16.toNat_inj, toNat_patch_add, hnew, hcompl]
  omega

/-- What `add_egress_port` does to a frame a node built. -/
theorem addEgressPort_carries {frame : Bytes} {id : UInt64} {dst : BmIpAddr} {header : BcmpHeader}
    {body : Bytes} (h : Carries frame (nodeidToIp linkLocalPrefix id) dst header body) (port : UInt8) :
    ∃ stamped, addEgressPort frame port = .ok stamped ∧
      Carries stamped ((nodeidToIp linkLocalPrefix id).write 2 [port]) dst
        (header.withChecksum (Patch.add.word header.checksum port)) body := by
  have hlen := h.length
  simp at hlen
  have hports : frame.byteAt ipv6IngressEgressPortsOffset ||| port = port := by
    rw [h.byteAt_ports, BmIpAddr.ports_nodeidToIp, UInt8.zero_or]
  have hs : Carries (frame.copyAt ipv6IngressEgressPortsOffset [port])
      ((nodeidToIp linkLocalPrefix id).write 2 [port]) dst header body := h.writeSource (by simp)
  refine ⟨_, ?_, hs.writeChecksum (Patch.add.word header.checksum port)⟩
  rw [addEgressPort, patch, if_neg (by simp; omega)]
  simp only [hports]
  rw [hs.ethernetType_eq, if_neg (by simp), hs.byteAt_protocol, if_neg (by decide), if_pos rfl,
    hs.u16At_checksum]

/--
A stamped frame is accepted exactly when the complement of its stored checksum,
read as the patch reads it, plus the port fits in sixteen bits; and then, and
only then, the patched checksum is the one recomputed over the stamped source.
-/
theorem accept_addEgressPort (buf : Bytes) (nodeId : UInt64) (dst : BmIpAddr)
    (messageType : MessageType) (seqNum : UInt32) (body : BodyWriter) (out : Bytes) (frameLen : Nat)
    (hbuild : build buf nodeId dst messageType seqNum body = .ok (out, frameLen))
    (port ingressPort : UInt8) (hport : port.toNat ≤ 15) :
    ∃ stamped, addEgressPort (out.take frameLen) port = .ok stamped ∧
      ((∃ r, (accept (stampIngressPort stamped ingressPort)).2 = .ok r) ↔
        (u16At (out.take frameLen) bcmpChecksumOffset ^^^ 0xFFFF).toNat + port.toNat ≤ 0xFFFF) ∧
      (u16At stamped bcmpChecksumOffset =
          ipv6PseudoChecksum (readAddr stamped ipv6SourceAddressOffset)
            (readAddr stamped ipv6DestinationAddressOffset) ipProtoBcmp
            (Bytes.slice (stamped.copyAt bcmpChecksumOffset [0, 0]) bcmpHeaderOffset
              (frameLen - bcmpHeaderOffset)) ↔
        (u16At (out.take frameLen) bcmpChecksumOffset ^^^ 0xFFFF).toNat + port.toNat ≤ 0xFFFF) := by
  obtain ⟨written, n, hbody, hlen, hfit⟩ := build_eq_ok hbuild
  have hc := carries_build hbody hbuild
  obtain ⟨hsent, -, hframe, -⟩ := take_of_build hbody hbuild
  rw [← hsent] at hframe
  have hl := hc.body_length_lt
  generalize written.val.take n = sent at *
  generalize hhd : builtHeader nodeId dst messageType seqNum sent = header at *
  have hstored : header.checksum = Carries.checksum (nodeidToIp linkLocalPrefix nodeId) dst header sent := by
    rw [← hhd]
    rfl
  obtain ⟨stamped, hok, hs⟩ := addEgressPort_carries hc port
  have hiff := checksum_write_ports_eq_iff nodeId port dst header hl
  rw [← hstored] at hiff
  refine ⟨stamped, hok, ?_, ?_⟩
  · have hsrc : (((nodeidToIp linkLocalPrefix nodeId).write 2 [port]).write 2
        [((nodeidToIp linkLocalPrefix nodeId).write 2 [port]).ports &&& (0x0F : UInt8)
          ||| ((ingressPort &&& (0x0F : UInt8)) <<< 4)]).clearPorts =
        (nodeidToIp linkLocalPrefix nodeId).write 2 [port] := by
      rw [BmIpAddr.write_ports_write, BmIpAddr.clearPorts_write, stamp_low, BmIpAddr.ports_write,
        and_low_of_le hport, BmIpAddr.write_legacy_nodeidToIp]
    rw [(hs.stampIngressPort ingressPort).accept_eq, hsrc, hc.u16At_checksum, ← hiff,
      BcmpHeader.checksum_withChecksum, Carries.checksum_withChecksum]
    split
    · rename_i heq
      exact ⟨fun _ => heq, fun _ => ⟨_, rfl⟩⟩
    · rename_i hne
      exact ⟨fun h => by simp at h, fun heq => absurd heq hne⟩
  · rw [hs.u16At_checksum, hs.readAddr_source, hs.readAddr_destination, hc.u16At_checksum, ← hiff,
      BcmpHeader.checksum_withChecksum]
    have hzero : ([0, 0] : Bytes) = u16ToLe 0 := by decide
    have hbcmp := (hs.writeChecksum 0).bcmp
    rw [← hzero] at hbcmp
    rw [hframe, Nat.add_sub_cancel_left, hbcmp, BcmpHeader.withChecksum_withChecksum, Carries.checksum_eq]
    exact eq_comm

/-- A body of three bytes, stamped for port 1 and received on port 3. -/
theorem accept_addEgressPort_threeBytes :
    ∃ out frameLen stamped, build (List.replicate 72 0xEE) 0x55AA0011 .linkLocalMulticast ⟨1⟩ 9 threeByteBody =
        .ok (out, frameLen) ∧
      addEgressPort (out.take frameLen) 1 = .ok stamped ∧
      ∃ r, (accept (stampIngressPort stamped 3)).2 = .ok r := by
  have hbuild : build (List.replicate 72 0xEE) 0x55AA0011 .linkLocalMulticast ⟨1⟩ 9 threeByteBody = _ :=
    build_eq 0x55AA0011 .linkLocalMulticast ⟨1⟩ 9 (threeByteBody_eq (by decide)) (by decide) (by decide)
  obtain ⟨stamped, hok, haccept, -⟩ := accept_addEgressPort _ 0x55AA0011 .linkLocalMulticast ⟨1⟩ 9 _ _ _
    hbuild 1 3 (by decide)
  exact ⟨_, _, stamped, hbuild, hok, haccept.mpr (by decide +kernel)⟩

end Bristlemouth
