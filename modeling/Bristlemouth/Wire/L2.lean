import Bristlemouth.Bcmp.Packet

/-!
# Ports in the source address

`l2.rs` stamps the egress port of an outgoing frame and patches its checksum to
match; `l2_policy.rs` stamps the ingress port of a received one.
-/

set_option autoImplicit false

namespace Bristlemouth

@[simp] def minStampableFrame : Nat := minFrameWithAddresses + 8

/-- How L2 transmits a frame, decided by its destination address. -/
inductive TxKind where
  | globalMulticast
  | linkLocalMulticast
  | dropped
deriving DecidableEq

def txKind (frame : Bytes) : TxKind :=
  if frame.length < minFrameWithAddresses then .dropped
  else
    let dst := readAddr frame ipv6DestinationAddressOffset
    if dst.isGlobalMulticast then .globalMulticast
    else if dst.isLinkLocalMulticast then .linkLocalMulticast
    else .dropped

/-- Where an application asks for a specific egress port. -/
@[simp] def requestedEgressPortOffset : Nat := ipv6DestinationAddressOffset + 13

def allPortsMask (numPorts : UInt8) : UInt16 :=
  if numPorts ≥ 16 then 0xFFFF else ((1 : UInt16) <<< numPorts.toUInt16) - 1

/-- The frame with the request cleared out of it, and the port mask to transmit on. -/
def takeRequestedEgressPort (frame : Bytes) (numPorts : UInt8) : Except BmWireError (Bytes × UInt16) :=
  if frame.length < minFrameWithAddresses then .error .truncated
  else
    let requested := frame.byteAt requestedEgressPortOffset
    let frame := frame.copyAt requestedEgressPortOffset [0]
    if requested > 0 ∧ requested ≤ numPorts then
      .ok (frame, (1 : UInt16) <<< (requested - 1).toUInt16)
    else .ok (frame, allPortsMask numPorts)

inductive Patch where
  | add
  | subtract
deriving DecidableEq

/-- Undo the one's complement, apply the port, redo it. -/
def Patch.byte (op : Patch) (x port : UInt8) : UInt8 :=
  match op with
  | .add => ((x ^^^ 0xFF) + port) ^^^ 0xFF
  | .subtract => ((x ^^^ 0xFF) - port) ^^^ 0xFF

def Patch.word (op : Patch) (x : UInt16) (port : UInt8) : UInt16 :=
  match op with
  | .add => ((x ^^^ 0xFFFF) + port.toUInt16) ^^^ 0xFFFF
  | .subtract => ((x ^^^ 0xFFFF) - port.toUInt16) ^^^ 0xFFFF

def patch (frame : Bytes) (port : UInt8) (op : Patch) : Except BmWireError Bytes :=
  if frame.length < minStampableFrame then .error .truncated
  else
    let frame := match op with
      | .add => frame.copyAt ipv6IngressEgressPortsOffset
          [frame.byteAt ipv6IngressEgressPortsOffset ||| port]
      | .subtract => frame
    if ethernetType frame ≠ some ethernetTypeIpv6 then .ok frame
    else if frame.byteAt ipv6NextHeaderOffset = ipProtoUdp then
      -- Eight-bit arithmetic: a carry out of the byte is dropped.
      .ok (frame.copyAt udpChecksumOffset [op.byte (frame.byteAt udpChecksumOffset) port])
    else if frame.byteAt ipv6NextHeaderOffset = ipProtoBcmp then
      .ok (frame.copyAt bcmpChecksumOffset (u16ToLe (op.word (u16At frame bcmpChecksumOffset) port)))
    else .ok frame

def addEgressPort (frame : Bytes) (port : UInt8) : Except BmWireError Bytes := patch frame port .add

def revertChecksum (frame : Bytes) (port : UInt8) : Except BmWireError Bytes := patch frame port .subtract

def clearPorts (frame : Bytes) : Except BmWireError Bytes :=
  if frame.length < minFrameWithAddresses then .error .truncated
  else .ok (frame.copyAt ipv6IngressEgressPortsOffset [0])

/-- `Drop for Stamped`: both results are ignored. -/
def dropStamped (frame : Bytes) (port : UInt8) : Bytes :=
  let frame := (clearPorts frame).toOption.getD frame
  (revertChecksum frame port).toOption.getD frame

/-- `rx_apply`: the ingress port goes in the upper nibble, the egress nibble is kept. -/
def stampIngressPort (frame : Bytes) (ingressPortNum : UInt8) : Bytes :=
  frame.copyAt ipv6IngressEgressPortsOffset
    [(frame.byteAt ipv6IngressEgressPortsOffset &&& (0x0F : UInt8)) ||| ((ingressPortNum &&& (0x0F : UInt8)) <<< 4)]

/-! ### Ports -/

/-- `1..=num_ports`. -/
def portRange (numPorts : UInt8) : List UInt8 := (List.range' 1 numPorts.toNat).map UInt8.ofNat

theorem portRange_sorted (numPorts : UInt8) : (portRange numPorts).Pairwise (· < ·) := by
  rw [portRange, List.pairwise_map]
  have hrange : (List.range' 1 numPorts.toNat).Pairwise (· < ·) := List.pairwise_lt_range'
  refine hrange.imp_of_mem ?_
  intro i j hi hj hij
  have hcount := numPorts.toNat_lt
  obtain ⟨hi₁, hi₂⟩ := List.mem_range'_1.mp hi
  obtain ⟨hj₁, hj₂⟩ := List.mem_range'_1.mp hj
  rw [UInt8.lt_iff_toNat_lt, UInt8.toNat_ofNat', UInt8.toNat_ofNat']
  omega

theorem mem_portRange {port numPorts : UInt8} :
    port ∈ portRange numPorts ↔ 1 ≤ port ∧ port ≤ numPorts := by
  have hcount := numPorts.toNat_lt
  rw [portRange, List.mem_map, UInt8.le_iff_toNat_le, UInt8.le_iff_toNat_le]
  constructor
  · rintro ⟨i, hi, rfl⟩
    obtain ⟨hlow, hhigh⟩ := List.mem_range'_1.mp hi
    rw [UInt8.toNat_ofNat']
    change 1 ≤ _ ∧ _
    omega
  · rintro ⟨hlow, hhigh⟩
    change 1 ≤ _ at hlow
    exact ⟨port.toNat, List.mem_range'_1.mpr ⟨hlow, by omega⟩, UInt8.ofNat_toNat⟩

/-! ### Nibbles -/

theorem and_low_of_le {q : UInt8} (h : q.toNat ≤ 15) : q &&& (0x0F : UInt8) = q := by
  apply UInt8.toNat_inj.mp
  rw [UInt8.toNat_and]
  exact (Nat.and_two_pow_sub_one_eq_mod _ 4).trans (Nat.mod_eq_of_lt (by omega))

theorem bit_cases {i : Nat} (h : i < 8) :
    i = 0 ∨ i = 1 ∨ i = 2 ∨ i = 3 ∨ i = 4 ∨ i = 5 ∨ i = 6 ∨ i = 7 := by omega

theorem stamp_low (b q : UInt8) :
    ((b &&& (0x0F : UInt8)) ||| ((q &&& (0x0F : UInt8)) <<< 4)) &&& (0x0F : UInt8) =
      b &&& (0x0F : UInt8) := by
  apply UInt8.eq_of_toBitVec_eq
  ext i hi
  rcases bit_cases hi with rfl | rfl | rfl | rfl | rfl | rfl | rfl | rfl <;> simp

theorem stamp_high (b q : UInt8) :
    (((b &&& (0x0F : UInt8)) ||| ((q &&& (0x0F : UInt8)) <<< 4)) >>> 4) &&& (0x0F : UInt8) =
      q &&& (0x0F : UInt8) := by
  apply UInt8.eq_of_toBitVec_eq
  ext i hi
  rcases bit_cases hi with rfl | rfl | rfl | rfl | rfl | rfl | rfl | rfl <;> simp

/-! ### Stamp and restore -/

theorem Patch.byte_subtract_add (x port : UInt8) :
    Patch.subtract.byte (Patch.add.byte x port) port = x := by
  simp [Patch.byte, UInt8.xor_assoc]

theorem Patch.word_subtract_add (x : UInt16) (port : UInt8) :
    Patch.subtract.word (Patch.add.word x port) port = x := by
  simp [Patch.word, UInt16.xor_assoc]

theorem ethernetType_copyAt {frame data : Bytes} {off : Nat} (hfit : off + data.length ≤ frame.length)
    (hoff : ethernetTypeOffset + ethernetTypeSize ≤ off) :
    ethernetType (frame.copyAt off data) = ethernetType frame := by
  rw [ethernetType_eq (by rw [Bytes.length_copyAt _ _ _ hfit]; omega), ethernetType_eq (by omega),
    Bytes.slice_copyAt_of_disjoint hfit (.inl hoff)]

/-- The half of `patch` that both directions share. -/
def patchChecksum (frame : Bytes) (port : UInt8) (op : Patch) : Bytes :=
  if ethernetType frame ≠ some ethernetTypeIpv6 then frame
  else if frame.byteAt ipv6NextHeaderOffset = ipProtoUdp then
    frame.copyAt udpChecksumOffset [op.byte (frame.byteAt udpChecksumOffset) port]
  else if frame.byteAt ipv6NextHeaderOffset = ipProtoBcmp then
    frame.copyAt bcmpChecksumOffset (u16ToLe (op.word (u16At frame bcmpChecksumOffset) port))
  else frame

section
variable {frame : Bytes} {port : UInt8}

theorem patch_add_eq (port : UInt8) (hlen : minStampableFrame ≤ frame.length) :
    addEgressPort frame port = .ok (patchChecksum (frame.copyAt ipv6IngressEgressPortsOffset
      [frame.byteAt ipv6IngressEgressPortsOffset ||| port]) port .add) := by
  rw [addEgressPort, patch, if_neg (by omega), patchChecksum]
  dsimp only
  split
  · rfl
  · split
    · rfl
    · split <;> rfl

theorem patch_subtract_eq (hlen : minStampableFrame ≤ frame.length) :
    revertChecksum frame port = .ok (patchChecksum frame port .subtract) := by
  rw [revertChecksum, patch, if_neg (by omega), patchChecksum]
  dsimp only
  split
  · rfl
  · split
    · rfl
    · split <;> rfl

theorem addEgressPort_short (hlen : frame.length < minStampableFrame) :
    addEgressPort frame port = .error .truncated := by
  rw [addEgressPort, patch, if_pos hlen]

/-- A checksum write is seen by the checksum alone. -/
theorem reads_copyAt {off : Nat} {data : Bytes} (hfit : off + data.length ≤ frame.length)
    (hoff : ipv6NextHeaderOffset < off) :
    ethernetType (frame.copyAt off data) = ethernetType frame ∧
      (frame.copyAt off data).byteAt ipv6NextHeaderOffset = frame.byteAt ipv6NextHeaderOffset := by
  simp at hoff
  refine ⟨ethernetType_copyAt hfit (by simp; omega), ?_⟩
  exact Bytes.byteAt_copyAt_of_disjoint hfit (.inl (by simp; omega))

theorem length_patchChecksum (port : UInt8) (op : Patch) (hlen : minStampableFrame ≤ frame.length) :
    (patchChecksum frame port op).length = frame.length := by
  simp only [minStampableFrame, minFrameWithAddresses, ipv6DestinationAddressOffset, ipv6SourceAddressOffset] at hlen
  unfold patchChecksum
  split
  · rfl
  · split
    · exact Bytes.length_copyAt _ _ _ (by simp at hlen ⊢; omega)
    · split
      · exact Bytes.length_copyAt _ _ _ (by simp at hlen ⊢; omega)
      · rfl

theorem patchChecksum_udp {op : Patch} (htype : ethernetType frame = some ethernetTypeIpv6)
    (hudp : frame.byteAt ipv6NextHeaderOffset = ipProtoUdp) :
    patchChecksum frame port op =
      frame.copyAt udpChecksumOffset [op.byte (frame.byteAt udpChecksumOffset) port] := by
  rw [patchChecksum, if_neg (not_not.mpr htype), if_pos hudp]

theorem patchChecksum_bcmp {op : Patch} (htype : ethernetType frame = some ethernetTypeIpv6)
    (hbcmp : frame.byteAt ipv6NextHeaderOffset = ipProtoBcmp) :
    patchChecksum frame port op =
      frame.copyAt bcmpChecksumOffset (u16ToLe (op.word (u16At frame bcmpChecksumOffset) port)) := by
  have hudp : frame.byteAt ipv6NextHeaderOffset ≠ ipProtoUdp := by rw [hbcmp]; decide
  rw [patchChecksum, if_neg (not_not.mpr htype), if_neg hudp, if_pos hbcmp]

theorem patchChecksum_other {op : Patch} (h : ethernetType frame ≠ some ethernetTypeIpv6 ∨
    frame.byteAt ipv6NextHeaderOffset ≠ ipProtoUdp ∧ frame.byteAt ipv6NextHeaderOffset ≠ ipProtoBcmp) :
    patchChecksum frame port op = frame := by
  unfold patchChecksum
  split
  · rfl
  · rename_i htype
    obtain hne | ⟨hudp, hbcmp⟩ := h
    · exact absurd hne htype
    · rw [if_neg hudp, if_neg hbcmp]

theorem next_header_cases (frame : Bytes) :
    ethernetType frame = some ethernetTypeIpv6 ∧ frame.byteAt ipv6NextHeaderOffset = ipProtoUdp ∨
      ethernetType frame = some ethernetTypeIpv6 ∧ frame.byteAt ipv6NextHeaderOffset = ipProtoBcmp ∨
      (ethernetType frame ≠ some ethernetTypeIpv6 ∨ frame.byteAt ipv6NextHeaderOffset ≠ ipProtoUdp ∧
        frame.byteAt ipv6NextHeaderOffset ≠ ipProtoBcmp) := by
  tauto

/-- The two directions of the patch undo each other, whatever carries. -/
theorem patchChecksum_subtract_add (hlen : minStampableFrame ≤ frame.length) :
    patchChecksum (patchChecksum frame port .add) port .subtract = frame := by
  simp at hlen
  obtain ⟨htype, hudp⟩ | ⟨htype, hbcmp⟩ | hother := next_header_cases frame
  · rw [patchChecksum_udp htype hudp]
    generalize hx : Patch.add.byte (frame.byteAt udpChecksumOffset) port = x
    have hfit : udpChecksumOffset + [x].length ≤ frame.length := by simp; omega
    obtain ⟨htype', hnext'⟩ := reads_copyAt hfit (by simp)
    have hread : (frame.copyAt udpChecksumOffset [x]).byteAt udpChecksumOffset = x :=
      Bytes.byteAt_copyAt_self (by simp; omega)
    rw [patchChecksum_udp (htype'.trans htype) (hnext'.trans hudp), hread, ← hx,
      Patch.byte_subtract_add, Bytes.copyAt_copyAt (by simp; omega) (by simp)]
    exact Bytes.copyAt_byteAt_self (by simp; omega)
  · rw [patchChecksum_bcmp htype hbcmp]
    generalize hx : Patch.add.word (u16At frame bcmpChecksumOffset) port = x
    have hfit : bcmpChecksumOffset + (u16ToLe x).length ≤ frame.length := by simp; omega
    obtain ⟨htype', hnext'⟩ := reads_copyAt hfit (by simp)
    have hread : u16At (frame.copyAt bcmpChecksumOffset (u16ToLe x)) bcmpChecksumOffset = x := by
      have hs : (frame.copyAt bcmpChecksumOffset (u16ToLe x)).slice bcmpChecksumOffset
          (u16ToLe x).length = u16ToLe x := Bytes.slice_copyAt _ (by simp; omega)
      rw [length_u16ToLe] at hs
      rw [u16At, hs, u16FromLe_u16ToLe]
    rw [patchChecksum_bcmp (htype'.trans htype) (hnext'.trans hbcmp), hread, ← hx,
      Patch.word_subtract_add, Bytes.copyAt_copyAt (by simp; omega) (by simp)]
    apply Bytes.copyAt_slice_self (by simp; omega)
    rw [length_u16ToLe, u16At, u16ToLe_u16FromLe (Bytes.length_slice (by simp; omega))]
  · rw [patchChecksum_other hother, patchChecksum_other hother]

/-- The ports byte is not part of what the patch reads or writes. -/
theorem patchChecksum_copyAt_ports {op : Patch} (hlen : minStampableFrame ≤ frame.length) (v : UInt8) :
    patchChecksum (frame.copyAt ipv6IngressEgressPortsOffset [v]) port op =
      (patchChecksum frame port op).copyAt ipv6IngressEgressPortsOffset [v] := by
  simp at hlen
  have hfit : ipv6IngressEgressPortsOffset + [v].length ≤ frame.length := by simp; omega
  have htype' := ethernetType_copyAt hfit (by simp)
  have hnext' : (frame.copyAt ipv6IngressEgressPortsOffset [v]).byteAt ipv6NextHeaderOffset =
      frame.byteAt ipv6NextHeaderOffset := Bytes.byteAt_copyAt_of_disjoint hfit (.inl (by simp))
  obtain ⟨htype, hudp⟩ | ⟨htype, hbcmp⟩ | hother := next_header_cases frame
  · rw [patchChecksum_udp htype hudp, patchChecksum_udp (htype'.trans htype) (hnext'.trans hudp),
      Bytes.byteAt_copyAt_of_disjoint hfit (.inr (by simp))]
    exact Bytes.copyAt_comm (by simp; omega) (by simp; omega) (.inl (by simp))
  · have hslice := Bytes.slice_copyAt_of_disjoint (n := 2) hfit (i := bcmpChecksumOffset) (.inr (by simp))
    rw [patchChecksum_bcmp htype hbcmp, patchChecksum_bcmp (htype'.trans htype) (hnext'.trans hbcmp),
      u16At, hslice, ← u16At]
    exact Bytes.copyAt_comm (by simp; omega) (by simp; omega) (.inl (by simp))
  · rw [patchChecksum_other hother, patchChecksum_other (by rw [htype', hnext']; exact hother)]

/-- A stamp is undone by clearing the ports byte it went into and taking the port back out of the
checksum. -/
theorem dropStamped_addEgressPort {stamped : Bytes}
    (hports : frame.byteAt ipv6IngressEgressPortsOffset = 0)
    (h : addEgressPort frame port = .ok stamped) : dropStamped stamped port = frame := by
  by_cases hlen : minStampableFrame ≤ frame.length
  · rw [patch_add_eq _ hlen, patchChecksum_copyAt_ports hlen] at h
    cases h
    simp at hlen
    have hfit : ipv6IngressEgressPortsOffset + 1 ≤ (patchChecksum frame port .add).length := by
      rw [length_patchChecksum _ _ (by simp; omega)]
      simp
      omega
    generalize frame.byteAt ipv6IngressEgressPortsOffset ||| port = v
    have hl : ((patchChecksum frame port .add).copyAt ipv6IngressEgressPortsOffset [v]).length =
        frame.length := by
      rw [Bytes.length_copyAt _ _ _ (by simpa using hfit), length_patchChecksum _ _ (by simp; omega)]
    have hclear : clearPorts ((patchChecksum frame port .add).copyAt ipv6IngressEgressPortsOffset [v]) =
        .ok ((patchChecksum frame port .add).copyAt ipv6IngressEgressPortsOffset [0]) := by
      rw [clearPorts, if_neg (by rw [hl]; simp; omega),
        Bytes.copyAt_copyAt (by simpa using hfit) (by simp)]
    have hl0 : ((patchChecksum frame port .add).copyAt ipv6IngressEgressPortsOffset [0]).length =
        frame.length := by
      rw [Bytes.length_copyAt _ _ _ (by simpa using hfit), length_patchChecksum _ _ (by simp; omega)]
    rw [dropStamped, hclear]
    change (revertChecksum ((patchChecksum frame port .add).copyAt
      ipv6IngressEgressPortsOffset [0]) port).toOption.getD _ = _
    rw [patch_subtract_eq (by rw [hl0]; simp; omega),
      patchChecksum_copyAt_ports (by rw [length_patchChecksum _ _ (by simp; omega)]; simp; omega),
      patchChecksum_subtract_add (by simp; omega)]
    apply Bytes.copyAt_slice_self (by simp; omega)
    rw [← hports]
    exact Bytes.slice_one (by simp; omega)
  · rw [addEgressPort_short (by omega)] at h
    cases h

end

end Bristlemouth
