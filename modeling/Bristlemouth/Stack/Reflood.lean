import Bristlemouth.Bcmp.Forward
import Bristlemouth.Stack.Transmit
import Mathlib.Data.List.Forall2

/-!
# Re-flood

`Node::forward_link_local` and `Node::reflood`: one fresh frame per port, built
in the node's one transmit buffer and sent before the next is built.
-/

set_option autoImplicit false

namespace Bristlemouth

/-- Largest frame the node will build. -/
@[simp] def mtu : Nat := 1514

/-- The transmit buffer afterwards, and the frame in it if one was built. -/
def forwardLinkLocal (tx : Bytes) (nodeId : UInt64) (portCount egressPort : UInt8) (bcmp : Bytes) :
    Bytes × Option Outbound :=
  let frameLen := minFrameWithAddresses + bcmp.length
  if tx.length < frameLen then (tx, none)
  else
    match writeHeaders (tx.take frameLen) (nodeidToIp linkLocalPrefix nodeId) .linkLocalMulticast
        ipProtoBcmp hopLimit bcmp.length with
    | .error _ => (tx, none)
    | .ok frame =>
      match serializeForwarded frame bcmp with
      | .error _ => (tx.copyAt 0 frame, none)
      | .ok (frame, _) =>
        match applyPortSpecificDestination frame egressPort with
        | .error _ => (tx.copyAt 0 frame, none)
        | .ok frame =>
          match takeEgressPort frame portCount with
          | .error _ => (tx.copyAt 0 frame, none)
          | .ok (frame, mask) => (tx.copyAt 0 frame, some ⟨frame, mask⟩)

section
variable {σ ε : Type} (phy : Phy σ ε) (nodeId : UInt64) (portCount : UInt8) (bcmp : Bytes)

/-- A copy that does not fit is skipped; a failed send abandons the remaining ports. -/
def refloodPorts : List UInt8 → σ → Bytes → Transmitted σ ε
  | [], s, tx => ⟨s, tx, .ok ()⟩
  | egressPort :: ports, s, tx =>
    match forwardLinkLocal tx nodeId portCount egressPort bcmp with
    | (tx, none) => refloodPorts ports s tx
    | (tx, some outbound) =>
      let sent := transmit phy s outbound portCount
      match sent.result with
      | .ok () => refloodPorts ports sent.phy (tx.copyAt 0 sent.frame)
      | .error e => ⟨sent.phy, tx.copyAt 0 sent.frame, .error e⟩

def reflood (ingressPort : UInt8) (s : σ) (tx : Bytes) : Transmitted σ ε :=
  refloodPorts phy nodeId portCount bcmp (forwardEgressPorts portCount ingressPort) s tx

/-- The frames the loop builds, one buffer after the other. -/
def forwardedFrames : List UInt8 → Bytes → List Outbound
  | [], _ => []
  | egressPort :: ports, tx =>
    let (tx, outbound) := forwardLinkLocal tx nodeId portCount egressPort bcmp
    outbound.toList ++ forwardedFrames ports tx

end

/-! ### One port -/

section
variable {header : BcmpHeader} {body : Bytes} {nodeId : UInt64} {portCount egressPort : UInt8}

/-- What the re-flood makes of a message for one port. -/
structure ForwardedTo (nodeId : UInt64) (header : BcmpHeader) (body : Bytes) (egressPort : UInt8)
    (outbound : Outbound) : Prop where
  mask : outbound.mask = portMask egressPort
  length : outbound.frame.length = bcmpHeaderOffset + (bcmpHeaderLen + body.length)
  carries : Carries outbound.frame (nodeidToIp linkLocalPrefix nodeId) .linkLocalMulticast
    (header.withChecksum (Carries.checksum (nodeidToIp linkLocalPrefix nodeId) .linkLocalMulticast
      header body)) body

theorem forwardLinkLocal_spec (nodeId : UInt64) (header : BcmpHeader) {tx : Bytes}
    (hfit : minFrameWithAddresses + (bcmpHeaderLen + body.length) ≤ tx.length)
    (hlen : bcmpHeaderLen + body.length < 65536) (hlow : 1 ≤ egressPort) (hhigh : egressPort ≤ portCount)
    (hmax : portCount ≤ 15) :
    ∃ tx' outbound, forwardLinkLocal tx nodeId portCount egressPort (header.toBytes ++ body) =
        (tx', some outbound) ∧ tx'.length = tx.length ∧
      ForwardedTo nodeId header body egressPort outbound := by
  have hbcmp : (header.toBytes ++ body).length = bcmpHeaderLen + body.length := by simp
  have htake : (tx.take (minFrameWithAddresses + (bcmpHeaderLen + body.length))).length =
      minFrameWithAddresses + (bcmpHeaderLen + body.length) := List.length_take_of_le hfit
  have hheaders : writeHeaders (tx.take (minFrameWithAddresses + (bcmpHeaderLen + body.length)))
      (nodeidToIp linkLocalPrefix nodeId) .linkLocalMulticast ipProtoBcmp hopLimit
      (bcmpHeaderLen + body.length) =
      .ok (headerBytes (nodeidToIp linkLocalPrefix nodeId) .linkLocalMulticast ipProtoBcmp hopLimit
        (UInt16.ofNat (bcmpHeaderLen + body.length)) ++
          (tx.take (minFrameWithAddresses + (bcmpHeaderLen + body.length))).drop
            minFrameWithAddresses) := by
    rw [writeHeaders, if_neg (by omega), if_neg (by omega), headerWrites_eq]
  have hfiller : ((tx.take (minFrameWithAddresses + (bcmpHeaderLen + body.length))).drop
      minFrameWithAddresses).length = bcmpHeaderLen + body.length := by
    rw [List.length_drop, htake]
    omega
  obtain ⟨frame, hserialize, hframe, hcarries⟩ := carries_serializeForwarded
    (nodeidToIp linkLocalPrefix nodeId) .linkLocalMulticast hopLimit header hfiller hlen
  obtain ⟨pointed, out, hpoint, htakeport, hout, hcarries⟩ := carries_takeEgressPort hcarries hlow hhigh
  rw [hframe] at hout
  refine ⟨tx.copyAt 0 out, ⟨out, portMask egressPort⟩, ?_, ?_, rfl, hout, hcarries⟩
  · rw [forwardLinkLocal]
    simp only [hbcmp]
    rw [if_neg (by omega), hheaders]
    have hmask := portMask_eq hlow (UInt8.le_trans (UInt8.le_trans hhigh hmax) (by decide))
    simp only [hserialize, hpoint, htakeport]
    rw [hmask]
  · apply Bytes.length_copyAt
    rw [hout]
    simp at hfit ⊢
    omega

/-- Every port gets one frame, whatever the buffer held before. -/
theorem forwardedFrames_spec (nodeId : UInt64) (header : BcmpHeader) (ports : List UInt8)
    (hports : ∀ port ∈ ports, 1 ≤ port ∧ port ≤ portCount) {tx : Bytes}
    (hfit : minFrameWithAddresses + (bcmpHeaderLen + body.length) ≤ tx.length)
    (hlen : bcmpHeaderLen + body.length < 65536) (hmax : portCount ≤ 15) :
    List.Forall₂ (ForwardedTo nodeId header body) ports
      (forwardedFrames nodeId portCount (header.toBytes ++ body) ports tx) := by
  induction ports generalizing tx with
  | nil => exact .nil
  | cons port ports ih =>
    obtain ⟨hlow, hhigh⟩ := hports port List.mem_cons_self
    obtain ⟨tx', outbound, hforward, htx, hto⟩ :=
      forwardLinkLocal_spec nodeId header hfit hlen hlow hhigh hmax
    rw [forwardedFrames, hforward]
    refine .cons hto (ih ?_ ?_)
    · intro p hp
      exact hports p (List.mem_cons_of_mem _ hp)
    · rw [htx]
      exact hfit

/-- A forwarded frame is accepted as the same message from the forwarder. -/
theorem ForwardedTo.accept {outbound : Outbound}
    (h : ForwardedTo nodeId header body egressPort outbound) :
    ∃ received, (accept outbound.frame).2 = .ok received ∧
      received.header = header.withChecksum received.header.checksum ∧ received.payload = body ∧
      received.src = nodeidToIp linkLocalPrefix nodeId ∧ received.src.toNodeId = nodeId ∧
      received.dst = .linkLocalMulticast := by
  have hsrc : (nodeidToIp linkLocalPrefix nodeId).clearPorts = nodeidToIp linkLocalPrefix nodeId := by
    rw [BmIpAddr.clearPorts, BmIpAddr.ports_nodeidToIp, BmIpAddr.write_legacy_nodeidToIp]
    exact BmIpAddr.write_ports_nodeidToIp nodeId
  refine ⟨_, h.carries.accept_eq.trans (if_pos ?_), rfl, rfl, hsrc, ?_, rfl⟩
  · rw [hsrc]
    rfl
  · rw [hsrc, toNodeId_nodeidToIp]

end

/-! ### Every port -/

/-- Re-flooding an accepted message that fits the transmit buffer: one frame for each other port, in
order, for exactly that port, accepted as the same message from this node. -/
theorem reflood_each_port (frame : Bytes) (received : Received)
    (haccept : (accept frame).2 = .ok received)
    (hfits : bcmpHeaderLen + received.payload.length ≤ mtu - minFrameWithAddresses)
    (nodeId : UInt64) (portCount ingressPort : UInt8) (hports : portCount ≤ 15) (tx : Bytes)
    (htx : tx.length = mtu) :
    (forwardEgressPorts portCount ingressPort).Pairwise (· < ·) ∧
      (∀ port, port ∈ forwardEgressPorts portCount ingressPort ↔
        (1 ≤ port ∧ port ≤ portCount) ∧ port ≠ ingressPort) ∧
      List.Forall₂ (fun port outbound =>
          outbound.mask = portMask port ∧
          readAddr outbound.frame ipv6DestinationAddressOffset = .linkLocalMulticast ∧
          ∃ forwarded, (accept outbound.frame).2 = .ok forwarded ∧
            forwarded.header = received.header.withChecksum forwarded.header.checksum ∧
            forwarded.payload = received.payload ∧
            forwarded.src = nodeidToIp linkLocalPrefix nodeId ∧ forwarded.src.toNodeId = nodeId)
        (forwardEgressPorts portCount ingressPort)
        (forwardedFrames nodeId portCount
          ((accept frame).1.slice bcmpHeaderOffset (bcmpHeaderLen + received.payload.length))
          (forwardEgressPorts portCount ingressPort) tx) := by
  obtain ⟨hlen, hbcmp⟩ := bcmp_of_accept haccept
  refine ⟨forwardEgressPorts_sorted .., fun port => mem_forwardEgressPorts, ?_⟩
  rw [hbcmp]
  have hfit : minFrameWithAddresses + (bcmpHeaderLen + received.payload.length) ≤ tx.length := by
    simp at hfits htx ⊢
    omega
  have hall := forwardedFrames_spec nodeId received.header (forwardEgressPorts portCount ingressPort)
    (fun port hport => (mem_forwardEgressPorts.mp hport).1) hfit hlen hports
  refine hall.imp ?_
  · intro port outbound hto
    obtain ⟨forwarded, hforwarded, hheader, hpayload, hsrc, hid, -⟩ := hto.accept
    exact ⟨hto.mask, hto.carries.readAddr_destination, forwarded, hforwarded, hheader, hpayload, hsrc,
      hid⟩

/-- A valid message of three bytes from node 5. -/
def shortFrame : Bytes :=
  headerBytes (nodeidToIp linkLocalPrefix 5) .linkLocalMulticast ipProtoBcmp hopLimit 16 ++
    ((builtHeader 5 .linkLocalMulticast ⟨0x10⟩ 9 [1, 2, 3]).toBytes ++ [1, 2, 3])

theorem reflood_each_port_shortFrame :
    ∃ received, (accept shortFrame).2 = .ok received ∧
      (forwardedFrames 7 3 ((accept shortFrame).1.slice bcmpHeaderOffset
        (bcmpHeaderLen + received.payload.length)) [1, 3] (List.replicate mtu 0)).length = 2 := by
  have hcarries := carries_frame (nodeidToIp linkLocalPrefix 5) .linkLocalMulticast hopLimit
    (builtHeader 5 .linkLocalMulticast ⟨0x10⟩ 9 [1, 2, 3])
    (show bcmpHeaderLen + List.length [1, 2, 3] < 65536 by decide)
  have hsrc : (nodeidToIp linkLocalPrefix 5).clearPorts = nodeidToIp linkLocalPrefix 5 := by decide
  have haccept : (accept shortFrame).2 = _ := hcarries.accept_eq.trans (if_pos (by rw [hsrc]; rfl))
  refine ⟨_, haccept, ?_⟩
  exact (reflood_each_port shortFrame _ haccept (by decide) 7 3 2 (by decide) (List.replicate mtu 0)
    List.length_replicate).2.2.length_eq.symm

/-- A message too long for the buffer is skipped on every port. -/
theorem forwardedFrames_oversized {bcmp : Bytes} {nodeId : UInt64} {portCount : UInt8} {tx : Bytes}
    (h : tx.length < minFrameWithAddresses + bcmp.length) (ports : List UInt8) :
    forwardedFrames nodeId portCount bcmp ports tx = [] := by
  induction ports with
  | nil => rfl
  | cons port ports ih =>
    rw [forwardedFrames, forwardLinkLocal]
    simp only [if_pos h, ih]
    rfl

def oversizedBody : Bytes := List.replicate 1448 0

def oversizedHeader : BcmpHeader := builtHeader 1 .linkLocalMulticast ⟨0x10⟩ 0 oversizedBody

/-- One byte more than the transmit buffer holds, and valid. -/
def oversizedFrame : Bytes :=
  headerBytes (nodeidToIp linkLocalPrefix 1) .linkLocalMulticast ipProtoBcmp hopLimit
    (UInt16.ofNat (bcmpHeaderLen + oversizedBody.length)) ++ (oversizedHeader.toBytes ++ oversizedBody)

theorem oversizedFrame_accepted_not_forwarded :
    ∃ received, (accept oversizedFrame).2 = .ok received ∧
      ∀ tx : Bytes, tx.length = mtu → forwardEgressPorts 2 1 = [2] ∧
        forwardedFrames 7 2 ((accept oversizedFrame).1.slice bcmpHeaderOffset
          (bcmpHeaderLen + received.payload.length)) (forwardEgressPorts 2 1) tx = [] := by
  have hbody : oversizedBody.length = 1448 := List.length_replicate
  have hlen : bcmpHeaderLen + oversizedBody.length < 65536 := by
    rw [hbody]
    decide
  have hcarries := carries_frame (nodeidToIp linkLocalPrefix 1) .linkLocalMulticast hopLimit
    oversizedHeader hlen
  have hsrc : (nodeidToIp linkLocalPrefix 1).clearPorts = nodeidToIp linkLocalPrefix 1 := by decide
  have haccept : (accept oversizedFrame).2 = _ := hcarries.accept_eq.trans (if_pos (by rw [hsrc]; rfl))
  refine ⟨_, haccept, ?_⟩
  intro tx htx
  refine ⟨by decide, forwardedFrames_oversized ?_ _⟩
  rw [(bcmp_of_accept haccept).2, List.length_append, BcmpHeader.length_toBytes, hbody, htx]
  decide

end Bristlemouth
