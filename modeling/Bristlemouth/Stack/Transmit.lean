import Bristlemouth.Wire.L2

/-!
# Transmit

`transmit` of `node/run.rs`: one frame on the PHY, stamped with its egress port
when it is link-local multicast. The buffer is shared by all the ports.
-/

set_option autoImplicit false

namespace Bristlemouth

inductive Egress where
  | allPorts
  | port (port : UInt8)
deriving DecidableEq

structure Outbound where
  frame : Bytes
  mask : UInt16
deriving DecidableEq

/-- What a PHY does with a frame it is given, and whether the send succeeded. -/
structure Phy (σ ε : Type) where
  send : σ → Bytes → Egress → σ × Except ε Unit

/-- The PHY afterwards, the buffer the call leaves behind, and its result. -/
structure Transmitted (σ ε : Type) where
  phy : σ
  frame : Bytes
  result : Except ε Unit

/-- The mask holding just `port`, or nothing for a port the device cannot have. -/
def portMask (port : UInt8) : UInt16 :=
  if 1 ≤ port ∧ port - 1 < 16 then (1 : UInt16) <<< (port - 1).toUInt16 else 0

theorem portMask_eq {port : UInt8} (hlow : 1 ≤ port) (hhigh : port ≤ 16) :
    portMask port = (1 : UInt16) <<< (port - 1).toUInt16 := by
  apply if_pos
  refine ⟨hlow, ?_⟩
  rw [UInt8.lt_iff_toNat_lt, UInt8.toNat_sub_of_le _ _ hlow]
  rw [UInt8.le_iff_toNat_le] at hlow hhigh
  change 1 ≤ port.toNat at hlow
  change port.toNat ≤ 16 at hhigh
  change port.toNat - 1 < 16
  omega

def egressPorts (mask : UInt16) (portCount : UInt8) : List UInt8 :=
  (portRange portCount).filter fun port => mask &&& portMask port ≠ 0

section
variable {σ ε : Type} (phy : Phy σ ε)

def sendEach (frame : Bytes) : List UInt8 → σ → Transmitted σ ε
  | [], s => ⟨s, frame, .ok ()⟩
  | port :: ports, s =>
    match phy.send s frame (.port port) with
    | (s, .ok ()) => sendEach frame ports s
    | (s, .error e) => ⟨s, frame, .error e⟩

def sendStamped : List UInt8 → σ → Bytes → Transmitted σ ε
  | [], s, frame => ⟨s, frame, .ok ()⟩
  | port :: ports, s, frame =>
    match addEgressPort frame port with
    | .error _ => ⟨s, frame, .ok ()⟩
    | .ok stamped =>
      match phy.send s stamped (.port port) with
      | (s, .ok ()) => sendStamped ports s (dropStamped stamped port)
      -- The stamp is dropped on the way out of a failed send too.
      | (s, .error e) => ⟨s, dropStamped stamped port, .error e⟩

def transmit (s : σ) (outbound : Outbound) (portCount : UInt8) : Transmitted σ ε :=
  match txKind outbound.frame with
  | .globalMulticast =>
    if outbound.mask = allPortsMask portCount then
      let (s, result) := phy.send s outbound.frame .allPorts
      ⟨s, outbound.frame, result⟩
    else sendEach phy outbound.frame (egressPorts outbound.mask portCount) s
  | .linkLocalMulticast => sendStamped phy (egressPorts outbound.mask portCount) s outbound.frame
  | .dropped => ⟨s, outbound.frame, .ok ()⟩

/-- A PHY together with everything it was handed. -/
def Phy.recorded : Phy (σ × List (Egress × Bytes)) ε where
  send s frame egress :=
    ((( phy.send s.1 frame egress).1, s.2 ++ [(egress, frame)]), (phy.send s.1 frame egress).2)

end

/-! ### Ports -/

theorem egressPorts_sorted (mask : UInt16) (portCount : UInt8) :
    (egressPorts mask portCount).Pairwise (· < ·) := (portRange_sorted portCount).filter _

theorem mem_egressPorts {port portCount : UInt8} {mask : UInt16} :
    port ∈ egressPorts mask portCount ↔
      (1 ≤ port ∧ port ≤ portCount) ∧ mask &&& portMask port ≠ 0 := by
  rw [egressPorts, List.mem_filter, mem_portRange, decide_eq_true_iff]

/-! ### What is sent -/

/-- Copies for some first ports of `ports`, in order and none twice, each what `copy` makes of its
port. A send that fails is the last. -/
inductive SentTo {ε : Type} (copy : UInt8 → Bytes → Prop) :
    List UInt8 → List (Egress × Bytes) → Except ε Unit → Prop where
  | done : SentTo copy [] [] (.ok ())
  | sent {port ports bytes rest result} : copy port bytes → SentTo copy ports rest result →
      SentTo copy (port :: ports) ((.port port, bytes) :: rest) result
  | failed {port ports bytes e} : copy port bytes →
      SentTo copy (port :: ports) [(.port port, bytes)] (.error e)

section
variable {σ ε : Type} {phy : Phy σ ε}

theorem sendEach_spec (phy : Phy σ ε) (frame : Bytes) (ports : List UInt8) (s : σ) (log : List (Egress × Bytes)) :
    (sendEach phy.recorded frame ports (s, log)).frame = frame ∧
      ∃ sent, (sendEach phy.recorded frame ports (s, log)).phy.2 = log ++ sent ∧
        SentTo (fun _ bytes => bytes = frame) ports sent
          (sendEach phy.recorded frame ports (s, log)).result := by
  induction ports generalizing s log with
  | nil => exact ⟨rfl, [], (List.append_nil log).symm, .done⟩
  | cons port ports ih =>
    rw [sendEach, Phy.recorded]
    dsimp only
    cases hsend : phy.send s frame (.port port) with
    | mk s' result =>
      cases result with
      | ok u =>
        obtain ⟨hframe, sent, hlog, hsent⟩ := ih s' (log ++ [(.port port, frame)])
        exact ⟨hframe, (.port port, frame) :: sent, hlog.trans (List.append_assoc ..),
          .sent rfl hsent⟩
      | error e => exact ⟨rfl, [(.port port, frame)], rfl, .failed rfl⟩

/-- The buffer comes back clean after every port, so each copy is the original frame stamped. -/
theorem sendStamped_spec (phy : Phy σ ε) {frame : Bytes} (hports : frame.byteAt ipv6IngressEgressPortsOffset = 0)
    (hlen : minStampableFrame ≤ frame.length) (ports : List UInt8) (s : σ)
    (log : List (Egress × Bytes)) :
    (sendStamped phy.recorded ports (s, log) frame).frame = frame ∧
      ∃ sent, (sendStamped phy.recorded ports (s, log) frame).phy.2 = log ++ sent ∧
        SentTo (fun port bytes => addEgressPort frame port = .ok bytes) ports sent
          (sendStamped phy.recorded ports (s, log) frame).result := by
  induction ports generalizing s log with
  | nil => exact ⟨rfl, [], (List.append_nil log).symm, .done⟩
  | cons port ports ih =>
    have hstamp := patch_add_eq port hlen
    rw [sendStamped, hstamp]
    generalize patchChecksum _ port .add = stamped at hstamp
    have hrestored : dropStamped stamped port = frame := dropStamped_addEgressPort hports hstamp
    dsimp only
    rw [hrestored, Phy.recorded]
    dsimp only
    cases hsend : phy.send s stamped (.port port) with
    | mk s' result =>
      cases result with
      | ok u =>
        obtain ⟨hframe, sent, hlog, hsent⟩ := ih s' (log ++ [(.port port, stamped)])
        exact ⟨hframe, (.port port, stamped) :: sent, hlog.trans (List.append_assoc ..),
          .sent hstamp hsent⟩
      | error e => exact ⟨rfl, [(.port port, stamped)], rfl, .failed hstamp⟩

/-- A frame too short to stamp is given up on at its first port. -/
theorem sendStamped_short {frame : Bytes} (hlen : frame.length < minStampableFrame)
    (ports : List UInt8) (s : σ) : sendStamped phy ports s frame = ⟨s, frame, .ok ()⟩ := by
  cases ports with
  | nil => rfl
  | cons port ports => rw [sendStamped, addEgressPort_short hlen]

theorem byteAt_ports_addEgressPort {frame stamped : Bytes} {port : UInt8}
    (hports : frame.byteAt ipv6IngressEgressPortsOffset = 0)
    (h : addEgressPort frame port = .ok stamped) :
    stamped.byteAt ipv6IngressEgressPortsOffset = port := by
  by_cases hlen : minStampableFrame ≤ frame.length
  · rw [patch_add_eq _ hlen, patchChecksum_copyAt_ports hlen] at h
    cases h
    have hlen' := length_patchChecksum port .add hlen
    simp at hlen
    rw [Bytes.byteAt_copyAt_self (by simp; omega), hports, UInt8.zero_or]
  · rw [addEgressPort_short (by omega)] at h
    cases h

end

/-- A run of `transmit` from an empty record: what the PHY was handed, the buffer left behind and
the result. -/
structure TransmitEffect {ε : Type} (frame : Bytes) (mask : UInt16) (portCount : UInt8)
    (sent : List (Egress × Bytes)) (after : Bytes) (result : Except ε Unit) : Prop where
  restored : after = frame
  inPortOrder : (egressPorts mask portCount).Pairwise (· < ·)
  inMask : ∀ port, port ∈ egressPorts mask portCount ↔
    (1 ≤ port ∧ port ≤ portCount) ∧ mask &&& portMask port ≠ 0
  linkLocal : txKind frame = .linkLocalMulticast → minStampableFrame ≤ frame.length →
    SentTo (fun port bytes => addEgressPort frame port = .ok bytes ∧
      bytes.byteAt ipv6IngressEgressPortsOffset = port) (egressPorts mask portCount) sent result
  short : txKind frame = .linkLocalMulticast → frame.length < minStampableFrame → sent = []
  globalAll : txKind frame = .globalMulticast → mask = allPortsMask portCount →
    sent = [(.allPorts, frame)]
  globalEach : txKind frame = .globalMulticast → mask ≠ allPortsMask portCount →
    SentTo (fun _ bytes => bytes = frame) (egressPorts mask portCount) sent result
  dropped : txKind frame = .dropped → sent = []

theorem SentTo.imp {ε : Type} {copy copy' : UInt8 → Bytes → Prop}
    (himp : ∀ port bytes, copy port bytes → copy' port bytes) {ports : List UInt8}
    {sent : List (Egress × Bytes)} {result : Except ε Unit} (h : SentTo copy ports sent result) :
    SentTo copy' ports sent result := by
  induction h with
  | done => exact .done
  | sent hcopy _ ih => exact .sent (himp _ _ hcopy) ih
  | failed hcopy => exact .failed (himp _ _ hcopy)

section
variable {σ ε : Type}

/-- Stamp, transmit and restore, whatever the PHY does with the copies. -/
theorem transmit_stamps_and_restores (phy : Phy σ ε) (s : σ) (frame : Bytes) (mask : UInt16)
    (portCount : UInt8) (hports : frame.byteAt ipv6IngressEgressPortsOffset = 0) :
    TransmitEffect frame mask portCount
      (transmit phy.recorded (s, []) ⟨frame, mask⟩ portCount).phy.2
      (transmit phy.recorded (s, []) ⟨frame, mask⟩ portCount).frame
      (transmit phy.recorded (s, []) ⟨frame, mask⟩ portCount).result := by
  have hsorted := egressPorts_sorted mask portCount
  have hmem : ∀ port, port ∈ egressPorts mask portCount ↔
      (1 ≤ port ∧ port ≤ portCount) ∧ mask &&& portMask port ≠ 0 := fun _ => mem_egressPorts
  cases hkind : txKind frame with
  | globalMulticast =>
    by_cases hall : mask = allPortsMask portCount
    · have heq : transmit phy.recorded (s, []) ⟨frame, mask⟩ portCount =
          ⟨(phy.recorded.send (s, []) frame .allPorts).1, frame,
            (phy.recorded.send (s, []) frame .allPorts).2⟩ := by
        simp only [transmit, hkind, if_pos hall]
      rw [heq]
      exact {
        restored := rfl
        inPortOrder := hsorted
        inMask := hmem
        linkLocal := by simp [hkind]
        short := by simp [hkind]
        globalAll := fun _ _ => rfl
        globalEach := fun _ h => absurd hall h
        dropped := by simp [hkind] }
    · have heq : transmit phy.recorded (s, []) ⟨frame, mask⟩ portCount =
          sendEach phy.recorded frame (egressPorts mask portCount) (s, []) := by
        simp only [transmit, hkind, if_neg hall]
      obtain ⟨hframe, sent, hlog, hsent⟩ := sendEach_spec phy frame
        (egressPorts mask portCount) s []
      rw [heq, hlog]
      exact {
        restored := hframe
        inPortOrder := hsorted
        inMask := hmem
        linkLocal := by simp [hkind]
        short := by simp [hkind]
        globalAll := fun _ h => absurd h hall
        globalEach := fun _ _ => hsent
        dropped := by simp [hkind] }
  | linkLocalMulticast =>
    have heq : transmit phy.recorded (s, []) ⟨frame, mask⟩ portCount =
        sendStamped phy.recorded (egressPorts mask portCount) (s, []) frame := by
      simp only [transmit, hkind]
    by_cases hlen : minStampableFrame ≤ frame.length
    · obtain ⟨hframe, sent, hlog, hsent⟩ := sendStamped_spec phy hports hlen
        (egressPorts mask portCount) s []
      rw [heq, hlog]
      refine {
        restored := hframe
        inPortOrder := hsorted
        inMask := hmem
        linkLocal := fun _ _ => hsent.imp ?_
        short := fun _ h => absurd hlen (by omega)
        globalAll := by simp [hkind]
        globalEach := by simp [hkind]
        dropped := by simp [hkind] }
      intro port bytes hstamp
      exact ⟨hstamp, byteAt_ports_addEgressPort hports hstamp⟩
    · rw [heq, sendStamped_short (by omega)]
      exact {
        restored := rfl
        inPortOrder := hsorted
        inMask := hmem
        linkLocal := fun _ h => absurd h hlen
        short := fun _ _ => rfl
        globalAll := by simp [hkind]
        globalEach := by simp [hkind]
        dropped := by simp [hkind] }
  | dropped =>
    have heq : transmit phy.recorded (s, []) ⟨frame, mask⟩ portCount = ⟨(s, []), frame, .ok ()⟩ := by
      simp only [transmit, hkind]
    rw [heq]
    exact {
      restored := rfl
      inPortOrder := hsorted
      inMask := hmem
      linkLocal := by simp [hkind]
      short := by simp [hkind]
      globalAll := by simp [hkind]
      globalEach := by simp [hkind]
      dropped := fun _ => rfl }

/-- A UDP datagram to `FF02::1`, its checksum byte about to carry. -/
def carryingDatagram : Bytes :=
  ((Bytes.copyAt (List.replicate 64 0) ethernetTypeOffset [0x86, 0xDD]).copyAt ipv6NextHeaderOffset
    [ipProtoUdp]).copyAt ipv6DestinationAddressOffset BmIpAddr.linkLocalMulticast.octets

/-- The second send of this PHY fails. -/
def failingPhy : Phy Nat Unit where
  send n _ _ := (n + 1, if n = 1 then .error () else .ok ())

theorem transmit_restores_carryingDatagram :
    (transmit failingPhy.recorded (0, []) ⟨carryingDatagram, 0b111⟩ 3).frame = carryingDatagram :=
  (transmit_stamps_and_restores failingPhy 0 carryingDatagram 0b111 3 (by decide)).restored

end

end Bristlemouth
