import Bristlemouth.Bcmp.RoundTrip
import Bristlemouth.Stack.Transmit

/-!
# Relaying a received frame

`l2_policy.rs`, which decides where a frame goes, and the snapshot of `held.rs`,
which lets it go there as it arrived.
-/

set_option autoImplicit false

namespace Bristlemouth

structure RxResult where
  shouldSubmit : Bool
  egressMask : UInt16
  ingressPortNum : UInt8
deriving DecidableEq

/-- What a routing callback makes of a link-local frame that is not for `FF02::1`: whether it goes
up the stack, where it goes, and the source address it leaves in the frame. -/
abbrev LinkLocalRouting := UInt8 → UInt16 → BmIpAddr → BmIpAddr → Bool × UInt16 × BmIpAddr

/-- `u16::trailing_zeros`. -/
def trailingZeros (x : UInt16) : Nat := ((List.range 16).find? x.toNat.testBit).getD 16

/-- The frame with the ingress port stamped into it, and the decision. -/
def rxApply (frame : Bytes) (ingressPortMask allPortsMask : UInt16)
    (routing : Option LinkLocalRouting) : Bytes × RxResult :=
  if frame.length < minFrameWithAddresses then (frame, ⟨true, 0, 0⟩)
  else if ethernetType frame ≠ some ethernetTypeIpv6 then (frame, ⟨true, 0, 0⟩)
  else if ingressPortMask = 0 then (frame, ⟨true, 0, 0⟩)
  else
    let ingressPortNum := UInt8.ofNat (trailingZeros ingressPortMask + 1)
    let frame := stampIngressPort frame ingressPortNum
    let dst := readAddr frame ipv6DestinationAddressOffset
    if dst.isGlobalMulticast then (frame, ⟨true, allPortsMask &&& ~~~ingressPortMask, ingressPortNum⟩)
    else
      match routing with
      | none => (frame, ⟨true, 0, ingressPortNum⟩)
      | some route =>
        if dst.isLinkLocalNeighborMulticast then (frame, ⟨true, 0, ingressPortNum⟩)
        else
          let (shouldSubmit, egressMask, src) :=
            route ingressPortNum 0 (readAddr frame ipv6SourceAddressOffset) dst
          (frame.copyAt ipv6SourceAddressOffset src.octets, ⟨shouldSubmit, egressMask, ingressPortNum⟩)

/-- Both nibbles of the ports byte are cleared. -/
def prepareForwardedCopy (frame : Bytes) : Bytes :=
  if frame.length < minFrameWithAddresses then frame
  else frame.copyAt ipv6IngressEgressPortsOffset [0]

/-- The bytes `accept` rewrites. -/
structure Snapshot where
  ports : UInt8
  legacy : UInt8 × UInt8
  checksum : UInt8 × UInt8
deriving DecidableEq

namespace Snapshot

def take (frame : Bytes) : Option Snapshot := do
  let ports ← frame[ipv6IngressEgressPortsOffset]?
  let legacy₀ ← frame[legacyPortClearOffset]?
  let legacy₁ ← frame[legacyPortClearOffset + 1]?
  let checksum₀ ← frame[bcmpChecksumOffset]?
  let checksum₁ ← frame[bcmpChecksumOffset + 1]?
  return { ports, legacy := (legacy₀, legacy₁), checksum := (checksum₀, checksum₁) }

def restore (s : Snapshot) (frame : Bytes) : Bytes :=
  let frame := frame.copyAt ipv6IngressEgressPortsOffset [s.ports]
  let frame := frame.copyAt legacyPortClearOffset [s.legacy.1]
  let frame := frame.copyAt (legacyPortClearOffset + 1) [s.legacy.2]
  let frame := frame.copyAt bcmpChecksumOffset [s.checksum.1]
  frame.copyAt (bcmpChecksumOffset + 1) [s.checksum.2]

/-- A frame has a snapshot exactly when it is long enough to hold a BCMP checksum. -/
theorem take_eq (frame : Bytes) :
    take frame = if bcmpChecksumOffset + 1 < frame.length then
      some { ports := frame.byteAt ipv6IngressEgressPortsOffset
             legacy := (frame.byteAt legacyPortClearOffset, frame.byteAt (legacyPortClearOffset + 1))
             checksum := (frame.byteAt bcmpChecksumOffset, frame.byteAt (bcmpChecksumOffset + 1)) }
    else none := by
  split
  · rename_i hlen
    simp at hlen
    rw [take, Bytes.getElem?_eq_byteAt (by simp; omega), Bytes.getElem?_eq_byteAt (by simp; omega),
      Bytes.getElem?_eq_byteAt (by simp; omega), Bytes.getElem?_eq_byteAt (by simp; omega),
      Bytes.getElem?_eq_byteAt (by simp; omega)]
    rfl
  · rename_i hlen
    have hlast : frame[bcmpChecksumOffset + 1]? = none := List.getElem?_eq_none (by omega)
    rw [take, hlast]
    cases frame[ipv6IngressEgressPortsOffset]? <;> cases frame[legacyPortClearOffset]? <;>
      cases frame[legacyPortClearOffset + 1]? <;> cases frame[bcmpChecksumOffset]? <;> rfl

/-- The offsets of the bytes in a snapshot. -/
def offsets : List Nat :=
  [ipv6IngressEgressPortsOffset, legacyPortClearOffset, legacyPortClearOffset + 1, bcmpChecksumOffset,
    bcmpChecksumOffset + 1]

theorem restore_take {frame out : Bytes} {s : Snapshot} (htake : take frame = some s)
    (h : Bytes.AgreesOff offsets out frame) : s.restore out = frame := by
  rw [take_eq] at htake
  split at htake
  · rename_i hlen
    cases htake
    simp at hlen
    exact ((((h.repair (by simp; omega)).repair (by simp; omega)).repair (by simp; omega)).repair
      (by simp; omega)).repair (by simp; omega) |>.eq
  · cases htake

end Snapshot

/-! ### What `accept` does to the frame -/

theorem processReceivedMessage_agrees {frame : Bytes} {payloadLen : Nat}
    (hlen : minFrameWithAddresses + bcmpHeaderLen ≤ frame.length) :
    Bytes.AgreesOff Snapshot.offsets (processReceivedMessage frame payloadLen).1 frame := by
  simp at hlen
  unfold processReceivedMessage
  extract_lets ingressPort legacy ports checksumRead cleared src dst checksumCalc restored bcmp
  have hlegacy : Bytes.AgreesOff Snapshot.offsets legacy frame := by
    refine (Bytes.AgreesOff.refl _ frame).write (by simp; omega) ?_
    intro i hlow hhigh
    simp at hlow hhigh
    simp [Snapshot.offsets]
    omega
  have hports : Bytes.AgreesOff Snapshot.offsets ports frame := by
    refine hlegacy.write (by rw [hlegacy.length]; simp; omega) ?_
    intro i hlow hhigh
    simp at hlow hhigh
    simp [Snapshot.offsets]
    omega
  have hcleared : Bytes.AgreesOff Snapshot.offsets cleared frame := by
    refine hports.write (by rw [hports.length]; simp; omega) ?_
    intro i hlow hhigh
    simp at hlow hhigh
    simp [Snapshot.offsets]
    omega
  have hrestored : Bytes.AgreesOff Snapshot.offsets restored frame := by
    refine hcleared.write (by rw [hcleared.length]; simp; omega) ?_
    intro i hlow hhigh
    simp at hlow hhigh
    simp [Snapshot.offsets]
    omega
  split
  · exact hcleared
  · split <;> exact hrestored

/-- `accept` rewrites nothing outside a snapshot, and nothing at all in a frame without one. -/
theorem accept_agrees (frame : Bytes) :
    Bytes.AgreesOff Snapshot.offsets (accept frame).1 frame ∧
      (frame.length < minFrameWithAddresses + bcmpHeaderLen → (accept frame).1 = frame) := by
  unfold accept
  have hsame := Bytes.AgreesOff.refl Snapshot.offsets frame
  split
  · exact ⟨hsame, fun _ => rfl⟩
  · split
    · exact ⟨hsame, fun _ => rfl⟩
    · dsimp only
      split
      · exact ⟨hsame, fun _ => rfl⟩
      · split
        · exact ⟨hsame, fun _ => rfl⟩
        · split
          · exact ⟨hsame, fun _ => rfl⟩
          · exact ⟨processReceivedMessage_agrees (by omega), fun _ => by omega⟩

/-- Taking a snapshot, accepting with any outcome and restoring is the identity. -/
theorem restore_accept {frame : Bytes} {s : Snapshot} (h : Snapshot.take frame = some s) :
    s.restore (accept frame).1 = frame := Snapshot.restore_take h (accept_agrees frame).1

theorem accept_unchanged {frame : Bytes} (h : Snapshot.take frame = none) :
    (accept frame).1 = frame := by
  apply (accept_agrees frame).2
  rw [Snapshot.take_eq] at h
  split at h
  · cases h
  · rename_i hlen
    simp at hlen ⊢
    omega

/-! ### What `rx_apply` does to the frame -/

/-- A frame that is to be relayed differs from the received one in its ports byte alone, and is
relayed everywhere but where it came from. -/
theorem rxApply_relayed {frame : Bytes} {ingressPortMask allPortsMask : UInt16}
    (h : (rxApply frame ingressPortMask allPortsMask none).2.egressMask ≠ 0) :
    minFrameWithAddresses ≤ frame.length ∧
      (∃ ports, (rxApply frame ingressPortMask allPortsMask none).1 =
        frame.copyAt ipv6IngressEgressPortsOffset [ports]) ∧
      (rxApply frame ingressPortMask allPortsMask none).2.egressMask =
        allPortsMask &&& ~~~ingressPortMask := by
  unfold rxApply at h ⊢
  split at h
  · exact absurd rfl h
  · rename_i hshort
    split at h
    · exact absurd rfl h
    · rename_i htype
      split at h
      · exact absurd rfl h
      · rename_i hmask
        rw [if_neg hshort, if_neg htype, if_neg hmask]
        dsimp only at h ⊢
        split at h
        · rename_i hglobal
          rw [if_pos hglobal]
          exact ⟨by omega, ⟨_, rfl⟩, rfl⟩
        · exact absurd rfl h

theorem and_not_and_self (a b : UInt16) : (a &&& ~~~b) &&& b = 0 := by
  apply UInt16.eq_of_toBitVec_eq
  ext i hi
  simp

end Bristlemouth
