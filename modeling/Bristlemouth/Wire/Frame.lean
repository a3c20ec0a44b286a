import Bristlemouth.Wire.Le

/-!
# Ethernet and IPv6 headers

`frame.rs` with the addresses of `util.rs` and `addr.rs`: the field offsets,
each derived from the one before it, and the headers every frame starts with.
-/

set_option autoImplicit false

namespace Bristlemouth

@[simp] def ipv6AddressSize : Nat := 16

/-- A 128-bit IPv6 address, in wire order. -/
structure BmIpAddr where
  octets : Bytes
  length_octets : octets.length = ipv6AddressSize
deriving DecidableEq

namespace BmIpAddr

theorem ext_octets {a b : BmIpAddr} (h : a.octets = b.octets) : a = b := by
  cases a
  cases b
  cases h
  rfl

def linkLocalMulticast : BmIpAddr :=
  ⟨[0xFF, 0x02, 0, 0, 0, 0, 0, 0, 0, 0, 0, 0, 0, 0, 0, 0x01], rfl⟩

def globalMulticast : BmIpAddr :=
  ⟨[0xFF, 0x03, 0, 0, 0, 0, 0, 0, 0, 0, 0, 0, 0, 0, 0, 0x01], rfl⟩

/-- Only bytes 0, 1 and 15 are examined. -/
def isGlobalMulticast (a : BmIpAddr) : Bool :=
  a.octets.byteAt 0 == 0xFF && a.octets.byteAt 1 == 0x03 && a.octets.byteAt 15 == 0x01

def isLinkLocalMulticast (a : BmIpAddr) : Bool :=
  a.octets.byteAt 0 == 0xFF && a.octets.byteAt 1 == 0x02

def isLinkLocalNeighborMulticast (a : BmIpAddr) : Bool :=
  a.octets.byteAt 0 == 0xFF && a.octets.byteAt 1 == 0x02 && a.octets.byteAt 15 == 0x01

/-- The node id carried in the low half of the address. -/
def toNodeId (a : BmIpAddr) : UInt64 := u64FromBe (a.octets.slice 8 8)

end BmIpAddr

/-! ### Addresses -/

def linkLocalPrefix : UInt32 := 0xFE800000

@[simp] def macLen : Nat := 6

def nodeidToIp (pre : UInt32) (id : UInt64) : BmIpAddr :=
  ⟨u32ToBe pre ++ ([0, 0, 0, 0] ++ u64ToBe id), by simp [ipv6AddressSize]⟩

def macAddress (id : UInt64) : Bytes := [0, 0] ++ (u64ToBe id).drop 4

def multicastMacFromIpv6 (dst : BmIpAddr) : Bytes := [0x33, 0x33] ++ dst.octets.slice 12 4

def isMulticast (addr : BmIpAddr) : Bool := addr.octets.byteAt 0 == 0xFF

@[simp] theorem length_macAddress (id : UInt64) : (macAddress id).length = macLen := by
  simp [macAddress, macLen]

@[simp] theorem length_multicastMacFromIpv6 (dst : BmIpAddr) :
    (multicastMacFromIpv6 dst).length = macLen := by
  have h := dst.length_octets
  simp only [ipv6AddressSize] at h
  simp [multicastMacFromIpv6, macLen, Bytes.length_slice, h]

theorem toNodeId_nodeidToIp (pre : UInt32) (id : UInt64) : (nodeidToIp pre id).toNodeId = id := by
  have hl : (u32ToBe pre).length = 4 := length_u32ToBe pre
  have hr : (u64ToBe id).length = 8 := length_u64ToBe id
  simp [BmIpAddr.toNodeId, nodeidToIp, Bytes.slice, List.drop_append, List.drop_of_length_le, hl,
    List.take_of_length_le, hr]

/-! ### Offsets -/

@[simp] def ethernetDestinationOffset : Nat := 0
@[simp] def ethernetSrcOffset : Nat := ethernetDestinationOffset + 6
@[simp] def ethernetTypeOffset : Nat := ethernetSrcOffset + 6
@[simp] def ethernetTypeSize : Nat := 2
def ethernetTypeIpv6 : UInt16 := 0x86DD
@[simp] def ipv6VersionTrafficClassFlowLabelOffset : Nat := ethernetTypeOffset + ethernetTypeSize
@[simp] def ipv6PayloadLengthOffset : Nat := ipv6VersionTrafficClassFlowLabelOffset + 4
@[simp] def ipv6PayloadLengthSize : Nat := 2
@[simp] def ipv6NextHeaderOffset : Nat := ipv6PayloadLengthOffset + ipv6PayloadLengthSize
@[simp] def ipv6HopLimitOffset : Nat := ipv6NextHeaderOffset + 1
@[simp] def ipv6SourceAddressOffset : Nat := ipv6HopLimitOffset + 1
@[simp] def ipv6DestinationAddressOffset : Nat := ipv6SourceAddressOffset + ipv6AddressSize

/-- The byte of the source address with the ingress port in its upper nibble and the egress port
in its lower one. -/
@[simp] def ipv6IngressEgressPortsOffset : Nat := ipv6SourceAddressOffset + 2

@[simp] def minFrameWithAddresses : Nat := ipv6DestinationAddressOffset + ipv6AddressSize
def ipProtoBcmp : UInt8 := 0xBC
def ipProtoUdp : UInt8 := 17
@[simp] def udpChecksumOffset : Nat := minFrameWithAddresses + 6
def hopLimit : UInt8 := 255

/-! ### The headers -/

/-- The destination MAC that stands for `dst`. -/
def destinationMac (dst : BmIpAddr) : Bytes :=
  if isMulticast dst then multicastMacFromIpv6 dst else List.replicate macLen 0xFF

/-- The writes of `write_headers`, in the source's order. -/
def headerWrites (buf : Bytes) (src dst : BmIpAddr) (nextHeader hopLimit : UInt8)
    (payloadLen : UInt16) : Bytes :=
  let buf := buf.copyAt ethernetDestinationOffset (destinationMac dst)
  let buf := buf.copyAt ethernetSrcOffset (macAddress src.toNodeId)
  let buf := buf.copyAt ethernetTypeOffset (u16ToBe ethernetTypeIpv6)
  let buf := buf.copyAt ipv6VersionTrafficClassFlowLabelOffset [0x60, 0, 0, 0]
  let buf := buf.copyAt ipv6PayloadLengthOffset (u16ToBe payloadLen)
  let buf := buf.copyAt ipv6NextHeaderOffset [nextHeader]
  let buf := buf.copyAt ipv6HopLimitOffset [hopLimit]
  let buf := buf.copyAt ipv6SourceAddressOffset src.octets
  buf.copyAt ipv6DestinationAddressOffset dst.octets

/-- The headers as one string: the writes are adjacent and cover everything before the payload. -/
def headerBytes (src dst : BmIpAddr) (nextHeader hopLimit : UInt8) (payloadLen : UInt16) : Bytes :=
  destinationMac dst ++ macAddress src.toNodeId ++ u16ToBe ethernetTypeIpv6 ++ [0x60, 0, 0, 0]
    ++ u16ToBe payloadLen ++ [nextHeader] ++ [hopLimit] ++ src.octets ++ dst.octets

@[simp] theorem length_destinationMac (dst : BmIpAddr) : (destinationMac dst).length = 6 := by
  unfold destinationMac
  split <;> simp

@[simp] theorem BmIpAddr.octets_length (a : BmIpAddr) : a.octets.length = 16 := a.length_octets

@[simp] theorem length_headerBytes (src dst : BmIpAddr) (nextHeader hopLimit : UInt8)
    (payloadLen : UInt16) : (headerBytes src dst nextHeader hopLimit payloadLen).length = 54 := by
  simp [headerBytes]

section Fields

variable (src dst : BmIpAddr) (nextHeader hopLimit : UInt8) (payloadLen : UInt16) (rest : Bytes)

theorem slice_etherType :
    (headerBytes src dst nextHeader hopLimit payloadLen ++ rest).slice ethernetTypeOffset 2 = u16ToBe ethernetTypeIpv6 := by
  rw [Bytes.slice_append_left (by simp)]
  simp [headerBytes, Bytes.slice_append_right, Bytes.slice_append_self]

theorem slice_payloadLength :
    (headerBytes src dst nextHeader hopLimit payloadLen ++ rest).slice ipv6PayloadLengthOffset 2 =
      u16ToBe payloadLen := by
  rw [Bytes.slice_append_left (by simp)]
  simp [headerBytes, Bytes.slice_append_right, Bytes.slice_append_self]

theorem slice_nextHeader :
    (headerBytes src dst nextHeader hopLimit payloadLen ++ rest).slice ipv6NextHeaderOffset 1 = [nextHeader] := by
  rw [Bytes.slice_append_left (by simp)]
  simp [headerBytes, Bytes.slice_append_right]

theorem slice_source :
    (headerBytes src dst nextHeader hopLimit payloadLen ++ rest).slice ipv6SourceAddressOffset ipv6AddressSize =
      src.octets := by
  rw [Bytes.slice_append_left (by simp)]
  simp [headerBytes, Bytes.slice_append_right, Bytes.slice_append_self]

theorem slice_destination :
    (headerBytes src dst nextHeader hopLimit payloadLen ++ rest).slice ipv6DestinationAddressOffset ipv6AddressSize =
      dst.octets := by
  rw [Bytes.slice_append_left (by simp)]
  simp [headerBytes, Bytes.slice_append_right, Bytes.slice_of_length]

end Fields

theorem headerWrites_eq (buf : Bytes) (src dst : BmIpAddr) (nextHeader hopLimit : UInt8)
    (payloadLen : UInt16) :
    headerWrites buf src dst nextHeader hopLimit payloadLen =
      headerBytes src dst nextHeader hopLimit payloadLen ++ buf.drop minFrameWithAddresses := by
  have h : buf = [] ++ buf := rfl
  dsimp only [headerWrites]
  rw [h, Bytes.copyAt_append_at _ (by simp), Bytes.copyAt_append_at _ (by simp),
    Bytes.copyAt_append_at _ (by simp), Bytes.copyAt_append_at _ (by simp),
    Bytes.copyAt_append_at _ (by simp), Bytes.copyAt_append_at _ (by simp),
    Bytes.copyAt_append_at _ (by simp), Bytes.copyAt_append_at _ (by simp),
    Bytes.copyAt_append_at _ (by simp)]
  simp [headerBytes, List.drop_drop]

def writeHeaders (buf : Bytes) (src dst : BmIpAddr) (nextHeader hopLimit : UInt8)
    (payloadLen : Nat) : Except BmWireError Bytes :=
  if payloadLen > 65535 then .error .invalid
  else if buf.length < minFrameWithAddresses then .error .truncated
  else .ok (headerWrites buf src dst nextHeader hopLimit (UInt16.ofNat payloadLen))

def ethernetType (frame : Bytes) : Option UInt16 :=
  (frame.slice? ethernetTypeOffset ethernetTypeSize).map u16FromBe

/-- `read_addr`: the address at `off`, as `tx.rs` and `rx.rs` both read it. -/
def readAddr (frame : Bytes) (off : Nat) : BmIpAddr :=
  ⟨(List.range ipv6AddressSize).map fun i => frame.byteAt (off + i), by simp⟩

theorem readAddr_octets {frame : Bytes} {off : Nat} (h : off + ipv6AddressSize ≤ frame.length) :
    (readAddr frame off).octets = frame.slice off ipv6AddressSize := by
  apply List.ext_getElem?
  intro i
  rw [Bytes.getElem?_slice, readAddr, List.getElem?_map]
  by_cases hi : i < ipv6AddressSize
  · rw [if_pos hi, List.getElem?_range hi, Bytes.getElem?_eq_byteAt (by omega)]
    rfl
  · rw [if_neg hi, List.getElem?_eq_none (by simpa using hi)]
    rfl

theorem ethernetType_eq {frame : Bytes}
    (h : ethernetTypeOffset + ethernetTypeSize ≤ frame.length) :
    ethernetType frame = some (u16FromBe (frame.slice ethernetTypeOffset ethernetTypeSize)) := by
  rw [ethernetType, Bytes.slice?_of_le h]
  rfl

end Bristlemouth
