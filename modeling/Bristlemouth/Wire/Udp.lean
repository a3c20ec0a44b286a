import Bristlemouth.Wire.Frame

/-!
# UDP datagrams

`accept` of `udp.rs`: the datagram in a received frame.
-/

set_option autoImplicit false

namespace Bristlemouth

@[simp] def udpSourcePortOffset : Nat := ipv6DestinationAddressOffset + ipv6AddressSize
@[simp] def udpDestinationPortOffset : Nat := udpSourcePortOffset + 2
@[simp] def udpHeaderLen : Nat := 8

structure Datagram where
  srcPort : UInt16
  dstPort : UInt16
  source : UInt64
  payload : Bytes
deriving DecidableEq

namespace Datagram

def payloadOffset : Nat := udpSourcePortOffset + udpHeaderLen

/-- Neither the UDP length field nor the checksum is read. -/
def accept (frame : Bytes) : Except BmWireError Datagram :=
  if frame.length < minFrameWithAddresses then .error .truncated
  else if ethernetType frame ≠ some ethernetTypeIpv6 then .error .invalid
  else
    let ipv6PayloadLen := (u16FromBe (frame.slice ipv6PayloadLengthOffset 2)).toNat
    let stop := minFrameWithAddresses + ipv6PayloadLen
    if frame.length < stop then .error .truncated
    else
      let frame : Bytes := frame.take stop
      if frame.byteAt ipv6NextHeaderOffset ≠ ipProtoUdp then .error .invalid
      else if ipv6PayloadLen < udpHeaderLen then .error .truncated
      else
        .ok {
          srcPort := u16FromBe (frame.slice udpSourcePortOffset 2)
          dstPort := u16FromBe (frame.slice udpDestinationPortOffset 2)
          source := (readAddr frame ipv6SourceAddressOffset).toNodeId
          payload := frame.drop payloadOffset }

end Datagram

end Bristlemouth
