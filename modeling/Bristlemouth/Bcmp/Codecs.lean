import Bristlemouth.Bcmp.ConfigBodies
import Bristlemouth.Bcmp.InfoBodies
import Bristlemouth.Bcmp.NeighborBodies
import Bristlemouth.Dfu.Codec

/-!
# The body codecs

The kinds of body that are both written from a message and read as one.
-/

set_option autoImplicit false

namespace Bristlemouth

inductive BodyKind where
  | dfu
  | configKeyRequest
  | configValue
  | configSet
  | configPartitionRequest
  | configDeleteResponse
  | configClearResponse
  | deviceInfoRequest
  | deviceInfoReply
  | neighborTableRequest
  | neighborTableReply
  | neighborTableLists

namespace BodyKind

def Message : BodyKind → Type
  | dfu => Dfu.DfuMessage
  | configKeyRequest => ConfigKeyRequest
  | configValue => ConfigValue
  | configSet => ConfigSet
  | configPartitionRequest => ConfigPartitionRequest
  | configDeleteResponse => ConfigDeleteResponse
  | configClearResponse => ConfigClearResponse
  | deviceInfoRequest => DeviceInfoRequest
  | deviceInfoReply => DeviceInfoReply
  | neighborTableRequest => NeighborTableRequest
  | neighborTableReply => NeighborTableReply
  | neighborTableLists => NeighborTableLists

def codec : (kind : BodyKind) → BodyCodec kind.Message
  | dfu => Dfu.DfuMessage.codec
  | configKeyRequest => ConfigKeyRequest.codec
  | configValue => ConfigValue.codec
  | configSet => ConfigSet.codec
  | configPartitionRequest => ConfigPartitionRequest.codec
  | configDeleteResponse => ConfigDeleteResponse.codec
  | configClearResponse => ConfigClearResponse.codec
  | deviceInfoRequest => TargetRequest.codec
  | deviceInfoReply => DeviceInfoReply.codec
  | neighborTableRequest => TargetRequest.codec
  | neighborTableReply => NeighborTableReply.codec
  | neighborTableLists => NeighborTableLists.codec

/-- Every body whose variable parts fit is written whole and read back, whatever follows it, and every
body that is read is written again as it came, but for the two booleans. -/
theorem bodies_round_trip (kind : BodyKind) : kind.codec.RoundTrips := by
  cases kind with
  | dfu => exact Dfu.DfuMessage.roundTrips
  | configKeyRequest => exact ConfigKeyRequest.roundTrips
  | configValue => exact ConfigValue.roundTrips
  | configSet => exact ConfigSet.roundTrips
  | configPartitionRequest => exact ConfigPartitionRequest.roundTrips
  | configDeleteResponse => exact ConfigDeleteResponse.roundTrips
  | configClearResponse => exact ConfigClearResponse.roundTrips
  | deviceInfoRequest => exact TargetRequest.roundTrips
  | deviceInfoReply => exact DeviceInfoReply.roundTrips
  | neighborTableRequest => exact TargetRequest.roundTrips
  | neighborTableReply => exact NeighborTableReply.roundTrips
  | neighborTableLists => exact NeighborTableLists.roundTrips

end BodyKind

end Bristlemouth
