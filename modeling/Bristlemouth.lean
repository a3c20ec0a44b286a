import Bristlemouth.Bcmp.Bodies
import Bristlemouth.Bcmp.Codecs
import Bristlemouth.Bcmp.ConfigBodies
import Bristlemouth.Bcmp.EgressStamp
import Bristlemouth.Bcmp.Forward
import Bristlemouth.Bcmp.InfoBodies
import Bristlemouth.Bcmp.NeighborBodies
import Bristlemouth.Bcmp.Packet
import Bristlemouth.Bcmp.Registry
import Bristlemouth.Bcmp.RequestLife
import Bristlemouth.Bcmp.Resource
import Bristlemouth.Bcmp.ResourceTable
import Bristlemouth.Bcmp.RoundTrip
import Bristlemouth.Config.Calls
import Bristlemouth.Config.CborMap
import Bristlemouth.Config.Cells
import Bristlemouth.Config.Confined
import Bristlemouth.Config.Getters
import Bristlemouth.Config.Head
import Bristlemouth.Config.KeyValue
import Bristlemouth.Config.Layout
import Bristlemouth.Config.MapValues
import Bristlemouth.Config.Partition
import Bristlemouth.Config.Runs
import Bristlemouth.Config.SaveLoad
import Bristlemouth.Config.Setters
import Bristlemouth.Config.Status
import Bristlemouth.Config.Values
import Bristlemouth.Devkit.W25
import Bristlemouth.Devkit.W25Write
import Bristlemouth.Dfu.Acts
import Bristlemouth.Dfu.Client
import Bristlemouth.Dfu.Codec
import Bristlemouth.Dfu.Core
import Bristlemouth.Dfu.EndToEnd
import Bristlemouth.Dfu.Exchange
import Bristlemouth.Dfu.Host
import Bristlemouth.Dfu.ImageIntegrity
import Bristlemouth.Dfu.Machine
import Bristlemouth.Dfu.Message
import Bristlemouth.Dfu.PageBuffer
import Bristlemouth.Dfu.PageRun
import Bristlemouth.Dfu.PeerIsolation
import Bristlemouth.Dfu.PendingChange
import Bristlemouth.Dfu.Quiet
import Bristlemouth.Dfu.Rings
import Bristlemouth.Dfu.RoleActs
import Bristlemouth.Dfu.Serving
import Bristlemouth.Dfu.SlotBounds
import Bristlemouth.Dfu.Step
import Bristlemouth.Dfu.Timers
import Bristlemouth.Dfu.Traced
import Bristlemouth.Dfu.Transfer
import Bristlemouth.Dfu.Watchdog
import Bristlemouth.Image.Build
import Bristlemouth.Image.Elf
import Bristlemouth.Image.Flat
import Bristlemouth.Lib.Bytes
import Bristlemouth.Lib.CString
import Bristlemouth.Lib.Calendar
import Bristlemouth.Lib.Cbor
import Bristlemouth.Lib.CborItem
import Bristlemouth.Lib.Checked
import Bristlemouth.Lib.Clock
import Bristlemouth.Lib.Ends
import Bristlemouth.Lib.Fields
import Bristlemouth.Lib.FixedArray
import Bristlemouth.Lib.Glob
import Bristlemouth.Lib.KeyedList
import Bristlemouth.Lib.Ledger
import Bristlemouth.Lib.NorMemory
import Bristlemouth.Lib.OnesComplement
import Bristlemouth.Lib.RawRing
import Bristlemouth.Lib.RingQueue
import Bristlemouth.Lib.ShiftRegister
import Bristlemouth.Lib.Sink
import Bristlemouth.Mcuboot.Accepted
import Bristlemouth.Mcuboot.CrashSafe
import Bristlemouth.Mcuboot.Device
import Bristlemouth.Mcuboot.Encode
import Bristlemouth.Mcuboot.Entries
import Bristlemouth.Mcuboot.Memory
import Bristlemouth.Mcuboot.Pending
import Bristlemouth.Mcuboot.Tlv
import Bristlemouth.Mcuboot.Trailer
import Bristlemouth.Mcuboot.Untrusted
import Bristlemouth.Neighbor.Table
import Bristlemouth.Parser.Accepts
import Bristlemouth.Parser.Containers
import Bristlemouth.Parser.Cursor
import Bristlemouth.Parser.Grammar
import Bristlemouth.Parser.Head
import Bristlemouth.Parser.Steps
import Bristlemouth.Parser.Strings
import Bristlemouth.Parser.Total
import Bristlemouth.Parser.TwoReaders
import Bristlemouth.Parser.Value
import Bristlemouth.Pubsub.Publication
import Bristlemouth.Pubsub.SubscriptionRuns
import Bristlemouth.Pubsub.Subscriptions
import Bristlemouth.Service.Callbacks
import Bristlemouth.Service.ConfigMap
import Bristlemouth.Service.ConfigMapHandler
import Bristlemouth.Service.MapWriter
import Bristlemouth.Service.Metrics
import Bristlemouth.Service.Request
import Bristlemouth.Service.SysInfo
import Bristlemouth.Service.Table
import Bristlemouth.Service.Untrusted
import Bristlemouth.Stack.DeviceInfo
import Bristlemouth.Stack.DfuOrder
import Bristlemouth.Stack.Held
import Bristlemouth.Stack.InStep
import Bristlemouth.Stack.ModuleRun
import Bristlemouth.Stack.Node
import Bristlemouth.Stack.NodeDfu
import Bristlemouth.Stack.NodeRun
import Bristlemouth.Stack.Reflood
import Bristlemouth.Stack.Relay
import Bristlemouth.Stack.Rtc
import Bristlemouth.Stack.ServiceCalls
import Bristlemouth.Stack.ServiceLedger
import Bristlemouth.Stack.Transmit
import Bristlemouth.Wire.Checksum
import Bristlemouth.Wire.Crc
import Bristlemouth.Wire.CrcDivision
import Bristlemouth.Wire.DateTime
import Bristlemouth.Wire.Frame
import Bristlemouth.Wire.L2
import Bristlemouth.Wire.Le
import Bristlemouth.Wire.PseudoHeader
import Bristlemouth.Wire.Record
import Bristlemouth.Wire.Udp
import Bristlemouth.Wire.UdpBuild
import Bristlemouth.Wire.Util
import Bristlemouth.Wire.Wildcard
