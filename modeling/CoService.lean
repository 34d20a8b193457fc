import CoService.Infra.Bytes
import CoService.Infra.Run
import CoService.Infra.Resync
import CoService.Infra.ResyncWork
import CoService.Infra.Transition
import CoService.Infra.Component
import CoService.Infra.WakeupQueue
import CoService.Infra.Decimal
import CoService.Infra.Gf2
import CoService.Infra.ErrorPattern
import CoService.Crc16
import CoService.Crc16.Remainder
import CoService.Crc16.Arc
import CoService.Easn.Package
import CoService.Easn.HandlePacket
import CoService.Easn.ClientManager
import CoService.Easn.Session
import CoService.Easn.TaskPool
import CoService.Easn.Server
import CoService.Easn.DispatchChannel
import CoService.Easn.DispatchQueue
import CoService.Easn.Roundtrip.Message
import CoService.Easn.Roundtrip.Decode
import CoService.Easn.Roundtrip.Stream
import CoService.Easn.Roundtrip.Segmentation
import CoService.Easn.Roundtrip.Ack
import CoService.Easn.Properties.AtMostOnce
import CoService.Easn.Properties.Repeats
import CoService.Easn.Properties.Nesting
import CoService.Easn.Properties.StaleBytes
import CoService.Easn.Properties.Reach
import CoService.Easn.Properties.Bounds
import CoService.Easn.Properties.PayloadSize
import CoService.Easn.KafkaDispatcher
import CoService.Easn.Process
import CoService.Easn.Properties.AckFlow
import CoService.Easn.Properties.ErrorDetection
import CoService.Easn.Properties.BurstDetection
import CoService.Easn.Properties.Auth
import CoService.Easn.Properties.Dispatched
import CoService.Easn.Properties.KnownTypes
import CoService.Easn.Properties.Deadline
import CoService.Easn.Properties.Sessions
import CoService.Easn.Properties.Pool
import CoService.Easn.Properties.SessionTable
import CoService.Easn.Properties.ErrorEvents
import CoService.Easn.Spec.ReferenceScan
import CoService.Easn.Spec.ServedSession
import CoService.Easn.Spec.Isolation
import CoService.Easn.Properties.Connections
import CoService.Easn.Properties.Resources
import CoService.Easn.Properties.Produced
import CoService.Easn.Properties.Replies
import CoService.Easn.Spec.Composition
import CoService.Easn.Properties.WholeProcess
