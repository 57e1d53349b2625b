import Teleproxy.ReloadUniqueness
import Teleproxy.AcceptGate
import Teleproxy.Pairing
import Teleproxy.WorkerLimits
import Teleproxy.ReplayProtection
import Teleproxy.WebSocketInput
import Teleproxy.PaddedOutput
import Teleproxy.PeekInput
import Teleproxy.PacketParser
import Teleproxy.ExtRouting
import Teleproxy.QueryForwarding
import Teleproxy.ProtocolProbe
import Teleproxy.DirectRetry
import Teleproxy.RateLimit
import Teleproxy.TlsRecords
import Teleproxy.JobTimer
import Teleproxy.RecordDelay
import Teleproxy.ThrottledReading
import Teleproxy.JobFinish
import Teleproxy.ForwardedStream
import Teleproxy.ProxyDomains
import Teleproxy.Camouflage
import Teleproxy.TunnelTarget
import Teleproxy.FrameLength
import Teleproxy.TunnelCodec
import Teleproxy.Obfs2Header
import Teleproxy.RpcWriter
import Teleproxy.ClientFraming
import Teleproxy.RpcRoundTrip
import Teleproxy.HttpSegments
import Teleproxy.AddressAccounting
import Teleproxy.TopIps
import Teleproxy.WebSocketHeader
import Teleproxy.TlQueryHeader
import Teleproxy.TunnelChunks
import Teleproxy.HttpOffsets
import Teleproxy.HttpPipelining
import Teleproxy.SpecialConnections
import Teleproxy.TunnelAnswer
import Teleproxy.FirstBlock
import Teleproxy.VvTree
import Teleproxy.DcTable
import Teleproxy.SlotTranslation
import Teleproxy.ProxyHeaderStream
import Teleproxy.TlsParse
import Teleproxy.MimickedHello
import Teleproxy.ProbeRequest
import Teleproxy.SecretConfig
import Teleproxy.DcStream
import Teleproxy.TlStreams
import Teleproxy.TimerHeap
import Teleproxy.IpAclFiles
import Teleproxy.DomainLookup
import Teleproxy.BufferChunk
import Teleproxy.BufferIndex
import Teleproxy.HostsTable
import Teleproxy.MtprotoConfig
import Teleproxy.MessageChecksum
import Teleproxy.Ja4Invariance
import Teleproxy.PeekMemory
import Teleproxy.RpcAgreement
import Teleproxy.MpqCredit
