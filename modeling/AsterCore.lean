import AsterCore.TrafficParse
import AsterCore.TrafficWindow
import AsterCore.TrafficReportExact
import AsterCore.TrafficRestart
import AsterCore.TrafficDirty
import AsterCore.TrafficActive
import AsterCore.TrafficRecorded
import AsterCore.TrafficReload
import AsterCore.TrafficVisible
import AsterCore.TrafficRoundTrip
import AsterCore.TrafficLifecycle
import AsterCore.AsterRuns
import AsterCore.RoutingChanges
import AsterCore.StatisticConnections
import AsterCore.StatisticPrincipal
import AsterCore.DomainSetSafe
import AsterCore.CidrSetBin
import AsterCore.FakeipMemory
import AsterCore.FakeipCachefile
import AsterCore.ArcCache
import AsterCore.DnsCache
import AsterCore.KernelClassifier
import AsterCore.SubRules
import AsterCore.PacketSender
import AsterCore.TlsSniffer
import AsterCore.TuicCodec
import AsterCore.UploadQueue
import AsterCore.Runs
import AsterCore.SudokuReplay
import AsterCore.TrafficEvents
import AsterCore.TrafficConnections
import AsterCore.TrafficPortal
import AsterCore.OverrideStrings
import AsterCore.QuicSniffer
import AsterCore.Wildcard
import AsterCore.IntRanges
import AsterCore.OutboundGroups
import AsterCore.DomainVisible
