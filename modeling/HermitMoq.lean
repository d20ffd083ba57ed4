import HermitMoq.Aborts
import HermitMoq.AnnounceCount
import HermitMoq.AsymAuth
import HermitMoq.Authorization
import HermitMoq.BroadcastTracks
import HermitMoq.ClusterRouting
import HermitMoq.ControlRouting
import HermitMoq.FrameFanout
import HermitMoq.Grants
import HermitMoq.GroupDelivery
import HermitMoq.GroupRouting
import HermitMoq.HevcStrings
import HermitMoq.HlsImport
import HermitMoq.HttpWakeups
import HermitMoq.IetfRoundTrip
import HermitMoq.JsonLateJoin
import HermitMoq.MeshAddressing
import HermitMoq.NamespaceSession
import HermitMoq.NamespaceStream
import HermitMoq.Negotiation
import HermitMoq.PathAlgebra
import HermitMoq.PriorityRanking
import HermitMoq.ReadFrame
import HermitMoq.RequestOutcomes
import HermitMoq.Resync
import HermitMoq.SectionExport
import HermitMoq.StatsViewers
import HermitMoq.Time
import HermitMoq.Timestamps
import HermitMoq.Transmux
import HermitMoq.WaiterBound
