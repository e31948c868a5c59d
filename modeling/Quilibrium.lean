import Quilibrium.Token.Rejection
import Quilibrium.Provers.SeniorityRun
import Quilibrium.Shards.GridRun
import Quilibrium.Token.BlockDrain
import Quilibrium.Token.Census
import Quilibrium.Token.ReportOrder
import Quilibrium.Token.RootsRun
import Quilibrium.Token.Entitlements
import Quilibrium.Token.Sharding
import Quilibrium.Forest.ShardRoots
import Quilibrium.Shards.FilterNames
import Quilibrium.Token.DeliveryEncoding
import Quilibrium.Token.ReportEncoding
import Quilibrium.Token.RootHistory
import Quilibrium.Token.SpendEncoding
import Quilibrium.Token.Pricing
import Quilibrium.Token.RelayWatch
import Quilibrium.Handoff.Ranges
import Quilibrium.Provers.LeafRegistrations
import Quilibrium.Provers.SeatEncoding
import Quilibrium.Provers.ExpirySweeps
import Quilibrium.Provers.Reassignment
import Quilibrium.Provers.Absences
import Quilibrium.Consensus.Difficulty
import Quilibrium.Consensus.ForkChoice
import Quilibrium.Consensus.ShardTips
import Quilibrium.Mixnet.Sketch
