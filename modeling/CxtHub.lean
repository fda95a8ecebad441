import CxtHub.Backend.GraftReplay
import CxtHub.Web.GraphLossless
import CxtHub.Cli.RemoteIdentity
import CxtHub.Backend.OwnershipAccess
import CxtHub.Cli.PublicationPlan
import CxtHub.Cli.BranchPullAccepted
import CxtHub.Backend.AppendPlan
import CxtHub.Backend.HistoryOrder
import CxtHub.Backend.ContextAncestry
import CxtHub.Backend.MemoryPrompt
import CxtHub.Backend.CatalogVerified
import CxtHub.Backend.GraphRetained
import CxtHub.Backend.ConversationVerify
import CxtHub.Backend.AccumulatorRuns
import CxtHub.Backend.CycleDetectors
import CxtHub.Cli.SnapshotAdoption
import CxtHub.Backend.GraphHold
import CxtHub.Cli.ExtractiveDelta
import CxtHub.Cli.PublicationComponent
import CxtHub.Cli.ReachableHistory
