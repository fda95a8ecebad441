/-
# The repository view and the graph drawn from it

The records of `backend/internal/domain` that the graph projection reads and fills:
`repository_view.go`, `graph_state.go`, `graph_operations.go`, `branch_context.go`,
`graph_integration.go`.  A `Table` is a Go map with string keys, `none` the nil map;
instants are numbers.

History events are those of the client: both sides keep the same
`context_branch.go`, so the projection of branch identities is `projectContextBranches`
of `CxtHub.Cli.History`.
-/

import CxtHub.Backend.Snapshot
import CxtHub.Cli.History
import CxtHub.Lib.Dir

namespace CxtHub
namespace Backend

open Cli (HistoryEvent)

/-- A Go map from strings. -/
abbrev Table (α : Type) := Option (Dir String α)

/-- Reading a map, nil or not. -/
def Table.dir {α : Type} (t : Table α) : Dir String α := t.getD Dir.empty

/-! ### What the projection reads -/

/-- `Unsync`. -/
structure Unsync where
  repoID : ContentHash
  user : String
  branch : String
  target : ContentHash
  author : TeamIdentity := {}
  updatedAt : ℕ := 0
  deriving DecidableEq, Repr

/-- `Pending`, every field of it; the planner of joins reads two (`Pending`). -/
structure PendingPointer where
  repoID : ContentHash
  sessionID : String
  branch : String
  provider : String := ""
  target : ContentHash
  author : TeamIdentity := {}
  updatedAt : ℕ := 0
  activityAt : Option ℕ := none
  dismissed : Bool := false
  deriving DecidableEq, Repr

/-- `ContextMergeEvidence`, the part that the projection reads. -/
structure ContextMergeEvidence where
  eventID : String
  completed : Bool
  deriving DecidableEq, Repr

/-- `ContextSemantics`. -/
structure ContextSemantics where
  version : ℕ := 0
  merges : List ContextMergeEvidence := []
  deriving DecidableEq, Repr

/-- `RepositoryRevision`. -/
structure RepositoryRevision where
  evidence : ℕ := 0
  graph : ℕ := 0
  pending : ℕ := 0
  deriving DecidableEq, Repr

/-- `RepositoryView`, the part that the projection reads. -/
structure RepositoryView where
  semantics : ContextSemantics := {}
  revision : RepositoryRevision := {}
  refs : List Ref := []
  snapshots : List Snapshot := []
  reflog : List RefLogEntry := []
  history : List HistoryEvent := []
  pending : List PendingPointer := []
  unsync : List Unsync := []
  deriving DecidableEq, Repr

/-! ### What it fills -/

/-- `GraphReadGeneration`. -/
structure GraphReadGeneration where
  generation : ContentHash
  sourceEpoch : String
  appliedEpoch : String
  rules : ℤ
  complete : Bool
  current : Bool
  deriving DecidableEq, Repr

/-- `GraphBranchHead`. -/
structure GraphBranchHead where
  branch : String
  eventID : String
  archived : Bool
  deriving DecidableEq, Repr

/-- `GraphBranchMarker.Kind`. -/
inductive MarkerKind
  | archived
  | joined
  deriving DecidableEq, Repr

/-- `GraphBranchMarker`. -/
structure GraphBranchMarker where
  branch : String
  target : ContentHash
  kind : MarkerKind
  uniqueCount : ℤ
  targetAvailable : Bool
  deriving DecidableEq, Repr

/-- `GraphHoldCluster`. -/
structure GraphHoldCluster where
  tips : Slice Unsync
  ids : Slice ContentHash
  deriving DecidableEq, Repr

/-- `GraphPosition`. -/
structure GraphPosition where
  eventID : String
  branch : String
  branchID : String
  snapshot : ContentHash
  archived : Bool
  createdAt : ℕ
  deriving DecidableEq, Repr

/-- `GraphProgressGroup`. -/
structure GraphProgressGroup where
  key : String
  branch : String
  before : ContentHash
  after : ContentHash
  createdAt : ℕ
  snapshotIDs : Slice ContentHash
  collapsibleIDs : Slice ContentHash
  deriving DecidableEq, Repr

/-- `GraphBirth`. -/
structure GraphBirth where
  id : String
  eventID : String
  branch : String
  source : ContentHash
  orphan : Bool
  createdAt : ℕ
  children : Slice ContentHash
  deriving DecidableEq, Repr

/-- `GraphMerge`, without the unexported `identity`, which only `graphOperations`
reads. -/
structure GraphMerge where
  id : String
  eventID : String
  before : ContentHash := ""
  after : ContentHash := ""
  source : ContentHash
  sourceArms : Slice ContentHash := none
  branch : String := ""
  scope : String
  from_ : String := ""
  createdAt : ℕ := 0
  prNumber : ℤ := 0
  historicalOnly : Bool := false
  withdrawn : Bool := false
  representedGrafts : Slice ContentHash := none
  redirectChildren : Slice ContentHash := none
  sourceBirth : String := ""
  lifecycleBirth : String := ""
  deriving DecidableEq, Repr

/-- `GraphOperations`. -/
structure GraphOperations where
  births : Slice GraphBirth := none
  merges : Slice GraphMerge := none
  deriving DecidableEq, Repr

/-- `BranchContextMerge.State`. -/
inductive MergeState
  | included
  | notSelected
  | review
  deriving DecidableEq, Repr

/-- `BranchContextMerge`. -/
structure BranchContextMerge where
  deliveryAcknowledged : Bool := false
  destinationBranchID : String := ""
  eventID : String
  source : ContentHash
  before : ContentHash := ""
  mergeSHA : String := ""
  prNumber : ℤ := 0
  state : MergeState
  reason : String := ""
  order : ℤ := 0
  deriving DecidableEq, Repr

/-- `BranchContext`. -/
structure BranchContext where
  branchID : String
  snapshotID : ContentHash
  codeCommit : String := ""
  reason : String := ""
  merges : Slice BranchContextMerge := none
  roots : Slice ContentHash := none
  snapshotIDs : Slice ContentHash := none
  deriving DecidableEq, Repr

/-- `GraphIntegration`. -/
structure GraphIntegration where
  branch : String
  scope : String
  target : ContentHash
  head : String
  parents : Table (Slice String)
  extraParents : Slice String
  deriving DecidableEq

/-- `GraphState`. -/
structure GraphState where
  readGeneration : Option GraphReadGeneration := none
  integrations : Slice GraphIntegration := none
  branchContexts : Table BranchContext := none
  branchSnapshots : Table (Slice ContentHash) := none
  continuations : Table String := none
  operations : GraphOperations := {}
  version : ℤ := 0
  revision : RepositoryRevision := {}
  positionEvent : String := ""
  primaryBranch : String := ""
  snapshotIDs : Slice ContentHash := none
  graphIDs : Slice ContentHash := none
  committedIDs : Slice ContentHash := none
  historicalIDs : Slice ContentHash := none
  sharedIDs : Slice ContentHash := none
  pushedIDs : Slice ContentHash := none
  unpushedIDs : Slice ContentHash := none
  uncommittedIDs : Slice ContentHash := none
  taggedIDs : Slice ContentHash := none
  archivedOnlyIDs : Slice ContentHash := none
  aheadIDs : Slice ContentHash := none
  aheadTips : Slice ContentHash := none
  markers : Slice GraphBranchMarker := none
  branchHeads : Table GraphBranchHead := none
  refScopes : Table String := none
  snapshotScopes : Table String := none
  scopeLabels : Table String := none
  hold : Slice GraphHoldCluster := none
  orphanSessions : Slice String := none
  holdCounts : Table ℤ := none
  positions : Slice GraphPosition := none
  previous : Slice GraphProgressGroup := none
  deriving DecidableEq

end Backend
end CxtHub
