/-
# The graph state of a view

`ProjectGraphState` of `backend/internal/domain/graph_state.go` and `graphProgress` of
`graph_progress.go`.  From one view of a repository the projection computes which
snapshots are drawn and the publication tier of each, the markers of archived branches,
the recorded positions and the groups of retained progress.

`graphOperations` is a parameter (`GraphEnv.operations`): it returns no error and nothing
else of the state is computed from its result.
-/

import CxtHub.Backend.GraphIndex
import CxtHub.Lib.Json

namespace CxtHub
namespace Backend

open Cli (HistoryEvent Digest ContextBranchProjection ContextBranch projectContextBranches)

/-- What the projection is given besides the view. -/
structure GraphEnv where
  /-- The hash in `LegacyContextBranchID`. -/
  digest : Digest
  /-- `graphOperations`, which places the births and merges in the drawing.  It returns no error,
  and its result is carried along: the results hold for any function here. -/
  operations : RepositoryView → GraphState → ContextSemantics → GraphOperations

/-- `fmt.Errorf("%w: %v", ErrIntegrity, err)`. -/
def integrityOf (e : Cli.DomainError) : DomainError :=
  { sentinel := .integrity, format := e.format, args := e.args }

/-- `ProjectContextSemantics`, the facts that the projection reads. -/
def projectContextSemantics (history : List HistoryEvent) : ContextSemantics :=
  { version := 1
    merges := ((history.filter fun h =>
      h.kind = .prMerge ∧ h.prCompleted = true ∧ h.pr.isSome = true).map fun h =>
        ({ eventID := h.id, completed := true } : ContextMergeEvidence)).mergeSort
          fun a b => decide (a.eventID ≤ b.eventID) }

/-- The identities that the history bound: `range bindings.ByID`. -/
def boundBranches (bindings : ContextBranchProjection) (history : List HistoryEvent) :
    List ContextBranch :=
  (history.map HistoryEvent.branchID).dedup.filterMap bindings.byID

/-! ### Names and scopes -/

/-- `claims[name]`: the identities that events recorded under a name. -/
def claimsOf (history : List HistoryEvent) (name : String) : List String :=
  ((history.filter fun e => e.branch = name).map HistoryEvent.branchID).dedup

/-- `legacyKey`. -/
def legacyKey (history : List HistoryEvent) (name : String) : String :=
  match claimsOf history name with
  | [id] => id
  | _ => "legacy:" ++ name

/-- `scope`. -/
def scopeOf (bindings : ContextBranchProjection) (history : List HistoryEvent)
    (name identity : String) : String :=
  if identity ≠ "" then identity
  else match bindings.active name with
    | some b => b.id
    | none => legacyKey history name

/-- The branch refs. -/
def branchRefs (refs : List Ref) : List Ref := refs.filter fun r => r.kind = .branch

/-- The names of `branches`, each once. -/
def branchNames (refs : List Ref) : List String := ((branchRefs refs).map Ref.name).dedup

/-- `out.BranchHeads`. -/
def branchHeadsOf (bound : List ContextBranch) : Dir String GraphBranchHead :=
  bound.foldl (fun heads b => heads.set b.id
    { branch := b.name, eventID := b.eventID, archived := b.archived }) Dir.empty

/-- `out.RefScopes`. -/
def refScopesOf (bindings : ContextBranchProjection) (v : RepositoryView) : Dir String String :=
  (branchRefs v.refs).foldl (fun scopes r =>
    scopes.set r.name (scopeOf bindings v.history r.name r.branchID)) Dir.empty

/-- `out.ScopeLabels`: the bound names, then the ref that first claims an unnamed
scope. -/
def scopeLabelsOf (bindings : ContextBranchProjection) (v : RepositoryView) :
    Dir String String :=
  (branchRefs v.refs).foldl (fun labels r =>
    let key := scopeOf bindings v.history r.name r.branchID
    if (labels.get key).getD "" = "" then labels.set key r.name else labels)
    ((boundBranches bindings v.history).foldl (fun labels b => labels.set b.id b.name) Dir.empty)

/-- `out.SnapshotScopes`. -/
def snapshotScopesOf (v : RepositoryView) : Dir String String :=
  v.snapshots.foldl (fun scopes s =>
    let claims := claimsOf v.history s.branch
    if 1 < claims.length then scopes
    else
      let identity := ((rawBranch v.refs s.branch).map Ref.branchID).getD ""
      scopes.set s.branch
        (if claims.length = 0 ∧ identity ≠ "" then identity else legacyKey v.history s.branch))
    Dir.empty

/-- The primary branch: the asked one, `main`, `master` or the first name. -/
def primaryBranchOf (refs : List Ref) (primary : String) : String :=
  let names := branchNames refs
  match (primary :: ["main", "master"]).find? (· ∈ names) with
  | some name => name
  | none => (names.mergeSort fun a b => decide (a ≤ b)).headD ""

/-! ### Roots -/

/-- Whether a ref is a lifecycle tag. -/
def isLifecycleRef (r : Ref) : Bool :=
  match parseBranchLifecycleRef r with
  | .ok (some _) => true
  | _ => false

/-- `sharedRoots`. -/
def sharedRootsOf (refs : List Ref) : List ContentHash :=
  (refs.filter fun r => r.kind = .branch ∨ r.kind = .session ∨ isLifecycleRef r = true).map
    Ref.target

/-- `tagRoots`. -/
def tagRootsOf (refs : List Ref) : List ContentHash :=
  (refs.filter fun r => r.kind = .tag ∧ isLifecycleRef r = false).map Ref.target

/-- `activeRoots`. -/
def activeRootsOf (refs : List Ref) : List ContentHash :=
  (refs.filter fun r => r.kind = .branch ∨ r.kind = .session ∨
    (r.kind = .tag ∧ isLifecycleRef r = false)).map Ref.target

/-- The commit message of an automatic capture. -/
def isHookMessage (snaps : List Snapshot) (id : ContentHash) : Bool :=
  hasPrefix (((byID snaps id).map Snapshot.message).getD "") "hook: "

/-- The branch a snapshot was captured on. -/
def branchOf (snaps : List Snapshot) (id : ContentHash) : String :=
  ((byID snaps id).map Snapshot.branch).getD ""

/-! ### Archived branches -/

/-- Whether an archived branch counts as joined: one archived identity with a completed
merge of this target, or, without an identity, a graft from another branch that the
primary branch reaches. -/
def joinedBranch (v : RepositoryView) (bound : List ContextBranch) (completed : List String)
    (primaryReach : GraphSet) (name : String) (state : BranchLifecycleEvent) : Bool :=
  match bound.filter fun b => b.name = name with
  | [] => v.snapshots.any fun s =>
      decide (s.id ∈ primaryReach) && decide (s.branch ≠ name) &&
        decide (branchOf v.snapshots state.target = name) &&
        decide (state.target ∈ s.graftParents.list)
  | [b] => b.archived && v.history.any fun e =>
      decide (e.id ∈ completed) && decide (e.sourceBranchID = b.id) &&
        decide (e.source = state.target)
  | _ => false

/-- The archived branches without a ref: `range lifecycle`, by name. -/
def archivedStates (refs : List Ref) (lifecycle : String → Option BranchLifecycleEvent) :
    List (String × BranchLifecycleEvent) :=
  let named := (refs.filterMap fun r =>
    match parseBranchLifecycleRef r with
    | .ok (some event) => some event.branch
    | _ => none).dedup
  (named.mergeSort fun a b => decide (a ≤ b)).filterMap fun name =>
    match lifecycle name with
    | some state =>
        if state.state = .archived ∧ rawBranch refs name = none then some (name, state) else none
    | none => none

/-! ### Positions and continuations -/

/-- `out.Positions`. -/
def positionsOf (v : RepositoryView) (bindings : ContextBranchProjection) (visible : GraphSet) :
    List GraphPosition :=
  ((v.history.filter fun e => e.kind = .position ∧ e.target ∈ visible).map fun e =>
    let b := bindings.byID e.branchID
    let name := (b.map ContextBranch.name).getD ""
    { eventID := e.id, branch := if name = "" then e.branch else name, branchID := e.branchID
      snapshot := e.target, archived := (b.map ContextBranch.archived).getD false
      createdAt := e.createdAt : GraphPosition }).mergeSort
    (newestFirst GraphPosition.createdAt GraphPosition.eventID)

/-- The session that captured a snapshot. -/
def sessionOf (snaps : List Snapshot) (id : ContentHash) : String :=
  ((byID snaps id).map Snapshot.sessionID).getD ""

/-- `out.Continuations`: branch heads whose session goes on in a pending capture. -/
def continuationsOf (v : RepositoryView) (c : PendingClassification) : Dir String String :=
  c.pendings.foldl (fun out p =>
    if p.dismissed = true ∨ p.target ∈ c.shared then out
    else match rawBranch v.refs p.branch with
      | none => out
      | some head =>
          let ahead := v.unsync.any fun u =>
            decide (u.branch = p.branch) && decide (u.target ≠ head.target)
          let session := sessionOf v.snapshots head.target
          if ahead = false ∧ session ≠ "" ∧ session = p.sessionID then
            out.set head.target p.sessionID
          else out) Dir.empty

/-! ### Retained progress -/

/-- A recorded movement of a branch. -/
structure Movement where
  branch : String
  old : ContentHash
  next : ContentHash
  at_ : ℕ
  deriving DecidableEq, Repr

/-- `keyOf` of `graphProgress`. -/
def progressKey (bindings : ContextBranchProjection) (name identity : String) : String :=
  if (bindings.byID identity).isSome then identity
  else match bindings.active name with
    | some b => b.id
    | none => name

/-- The movements in the reflog of unbound names and in the advances. -/
def recordedMovements (v : RepositoryView) (bindings : ContextBranchProjection) :
    List Movement :=
  (v.reflog.filter fun r => r.kind = .branch ∧ bindings.active r.name = none).map
    (fun r => { branch := r.name, old := r.old, next := r.new, at_ := r.createdAt }) ++
  (v.history.filter fun e => e.kind = .advance ∧ e.source ≠ "" ∧ e.target ≠ "").map
    (fun e => { branch := progressKey bindings e.branch e.branchID, old := e.source
                next := e.target, at_ := e.createdAt })

/-- `heads`: the branch refs by key. -/
def progressHeads (v : RepositoryView) (bindings : ContextBranchProjection) :
    Dir String ContentHash :=
  (branchRefs v.refs).foldl (fun heads r =>
    heads.set (progressKey bindings r.name r.branchID) r.target) Dir.empty

/-- The ids that the events of the selected position's branch name, with the instant of
the last event that names them, and its head with the zero instant. -/
def positionRoots (v : RepositoryView) (bindings : ContextBranchProjection)
    (heads : Dir String ContentHash) (position : GraphPosition) : Dir String ℕ :=
  let branch := progressKey bindings position.branch position.branchID
  let head := (heads.get branch).getD ""
  let start : Dir String ℕ := if head ≠ "" then Dir.empty.set head 0 else Dir.empty
  (v.history.filter fun e =>
    if position.branchID ≠ "" then e.branchID = position.branchID
    else progressKey bindings e.branch e.branchID = branch).foldl (fun roots e =>
      ([e.source, e.target, e.sharedTarget].filter (· ≠ "")).foldl
        (fun roots id => roots.set id e.createdAt) roots) start

/-- The movements to the selected position. -/
def positionMovements (v : RepositoryView) (bindings : ContextBranchProjection)
    (heads : Dir String ContentHash) (position : GraphPosition) : List Movement :=
  let roots := positionRoots v bindings heads position
  (roots.keys.mergeSort fun a b => decide (a ≤ b)).map fun id =>
    { branch := progressKey bindings position.branch position.branchID, old := id
      next := position.snapshot, at_ := (roots.get id).getD 0 }

/-- A movement that left visible captures behind: its result is in the current head's
complete closure and its origin is not. -/
def leavesProgress (v : RepositoryView) (heads : Dir String ContentHash) (visible : GraphSet)
    (m : Movement) : Bool :=
  let head := (heads.get m.branch).getD ""
  let current := graphFrom v.snapshots head
  let before := graphFrom v.snapshots m.old
  let after := graphFrom v.snapshots m.next
  decide (m.old ≠ "" ∧ m.next ≠ "" ∧ m.old ≠ m.next ∧ m.old ∈ visible ∧ m.next ∈ visible) &&
    decide (head ≠ "") &&
    (current.complete && decide (m.old ∉ current.ids) && decide (m.next ∈ current.ids)) &&
    (before.complete && after.complete && decide (m.old ∉ after.ids))

/-- The key of a group: the JSON text of the movement. -/
def movementKey (m : Movement) : String :=
  String.ofList (Json.print (.arr [.str m.branch, .str m.old, .str m.next]))

/-- The visible ids that a movement left behind. -/
def leftBehind (v : RepositoryView) (heads : Dir String ContentHash) (visible : GraphSet)
    (m : Movement) : GraphSet :=
  let current := graphFrom v.snapshots ((heads.get m.branch).getD "")
  (graphFrom v.snapshots m.old).ids.filter fun id => id ∈ visible ∧ id ∉ current.ids

/-- The `seen` filter of `graphProgress`: the first movement of each key. -/
def firstOfKey : List String → List Movement → List Movement
  | _, [] => []
  | seen, m :: l =>
      if movementKey m ∈ seen then firstOfKey seen l
      else m :: firstOfKey (movementKey m :: seen) l

/-- `graphProgress`. -/
def graphProgress (v : RepositoryView) (bindings : ContextBranchProjection) (visible : GraphSet)
    (position : Option GraphPosition) : List GraphProgressGroup :=
  let recorded := progressHeads v bindings
  let heads := match position with
    | some p => recorded.set (progressKey bindings p.branch p.branchID) p.snapshot
    | none => recorded
  let movements := recordedMovements v bindings ++
    match position with
    | some p => positionMovements v bindings recorded p
    | none => []
  let moves := firstOfKey [] (movements.filter (leavesProgress v heads visible))
  let candidates := moves.foldl (fun ids m => ids ∪ leftBehind v heads visible m) ∅
  let sessions := (v.refs.filter fun r => r.kind = .session).map Ref.target
  let protectedIDs := graphRoots v.snapshots
    (sessions ++ graphIDs (visible \ candidates) ++ heads.entries.map Prod.snd)
  (moves.map fun m =>
    let ids := leftBehind v heads visible m
    { key := movementKey m
      branch := ((bindings.byID m.branch).map ContextBranch.name).getD m.branch
      before := m.old, after := m.next, createdAt := m.at_
      snapshotIDs := some (graphIDs ids)
      collapsibleIDs := some ((graphIDs ids).filter fun id => id ∉ protectedIDs) :
      GraphProgressGroup }).mergeSort
    (newestFirst GraphProgressGroup.createdAt GraphProgressGroup.key)

/-! ### The projection -/

/-- The sets that `ProjectGraphState` computes one from another. -/
structure GraphSets where
  uncommitted : GraphSet
  committed : GraphSet
  visible : GraphSet
  archived : GraphSet
  tagged : GraphSet
  pushed : GraphSet
  unpushed : GraphSet
  ahead : GraphSet
  tips : GraphSet

/-- `visibleRoots`. -/
def visibleRootsOf (v : RepositoryView) (c : PendingClassification) (committed : GraphSet) :
    List ContentHash :=
  graphIDs committed ++ graphIDs c.shared ++ graphIDs c.inHold ++ c.roots ++
    (v.refs.filter fun r => r.kind = .tag).map Ref.target ++
    v.history.flatMap fun e => [e.source, e.target, e.sharedTarget, e.memorySource]

/-- `pendingPath`, filtered to `uncommitted`. -/
def uncommittedOf (v : RepositoryView) (c : PendingClassification) : GraphSet :=
  (graphRoots v.snapshots c.roots).filter fun id =>
    id ∈ c.kept ∧ id ∉ c.shared ∧ id ∉ c.inHold ∧ isHookMessage v.snapshots id = true

/-- `committed`. -/
def committedOf (v : RepositoryView) (c : PendingClassification) : GraphSet :=
  c.kept.filter fun id => isHookMessage v.snapshots id = false ∨ id ∈ c.shared

/-- `visible`. -/
def visibleOf (v : RepositoryView) (c : PendingClassification) : GraphSet :=
  (graphRoots v.snapshots (visibleRootsOf v c (committedOf v c))).filter fun id => id ∈ c.kept

/-- `archived`: what only archived branches reach. -/
def archivedOf (v : RepositoryView) (c : PendingClassification)
    (archiveRoots : List ContentHash) : GraphSet :=
  (graphRoots v.snapshots archiveRoots).filter fun id =>
    id ∈ visibleOf v c ∧ id ∉ graphRoots v.snapshots (activeRootsOf v.refs)

/-- `ahead`. -/
def aheadOf (v : RepositoryView) (c : PendingClassification) : GraphSet :=
  (visibleOf v c).filter fun id => id ∉ c.shared

/-- The tiers, from the classification and the roots of archived branches. -/
def graphSets (v : RepositoryView) (c : PendingClassification)
    (archiveRoots : List ContentHash) : GraphSets :=
  let visible := visibleOf v c
  let uncommitted := uncommittedOf v c
  let archived := archivedOf v c archiveRoots
  let tagged := (graphRoots v.snapshots (tagRootsOf v.refs)).filter fun id =>
    id ∈ visible ∧ id ∉ c.shared ∧ id ∉ uncommitted
  let ahead := aheadOf v c
  { uncommitted := uncommitted
    committed := committedOf v c
    visible := visible
    archived := archived
    tagged := tagged
    pushed := visible.filter fun id => id ∈ c.shared ∧ id ∉ archived ∧ id ∉ uncommitted
    unpushed := visible.filter fun id => id ∉ c.shared ∧ id ∉ uncommitted ∧ id ∉ tagged
    ahead := ahead
    tips := (graphIDs ahead).foldl (fun tips id => tips \ (parentsOf v.snapshots id).toFinset)
      ahead }

/-- The marker of an archived branch. -/
def markerOf (v : RepositoryView) (visible active : GraphSet) (name : String)
    (state : BranchLifecycleEvent) (kind : MarkerKind) : GraphBranchMarker :=
  { branch := name, target := state.target, kind := kind
    uniqueCount := ((graphFrom v.snapshots state.target).ids.filter fun id =>
      id ∉ active ∧ id ∈ visible).card
    targetAvailable := decide (state.target ∈ visible) }

/-- `ProjectGraphState`. -/
def projectGraphState (env : GraphEnv) (v : RepositoryView) (primary positionID : String) :
    Except DomainError GraphState := do
  newGraphStateIndex v.snapshots
  let bindings ← (projectContextBranches env.digest v.history).mapError integrityOf
  checkAll (fun r => (parseBranchLifecycleRef r).map fun _ => ()) v.refs
  let bound := boundBranches bindings v.history
  let primary := primaryBranchOf v.refs primary
  let c := classifyPending v (sharedRootsOf v.refs)
  let lifecycle ← branchLifecycleStates v.refs
  let active := graphRoots v.snapshots (activeRootsOf v.refs)
  let primaryReach := graphRoots v.snapshots
    [((rawBranch v.refs primary).map Ref.target).getD ""]
  let semantics := if v.semantics.version = 0 then projectContextSemantics v.history
    else v.semantics
  let completed := (semantics.merges.filter fun f => f.completed).map ContextMergeEvidence.eventID
  let kinds := (archivedStates v.refs lifecycle).map fun p =>
    (p.1, p.2, if joinedBranch v bound completed primaryReach p.1 p.2 = true ∧
      p.2.target ∈ primaryReach then MarkerKind.joined else .archived)
  let archiveRoots := (kinds.filter fun k => k.2.2 = .archived).map fun k => k.2.1.target
  let sets := graphSets v c archiveRoots
  let positions := positionsOf v bindings sets.visible
  let position := positions.reverse.find? fun p => p.eventID = positionID
  refuse (positionID ≠ "" ∧ position = none)
    { sentinel := .notFound, format := "selected graph position is unavailable" }
  let out : GraphState :=
    { branchContexts := some Dir.empty, version := 1, revision := v.revision
      positionEvent := positionID
      markers := some (kinds.map fun k => markerOf v sets.visible active k.1 k.2.1 k.2.2)
      branchHeads := some (branchHeadsOf bound)
      refScopes := some (refScopesOf bindings v)
      snapshotScopes := some (snapshotScopesOf v)
      scopeLabels := some (scopeLabelsOf bindings v)
      hold := some c.hold, orphanSessions := some c.orphans, holdCounts := some c.counts
      positions := some positions
      primaryBranch := primary
      branchSnapshots := some ((branchNames v.refs).foldl (fun out name => out.set name
        (some (graphIDs (graphFrom v.snapshots
          (((rawBranch v.refs name).map Ref.target).getD "")).ids))) Dir.empty)
      continuations := some (continuationsOf v c) }
  .ok { out with
    operations := env.operations v out semantics
    previous := some (graphProgress v bindings sets.visible position)
    snapshotIDs := some (graphIDs c.kept)
    graphIDs := some (graphIDs sets.visible)
    committedIDs := some (graphIDs sets.committed)
    historicalIDs := some (graphIDs c.historical)
    sharedIDs := some (graphIDs c.shared)
    pushedIDs := some (graphIDs sets.pushed)
    unpushedIDs := some (graphIDs sets.unpushed)
    uncommittedIDs := some (graphIDs sets.uncommitted)
    taggedIDs := some (graphIDs sets.tagged)
    archivedOnlyIDs := some (graphIDs sets.archived)
    aheadIDs := some (graphIDs sets.ahead)
    aheadTips := some (graphIDs sets.tips) }

end Backend
end CxtHub
