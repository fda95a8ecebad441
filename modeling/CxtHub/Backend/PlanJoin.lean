/-
# The join planner

`PlanJoin` of `backend/internal/domain/join.go`, with the graph, request, plan and
patch types it uses and `JoinScopeRevision` of `join_preview.go`.  A join takes a
session lane that hangs off a branch by graft edges only and makes it the new top
of the branch: the lane is the first-parent path above the source, the graft
edges that point into it from the branch are superseded, and the source gets a
graft edge to the old head.

The revision is a digest of the published topology.  The digest itself (SHA-256
of the JSON text) is a parameter; `joinScope` is the value that is encoded.

A returned plan is read off with `planJoin_eq_ok`: `Planned` has one field for
each check the planner made.
-/

import CxtHub.Backend.Lifecycle
import CxtHub.Backend.Snapshot

namespace CxtHub
namespace Backend

open Relation

def hookMessagePrefix : String := "hook: "

/-- `Pending`: the fields the planner reads. -/
structure Pending where
  target : ContentHash
  dismissed : Bool := false
  deriving DecidableEq, Repr

/-- `JoinGraph`. -/
structure JoinGraph where
  snapshots : List Snapshot
  refs : List Ref
  pendings : List Pending := []
  memberships : ContentHash → String → Bool

/-- `JoinRequest`. -/
structure JoinRequest where
  repoID : ContentHash
  branch : String
  branchID : String := ""
  source : ContentHash
  includeDescendants : Bool
  deriving DecidableEq, Repr

/-- `GraftPatch`: one graft register and the edges that replace it. -/
structure GraftPatch where
  snapshotID : ContentHash
  expectedSeq : ℕ
  parents : List ContentHash
  deriving DecidableEq, Repr

/-- `JoinPlan`. -/
structure JoinPlan where
  scopeRevision : ContentHash
  repoID : ContentHash
  branch : String
  branchID : String
  source : ContentHash
  segment : List ContentHash
  expectedHead : ContentHash
  newHead : ContentHash
  remainingTip : ContentHash
  grafts : List GraftPatch
  deriving DecidableEq, Repr

/-! ### The scope revision -/

/-- `refState` of `JoinScopeRevision`. -/
structure RefState where
  kind : RefKind
  name : String
  branchID : String
  target : ContentHash
  deriving DecidableEq, Repr

/-- `nodeState` of `JoinScopeRevision`. -/
structure NodeState where
  id : ContentHash
  parents : List ContentHash
  grafts : List ContentHash
  seq : ℕ
  deriving DecidableEq, Repr

/-- The value `JoinScopeRevision` encodes and hashes. -/
structure JoinScope where
  version : ℕ
  refs : List RefState
  nodes : List NodeState
  deriving DecidableEq, Repr

/-- Refs that carry a branch or one of its sessions. -/
def isTimelineRef (ref : Ref) : Bool :=
  decide (ref.kind = .branch) || decide (ref.kind = .session)

/-- The order of refs in the scope: by kind, then by name. -/
def refStateBefore (a b : RefState) : Bool :=
  if a.kind ≠ b.kind then decide (a.kind.text < b.kind.text) else decide (a.name ≤ b.name)

/-- The scope entry of an id, with the zero snapshot for a missing one. -/
def nodeState (snaps : List Snapshot) (id : ContentHash) : NodeState :=
  match byID snaps id with
  | some s =>
      { id := id, parents := s.parents.list,
        grafts := s.graftParents.list.insertionSort (· ≤ ·), seq := s.graftSeq }
  | none => { id := id, parents := [], grafts := [], seq := 0 }

/-- What `JoinScopeRevision` hashes. -/
def joinScope (snaps : List Snapshot) (refs : List Ref) : JoinScope :=
  let timeline := refs.filter isTimelineRef
  { version := 1
    refs := (timeline.map fun ref =>
        { kind := ref.kind, name := ref.name, branchID := ref.branchID, target := ref.target :
          RefState }).insertionSort fun a b => refStateBefore a b = true
    nodes := ((snapshotReachableSet snaps (timeline.map Ref.target)).map
      (nodeState snaps)).insertionSort fun a b => a.id ≤ b.id }

/-! ### The planner -/

/-- `joinSharedTimelineRef`. -/
def joinSharedTimelineRef (ref : Ref) : Bool :=
  if ref.target = "" then false
  else if ref.kind = .branch ∨ ref.kind = .session then true
  else match parseBranchLifecycleRef ref with
    | .ok (some _) => true
    | _ => false

/-- A session ref of the branch. -/
def isSessionOf (branch : String) (ref : Ref) : Bool :=
  decide (ref.kind = .session) && hasPrefix ref.name (sessionRefPrefix branch)

/-- The branch ref itself. -/
def isBranchNamed (branch : String) (ref : Ref) : Bool :=
  decide (ref.kind = .branch) && decide (ref.name = branch)

/-- A ref of the target branch: its branch ref or one of its sessions. -/
def inScope (branch : String) (ref : Ref) : Bool :=
  isBranchNamed branch ref || isSessionOf branch ref

/-- `otherScope` of `PlanJoin`: a branch of another name or a session of another branch. -/
def otherScope (branch : String) (ref : Ref) : Bool :=
  (decide (ref.kind = .branch) && !decide (ref.name = branch)) ||
    (decide (ref.kind = .session) && !hasPrefix ref.name (sessionRefPrefix branch))

/-- `otherRoots`. -/
def otherRoots (branch : String) (refs : List Ref) : List ContentHash :=
  (refs.filter fun ref => otherScope branch ref && !decide (ref.target = "")).map Ref.target

section Graph

variable (graph : JoinGraph)

/-- `shared`. -/
def JoinGraph.shared : List ContentHash :=
  snapshotReachableSet graph.snapshots ((graph.refs.filter joinSharedTimelineRef).map Ref.target)

/-- `targetSessionShared`. -/
def JoinGraph.targetSessionShared (branch : String) : List ContentHash :=
  snapshotReachableSet graph.snapshots
    ((graph.refs.filter fun ref => joinSharedTimelineRef ref && isSessionOf branch ref).map
      Ref.target)

/-- `pendingTargets`: a dismissed or already shared pointer does not count. -/
def JoinGraph.pendingTargets : List ContentHash :=
  (graph.pendings.filter fun p => !(p.dismissed || graph.shared.contains p.target)).map
    Pending.target

/-- `isJoinCommit`. -/
def JoinGraph.isJoinCommit (id : ContentHash) : Bool :=
  match byID graph.snapshots id with
  | none => false
  | some snap =>
      !graph.pendingTargets.contains id &&
        (!hasPrefix snap.message hookMessagePrefix || graph.shared.contains id)

/-- `firstChildren[id]`: the committed snapshots whose first parent is `id`. -/
def JoinGraph.firstChildren (id : ContentHash) : List ContentHash :=
  (graph.snapshots.filter fun s =>
    graph.isJoinCommit s.id && decide (s.parents.list.head? = some id)).map Snapshot.id

/-- `branchChildren(id)`. -/
def JoinGraph.branchChildren (branch : String) (id : ContentHash) : List ContentHash :=
  (graph.firstChildren id).filter fun kid => graph.memberships kid branch

/-- `targetShared`: reachable from the head or from a session of the branch. -/
def JoinGraph.targetShared (branch : String) (head : ContentHash) : List ContentHash :=
  snapshotReachableSet graph.snapshots [head] ++ graph.targetSessionShared branch

/-- `otherBranchReach`. -/
def JoinGraph.otherBranchReach (branch : String) : List ContentHash :=
  snapshotReachableSet graph.snapshots (otherRoots branch graph.refs)

/-- The loop that extends the segment from its tip; `segment` is what was met. -/
def JoinGraph.segmentFrom (branch : String) (targetShared : List ContentHash) :
    ℕ → List ContentHash → ContentHash → Except DomainError (List ContentHash)
  | 0, segment, _ => .ok segment
  | fuel + 1, segment, tip =>
      match graph.branchChildren branch tip with
      | [] => .ok segment
      | [kid] => do
          refuse (kid ∉ targetShared) (joinDenied "unpushed"
            { sentinel := .conflict,
              format := "chain above snapshot contains an unpushed commit; push it first" })
          refuse (kid ∈ segment)
            { sentinel := .integrity, format := "cycle in natural lineage" }
          JoinGraph.segmentFrom branch targetShared fuel (segment ++ [kid]) kid
      | _ => .error (joinDenied "branched"
          { sentinel := .conflict,
            format := "chain above snapshot forks — join a leaf after resolving the fork" })

/-- The supersede plan: the patches that remove the graft edges from the head's
reach into the segment. -/
def JoinGraph.supersedes (branch : String) (headReach otherReach segment : List ContentHash) :
    List Snapshot → Except DomainError (List GraftPatch)
  | [] => .ok []
  | sn :: snaps =>
      if sn.id ∈ segment ∨ sn.graftParents.list.length = 0 ∨ sn.id ∉ headReach then
        JoinGraph.supersedes branch headReach otherReach segment snaps
      else if sn.graftParents.list.any segment.contains then do
        refuse (graph.memberships sn.id branch = false) (joinDenied "cross_branch"
          { sentinel := .conflict,
            format := "a graft from another git branch blocks this join" })
        refuse (sn.id ∈ otherReach) (joinDenied "cross_branch"
          { sentinel := .conflict, format := "graft source %s is shared by another git branch",
            args := [sn.id] })
        let rest ← JoinGraph.supersedes branch headReach otherReach segment snaps
        .ok ({ snapshotID := sn.id, expectedSeq := sn.graftSeq,
               parents := sn.graftParents.list.filter fun g => !segment.contains g } :: rest)
      else JoinGraph.supersedes branch headReach otherReach segment snaps

end Graph

/-- The first loop of `PlanJoin`: ids are distinct and in the repository. -/
def checkSnapshots (repoID : ContentHash) :
    List ContentHash → List Snapshot → Except DomainError Unit
  | _, [] => .ok ()
  | seen, snap :: snaps => do
      refuse (snap.id ∈ seen)
        { sentinel := .integrity, format := "duplicate snapshot %s", args := [snap.id] }
      refuse (snap.repoID ≠ repoID)
        { sentinel := .integrity, format := "snapshot outside repository" }
      checkSnapshots repoID (snap.id :: seen) snaps

/-- The error of a branch without a head. -/
def noBranch (branch : String) : DomainError :=
  joinDenied "no_branch"
    { sentinel := .notFound, format := "target branch %q has no head", args := [branch] }

/-- The graft register of the source after the join: the old head is added. -/
def sourceGrafts (snapX : Snapshot) (head : ContentHash) : List ContentHash :=
  if head ∈ snapX.graftParents.list then snapX.graftParents.list
  else snapX.graftParents.list ++ [head]

/-- `tip` after the loop: the last id of the segment. -/
def tipOf (req : JoinRequest) (segment : List ContentHash) : ContentHash :=
  segment.getLastD req.source

/-- The plan that `PlanJoin` returns after its checks. -/
def buildPlan (digest : JoinScope → ContentHash) (graph : JoinGraph) (req : JoinRequest)
    (snapX : Snapshot) (head : Ref) (segment : List ContentHash) (superseded : List GraftPatch) :
    JoinPlan :=
  { scopeRevision := digest (joinScope graph.snapshots graph.refs)
    repoID := req.repoID
    branch := req.branch
    branchID := head.branchID
    source := req.source
    segment := segment
    expectedHead := head.target
    newHead := if req.includeDescendants then tipOf req segment else req.source
    remainingTip :=
      if !req.includeDescendants ∧ tipOf req segment ≠ req.source then tipOf req segment else ""
    grafts := superseded ++
      [{ snapshotID := req.source, expectedSeq := snapX.graftSeq,
         parents := sourceGrafts snapX head.target }] }

section BuildPlan

variable (digest : JoinScope → ContentHash) (graph : JoinGraph) (req : JoinRequest)
  (snapX : Snapshot) (head : Ref) (segment : List ContentHash) (superseded : List GraftPatch)

@[simp] theorem buildPlan_scopeRevision :
    (buildPlan digest graph req snapX head segment superseded).scopeRevision =
      digest (joinScope graph.snapshots graph.refs) := rfl

@[simp] theorem buildPlan_repoID :
    (buildPlan digest graph req snapX head segment superseded).repoID = req.repoID := rfl

@[simp] theorem buildPlan_branch :
    (buildPlan digest graph req snapX head segment superseded).branch = req.branch := rfl

@[simp] theorem buildPlan_source :
    (buildPlan digest graph req snapX head segment superseded).source = req.source := rfl

@[simp] theorem buildPlan_segment :
    (buildPlan digest graph req snapX head segment superseded).segment = segment := rfl

@[simp] theorem buildPlan_expectedHead :
    (buildPlan digest graph req snapX head segment superseded).expectedHead = head.target := rfl

/-- The new head: the tip with the descendants, or the source alone. -/
theorem buildPlan_newHead :
    (buildPlan digest graph req snapX head segment superseded).newHead =
      if req.includeDescendants then tipOf req segment else req.source := rfl

/-- What is left over when the descendants are not taken. -/
theorem buildPlan_remainingTip :
    (buildPlan digest graph req snapX head segment superseded).remainingTip =
      if !req.includeDescendants ∧ tipOf req segment ≠ req.source then tipOf req segment
      else "" := rfl

end BuildPlan

/-- `PlanJoin`. -/
def planJoin (digest : JoinScope → ContentHash) (graph : JoinGraph) (req : JoinRequest) :
    Except DomainError JoinPlan := do
  checkAll validateContentHash [req.repoID, req.source]
  validateBranchName req.branch
  refuse (req.branch = headRefName)
    { sentinel := .validation, format := "HEAD is not a joinable branch" }
  checkSnapshots req.repoID [] graph.snapshots
  let some snapX := byID graph.snapshots req.source
    | .error { sentinel := .notFound, format := "snapshot %s", args := [req.source] }
  refuse (graph.isJoinCommit req.source = false) (joinDenied "uncommitted"
    { sentinel := .validation, format := "pending hook capture cannot be joined" })
  refuse (graph.memberships req.source req.branch = false) (joinDenied "cross_branch"
    { sentinel := .conflict, args := [req.branch],
      format := "snapshot does not belong to git branch %q — cross-branch join is not allowed" })
  let some head := graph.refs.find? (isBranchNamed req.branch)
    | .error (noBranch req.branch)
  refuse (head.target = "") (noBranch req.branch)
  refuse (req.branchID ≠ "" ∧ head.branchID ≠ req.branchID) errJoinPreviewChanged
  refuse (head.target = req.source) (joinDenied "already_head"
    { sentinel := .conflict, format := "snapshot is already the branch head" })
  refuse (req.source ∉ graph.targetShared req.branch head.target) (joinDenied "unpushed"
    { sentinel := .conflict,
      format := "snapshot is not an attached session branch; push it first" })
  refuse (naturalReachable graph.snapshots head.target req.source = true)
    (joinDenied "natural_history"
      { sentinel := .conflict, format := "snapshot already in branch %q natural history",
        args := [req.branch] })
  let segment ← graph.segmentFrom req.branch (graph.targetShared req.branch head.target)
    graph.snapshots.length [req.source] req.source
  checkAll (fun id => refuse (id ∈ graph.otherBranchReach req.branch) (joinDenied "cross_branch"
    { sentinel := .conflict, args := [id],
      format := "snapshot %s is currently reachable from another git branch" })) segment
  let superseded ← graph.supersedes req.branch
    (snapshotReachableSet graph.snapshots [head.target]) (graph.otherBranchReach req.branch)
    segment graph.snapshots
  .ok (buildPlan digest graph req snapX head segment superseded)

/-- What a returned plan rests on: one field for each check of `PlanJoin`. -/
structure Planned (graph : JoinGraph) (req : JoinRequest) (snapX : Snapshot) (head : Ref)
    (segment : List ContentHash) (superseded : List GraftPatch) : Prop where
  repoID_valid : validContentHash req.repoID = true
  source_valid : validContentHash req.source = true
  branch_valid : validBranchName req.branch = true
  branch_ne_head : req.branch ≠ headRefName
  snapshots_checked : checkSnapshots req.repoID [] graph.snapshots = .ok ()
  source_found : byID graph.snapshots req.source = some snapX
  source_commit : graph.isJoinCommit req.source = true
  source_member : graph.memberships req.source req.branch = true
  head_found : graph.refs.find? (isBranchNamed req.branch) = some head
  head_ne_empty : head.target ≠ ""
  branchID_agrees : req.branchID ≠ "" → head.branchID = req.branchID
  head_ne_source : head.target ≠ req.source
  source_attached : req.source ∈ graph.targetShared req.branch head.target
  not_natural : naturalReachable graph.snapshots head.target req.source = false
  segment_eq : graph.segmentFrom req.branch (graph.targetShared req.branch head.target)
    graph.snapshots.length [req.source] req.source = .ok segment
  segment_isolated : ∀ id ∈ segment, id ∉ graph.otherBranchReach req.branch
  supersedes_eq : graph.supersedes req.branch
    (snapshotReachableSet graph.snapshots [head.target]) (graph.otherBranchReach req.branch)
    segment graph.snapshots = .ok superseded

/-- **A returned plan passed every check and is the one built from what they found.** -/
theorem planJoin_eq_ok {digest : JoinScope → ContentHash} {graph : JoinGraph}
    {req : JoinRequest} {plan : JoinPlan} (h : planJoin digest graph req = .ok plan) :
    ∃ snapX head segment superseded, Planned graph req snapX head segment superseded ∧
      plan = buildPlan digest graph req snapX head segment superseded := by
  unfold planJoin at h
  simp only [bind_eq_ok, exists_unit_iff, checkAll_eq_ok, validateContentHash_eq_ok,
    validateBranchName_eq_ok, refuse_eq_ok, List.mem_cons, List.not_mem_nil, or_false,
    forall_eq_or_imp, forall_eq] at h
  obtain ⟨⟨hrepo, hsrc⟩, hbranch, hnot, hsnaps, h⟩ := h
  cases hx : byID graph.snapshots req.source with
  | none => simp [hx] at h
  | some snapX =>
  cases hh : graph.refs.find? (isBranchNamed req.branch) with
  | none => simp [hx, hh] at h
  | some head =>
  simp only [hx, hh, bind_eq_ok, exists_unit_iff, refuse_eq_ok, checkAll_eq_ok] at h
  obtain ⟨hcommit, hmember, hne, hid, hns, hatt, hnat, segment, hseg, hiso, sup, hsup, hplan⟩ := h
  refine ⟨snapX, head, segment, sup, ?_, by simpa using hplan.symm⟩
  exact {
    repoID_valid := hrepo, source_valid := hsrc, branch_valid := hbranch
    branch_ne_head := hnot, snapshots_checked := hsnaps, source_found := hx
    source_commit := by simpa using hcommit, source_member := by simpa using hmember
    head_found := hh, head_ne_empty := hne
    branchID_agrees := fun hb => by by_contra hc; exact hid ⟨hb, hc⟩
    head_ne_source := hns, source_attached := by simpa using hatt
    not_natural := by simpa using hnat, segment_eq := hseg
    segment_isolated := hiso, supersedes_eq := hsup }

end Backend
end CxtHub
