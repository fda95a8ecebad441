/-
# Validation of a join mutation

`JoinMutation` and its checks, `ValidateJoinMutation` and `ValidateJoinGraphScope`
of `backend/internal/domain/join_validation.go`.  The store runs them under its
own lock on the graph it holds; `JoinPlan.mutation` runs the first one when a
plan becomes a mutation.
-/

import CxtHub.Backend.PlanJoin

namespace CxtHub
namespace Backend

/-- `JoinMutation`. -/
structure JoinMutation where
  expectedScopeRevision : ContentHash
  branchID : String
  repoID : ContentHash
  branch : String
  source : ContentHash
  segment : List ContentHash
  expectedHead : ContentHash
  newHead : ContentHash
  forkName : String
  forkTip : ContentHash
  grafts : List GraftPatch
  deriving DecidableEq, Repr

/-- An error that wraps `ErrValidation`. -/
def invalid (format : String) (args : List String := []) : DomainError :=
  { sentinel := .validation, format := format, args := args }

/-- An error that wraps `ErrConflict`. -/
def conflict (format : String) (args : List String := []) : DomainError :=
  { sentinel := .conflict, format := format, args := args }

/-- The checks on one patch of a mutation. -/
def validatePatch (patch : GraftPatch) : Except DomainError Unit := do
  validateContentHash patch.snapshotID
  checkAll validateContentHash patch.parents

/-- Where the new head stands, and whether a residual session ref goes with it. -/
def validateJoinEnds (m : JoinMutation) : Except DomainError Unit :=
  let tip := m.segment.getLastD ""
  if m.segment.length = 1 then
    refuse (m.newHead ≠ m.source ∨ m.forkName ≠ "" ∨ m.forkTip ≠ "")
      (invalid "single-snapshot join cannot create a residual session ref")
  else if m.newHead = tip then
    refuse (m.forkName ≠ "" ∨ m.forkTip ≠ "")
      (invalid "whole-segment join cannot create a residual session ref")
  else if m.newHead = m.source then
    refuse (m.forkName = "" ∨ m.forkTip ≠ tip)
      (invalid "partial join must preserve the segment tip in a session ref")
  else .error (invalid "join head must be the source or segment tip")

/-- `validateJoinMutationPlan`. -/
def validateJoinMutationPlan (m : JoinMutation) : Except DomainError Unit := do
  refuse (m.branch = headRefName) (invalid "HEAD is not a joinable branch")
  refuse (m.segment.head? ≠ some m.source) (invalid "join segment must start at source")
  validateJoinEnds m
  refuse (m.forkName ≠ "" ∧ hasPrefix m.forkName (sessionRefPrefix m.branch) = false)
    (invalid "join session ref is not scoped to git branch %q" [m.branch])
  checkAll (fun patch => refuse (patch.snapshotID = m.source ∧ m.expectedHead ∉ patch.parents)
    (invalid "source graft patch does not preserve the previous branch head")) m.grafts
  refuse (m.source ∉ m.grafts.map GraftPatch.snapshotID)
    (invalid "join requires a source graft patch")

/-- The checks on the residual session ref. -/
def validateJoinFork (m : JoinMutation) : Except DomainError Unit :=
  if m.forkName = "" then .ok ()
  else do
    validateBranchName m.forkName
    validateContentHash m.forkTip
    refuse (m.forkTip ∉ m.segment) (invalid "join session tip is outside segment")

/-- `ValidateJoinMutation`. -/
def validateJoinMutation (m : JoinMutation) : Except DomainError Unit := do
  checkAll validateContentHash [m.repoID, m.source, m.expectedHead, m.newHead]
  refuse (m.segment.head? ≠ some m.source) (invalid "join segment must start at source")
  checkFresh validateContentHash id
    { sentinel := .integrity, format := "duplicate join segment snapshot" } [] m.segment
  refuse (m.newHead ∉ m.segment) (invalid "join head is outside segment")
  validateBranchName m.branch
  refuse (decide (m.forkName = "") ≠ decide (m.forkTip = ""))
    (invalid "join fork name and tip must be provided together")
  validateJoinFork m
  refuse (m.grafts.length = 0) (invalid "join requires at least one graft patch")
  checkFresh validatePatch GraftPatch.snapshotID { sentinel := .integrity } [] m.grafts
  validateJoinMutationPlan m

/-- `JoinPlan.Mutation`. -/
def JoinPlan.mutation (plan : JoinPlan) (forkName : String) : Except DomainError JoinMutation :=
  let m : JoinMutation :=
    { expectedScopeRevision := plan.scopeRevision, repoID := plan.repoID, branch := plan.branch
      branchID := plan.branchID, source := plan.source, segment := plan.segment
      expectedHead := plan.expectedHead, newHead := plan.newHead, forkTip := plan.remainingTip
      forkName := forkName, grafts := plan.grafts }
  validateJoinMutation m >>= fun _ => .ok m

/-! ### The graph scope -/

/-- The segment of a mutation: each id is stored and attached, and the one before it
is its first parent. -/
def checkSegment (snaps : List Snapshot) (attached : List ContentHash) :
    Option ContentHash → List ContentHash → Except DomainError Unit
  | _, [] => .ok ()
  | before, id :: rest => do
      let some snap := byID snaps id
        | .error { sentinel := .notFound, format := "join segment snapshot %s", args := [id] }
      refuse (id ∉ attached)
        (conflict "join segment snapshot %s is no longer attached to its branch/session ref" [id])
      refuse (before.isSome = true ∧ snap.parents.list.head? ≠ before)
        (conflict "join segment is no longer a first-parent chain")
      checkSegment snaps attached (some id) rest

/-- The patches of a mutation stay inside the attached graph. -/
def checkPatchScope (attached : List ContentHash) (patch : GraftPatch) :
    Except DomainError Unit := do
  refuse (patch.snapshotID ∉ attached)
    (conflict "graft patch snapshot %s is outside the target git branch scope" [patch.snapshotID])
  checkAll (fun parent => refuse (parent ∉ attached)
    (conflict "graft parent %s is outside the target git branch scope" [parent])) patch.parents

/-- `firstChildren[id]` of `validateJoinSegmentTopology`: attached snapshots only. -/
def attachedChildren (snaps : List Snapshot) (attached : List ContentHash) (id : ContentHash) :
    List ContentHash :=
  (snaps.filter fun s =>
    decide (s.parents.list.head? = some id) && attached.contains s.id).map Snapshot.id

/-- Each id of the segment has no attached first child but the next id. -/
def checkOnlyChildren (snaps : List Snapshot) (attached : List ContentHash) :
    List ContentHash → Except DomainError Unit
  | [] => .ok ()
  | id :: rest => do
      checkAll (fun child => refuse (child ≠ rest.headD "")
        (conflict "join segment changed or gained another attached first-parent child"))
        (attachedChildren snaps attached id)
      checkOnlyChildren snaps attached rest

/-- `validateJoinSegmentTopology`. -/
def validateJoinSegmentTopology (m : JoinMutation) (snaps : List Snapshot)
    (attached : List ContentHash) : Except DomainError Unit := do
  checkSegment snaps attached none m.segment
  checkAll (checkPatchScope attached) m.grafts
  checkOnlyChildren snaps attached m.segment

/-- `targetRoots`: the branch ref and its session refs. -/
def targetRoots (branch : String) (refs : List Ref) : List ContentHash :=
  (refs.filter fun ref => inScope branch ref && !decide (ref.target = "")).map Ref.target

/-- `ValidateJoinGraphScope`. -/
def validateJoinGraphScope (digest : JoinScope → ContentHash) (m : JoinMutation)
    (snaps : List Snapshot) (refs : List Ref) : Except DomainError Unit := do
  refuse (m.expectedScopeRevision ≠ "" ∧ digest (joinScope snaps refs) ≠ m.expectedScopeRevision)
    errJoinPreviewChanged
  let other := snapshotReachableSet snaps (otherRoots m.branch refs)
  checkAll (fun id => refuse (id ∈ other)
    (conflict "snapshot %s is reachable from another branch" [id])) m.segment
  checkAll (fun patch => refuse (patch.snapshotID ∈ other)
    (conflict "graft source %s is reachable from another branch" [patch.snapshotID])) m.grafts
  validateJoinSegmentTopology m snaps (snapshotReachableSet snaps (targetRoots m.branch refs))

end Backend
end CxtHub
