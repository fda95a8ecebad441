/-
# What the client asks of a branch pull plan

`cli/internal/domain/branch_pull_validate.go`.  The client checks the inventory before it
requests any object: the header and the selected ref, the snapshot index, the refs, the
history and its projection, the observation roots and the settings.  Every defect is the
same error, `ErrHashMismatch`, so one check may stand for a loop that makes several.

The request and the plan are the types of the server: `cli/internal/domain/branch_pull.go`
repeats them.
-/

import CxtHub.Backend.BranchPull

namespace CxtHub
namespace Cli

open Backend (Ref BranchPullRequest BranchPullPlan BranchPullSettings pinOf sourceOf completes
  eventRoots pullIdentity boundElsewhere branchPullVersion)

/-- `if c { return bad }`. -/
def reject (c : Prop) [Decidable c] : Except DomainError Unit := refuse c (bare .hashMismatch)

/-- `if err != nil { return bad }`. -/
def orReject {α : Type} : Except DomainError α → Except DomainError α
  | .ok a => .ok a
  | .error _ => .error (bare .hashMismatch)

@[simp] theorem reject_eq_ok {c : Prop} [Decidable c] {u : Unit} : reject c = .ok u ↔ ¬ c :=
  refuse_eq_ok

@[simp] theorem orReject_eq_ok {α : Type} {x : Except DomainError α} {a : α} :
    orReject x = .ok a ↔ x = .ok a := by
  cases x <;> simp [orReject]

/-- The header of the plan. -/
def checkHeader (repo : String) (request : BranchPullRequest) (plan : BranchPullPlan) :
    Except DomainError Unit :=
  reject (plan.version ≠ branchPullVersion ∨ plan.repoID ≠ repo ∨ plan.branch ≠ request.branch ∨
    plan.contextProtocol < 0 ∨ 1 < plan.contextProtocol)

/-- The selected ref. -/
def checkSelected (repo : String) (request : BranchPullRequest) (selected : Ref) :
    Except DomainError Unit := do
  reject (selected.repoID ≠ repo ∨ selected.kind ≠ .branch ∨ selected.name ≠ request.branch ∨
    selected.target = "" ∨ selected.symbolic ≠ "")
  orReject (validateRef selected)

/-- The snapshot index: different hashes, each with the hash of a state. -/
def checkIndex (plan : BranchPullPlan) : Except DomainError Unit := do
  checkFresh (fun id => do
      orReject (validateContentHash id)
      orReject (validateContentHash ((plan.snapshotStates.lookup id).getD "")))
    id (bare .hashMismatch) [] plan.snapshotIndex
  reject (plan.snapshotIndex.length ≠ plan.snapshotStates.keys.length ∨
    plan.selectedRef.target ∉ plan.snapshotIndex)

/-- A ref that is not a branch is a lifecycle tag of the branch. -/
def checkLifecycle (request : BranchPullRequest) (ref : Ref) : Except DomainError Unit := do
  let event ← orReject (parseBranchLifecycleRef ref)
  reject (Backend.ofBranch request.branch event = false)

/-- One ref of the plan. -/
def checkRef (repo : String) (request : BranchPullRequest) (plan : BranchPullPlan) (ref : Ref) :
    Except DomainError Unit := do
  reject (ref.repoID ≠ repo)
  orReject (validateRef ref)
  reject (ref.symbolic ≠ "" ∨ ref.target ∉ plan.snapshotIndex)
  if ref.kind = .branch then reject (ref ≠ plan.selectedRef) else checkLifecycle request ref

/-- The key of a ref; no kind has a slash. -/
def refKey (ref : Ref) : String := ref.kind.text ++ "/" ++ ref.name

/-- The refs of the plan: the selected one, and lifecycle tags. -/
def checkRefs (repo : String) (request : BranchPullRequest) (plan : BranchPullPlan) :
    Except DomainError Unit := do
  checkFresh (checkRef repo request plan) refKey (bare .hashMismatch) [] plan.refs
  reject ((plan.refs.filter fun ref => ref.kind = .branch).length ≠ 1)
  let latest ← orReject (latestBranchLifecycle plan.refs request.branch)
  reject (plan.selectedRef.branchID = "" ∧
    Backend.hides latest plan.selectedRef.target = true)

/-- The events of the plan: valid, on snapshots of the index. -/
def checkEvents (repo : String) (plan : BranchPullPlan) : Except DomainError Unit :=
  checkAll (fun e => do
    reject (e.repoID ≠ repo)
    orReject (validateHistoryEvent e)
    checkAll (fun id => reject (id ≠ "" ∧ id ∉ plan.snapshotIndex)) (eventRoots e)) plan.history

/-- `IsPinnedContextEvent`. -/
def isPinnedContextEvent (e : HistoryEvent) : Bool :=
  e.memoryPinned && decide (e.target ≠ "") &&
    decide (e.kind ∈ [.birth, .attach, .orphan, .position, .advance])

/-- The history binds the name to the selected identity, and has the source of each completed
pull request. -/
def checkHistory (d : Digest) (repo : String) (request : BranchPullRequest)
    (plan : BranchPullPlan) : Except DomainError Unit := do
  let ordered ← orReject (orderHistoryEvents plan.history)
  reject (ordered.length ≠ plan.history.length)
  let projection ← orReject (projectContextBranches d ordered)
  let identity := pullIdentity d repo request.branch plan.selectedRef
  reject (boundElsewhere d projection repo request.branch identity = true)
  let pins := (ordered.filter isPinnedContextEvent).map pinOf
  checkAll (fun e => reject (completes identity e = true ∧ sourceOf e ∉ pins)) ordered

/-- Every observation root is in the index or reported absent. -/
def checkRoots (request : BranchPullRequest) (plan : BranchPullPlan) : Except DomainError Unit := do
  checkFresh (fun id => reject (id ∉ request.observationRoots ∨ id ∈ plan.snapshotIndex))
    id (bare .hashMismatch) [] plan.absentRoots
  checkAll (fun id => reject (id ∉ plan.snapshotIndex ∧ id ∉ plan.absentRoots))
    request.observationRoots

/-- The settings objects: different hashes of known kinds. -/
def checkSettings (plan : BranchPullPlan) : Except DomainError Unit :=
  checkFresh (fun setting => do
      orReject (validateContentHash setting.hash)
      reject (setting.kind ∉ [.claude, .codex, .agents]))
    BranchPullSettings.hash (bare .hashMismatch) [] plan.settingsObjects

/-- `ValidateBranchPullPlan`. -/
def validateBranchPullPlan (d : Digest) (repo : String) (request : BranchPullRequest)
    (plan : BranchPullPlan) : Except DomainError Unit := do
  checkHeader repo request plan
  checkSelected repo request plan.selectedRef
  checkIndex plan
  checkRefs repo request plan
  checkEvents repo plan
  checkHistory d repo request plan
  checkRoots request plan
  checkSettings plan

end Cli
end CxtHub
