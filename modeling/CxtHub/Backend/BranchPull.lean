/-
# Branch pull plans

`backend/internal/domain/branch_pull.go`: `SelectBranchPullDependencies` picks, out of the
refs, the history and the snapshots of a repository, what a client needs to adopt one
branch.  It is pure: everything it reads is an argument.

The files on histories and branch identities are the same on the server and the client,
so the model of the client is used for both; `validateHistoryEvent` is the server's own.

* The request and the plan.
* The refs: the branch ref and the lifecycle tags of the branch.
* The history: the events of the selected identity, the bindings of the selected name,
  the pins of completed pull requests, and what these depend on.  The queue of the source
  marks an event when it is queued and `Worklist.reach` when it is taken out; both collect
  the events that are reached.
* The snapshots: a depth-first visit from the refs, the events and the observation roots.

Left out: the cancellation of the request.  The hash of a snapshot's state is a parameter
(`PullEnv.stateHash`).
-/

import CxtHub.Backend.Snapshot
import CxtHub.Cli.History
import CxtHub.Lib.PostOrder
import CxtHub.Lib.Sorted

namespace CxtHub
namespace Backend

open Cli (HistoryEvent ContextBranch ContextBranchProjection historyDependencies
  isBranchBindingEvent legacyContextBranchID orderHistoryEvents projectContextBranches)

/-! ### The request and the plan -/

/-- `BranchPullVersion`. -/
def branchPullVersion : Int := 1

/-- `MaxBranchPullRoots`. -/
def maxBranchPullRoots : ℕ := 256

/-- `BranchPullRequest`. -/
structure BranchPullRequest where
  version : Int
  branch : String
  observationRoots : List ContentHash := []
  deriving DecidableEq, Repr

/-- `BranchPullRequest.Validate`. -/
def BranchPullRequest.validate (r : BranchPullRequest) : Except DomainError Unit := do
  refuse (r.version ≠ branchPullVersion ∨ validBranchName r.branch = false ∨
      maxBranchPullRoots < r.observationRoots.length)
    { sentinel := .validation, format := "invalid branch pull request" }
  checkAll (fun id => refuse (validContentHash id = false)
    { sentinel := .validation, format := "invalid observation root" }) r.observationRoots

/-- `BranchPullSettings.Kind`. -/
inductive SettingsKind
  | claude
  | agents
  | codex
  /-- A text that is no kind. -/
  | other (text : String)
  deriving DecidableEq, Repr

/-- `BranchPullSettings`. -/
structure BranchPullSettings where
  kind : SettingsKind
  hash : ContentHash
  deriving DecidableEq, Repr

/-- `BranchPullPlan`. -/
structure BranchPullPlan where
  version : Int
  repoID : ContentHash
  branch : String
  contextProtocol : Int
  selectedRef : Ref
  refs : List Ref
  history : List HistoryEvent
  snapshotIndex : List ContentHash
  snapshotStates : AList fun _ : ContentHash => ContentHash
  absentRoots : List ContentHash
  settingsObjects : List BranchPullSettings

/-- The fields of a `Repo` that a plan reads. -/
structure PullRepo where
  id : ContentHash
  contextProtocol : Int := 0
  deriving DecidableEq, Repr

/-- The hashes that a plan computes. -/
structure PullEnv where
  digest : Cli.Digest
  /-- `SnapshotStateHash`; the encoding it hashes does not fail. -/
  stateHash : Snapshot → ContentHash
  stateHash_valid : ∀ s, validContentHash (stateHash s) = true

/-- `if err != nil { return ErrIntegrity }`. -/
def asIntegrity {ε α : Type} : Except ε α → Except DomainError α
  | .ok a => .ok a
  | .error _ => .error { sentinel := .integrity }

@[simp] theorem asIntegrity_eq_ok {ε α : Type} {x : Except ε α} {a : α} :
    asIntegrity x = .ok a ↔ x = .ok a := by
  cases x <;> simp [asIntegrity]

/-- `if err != nil { return fmt.Errorf("%w: %v", ErrIntegrity, err) }`. -/
def wrapIntegrity {α : Type} : Except Cli.DomainError α → Except DomainError α
  | .ok a => .ok a
  | .error e => .error { sentinel := .integrity, format := "%v", args := e.format :: e.args }

@[simp] theorem wrapIntegrity_eq_ok {α : Type} {x : Except Cli.DomainError α} {a : α} :
    wrapIntegrity x = .ok a ↔ x = .ok a := by
  cases x <;> simp [wrapIntegrity]

/-! ### The refs -/

/-- `out.SelectedRef` and `out.Refs` in the first loop. -/
structure PickedRefs where
  selected : Option Ref := none
  lifecycle : List Ref := []
  deriving DecidableEq, Repr

/-- The branch ref of the request; a second one is an error. -/
def pickSelected (branch : String) (picked : PickedRefs) (ref : Ref) :
    Except DomainError PickedRefs :=
  if ref.kind = .branch ∧ ref.name = branch then do
    refuse (picked.selected.isSome = true) { sentinel := .integrity }
    .ok { picked with selected := some ref }
  else .ok picked

/-- Whether a parsed tag is a lifecycle event of the branch. -/
def ofBranch (branch : String) (event : Option BranchLifecycleEvent) : Bool :=
  event.any fun e => e.branch = branch

/-- The lifecycle tags of the branch. -/
def pickLifecycle (branch : String) (picked : PickedRefs) (ref : Ref) :
    Except DomainError PickedRefs := do
  let event ← asIntegrity (parseBranchLifecycleRef ref)
  .ok (if ofBranch branch event then { picked with lifecycle := picked.lifecycle ++ [ref] }
    else picked)

/-- One turn of the first loop. -/
def pickRef (repo : ContentHash) (branch : String) (picked : PickedRefs) (ref : Ref) :
    Except DomainError PickedRefs := do
  refuse (ref.repoID ≠ repo) { sentinel := .integrity }
  asIntegrity (validateRef ref)
  let picked ← pickSelected branch picked ref
  pickLifecycle branch picked ref

/-- The error for a branch that has no ref. -/
def absentBranch (latest : Option BranchLifecycleEvent) : DomainError :=
  if latest.any (fun e => e.state = .archived) then { sentinel := .branchArchived }
  else { sentinel := .notFound }

/-- The checks on the selected ref. -/
def selectRef (branch : String) (picked : PickedRefs) : Except DomainError Ref := do
  let latest ← asIntegrity (Cli.latestBranchLifecycle picked.lifecycle branch)
  match picked.selected with
  | none => .error (absentBranch latest)
  | some ref => do
      refuse (ref.target = "") (absentBranch latest)
      refuse (ref.symbolic ≠ "") { sentinel := .integrity }
      refuse (ref.branchID = "" ∧ hides latest ref.target = true) { sentinel := .branchArchived }
      .ok ref

/-- `out.Refs`. -/
def planRefs (picked : PickedRefs) (selected : Ref) : List Ref :=
  sortOn Ref.name (picked.lifecycle ++ [selected])

/-! ### The history -/

/-- The publication check of `ValidateHistoryEvent`, which the client makes after the check of the
kind and the server between those of a continuation and an orphan. -/
def validatePublication (e : HistoryEvent) : Except Cli.DomainError Unit :=
  refuse (e.kind = .publish ∧ (e.source = "" ∨ e.source ≠ e.target ∨ e.gitAfter = "" ∨
      Cli.isLower e.gitAfter = false ∨ Cli.allZero e.gitAfter = true))
    (Cli.plain "publication requires one finalized context and a full nonzero Git revision")

/-- `ValidateHistoryEvent` of the server.  Its callers here drop the error. -/
def validateHistoryEvent (e : HistoryEvent) : Except Cli.DomainError Unit := do
  Cli.validateGitCreation e
  refuse (Cli.lowerHex 32 e.id = false) (Cli.plain "invalid history operation ID")
  refuse (e.branchID = "" ∨ 128 < e.branchID.utf8ByteSize)
    (Cli.plain "invalid context branch identity")
  Cli.validateContentHash e.repoID
  onlyIf (e.branch ≠ "" ∨ e.kind ≠ .position) (Cli.validateBranchName e.branch)
  refuse (e.kind ∉ [.birth, .attach, .orphan, .position, .publish, .advance, .rename, .archive,
    .prMerge]) (Cli.plain "invalid history event kind")
  refuse (e.recoveryEvidence ≠ "" ∧ (e.kind ≠ .orphan ∨
      e.recoveryEvidence ≠ "user-confirmed-unborn-head")) (Cli.plain "invalid recovery evidence")
  Cli.validatePR e
  onlyIf (e.localBranch ≠ "") (Cli.validateBranchName e.localBranch)
  Cli.validateRename e
  refuse (e.memorySelectionParent ≠ "" ∧ (e.kind ≠ .position ∨ e.target = "" ∨
      e.source ≠ e.target ∨ e.memoryPinned = false ∨ e.memoryHash = "" ∨
      (e.memorySource ≠ "" ∧ e.memorySource ≠ e.target) ∨ e.worktreeID = "" ∨
      Cli.validGitOID e.gitAfter = false)) (Cli.plain "invalid initial memory selection")
  checkAll (fun parent =>
    refuse (Cli.lowerHex 32 parent = false ∨ parent = e.id)
      (Cli.plain "invalid branch dependency")) (historyDependencies e)
  refuse (e.createdAt = 0) (Cli.plain "missing history event time")
  checkAll Cli.validateOptionalContentHash
    [e.source, e.target, e.sharedTarget, e.memorySource, e.memoryHash]
  checkAll (fun oid =>
    refuse (oid ≠ "" ∧ (Cli.oidLength oid = false ∨ Cli.hexText oid = false))
      (Cli.plain "invalid Git object ID")) [e.gitBefore, e.gitAfter]
  refuse (e.worktreeID ≠ "" ∧ Cli.lowerHex 32 e.worktreeID = false)
    (Cli.plain "invalid worktree identity")
  refuse (e.kind = .advance ∧ (e.source = "" ∨ e.target = ""))
    (Cli.plain "continuation requires both previous and current context")
  validatePublication e
  refuse (e.kind = .orphan ∧ (e.source ≠ "" ∨ e.target ≠ ""))
    (Cli.plain "orphan creation cannot inherit conversation ancestry")

/-- The check of one event of the history. -/
def checkPullEvent (repo : ContentHash) (e : HistoryEvent) : Except DomainError Unit := do
  refuse (e.repoID ≠ repo) { sentinel := .integrity }
  asIntegrity (validateHistoryEvent e)

/-- The identity of the selected ref. -/
def pullIdentity (d : Cli.Digest) (repo : ContentHash) (branch : String) (ref : Ref) : String :=
  if ref.branchID = "" then legacyContextBranchID d repo branch else ref.branchID

/-- The name is bound to another identity, or was given up. -/
def boundElsewhere (d : Cli.Digest) (p : ContextBranchProjection) (repo branch identity : String) :
    Bool :=
  match p.active branch with
  | some active => decide (active.id ≠ identity)
  | none => decide (p.releasedBy branch ≠ "" ∨ identity ≠ legacyContextBranchID d repo branch)

/-- `branchPullPinnedEvent`. -/
def branchPullPinnedEvent (e : HistoryEvent) : Bool :=
  e.memoryPinned && decide (e.target ≠ "") &&
    decide (e.kind ∈ [.birth, .attach, .orphan, .position, .advance])

/-- `sourcePin`. -/
structure SourcePin where
  identity : String
  code : String
  target : ContentHash
  deriving DecidableEq, Repr

/-- The key under which a pinned event is found. -/
def pinOf (e : HistoryEvent) : SourcePin := ⟨e.branchID, e.gitAfter, e.target⟩

/-- The key that a completed pull request looks up; a valid one has its record. -/
def sourceOf (e : HistoryEvent) : SourcePin :=
  ⟨e.sourceBranchID, (e.pr.map (·.headSHA)).getD "", e.source⟩

/-- A completed pull request of the selected identity. -/
def completes (identity : String) (e : HistoryEvent) : Bool :=
  decide (e.branchID = identity ∧ e.kind = .prMerge) && e.prCompleted

/-- The events that are wanted for themselves. -/
def wantedEvent (identity branch : String) (e : HistoryEvent) : Bool :=
  decide (e.branchID = identity) ||
    isBranchBindingEvent e && decide (e.branch = branch ∨ e.previousBranch = branch)

/-- `sources[pin]`. -/
def pinsAt (ordered : List HistoryEvent) (pin : SourcePin) : List String :=
  (ordered.filter fun e => branchPullPinnedEvent e && decide (pinOf e = pin)).map HistoryEvent.id

/-- The pins of one completed pull request. -/
def sourcePins (ordered : List HistoryEvent) (e : HistoryEvent) :
    Except DomainError (List String) := do
  let pins := pinsAt ordered (sourceOf e)
  refuse (pins = []) { sentinel := .integrity, format := "completed PR source pin missing" }
  .ok pins

/-- `HistoryDependencies(byEvent[id])`. -/
def dependenciesOf (ordered : List HistoryEvent) (id : String) : List String :=
  match ordered.find? fun e => e.id = id with
  | some e => historyDependencies e
  | none => []

/-- `wanted` after the queue is empty. -/
def wantedIDs (ordered : List HistoryEvent) (starts : List String) : List String :=
  Worklist.reach (dependenciesOf ordered) (fun _ => false) (ordered.map HistoryEvent.id) starts

/-- `out.History`. -/
def scopeHistory (identity branch : String) (ordered : List HistoryEvent) :
    Except DomainError (List HistoryEvent) := do
  let pins ← (ordered.filter (completes identity)).mapM (sourcePins ordered)
  let starts := (ordered.filter (wantedEvent identity branch)).map HistoryEvent.id ++ pins.flatten
  let wanted := wantedIDs ordered starts
  .ok (ordered.filter fun e => e.id ∈ wanted)

/-- `p.Active[name]`, with the zero value for an absent key. -/
def activeAt (p : ContextBranchProjection) (name : String) : ContextBranch :=
  (p.active name).getD { id := "", name := "" }

/-- The scoped history binds the name as the whole history does. -/
def checkScope (d : Cli.Digest) (branch : String) (projection : ContextBranchProjection)
    (scope : List HistoryEvent) : Except DomainError Unit := do
  let inScope ← asIntegrity (projectContextBranches d scope)
  refuse (activeAt inScope branch ≠ activeAt projection branch ∨
    inScope.releasedBy branch ≠ projection.releasedBy branch) { sentinel := .integrity }

/-! ### The snapshots -/

/-- `byID`: one snapshot for each id. -/
def mapSnapshots (repo : ContentHash) :
    List Snapshot → List Snapshot → Except DomainError (List Snapshot)
  | acc, [] => .ok acc
  | acc, s :: l => do
      refuse (s.repoID ≠ repo ∨ validContentHash s.id = false) { sentinel := .integrity }
      refuse (∃ old ∈ acc, old.id = s.id ∧ old ≠ s) { sentinel := .integrity }
      mapSnapshots repo (if s ∈ acc then acc else acc ++ [s]) l

/-- The snapshots that an event names. -/
def eventRoots (e : HistoryEvent) : List ContentHash :=
  [e.source, e.target, e.sharedTarget, e.memorySource]

/-- The observation roots that are present. -/
def presentRoots (index : List Snapshot) (request : BranchPullRequest) : List ContentHash :=
  (freshFrom [] request.observationRoots).filter fun id => (byID index id).isSome

/-- The observation roots that are absent. -/
def absentRoots (index : List Snapshot) (request : BranchPullRequest) : List ContentHash :=
  (freshFrom [] request.observationRoots).filter fun id => (byID index id).isNone

/-- `roots`. -/
def pullRoots (index : List Snapshot) (request : BranchPullRequest) (selected : Ref)
    (refs : List Ref) (history : List HistoryEvent) : List ContentHash :=
  selected.target :: refs.map Ref.target ++ history.flatMap eventRoots ++
    presentRoots index request

/-- `out.SnapshotStates` and `settings` in the visit. -/
structure Inventory where
  states : AList fun _ : ContentHash => ContentHash := ∅
  settings : AList fun _ : ContentHash => SettingsKind := ∅

/-- One turn of the settings loop. -/
def addSetting (settings : AList fun _ : ContentHash => SettingsKind)
    (setting : BranchPullSettings) :
    Except DomainError (AList fun _ : ContentHash => SettingsKind) :=
  if setting.hash = "" then .ok settings
  else do
    asIntegrity (validateContentHash setting.hash)
    refuse ((settings.lookup setting.hash).any (fun kind => kind ≠ setting.kind) = true)
      { sentinel := .integrity }
    .ok (settings.insert setting.hash setting.kind)

/-- The settings of a snapshot. -/
def settingsOf (s : Snapshot) : List BranchPullSettings :=
  [⟨.claude, s.claudeSettings⟩, ⟨.agents, s.agentsSettings⟩, ⟨.codex, s.codexSettings⟩]

/-- The error of a snapshot that cannot be entered. -/
def badSnapshot (id : ContentHash) : DomainError :=
  { sentinel := .integrity, format := "invalid or missing snapshot dependency %s", args := [id] }

/-- Enter a snapshot. -/
def enterSnapshot (index : List Snapshot) (id : ContentHash) :
    Except DomainError (List ContentHash) :=
  match byID index id with
  | none => .error (badSnapshot id)
  | some s => do
      refuse (s.docHash ≠ id ∨ (s.memoryHash ≠ "" ∧ validContentHash s.memoryHash = false) ∨
        maxGraftSeq < s.graftSeq) (badSnapshot id)
      .ok s.reachabilityParents

/-- Leave a snapshot that was entered. -/
def leaveSnapshot (env : PullEnv) (index : List Snapshot) (inventory : Inventory)
    (id : ContentHash) : Except DomainError Inventory :=
  match byID index id with
  | none => .error (badSnapshot id)
  | some s => do
      let settings ← (settingsOf s).foldlM addSetting inventory.settings
      .ok { settings := settings, states := inventory.states.insert id (env.stateHash s) }

/-- `visit`. -/
def pullVisitor (env : PullEnv) (index : List Snapshot) :
    PostOrder.Visitor ContentHash Inventory DomainError where
  skip id := decide (id = "")
  enter := enterSnapshot index
  check p := asIntegrity (validateContentHash p)
  leave := leaveSnapshot env index
  cyclic := { sentinel := .integrity, format := "cyclic snapshot dependency" }

/-- Visit the roots.  The path of the visit holds different snapshots of the index. -/
def visitRoots (env : PullEnv) (index : List Snapshot) (roots : List ContentHash) :
    Except DomainError (PostOrder.Progress ContentHash Inventory) :=
  PostOrder.visitAll (pullVisitor env index) (index.length + 1) roots {}

/-- `out.SettingsObjects`. -/
def settingsObjects (settings : AList fun _ : ContentHash => SettingsKind) :
    List BranchPullSettings :=
  sortOn BranchPullSettings.hash (settings.entries.map fun entry => ⟨entry.2, entry.1⟩)

/-! ### The plan -/

/-- The plan of a request. -/
def pullPlan (repo : PullRepo) (request : BranchPullRequest) (selected : Ref) (refs : List Ref)
    (history : List HistoryEvent) (index : List Snapshot)
    (progress : PostOrder.Progress ContentHash Inventory) : BranchPullPlan where
  version := branchPullVersion
  repoID := repo.id
  branch := request.branch
  contextProtocol := repo.contextProtocol
  selectedRef := selected
  refs := refs
  history := history
  snapshotIndex := sortOn id progress.done
  snapshotStates := progress.state.states
  absentRoots := sortOn id (absentRoots index request)
  settingsObjects := settingsObjects progress.state.settings

/-- `SelectBranchPullDependencies`. -/
def selectBranchPullDependencies (env : PullEnv) (repo : PullRepo) (request : BranchPullRequest)
    (refs : List Ref) (history : List HistoryEvent) (snapshots : List Snapshot) :
    Except DomainError BranchPullPlan := do
  request.validate
  refuse (validContentHash repo.id = false ∨
      (repo.contextProtocol ≠ 0 ∧ repo.contextProtocol ≠ 1)) { sentinel := .integrity }
  let picked ← refs.foldlM (pickRef repo.id request.branch) {}
  let selected ← selectRef request.branch picked
  checkAll (checkPullEvent repo.id) history
  let ordered ← wrapIntegrity (orderHistoryEvents history)
  let projection ← wrapIntegrity (projectContextBranches env.digest ordered)
  let identity := pullIdentity env.digest repo.id request.branch selected
  refuse (boundElsewhere env.digest projection repo.id request.branch identity = true)
    { sentinel := .refConflict }
  let scope ← scopeHistory identity request.branch ordered
  checkScope env.digest request.branch projection scope
  let index ← mapSnapshots repo.id [] snapshots
  let progress ← visitRoots env index
    (pullRoots index request selected (planRefs picked selected) scope)
  .ok (pullPlan repo request selected (planRefs picked selected) scope index progress)

end Backend
end CxtHub
