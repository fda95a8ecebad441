/-
# History events and the branches they bind

`cli/internal/domain/history.go`, `git_creation.go`, `context_branch.go` and the pull
request record of `pull_request.go`.

An event has an id of its own, so that repeating an operation repeats its event.
Births, orphans, renames and archives bind names to branch identities;
`ProjectContextBranches` replays them in dependency order.  Events come from a map
there, so the order in which it reports two defects of one history is not fixed; the
model reports them in the order of the list.

Identities are derived from texts by the first sixteen bytes of SHA-256.  `Digest` is
such a function: all that is known of it is that it prints 32 hexadecimal digits.
-/

import CxtHub.Cli.Values

namespace CxtHub
namespace Cli

open Backend (ContentHash)

/-- The first sixteen bytes of a hash, in hexadecimal. -/
structure Digest where
  hash : String → String
  hex : ∀ text, lowerHex 32 (hash text) = true

/-- `HistoryEvent.Kind`. -/
inductive EventKind
  | birth
  | attach
  | orphan
  | position
  | publish
  | advance
  | rename
  | archive
  | prMerge
  /-- A text that is no kind. -/
  | other (text : String)
  deriving DecidableEq, Repr

/-- `GitCreation`. -/
structure GitCreation where
  evidence : String
  command : List String := []
  startRef : String := ""
  startCommit : String := ""
  originBranch : String := ""
  originBranchID : String := ""
  deriving DecidableEq, Repr

/-- `PullRequestMerge`. -/
structure PullRequestMerge where
  number : Int
  baseBranch : String
  headBranch : String
  headSHA : String
  mergeSHA : String
  deriving DecidableEq, Repr

/-- `HistoryEvent`; instants are numbers, `0` the zero time. -/
structure HistoryEvent where
  creation : Option GitCreation := none
  prCompleted : Bool := false
  recoveryEvidence : String := ""
  pr : Option PullRequestMerge := none
  sourceBranchID : String := ""
  id : String
  repoID : String
  branchID : String
  branch : String
  kind : EventKind
  localBranch : String := ""
  previousBranch : String := ""
  bindingParent : String := ""
  nameParent : String := ""
  memorySelectionParent : String := ""
  source : ContentHash := ""
  target : ContentHash := ""
  sharedTarget : ContentHash := ""
  memorySource : ContentHash := ""
  memoryHash : ContentHash := ""
  memoryPinned : Bool := false
  gitBefore : String := ""
  gitAfter : String := ""
  worktreeID : String := ""
  createdAt : ℕ
  deriving DecidableEq, Repr

/-! ### Validation -/

/-- What `validateCreationCommand` collects from the arguments. -/
structure CreationArgs where
  target : String := ""
  orphan : Bool := false
  track : Bool := false
  positional : List String := []

/-- The argument loop of `validateCreationCommand`. -/
def scanCreationArgs (op : String) :
    CreationArgs → List String → Except DomainError CreationArgs
  | acc, [] => .ok acc
  | acc, v :: rest =>
      if v ∈ ["-b", "-B", "-c", "-C", "--create", "--force-create", "--orphan"] then
        if op = "branch" ∨ acc.target ≠ "" then .error (plain "invalid creation arguments")
        else match rest with
          | [] => .error (plain "invalid creation arguments")
          | t :: rest =>
              scanCreationArgs op { acc with target := t, orphan := decide (v = "--orphan") } rest
      else if v ∈ ["--track", "-t", "--track=direct"] then
        scanCreationArgs op { acc with track := true } rest
      else if v ∈ ["--track=inherit", "--no-track", "--no-guess", "-q", "--quiet"] then
        scanCreationArgs op acc rest
      else if hasPrefix v "-" then .error (plain "unsupported creation argument")
      else scanCreationArgs op { acc with positional := acc.positional ++ [v] } rest

/-- The arguments after `add` of a worktree command. -/
def worktreeArgs (op : String) (args : List String) : Except DomainError (List String) :=
  if op = "worktree" then
    match args with
    | "add" :: rest => .ok rest
    | _ => .error (plain "invalid worktree creation")
  else .ok args

/-- Drop the path of a worktree command, and take the target of a branch command. -/
def creationTarget (op : String) (a : CreationArgs) : Except DomainError CreationArgs :=
  if op = "worktree" then
    match a.positional with
    | "<worktree>" :: rest => .ok { a with positional := rest }
    | _ => .error (plain "worktree path must be redacted")
  else if op = "branch" then
    match a.positional with
    | t :: rest => .ok { a with target := t, positional := rest }
    | [] => .error (plain "missing created branch")
  else .ok a

/-- `validateCreationCommand`, on a command that has its first two words. -/
def validateCreationCommand (e : HistoryEvent) (c : GitCreation) (op : String)
    (args : List String) : Except DomainError Unit := do
  let args ← worktreeArgs op args
  let scanned ← scanCreationArgs op {} args
  let a ← creationTarget op scanned
  let want := if e.localBranch ≠ "" then e.localBranch else e.branch
  let tracked := match a.positional with
    | [start] => hasSuffix start ("/" ++ want)
    | _ => false
  let target := if a.target = "" ∧ a.track = true ∧ tracked = true then want else a.target
  refuse (1 < a.positional.length) (plain "ambiguous creation start")
  let start := a.positional.headD "HEAD"
  refuse (target ≠ want ∨ start ≠ c.startRef ∨ a.orphan ≠ decide (e.kind = .orphan))
    (plain "command disagrees with recorded branch or start")

/-- The checks of `ValidateGitCreation` on recorded process arguments. -/
def validateProcessArgs (e : HistoryEvent) (c : GitCreation) : Except DomainError Unit := do
  refuse (c.command.length < 3 ∨ 12 < c.command.length ∨ c.command.head? ≠ some "git" ∨
      c.startRef = "") (plain "invalid creation command")
  match c.command with
  | _ :: op :: args =>
      if op ∈ ["checkout", "switch", "branch", "worktree"] then
        validateCreationCommand e c op args
      else .error (plain "invalid creation operation")
  | _ => .error (plain "invalid creation command")

/-- The start commit that `ValidateGitCreation` compares. -/
def validateStartCommit (e : HistoryEvent) (c : GitCreation) : Except DomainError Unit :=
  if c.startCommit = "" then .ok ()
  else do
    refuse (oidLength c.startCommit = false ∨ hexText c.startCommit = false)
      (plain "invalid creation commit")
    let expected := if e.kind = .orphan then e.gitBefore else e.gitAfter
    refuse (c.startCommit ≠ expected ∧
        ¬ (e.kind = .orphan ∧ c.evidence = "process-argv" ∧ c.startRef ≠ "HEAD"))
      (plain "creation start commit differs from Git transaction")

/-- A creation argument that may not be recorded. -/
def badCreationArg (value : String) : Bool :=
  decide (512 < value.utf8ByteSize) ||
    (bytesOf value).any (fun b => b == 0 || b == byteOf '\r' || b == byteOf '\n') ||
    containsText value "://"

/-- `ValidateGitCreation` on an event with a creation record. -/
def validateCreation (e : HistoryEvent) (c : GitCreation) : Except DomainError Unit := do
  refuse (e.kind ≠ .birth ∧ e.kind ≠ .orphan ∧ e.kind ≠ .attach)
    (plain "creation evidence requires branch creation")
  refuse (c.evidence ≠ "process-argv" ∧ c.evidence ≠ "unavailable")
    (plain "invalid creation evidence source")
  refuse (c.evidence = "unavailable" ∧ (0 < c.command.length ∨ c.startRef ≠ "" ∨
      c.originBranch ≠ "" ∨ c.originBranchID ≠ ""))
    (plain "unknown creation must not claim command or origin")
  onlyIf (c.evidence = "process-argv") (validateProcessArgs e c)
  checkAll (fun value => refuse (badCreationArg value = true) (plain "invalid creation argument"))
    (c.command ++ [c.startRef, c.originBranch, c.originBranchID])
  refuse (decide (c.originBranch = "") ≠ decide (c.originBranchID = ""))
    (plain "incomplete origin identity")
  onlyIf (c.originBranch ≠ "") (validateBranchName c.originBranch)
  refuse (c.evidence = "process-argv" ∧ e.gitAfter ≠ "" ∧ c.startCommit = "")
    (plain "creation commit is missing")
  validateStartCommit e c

/-- `ValidateGitCreation`. -/
def validateGitCreation (e : HistoryEvent) : Except DomainError Unit :=
  match e.creation with
  | none => .ok ()
  | some c => validateCreation e c

/-- `PullRequestMerge.Validate`. -/
def PullRequestMerge.validate (p : PullRequestMerge) : Except DomainError Unit := do
  refuse (p.number ≤ 0 ∨ p.baseBranch = p.headBranch) (plain "invalid pull request identity")
  checkAll validateBranchName [p.baseBranch, p.headBranch]
  checkAll (fun sha => do
    refuse (oidLength sha = false ∨ isLower sha = false)
      (plain "PR promotion requires full Git object IDs")
    refuse (hexText sha = false) (plain "invalid PR Git object ID")) [p.headSHA, p.mergeSHA]

/-- The pull request checks of `ValidateHistoryEvent`. -/
def validatePR (e : HistoryEvent) : Except DomainError Unit :=
  if e.kind = .prMerge then
    match e.pr with
    | none => .error (plain "invalid PR context binding")
    | some pr => do
        refuse (e.sourceBranchID = "" ∨ 128 < e.sourceBranchID.utf8ByteSize ∨ e.source = "" ∨
            e.target = "" ∨ (e.prCompleted = false ∧
              (e.target ≠ e.source ∨ e.branch ≠ pr.baseBranch)))
          (plain "invalid PR context binding")
        pr.validate
  else
    refuse (e.pr ≠ none ∨ e.sourceBranchID ≠ "" ∨ e.prCompleted = true)
      (plain "unexpected PR metadata")

/-- The rename checks of `ValidateHistoryEvent`. -/
def validateRename (e : HistoryEvent) : Except DomainError Unit :=
  if e.kind = .rename then do
    validateBranchName e.previousBranch
    refuse (e.previousBranch = e.branch) (plain "rename requires distinct names")
  else refuse (e.previousBranch ≠ "" ∨ e.nameParent ≠ "") (plain "unexpected rename metadata")

/-- `HistoryDependencies`. -/
def historyDependencies (e : HistoryEvent) : List String :=
  freshFrom [""] [e.bindingParent, e.nameParent, e.memorySelectionParent]

/-- `ValidateHistoryEvent`. -/
def validateHistoryEvent (e : HistoryEvent) : Except DomainError Unit := do
  validateGitCreation e
  refuse (lowerHex 32 e.id = false) (plain "invalid history operation ID")
  refuse (e.branchID = "" ∨ 128 < e.branchID.utf8ByteSize)
    (plain "invalid context branch identity")
  validateContentHash e.repoID
  onlyIf (e.branch ≠ "" ∨ e.kind ≠ .position) (validateBranchName e.branch)
  refuse (e.kind ∉ [.birth, .attach, .orphan, .position, .publish, .advance, .rename, .archive,
    .prMerge]) (plain "invalid history event kind")
  refuse (e.kind = .publish ∧ (e.target = "" ∨ e.source ≠ e.target ∨ e.gitAfter = "" ∨
      isLower e.gitAfter = false ∨ allZero e.gitAfter = true))
    (plain "publication requires an exact Git revision and source target")
  refuse (e.recoveryEvidence ≠ "" ∧ (e.kind ≠ .orphan ∨
      e.recoveryEvidence ≠ "user-confirmed-unborn-head")) (plain "invalid recovery evidence")
  validatePR e
  onlyIf (e.localBranch ≠ "") (validateBranchName e.localBranch)
  validateRename e
  refuse (e.memorySelectionParent ≠ "" ∧ (e.kind ≠ .position ∨ e.target = "" ∨
      e.source ≠ e.target ∨ e.memoryPinned = false ∨ e.memoryHash = "" ∨
      (e.memorySource ≠ "" ∧ e.memorySource ≠ e.target) ∨ e.worktreeID = "" ∨
      validGitOID e.gitAfter = false)) (plain "invalid initial memory selection")
  checkAll (fun parent =>
    refuse (lowerHex 32 parent = false ∨ parent = e.id) (plain "invalid branch dependency"))
    (historyDependencies e)
  refuse (e.createdAt = 0) (plain "missing history event time")
  checkAll validateOptionalContentHash
    [e.source, e.target, e.sharedTarget, e.memorySource, e.memoryHash]
  checkAll (fun oid =>
    refuse (oid ≠ "" ∧ (oidLength oid = false ∨ hexText oid = false))
      (plain "invalid Git object ID")) [e.gitBefore, e.gitAfter]
  refuse (e.worktreeID ≠ "" ∧ lowerHex 32 e.worktreeID = false)
    (plain "invalid worktree identity")
  refuse (e.kind = .advance ∧ (e.source = "" ∨ e.target = ""))
    (plain "continuation requires both previous and current context")
  refuse (e.kind = .orphan ∧ (e.source ≠ "" ∨ e.target ≠ ""))
    (plain "orphan creation cannot inherit conversation ancestry")

/-- A valid event has an id. -/
theorem id_ne_empty_of_valid {e : HistoryEvent} (h : validateHistoryEvent e = .ok ()) :
    e.id ≠ "" := by
  simp only [validateHistoryEvent, bind_eq_ok, refuse_eq_ok, exists_unit_iff] at h
  rintro heq
  rw [heq] at h
  exact h.2.1 (by decide)

/-! ### Branch bindings -/

/-- `ContextBranch`. -/
structure ContextBranch where
  id : String
  name : String
  eventID : String := ""
  archived : Bool := false
  deriving DecidableEq, Repr

/-- `ContextBranchProjection`. -/
structure ContextBranchProjection where
  active : String → Option ContextBranch := fun _ => none
  byID : String → Option ContextBranch := fun _ => none
  released : String → Option String := fun _ => none

/-- `LegacyContextBranchID`. -/
def legacyContextBranchID (d : Digest) (repo name : String) : String :=
  "legacy-" ++ d.hash (repo ++ "\x00" ++ name)

/-- `IsBranchBindingEvent`. -/
def isBranchBindingEvent (e : HistoryEvent) : Bool :=
  decide (e.kind ∈ [.birth, .orphan, .rename, .archive])

/-- The order of `historyQueue`. -/
def observedBefore (a b : HistoryEvent) : Bool :=
  if a.createdAt = b.createdAt then decide (a.id < b.id) else decide (a.createdAt < b.createdAt)

/-- The least element of `historyQueue`. -/
def earliest : List HistoryEvent → Option HistoryEvent
  | [] => none
  | e :: l =>
      match earliest l with
      | none => some e
      | some f => if observedBefore e f then some e else some f

/-- The events of `rest` whose dependencies are all among `done`. -/
def readyEvents (done : List String) (rest : List HistoryEvent) : List HistoryEvent :=
  rest.filter fun e => (historyDependencies e).all fun d => done.contains d

/-- The loop of `OrderHistoryEvents`: the earliest ready event comes next. -/
def orderFrom : ℕ → List HistoryEvent → List HistoryEvent → List HistoryEvent
  | 0, done, _ => done
  | fuel + 1, done, rest =>
      match earliest (readyEvents (done.map HistoryEvent.id) rest) with
      | none => done
      | some e => orderFrom fuel (done ++ [e]) (rest.filter fun f => f.id ≠ e.id)

/-- `byID` of `OrderHistoryEvents`: one event for each id. -/
def indexEvents : List HistoryEvent → List HistoryEvent → Except DomainError (List HistoryEvent)
  | acc, [] => .ok acc
  | acc, e :: l => do
      refuse (∃ old ∈ acc, old.id = e.id ∧ old ≠ e)
        { sentinel := .plain, format := "conflicting history operation %s", args := [e.id] }
      indexEvents (if e ∈ acc then acc else acc ++ [e]) l

/-- `OrderHistoryEvents`. -/
def orderHistoryEvents (events : List HistoryEvent) : Except DomainError (List HistoryEvent) := do
  let byID ← indexEvents [] events
  checkAll (fun e => checkAll (fun parent =>
    refuse (parent ∉ byID.map HistoryEvent.id)
      { sentinel := .plain, format := "missing history dependency %s", args := [parent] })
    (historyDependencies e)) byID
  let out := orderFrom byID.length [] byID
  refuse (out.length ≠ byID.length) (plain "cyclic history dependency")
  .ok out

/-- The error of `ContextBranchProjection.apply`. -/
def identityConflict (e : HistoryEvent) : DomainError :=
  { sentinel := .plain, format := "context branch identity conflict for %q (%s)"
    args := [e.branch, e.id] }

/-- `p.Released[name]`, with the zero value for an absent key. -/
def ContextBranchProjection.releasedBy (p : ContextBranchProjection) (name : String) : String :=
  (p.released name).getD ""

/-- `apply` of a birth or an orphan. -/
def ContextBranchProjection.bear (p : ContextBranchProjection) (e : HistoryEvent) :
    Except DomainError ContextBranchProjection := do
  refuse ((p.byID e.branchID).isSome = true ∨ (p.active e.branch).isSome = true ∨
    p.releasedBy e.branch ≠ e.bindingParent) (identityConflict e)
  let b : ContextBranch := { id := e.branchID, name := e.branch, eventID := e.id }
  .ok { p with active := Function.update p.active b.name (some b)
               byID := Function.update p.byID b.id (some b) }

/-- The branch that a rename or an archive finds. -/
def ContextBranchProjection.known (p : ContextBranchProjection) (d : Digest) (e : HistoryEvent)
    (oldName : String) : Except DomainError ContextBranch :=
  match p.byID e.branchID with
  | some b => .ok b
  | none => do
      refuse (e.bindingParent ≠ "" ∨ p.releasedBy oldName ≠ "" ∨
        e.branchID ≠ legacyContextBranchID d e.repoID oldName ∨
        (p.active oldName).any (fun b => decide (b.id ≠ e.branchID)) = true) (identityConflict e)
      .ok { id := e.branchID, name := oldName }

/-- `ContextBranchProjection.apply`. -/
def ContextBranchProjection.apply (p : ContextBranchProjection) (d : Digest) (e : HistoryEvent) :
    Except DomainError ContextBranchProjection :=
  if e.kind = .birth ∨ e.kind = .orphan then p.bear e
  else do
    let oldName := if e.kind = .rename then e.previousBranch else e.branch
    let b ← p.known d e oldName
    refuse (b.archived = true ∨ b.eventID ≠ e.bindingParent ∨ b.name ≠ oldName)
      (identityConflict e)
    refuse (e.kind = .rename ∧ ((p.active e.branch).isSome = true ∨
      p.releasedBy e.branch ≠ e.nameParent)) (identityConflict e)
    let archived := decide (e.kind = .archive)
    let next : ContextBranch :=
      { b with eventID := e.id, archived := archived
               name := if archived then b.name else e.branch }
    let cleared := Function.update p.active oldName none
    .ok { active := if archived then cleared else Function.update cleared next.name (some next)
          byID := Function.update p.byID b.id (some next)
          released := Function.update p.released oldName (some e.id) }

/-- The replay loop of `ProjectContextBranches`. -/
def replay (d : Digest) : ContextBranchProjection → List HistoryEvent →
    Except DomainError ContextBranchProjection
  | p, [] => .ok p
  | p, e :: l => p.apply d e >>= fun p => replay d p l

/-- `ProjectContextBranches`. -/
def projectContextBranches (d : Digest) (events : List HistoryEvent) :
    Except DomainError ContextBranchProjection := do
  let ordered ← orderHistoryEvents (events.filter isBranchBindingEvent)
  replay d {} ordered

/-- `ContextBranchProjection.Identity`. -/
def ContextBranchProjection.identity (p : ContextBranchProjection) (d : Digest)
    (repo name : String) : String :=
  match p.active name with
  | some b => b.id
  | none => legacyContextBranchID d repo name

end Cli
end CxtHub
