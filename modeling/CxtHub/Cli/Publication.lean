/-
# Selected publication

`cli/internal/domain/publication_plan.go`, `publication_groups.go` and
`publication_projection.go`.  `PlanPublication` selects the history events and refs that a
push of some branches sends: the pending events of those branches, and what they depend on.

A visit of an event sends its dependencies first.  An event that was created from another
branch needs a witness of that branch; the candidates are tried in turn, and what a
rejected one has sent is taken back.  The events sent are a list in the order in which they
were added, with the edges of each; the source has maps, which it sorts before use.

Times are numbers.  A catalog maps the ids of its events, which come once each in `all`.
-/

import CxtHub.Cli.Records
import CxtHub.Lib.Attempt
import CxtHub.Lib.Sorted
import CxtHub.Lib.Worklist

namespace CxtHub
namespace Cli

open Backend (ContentHash Ref)

/-! ### Inputs and plans -/

/-- `PublicationBranch`. -/
structure PublicationBranch where
  branch : String
  branchID : String
  deriving DecidableEq, Repr

/-- `PublicationScope`. -/
structure PublicationScope where
  branches : List PublicationBranch := []
  historyOnly : Bool := false
  expectedTargets : List (String × ContentHash) := []
  deriving DecidableEq, Repr

/-- `PublicationPlanInput`. -/
structure PublicationPlanInput where
  repoID : String
  contextProtocol : Int
  ref : String := ""
  scope : PublicationScope
  refs : List Ref
  history : List HistoryEvent
  accepted : List HistoryEvent
  snapshots : List Snapshot
  deriving DecidableEq, Repr

/-- `PublicationPlan`. -/
structure PublicationPlan where
  authority : List PublicationBranch
  historyToSend : List HistoryEvent
  refsToPush : List Ref
  snapshotRoots : List ContentHash
  deriving DecidableEq, Repr

/-- `PublicationBlockedError`. -/
def publicationBlocked (eventID dependencyID branchID reason : String) : DomainError :=
  { sentinel := .syncConflict, format := "publication %s requires %s (%s): %s"
    args := [eventID, dependencyID, branchID, reason] }

/-- `fmt.Errorf("event %s: %w", id, err)`. -/
def inEvent (id : String) (err : DomainError) : DomainError :=
  { err with format := "event %s: " ++ err.format, args := id :: err.args }

/-- `fmt.Errorf("%w: …", ErrSyncConflict, …)`. -/
def conflicting (format : String) (args : List String) : DomainError :=
  { sentinel := .syncConflict, format, args }

/-- `fmt.Errorf("%w: %v", ErrSyncConflict, err)`. -/
def asConflict {α : Type} : Except DomainError α → Except DomainError α
  | .ok a => .ok a
  | .error err => .error (conflicting err.format err.args)

/-- The time of an event, and its id. -/
def byTime (e : HistoryEvent) : ℕ ×ₗ String := toLex (e.createdAt, e.id)

/-! ### The catalog -/

/-- `publicationCatalog`. -/
structure PublicationCatalog where
  all : List HistoryEvent
  accepted : List String
  pending : List HistoryEvent

/-- `c.byID[id]`. -/
def PublicationCatalog.byID (c : PublicationCatalog) (id : String) : Option HistoryEvent :=
  c.all.find? fun e => e.id = id

/-- The loop over a batch of `indexPublicationHistory`. -/
def indexBatch (repo : String) : List HistoryEvent → List HistoryEvent →
    Except DomainError (List HistoryEvent)
  | all, [] => .ok all
  | all, e :: rest => do
      refuse (e.repoID ≠ repo) (bare .hashMismatch)
      validateHistoryEvent e
      refuse (∃ old ∈ all, old.id = e.id ∧ old ≠ e) (bare .hashMismatch)
      indexBatch repo (if e ∈ all then all else all ++ [e]) rest

/-- The events whose id is not among `seen`, each id once. -/
def unseenEvents : List String → List HistoryEvent → List HistoryEvent
  | _, [] => []
  | seen, e :: rest =>
      if e.id ∈ seen then unseenEvents seen rest else e :: unseenEvents (e.id :: seen) rest

/-- `indexPublicationHistory`. -/
def indexPublicationHistory (repo : String) (events accepted : List HistoryEvent) :
    Except DomainError PublicationCatalog := do
  let all ← indexBatch repo [] accepted
  let all ← indexBatch repo all events
  let ids := accepted.map HistoryEvent.id
  .ok { all, accepted := ids, pending := unseenEvents ids events }

/-! ### Proofs of a publication -/

/-- `publicationProof`. -/
def publicationProof (p e : HistoryEvent) : Bool :=
  decide (p.kind = .publish) && decide (e.kind ≠ .publish) && decide (e.kind ≠ .prMerge) &&
    decide (e.repoID = p.repoID) && decide (e.branchID = p.branchID) &&
    decide (e.branch = p.branch) && decide (e.localBranch = p.localBranch) &&
    decide (e.worktreeID = p.worktreeID) && decide (e.gitAfter = p.gitAfter) &&
    decide (e.target = p.target)

/-- `publicationAliasAttachment`. -/
def publicationAliasAttachment (p proof a : HistoryEvent) : Bool :=
  decide (a.kind = .attach ∧ a.repoID = p.repoID ∧ a.branchID = p.branchID ∧ a.localBranch ≠ "" ∧
    a.worktreeID ≠ "" ∧ (a.worktreeID = p.worktreeID ∨ a.localBranch = p.localBranch) ∧
    a.createdAt ≤ proof.createdAt)

/-- A publication under a local name of its own. -/
def aliased (p : HistoryEvent) : Bool :=
  decide (p.localBranch ≠ "" ∧ p.localBranch ≠ p.branch ∧ p.worktreeID ≠ "")

/-- `PublicationSourceNames`. -/
def publicationSourceNames (p : HistoryEvent) (events : List HistoryEvent) : List String :=
  if aliased p = false then [p.branch]
  else if events.any fun proof => publicationProof p proof &&
      events.any fun a => publicationAliasAttachment p proof a then
    [p.branch, p.localBranch]
  else [p.branch]

/-! ### Groups of publications -/

/-- `ancestryRoots`: the targets of the groups that have more than one. -/
def PublicationCatalog.ancestryRoots (c : PublicationCatalog) (selected : String → Bool) :
    List ContentHash :=
  let publications := c.pending.filter fun e => decide (e.kind = .publish) && selected e.branchID
  let competing := publications.filter fun e => publications.any fun f =>
    decide (f.branchID = e.branchID ∧ f.gitAfter = e.gitAfter ∧ f.target ≠ e.target)
  sortOn id (competing.map HistoryEvent.target).dedup

/-- `Snapshot.ReachabilityParents`. -/
def Snapshot.reachabilityParents (s : Snapshot) : List ContentHash :=
  s.parents ++ freshFrom s.parents s.graftParents

/-- `walk` of `publicationAncestry`, with the snapshots on the path and those seen. -/
def walkAncestors (repo : String) (snapshots : List Snapshot) :
    ℕ → List ContentHash → List ContentHash → ContentHash → Except DomainError (List ContentHash)
  | 0, _, _, _ => .error (conflicting "cyclic publication graph" [])
  | fuel + 1, active, seen, id =>
      if id ∈ active then .error (conflicting "cyclic publication graph" [])
      else if id ∈ seen then .ok seen
      else
        match snapshots.find? fun s => s.id = id with
        | none => .error { sentinel := .notFound, format := "missing publication snapshot %s"
                           args := [id] }
        | some s => do
            refuse (s.id ≠ id ∨ s.repoID ≠ repo ∨ Backend.validContentHash id = false)
              (bare .hashMismatch)
            let seen ← s.reachabilityParents.foldlM
              (walkAncestors repo snapshots fuel (id :: active)) seen
            .ok (id :: seen)

/-- `publicationAncestry`: what each root reaches.  The path has no repetition, so it is not
longer than the list of snapshots. -/
def publicationAncestry (repo : String) (snapshots : List Snapshot) (roots : List ContentHash) :
    Except DomainError (List (ContentHash × List ContentHash)) := do
  refuse (∃ a ∈ snapshots, ∃ b ∈ snapshots, a.id = b.id ∧ a ≠ b) (bare .hashMismatch)
  (freshFrom [] roots).mapM fun root => do
    let seen ← walkAncestors repo snapshots (snapshots.length + 1) [] [] root
    .ok (root, seen)

/-- The state of the first loop of `order`. -/
structure Grouping where
  ordinary : List HistoryEvent := []
  groups : List ((String × String × String) × List HistoryEvent) := []
  identities : List ((String × String × String) × String) := []

/-- A name at a revision belongs to one identity. -/
def claimName (selected : String → Bool) (e : HistoryEvent)
    (identities : List ((String × String × String) × String)) (name : String) :
    Except DomainError (List ((String × String × String) × String)) :=
  if name = "" then .ok identities
  else
    match identities.lookup (e.repoID, name, e.gitAfter) with
    | some old =>
        if old ≠ e.branchID ∧ (selected old || selected e.branchID) = true then
          .error (conflicting
            "publication name %q at Git %s belongs to multiple branch identities"
            [name, e.gitAfter])
        else .ok identities
    | none => .ok (identities ++ [((e.repoID, name, e.gitAfter), e.branchID)])

/-- `groups[key] = append(groups[key], e)`. -/
def addToGroup (key : String × String × String) (e : HistoryEvent) :
    List ((String × String × String) × List HistoryEvent) →
      List ((String × String × String) × List HistoryEvent)
  | [] => [(key, [e])]
  | g :: rest => if g.1 = key then (key, g.2 ++ [e]) :: rest else g :: addToGroup key e rest

/-- A turn of the first loop of `order`. -/
def groupEvent (repo : String) (selected : String → Bool) (g : Grouping) (e : HistoryEvent) :
    Except DomainError Grouping :=
  if e.kind ≠ .publish then
    .ok (if selected e.branchID then { g with ordinary := g.ordinary ++ [e] } else g)
  else do
    refuse (e.repoID ≠ repo) (bare .hashMismatch)
    validateHistoryEvent e
    let identities ← [e.branch, e.localBranch].foldlM (claimName selected e) g.identities
    .ok { g with
      identities
      groups := if selected e.branchID then
          addToGroup (e.repoID, e.branchID, e.gitAfter) e g.groups
        else g.groups }

/-- The rank of a target: how many targets of the group it reaches. -/
def rankTarget (ancestry : List (ContentHash × List ContentHash)) (targets : List ContentHash)
    (target : ContentHash) : Except DomainError (ContentHash × ℕ) :=
  if targets.length = 1 then .ok (target, 0)
  else
    match ancestry.lookup target with
    | none => .error (conflicting "missing publication ancestry for %s" [target])
    | some ancestors => .ok (target, targets.countP (· ∈ ancestors))

/-- The rank in a table. -/
def rankIn (ranks : List (ContentHash × ℕ)) (target : ContentHash) : ℕ :=
  (ranks.lookup target).getD 0

/-- The target that reaches all the others. -/
def maximalTarget (ranks : List (ContentHash × ℕ)) : Option ContentHash :=
  if ranks.length = 1 then ranks.head?.map Prod.fst
  else (ranks.find? fun r => r.2 = ranks.length).map Prod.fst

/-- A group of publications in order: the larger ranks first. -/
def orderGroup (observations : List HistoryEvent)
    (ancestry : List (ContentHash × List ContentHash)) :
    (String × String × String) × List HistoryEvent → Except DomainError (List HistoryEvent)
  | (key, group) => do
      let targets := freshFrom [] (group.map HistoryEvent.target)
      let ranks ← targets.mapM (rankTarget ancestry targets)
      match maximalTarget ranks with
      | none =>
          .error (conflicting "branch identity %s at Git %s has incomparable publications"
            [key.2.1, key.2.2])
      | some maximal => do
          let covered := (group.filter fun e => e.target = maximal).flatMap fun e =>
            publicationSourceNames e observations
          checkAll (fun e => checkAll (fun name => refuse (name ∉ covered)
            (conflicting
              "maximal publication for branch identity %s at Git %s does not cover source name %q"
              [key.2.1, key.2.2, name])) (publicationSourceNames e observations)) group
          .ok (sortOn (fun e => toLex (OrderDual.toDual (rankIn ranks e.target), e.id)) group)

/-- `publicationCatalog.order`. -/
def PublicationCatalog.order (c : PublicationCatalog) (repo : String) (selected : String → Bool)
    (ancestry : List (ContentHash × List ContentHash)) :
    Except DomainError (List HistoryEvent) := do
  let g ← c.pending.foldlM (groupEvent repo selected) {}
  let groups ← g.groups.mapM (orderGroup c.all ancestry)
  .ok (g.ordinary ++ groups.flatten)

/-! ### Branch bindings of the selection -/

/-- The ids of the binding events of an identity. -/
def bindingsOf (bindings : List HistoryEvent) (identity : String) : List String :=
  if identity = "" then []
  else (bindings.filter fun e => e.branchID = identity).map HistoryEvent.id

/-- The ids of the binding events that take or give up a name. -/
def bindingsNaming (bindings : List HistoryEvent) (name : String) : List String :=
  if name = "" then []
  else (bindings.filter fun e => e.branch = name ∨ e.previousBranch = name).map HistoryEvent.id

/-- What the loop of `projectPublicationBranches` adds to its queue for an event. -/
def bindingNeighbours (bindings : List HistoryEvent) (id : String) : List String :=
  match bindings.find? fun e => e.id = id with
  | none => []
  | some e => bindingsOf bindings e.branchID ++ bindingsNaming bindings e.branch ++
      bindingsNaming bindings e.previousBranch ++ historyDependencies e

/-- `projectPublicationBranches`: the bindings that the queue reaches from the selection. -/
def projectPublicationBranches (d : Digest) (events : List HistoryEvent)
    (selected : List PublicationBranch) : Except DomainError ContextBranchProjection :=
  let bindings := unseenEvents [] (events.filter isBranchBindingEvent)
  let heads := selected.flatMap fun b =>
    bindingsOf bindings b.branchID ++ bindingsNaming bindings b.branch
  let component := Worklist.reach (bindingNeighbours bindings) (fun _ => false)
    (bindings.map HistoryEvent.id) heads
  projectContextBranches d (component.filterMap fun id => bindings.find? fun e => e.id = id)

/-! ### The visit -/

/-- An event to send and the ids it waits for: `send[id]` and `edges[id]`. -/
structure Sending where
  event : HistoryEvent
  deps : List String
  deriving DecidableEq, Repr

/-- The keys of `send`. -/
def sentIDs (s : List Sending) : List String := s.map fun x => x.event.id

/-- `send[id], edges[id] = e, deps`. -/
def putSending (e : HistoryEvent) (deps : List String) : Attempt (List Sending) DomainError Unit :=
  fun s => (.ok (), s.filter (fun x => x.event.id ≠ e.id) ++ [⟨e, deps⟩])

/-- The keys that a rejected witness has added are deleted. -/
def takeBack (before after : List Sending) : List Sending :=
  after.filter fun x => x.event.id ∈ sentIDs before

/-- `need`: the ids it records. -/
def need (visit : String → Attempt (List Sending) DomainError Unit) (id parent : String) :
    Attempt (List Sending) DomainError (List String) :=
  if parent = "" then .ok []
  else do
    Attempt.mapError (inEvent id) (visit parent)
    .ok [parent]

/-- An origin that only another event of its branch can prove. -/
def foreignOrigin (d : Digest) (e : HistoryEvent) : Option GitCreation :=
  e.creation.filter fun origin => decide (origin.originBranchID ≠ "" ∧
    origin.originBranchID ≠ legacyContextBranchID d e.repoID origin.originBranch)

/-- A candidate for the witness of an origin. -/
def witnesses (c : PublicationCatalog) (id : String) (origin : GitCreation) (w : HistoryEvent) :
    Bool :=
  decide (¬ (w.kind = .publish ∧ w.id ∉ c.accepted) ∧ w.id ≠ id ∧
    w.branchID = origin.originBranchID ∧ (w.branch = origin.originBranch ∨
      (w.kind = .rename ∧ w.previousBranch = origin.originBranch)))

/-- The candidates: accepted ones first, then ordinary evidence. -/
def candidates (c : PublicationCatalog) (id : String) (origin : GitCreation) :
    List HistoryEvent :=
  sortOn (fun w => toLex (decide (w.id ∉ c.accepted),
      toLex (decide (w.kind ≠ .position ∧ w.kind ≠ .attach), w.id)))
    (c.all.filter (witnesses c id origin))

/-- The witness of the origin of an event. -/
def needWitness (c : PublicationCatalog) (d : Digest)
    (visit : String → Attempt (List Sending) DomainError Unit) (e : HistoryEvent) :
    Attempt (List Sending) DomainError (List String) :=
  match foreignOrigin d e with
  | none => .ok []
  | some origin =>
      Attempt.firstOf takeBack (fun w => need visit e.id w.id)
        (fun cause => cause.getD (publicationBlocked e.id "" origin.originBranchID
          "creation origin has no usable witness")) none (candidates c e.id origin)

/-- A proof of a publication, and the attachments of its alias. -/
def needProof (c : PublicationCatalog) (visit : String → Attempt (List Sending) DomainError Unit)
    (e proof : HistoryEvent) : Attempt (List Sending) DomainError (List String) := do
  let own ← need visit e.id proof.id
  let attached ← Attempt.collect (fun a => need visit e.id a.id)
    (if aliased e then c.all.filter (publicationAliasAttachment e proof) else [])
  .ok (own ++ attached)

/-- The proofs of a publication. -/
def needProofs (c : PublicationCatalog) (visit : String → Attempt (List Sending) DomainError Unit)
    (e : HistoryEvent) : Attempt (List Sending) DomainError (List String) :=
  if e.kind ≠ .publish then .ok []
  else do
    let ids ← Attempt.collect (needProof c visit e) (c.all.filter (publicationProof e))
    if c.all.any (publicationProof e) then .ok ids
    else .fail (publicationBlocked e.id "" "" "publication has no exact ordinary proof")

/-- A branch whose creation names itself as the origin. -/
def ownOrigin (e : HistoryEvent) : Bool :=
  e.creation.any fun origin => decide (origin.originBranchID = e.branchID ∧ e.kind ≠ .attach)

/-- What an event waits for; all of it has been visited. -/
def eventDeps (c : PublicationCatalog) (d : Digest)
    (visit : String → Attempt (List Sending) DomainError Unit) (e : HistoryEvent) :
    Attempt (List Sending) DomainError (List String) := do
  let parents ← Attempt.collect (need visit e.id) (historyDependencies e)
  if ownOrigin e then
    .fail (publicationBlocked e.id "" "" "branch cannot be its own creation origin")
  else do
    let witness ← needWitness c d visit e
    let proofs ← needProofs c visit e
    .ok (parents ++ witness ++ proofs)

/-- The body of `visit` after its checks. -/
def sendEvent (c : PublicationCatalog) (d : Digest)
    (visit : String → Attempt (List Sending) DomainError Unit) (e : HistoryEvent) :
    Attempt (List Sending) DomainError Unit := do
  let deps ← eventDeps c d visit e
  putSending e deps

/-- An event that the plan may send. -/
def authorised (allowed : String → Bool) (e : HistoryEvent) : Bool :=
  decide (e.kind ≠ .prMerge) &&
    (allowed e.branchID || decide (e.kind = .position) || decide (e.kind = .attach))

/-- The checks of `visit`, with the ids being visited. -/
def enter (c : PublicationCatalog) (allowed : String → Bool) (visiting : List String) (id : String)
    (send : HistoryEvent → Attempt (List Sending) DomainError Unit) :
    Attempt (List Sending) DomainError Unit := fun s =>
  if id ∈ c.accepted ∨ id ∈ sentIDs s then (.ok (), s)
  else
    match c.byID id with
    | none => (.error (publicationBlocked "" id "" "missing history dependency"), s)
    | some e =>
        if id ∈ visiting then
          (.error (publicationBlocked id "" "" "cyclic publication dependency"), s)
        else if authorised allowed e = false then
          (.error (publicationBlocked "" id e.branchID
            "unaccepted event would exceed publication authority"), s)
        else send e s

/-- `visit`.  The events being visited are distinct events of the catalog, so that a
fuel of one for each is enough (`visitEvent_fuel`). -/
def visitEvent (c : PublicationCatalog) (d : Digest) (allowed : String → Bool) :
    ℕ → List String → String → Attempt (List Sending) DomainError Unit
  | 0, visiting, id => enter c allowed visiting id fun e =>
      .fail (publicationBlocked e.id "" "" "cyclic publication dependency")
  | fuel + 1, visiting, id => enter c allowed visiting id
      (sendEvent c d (visitEvent c d allowed fuel (id :: visiting)))

/-- Every event of the groups is visited. -/
def visitAll (c : PublicationCatalog) (d : Digest) (allowed : String → Bool)
    (ordered : List HistoryEvent) : Attempt (List Sending) DomainError (List String) :=
  Attempt.collect (fun e => do
    visitEvent c d allowed c.all.length [] e.id
    .ok [e.id]) ordered

/-! ### The order of the plan -/

/-- An event is ready when those it waits for have come; `ids` are the ids of the plan. -/
def readyToSend (edges : String → List String) (ids done : List String) (e : HistoryEvent) : Bool :=
  (edges e.id).all fun parent => decide (parent ∉ ids ∨ parent ∈ done)

/-- The loop of `orderPublicationDependencies`: the first ready event comes next.  `rest` is
in the order of the indices. -/
def orderPublicationsFrom (edges : String → List String) (ids : List String) (ordinary : ℕ) :
    ℕ → List HistoryEvent → List (HistoryEvent × ℕ) → Except DomainError (List HistoryEvent)
  | 0, done, rest =>
      if rest = [] then .ok done else .error (conflicting "cyclic publication dependency" [])
  | fuel + 1, done, rest =>
      match rest.find? fun p => readyToSend edges ids (done.map HistoryEvent.id) p.1 with
      | none =>
          if rest = [] then .ok done else .error (conflicting "cyclic publication dependency" [])
      | some p =>
          if ordinary ≤ p.2 ∧ done.length < ordinary then
            .error (conflicting "completion precedes ordinary dependency" [])
          else orderPublicationsFrom edges ids ordinary fuel (done ++ [p.1])
            (rest.filter fun q => q.2 ≠ p.2)

/-- `orderPublicationDependencies`. -/
def orderPublicationDependencies (events : List HistoryEvent) (edges : String → List String)
    (ordinary : ℕ) : Except DomainError (List HistoryEvent) :=
  orderPublicationsFrom edges (events.map HistoryEvent.id) ordinary events.length [] events.zipIdx

/-- `edges[id]`. -/
def edgesIn (s : List Sending) (id : String) : List String :=
  ((s.find? fun x => x.event.id = id).map Sending.deps).getD []

/-- `edges[e.ID][prior] = true` along the publications. -/
def chainEdges (edges : String → List String) : List HistoryEvent → String → List String
  | p :: q :: rest =>
      chainEdges (Function.update edges q.id (edges q.id ++ [p.id])) (q :: rest)
  | _ => edges

/-- The events of the plan in order. -/
def orderSendings (ordered : List HistoryEvent) (s : List Sending) :
    Except DomainError (List HistoryEvent) :=
  let ordinary := sortOn byTime
    ((s.map Sending.event).filter fun e => e.kind ≠ .publish)
  let publications := ordered.filter fun e => e.kind = .publish
  let sent := publications.filterMap fun e => (s.map Sending.event).find? fun f => f.id = e.id
  orderPublicationDependencies (ordinary ++ sent) (chainEdges (edgesIn s) publications)
    ordinary.length

/-! ### The plan -/

/-- The loop over the refs of the input: one ref for each name. -/
def indexRefs (repo : String) : List Ref → List Ref → Except DomainError (List Ref)
  | refs, [] => .ok refs
  | refs, r :: rest =>
      if r.kind ≠ .branch then indexRefs repo refs rest
      else do
        refuse (r.repoID ≠ repo ∨ validateRef r ≠ .ok ()) (bare .hashMismatch)
        refuse (∃ old ∈ refs, old.name = r.name ∧ old ≠ r) (bare .hashMismatch)
        indexRefs repo (if r ∈ refs then refs else refs ++ [r]) rest

/-- `refs[name]`. -/
def refNamed (refs : List Ref) (name : String) : Option Ref := refs.find? fun r => r.name = name

/-- `localIdentity`. -/
def localIdentity (d : Digest) (repo : String) (events : List HistoryEvent) (ref : Ref) :
    Except DomainError String :=
  if ref.branchID ≠ "" then .ok ref.branchID
  else do
    let known ← asConflict (projectPublicationBranches d events [⟨ref.name, ""⟩])
    .ok (known.identity d repo ref.name)

/-- The branches to publish. -/
def scopeBranches (d : Digest) (input : PublicationPlanInput) (events : List HistoryEvent)
    (refs : List Ref) : Except DomainError (List PublicationBranch) :=
  if input.ref = "" then .ok input.scope.branches
  else do
    validateBranchName input.ref
    match refNamed refs input.ref with
    | none => .error (bare .notFound)
    | some ref => do
        let id ← localIdentity d input.repoID events ref
        .ok [⟨input.ref, id⟩]

/-- The target that a deferred push expects. -/
def checkExpectedTarget (expected : List (String × ContentHash)) (refs : List Ref)
    (b : PublicationBranch) : Except DomainError Unit :=
  let target := (expected.lookup b.branchID).getD ""
  refuse (validateContentHash target ≠ .ok () ∨
    ((refNamed refs b.branch).map Ref.target).getD "" ≠ target) (bare .syncConflict)

/-- The checks on the targets that a deferred push expects. -/
def checkExpectedTargets (scope : PublicationScope) (refs : List Ref)
    (branches : List PublicationBranch) : Except DomainError Unit :=
  onlyIf (scope.expectedTargets ≠ []) (do
    refuse (scope.historyOnly = true ∨ scope.expectedTargets.length ≠ branches.length)
      (bare .invalidRef)
    checkAll (checkExpectedTarget scope.expectedTargets refs) branches)

/-- The branch of an identity is the one that the history knows. -/
def checkKnown (d : Digest) (repo : String) (historyOnly : Bool)
    (projection : ContextBranchProjection) (b : PublicationBranch) : Except DomainError Unit :=
  match projection.byID b.branchID with
  | some known =>
      refuse (known.name ≠ b.branch ∨ (historyOnly = false ∧ known.archived = true))
        (bare .syncConflict)
  | none =>
      refuse (b.branchID ≠ legacyContextBranchID d repo b.branch) (bare .syncConflict)

/-- The ref that is pushed for a branch. -/
def refToPush (d : Digest) (repo : String) (events : List HistoryEvent) (refs : List Ref)
    (projection : ContextBranchProjection) (b : PublicationBranch) : Except DomainError Ref :=
  match refNamed refs b.branch with
  | none => .error (bare .notFound)
  | some r => do
      let localID ← localIdentity d repo events r
      refuse (projection.identity d repo b.branch ≠ b.branchID ∨ localID ≠ b.branchID)
        (bare .syncConflict)
      refuse (r.symbolic ≠ "" ∨ r.target = "" ∨ validateContentHash r.target ≠ .ok ())
        (bare .invalidRef)
      .ok { r with branchID := b.branchID }

/-- The ref of a branch, unless only history is published. -/
def refsFor (d : Digest) (input : PublicationPlanInput) (events : List HistoryEvent)
    (refs : List Ref) (projection : ContextBranchProjection) (b : PublicationBranch) :
    Except DomainError (List Ref) :=
  if input.scope.historyOnly then .ok []
  else do
    let r ← refToPush d input.repoID events refs projection b
    .ok [r]

/-- A turn of the loop over the branches: the authority and the refs so far. -/
def authorise (d : Digest) (input : PublicationPlanInput) (events : List HistoryEvent)
    (refs : List Ref) (projection : ContextBranchProjection)
    (acc : List PublicationBranch × List Ref) (b : PublicationBranch) :
    Except DomainError (List PublicationBranch × List Ref) := do
  refuse (b.branchID = "" ∨ validateRef { kind := .branch, name := b.branch, branchID := b.branchID
                                          repoID := "", target := input.repoID } ≠ .ok ())
    (bare .invalidRef)
  match acc.1.find? fun a => a.branchID = b.branchID with
  | some known => do
      refuse (known.branch ≠ b.branch) (bare .syncConflict)
      .ok acc
  | none => do
      checkKnown d input.repoID input.scope.historyOnly projection b
      let pushed ← refsFor d input events refs projection b
      .ok (acc.1 ++ [b], acc.2 ++ pushed)

/-- The snapshots that the plan depends on. -/
def snapshotRootsOf (refs : List Ref) (events : List HistoryEvent) : List ContentHash :=
  sortOn id ((refs.map Ref.target ++ (events.flatMap fun e =>
    [e.source, e.target, e.sharedTarget, e.memorySource].filter (· ≠ ""))).dedup)

/-- `PlanPublication`. -/
def planPublication (d : Digest) (input : PublicationPlanInput) :
    Except DomainError PublicationPlan := do
  refuse (input.contextProtocol ≠ 1) (bare .contextProtocolRequired)
  validateContentHash input.repoID
  refuse (input.ref ≠ "" ∧ (input.scope.branches ≠ [] ∨ input.scope.historyOnly = true))
    (bare .invalidRef)
  let events := sortOn byTime input.history
  let catalog ← indexPublicationHistory input.repoID events input.accepted
  let refs ← indexRefs input.repoID [] input.refs
  let branches ← scopeBranches d input events refs
  refuse (branches = []) (bare .invalidRef)
  checkExpectedTargets input.scope refs branches
  let projection ← asConflict (projectPublicationBranches d catalog.all branches)
  let granted ← branches.foldlM (authorise d input events refs projection) ([], [])
  let allowed := fun id => granted.1.any fun b => b.branchID = id
  let ancestry ← publicationAncestry input.repoID input.snapshots (catalog.ancestryRoots allowed)
  let ordered ← catalog.order input.repoID allowed ancestry
  let visited := visitAll catalog d allowed ordered []
  let _ ← visited.1
  let history ← orderSendings ordered visited.2
  let pushed := sortOn Ref.name granted.2
  .ok { authority := sortOn PublicationBranch.branchID granted.1
        historyToSend := history
        refsToPush := pushed
        snapshotRoots := snapshotRootsOf pushed history }

end Cli
end CxtHub
