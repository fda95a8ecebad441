/-
# The JSON of a graph state

What `encoding/json` writes for the records of `CxtHub.Backend.GraphData`: the declared
names in order, `omitempty` where the tags have it, nil slices and maps as `null`.  The
text of an instant is a parameter.
-/

import CxtHub.Backend.GraphData
import CxtHub.Lib.JsonObject

namespace CxtHub
namespace Backend

open Json (StructFields ofStruct)

/-- A slice. -/
def listJson {α : Type} (f : α → Json) : Slice α → Json
  | none => .null
  | some l => .arr (l.map f)

/-- The entries of a map in the order of their keys. -/
def keyOrder {α : Type} (d : Dir String α) : List (String × α) :=
  d.entries.insertionSort fun a b => a.1 ≤ b.1

/-- A map; `encoding/json` writes the keys in order. -/
def tableJson {α : Type} (f : α → Json) : Table α → Json
  | none => .null
  | some d => .obj ((keyOrder d).map fun e => (e.1, f e.2))

/-- The value of a field without `omitempty`. -/
abbrev always (name : String) (j : Json) : String × Option Json := (name, some j)

/-- A string with `omitempty`. -/
def textUnlessEmpty (name text : String) : String × Option Json :=
  (name, if text = "" then none else some (.str text))

/-- A number with `omitempty`. -/
def intUnlessZero (name : String) (n : ℤ) : String × Option Json :=
  (name, if n = 0 then none else some (.int n))

/-- A slice with `omitempty`. -/
def sliceUnlessEmpty {α : Type} (name : String) (f : α → Json) (s : Slice α) :
    String × Option Json :=
  (name, if s.list = [] then none else some (listJson f s))

abbrev idsJson : Slice ContentHash → Json := listJson Json.str

def structJson (l : StructFields) : Json := .obj (ofStruct l)

/-- A counter with the `string` option. -/
def counterJson (n : ℕ) : Json := .str (toString n)

def RepositoryRevision.json (r : RepositoryRevision) : Json :=
  structJson [("evidence", if r.evidence = 0 then none else some (counterJson r.evidence)),
    always "graph" (counterJson r.graph), always "pending" (counterJson r.pending)]

def GraphReadGeneration.json (g : GraphReadGeneration) : Json :=
  structJson [always "generation" (.str g.generation), always "source_epoch" (.str g.sourceEpoch),
    always "applied_epoch" (.str g.appliedEpoch), always "rules" (.int g.rules),
    always "complete" (.bool g.complete), always "current" (.bool g.current)]

def GraphBranchHead.json (h : GraphBranchHead) : Json :=
  structJson [always "branch" (.str h.branch), always "event_id" (.str h.eventID),
    always "archived" (.bool h.archived)]

def MarkerKind.text : MarkerKind → String
  | .archived => "archived"
  | .joined => "joined"

def GraphBranchMarker.json (m : GraphBranchMarker) : Json :=
  structJson [always "branch" (.str m.branch), always "target" (.str m.target),
    always "kind" (.str m.kind.text), always "unique_count" (.int m.uniqueCount),
    always "target_available" (.bool m.targetAvailable)]

def MergeState.text : MergeState → String
  | .included => "included"
  | .notSelected => "not_selected"
  | .review => "review"

def BranchContextMerge.json (m : BranchContextMerge) : Json :=
  structJson [always "delivery_acknowledged" (.bool m.deliveryAcknowledged),
    always "destination_branch_id" (.str m.destinationBranchID),
    always "event_id" (.str m.eventID), always "source" (.str m.source),
    textUnlessEmpty "before" m.before, always "merge_sha" (.str m.mergeSHA),
    always "pr_number" (.int m.prNumber), always "state" (.str m.state.text),
    always "reason" (.str m.reason), always "order" (.int m.order)]

def BranchContext.fields (c : BranchContext) : StructFields :=
  [always "branch_id" (.str c.branchID), always "snapshot_id" (.str c.snapshotID),
    textUnlessEmpty "code_commit" c.codeCommit, always "reason" (.str c.reason),
    always "merges" (listJson BranchContextMerge.json c.merges),
    always "roots" (idsJson c.roots), always "snapshot_ids" (idsJson c.snapshotIDs)]

def GraphIntegration.json (i : GraphIntegration) : Json :=
  structJson [always "branch" (.str i.branch), always "scope" (.str i.scope),
    always "target" (.str i.target), always "head" (.str i.head),
    always "parents" (tableJson (listJson Json.str) i.parents),
    always "extra_parents" (listJson Json.str i.extraParents)]

def TeamIdentity.json (t : TeamIdentity) : Json :=
  structJson [always "name" (.str t.name), always "email" (.str t.email),
    always "team" (.str t.team)]

section Instants

variable (time : ℕ → String)

def Unsync.json (u : Unsync) : Json :=
  structJson [always "repo_id" (.str u.repoID), always "user" (.str u.user),
    always "branch" (.str u.branch), always "target" (.str u.target),
    always "author" u.author.json, always "updated_at" (.str (time u.updatedAt))]

def GraphPosition.json (p : GraphPosition) : Json :=
  structJson [always "event_id" (.str p.eventID), always "branch" (.str p.branch),
    always "branch_id" (.str p.branchID), always "snapshot" (.str p.snapshot),
    always "archived" (.bool p.archived), always "created_at" (.str (time p.createdAt))]

def GraphBirth.json (b : GraphBirth) : Json :=
  structJson [always "id" (.str b.id), always "event_id" (.str b.eventID),
    always "branch" (.str b.branch), always "source" (.str b.source),
    always "orphan" (.bool b.orphan), always "created_at" (.str (time b.createdAt)),
    always "children" (idsJson b.children)]

def GraphMerge.json (m : GraphMerge) : Json :=
  structJson [always "id" (.str m.id), always "event_id" (.str m.eventID),
    always "before" (.str m.before), always "after" (.str m.after),
    always "source" (.str m.source), sliceUnlessEmpty "source_arms" .str m.sourceArms,
    always "branch" (.str m.branch), always "scope" (.str m.scope), always "from" (.str m.from_),
    always "created_at" (.str (time m.createdAt)), intUnlessZero "pr_number" m.prNumber,
    always "historical_only" (.bool m.historicalOnly), always "withdrawn" (.bool m.withdrawn),
    always "represented_grafts" (idsJson m.representedGrafts),
    always "redirect_children" (idsJson m.redirectChildren),
    textUnlessEmpty "source_birth" m.sourceBirth,
    textUnlessEmpty "lifecycle_birth" m.lifecycleBirth]

def GraphOperations.json (o : GraphOperations) : Json :=
  structJson [always "births" (listJson (GraphBirth.json time) o.births),
    always "merges" (listJson (GraphMerge.json time) o.merges)]

def GraphHoldCluster.fields (h : GraphHoldCluster) : StructFields :=
  [always "tips" (listJson (Unsync.json time) h.tips), always "ids" (idsJson h.ids)]

def GraphProgressGroup.fields (p : GraphProgressGroup) : StructFields :=
  [always "key" (.str p.key), always "branch" (.str p.branch), always "before" (.str p.before),
    always "after" (.str p.after), always "created_at" (.str (time p.createdAt)),
    always "snapshot_ids" (idsJson p.snapshotIDs),
    always "collapsible_ids" (idsJson p.collapsibleIDs)]

/-- The fields of `GraphState`, in the order of the declaration. -/
def GraphState.fields (g : GraphState) : StructFields :=
  [("read_generation", g.readGeneration.map GraphReadGeneration.json),
    always "integrations" (listJson GraphIntegration.json g.integrations),
    always "branch_contexts" (tableJson (fun c => structJson c.fields) g.branchContexts),
    always "branch_snapshots" (tableJson idsJson g.branchSnapshots),
    always "continuations" (tableJson Json.str g.continuations),
    always "operations" (g.operations.json time),
    always "version" (.int g.version),
    always "revision" g.revision.json,
    textUnlessEmpty "position_event" g.positionEvent,
    always "primary_branch" (.str g.primaryBranch),
    always "snapshot_ids" (idsJson g.snapshotIDs),
    always "graph_ids" (idsJson g.graphIDs),
    always "committed_ids" (idsJson g.committedIDs),
    always "historical_ids" (idsJson g.historicalIDs),
    always "shared_ids" (idsJson g.sharedIDs),
    always "pushed_ids" (idsJson g.pushedIDs),
    always "unpushed_ids" (idsJson g.unpushedIDs),
    always "uncommitted_ids" (idsJson g.uncommittedIDs),
    always "tagged_ids" (idsJson g.taggedIDs),
    always "archived_only_ids" (idsJson g.archivedOnlyIDs),
    always "ahead_ids" (idsJson g.aheadIDs),
    always "ahead_tips" (idsJson g.aheadTips),
    always "markers" (listJson GraphBranchMarker.json g.markers),
    always "branch_heads" (tableJson GraphBranchHead.json g.branchHeads),
    always "ref_scopes" (tableJson Json.str g.refScopes),
    always "snapshot_scopes" (tableJson Json.str g.snapshotScopes),
    always "scope_labels" (tableJson Json.str g.scopeLabels),
    always "hold" (listJson (fun h => structJson (h.fields time)) g.hold),
    always "orphan_sessions" (listJson Json.str g.orphanSessions),
    always "hold_counts" (tableJson Json.int g.holdCounts),
    always "positions" (listJson (GraphPosition.json time) g.positions),
    always "previous" (listJson (fun p => structJson (p.fields time)) g.previous)]

end Instants

end Backend
end CxtHub
