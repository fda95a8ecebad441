/-
# The indexed transport of a graph state

`backend/internal/adapters/delivery/graphwire/state.go`.  Snapshot ids repeat in many
lists of a graph state; the transport sends each id once, in a dictionary, and the lists
as places in it.  The wire structs embed the domain structs and redeclare the fields that
become places; the second version also sends a timeline of `branch_contexts` as a
reference to the equal one in `branch_snapshots`.

A branch name is the reference, and `omitempty` leaves an empty reference out.

`Encode` and `EncodeV2` write through a dictionary (`CxtHub.Lib.Interning`).
-/

import CxtHub.Backend.GraphJson
import CxtHub.Lib.Interning

namespace CxtHub
namespace Backend

open Json (StructFields ofStruct embedding)
open Interning

/-- The dictionary under construction. -/
abbrev Indexing := StateM (List ContentHash)

/-- `encode`: the places of a list of ids. -/
def encodeIDs (ids : Slice ContentHash) : Indexing (List UInt32) := ids.list.mapM intern

/-! ### The first version -/

/-- `graphwire.Hold`. -/
structure WireHold where
  tips : Slice Unsync
  ids : List UInt32
  deriving DecidableEq, Repr

/-- `graphwire.Progress`. -/
structure WireProgress where
  group : GraphProgressGroup
  snapshotIDs : List UInt32
  collapsibleIDs : List UInt32
  deriving DecidableEq, Repr

/-- The lists that `graphwire.State` redeclares. -/
structure WireLists where
  snapshotIDs : List UInt32
  graphIDs : List UInt32
  committedIDs : List UInt32
  historicalIDs : List UInt32
  sharedIDs : List UInt32
  pushedIDs : List UInt32
  unpushedIDs : List UInt32
  uncommittedIDs : List UInt32
  taggedIDs : List UInt32
  archivedOnlyIDs : List UInt32
  aheadIDs : List UInt32
  aheadTips : List UInt32
  /-- The entries of the map, in the order of the keys. -/
  branchSnapshots : List (String × List UInt32)
  hold : List WireHold
  previous : List WireProgress
  deriving DecidableEq, Repr

/-- `graphwire.State`. -/
structure WireState where
  graph : GraphState
  encoding : String
  dictionary : List ContentHash
  lists : WireLists

/-- The body of `Encode`. -/
def encodeLists (g : GraphState) : Indexing WireLists := do
  let snapshotIDs ← encodeIDs g.snapshotIDs
  let graphIDs ← encodeIDs g.graphIDs
  let committedIDs ← encodeIDs g.committedIDs
  let historicalIDs ← encodeIDs g.historicalIDs
  let sharedIDs ← encodeIDs g.sharedIDs
  let pushedIDs ← encodeIDs g.pushedIDs
  let unpushedIDs ← encodeIDs g.unpushedIDs
  let uncommittedIDs ← encodeIDs g.uncommittedIDs
  let taggedIDs ← encodeIDs g.taggedIDs
  let archivedOnlyIDs ← encodeIDs g.archivedOnlyIDs
  let aheadIDs ← encodeIDs g.aheadIDs
  let aheadTips ← encodeIDs g.aheadTips
  let branchSnapshots ← (keyOrder g.branchSnapshots.dir).mapM fun e =>
    (fun ids => (e.1, ids)) <$> encodeIDs e.2
  let hold ← g.hold.list.mapM fun h => (fun ids => { tips := h.tips, ids }) <$> encodeIDs h.ids
  let previous ← g.previous.list.mapM fun p => do
    let snapshotIDs ← encodeIDs p.snapshotIDs
    let collapsibleIDs ← encodeIDs p.collapsibleIDs
    pure { group := p, snapshotIDs, collapsibleIDs }
  pure { snapshotIDs, graphIDs, committedIDs, historicalIDs, sharedIDs, pushedIDs, unpushedIDs,
         uncommittedIDs, taggedIDs, archivedOnlyIDs, aheadIDs, aheadTips, branchSnapshots, hold,
         previous }

/-- `Encode`. -/
def encode (g : GraphState) : WireState :=
  let run := (encodeLists g).run []
  { graph := g, encoding := "indexed-v1", dictionary := run.2, lists := run.1 }

/-! ### The second version -/

/-- `graphwire.BranchContext`. -/
structure WireContext where
  context : BranchContext
  roots : List UInt32
  snapshotIDs : List UInt32
  snapshotIDsRef : String
  deriving DecidableEq, Repr

/-- `graphwire.StateV2`, with the encoding and the dictionary of its own. -/
structure WireStateV2 where
  state : WireState
  encoding : String
  branchContexts : List (String × WireContext)

/-- Whether the timeline of a context is the one in `branch_snapshots`. -/
def sharesTimeline (g : GraphState) (branch : String) (c : BranchContext) : Bool :=
  match g.branchSnapshots.dir.get branch with
  | some ids => decide (ids.list = c.snapshotIDs.list)
  | none => false

/-- One turn of the loop of `EncodeV2`. -/
def encodeContext (g : GraphState) (branch : String) (c : BranchContext) :
    Indexing WireContext := do
  let roots ← encodeIDs c.roots
  if sharesTimeline g branch c then
    pure { context := c, roots, snapshotIDs := [], snapshotIDsRef := branch }
  else
    let snapshotIDs ← encodeIDs c.snapshotIDs
    pure { context := c, roots, snapshotIDs, snapshotIDsRef := "" }

/-- The loop of `EncodeV2`. -/
def encodeContexts (g : GraphState) : Indexing (List (String × WireContext)) :=
  (keyOrder g.branchContexts.dir).mapM fun e =>
    (fun c => (e.1, c)) <$> encodeContext g e.1 e.2

/-- `EncodeV2`. -/
def encodeV2 (g : GraphState) : WireStateV2 :=
  let first := encode g
  let run := (encodeContexts g).run first.dictionary
  { state := { first with dictionary := run.2 }, encoding := "indexed-v2"
    branchContexts := run.1 }

/-! ### Their JSON -/

/-- A list of places. -/
def placesJson (l : List UInt32) : Json := .arr (l.map fun i => .nat i.toNat)

section Instants

variable (time : ℕ → String)

def WireHold.json (h : WireHold) : Json :=
  structJson [always "tips" (listJson (Unsync.json time) h.tips), always "ids" (placesJson h.ids)]

def WireProgress.json (p : WireProgress) : Json :=
  structJson (embedding (p.group.fields time)
    [always "snapshot_ids" (placesJson p.snapshotIDs),
      always "collapsible_ids" (placesJson p.collapsibleIDs)])

/-- The fields that `graphwire.State` declares itself. -/
def WireState.own (s : WireState) : StructFields :=
  [always "encoding" (.str s.encoding),
    always "dictionary" (.arr (s.dictionary.map .str)),
    always "snapshot_ids" (placesJson s.lists.snapshotIDs),
    always "graph_ids" (placesJson s.lists.graphIDs),
    always "committed_ids" (placesJson s.lists.committedIDs),
    always "historical_ids" (placesJson s.lists.historicalIDs),
    always "shared_ids" (placesJson s.lists.sharedIDs),
    always "pushed_ids" (placesJson s.lists.pushedIDs),
    always "unpushed_ids" (placesJson s.lists.unpushedIDs),
    always "uncommitted_ids" (placesJson s.lists.uncommittedIDs),
    always "tagged_ids" (placesJson s.lists.taggedIDs),
    always "archived_only_ids" (placesJson s.lists.archivedOnlyIDs),
    always "ahead_ids" (placesJson s.lists.aheadIDs),
    always "ahead_tips" (placesJson s.lists.aheadTips),
    always "branch_snapshots" (.obj (s.lists.branchSnapshots.map fun e => (e.1, placesJson e.2))),
    always "hold" (.arr (s.lists.hold.map (WireHold.json time))),
    always "previous" (.arr (s.lists.previous.map (WireProgress.json time)))]

def WireState.fields (s : WireState) : StructFields :=
  embedding (s.graph.fields time) (s.own time)

def WireContext.json (c : WireContext) : Json :=
  structJson (embedding c.context.fields
    [always "roots" (placesJson c.roots),
      ("snapshot_ids", if c.snapshotIDs = [] then none else some (placesJson c.snapshotIDs)),
      textUnlessEmpty "snapshot_ids_ref" c.snapshotIDsRef])

/-- The fields that `graphwire.StateV2` declares itself. -/
def WireStateV2.own (s : WireStateV2) : StructFields :=
  [always "encoding" (.str s.encoding),
    always "branch_contexts" (.obj (s.branchContexts.map fun e => (e.1, e.2.json)))]

def WireStateV2.fields (s : WireStateV2) : StructFields :=
  embedding (s.state.fields time) s.own

/-- The object that is sent for a state. -/
def sentV1 (g : GraphState) : List (String × Json) := ofStruct ((encode g).fields time)

/-- The object that is sent in the second version. -/
def sentV2 (g : GraphState) : List (String × Json) := ofStruct ((encodeV2 g).fields time)

end Instants

end Backend
end CxtHub
