/-
# What the indexed transport writes

The ids that `Encode` and `EncodeV2` meet, in order (`metV1`, `metV2`), and the lists they
write as functions of the places (`listsAt`, `contextsAt`).  The dictionary is the first
occurrences of what is met, so it has no repetition, and every place is one of it:
`encode_dictionary`, `encodeV2_dictionary`.
-/

import CxtHub.Backend.GraphWire

namespace CxtHub
namespace Backend

open Interning

variable {g : GraphState}

/-- The timelines, hold clusters and progress groups that `Encode` meets. -/
def metGroups (g : GraphState) : List ContentHash :=
  (keyOrder g.branchSnapshots.dir).flatMap (fun e => e.2.list) ++
    (g.hold.list.flatMap (fun h => h.ids.list) ++
      (g.previous.list.flatMap fun p => p.snapshotIDs.list ++ p.collapsibleIDs.list))

/-- The ids that `Encode` meets. -/
def metV1 (g : GraphState) : List ContentHash :=
  g.snapshotIDs.list ++ (g.graphIDs.list ++ (g.committedIDs.list ++ (g.historicalIDs.list ++
    (g.sharedIDs.list ++ (g.pushedIDs.list ++ (g.unpushedIDs.list ++ (g.uncommittedIDs.list ++
      (g.taggedIDs.list ++ (g.archivedOnlyIDs.list ++ (g.aheadIDs.list ++ (g.aheadTips.list ++
        metGroups g)))))))))))

/-- The ids of the timeline that `EncodeV2` writes for a context: none when it refers to
the branch. -/
def ownTimeline (g : GraphState) (branch : String) (c : BranchContext) : List ContentHash :=
  if sharesTimeline g branch c then [] else c.snapshotIDs.list

/-- The ids that `EncodeV2` meets after those of `Encode`. -/
def metV2 (g : GraphState) : List ContentHash :=
  (keyOrder g.branchContexts.dir).flatMap fun e => e.2.roots.list ++ ownTimeline g e.1 e.2

/-- The lists of `Encode`, with the places as a function. -/
def listsAt (g : GraphState) (at_ : ContentHash → UInt32) : WireLists where
  snapshotIDs := g.snapshotIDs.list.map at_
  graphIDs := g.graphIDs.list.map at_
  committedIDs := g.committedIDs.list.map at_
  historicalIDs := g.historicalIDs.list.map at_
  sharedIDs := g.sharedIDs.list.map at_
  pushedIDs := g.pushedIDs.list.map at_
  unpushedIDs := g.unpushedIDs.list.map at_
  uncommittedIDs := g.uncommittedIDs.list.map at_
  taggedIDs := g.taggedIDs.list.map at_
  archivedOnlyIDs := g.archivedOnlyIDs.list.map at_
  aheadIDs := g.aheadIDs.list.map at_
  aheadTips := g.aheadTips.list.map at_
  branchSnapshots := (keyOrder g.branchSnapshots.dir).map fun e => (e.1, e.2.list.map at_)
  hold := g.hold.list.map fun h => { tips := h.tips, ids := h.ids.list.map at_ }
  previous := g.previous.list.map fun p =>
    { group := p, snapshotIDs := p.snapshotIDs.list.map at_
      collapsibleIDs := p.collapsibleIDs.list.map at_ }

/-- The context that `EncodeV2` writes, with the places as a function. -/
def contextAt (g : GraphState) (branch : String) (c : BranchContext)
    (at_ : ContentHash → UInt32) : WireContext where
  context := c
  roots := c.roots.list.map at_
  snapshotIDs := (ownTimeline g branch c).map at_
  snapshotIDsRef := if sharesTimeline g branch c then branch else ""

/-- The contexts of `EncodeV2`, with the places as a function. -/
def contextsAt (g : GraphState) (at_ : ContentHash → UInt32) : List (String × WireContext) :=
  (keyOrder g.branchContexts.dir).map fun e => (e.1, contextAt g e.1 e.2 at_)

/-- A list of ids is encoded by interning each. -/
theorem interns_encodeIDs (ids : Slice ContentHash) :
    Interns (encodeIDs ids) ids.list (fun at_ => ids.list.map at_) := by
  have h := Interns.mapM interns_intern ids.list
  rw [List.flatMap_singleton'] at h
  exact h

/-- `Encode` interns the ids of its lists in the order in which it meets them. -/
theorem interns_encodeLists (g : GraphState) :
    Interns (encodeLists g) (metV1 g) (listsAt g) := by
  have hbranches := Interns.mapM (fun e : String × Slice ContentHash =>
    (interns_encodeIDs e.2).map fun ids => (e.1, ids)) (keyOrder g.branchSnapshots.dir)
  have hhold := Interns.mapM (fun h : GraphHoldCluster =>
    (interns_encodeIDs h.ids).map fun ids => ({ tips := h.tips, ids } : WireHold)) g.hold.list
  have hprevious := Interns.mapM (fun p : GraphProgressGroup =>
    (interns_encodeIDs p.snapshotIDs).bind fun snapshotIDs =>
      (interns_encodeIDs p.collapsibleIDs).map fun collapsibleIDs =>
        ({ group := p, snapshotIDs, collapsibleIDs } : WireProgress)) g.previous.list
  have h := (interns_encodeIDs g.snapshotIDs).bind fun snapshotIDs =>
    (interns_encodeIDs g.graphIDs).bind fun graphIDs =>
    (interns_encodeIDs g.committedIDs).bind fun committedIDs =>
    (interns_encodeIDs g.historicalIDs).bind fun historicalIDs =>
    (interns_encodeIDs g.sharedIDs).bind fun sharedIDs =>
    (interns_encodeIDs g.pushedIDs).bind fun pushedIDs =>
    (interns_encodeIDs g.unpushedIDs).bind fun unpushedIDs =>
    (interns_encodeIDs g.uncommittedIDs).bind fun uncommittedIDs =>
    (interns_encodeIDs g.taggedIDs).bind fun taggedIDs =>
    (interns_encodeIDs g.archivedOnlyIDs).bind fun archivedOnlyIDs =>
    (interns_encodeIDs g.aheadIDs).bind fun aheadIDs =>
    (interns_encodeIDs g.aheadTips).bind fun aheadTips =>
    hbranches.bind fun branchSnapshots => hhold.bind fun hold => hprevious.map fun previous =>
      ({ snapshotIDs, graphIDs, committedIDs, historicalIDs, sharedIDs, pushedIDs, unpushedIDs,
         uncommittedIDs, taggedIDs, archivedOnlyIDs, aheadIDs, aheadTips, branchSnapshots, hold,
         previous } : WireLists)
  exact h

/-- The encoder of a context interns its roots and its own timeline. -/
theorem interns_encodeContext (g : GraphState) (branch : String) (c : BranchContext) :
    Interns (encodeContext g branch c) (c.roots.list ++ ownTimeline g branch c)
      (contextAt g branch c) := by
  unfold encodeContext
  cases hshared : sharesTimeline g branch c with
  | true =>
      have hat : contextAt g branch c = fun at_ =>
          { context := c, roots := c.roots.list.map at_, snapshotIDs := []
            snapshotIDsRef := branch } := by
        funext at_
        simp [contextAt, ownTimeline, hshared]
      rw [hat, ownTimeline, hshared]
      exact (interns_encodeIDs c.roots).bind fun roots => Interns.pure _
  | false =>
      have hat : contextAt g branch c = fun at_ =>
          { context := c, roots := c.roots.list.map at_, snapshotIDs := c.snapshotIDs.list.map at_
            snapshotIDsRef := "" } := by
        funext at_
        simp [contextAt, ownTimeline, hshared]
      have h := (interns_encodeIDs c.roots).bind fun roots =>
        (interns_encodeIDs c.snapshotIDs).map fun snapshotIDs =>
          ({ context := c, roots, snapshotIDs, snapshotIDsRef := "" } : WireContext)
      rw [hat, ownTimeline, hshared]
      exact h

/-- `EncodeV2` interns the ids of all contexts in order. -/
theorem interns_encodeContexts (g : GraphState) :
    Interns (encodeContexts g) (metV2 g) (contextsAt g) :=
  Interns.mapM (fun e : String × BranchContext =>
    (interns_encodeContext g e.1 e.2).map fun c => (e.1, c)) (keyOrder g.branchContexts.dir)

/-- Every place of the lists. -/
def WireLists.places (l : WireLists) : List UInt32 :=
  l.snapshotIDs ++ (l.graphIDs ++ (l.committedIDs ++ (l.historicalIDs ++ (l.sharedIDs ++
    (l.pushedIDs ++ (l.unpushedIDs ++ (l.uncommittedIDs ++ (l.taggedIDs ++ (l.archivedOnlyIDs ++
      (l.aheadIDs ++ (l.aheadTips ++ (l.branchSnapshots.flatMap (fun e => e.2) ++
        (l.hold.flatMap (fun h => h.ids) ++
          l.previous.flatMap fun p => p.snapshotIDs ++ p.collapsibleIDs)))))))))))))

/-- Every place of a context. -/
def WireContext.places (c : WireContext) : List UInt32 := c.roots ++ c.snapshotIDs

/-- The places in the lists are those of the ids met. -/
theorem places_listsAt (at_ : ContentHash → UInt32) :
    (listsAt g at_).places = (metV1 g).map at_ := by
  simp only [WireLists.places, listsAt, metV1, metGroups, List.map_append, List.map_flatMap,
    List.flatMap_map]

/-- The places in the contexts are those of the ids met. -/
theorem places_contextsAt (at_ : ContentHash → UInt32) :
    (contextsAt g at_).flatMap (fun e => e.2.places) = (metV2 g).map at_ := by
  simp only [WireContext.places, contextsAt, contextAt, metV2, List.map_append, List.map_flatMap,
    List.flatMap_map]

/-- The dictionary of the first version. -/
def dictV1 (g : GraphState) : List ContentHash := freshFrom [] (metV1 g)

/-- The dictionary of the second version. -/
def dictV2 (g : GraphState) : List ContentHash := freshFrom [] (metV1 g ++ metV2 g)

/-- The dictionary of v1 has exactly the ids that its lists name. -/
theorem mem_dictV1 {id : ContentHash} : id ∈ dictV1 g ↔ id ∈ metV1 g := by
  simp [dictV1]

/-- That of v2 has those of the contexts besides. -/
theorem mem_dictV2 {id : ContentHash} : id ∈ dictV2 g ↔ id ∈ metV1 g ∨ id ∈ metV2 g := by
  simp [dictV2]

/-- The dictionary that `Encode` returns. -/
theorem encode_dictionary (g : GraphState) : (encode g).dictionary = dictV1 g :=
  (interns_encodeLists g).dict []

/-- The lists of `Encode`, by the places in any longer dictionary. -/
theorem encode_lists_of_isPrefix {dict : List ContentHash} (h : dictV1 g <+: dict) :
    (encode g).lists = listsAt g (place dict) :=
  (interns_encodeLists g).result [] dict (by rw [(interns_encodeLists g).dict]; exact h)

/-- The dictionary that `EncodeV2` returns. -/
theorem encodeV2_dictionary (g : GraphState) : (encodeV2 g).state.dictionary = dictV2 g := by
  refine ((interns_encodeContexts g).dict _).trans ?_
  rw [encode_dictionary]
  exact append_freshFrom_append [] (metV1 g) (metV2 g)

/-- The dictionary of v2 starts with that of v1. -/
theorem dictV1_isPrefix (g : GraphState) : dictV1 g <+: dictV2 g := by
  rw [dictV2, freshFrom_append]
  exact List.prefix_append _ _

/-- The contexts that `EncodeV2` returns. -/
theorem encodeV2_contexts (g : GraphState) :
    (encodeV2 g).branchContexts = contextsAt g (place (dictV2 g)) := by
  refine (interns_encodeContexts g).result _ _ ?_
  rw [← encodeV2_dictionary g]
  exact List.prefix_rfl

end Backend
end CxtHub
