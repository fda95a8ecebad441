/-
# Ancestry in the evidence of merges

`context_ancestry.go`.  Whether one snapshot is an ancestor of another is asked for every
merge of a repository's history, so `newContextAncestry` first gives each snapshot the
interval of a depth-first search.  An interval inside another proves an ancestor; where
there is none, `reaches` walks the graph.

The intervals depend on the order in which a range over the map meets the snapshots,
which is arbitrary and may differ from loop to loop (`Ranges`).  The answers do not:
they are the paths through the snapshots of the map (`reaches_iff_path`).
-/

import CxtHub.Backend.Snapshot
import CxtHub.Lib.Intervals

namespace CxtHub
namespace Backend

open Relation

/-- A map of snapshots.  A key need not be the id of its snapshot. -/
structure SnapshotMap where
  entries : List (ContentHash × Snapshot)
  nodup : (entries.map Prod.fst).Nodup

def SnapshotMap.keys (nodes : SnapshotMap) : List ContentHash := nodes.entries.map Prod.fst

/-- `_, ok := nodes[id]`. -/
def SnapshotMap.has (nodes : SnapshotMap) (id : ContentHash) : Bool := decide (id ∈ nodes.keys)

/-- An id is there when it has an entry. -/
theorem SnapshotMap.has_iff {nodes : SnapshotMap} {id : ContentHash} :
    nodes.has id = true ↔ ∃ s, (id, s) ∈ nodes.entries := by
  rw [has, decide_eq_true_iff, keys, List.mem_map]
  constructor
  · rintro ⟨⟨_, s⟩, hs, rfl⟩
    exact ⟨s, hs⟩
  · exact fun ⟨s, hs⟩ => ⟨_, hs, rfl⟩

/-- The orders in which the three loops over the map meet its entries. -/
structure Ranges (nodes : SnapshotMap) where
  edges : List (ContentHash × Snapshot)
  edges_perm : edges.Perm nodes.entries
  tips : List (ContentHash × Snapshot)
  tips_perm : tips.Perm nodes.entries
  all : List (ContentHash × Snapshot)
  all_perm : all.Perm nodes.entries

/-- `contextAncestry`. -/
structure ContextAncestry where
  nodes : SnapshotMap
  edges : ContentHash → List ContentHash
  tree : ContentHash → Option Intervals.Interval

/-- The parents that count in a mode.  A snapshot that was grafted before graft parents
were recorded has what it was grafted on in its first natural slot, and that is no
conversation. -/
def ancestryParents (conversation : Bool) (s : Snapshot) : List ContentHash :=
  if conversation then
    if s.grafted && s.graftParents.list.length = 0 && decide (0 < s.parents.list.length) then
      s.parents.list.drop 1
    else s.parents.list
  else s.reachabilityParents

/-- The first loop: the edges, and the ids that are somebody's parent. -/
def collectEdges (conversation : Bool) (range : List (ContentHash × Snapshot)) :
    (ContentHash → List ContentHash) × List ContentHash :=
  range.foldl
    (fun acc entry =>
      let parents := ancestryParents conversation entry.2
      (Function.update acc.1 entry.1 parents, acc.2 ++ parents))
    (fun _ => [], [])

def newContextAncestry (nodes : SnapshotMap) (conversation : Bool) (ranges : Ranges nodes) :
    ContextAncestry :=
  let (edges, nonTips) := collectEdges conversation ranges.edges
  let visit := Intervals.visit edges nodes.has nodes.keys
  let tips := (ranges.tips.map Prod.fst).filter (· ∉ nonTips)
  let s := tips.foldl visit {}
  let s := (ranges.all.map Prod.fst).foldl visit s
  { nodes := nodes, edges := edges, tree := s.tree }

def ContextAncestry.reaches (a : ContextAncestry) (root target : ContentHash) : Bool :=
  match a.tree root, a.tree target with
  | some r, some t =>
      if r.start ≤ t.start ∧ t.start < r.finish then true
      else Worklist.reaches a.edges (fun _ => false) a.nodes.keys root target
  | _, _ => false

/-! ## The graph -/

/-- The edge from a snapshot of the map to a parent in the map. -/
def AncestryEdge (nodes : SnapshotMap) (conversation : Bool) (a b : ContentHash) : Prop :=
  (∃ s, (a, s) ∈ nodes.entries ∧ b ∈ ancestryParents conversation s) ∧ nodes.has b = true

section Edges

variable {conversation : Bool} {range : List (ContentHash × Snapshot)}

/-- One more snapshot sets its own edges. -/
theorem collectEdges_append (conversation : Bool) (range : List (ContentHash × Snapshot))
    (entry : ContentHash × Snapshot) :
    (collectEdges conversation (range ++ [entry])).1 =
      Function.update (collectEdges conversation range).1 entry.1
        (ancestryParents conversation entry.2) := by
  simp only [collectEdges, List.foldl_append, List.foldl_cons, List.foldl_nil]

/-- An id without a snapshot has no edges. -/
theorem collectEdges_of_notMem {id : ContentHash} (h : id ∉ range.map Prod.fst) :
    (collectEdges conversation range).1 id = [] := by
  induction range using List.reverseRecOn with
  | nil => rfl
  | append_singleton range entry ih =>
      simp only [List.map_append, List.map_cons, List.map_nil, List.mem_append,
        List.mem_singleton, not_or] at h
      rw [collectEdges_append, Function.update_of_ne h.2]
      exact ih h.1

/-- In any order of the map, a snapshot has the edges to its parents. -/
theorem collectEdges_of_mem (hnodup : (range.map Prod.fst).Nodup) {id : ContentHash} {s : Snapshot}
    (h : (id, s) ∈ range) :
    (collectEdges conversation range).1 id = ancestryParents conversation s := by
  induction range using List.reverseRecOn with
  | nil => cases h
  | append_singleton range entry ih =>
      rw [List.map_append, List.nodup_append] at hnodup
      obtain ⟨hrange, -, hdisjoint⟩ := hnodup
      rw [collectEdges_append]
      rcases List.mem_append.1 h with h | h
      · have hne : id ≠ entry.1 := hdisjoint id (List.mem_map.2 ⟨_, h, rfl⟩) entry.1 (by simp)
        rw [Function.update_of_ne hne]
        exact ih hrange h
      · rw [← List.mem_singleton.1 h, Function.update_self]

end Edges

section Reaches

variable {nodes : SnapshotMap} {conversation : Bool} {ranges : Ranges nodes}

/-- Any order of the map has the same ids. -/
theorem mem_keys_of_perm {range : List (ContentHash × Snapshot)} (h : range.Perm nodes.entries)
    {id : ContentHash} : id ∈ range.map Prod.fst ↔ nodes.has id = true := by
  rw [(h.map Prod.fst).mem_iff, SnapshotMap.has, decide_eq_true_eq, SnapshotMap.keys]

theorem nodup_keys_of_perm {range : List (ContentHash × Snapshot)} (h : range.Perm nodes.entries) :
    (range.map Prod.fst).Nodup :=
  (h.map Prod.fst).nodup_iff.2 nodes.nodup

/-- The edges do not depend on the order of the first loop. -/
theorem mem_edges_iff {a b : ContentHash} :
    b ∈ (newContextAncestry nodes conversation ranges).edges a ↔
      ∃ s, (a, s) ∈ nodes.entries ∧ b ∈ ancestryParents conversation s := by
  have hnodup := nodup_keys_of_perm ranges.edges_perm
  have hedges : (newContextAncestry nodes conversation ranges).edges =
      (collectEdges conversation ranges.edges).1 := rfl
  rw [hedges]
  constructor
  · intro hb
    by_cases ha : a ∈ ranges.edges.map Prod.fst
    · obtain ⟨⟨_, s⟩, hs, rfl⟩ := List.mem_map.1 ha
      rw [collectEdges_of_mem hnodup hs] at hb
      exact ⟨s, ranges.edges_perm.mem_iff.1 hs, hb⟩
    · rw [collectEdges_of_notMem ha] at hb
      cases hb
  · rintro ⟨s, hs, hb⟩
    rw [collectEdges_of_mem hnodup (ranges.edges_perm.mem_iff.2 hs)]
    exact hb

/-- The edges of the search are the edges between snapshots of the map. -/
theorem intervalEdge_iff {a b : ContentHash} :
    Intervals.Edge (newContextAncestry nodes conversation ranges).edges nodes.has a b ↔
      AncestryEdge nodes conversation a b := by
  rw [Intervals.Edge, mem_edges_iff, AncestryEdge, @SnapshotMap.has_iff nodes a]
  constructor
  · exact fun ⟨_, hs, hb⟩ => ⟨hs, hb⟩
  · exact fun ⟨⟨s, hs, hparent⟩, hb⟩ => ⟨⟨s, hs⟩, ⟨s, hs, hparent⟩, hb⟩

/-- A walk that ends in the map stays in it: a snapshot that is missing has no parents. -/
theorem path_of_walk {root target : ContentHash} (htarget : nodes.has target = true)
    (h : ReflTransGen
      (Worklist.Edge (newContextAncestry nodes conversation ranges).edges fun _ => false)
      root target) :
    ReflTransGen (AncestryEdge nodes conversation) root target := by
  induction h using ReflTransGen.head_induction_on with
  | refl => exact .refl
  | head hedge hrest ih =>
      have hparent := mem_edges_iff.1 hedge.2
      refine ih.head ⟨hparent, ?_⟩
      rcases hrest.cases_head with rfl | ⟨c, hnext, -⟩
      · exact htarget
      · obtain ⟨s, hs, -⟩ := mem_edges_iff.1 hnext.2
        exact SnapshotMap.has_iff.2 ⟨s, hs⟩

/-- A path of the ancestry is one of the walk. -/
theorem walk_of_path {root target : ContentHash}
    (h : ReflTransGen (AncestryEdge nodes conversation) root target) :
    ReflTransGen
      (Worklist.Edge (newContextAncestry nodes conversation ranges).edges fun _ => false)
      root target :=
  ReflTransGen.mono (fun _ _ hedge => ⟨rfl, mem_edges_iff.2 hedge.1⟩) _ _ h

variable (nodes conversation ranges) in
/-- The search has an interval for the snapshots of the map and for no other id, and the
intervals are sound. -/
theorem exists_search :
    ∃ s, (newContextAncestry nodes conversation ranges).tree = s.tree ∧
      Intervals.Sound (newContextAncestry nodes conversation ranges).edges nodes.has s ∧
      s.stack = [] ∧ ∀ id, (s.tree id).isSome ↔ nodes.has id = true := by
  have hdom : ∀ p, nodes.has p = true → p ∈ nodes.keys := fun p => decide_eq_true_iff.1
  let tips := (ranges.tips.map Prod.fst).filter (· ∉ (collectEdges conversation ranges.edges).2)
  have htips : ∀ r ∈ tips, nodes.has r = true := fun r hr =>
    (mem_keys_of_perm ranges.tips_perm).1 (List.mem_filter.1 hr).1
  obtain ⟨hsound, hstack, -, -⟩ := Intervals.Sound.init.visits hdom rfl htips
  obtain ⟨hsound, hstack, -, hentered⟩ := hsound.visits hdom hstack
    fun r hr => (mem_keys_of_perm ranges.all_perm).1 hr
  refine ⟨_, rfl, hsound, hstack, fun id => ⟨fun hid => ?_, fun hid => ?_⟩⟩
  · obtain ⟨v, hv⟩ := Option.isSome_iff_exists.1 hid
    exact hsound.present_of_entered id v hv
  · exact hentered id ((mem_keys_of_perm ranges.all_perm).2 hid)

end Reaches

/-- **Ancestry is reachability**, whatever the map and the order of its iteration: there is
a path of zero or more parents through snapshots of the map. -/
theorem reaches_iff_path (nodes : SnapshotMap) (conversation : Bool) (ranges : Ranges nodes)
    (root target : ContentHash) :
    (newContextAncestry nodes conversation ranges).reaches root target = true ↔
      nodes.has root = true ∧ nodes.has target = true ∧
        ReflTransGen (AncestryEdge nodes conversation) root target := by
  obtain ⟨s, htree, hsound, -, hsome⟩ := exists_search nodes conversation ranges
  rw [← hsome root, ← hsome target, ContextAncestry.reaches, htree]
  cases hr : s.tree root with
  | none => simp
  | some r =>
      cases ht : s.tree target with
      | none => simp
      | some t =>
          have htarget : nodes.has target = true := (hsome target).1 (by rw [ht]; rfl)
          simp only [Option.isSome_some, true_and]
          split_ifs with hinside
          · refine iff_of_true rfl ?_
            exact ReflTransGen.mono (fun _ _ => intervalEdge_iff.1) _ _
              (hsound.reach_of_interval hr ht hinside.1 hinside.2)
          · have hmissing : ∀ b, b ∉ nodes.keys →
                (newContextAncestry nodes conversation ranges).edges b = [] := by
              intro b hb
              refine List.eq_nil_iff_forall_not_mem.2 fun c hc => hb ?_
              obtain ⟨s, hs, -⟩ := mem_edges_iff.1 hc
              exact List.mem_map.2 ⟨_, hs, rfl⟩
            exact (Worklist.reaches_iff hmissing root target).trans
              ⟨path_of_walk htarget, walk_of_path⟩

end Backend
end CxtHub
