/-
# Clusters of captures on hold

`graphHold` of `backend/internal/domain/graph_state.go`, with the orders in which its
maps are ranged over as a parameter (`HoldOrders`) and the turns of the loops of `find`
counted.  `find` compresses the parent map wherever it is called: in the unions, when the
ids are grouped, and when the tips of a cluster are picked.

The clusters are the connected components of the held subgraph, for every order
(`graphHold_clusters_connected`).  `graphHold` of `CxtHub.Backend.GraphIndex`, which the
projection uses, is the run for one order (`graphHold_eq_graphHoldIn`).
-/

import CxtHub.Backend.GraphIndex
import CxtHub.Lib.UnionFind

namespace CxtHub
namespace Backend

open Relation Worklist

variable {ids : List ContentHash} {e : ContentHash × List ContentHash}

/-- The orders in which `graphHold` ranges over its maps. -/
structure HoldOrders where
  edges : GraphSet → List ContentHash
  members : GraphSet → List ContentHash
  clusters : List (ContentHash × List ContentHash) → List (ContentHash × List ContentHash)
  edges_perm : ∀ hold, (edges hold).Perm (graphIDs hold)
  members_perm : ∀ hold, (members hold).Perm (graphIDs hold)
  clusters_perm : ∀ groups, (clusters groups).Perm groups

/-- The edges inside the held set, as the two loops meet them. -/
def heldEdges (snaps : List Snapshot) (hold : GraphSet) (order : List ContentHash) :
    List (ContentHash × ContentHash) :=
  order.flatMap fun id => ((parentsOf snaps id).filter (· ∈ hold)).map fun p => (id, p)

/-- `groups[root] = append(groups[root], id)`. -/
def addMember (groups : Dir ContentHash (List ContentHash)) (root id : ContentHash) :
    Dir ContentHash (List ContentHash) :=
  groups.set root ((groups.get root).getD [] ++ [id])

/-- The loop that fills `groups`. -/
def holdGroups (turns : ℕ) : Roots → Dir ContentHash (List ContentHash) → List ContentHash →
    Option (Dir ContentHash (List ContentHash) × Roots)
  | roots, groups, [] => some (groups, roots)
  | roots, groups, id :: ids => do
      let (root, roots) ← UnionFind.find turns roots id
      holdGroups turns roots (addMember groups root id) ids

/-- The loop that picks the tips of a cluster. -/
def holdTips (turns : ℕ) (hold : GraphSet) (root : ContentHash) : Roots → List Unsync →
    Option (List Unsync × Roots)
  | roots, [] => some ([], roots)
  | roots, u :: unsync =>
      if u.target ∈ hold then do
        let (r, roots) ← UnionFind.find turns roots u.target
        let (tips, roots) ← holdTips turns hold root roots unsync
        some (if r = root then u :: tips else tips, roots)
      else holdTips turns hold root roots unsync

/-- A cluster with its lists sorted. -/
def sortedCluster (snaps : List Snapshot) (ids : List ContentHash) (tips : List Unsync) :
    GraphHoldCluster :=
  { ids := some (ids.mergeSort (newestFirst (createdAtOf snaps) id))
    tips := some (tips.mergeSort
      (newestFirst Unsync.updatedAt fun u => u.user ++ "/" ++ u.branch)) }

/-- The loop over `groups`. -/
def holdClusters (turns : ℕ) (unsync : List Unsync) (snaps : List Snapshot) (hold : GraphSet) :
    Roots → List (ContentHash × List ContentHash) → Option (List GraphHoldCluster)
  | _, [] => some []
  | roots, (root, ids) :: groups => do
      let (tips, roots) ← holdTips turns hold root roots unsync
      let rest ← holdClusters turns unsync snaps hold roots groups
      some (sortedCluster snaps ids tips :: rest)

/-- The last sort of `graphHold`. -/
def sortClusters (snaps : List Snapshot) (clusters : List GraphHoldCluster) :
    List GraphHoldCluster :=
  clusters.mergeSort (newestFirst (clusterTime snaps) fun c => c.ids.list.headD "")

/-- `graphHold`, where the maps are ranged over in the given orders and no loop of `find` may take
more than `turns` turns. -/
def graphHoldIn (o : HoldOrders) (turns : ℕ) (unsync : List Unsync) (snaps : List Snapshot)
    (shared kept : GraphSet) : Option (List GraphHoldCluster × GraphSet) := do
  let hold := holdSet unsync snaps shared kept
  let roots ← UnionFind.uniteAll turns id (heldEdges snaps hold (o.edges hold))
  let (groups, roots) ← holdGroups turns roots Dir.empty (o.members hold)
  let clusters ← holdClusters turns unsync snaps hold roots (o.clusters groups.entries)
  some (sortClusters snaps clusters, hold)

/-! ### The held set -/

/-- A step from a kept snapshot that is not shared to a parent. -/
def HoldStep (snaps : List Snapshot) (shared kept : GraphSet) (a b : ContentHash) : Prop :=
  (a ∈ kept ∧ a ∉ shared) ∧ b ∈ parentsOf snaps a

/-- What is on hold: kept, not shared, and reached from an unsync target through such snapshots. -/
def OnHold (unsync : List Unsync) (snaps : List Snapshot) (shared kept : GraphSet)
    (id : ContentHash) : Prop :=
  (id ∈ kept ∧ id ∉ shared) ∧ ∃ u ∈ unsync, ReflTransGen (HoldStep snaps shared kept) u.target id

/-- What is on hold. -/
theorem mem_holdSet {unsync : List Unsync} {snaps : List Snapshot} {shared kept : GraphSet}
    {id : ContentHash} :
    id ∈ holdSet unsync snaps shared kept ↔ OnHold unsync snaps shared kept id := by
  have hdom : ∀ b, b ∉ snaps.map Snapshot.id → parentsOf snaps b = [] :=
    fun b hb => parentsOf_of_notMem hb
  have hstop : ∀ a, (decide (a ∈ shared) || decide (a ∉ kept)) = false ↔ a ∈ kept ∧ a ∉ shared := by
    intro a
    simp [and_comm]
  have hedge : Edge (parentsOf snaps) (fun a => decide (a ∈ shared) || decide (a ∉ kept)) =
      HoldStep snaps shared kept := by
    funext a b
    exact propext (and_congr_left fun _ => hstop a)
  rw [holdSet, List.mem_toFinset, mem_reach hdom, hstop, hedge, OnHold]
  simp only [List.mem_map, exists_exists_and_eq_and]

/-! ### The loops -/

/-- A parent map on the held ids with the given roots. -/
structure HasRoots (hold : GraphSet) (rep : ContentHash → ContentHash) (roots : Roots) : Prop where
  forest : UnionFind.Forest hold roots
  rep : ∀ id, UnionFind.Rep roots id (rep id)

section Loops

variable {hold : GraphSet} {rep : ContentHash → ContentHash} {roots : Roots} {turns : ℕ}
  (hturns : hold.card ≤ turns)

include hturns

/-- Finding a root gives the representative, and keeps the representatives. -/
theorem find_eq_rep (h : HasRoots hold rep roots) {id : ContentHash} (hid : id ∈ hold) :
    ∃ roots', UnionFind.find turns roots id = some (rep id, roots') ∧ HasRoots hold rep roots' := by
  obtain ⟨r, roots', hfind, hr, hforest, hsame⟩ := h.forest.find hid hturns
  obtain rfl := hr.unique (h.rep id)
  exact ⟨roots', hfind, hforest, fun x => (hsame x _).2 (h.rep x)⟩

/-- The groups are those of the representatives. -/
theorem holdGroups_eq (h : HasRoots hold rep roots)
    (hids : ∀ id ∈ ids, id ∈ hold) (groups : Dir ContentHash (List ContentHash)) :
    ∃ roots', holdGroups turns roots groups ids =
        some (ids.foldl (fun groups id => addMember groups (rep id) id) groups, roots') ∧
      HasRoots hold rep roots' := by
  induction ids generalizing roots groups with
  | nil => exact ⟨roots, rfl, h⟩
  | cons id ids ih =>
      obtain ⟨mid, hfind, hmid⟩ := find_eq_rep hturns h (hids id List.mem_cons_self)
      obtain ⟨roots', hrest, hend⟩ :=
        ih hmid (fun x hx => hids x (List.mem_cons_of_mem _ hx)) (addMember groups (rep id) id)
      refine ⟨roots', ?_, hend⟩
      rw [holdGroups, hfind]
      exact hrest

/-- The tips of a group are those that point into it. -/
theorem holdTips_eq (h : HasRoots hold rep roots) (root : ContentHash) (unsync : List Unsync) :
    ∃ roots', holdTips turns hold root roots unsync =
        some (unsync.filter fun u => u.target ∈ hold ∧ rep u.target = root, roots') ∧
      HasRoots hold rep roots' := by
  induction unsync generalizing roots with
  | nil => exact ⟨roots, rfl, h⟩
  | cons u unsync ih =>
      rw [holdTips]
      split_ifs with hu
      · obtain ⟨mid, hfind, hmid⟩ := find_eq_rep hturns h hu
        obtain ⟨roots', hrest, hend⟩ := ih hmid
        refine ⟨roots', ?_, hend⟩
        rw [hfind]
        by_cases hroot : rep u.target = root <;> simp [hrest, hu, hroot]
      · obtain ⟨roots', hrest, hend⟩ := ih h
        exact ⟨roots', by simp [hrest, hu], hend⟩

/-- The clusters, one for each group. -/
theorem holdClusters_eq (h : HasRoots hold rep roots) (unsync : List Unsync)
    (snaps : List Snapshot) (groups : List (ContentHash × List ContentHash)) :
    holdClusters turns unsync snaps hold roots groups =
      some (groups.map fun e => sortedCluster snaps e.2
        (unsync.filter fun u => u.target ∈ hold ∧ rep u.target = e.1)) := by
  induction groups generalizing roots with
  | nil => rfl
  | cons e groups ih =>
      obtain ⟨mid, htips, hmid⟩ := holdTips_eq hturns h e.1 unsync
      rw [holdClusters, htips]
      simp [ih hmid]

end Loops

/-! ### The groups -/

/-- The groups by the root of each id, in the order of the ids. -/
def groupsBy (rep : ContentHash → ContentHash) (ids : List ContentHash) :
    Dir ContentHash (List ContentHash) :=
  ids.foldl (fun groups id => addMember groups (rep id) id) Dir.empty

/-- What a group has after the loop. -/
theorem get_addMembers (rep : ContentHash → ContentHash) (ids : List ContentHash)
    (groups : Dir ContentHash (List ContentHash)) (root : ContentHash) :
    (ids.foldl (fun groups id => addMember groups (rep id) id) groups).get root =
      if ids.filter (rep · = root) = [] then groups.get root
      else some ((groups.get root).getD [] ++ ids.filter (rep · = root)) := by
  induction ids generalizing groups with
  | nil => simp
  | cons id ids ih =>
      rw [List.foldl_cons, ih, addMember]
      by_cases hid : rep id = root
      · subst hid
        by_cases hrest : ids.filter (rep · = rep id) = [] <;> simp [hrest]
      · rw [Dir.get_set_of_ne _ _ (Ne.symm hid), List.filter_cons_of_neg (by simpa using hid)]

/-- An entry of the groups: a root with the ids under it. -/
theorem mem_groupsBy {rep : ContentHash → ContentHash} :
    e ∈ (groupsBy rep ids).entries ↔ e.2 = ids.filter (rep · = e.1) ∧ e.2 ≠ [] := by
  obtain ⟨root, members⟩ := e
  rw [← Dir.get_eq_some_iff, groupsBy, get_addMembers]
  split_ifs with h
  · simp [h]
  · simp only [Dir.get_empty, Option.getD_none, List.nil_append, Option.some.injEq]
    constructor
    · rintro rfl
      exact ⟨rfl, h⟩
    · rintro ⟨heq, -⟩
      exact heq.symm

/-- The groups hold every id once. -/
theorem groupsBy_flatMap_perm (rep : ContentHash → ContentHash)
    (hids : ids.Nodup) : ((groupsBy rep ids).entries.flatMap Prod.snd).Perm ids := by
  have hnodup : ((groupsBy rep ids).entries.flatMap Prod.snd).Nodup := by
    refine List.nodup_flatMap.2 ⟨fun e he => ?_, ?_⟩
    · rw [(mem_groupsBy.1 he).1]
      exact hids.filter _
    · have hkeys := (List.pairwise_map.1 (groupsBy rep ids).nodup)
      refine hkeys.imp_of_mem fun {a b} ha hb hab => ?_
      -- An id is under one root.
      intro id hida hidb
      rw [(mem_groupsBy.1 ha).1] at hida
      rw [(mem_groupsBy.1 hb).1] at hidb
      have hra : rep id = a.1 := by simpa using (List.mem_filter.1 hida).2
      have hrb : rep id = b.1 := by simpa using (List.mem_filter.1 hidb).2
      exact hab (hra.symm.trans hrb)
  refine (List.perm_ext_iff_of_nodup hnodup hids).2 fun id => ?_
  rw [List.mem_flatMap]
  constructor
  · rintro ⟨e, he, hid⟩
    rw [(mem_groupsBy.1 he).1] at hid
    exact (List.mem_filter.1 hid).1
  · intro hid
    have hmem : id ∈ ids.filter (rep · = rep id) := List.mem_filter.2 ⟨hid, by simp⟩
    exact ⟨(rep id, ids.filter (rep · = rep id)),
      mem_groupsBy.2 ⟨rfl, List.ne_nil_of_mem hmem⟩, hmem⟩

/-! ### The components -/

/-- An edge inside the held set. -/
def HeldEdge (snaps : List Snapshot) (hold : GraphSet) (a b : ContentHash) : Prop :=
  a ∈ hold ∧ b ∈ hold ∧ b ∈ parentsOf snaps a

/-- The edges that are united link parents and children on hold. -/
theorem linked_heldEdges {snaps : List Snapshot} {hold : GraphSet} {order : List ContentHash}
    (h : order.Perm (graphIDs hold)) :
    UnionFind.Linked (heldEdges snaps hold order) = HeldEdge snaps hold := by
  funext a b
  refine propext ?_
  simp only [UnionFind.Linked, heldEdges, List.mem_flatMap, List.mem_map, List.mem_filter,
    decide_eq_true_eq, Prod.mk.injEq, HeldEdge]
  constructor
  · rintro ⟨id, hid, p, ⟨hp, hin⟩, rfl, rfl⟩
    exact ⟨mem_graphIDs.1 (h.mem_iff.1 hid), hin, hp⟩
  · rintro ⟨ha, hb, hp⟩
    exact ⟨a, h.mem_iff.2 (mem_graphIDs.2 ha), b, ⟨hp, hb⟩, rfl, rfl⟩

/-- The unions end, and the roots tell the components. -/
theorem uniteAll_heldEdges {hold : GraphSet} {turns : ℕ} (hturns : hold.card ≤ turns)
    (snaps : List Snapshot) {order : List ContentHash} (h : order.Perm (graphIDs hold)) :
    ∃ roots rep, UnionFind.uniteAll turns id (heldEdges snaps hold order) = some roots ∧
      HasRoots hold rep roots ∧
      ∀ a b, rep a = rep b ↔ EqvGen (HeldEdge snaps hold) a b := by
  have hdom : ∀ e ∈ heldEdges snaps hold order, e.1 ∈ hold ∧ e.2 ∈ hold := by
    intro e he
    have hlink : HeldEdge snaps hold e.1 e.2 := by
      rw [← linked_heldEdges h]
      exact he
    exact ⟨hlink.1, hlink.2.1⟩
  obtain ⟨roots, hunite, hjoined⟩ :=
    UnionFind.uniteAll_spec hturns hdom (UnionFind.joined_id hold)
  choose rep hrep using hjoined.forest.rooted
  refine ⟨roots, rep, hunite, ⟨hjoined.forest, hrep⟩, fun a b => ?_⟩
  rw [← linked_heldEdges h]
  refine Iff.trans ?_ hjoined.rep_iff
  constructor
  · intro heq
    exact ⟨rep b, heq ▸ hrep a, hrep b⟩
  · rintro ⟨r, ha, hb⟩
    rw [(hrep a).unique ha, (hrep b).unique hb]

@[simp] theorem list_ids_sortedCluster (snaps : List Snapshot) (ids : List ContentHash)
    (tips : List Unsync) : (sortedCluster snaps ids tips).ids.list =
      ids.mergeSort (newestFirst (createdAtOf snaps) id) := rfl

/-- The cluster of an entry of the groups. -/
def clusterOf (unsync : List Unsync) (snaps : List Snapshot) (hold : GraphSet)
    (rep : ContentHash → ContentHash) (e : ContentHash × List ContentHash) : GraphHoldCluster :=
  sortedCluster snaps e.2 (unsync.filter fun u => u.target ∈ hold ∧ rep u.target = e.1)

/-- The run of `graphHold`: the clusters of the groups by root. -/
theorem graphHoldIn_eq (o : HoldOrders) {turns : ℕ} {unsync : List Unsync} {snaps : List Snapshot}
    {shared kept hold : GraphSet} (hhold : holdSet unsync snaps shared kept = hold)
    (hturns : hold.card ≤ turns) {roots : Roots} {rep : ContentHash → ContentHash}
    (hunite : UnionFind.uniteAll turns id (heldEdges snaps hold (o.edges hold)) = some roots)
    (hroots : HasRoots hold rep roots) :
    graphHoldIn o turns unsync snaps shared kept = some (sortClusters snaps
      ((o.clusters (groupsBy rep (o.members hold)).entries).map
        (clusterOf unsync snaps hold rep)), hold) := by
  subst hhold
  have hmem : ∀ id ∈ o.members (holdSet unsync snaps shared kept),
      id ∈ holdSet unsync snaps shared kept :=
    fun id hid => mem_graphIDs.1 ((o.members_perm _).mem_iff.1 hid)
  obtain ⟨roots', hgroups, hroots'⟩ := holdGroups_eq hturns hroots hmem Dir.empty
  simp only [graphHoldIn, hunite, hgroups, Option.bind_eq_bind, Option.bind_some,
    holdClusters_eq hturns hroots']
  rfl

section Clusters

variable {unsync : List Unsync} {snaps : List Snapshot} {hold : GraphSet}
  {rep : ContentHash → ContentHash} {members : List ContentHash}
  {groups : List (ContentHash × List ContentHash)}
  (hmembers : members.Perm (graphIDs hold)) (hgroups : groups.Perm (groupsBy rep members).entries)

include hgroups

/-- No cluster is empty. -/
theorem clusterOf_ne_nil (he : e ∈ groups) :
    (clusterOf unsync snaps hold rep e).ids.list ≠ [] := by
  obtain ⟨id, hid⟩ := List.exists_mem_of_ne_nil _ (mem_groupsBy.1 (hgroups.mem_iff.1 he)).2
  refine List.ne_nil_of_mem (a := id) ?_
  rw [clusterOf, list_ids_sortedCluster, List.mem_mergeSort]
  exact hid

include hmembers

/-- What a cluster holds: the ids under one root. -/
theorem mem_clusterOf (he : e ∈ groups) {id : ContentHash} :
    id ∈ (clusterOf unsync snaps hold rep e).ids.list ↔ id ∈ hold ∧ rep id = e.1 := by
  rw [clusterOf, list_ids_sortedCluster, List.mem_mergeSort,
    (mem_groupsBy.1 (hgroups.mem_iff.1 he)).1, List.mem_filter, hmembers.mem_iff, mem_graphIDs,
    decide_eq_true_eq]

/-- The tips of a cluster point into it. -/
theorem tips_clusterOf_perm (he : e ∈ groups) :
    (clusterOf unsync snaps hold rep e).tips.list.Perm
      (unsync.filter fun u => u.target ∈ (clusterOf unsync snaps hold rep e).ids.list) := by
  have hsame : (unsync.filter fun u => u.target ∈ hold ∧ rep u.target = e.1) =
      unsync.filter fun u => u.target ∈ (clusterOf unsync snaps hold rep e).ids.list := by
    refine List.filter_congr fun u _ => ?_
    simp only [mem_clusterOf hmembers hgroups he]
  rw [← hsame]
  exact List.mergeSort_perm _ _

/-- **Each snapshot on hold is in one cluster.** -/
theorem clusters_flatMap_perm :
    ((groups.map (clusterOf unsync snaps hold rep)).flatMap fun c => c.ids.list).Perm
      (graphIDs hold) := by
  have hsorted : ((groups.map (clusterOf unsync snaps hold rep)).flatMap fun c => c.ids.list).Perm
      (groups.flatMap Prod.snd) := by
    rw [List.flatMap_map]
    exact List.Perm.flatMap_left _ fun e _ => List.mergeSort_perm _ _
  have hnodup : members.Nodup := hmembers.nodup_iff.2 (nodup_graphIDs hold)
  have hentries := (hgroups.flatMap_right Prod.snd).trans (groupsBy_flatMap_perm rep hnodup)
  exact (hsorted.trans hentries).trans hmembers

end Clusters

/-- **The clusters on hold are the connected components of the held subgraph.** -/
theorem graphHold_clusters_connected (o : HoldOrders) (turns : ℕ) (unsync : List Unsync)
    (snaps : List Snapshot) (shared kept : GraphSet)
    (hturns : (holdSet unsync snaps shared kept).card ≤ turns) :
    ∃ clusters hold, graphHoldIn o turns unsync snaps shared kept = some (clusters, hold) ∧
      (∀ id, id ∈ hold ↔ OnHold unsync snaps shared kept id) ∧
      (∀ c ∈ clusters, c.ids.list ≠ []) ∧
      (clusters.flatMap fun c => c.ids.list).Perm (graphIDs hold) ∧
      (∀ c ∈ clusters, ∀ a ∈ c.ids.list, ∀ b ∈ hold,
        (b ∈ c.ids.list ↔ EqvGen (HeldEdge snaps hold) a b)) ∧
      ∀ c ∈ clusters, c.tips.list.Perm (unsync.filter fun u => u.target ∈ c.ids.list) := by
  obtain ⟨hold, hhold⟩ : ∃ hold, holdSet unsync snaps shared kept = hold := ⟨_, rfl⟩
  rw [hhold] at hturns
  obtain ⟨roots, rep, hunite, hroots, hrep⟩ :=
    uniteAll_heldEdges hturns snaps (o.edges_perm hold)
  refine ⟨_, hold, graphHoldIn_eq o hhold hturns hunite hroots, fun id => hhold ▸ mem_holdSet, ?_⟩
  have hmembers := o.members_perm hold
  have hgroups := o.clusters_perm (groupsBy rep (o.members hold)).entries
  have hmem : ∀ c, c ∈ sortClusters snaps ((o.clusters (groupsBy rep (o.members hold)).entries).map
      (clusterOf unsync snaps hold rep)) →
      ∃ e ∈ o.clusters (groupsBy rep (o.members hold)).entries,
        clusterOf unsync snaps hold rep e = c := by
    intro c hc
    exact List.mem_map.1 (List.mem_mergeSort.1 hc)
  refine ⟨fun c hc => ?_, ?_, fun c hc a ha b hb => ?_, fun c hc => ?_⟩
  · obtain ⟨e, he, rfl⟩ := hmem c hc
    exact clusterOf_ne_nil hgroups he
  · have hsort := (List.mergeSort_perm ((o.clusters (groupsBy rep (o.members hold)).entries).map
      (clusterOf unsync snaps hold rep))
      (newestFirst (clusterTime snaps) fun c => c.ids.list.headD "")).flatMap_right
        fun c => c.ids.list
    exact hsort.trans (clusters_flatMap_perm hmembers hgroups)
  · obtain ⟨e, he, rfl⟩ := hmem c hc
    have hroot := ((mem_clusterOf hmembers hgroups he).1 ha).2
    rw [mem_clusterOf hmembers hgroups he, ← hrep a b, hroot]
    exact ⟨fun h => h.2.symm, fun h => ⟨hb, h.symm⟩⟩
  · obtain ⟨e, he, rfl⟩ := hmem c hc
    exact tips_clusterOf_perm hmembers hgroups he

/-- The orders of the ids and of the first member of each group. -/
def inOrder : HoldOrders where
  edges := graphIDs
  members := graphIDs
  clusters groups := groups
  edges_perm _ := .refl _
  members_perm _ := .refl _
  clusters_perm _ := .refl _

/-- Three captures: two in a line and one alone. -/
def heldSample : List Snapshot :=
  [{ id := "1", repoID := "", branch := "b", docHash := "1", parents := some ["2"] },
    { id := "2", repoID := "", branch := "b", docHash := "2" },
    { id := "3", repoID := "", branch := "b", docHash := "3" }]

/-- Two pointers to the captures. -/
def unsyncSample : List Unsync :=
  [{ repoID := "", user := "u", branch := "b", target := "1" },
    { repoID := "", user := "u", branch := "c", target := "3" }]

/-- The two captures in a line are in one cluster. -/
theorem graphHold_clusters_connected_line :
    ∃ clusters hold, graphHoldIn inOrder 3 unsyncSample heldSample ∅ {"1", "2", "3"} =
        some (clusters, hold) ∧
      ∃ c ∈ clusters, "1" ∈ c.ids.list ∧ "2" ∈ c.ids.list := by
  obtain ⟨clusters, hold, hrun, hhold, -, hperm, hconn, -⟩ :=
    graphHold_clusters_connected inOrder 3 unsyncSample heldSample ∅ {"1", "2", "3"}
      (by decide +kernel)
  have hone : "1" ∈ hold :=
    (hhold "1").2 ⟨by decide, unsyncSample.head (by decide), by decide, .refl⟩
  have hstep : HoldStep heldSample ∅ {"1", "2", "3"} "1" "2" := ⟨by decide, by decide⟩
  have htwo : "2" ∈ hold := (hhold "2").2
    ⟨by decide, unsyncSample.head (by decide), by decide, .single hstep⟩
  obtain ⟨c, hc, hin⟩ := List.mem_flatMap.1 (hperm.mem_iff.2 (mem_graphIDs.2 hone))
  exact ⟨clusters, hold, hrun, c, hc, hin,
    (hconn c hc "1" hin "2" htwo).2 (.rel _ _ ⟨hone, htwo, hstep.2⟩)⟩

/-! ### The run that the projection uses -/

section Projection

variable {roots roots' : Roots} {n : ℕ} {node r : ContentHash}

/-- Where the climb of the library ends, this one ends. -/
theorem findRoot_of_climb (h : UnionFind.climb roots n node = some r) :
    findRoot roots n node = r := by
  induction n generalizing node with
  | zero => cases h
  | succ n ih =>
      rw [UnionFind.climb] at h
      rw [findRoot]
      split_ifs at h ⊢
      · exact Option.some.inj h
      · exact ih h

/-- Likewise the compression. -/
theorem compress_of_some (h : UnionFind.compress r n roots node = some roots') :
    compress r n roots node = roots' := by
  induction n generalizing roots node with
  | zero => cases h
  | succ n ih =>
      rw [UnionFind.compress] at h
      rw [compress]
      split_ifs at h ⊢
      · exact Option.some.inj h
      · exact ih h

/-- Likewise the search for a root. -/
theorem find_of_some (h : UnionFind.find n roots node = some (r, roots')) :
    find n roots node = (r, roots') := by
  simp only [UnionFind.find, Option.bind_eq_bind, Option.bind_eq_some_iff, Option.some.injEq,
    Prod.mk.injEq] at h
  obtain ⟨r, hclimb, roots', hcompress, rfl, rfl⟩ := h
  rw [find, findRoot_of_climb hclimb, compress_of_some hcompress]

/-- Likewise the union. -/
theorem unite_of_some {p : ContentHash} (h : UnionFind.unite n roots node p = some roots') :
    unite n roots node p = roots' := by
  simp only [UnionFind.unite, Option.bind_eq_bind, Option.bind_eq_some_iff, Option.some.injEq,
    Prod.exists] at h
  obtain ⟨a, mid, hfirst, b, last, hsecond, rfl⟩ := h
  simp only [unite, find_of_some hfirst, find_of_some hsecond]

/-- With enough turns the loop is that of the library. -/
theorem holdRoots_of_some {snaps : List Snapshot} {hold : GraphSet}
    (h : UnionFind.uniteAll hold.card id (heldEdges snaps hold (graphIDs hold)) = some roots) :
    holdRoots snaps hold = roots := by
  have hfold : ∀ (es : List (ContentHash × ContentHash)) (start : Roots),
      UnionFind.uniteAll hold.card start es = some roots →
      es.foldl (fun roots e => unite hold.card roots e.1 e.2) start = roots := by
    intro es
    induction es with
    | nil => exact fun start h => Option.some.inj h
    | cons e es ih =>
        intro start h
        obtain ⟨mid, hunite, hrest⟩ := Option.bind_eq_some_iff.1 h
        rw [List.foldl_cons, unite_of_some hunite]
        exact ih mid hrest
  rw [← hfold _ _ h, heldEdges, List.foldl_flatMap, holdRoots]
  simp only [List.foldl_map]

/-- The root is the representative. -/
theorem findRoot_eq_rep {hold : GraphSet} {rep : ContentHash → ContentHash}
    (h : HasRoots hold rep roots) (x : ContentHash) : findRoot roots hold.card x = rep x := by
  by_cases hx : x ∈ hold
  · obtain ⟨k, hk, hend⟩ := h.forest.depth_lt hx (h.rep x)
    exact findRoot_of_climb (UnionFind.climb_eq_some (h.rep x).1 hend hk)
  · have hfix := h.forest.outside x hx
    rw [(h.rep x).unique (UnionFind.rep_self hfix)]
    cases hold.card <;> simp [findRoot, hfix]

end Projection

/-- The groups in the order in which the projection meets the roots. -/
def projectedGroups (rep : ContentHash → ContentHash) (ids : List ContentHash) :
    List (ContentHash × List ContentHash) :=
  (ids.map rep).dedup.map fun root => (root, ids.filter (rep · = root))

/-- The two ways to group give the same groups. -/
theorem projectedGroups_perm (rep : ContentHash → ContentHash) (ids : List ContentHash) :
    (projectedGroups rep ids).Perm (groupsBy rep ids).entries := by
  have hleft : (projectedGroups rep ids).Nodup := by
    refine (List.nodup_dedup _).map fun a b hab => ?_
    exact (Prod.mk.inj hab).1
  have hright : (groupsBy rep ids).entries.Nodup := (groupsBy rep ids).nodup.of_map _
  refine (List.perm_ext_iff_of_nodup hleft hright).2 fun e => ?_
  rw [mem_groupsBy, projectedGroups]
  simp only [List.mem_map, List.mem_dedup]
  constructor
  · rintro ⟨root, ⟨id, hid, rfl⟩, rfl⟩
    exact ⟨rfl, List.ne_nil_of_mem (List.mem_filter.2 ⟨hid, by simp⟩)⟩
  · rintro ⟨heq, hne⟩
    obtain ⟨id, hid⟩ := List.exists_mem_of_ne_nil _ hne
    rw [heq, List.mem_filter, decide_eq_true_eq] at hid
    exact ⟨e.1, ⟨id, hid⟩, Prod.ext rfl heq.symm⟩

/-- The projection runs `graphHold` in one of its orders. -/
theorem graphHold_eq_graphHoldIn (unsync : List Unsync) (snaps : List Snapshot)
    (shared kept : GraphSet) :
    ∃ o, graphHoldIn o (holdSet unsync snaps shared kept).card unsync snaps shared kept =
      some (graphHold unsync snaps shared kept) := by
  obtain ⟨hold, hhold⟩ : ∃ hold, holdSet unsync snaps shared kept = hold := ⟨_, rfl⟩
  obtain ⟨roots, rep, hunite, hroots, -⟩ :=
    uniteAll_heldEdges (le_refl hold.card) snaps (List.Perm.refl (graphIDs hold))
  have hrep : findRoot (holdRoots snaps hold) hold.card = rep := by
    rw [holdRoots_of_some hunite]
    exact funext (findRoot_eq_rep hroots)
  let o : HoldOrders :=
    { inOrder with
      clusters := fun groups =>
        if (projectedGroups rep (graphIDs hold)).Perm groups then
          projectedGroups rep (graphIDs hold)
        else groups
      clusters_perm := fun groups => by
        split_ifs with h
        · exact h
        · exact .refl _ }
  refine ⟨o, ?_⟩
  rw [hhold, graphHoldIn_eq o hhold le_rfl hunite hroots]
  have horder : o.clusters (groupsBy rep (graphIDs hold)).entries =
      projectedGroups rep (graphIDs hold) := if_pos (projectedGroups_perm rep (graphIDs hold))
  have hclusters : (o.clusters (groupsBy rep (o.members hold)).entries).map
      (clusterOf unsync snaps hold rep) =
      ((graphIDs hold).map rep).dedup.map (holdCluster unsync snaps hold rep) := by
    rw [show o.members hold = graphIDs hold from rfl, horder, projectedGroups, List.map_map]
    rfl
  rw [hclusters, graphHold, hhold, hrep]
  rfl

end Backend
end CxtHub
