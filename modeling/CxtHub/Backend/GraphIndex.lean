/-
# Closures over the snapshots of a view

`graphStateIndex` of `backend/internal/domain/graph_state.go` and the classification of
pending captures in `pending_state.go`.  A `graphSet` is a finite set of ids.  The index
holds the snapshots by id and is refused on a repeated id or a cycle; `graphFrom` is the
closure of one root, `graphRoots` of several.

`graphHold` walks from the unsync pointers through kept snapshots that are not shared,
and groups what it finds with a union-find whose parent map is `Roots`.  The source
unites in map order; the model in the order of the ids.

`mem_graphRoots` says what a closure holds.
-/

import CxtHub.Backend.GraphData
import CxtHub.Backend.JoinOrder

namespace CxtHub
namespace Backend

open Relation Worklist CxtHub.Graph

variable {snaps : List Snapshot}

/-- `graphSet`. -/
abbrev GraphSet := Finset ContentHash

/-- `graphIDs`: the ids in order. -/
def graphIDs (s : GraphSet) : List ContentHash := s.sort (· ≤ ·)

@[simp] theorem mem_graphIDs {s : GraphSet} {id : ContentHash} : id ∈ graphIDs s ↔ id ∈ s :=
  Finset.mem_sort _

theorem nodup_graphIDs (s : GraphSet) : (graphIDs s).Nodup := Finset.sort_nodup _ _

/-! ### The index -/

/-- The loop of `newGraphStateIndex` that fills `byID`. -/
def indexSnapshots : List ContentHash → List Snapshot → Except DomainError Unit
  | _, [] => .ok ()
  | seen, s :: snaps => do
      refuse (s.id ∈ seen)
        { sentinel := .integrity, format := "duplicate graph snapshot %s", args := [s.id] }
      indexSnapshots (s.id :: seen) snaps

/-- `newGraphStateIndex`: the snapshots have distinct ids and no cycle. -/
def newGraphStateIndex (snaps : List Snapshot) : Except DomainError Unit := do
  indexSnapshots [] snaps
  validateAcyclicAncestry snaps

/-- The index refuses duplicates only. -/
theorem indexSnapshots_eq_ok {seen : List ContentHash} :
    indexSnapshots seen snaps = .ok () ↔
      (snaps.map Snapshot.id).Nodup ∧ ∀ s ∈ snaps, s.id ∉ seen := by
  induction snaps generalizing seen with
  | nil => simp [indexSnapshots]
  | cons s snaps ih =>
      simp only [indexSnapshots, bind_eq_ok, exists_unit_iff, refuse_eq_ok, ih, List.mem_cons,
        not_or, forall_eq_or_imp, List.map_cons, List.nodup_cons, List.mem_map, not_exists,
        not_and]
      constructor
      · rintro ⟨hs, hn, hfresh⟩
        exact ⟨⟨fun t ht => (hfresh t ht).1, hn⟩, hs, fun t ht => (hfresh t ht).2⟩
      · rintro ⟨⟨hnew, hn⟩, hs, hfresh⟩
        exact ⟨hs, hn, fun t ht => ⟨hnew t ht, hfresh t ht⟩⟩

/-- And cycles. -/
theorem newGraphStateIndex_eq_ok :
    newGraphStateIndex snaps = .ok () ↔
      (snaps.map Snapshot.id).Nodup ∧ Acyclic (Parent snaps) := by
  simp only [newGraphStateIndex, bind_eq_ok, exists_unit_iff, indexSnapshots_eq_ok,
    List.not_mem_nil, not_false_eq_true, implies_true, and_true]
  exact and_congr_right fun hn => validateAcyclicAncestry_eq_ok hn

/-- The parents of an id that are in the index. -/
def presentParents (snaps : List Snapshot) (id : ContentHash) : List ContentHash :=
  (parentsOf snaps id).filter fun p => (byID snaps p).isSome

/-- `x.missing`: a parent is not in the index. -/
def missingParent (snaps : List Snapshot) (id : ContentHash) : Bool :=
  (parentsOf snaps id).any fun p => (byID snaps p).isNone

/-- `graphClosure`. -/
structure GraphClosure where
  ids : GraphSet
  complete : Bool

/-- `graphStateIndex.from`. -/
def graphFrom (snaps : List Snapshot) (root : ContentHash) : GraphClosure :=
  if (byID snaps root).isSome then
    let ids := reach (presentParents snaps) (fun _ => false) (snaps.map Snapshot.id) [root]
    { ids := ids.toFinset, complete := !ids.any (missingParent snaps) }
  else { ids := ∅, complete := false }

/-- `graphStateIndex.roots`: the closure of the roots, without what is not in the
index. -/
def graphRoots (snaps : List Snapshot) (roots : List ContentHash) : GraphSet :=
  (snapshotReachableSet snaps roots).toFinset.filter fun id => (byID snaps id).isSome

/-- The stored snapshots that are reached from the roots. -/
theorem mem_graphRoots {roots : List ContentHash} {id : ContentHash} :
    id ∈ graphRoots snaps roots ↔
      (byID snaps id).isSome = true ∧ id ≠ "" ∧ ∃ r ∈ roots, ReflTransGen (Step snaps) r id := by
  rw [graphRoots, Finset.mem_filter, List.mem_toFinset, mem_snapshotReachableSet, and_comm]

/-- More roots reach more. -/
theorem graphRoots_subset {roots roots' : List ContentHash}
    (h : ∀ r ∈ roots, r ∈ roots') : graphRoots snaps roots ⊆ graphRoots snaps roots' := by
  intro id hid
  obtain ⟨hin, hne, r, hr, hpath⟩ := mem_graphRoots.1 hid
  exact mem_graphRoots.2 ⟨hin, hne, r, h r hr, hpath⟩

/-! ### Captures on hold -/

/-- The parent map of the union-find in `graphHold`. -/
abbrev Roots := ContentHash → ContentHash

/-- The first loop of `find`: up to the root. -/
def findRoot (roots : Roots) : ℕ → ContentHash → ContentHash
  | 0, id => id
  | n + 1, id => if roots id = id then id else findRoot roots n (roots id)

/-- The second loop of `find`: every node on the way is hung on the root. -/
def compress (r : ContentHash) : ℕ → Roots → ContentHash → Roots
  | 0, roots, _ => roots
  | n + 1, roots, id =>
      if roots id = r then roots else compress r n (Function.update roots id r) (roots id)

/-- `find`, on a forest of at most `n` nodes. -/
def find (n : ℕ) (roots : Roots) (id : ContentHash) : ContentHash × Roots :=
  let r := findRoot roots n id
  (r, compress r n roots id)

/-- `roots[find(id)] = find(p)`. -/
def unite (n : ℕ) (roots : Roots) (id p : ContentHash) : Roots :=
  let first := find n roots id
  let second := find n first.2 p
  Function.update second.2 first.1 second.1

/-- The held ids: from the unsync targets through kept snapshots that are not shared. -/
def holdSet (unsync : List Unsync) (snaps : List Snapshot) (shared kept : GraphSet) : GraphSet :=
  (reach (parentsOf snaps) (fun id => decide (id ∈ shared) || decide (id ∉ kept))
    (snaps.map Snapshot.id) (unsync.map Unsync.target)).toFinset

/-- The union-find after all held edges. -/
def holdRoots (snaps : List Snapshot) (hold : GraphSet) : Roots :=
  (graphIDs hold).foldl (fun roots id =>
    ((parentsOf snaps id).filter (· ∈ hold)).foldl (fun roots p => unite hold.card roots id p)
      roots) id

/-- When a snapshot was created; the zero time when it is missing. -/
def createdAtOf (snaps : List Snapshot) (id : ContentHash) : ℕ :=
  ((byID snaps id).map Snapshot.createdAt).getD 0

/-- Newest first, then by a key: the comparisons of the `sort.Slice` calls. -/
def newestFirst {α : Type} (at_ : α → ℕ) (key : α → String) (a b : α) : Bool :=
  if at_ a = at_ b then decide (key a ≤ key b) else decide (at_ b < at_ a)

/-- The cluster of a root. -/
def holdCluster (unsync : List Unsync) (snaps : List Snapshot) (hold : GraphSet)
    (rep : ContentHash → ContentHash) (root : ContentHash) : GraphHoldCluster :=
  { ids := some (((graphIDs hold).filter fun id => rep id = root).mergeSort
      (newestFirst (createdAtOf snaps) id))
    tips := some ((unsync.filter fun u => u.target ∈ hold ∧ rep u.target = root).mergeSort
      (newestFirst Unsync.updatedAt fun u => u.user ++ "/" ++ u.branch)) }

/-- The instant that orders a cluster: its newest tip, else its newest capture. -/
def clusterTime (snaps : List Snapshot) (c : GraphHoldCluster) : ℕ :=
  match c.tips.list, c.ids.list with
  | u :: _, _ => u.updatedAt
  | [], id :: _ => createdAtOf snaps id
  | [], [] => 0

/-- `graphHold`. -/
def graphHold (unsync : List Unsync) (snaps : List Snapshot) (shared kept : GraphSet) :
    List GraphHoldCluster × GraphSet :=
  let hold := holdSet unsync snaps shared kept
  let rep := findRoot (holdRoots snaps hold) hold.card
  let clusters := ((graphIDs hold).map rep).dedup.map (holdCluster unsync snaps hold rep)
  (clusters.mergeSort (newestFirst (clusterTime snaps) fun c => c.ids.list.headD ""), hold)

/-! ### The classification of captures -/

/-- The roots that a reflog entry or a history event proves were once shared. -/
def historicalRoots (v : RepositoryView) : List ContentHash :=
  (v.reflog.filter fun e => e.kind = .branch).flatMap (fun e => [e.old, e.new]) ++
  v.history.flatMap fun e =>
    match e.kind with
    | .advance => [e.source, e.target]
    | .publish => [e.target]
    | .prMerge => if e.prCompleted then [e.source, e.target, e.sharedTarget] else []
    | _ => []

/-- `pendingClassification`. -/
structure PendingClassification where
  historical : GraphSet
  shared : GraphSet
  kept : GraphSet
  inHold : GraphSet
  hold : List GraphHoldCluster
  pendings : List PendingPointer
  roots : List ContentHash
  orphans : List String
  counts : Dir String ℤ

/-- `counts[branch] += n`. -/
def addCount (counts : Dir String ℤ) (branch : String) (n : ℤ) : Dir String ℤ :=
  counts.set branch ((counts.get branch).getD 0 + n)

/-- `classifyPending`. -/
def classifyPending (v : RepositoryView) (sharedRoots : List ContentHash) :
    PendingClassification :=
  let historical := graphRoots v.snapshots (historicalRoots v)
  let shared := graphRoots v.snapshots sharedRoots ∪ historical
  let kept := ((v.snapshots.filter fun s => s.branch ≠ "(stash)" ∨ s.id ∈ shared).map
    Snapshot.id).toFinset
  let held := graphHold v.unsync v.snapshots shared kept
  let pendings :=
    v.pending.mergeSort (newestFirst PendingPointer.updatedAt PendingPointer.sessionID)
  let waiting := pendings.filter fun p =>
    p.dismissed = false ∧ p.target ∉ shared ∧ p.target ∉ held.2
  let perPending := waiting.foldl (fun counts p => addCount counts p.branch 1) Dir.empty
  { historical := historical
    shared := shared
    kept := kept
    inHold := held.2
    hold := held.1
    pendings := pendings
    roots := waiting.map PendingPointer.target
    orphans := waiting.map PendingPointer.sessionID
    counts := held.1.foldl (fun counts c =>
      (c.tips.list.map Unsync.branch).dedup.foldl
        (fun counts branch => addCount counts branch c.ids.list.length) counts) perPending }

/-- What the shared roots reach is shared. -/
theorem graphRoots_subset_shared (v : RepositoryView) (sharedRoots : List ContentHash) :
    graphRoots v.snapshots sharedRoots ⊆ (classifyPending v sharedRoots).shared :=
  Finset.subset_union_left

end Backend
end CxtHub
