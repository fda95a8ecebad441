/-
# The two cycle detectors

`ValidateAcyclicAncestry` of `backend/internal/domain/graph_cycle.go` counts down the
parents of every snapshot of a map, and `snapshotGraphHasCycle` of
`backend/internal/adapters/store/fs_store.go` visits the snapshots of a list depth first.
Both range over a Go map, so the order of its keys is a parameter, and both run until
nothing is left, so the number of turns is one as well; any number that is large enough
gives the same answer.

`cycle_detectors_agree`: both find a cycle exactly when a snapshot of the map reaches itself.
-/

import CxtHub.Backend.JoinOrder

namespace CxtHub
namespace Backend

open Relation CxtHub.Graph

variable {a b : ContentHash}

/-- The parents of a key; none when the map has no such key. -/
def mapParents (m : Dir ContentHash Snapshot) (id : ContentHash) : List ContentHash :=
  match m.get id with
  | some s => s.reachabilityParents
  | none => []

/-- `ValidateAcyclicAncestry` for a context that is not cancelled; `order` is the order in
which the map is ranged over. -/
def validateAncestryMap (m : Dir ContentHash Snapshot) (order : List ContentHash) (turns : ℕ) :
    Except DomainError Unit :=
  refuse (drain (mapParents m) order turns
      (degreeOf (mapParents m) order, readyAtStart (mapParents m) order) 0 ≠ m.keys.length)
    { sentinel := .integrity, format := "cyclic graph ancestry" }

/-- The map `byID` of `snapshotGraphHasCycle`: the last snapshot of an id stays. -/
def indexByID (snaps : List Snapshot) : Dir ContentHash Snapshot :=
  Dir.setAll Snapshot.id id snaps Dir.empty

/-- `snapshotGraphHasCycle`; `order` is the order in which `byID` is ranged over. -/
def graphHasCycle (snaps : List Snapshot) (order : List ContentHash) (turns : ℕ) : Bool :=
  (order.foldlM (visit (mapParents (indexByID snaps)) order turns []) []).isNone

/-- An edge between two snapshots of the map. -/
def PresentEdge (m : Dir ContentHash Snapshot) (a b : ContentHash) : Prop :=
  ∃ s, m.get a = some s ∧ b ∈ s.reachabilityParents ∧ b ∈ m.keys

/-- Some snapshot of the map reaches itself through snapshots of the map. -/
def ReachesItself (m : Dir ContentHash Snapshot) : Prop :=
  ∃ id ∈ m.keys, TransGen (PresentEdge m) id id

variable {m : Dir ContentHash Snapshot}

/-- The parents by the map. -/
theorem mem_mapParents :
    b ∈ mapParents m a ↔ ∃ s, m.get a = some s ∧ b ∈ s.reachabilityParents := by
  unfold mapParents
  cases m.get a <;> simp

theorem mem_keys_of_mapParents (h : b ∈ mapParents m a) : a ∈ m.keys := by
  obtain ⟨s, hs, -⟩ := mem_mapParents.1 h
  exact Dir.mem_keys_iff.2 ⟨s, hs⟩

/-- An id without a snapshot has no parents. -/
theorem mapParents_of_notMem (h : a ∉ m.keys) : mapParents m a = [] :=
  List.eq_nil_iff_forall_not_mem.2 fun _ hb => h (mem_keys_of_mapParents hb)

/-- A path that ends in the map stays in it, because every node before the end has a parent. -/
theorem presentEdge_of_path (h : TransGen (fun a b => b ∈ mapParents m a) a b)
    (hb : b ∈ m.keys) : TransGen (PresentEdge m) a b := by
  induction h with
  | single hab =>
      obtain ⟨s, hs, hparent⟩ := mem_mapParents.1 hab
      exact .single ⟨s, hs, hparent, hb⟩
  | tail _ hbc ih =>
      obtain ⟨s, hs, hparent⟩ := mem_mapParents.1 hbc
      exact (ih (mem_keys_of_mapParents hbc)).tail ⟨s, hs, hparent, hb⟩

/-- A graph with a cycle has a snapshot that reaches itself. -/
theorem not_acyclic_iff : ¬ Acyclic (fun a b => b ∈ mapParents m a) ↔ ReachesItself m := by
  constructor
  · intro h
    rw [Acyclic, not_forall_not] at h
    obtain ⟨x, hx⟩ := h
    obtain ⟨y, hxy, -⟩ := TransGen.head'_iff.1 hx
    have hmem := mem_keys_of_mapParents hxy
    exact ⟨x, hmem, presentEdge_of_path hx hmem⟩
  · rintro ⟨x, -, hx⟩ hacyclic
    refine hacyclic x (TransGen.mono ?_ _ _ hx)
    rintro a b ⟨s, hs, hparent, -⟩
    exact mem_mapParents.2 ⟨s, hs, hparent⟩

theorem mapParents_of_notMem_order {order : List ContentHash} (h : order.Perm m.keys)
    (b : ContentHash) (hb : b ∉ order) : mapParents m b = [] :=
  mapParents_of_notMem fun hmem => hb (h.mem_iff.2 hmem)

/-- **The detectors agree.**  For every map of snapshots and every order in which it is ranged
over, counting down the parents fails exactly when some snapshot reaches itself; and so does the
depth-first visit report a cycle, for every list of which the map is the index. -/
theorem cycle_detectors_agree (m : Dir ContentHash Snapshot) :
    (∀ order turns, order.Perm m.keys → m.keys.length ≤ turns →
      ((∃ e, validateAncestryMap m order turns = .error e) ↔ ReachesItself m)) ∧
    ∀ snaps order turns, (∀ id, (indexByID snaps).get id = m.get id) → order.Perm m.keys →
      m.keys.length < turns → (graphHasCycle snaps order turns = true ↔ ReachesItself m) := by
  constructor
  · intro order turns horder hturns
    have hnodup : order.Nodup := horder.nodup_iff.2 m.nodup
    have hcount := drain_eq_length_iff hnodup (mapParents_of_notMem_order horder)
      (horder.length_eq.trans_le hturns)
    rw [horder.length_eq] at hcount
    rw [← not_acyclic_iff, ← hcount, validateAncestryMap, refuse]
    split_ifs with hcycle
    · simpa using hcycle
    · simpa using hcycle
  · intro snaps order turns hindex horder hturns
    have hparents : mapParents (indexByID snaps) = mapParents m := by
      funext id
      rw [mapParents, mapParents, hindex]
    rw [← not_acyclic_iff, graphHasCycle, hparents]
    exact search_isNone_iff (mapParents_of_notMem_order horder) (horder.length_eq.trans_lt hturns)

/-- Two snapshots that are parents of each other, one of them twice, and a missing parent. -/
def crossedSnapshots : List Snapshot :=
  [{ id := "1", repoID := "r", docHash := "d", parents := some ["2", "9", "2"] },
    { id := "2", repoID := "r", docHash := "d", graftParents := some ["1"] }]

/-- Both detectors find that two snapshots are each other's parents. -/
theorem cycle_detectors_agree_crossed :
    graphHasCycle crossedSnapshots ["1", "2"] 3 = true ∧
      ReachesItself (indexByID crossedSnapshots) ∧
      ∃ e, validateAncestryMap (indexByID crossedSnapshots) ["2", "1"] 2 = .error e := by
  obtain ⟨hcount, hvisit⟩ := cycle_detectors_agree (indexByID crossedSnapshots)
  have hfound : graphHasCycle crossedSnapshots ["1", "2"] 3 = true := by decide +kernel
  have hcycle := (hvisit _ _ 3 (fun _ => rfl) (by decide) (by decide)).1 hfound
  exact ⟨hfound, hcycle, (hcount _ 2 (by decide) (by decide)).2 hcycle⟩

/-! ### The detectors on a list of snapshots -/

section Lists

variable {snaps : List Snapshot} (hn : (snaps.map Snapshot.id).Nodup)

include hn

/-- The map is the lookup by id. -/
theorem get_indexByID (k : ContentHash) : (indexByID snaps).get k = byID snaps k := by
  cases hk : byID snaps k with
  | some s =>
      obtain ⟨hs, rfl⟩ := byID_eq_some hk
      exact Dir.get_setAll_of_mem hn hs Dir.empty
  | none =>
      have hget : (indexByID snaps).get k = none ∨ ∃ s ∈ snaps, s.id = k ∧
          (indexByID snaps).get k = some s := Dir.get_setAll snaps Dir.empty k
      rcases hget with hget | ⟨s, hs, hid, -⟩
      · exact hget
      · exact absurd hid (byID_eq_none.1 hk s hs)

/-- The map has the parents of the list. -/
theorem mapParents_indexByID : mapParents (indexByID snaps) = parentsOf snaps := by
  funext k
  have hget := get_indexByID hn k
  cases hk : byID snaps k <;> simp [mapParents, parentsOf, hget, hk]

/-- Its keys are the ids. -/
theorem keys_indexByID_perm : (indexByID snaps).keys.Perm (snaps.map Snapshot.id) := by
  refine (List.perm_ext_iff_of_nodup (indexByID snaps).nodup hn).2 fun k => ?_
  refine Dir.mem_keys_iff.trans ?_
  rw [get_indexByID hn, List.mem_map]
  constructor
  · rintro ⟨s, hs⟩
    exact ⟨s, byID_eq_some hs⟩
  · rintro ⟨s, hs, rfl⟩
    exact ⟨s, byID_of_mem hn hs⟩

/-- The detectors of a list, in the order of the list. -/
theorem validateAcyclicAncestry_eq_map : validateAcyclicAncestry snaps =
    validateAncestryMap (indexByID snaps) (snaps.map Snapshot.id)
      (snaps.map Snapshot.id).length := by
  rw [validateAcyclicAncestry, validateAncestryMap, mapParents_indexByID hn,
    (keys_indexByID_perm hn).length_eq, takesAll]
  congr 1
  exact propext decide_eq_false_iff_not

/-- The detector over the list is the one over the map, ranged over in list order. -/
theorem snapshotGraphHasCycle_eq_map : snapshotGraphHasCycle snaps =
    graphHasCycle snaps (snaps.map Snapshot.id) ((snaps.map Snapshot.id).length + 1) := by
  rw [snapshotGraphHasCycle, graphHasCycle, mapParents_indexByID hn]
  rfl

end Lists

end Backend
end CxtHub
