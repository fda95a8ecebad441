/-
# The segment and the patches of a plan

What the two loops of `PlanJoin` return.  `segmentFrom_spec`: the segment is a
first-parent path of members of the branch that starts at the source, has no
repetition and cannot be extended (so the fuel of the loop never runs out).
`supersedes_eq_ok`: the supersede patches are exactly the snapshots in the reach
of the head, outside the segment, with a graft edge into it.
-/

import CxtHub.Backend.PlanJoin
import CxtHub.Lib.Paths

namespace CxtHub
namespace Backend

variable {id kid source : ContentHash} {branch : String} {shared : List ContentHash}

/-- Snapshots of the repository with distinct ids. -/
theorem checkSnapshots_eq_ok {repoID : ContentHash} {seen : List ContentHash}
    {snaps : List Snapshot} (h : checkSnapshots repoID seen snaps = .ok ()) :
    (∀ s ∈ snaps, s.id ∉ seen ∧ s.repoID = repoID) ∧ (snaps.map Snapshot.id).Nodup := by
  induction snaps generalizing seen with
  | nil => simp
  | cons s snaps ih =>
      simp only [checkSnapshots, bind_eq_ok, exists_unit_iff, refuse_eq_ok, not_not] at h
      obtain ⟨hs, hrepo, hrest⟩ := h
      obtain ⟨hall, hnodup⟩ := ih hrest
      refine ⟨fun t ht => ?_, ?_⟩
      · rcases List.mem_cons.1 ht with rfl | ht
        · exact ⟨hs, hrepo⟩
        · exact ⟨fun hm => (hall t ht).1 (List.mem_cons_of_mem _ hm), (hall t ht).2⟩
      · rw [List.map_cons, List.nodup_cons]
        refine ⟨fun hm => ?_, hnodup⟩
        obtain ⟨t, ht, hid⟩ := List.mem_map.1 hm
        exact (hall t ht).1 (hid ▸ List.mem_cons_self ..)

/-- A first child is a stored commit whose first parent is the given one. -/
theorem mem_firstChildren {graph : JoinGraph} (hn : (graph.snapshots.map Snapshot.id).Nodup) :
    kid ∈ graph.firstChildren id ↔ graph.isJoinCommit kid = true ∧
      ∃ s, byID graph.snapshots kid = some s ∧ s.parents.list.head? = some id := by
  simp only [JoinGraph.firstChildren, List.mem_map, List.mem_filter, Bool.and_eq_true,
    decide_eq_true_eq]
  constructor
  · rintro ⟨s, ⟨hs, hc, hp⟩, rfl⟩
    exact ⟨hc, s, byID_of_mem hn hs, hp⟩
  · rintro ⟨hc, s, hs, hp⟩
    obtain ⟨hmem, rfl⟩ := byID_eq_some hs
    exact ⟨s, ⟨hmem, hc, hp⟩, rfl⟩

/-- The first children that belong to the branch. -/
theorem mem_branchChildren {graph : JoinGraph} :
    kid ∈ graph.branchChildren branch id ↔
      kid ∈ graph.firstChildren id ∧ graph.memberships kid branch = true := by
  simp [JoinGraph.branchChildren]

theorem mem_ids_of_mem_firstChildren {graph : JoinGraph}
    (h : kid ∈ graph.firstChildren id) : kid ∈ graph.snapshots.map Snapshot.id := by
  obtain ⟨s, hs, rfl⟩ := List.mem_map.1 h
  exact List.mem_map.2 ⟨s, (List.mem_filter.1 hs).1, rfl⟩

/-- What the segment loop keeps: a path without repetition, each element the only
branch child of the one before. -/
structure IsLane (graph : JoinGraph) (branch : String) (shared : List ContentHash)
    (source : ContentHash) (segment : List ContentHash) : Prop where
  head : segment.head? = some source
  chain : segment.IsChain fun a b => graph.branchChildren branch a = [b]
  nodup : segment.Nodup
  stored : ∀ id ∈ segment, id ∈ graph.snapshots.map Snapshot.id
  attached : ∀ id ∈ segment, id = source ∨ id ∈ shared

theorem IsLane.ne_nil {graph : JoinGraph}
    {segment : List ContentHash}
    (h : IsLane graph branch shared source segment) : segment ≠ [] := by
  rintro rfl
  exact absurd h.head (by simp)

/-- One turn of the loop: the only child of the tip extends the lane. -/
theorem IsLane.snoc {graph : JoinGraph}
    {tip : ContentHash} {segment : List ContentHash}
    (h : IsLane graph branch shared source segment) (htip : segment.getLast? = some tip)
    (hkid : graph.branchChildren branch tip = [kid]) (hshared : kid ∈ shared)
    (hnew : kid ∉ segment) : IsLane graph branch shared source (segment ++ [kid]) where
  head := by rw [List.head?_append_of_ne_nil _ h.ne_nil, h.head]
  chain := by
    refine List.isChain_append.2 ⟨h.chain, List.isChain_singleton _, fun a ha b hb => ?_⟩
    rw [htip, Option.mem_some_iff] at ha
    rw [List.head?_cons, Option.mem_some_iff] at hb
    rw [← ha, ← hb, hkid]
  nodup := by
    refine List.nodup_append.2 ⟨h.nodup, List.nodup_singleton _, fun a ha b hb => ?_⟩
    rw [List.mem_singleton] at hb
    rintro rfl
    exact hnew (hb ▸ ha)
  stored := fun id hid => by
    rcases List.mem_append.1 hid with hid | hid
    · exact h.stored id hid
    · have hmem : kid ∈ graph.branchChildren branch tip := by rw [hkid]; simp
      rw [List.mem_singleton.1 hid]
      exact mem_ids_of_mem_firstChildren (mem_branchChildren.1 hmem).1
  attached := fun id hid => by
    rcases List.mem_append.1 hid with hid | hid
    · exact h.attached id hid
    · exact Or.inr (List.mem_singleton.1 hid ▸ hshared)

/-- A lane is no longer than the list of snapshots. -/
theorem IsLane.length_le {graph : JoinGraph}
    {segment : List ContentHash}
    (h : IsLane graph branch shared source segment) :
    segment.length ≤ graph.snapshots.length := by
  have hsub : segment ⊆ graph.snapshots.map Snapshot.id := fun id hid => h.stored id hid
  have hlen := (List.subperm_of_subset h.nodup hsub).length_le
  rwa [List.length_map] at hlen

/-- **The segment loop returns the maximal lane above the source.**  The induction
is on the fuel, with `fuel + segment.length` above the number of snapshots: the
loop therefore ends before its fuel does. -/
theorem segmentFrom_spec {graph : JoinGraph}
    {fuel : ℕ} {segment : List ContentHash} {tip : ContentHash}
    {out : List ContentHash} (hlane : IsLane graph branch shared source segment)
    (htip : segment.getLast? = some tip)
    (hfuel : graph.snapshots.length < fuel + segment.length)
    (h : graph.segmentFrom branch shared fuel segment tip = .ok out) :
    IsLane graph branch shared source out ∧
      ∃ last, out.getLast? = some last ∧ graph.branchChildren branch last = [] := by
  induction fuel generalizing segment tip with
  | zero =>
      have hle := hlane.length_le
      omega
  | succ fuel ih =>
      unfold JoinGraph.segmentFrom at h
      split at h
      · rename_i hkids
        rw [Except.ok.injEq] at h
        subst h
        exact ⟨hlane, tip, htip, hkids⟩
      · rename_i kid hkids
        simp only [bind_eq_ok, exists_unit_iff, refuse_eq_ok, not_not] at h
        obtain ⟨hshared, hnew, hrest⟩ := h
        have hlen : (segment ++ [kid]).length = segment.length + 1 := by simp
        exact ih (hlane.snoc htip hkids hshared hnew) (by simp) (by omega) hrest
      · cases h

/-- The snapshots a join supersedes: in the reach of the head, outside the segment,
with a graft edge into it. -/
def hitsSegment (headReach segment : List ContentHash) (sn : Snapshot) : Bool :=
  !segment.contains sn.id && headReach.contains sn.id &&
    sn.graftParents.list.any segment.contains

/-- The patch of a superseded snapshot. -/
def supersedePatch (segment : List ContentHash) (sn : Snapshot) : GraftPatch :=
  { snapshotID := sn.id, expectedSeq := sn.graftSeq,
    parents := sn.graftParents.list.filter fun g => !segment.contains g }

/-- **The supersede patches are those of the snapshots that hit the segment**, each
a member of the branch and out of reach of the others. -/
theorem supersedes_eq_ok {graph : JoinGraph}
    {headReach otherReach segment : List ContentHash} {snaps : List Snapshot}
    {patches : List GraftPatch}
    (h : graph.supersedes branch headReach otherReach segment snaps = .ok patches) :
    patches = (snaps.filter (hitsSegment headReach segment)).map (supersedePatch segment) ∧
      ∀ sn ∈ snaps, hitsSegment headReach segment sn = true →
        graph.memberships sn.id branch = true ∧ sn.id ∉ otherReach := by
  induction snaps generalizing patches with
  | nil =>
      simp only [JoinGraph.supersedes, Except.ok.injEq] at h
      simp [← h]
  | cons sn snaps ih =>
      unfold JoinGraph.supersedes at h
      split_ifs at h with hskip hhit
      · have hmiss : hitsSegment headReach segment sn = false := by
          rw [List.length_eq_zero_iff] at hskip
          rcases hskip with hskip | hskip | hskip <;> simp [hitsSegment, hskip]
        obtain ⟨hp, hall⟩ := ih h
        refine ⟨by simp [hp, hmiss], List.forall_mem_cons.2 ⟨by simp [hmiss], hall⟩⟩
      · simp only [bind_eq_ok, exists_unit_iff, refuse_eq_ok, Except.ok.injEq] at h
        obtain ⟨hmember, hother, rest, hrest, hout⟩ := h
        obtain ⟨hp, hall⟩ := ih hrest
        push Not at hskip
        have htrue : hitsSegment headReach segment sn = true := by
          simp only [hitsSegment, hhit, Bool.and_true, Bool.and_eq_true, Bool.not_eq_true',
            List.contains_eq_mem, decide_eq_true_eq, decide_eq_false_iff_not]
          exact ⟨hskip.1, hskip.2.2⟩
        refine ⟨?_, List.forall_mem_cons.2 ⟨fun _ => ⟨by simpa using hmember, hother⟩, hall⟩⟩
        rw [List.filter_cons_of_pos htrue, List.map_cons, ← hp, ← hout, supersedePatch]
      · have hmiss : hitsSegment headReach segment sn = false := by
          simp [hitsSegment, hhit]
        obtain ⟨hp, hall⟩ := ih h
        refine ⟨by simp [hp, hmiss], List.forall_mem_cons.2 ⟨by simp [hmiss], hall⟩⟩

theorem ne_empty_of_mem_targetShared {graph : JoinGraph} {head : ContentHash}
    (h : id ∈ graph.targetShared branch head) : id ≠ "" := by
  rcases List.mem_append.1 h with h | h
  · exact (mem_snapshotReachableSet.1 h).1
  · exact (mem_snapshotReachableSet.1 h).1

section Planned

variable {graph : JoinGraph} {req : JoinRequest} {snapX : Snapshot} {head : Ref}
  {segment : List ContentHash} {superseded : List GraftPatch}
  (h : Planned graph req snapX head segment superseded)

include h

/-- A planned graph has distinct ids. -/
theorem Planned.ids_nodup : (graph.snapshots.map Snapshot.id).Nodup :=
  (checkSnapshots_eq_ok h.snapshots_checked).2

/-- The segment of a plan is the maximal lane above the source. -/
theorem Planned.lane :
    IsLane graph req.branch (graph.targetShared req.branch head.target) req.source segment ∧
      ∃ last, segment.getLast? = some last ∧ graph.branchChildren req.branch last = [] := by
  obtain ⟨hmem, hid⟩ := byID_eq_some h.source_found
  refine segmentFrom_spec ?_ (by simp) (by simp) h.segment_eq
  exact {
    head := rfl
    chain := List.isChain_singleton _
    nodup := List.nodup_singleton _
    stored := fun id hid' => List.mem_map.2 ⟨snapX, hmem, by rw [hid, List.mem_singleton.1 hid']⟩
    attached := fun id hid' => Or.inl (List.mem_singleton.1 hid') }

/-- The lane above a source, from the graph alone: the source, and every branch child
of a snapshot on the lane. -/
inductive OnLane (graph : JoinGraph) (branch : String) (source : ContentHash) :
    ContentHash → Prop
  | source : OnLane graph branch source source
  | child {id kid : ContentHash} : OnLane graph branch source id →
      kid ∈ graph.branchChildren branch id → OnLane graph branch source kid

/-- The source is in the segment. -/
theorem Planned.source_mem : req.source ∈ segment :=
  List.mem_of_mem_head? h.lane.1.head

/-- **The segment of a plan is the lane above its source.** -/
theorem Planned.mem_segment_iff : id ∈ segment ↔ OnLane graph req.branch req.source id := by
  obtain ⟨hlane, last, hlast, hnone⟩ := h.lane
  constructor
  · refine fun hid => List.IsChain.induction _ _ hlane.chain (fun a b hab ha => ?_) ?_ id hid
    · exact ha.child (hab ▸ List.mem_singleton_self b)
    · intro hne
      have hhead : segment.head hne = req.source := by
        have hh := hlane.head
        rw [List.head?_eq_some_head hne] at hh
        exact Option.some.inj hh
      exact hhead ▸ .source
  · intro hid
    induction hid with
    | source => exact h.source_mem
    | @child id kid _ hkid ih =>
        rcases Paths.exists_next_of_chain hlane.chain ih with hend | ⟨next, hnext, hkids⟩
        · have heq : id = last := Option.some.inj (hend.symm.trans hlast)
          rw [heq, hnone] at hkid
          cases hkid
        · rw [hkids, List.mem_singleton] at hkid
          exact hkid ▸ hnext

/-- Every id of the segment is attached to the branch, hence not empty. -/
theorem Planned.mem_targetShared (hid : id ∈ segment) :
    id ∈ graph.targetShared req.branch head.target := by
  rcases h.lane.1.attached id hid with rfl | hid
  · exact h.source_attached
  · exact hid

end Planned

end Backend
end CxtHub
