/-
# Folding retained progress hides no ancestor

`backend/internal/domain/graph_progress.go`.  A branch that was moved back leaves captures
behind.  `graphProgress` groups them by movement, each group against the head of its own
branch, and says which of them a reader may fold away.

The groups overlap and see different heads, but one closure decides for all of them: an id
can be folded when some movement left it behind and nothing that stays reaches it
(`foldable_iff`).  So among the drawn captures those that stay are exactly the protected
ones (`not_foldable_iff`), and these are closed under ancestry.
-/

import CxtHub.Backend.GraphTiers

namespace CxtHub
namespace Backend

open Relation
open Cli (ContextBranch ContextBranchProjection projectContextBranches)

variable {id : ContentHash}

/-! ### The parts of `graphProgress` -/

section Progress

variable (v : RepositoryView) (bindings : ContextBranchProjection) (visible : GraphSet)
  (position : Option GraphPosition)

/-- `heads` after the selected position has replaced the head of its branch. -/
def shownHeads : Dir String ContentHash :=
  match position with
  | some p => (progressHeads v bindings).set (progressKey bindings p.branch p.branchID) p.snapshot
  | none => progressHeads v bindings

/-- The movements that become groups. -/
def progressMoves : List Movement :=
  firstOfKey [] ((recordedMovements v bindings ++
    match position with
    | some p => positionMovements v bindings (progressHeads v bindings) p
    | none => []).filter (leavesProgress v (shownHeads v bindings position) visible))

/-- `candidates`: what some movement left behind. -/
def progressCandidates : GraphSet :=
  (progressMoves v bindings visible position).foldl
    (fun ids m => ids ∪ leftBehind v (shownHeads v bindings position) visible m) ∅

/-- `protectedRoots`. -/
def protectedRoots : List ContentHash :=
  (v.refs.filter fun r => r.kind = .session).map Ref.target ++
    graphIDs (visible \ progressCandidates v bindings visible position) ++
    (shownHeads v bindings position).entries.map Prod.snd

/-- The group of a movement. -/
def progressGroup (m : Movement) : GraphProgressGroup :=
  let ids := leftBehind v (shownHeads v bindings position) visible m
  { key := movementKey m
    branch := ((bindings.byID m.branch).map ContextBranch.name).getD m.branch
    before := m.old, after := m.next, createdAt := m.at_
    snapshotIDs := some (graphIDs ids)
    collapsibleIDs := some ((graphIDs ids).filter fun id =>
      id ∉ graphRoots v.snapshots (protectedRoots v bindings visible position)) }

/-- The groups, one for each move, the newest first. -/
theorem graphProgress_eq :
    graphProgress v bindings visible position =
      ((progressMoves v bindings visible position).map
        (progressGroup v bindings visible position)).mergeSort
        (newestFirst GraphProgressGroup.createdAt GraphProgressGroup.key) := by
  cases position <;> rfl

variable {v bindings visible position}

/-- There is a group for each move. -/
theorem mem_graphProgress {g : GraphProgressGroup} :
    g ∈ graphProgress v bindings visible position ↔
      ∃ m ∈ progressMoves v bindings visible position,
        progressGroup v bindings visible position m = g := by
  rw [graphProgress_eq, List.mem_mergeSort, List.mem_map]

/-- Candidates are what a move left behind. -/
theorem mem_progressCandidates :
    id ∈ progressCandidates v bindings visible position ↔
      ∃ m ∈ progressMoves v bindings visible position,
        id ∈ leftBehind v (shownHeads v bindings position) visible m := by
  have hfold : ∀ (l : List Movement) (ids : GraphSet),
      id ∈ l.foldl
          (fun ids m => ids ∪ leftBehind v (shownHeads v bindings position) visible m) ids ↔
        id ∈ ids ∨ ∃ m ∈ l, id ∈ leftBehind v (shownHeads v bindings position) visible m := by
    intro l
    induction l with
    | nil => simp
    | cons m l ih =>
        intro ids
        rw [List.foldl_cons, ih, Finset.mem_union, or_assoc]
        simp only [List.mem_cons, exists_eq_or_imp]
  rw [progressCandidates, hfold]
  simp

/-- What a group lets a reader fold away. -/
theorem mem_collapsibleIDs {m : Movement} :
    id ∈ (progressGroup v bindings visible position m).collapsibleIDs.list ↔
      id ∈ leftBehind v (shownHeads v bindings position) visible m ∧
        id ∉ graphRoots v.snapshots (protectedRoots v bindings visible position) := by
  simp only [progressGroup, Slice.list_some, List.mem_filter, mem_graphIDs, decide_eq_true_eq]

/-- **Which captures may be folded away**: one closure decides for all the groups. -/
theorem foldable_iff :
    (∃ g ∈ graphProgress v bindings visible position, id ∈ g.collapsibleIDs.list) ↔
      id ∈ progressCandidates v bindings visible position ∧
        id ∉ graphRoots v.snapshots (protectedRoots v bindings visible position) := by
  simp only [mem_graphProgress, mem_progressCandidates]
  constructor
  · rintro ⟨g, ⟨m, hm, rfl⟩, hid⟩
    obtain ⟨hleft, hfree⟩ := mem_collapsibleIDs.1 hid
    exact ⟨⟨m, hm, hleft⟩, hfree⟩
  · rintro ⟨⟨m, hm, hleft⟩, hfree⟩
    exact ⟨_, ⟨m, hm, rfl⟩, mem_collapsibleIDs.2 ⟨hleft, hfree⟩⟩

/-- A drawn capture stays exactly when it is protected: one that no movement left behind is
itself a root of what is protected. -/
theorem not_foldable_iff (hvisible : id ∈ visible)
    (hin : (byID v.snapshots id).isSome = true) (hne : id ≠ "") :
    (¬ ∃ g ∈ graphProgress v bindings visible position, id ∈ g.collapsibleIDs.list) ↔
      id ∈ graphRoots v.snapshots (protectedRoots v bindings visible position) := by
  rw [foldable_iff, not_and, not_not]
  refine ⟨fun h => ?_, fun h _ => h⟩
  by_cases hcandidate : id ∈ progressCandidates v bindings visible position
  · exact h hcandidate
  · refine mem_graphRoots.2 ⟨hin, hne, id, ?_, .refl⟩
    simp [protectedRoots, hvisible, hcandidate]

end Progress

/-! ### Ancestry -/

/-- A step from a snapshot to a natural or graft parent.  The empty id stands for no
snapshot. -/
def AncestryStep (snaps : List Snapshot) (child p : ContentHash) : Prop :=
  child ≠ "" ∧ ParentIn snaps child p

/-- With distinct ids, both walks take the same steps. -/
theorem ancestryStep_eq_step {snaps : List Snapshot} (hn : (snaps.map Snapshot.id).Nodup) :
    AncestryStep snaps = Step snaps := by
  funext child p
  rw [AncestryStep, Step, parentIn_iff hn]

/-- What is protected is closed under ancestry, among the snapshots of the index. -/
theorem graphRoots_closed {snaps : List Snapshot} {roots : List ContentHash}
    {a : ContentHash} (hid : id ∈ graphRoots snaps roots)
    (hpath : ReflTransGen (Step snaps) id a) (hin : (byID snaps a).isSome = true) (hne : a ≠ "") :
    a ∈ graphRoots snaps roots := by
  obtain ⟨-, -, r, hr, hreach⟩ := mem_graphRoots.1 hid
  exact mem_graphRoots.2 ⟨hin, hne, r, hr, hreach.trans hpath⟩

/-- The drawn captures are snapshots of the index. -/
theorem visibleOf_indexed {v : RepositoryView} {c : PendingClassification}
    (h : id ∈ visibleOf v c) : (byID v.snapshots id).isSome = true ∧ id ≠ "" := by
  obtain ⟨hin, hne, -⟩ := mem_graphRoots.1 (Finset.mem_filter.1 h).1
  exact ⟨hin, hne⟩

/-! ### The projection -/

/-- The progress groups of a successful projection. -/
theorem projectGraphState_previous {env : GraphEnv} {v : RepositoryView}
    {primary positionID : String} {out : GraphState}
    (h : projectGraphState env v primary positionID = .ok out) :
    ∃ bindings position, projectContextBranches env.digest v.history = .ok bindings ∧
      position = out.positions.list.reverse.find? (fun p => decide (p.eventID = positionID)) ∧
      out.previous =
        some (graphProgress v bindings (visibleOf v (classified v)) position) := by
  simp only [projectGraphState, bind_eq_ok, exists_unit_iff, Except.ok.injEq] at h
  obtain ⟨-, bindings, hbindings, -, lifecycle, -, -, rfl⟩ := h
  refine ⟨bindings, _, ?_, rfl, rfl⟩
  cases hproject : projectContextBranches env.digest v.history with
  | ok b =>
      rw [hproject] at hbindings
      cases hbindings
      rfl
  | error e =>
      rw [hproject] at hbindings
      cases hbindings

/-- **Folding retained progress never hides an ancestor of something shown.**  A drawn capture
that no group folds away keeps all its drawn ancestors.  What a group folds away belongs to the
group and to the drawn graph and is out of reach of every session, and of every branch when no
position is selected and the branches have distinct keys.

Ancestry does not lead through the empty id: `ContextClosure` stops there, while
`graphStateIndex.from` follows it like any other. -/
theorem collapsed_progress_hides_no_ancestor {env : GraphEnv} {v : RepositoryView}
    {primary positionID : String} {out : GraphState}
    (h : projectGraphState env v primary positionID = .ok out) :
    (∀ shown ancestor, shown ∈ out.graphIDs.list → ancestor ∈ out.graphIDs.list →
      (∀ g ∈ out.previous.list, shown ∉ g.collapsibleIDs.list) →
      ReflTransGen (AncestryStep v.snapshots) shown ancestor →
        ∀ g ∈ out.previous.list, ancestor ∉ g.collapsibleIDs.list) ∧
    ∀ g ∈ out.previous.list, ∀ id ∈ g.collapsibleIDs.list,
      id ∈ g.snapshotIDs.list ∧ id ∈ out.graphIDs.list ∧
      (∀ r ∈ v.refs, r.kind = .session →
        ¬ ReflTransGen (AncestryStep v.snapshots) r.target id) ∧
      ∀ bindings, projectContextBranches env.digest v.history = .ok bindings →
        (∀ p ∈ out.positions.list, p.eventID ≠ positionID) →
        ((branchRefs v.refs).map fun r => progressKey bindings r.name r.branchID).Nodup →
        ∀ r ∈ v.refs, r.kind = .branch →
          ¬ ReflTransGen (AncestryStep v.snapshots) r.target id := by
  obtain ⟨hn, -, -, -, -, hgraph, -⟩ := projectGraphState_sets h
  obtain ⟨bindings, position, hbindings, hposition, hprevious⟩ := projectGraphState_previous h
  simp only [hgraph, hprevious, Slice.list_some, mem_graphIDs, ancestryStep_eq_step hn]
  constructor
  · intro shown ancestor hshown hancestor hkept hpath g hg hmem
    obtain ⟨hin, hne⟩ := visibleOf_indexed hshown
    obtain ⟨hin', hne'⟩ := visibleOf_indexed hancestor
    have hprotected := (not_foldable_iff hshown hin hne).1 (by
      rintro ⟨g, hg, hmem⟩
      exact hkept g hg hmem)
    exact (not_foldable_iff hancestor hin' hne').2
      (graphRoots_closed hprotected hpath hin' hne') ⟨g, hg, hmem⟩
  · intro g hg id hid
    obtain ⟨m, hm, rfl⟩ := mem_graphProgress.1 hg
    obtain ⟨hleft, hfree⟩ := mem_collapsibleIDs.1 hid
    have hvisible : id ∈ visibleOf v (classified v) := (Finset.mem_filter.1 hleft).2.1
    obtain ⟨hin, hne⟩ := visibleOf_indexed hvisible
    have hroots : ∀ r ∈ protectedRoots v bindings (visibleOf v (classified v)) position,
        ¬ ReflTransGen (Step v.snapshots) r id :=
      fun r hr hpath => hfree (mem_graphRoots.2 ⟨hin, hne, r, hr, hpath⟩)
    refine ⟨mem_graphIDs.2 hleft, hvisible, fun r hr hkind => hroots _ ?_, ?_⟩
    · simp only [protectedRoots, List.mem_append, List.mem_map, List.mem_filter]
      exact .inl (.inl ⟨r, ⟨hr, decide_eq_true hkind⟩, rfl⟩)
    · intro bindings' hbindings' hnone hdistinct r hr hkind
      obtain rfl : bindings = bindings' := by
        rw [hbindings, Except.ok.injEq] at hbindings'
        exact hbindings'
      -- No position replaced a head, so every branch ref is one of the heads.
      have hselected : position = none := by
        rw [hposition, List.find?_eq_none]
        intro p hp
        simpa using hnone p (List.mem_reverse.1 hp)
      have hbranch : r ∈ branchRefs v.refs := List.mem_filter.2 ⟨hr, decide_eq_true hkind⟩
      have hhead : (progressHeads v bindings).get (progressKey bindings r.name r.branchID) =
          some r.target := Dir.get_setAll_of_mem hdistinct hbranch Dir.empty
      refine hroots _ ?_
      simp only [protectedRoots, hselected, shownHeads, List.mem_append, List.mem_map]
      exact .inr ⟨_, Dir.get_eq_some_iff.1 hhead, rfl⟩

/-- A branch that was moved back from its second capture to the first. -/
def retainedView : RepositoryView :=
  let snap (c : Char) (parents : List Char) : Snapshot :=
    { id := digitHash c, repoID := digitHash '0', branch := "main", docHash := digitHash '9'
      parents := some (parents.map digitHash), message := "capture" }
  { snapshots := [snap '1' [], snap '2' ['1']]
    refs := [{ kind := .branch, name := "main", repoID := digitHash '0', target := digitHash '1' }]
    reflog := [{ kind := .branch, name := "main", old := digitHash '2', new := digitHash '1'
                 createdAt := 1 }] }

/-- What the reflog keeps of the moved branch is drawn, and belongs to the group that folds it. -/
theorem collapsed_progress_retainedView :
    ∃ out, projectGraphState plainGraphEnv retainedView "main" "" = .ok out ∧
      ∀ g ∈ out.previous.list, ∀ id ∈ g.collapsibleIDs.list,
        id ∈ g.snapshotIDs.list ∧ id ∈ out.graphIDs.list := by
  obtain ⟨out, h⟩ : ∃ out, projectGraphState plainGraphEnv retainedView "main" "" = .ok out :=
    ⟨_, rfl⟩
  refine ⟨out, h, fun g hg id hid => ?_⟩
  obtain ⟨hgroup, hdrawn, -⟩ := (collapsed_progress_hides_no_ancestor h).2 g hg id hid
  exact ⟨hgroup, hdrawn⟩

end Backend
end CxtHub
