/-
# The publication tiers partition the drawn graph

Each tier of `ProjectGraphState` is a filter of its own over closures of its own roots.
Two inclusions keep them apart and together: what an archived branch reaches is shared,
since lifecycle tags are roots of the shared closure (`archived_subset_shared`), and an
uncommitted capture is visible, since pending captures are roots of the visible closure
(`uncommitted_subset_visible`).  With these, a visible id has exactly one tier:
`projectGraphState_tiers`.
-/

import CxtHub.Backend.GraphProject

namespace CxtHub
namespace Backend

open Relation CxtHub.Graph

variable {event : BranchLifecycleEvent} {refs : List Ref} {id : ContentHash}

/-! ### Lifecycle tags are shared roots -/

/-- A lifecycle tag points to the target of its event. -/
theorem target_of_parseBranchLifecycleRef {r : Ref}
    (h : parseBranchLifecycleRef r = .ok (some event)) : r.target = event.target := by
  unfold parseBranchLifecycleRef at h
  by_cases hkind : r.kind = .tag
  · rw [if_neg (not_not.2 hkind)] at h
    split at h
    · simp at h
    · simp at h
    · simp only [bind_eq_ok, exists_unit_iff, refuse_eq_ok, not_not, Except.ok.injEq,
        Option.some.injEq] at h
      obtain ⟨htarget, rfl⟩ := h
      exact htarget
  · simp [hkind] at h

/-- The state of a branch is one of the events of the refs. -/
theorem exists_ref_of_states {states out : String → Option BranchLifecycleEvent}
    (h : branchLifecycleStatesFrom states refs = .ok out) {name : String}
    (hout : out name = some event) :
    states name = some event ∨ ∃ r ∈ refs, parseBranchLifecycleRef r = .ok (some event) := by
  induction refs generalizing states with
  | nil =>
      simp only [branchLifecycleStatesFrom, Except.ok.injEq] at h
      exact .inl (h ▸ hout)
  | cons r refs ih =>
      obtain ⟨parsed, hparsed, h⟩ := bind_eq_ok.1 h
      cases parsed with
      | none =>
          rcases ih h with hs | ⟨r', hr', hp⟩
          · exact .inl hs
          · exact .inr ⟨r', List.mem_cons_of_mem _ hr', hp⟩
      | some e =>
          rcases ih h with hs | ⟨r', hr', hp⟩
          · split_ifs at hs with hnewer
            · by_cases hname : name = e.branch
              · rw [hname, Function.update_self, Option.some.injEq] at hs
                exact .inr ⟨r, List.mem_cons_self, hs ▸ hparsed⟩
              · rw [Function.update_of_ne hname] at hs
                exact .inl hs
            · exact .inl hs
          · exact .inr ⟨r', List.mem_cons_of_mem _ hr', hp⟩

/-- The target of the latest event is a shared root. -/
theorem target_mem_sharedRootsOf {lifecycle : String → Option BranchLifecycleEvent}
    (h : branchLifecycleStates refs = .ok lifecycle) {name : String}
    (he : lifecycle name = some event) :
    event.target ∈ sharedRootsOf refs := by
  rcases exists_ref_of_states h he with hnone | ⟨r, hr, hp⟩
  · simp at hnone
  · refine List.mem_map.2 ⟨r, List.mem_filter.2 ⟨hr, ?_⟩, target_of_parseBranchLifecycleRef hp⟩
    simp [isLifecycleRef, hp]

/-- The archived branches and their latest events. -/
theorem mem_archivedStates {lifecycle : String → Option BranchLifecycleEvent}
    {p : String × BranchLifecycleEvent} (h : p ∈ archivedStates refs lifecycle) :
    lifecycle p.1 = some p.2 := by
  obtain ⟨name, -, hname⟩ := List.mem_filterMap.1 h
  cases hstate : lifecycle name with
  | none => simp [hstate] at hname
  | some state =>
      simp only [hstate, Option.ite_none_right_eq_some, Option.some.injEq] at hname
      rw [← hname.2]
      exact hstate

/-! ### The tiers -/

variable {v : RepositoryView} {archiveRoots : List ContentHash}

/-- The classification that the projection starts from. -/
abbrev classified (v : RepositoryView) : PendingClassification :=
  classifyPending v (sharedRootsOf v.refs)

/-- What an archived branch reaches is shared. -/
theorem archived_subset_shared (h : ∀ r ∈ archiveRoots, r ∈ sharedRootsOf v.refs) :
    (graphSets v (classified v) archiveRoots).archived ⊆ (classified v).shared := by
  intro id hid
  have hreach := (Finset.mem_filter.1 hid).1
  exact graphRoots_subset_shared v _ (graphRoots_subset h hreach)

/-- Every uncommitted capture is visible: pending captures are visible roots. -/
theorem uncommitted_subset_visible (v : RepositoryView) :
    uncommittedOf v (classified v) ⊆ visibleOf v (classified v) := by
  intro id hid
  obtain ⟨hreach, hkept, -⟩ := Finset.mem_filter.1 hid
  refine Finset.mem_filter.2 ⟨graphRoots_subset (fun r hr => ?_) hreach, hkept⟩
  simp only [visibleRootsOf, List.mem_append]
  exact .inl (.inl (.inr hr))

/-- What is uncommitted is not shared. -/
theorem uncommitted_not_shared (h : id ∈ uncommittedOf v (classified v)) :
    id ∉ (classified v).shared :=
  (Finset.mem_filter.1 h).2.2.1

/-- The five tiers of a visible id, in terms of the sets they are filtered from. -/
structure Tiered (s : GraphSets) (shared : GraphSet) : Prop where
  archived : s.archived ⊆ s.visible ∩ shared
  uncommitted : s.uncommitted ⊆ s.visible \ shared
  tagged : s.tagged ⊆ (s.visible \ shared) \ s.uncommitted
  pushed : s.pushed = (s.visible ∩ shared) \ s.archived
  unpushed : s.unpushed = ((s.visible \ shared) \ s.uncommitted) \ s.tagged

/-- **The sets are disjoint tiers.** -/
theorem graphSets_tiered (h : ∀ r ∈ archiveRoots, r ∈ sharedRootsOf v.refs) :
    Tiered (graphSets v (classified v) archiveRoots) (classified v).shared where
  archived id hid :=
    Finset.mem_inter.2 ⟨(Finset.mem_filter.1 hid).2.1, archived_subset_shared h hid⟩
  uncommitted id hid :=
    Finset.mem_sdiff.2 ⟨uncommitted_subset_visible v hid, uncommitted_not_shared hid⟩
  tagged id hid := by
    obtain ⟨-, hvisible, hshared, hcommitted⟩ := Finset.mem_filter.1 hid
    exact Finset.mem_sdiff.2 ⟨Finset.mem_sdiff.2 ⟨hvisible, hshared⟩, hcommitted⟩
  pushed := by
    ext id
    rw [Finset.mem_sdiff, Finset.mem_inter]
    refine ⟨fun hid => ?_, fun ⟨⟨hvisible, hshared⟩, harchived⟩ => ?_⟩
    · obtain ⟨hvisible, hshared, harchived, -⟩ := Finset.mem_filter.1 hid
      exact ⟨⟨hvisible, hshared⟩, harchived⟩
    · exact Finset.mem_filter.2
        ⟨hvisible, hshared, harchived, fun hu => uncommitted_not_shared hu hshared⟩
  unpushed := by
    ext id
    simp only [graphSets, Finset.mem_sdiff, Finset.mem_filter]
    tauto

/-- A visible id is in some tier. -/
theorem Tiered.mem_visible {s : GraphSets} {shared : GraphSet} (h : Tiered s shared) :
    id ∈ s.visible ↔ id ∈ s.pushed ∨ id ∈ s.archived ∨ id ∈ s.uncommitted ∨ id ∈ s.tagged ∨
      id ∈ s.unpushed := by
  have harchived := @h.archived id
  have huncommitted := @h.uncommitted id
  have htagged := @h.tagged id
  rw [h.pushed, h.unpushed]
  simp only [Finset.mem_inter, Finset.mem_sdiff] at *
  tauto

/-- No id is in two tiers. -/
theorem Tiered.pairwise_disjoint {s : GraphSets} {shared : GraphSet} (h : Tiered s shared) :
    [graphIDs s.pushed, graphIDs s.archived, graphIDs s.uncommitted, graphIDs s.tagged,
      graphIDs s.unpushed].Pairwise List.Disjoint := by
  have hdisjoint {a b : GraphSet} (hab : ∀ id ∈ a, id ∉ b) :
      List.Disjoint (graphIDs a) (graphIDs b) :=
    fun id ha hb => hab id (mem_graphIDs.1 ha) (mem_graphIDs.1 hb)
  have hpushed : ∀ id ∈ s.pushed, id ∈ shared ∧ id ∉ s.archived := fun id hid => by
    rw [h.pushed, Finset.mem_sdiff, Finset.mem_inter] at hid
    exact ⟨hid.1.2, hid.2⟩
  have harchived : ∀ id ∈ s.archived, id ∈ shared :=
    fun id hid => (Finset.mem_inter.1 (h.archived hid)).2
  have huncommitted : ∀ id ∈ s.uncommitted, id ∉ shared :=
    fun id hid => (Finset.mem_sdiff.1 (h.uncommitted hid)).2
  have htagged : ∀ id ∈ s.tagged, id ∉ shared ∧ id ∉ s.uncommitted := fun id hid => by
    have := h.tagged hid
    rw [Finset.mem_sdiff, Finset.mem_sdiff] at this
    exact ⟨this.1.2, this.2⟩
  have hunpushed : ∀ id ∈ s.unpushed, id ∉ shared ∧ id ∉ s.uncommitted ∧ id ∉ s.tagged :=
    fun id hid => by
      rw [h.unpushed, Finset.mem_sdiff, Finset.mem_sdiff, Finset.mem_sdiff] at hid
      exact ⟨hid.1.1.2, hid.1.2, hid.2⟩
  simp only [List.pairwise_cons, List.mem_cons, List.not_mem_nil, or_false, forall_eq_or_imp,
    forall_eq, List.Pairwise.nil, and_true, IsEmpty.forall_iff, implies_true]
  refine ⟨⟨?_, ?_, ?_, ?_⟩, ⟨?_, ?_, ?_⟩, ⟨?_, ?_⟩, ?_⟩ <;> refine hdisjoint fun id ha hb => ?_
  · exact (hpushed id ha).2 hb
  · exact huncommitted id hb (hpushed id ha).1
  · exact (htagged id hb).1 (hpushed id ha).1
  · exact (hunpushed id hb).1 (hpushed id ha).1
  · exact huncommitted id hb (harchived id ha)
  · exact (htagged id hb).1 (harchived id ha)
  · exact (hunpushed id hb).1 (harchived id ha)
  · exact (htagged id hb).2 ha
  · exact (hunpushed id hb).2.1 ha
  · exact (hunpushed id hb).2.2 ha

/-! ### The tips of what is ahead -/

/-- `p` is a natural or graft parent of the snapshot `child`. -/
def ParentIn (snaps : List Snapshot) (child p : ContentHash) : Prop :=
  ∃ s ∈ snaps, s.id = child ∧ (p ∈ s.parents.list ∨ p ∈ s.graftParents.list)

/-- The parents of a snapshot, by the index. -/
theorem parentIn_iff {snaps : List Snapshot} (hn : (snaps.map Snapshot.id).Nodup)
    {child p : ContentHash} : ParentIn snaps child p ↔ p ∈ parentsOf snaps child := by
  rw [mem_parentsOf]
  constructor
  · rintro ⟨s, hs, rfl, hp⟩
    exact ⟨s, byID_of_mem hn hs, hp⟩
  · rintro ⟨s, hs, hp⟩
    obtain ⟨hmem, hid⟩ := byID_eq_some hs
    exact ⟨s, hmem, hid, hp⟩

/-- What is left after sets are taken out. -/
theorem mem_foldl_sdiff {α : Type} {f : α → GraphSet} {l : List α} {s : GraphSet}
    : id ∈ l.foldl (fun s a => s \ f a) s ↔ id ∈ s ∧ ∀ a ∈ l, id ∉ f a := by
  induction l generalizing s with
  | nil => simp
  | cons a l ih =>
      rw [List.foldl_cons, ih, Finset.mem_sdiff, List.forall_mem_cons, and_assoc]

/-- A tip has no child that is ahead. -/
theorem mem_tips :
    id ∈ (graphSets v (classified v) archiveRoots).tips ↔
      id ∈ aheadOf v (classified v) ∧
        ∀ child ∈ aheadOf v (classified v), id ∉ parentsOf v.snapshots child := by
  simp [graphSets, mem_foldl_sdiff]

/-! ### The projection -/

/-- What a successful projection has checked and returned, as far as the tiers go. -/
theorem projectGraphState_sets {env : GraphEnv} {primary positionID : String} {out : GraphState}
    (h : projectGraphState env v primary positionID = .ok out) :
    (v.snapshots.map Snapshot.id).Nodup ∧ Acyclic (Parent v.snapshots) ∧
      ∃ archiveRoots, (∀ r ∈ archiveRoots, r ∈ sharedRootsOf v.refs) ∧
      out.sharedIDs = some (graphIDs (classified v).shared) ∧
      out.graphIDs = some (graphIDs (visibleOf v (classified v))) ∧
      out.aheadIDs = some (graphIDs (aheadOf v (classified v))) ∧
      let sets := graphSets v (classified v) archiveRoots
      out.pushedIDs = some (graphIDs sets.pushed) ∧
      out.archivedOnlyIDs = some (graphIDs sets.archived) ∧
      out.uncommittedIDs = some (graphIDs sets.uncommitted) ∧
      out.taggedIDs = some (graphIDs sets.tagged) ∧
      out.unpushedIDs = some (graphIDs sets.unpushed) ∧
      out.aheadTips = some (graphIDs sets.tips) := by
  simp only [projectGraphState, bind_eq_ok, exists_unit_iff, Except.ok.injEq] at h
  obtain ⟨hindex, bindings, -, -, lifecycle, hlifecycle, -, rfl⟩ := h
  obtain ⟨hn, hacyclic⟩ := newGraphStateIndex_eq_ok.1 hindex
  refine ⟨hn, hacyclic, _, fun r hr => ?_, rfl, rfl, rfl, rfl, rfl, rfl,
    rfl, rfl, rfl⟩
  obtain ⟨k, hk, rfl⟩ := List.mem_map.1 hr
  obtain ⟨p, hp, rfl⟩ := List.mem_map.1 (List.mem_filter.1 hk).1
  exact target_mem_sharedRootsOf hlifecycle (mem_archivedStates hp)

/-- The publication tiers of a state. -/
def tiers (g : GraphState) : List (List ContentHash) :=
  [g.pushedIDs.list, g.archivedOnlyIDs.list, g.uncommittedIDs.list, g.taggedIDs.list,
    g.unpushedIDs.list]

/-- **The publication tiers partition the drawn graph.**  No id is in two tiers and the
drawn ids are those of some tier; what is ahead is what is drawn and not shared, and its
tips are the members that are no parent of another member. -/
theorem projectGraphState_tiers {v : RepositoryView} {env : GraphEnv}
    {primary positionID : String} {out : GraphState}
    (h : projectGraphState env v primary positionID = .ok out) :
    (tiers out).Pairwise List.Disjoint ∧
    (∀ id, id ∈ out.graphIDs.list ↔ ∃ tier ∈ tiers out, id ∈ tier) ∧
    (∀ id, id ∈ out.aheadIDs.list ↔ id ∈ out.graphIDs.list ∧ id ∉ out.sharedIDs.list) ∧
    ∀ id, id ∈ out.aheadTips.list ↔ id ∈ out.aheadIDs.list ∧
      ∀ child ∈ out.aheadIDs.list, child ≠ id → ¬ ParentIn v.snapshots child id := by
  obtain ⟨hn, hacyclic, archiveRoots, hroots, hshared, hgraph, hahead, hpushed, harchived,
    huncommitted, htagged, hunpushed, htips⟩ := projectGraphState_sets h
  have htiered := graphSets_tiered hroots
  simp only [tiers, hshared, hgraph, hahead, hpushed, harchived, huncommitted, htagged, hunpushed,
    htips, Slice.list_some, mem_graphIDs]
  refine ⟨htiered.pairwise_disjoint, fun id => ?_, fun id => ?_, fun id => ?_⟩
  · simp only [List.mem_cons, List.not_mem_nil, or_false, exists_eq_or_imp, exists_eq_left,
      mem_graphIDs]
    exact htiered.mem_visible
  · exact Finset.mem_filter
  · rw [mem_tips]
    refine and_congr_right fun _ => forall₂_congr fun child _ => ?_
    rw [← parentIn_iff hn]
    -- a snapshot that is its own parent would be a cycle of the index
    refine ⟨fun hp _ => hp, fun hp hpar => hp (fun heq => ?_) hpar⟩
    subst heq
    exact hacyclic _ (.single ((parentIn_iff hn).1 hpar))

/-- A repository with a published capture, one behind a tag, one pending and one on
hold. -/
def tieredView : RepositoryView :=
  let snap (c : Char) (parents : List Char) (message : String) : Snapshot :=
    { id := digitHash c, repoID := digitHash '0', branch := "main", docHash := digitHash '9'
      parents := some (parents.map digitHash), message := message }
  { snapshots := [snap '1' [] "first", snap '2' ['1'] "tagged", snap '3' ['1'] "hook: stop",
      snap '4' ['1'] "on hold"]
    refs := [{ kind := .branch, name := "main", repoID := digitHash '0', target := digitHash '1' },
      { kind := .tag, name := "v1", repoID := digitHash '0', target := digitHash '2' }]
    pending := [{ repoID := digitHash '0', sessionID := "s", branch := "main"
                  target := digitHash '3' }]
    unsync :=
      [{ repoID := digitHash '0', user := "u", branch := "main", target := digitHash '4' }] }

/-- A projection without operations. -/
def plainGraphEnv : GraphEnv where
  digest := { hash := fun _ => String.ofList (List.replicate 32 '0'), hex := fun _ => by decide }
  operations _ _ _ := {}

/-- A view with snapshots in more than one tier. -/
theorem projectGraphState_tieredView :
    ∃ out, projectGraphState plainGraphEnv tieredView "main" "" = .ok out ∧
      (tiers out).Pairwise List.Disjoint ∧
      ∀ id, id ∈ out.graphIDs.list ↔ ∃ tier ∈ tiers out, id ∈ tier := by
  obtain ⟨out, h⟩ : ∃ out, projectGraphState plainGraphEnv tieredView "main" "" = .ok out :=
    ⟨_, rfl⟩
  obtain ⟨hdisjoint, hunion, -⟩ := projectGraphState_tiers h
  exact ⟨out, h, hdisjoint, hunion⟩

end Backend
end CxtHub
