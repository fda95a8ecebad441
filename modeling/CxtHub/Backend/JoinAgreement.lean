/-
# Preview and store on join eligibility

The planner picks the lane above the source by branch membership
(`ProjectSnapshotBranchMemberships`); the store, when it applies the mutation,
picks it by attachment to the branch and its sessions.  Everything else the store
checks follows from the plan (`Planned.mutation_iff`, `Planned.scope_iff`), so the
store accepts a plan exactly when every attached child of the lane is a member of
the branch (`planJoin_accepted_iff`).  A child labelled with another branch is
attached without being a member: `planJoin_refused_mixed`.
-/

import CxtHub.Backend.JoinReach
import CxtHub.Backend.JoinValidation

namespace CxtHub
namespace Backend

open Relation

variable {x id : ContentHash} {forkName : String} {patch : GraftPatch} {snaps : List Snapshot}
  {l : List ContentHash}

/-- The pairs that `ProjectSnapshotBranchMemberships` adds: the branch label of each
snapshot, and both ends of each movement of a branch ref. -/
def membershipPairs (snapshots : List Snapshot) (reflog : List RefLogEntry) :
    List (ContentHash × String) :=
  (snapshots.map fun s => (s.id, s.branch)) ++
    (reflog.filter fun e => decide (e.kind = .branch)).flatMap fun e =>
      [(e.old, e.name), (e.new, e.name)]

/-- `ProjectSnapshotBranchMemberships`. -/
def projectSnapshotBranchMemberships (snapshots : List Snapshot) (reflog : List RefLogEntry)
    (id : ContentHash) (branch : String) : Bool :=
  !(decide (id = "") || decide (branch = "") || decide (branch = "HEAD")) &&
    (membershipPairs snapshots reflog).contains (id, branch)

/-- What the store guarantees of a graph it lists: `GetSnapshot` and `getRefRaw` validate
every snapshot and every ref they read. -/
structure StoredGraph (graph : JoinGraph) : Prop where
  snapshots : ∀ s ∈ graph.snapshots, validateSnapshotRefs s = .ok ()
  refs : ∀ ref ∈ graph.refs, ref.kind = .branch → validContentHash ref.target = true

/-- The ids attached to the branch: what the store walks from its refs. -/
def JoinGraph.attached (graph : JoinGraph) (branch : String) : List ContentHash :=
  snapshotReachableSet graph.snapshots (targetRoots branch graph.refs)

/-- Every attached snapshot whose first parent is on the lane is a member of the branch. -/
def LaneLabelled (graph : JoinGraph) (req : JoinRequest) : Prop :=
  ∀ s ∈ graph.snapshots, s.id ∈ graph.attached req.branch →
    ∀ id, OnLane graph req.branch req.source id → s.parents.list.head? = some id →
      graph.memberships s.id req.branch = true

section Attached

variable {graph : JoinGraph} {branch : String}

/-- Attached is what the refs in the scope of the branch reach. -/
theorem mem_attached :
    x ∈ graph.attached branch ↔ x ≠ "" ∧ ∃ ref ∈ graph.refs, inScope branch ref = true ∧
      ref.target ≠ "" ∧ ReflTransGen (Step graph.snapshots) ref.target x := by
  simp only [JoinGraph.attached, targetRoots, mem_snapshotReachableSet, List.mem_map,
    List.mem_filter, Bool.and_eq_true, Bool.not_eq_true', decide_eq_false_iff_not]
  refine and_congr_right fun _ => ⟨?_, ?_⟩
  · rintro ⟨_, ⟨ref, ⟨hr, hs, hne⟩, rfl⟩, hreach⟩
    exact ⟨ref, hr, hs, hne, hreach⟩
  · rintro ⟨ref, hr, hs, hne, hreach⟩
    exact ⟨_, ⟨ref, ⟨hr, hs, hne⟩, rfl⟩, hreach⟩

/-- What an attached snapshot steps to is attached. -/
theorem attached_step {y : ContentHash} (hx : x ∈ graph.attached branch)
    (hxy : Step graph.snapshots x y) (hy : y ≠ "") : y ∈ graph.attached branch := by
  obtain ⟨-, ref, hr, hs, hne, hreach⟩ := mem_attached.1 hx
  exact mem_attached.2 ⟨hy, ref, hr, hs, hne, hreach.tail hxy⟩

/-- The scope has branches and sessions only. -/
theorem inScope_kind {ref : Ref} (h : inScope branch ref = true) :
    ref.kind = .branch ∨ ref.kind = .session := by
  cases hk : ref.kind <;> simp_all [inScope, isBranchNamed, isSessionOf]

/-- What is attached is shared. -/
theorem attached_subset_shared (hx : x ∈ graph.attached branch) :
    x ∈ graph.shared := by
  obtain ⟨hxe, ref, hr, hs, hne, hreach⟩ := mem_attached.1 hx
  have htimeline : joinSharedTimelineRef ref = true := by
    rw [joinSharedTimelineRef, if_neg hne, if_pos (inScope_kind hs)]
  exact mem_snapshotReachableSet.2
    ⟨hxe, ref.target, List.mem_map.2 ⟨ref, List.mem_filter.2 ⟨hr, htimeline⟩, rfl⟩, hreach⟩

/-- An attached snapshot counts as a commit, whatever its label and pending pointers. -/
theorem isJoinCommit_of_attached {s : Snapshot}
    (hs : byID graph.snapshots x = some s) (hx : x ∈ graph.attached branch) :
    graph.isJoinCommit x = true := by
  have hshared := attached_subset_shared hx
  have hpending : x ∉ graph.pendingTargets := by
    simp only [JoinGraph.pendingTargets, List.mem_map, List.mem_filter, not_exists, not_and]
    rintro p ⟨-, hp⟩ rfl
    simp [hshared] at hp
  simp [JoinGraph.isJoinCommit, hs, hpending, hshared]

/-- The planner's reach of the branch is what the store calls attached. -/
theorem targetShared_subset_attached {head : Ref}
    (hhead : graph.refs.find? (isBranchNamed branch) = some head) (hne : head.target ≠ "")
    (hx : x ∈ graph.targetShared branch head.target) : x ∈ graph.attached branch := by
  rcases List.mem_append.1 hx with hx | hx
  · obtain ⟨hxe, _, hroot, hreach⟩ := mem_snapshotReachableSet.1 hx
    rw [List.mem_singleton] at hroot
    have hnamed := List.find?_some hhead
    exact mem_attached.2 ⟨hxe, head, List.mem_of_find?_eq_some hhead,
      by rw [inScope, hnamed, Bool.true_or], hne, hroot ▸ hreach⟩
  · obtain ⟨hxe, root, hroot, hreach⟩ := mem_snapshotReachableSet.1 hx
    obtain ⟨ref, hr, rfl⟩ := List.mem_map.1 hroot
    obtain ⟨hr, hsess⟩ := List.mem_filter.1 hr
    obtain ⟨htime, hsess⟩ := Bool.and_eq_true_iff.1 hsess
    have hne' : ref.target ≠ "" := by
      intro he
      rw [joinSharedTimelineRef, if_pos he] at htime
      cases htime
    exact mem_attached.2 ⟨hxe, ref, hr, by rw [inScope, hsess, Bool.or_true], hne', hreach⟩

end Attached

/-! ### The mutation of a plan -/

/-- A fork name as `joinForkRefName` makes it: under the prefix of the branch, and only
when there is a remaining tip. -/
structure ForkNameFor (plan : JoinPlan) (forkName : String) : Prop where
  absent : plan.remainingTip = "" → forkName = ""
  under : plan.remainingTip ≠ "" → hasPrefix forkName (sessionRefPrefix plan.branch) = true

/-- The mutation that `JoinPlan.Mutation` builds before it validates it. -/
def JoinPlan.toMutation (plan : JoinPlan) (forkName : String) : JoinMutation :=
  { expectedScopeRevision := plan.scopeRevision, repoID := plan.repoID, branch := plan.branch
    branchID := plan.branchID, source := plan.source, segment := plan.segment
    expectedHead := plan.expectedHead, newHead := plan.newHead, forkTip := plan.remainingTip
    forkName := forkName, grafts := plan.grafts }

/-- The mutation of a plan is checked before it is returned. -/
theorem mutation_eq_ok {plan : JoinPlan} {m : JoinMutation} :
    plan.mutation forkName = .ok m ↔
      validateJoinMutation (plan.toMutation forkName) = .ok () ∧ plan.toMutation forkName = m := by
  rw [JoinPlan.mutation, bind_eq_ok, exists_unit_iff, Except.ok.injEq]
  rfl

/-- A session prefix is not empty, so a name under it is not either. -/
theorem ne_empty_of_hasPrefix_session {name branch : String}
    (h : hasPrefix name (sessionRefPrefix branch) = true) : name ≠ "" := by
  rintro rfl
  have hempty := congrArg String.utf8ByteSize (eq_empty_of_hasPrefix_empty h)
  simp [sessionRefPrefix] at hempty

section Planned

variable (digest : JoinScope → ContentHash) {graph : JoinGraph} {req : JoinRequest}
  {snapX : Snapshot} {head : Ref} {segment : List ContentHash} {superseded : List GraftPatch}

/-- The source is grafted to what it was grafted to, and to the head. -/
theorem mem_sourceGrafts {snapX : Snapshot} {head p : ContentHash}
    (hp : p ∈ sourceGrafts snapX head) : p ∈ snapX.graftParents.list ∨ p = head := by
  unfold sourceGrafts at hp
  split_ifs at hp
  · exact Or.inl hp
  · rcases List.mem_append.1 hp with hp | hp
    · exact Or.inl hp
    · exact Or.inr (List.mem_singleton.1 hp)

section

variable (h : Planned graph req snapX head segment superseded)

include h

/-- The tip is in the segment. -/
theorem Planned.tip_mem :
    tipOf req segment ∈ segment := by
  obtain ⟨hlane, -⟩ := h.lane
  rw [tipOf, List.getLastD_eq_getLast?, List.getLast?_eq_some_getLast hlane.ne_nil]
  exact List.getLast_mem hlane.ne_nil

/-- The new head is one of the segment. -/
theorem Planned.newHead_mem :
    (h.plan digest).newHead ∈ segment := by
  have hnew : (h.plan digest).newHead =
      if req.includeDescendants then tipOf req segment else req.source := rfl
  rw [hnew]
  split_ifs
  · exact h.tip_mem
  · exact h.source_mem

/-- The ids of the segment are those of stored snapshots, so valid hashes. -/
theorem Planned.segment_valid (hs : StoredGraph graph) (hid : id ∈ segment) :
    validContentHash id = true := by
  obtain ⟨s, hmem, rfl⟩ := List.mem_map.1 (h.lane.1.stored id hid)
  exact (validateSnapshotRefs_eq_ok (hs.snapshots s hmem)).1

/-- The head of a stored branch is a content hash. -/
theorem Planned.head_valid (hs : StoredGraph graph) : validContentHash head.target = true := by
  have hnamed := List.find?_some h.head_found
  simp only [isBranchNamed, Bool.and_eq_true, decide_eq_true_eq] at hnamed
  exact hs.refs head (List.mem_of_find?_eq_some h.head_found) hnamed.1

/-- A patch of the plan: a superseded snapshot of the head's reach, or the source. -/
theorem Planned.mem_grafts
    (hp : patch ∈ (h.plan digest).grafts) : (∃ s ∈ graph.snapshots,
      hitsSegment (snapshotReachableSet graph.snapshots [head.target]) segment s = true ∧
      patch = supersedePatch segment s) ∨
    patch = { snapshotID := req.source, expectedSeq := snapX.graftSeq,
              parents := sourceGrafts snapX head.target } := by
  rw [Planned.plan, buildPlan, List.mem_append, List.mem_singleton,
    (supersedes_eq_ok h.supersedes_eq).1] at hp
  rcases hp with hp | hp
  · obtain ⟨s, hmem, rfl⟩ := List.mem_map.1 hp
    obtain ⟨hmem, hhit⟩ := List.mem_filter.1 hmem
    exact Or.inl ⟨s, hmem, hhit, rfl⟩
  · exact Or.inr hp

/-- The patches of a plan are well formed. -/
theorem Planned.patches_valid (hs : StoredGraph graph)
    (hp : patch ∈ (h.plan digest).grafts) : validatePatch patch = .ok () := by
  simp only [validatePatch, bind_eq_ok, exists_unit_iff, validateContentHash_eq_ok,
    checkAll_eq_ok]
  rcases h.mem_grafts digest hp with ⟨s, hmem, -, rfl⟩ | rfl
  · obtain ⟨hid, -, hgrafts, -⟩ := validateSnapshotRefs_eq_ok (hs.snapshots s hmem)
    exact ⟨hid, fun p hp => hgrafts p (List.mem_filter.1 hp).1⟩
  · refine ⟨h.source_valid, fun p hp => ?_⟩
    rcases mem_sourceGrafts hp with hp | rfl
    · have hmem := (byID_eq_some h.source_found).1
      exact (validateSnapshotRefs_eq_ok (hs.snapshots snapX hmem)).2.2.1 p hp
    · exact h.head_valid hs

/-- The patch of the source grafts it to the head. -/
theorem Planned.source_patch
    (hp : patch ∈ (h.plan digest).grafts)
    (hid : patch.snapshotID = req.source) : head.target ∈ patch.parents := by
  rcases h.mem_grafts digest hp with ⟨s, -, hhit, rfl⟩ | rfl
  · simp only [hitsSegment, Bool.and_eq_true, Bool.not_eq_true', List.contains_eq_mem,
      decide_eq_false_iff_not] at hhit
    have hid' : s.id = req.source := hid
    exact absurd (hid' ▸ h.source_mem) hhit.1.1
  · simp only [sourceGrafts]
    split_ifs with hin
    · exact hin
    · exact List.mem_append_right _ (List.mem_singleton_self _)

/-- The segment has one element exactly when its tip is the source. -/
theorem Planned.length_eq_one_iff :
    segment.length = 1 ↔ tipOf req segment = req.source := by
  obtain ⟨hlane, -⟩ := h.lane
  have hhead := hlane.head
  have hnodup := hlane.nodup
  match segment, hhead, hnodup with
  | [a], hhead, _ => simpa [tipOf] using hhead
  | a :: b :: rest, hhead, hnodup =>
      have ha : a = req.source := by simpa using hhead
      have htip : tipOf req (a :: b :: rest) ∈ b :: rest := by
        exact List.getLast_mem _
      refine ⟨fun hl => by simp at hl, fun he => ?_⟩
      rw [he, ← ha] at htip
      exact absurd htip (List.nodup_cons.1 hnodup).1

/-- The new head, the tip and the residual session ref of a plan fit together. -/
theorem Planned.ends_ok
    (hfork : ForkNameFor (h.plan digest) forkName) : validateJoinEnds ((h.plan digest).toMutation
      forkName) = .ok () := by
  obtain ⟨hlane, -⟩ := h.lane
  have htip : segment.getLastD "" = tipOf req segment := by
    rw [tipOf, List.getLastD_eq_getLast?, List.getLastD_eq_getLast?,
      List.getLast?_eq_some_getLast hlane.ne_nil]
    rfl
  have hne : tipOf req segment ≠ "" :=
    ne_empty_of_mem_targetShared (h.mem_targetShared h.tip_mem)
  obtain ⟨habsent, hunder⟩ := hfork
  rw [buildPlan_remainingTip] at habsent hunder
  simp only [validateJoinEnds, JoinPlan.toMutation, buildPlan_segment, buildPlan_source,
    buildPlan_newHead, buildPlan_remainingTip, htip, h.length_eq_one_iff]
  by_cases hts : tipOf req segment = req.source
  · have hname : forkName = "" := habsent (by simp [hts])
    simp [hts, hname]
  by_cases hinc : req.includeDescendants = true
  · have hname : forkName = "" := habsent (by simp [hinc])
    simp [hts, hinc, hname]
  · have hname : forkName ≠ "" := by
      refine ne_empty_of_hasPrefix_session (hunder ?_)
      simpa [hinc, hts] using hne
    simp [hts, hinc, hname, Ne.symm hts]

/-- **A plan's mutation is valid exactly when its fork name is a ref name.** -/
theorem Planned.mutation_iff (hs : StoredGraph graph)
    (hfork : ForkNameFor (h.plan digest) forkName) :
    validateJoinMutation ((h.plan digest).toMutation
      forkName) = .ok () ↔ forkName = "" ∨ validBranchName forkName = true := by
  have hends := h.ends_ok digest hfork
  have hunder := hfork.under
  have hlane := h.lane.1
  have htipmem := h.tip_mem
  have hrem : (h.plan digest).remainingTip ≠ "" → (h.plan digest).remainingTip ∈ segment := by
    rw [buildPlan_remainingTip]
    split_ifs
    · exact fun _ => htipmem
    · exact fun h => absurd rfl h
  have hsame : decide (forkName = "") = decide
      ((h.plan digest).remainingTip = "") := by
    refine decide_eq_decide.2 ⟨fun hf => ?_, hfork.absent⟩
    by_contra hr
    exact ne_empty_of_hasPrefix_session (hfork.under hr) hf
  have hgrafts : (h.plan digest).grafts ≠ [] := by
    exact List.append_ne_nil_of_right_ne_nil _ (List.cons_ne_nil _ _)
  have hsourceMem : req.source ∈ (buildPlan digest graph req snapX head segment
      superseded).grafts.map GraftPatch.snapshotID := by
    rw [buildPlan, List.map_append]
    exact List.mem_append_right _ (List.mem_singleton_self _)
  have hscope : ¬ (forkName ≠ "" ∧
      hasPrefix forkName (sessionRefPrefix req.branch) = false) := by
    rintro ⟨hf, hp⟩
    have hr : (h.plan digest).remainingTip ≠ "" :=
      fun hr => hf (hfork.absent hr)
    rw [buildPlan_branch, hp] at hunder
    exact absurd (hunder hr) Bool.false_ne_true
  have hplan : validateJoinMutationPlan
      ((h.plan digest).toMutation forkName) = .ok () := by
    simp only [validateJoinMutationPlan, bind_eq_ok, exists_unit_iff, refuse_eq_ok,
      checkAll_eq_ok, not_not]
    exact ⟨h.branch_ne_head, hlane.head, hends, hscope,
      fun patch hp hbad => hbad.2 (h.source_patch digest hp hbad.1), hsourceMem⟩
  have hvalidFork : validateJoinFork
      ((h.plan digest).toMutation forkName) =
        .ok () ↔ forkName = "" ∨ validBranchName forkName = true := by
    by_cases hf : forkName = ""
    · simp [validateJoinFork, JoinPlan.toMutation, hf]
    · have hr : (h.plan digest).remainingTip ≠ "" :=
        fun hr => hf (hfork.absent hr)
      simp [validateJoinFork, JoinPlan.toMutation, hf, hrem hr,
        h.segment_valid hs (hrem hr)]
  simp only [validateJoinMutation, bind_eq_ok, exists_unit_iff, refuse_eq_ok, checkAll_eq_ok,
    checkFresh_eq_ok, validateContentHash_eq_ok, validateBranchName_eq_ok, hplan, hvalidFork,
    List.mem_cons, List.not_mem_nil, or_false, forall_eq_or_imp, forall_eq, not_not, and_true]
  refine ⟨fun hall => hall.2.2.2.2.2.2.1, fun hf => ⟨?_, hlane.head, ?_, h.newHead_mem digest,
    h.branch_valid, hsame, hf, ?_, ?_⟩⟩
  · exact ⟨h.repoID_valid, h.source_valid, h.head_valid hs,
      h.segment_valid hs (h.newHead_mem digest)⟩
  · exact ⟨fun id hid => h.segment_valid hs hid, (List.map_id segment).symm ▸ hlane.nodup,
      fun _ _ => not_false⟩
  · exact fun hl => hgrafts (List.length_eq_zero_iff.1 hl)
  · exact ⟨fun patch hp => h.patches_valid digest hs hp, h.grafts_nodup digest,
      fun _ _ => not_false⟩

end

/-! ### The scope of a plan -/

/-- The attached snapshots whose first parent this is. -/
theorem mem_attachedChildren {attached : List ContentHash}
    {c : ContentHash} : c ∈ attachedChildren snaps attached id ↔
      ∃ s ∈ snaps, s.parents.list.head? = some id ∧ s.id ∈ attached ∧ s.id = c := by
  simp [attachedChildren, and_assoc]

/-- A lane of snapshots that are attached passes the segment check. -/
theorem checkSegment_eq_ok {attached : List ContentHash}
    {before : Option ContentHash}
    (hmem : ∀ id ∈ l, id ∈ attached ∧ ∃ s, byID snaps id = some s)
    (hfirst : ∀ a ∈ l.head?, before.isSome = true →
      ∃ s, byID snaps a = some s ∧ s.parents.list.head? = before)
    (hchain : l.IsChain fun a b => ∃ s, byID snaps b = some s ∧ s.parents.list.head? = some a) :
    checkSegment snaps attached before l = .ok () := by
  induction l generalizing before with
  | nil => rfl
  | cons id rest ih =>
      obtain ⟨hatt, s, hs⟩ := hmem id (List.mem_cons_self ..)
      have hok : ¬ (before.isSome = true ∧ s.parents.list.head? ≠ before) := by
        rintro ⟨hb, hne⟩
        obtain ⟨t, ht, hp⟩ := hfirst id rfl hb
        rw [hs, Option.some.injEq] at ht
        exact hne (ht ▸ hp)
      have hrest : checkSegment snaps attached (some id) rest = .ok () := by
        refine ih (fun x hx => hmem x (List.mem_cons_of_mem _ hx)) (fun a ha _ => ?_)
          (List.IsChain.tail hchain)
        cases rest with
        | nil => cases ha
        | cons b rest =>
            rw [List.head?_cons, Option.mem_some_iff] at ha
            exact ha ▸ (List.isChain_cons_cons.1 hchain).1
      rw [checkSegment, hs]
      simp only [bind_eq_ok, exists_unit_iff, refuse_eq_ok]
      exact ⟨fun h => h hatt, hok, hrest⟩

/-- A list whose elements have at most the next one as a child passes the child check. -/
theorem checkOnlyChildren_of_chain {attached : List ContentHash}
    {kids : ContentHash → List ContentHash}
    (hchain : l.IsChain fun a b => kids a = [b])
    (hlast : ∀ x, l.getLast? = some x → kids x = [])
    (hkids : ∀ id ∈ l, ∀ c ∈ attachedChildren snaps attached id, c ∈ kids id) :
    checkOnlyChildren snaps attached l = .ok () := by
  induction l with
  | nil => rfl
  | cons id rest ih =>
      have hhead : ∀ c ∈ attachedChildren snaps attached id, c = rest.headD "" := by
        intro c hc
        have hk := hkids id (List.mem_cons_self ..) c hc
        cases rest with
        | nil =>
            rw [hlast id (by simp)] at hk
            cases hk
        | cons b rest =>
            rw [(List.isChain_cons_cons.1 hchain).1, List.mem_singleton] at hk
            exact hk
      have hrest : checkOnlyChildren snaps attached rest = .ok () := by
        refine ih (List.IsChain.tail hchain) (fun x hx => ?_)
          fun x hx => hkids x (List.mem_cons_of_mem _ hx)
        cases rest with
        | nil => cases hx
        | cons b rest => exact hlast x (by rw [List.getLast?_cons_cons]; exact hx)
      simp only [checkOnlyChildren, bind_eq_ok, exists_unit_iff, checkAll_eq_ok, refuse_eq_ok,
        not_not]
      exact ⟨hhead, hrest⟩

/-- When the child check passes, an attached child of the list is on the list. -/
theorem mem_of_checkOnlyChildren {attached : List ContentHash}
    (hok : checkOnlyChildren snaps attached l = .ok ()) {c : ContentHash} (hid : id ∈ l)
    (hc : c ∈ attachedChildren snaps attached id) (hne : c ≠ "") : c ∈ l := by
  induction l with
  | nil => cases hid
  | cons a rest ih =>
      simp only [checkOnlyChildren, bind_eq_ok, exists_unit_iff, checkAll_eq_ok, refuse_eq_ok,
        not_not] at hok
      rcases List.mem_cons.1 hid with rfl | hid
      · have hnext := hok.1 c hc
        cases rest with
        | nil => exact absurd hnext hne
        | cons b rest =>
            rw [hnext]
            simp
      · exact List.mem_cons_of_mem _ (ih hok.2 hid)

section

variable (h : Planned graph req snapX head segment superseded)

include h

/-- What is shared with the target is attached. -/
theorem Planned.mem_attached (hx : x ∈ graph.targetShared req.branch head.target) :
    x ∈ graph.attached req.branch :=
  targetShared_subset_attached h.head_found h.head_ne_empty hx

/-- The target of the head is attached to the branch. -/
theorem Planned.head_attached :
    head.target ∈ graph.attached req.branch :=
  h.mem_attached (List.mem_append_left _ (mem_snapshotReachableSet.2
    ⟨h.head_ne_empty, _, List.mem_singleton_self _, .refl⟩))

/-- The patches of a plan stay inside the attached graph. -/
theorem Planned.patches_scoped (hs : StoredGraph graph)
    (hp : patch ∈ (h.plan digest).grafts) :
    checkPatchScope (graph.attached req.branch) patch = .ok () := by
  have hgraft : ∀ s ∈ graph.snapshots, s.id ∈ graph.attached req.branch →
      ∀ p ∈ s.graftParents.list, p ∈ graph.attached req.branch := by
    intro s hmem hatt p hp
    have hvalid := (validateSnapshotRefs_eq_ok (hs.snapshots s hmem)).2.2.1 p hp
    refine attached_step hatt ⟨(mem_snapshotReachableSet.1 hatt).1, ?_⟩
      (ne_empty_of_validContentHash hvalid)
    exact mem_parentsOf.2 ⟨s, byID_of_mem h.ids_nodup hmem, Or.inr hp⟩
  simp only [checkPatchScope, bind_eq_ok, exists_unit_iff, checkAll_eq_ok, refuse_eq_ok, not_not]
  rcases h.mem_grafts digest hp with ⟨s, hmem, hhit, rfl⟩ | rfl
  · have hatt : s.id ∈ graph.attached req.branch := by
      simp only [hitsSegment, Bool.and_eq_true, List.contains_eq_mem, decide_eq_true_eq] at hhit
      exact h.mem_attached (List.mem_append_left _ hhit.1.2)
    exact ⟨hatt, fun p hp => hgraft s hmem hatt p (List.mem_filter.1 hp).1⟩
  · have hatt := h.mem_attached h.source_attached
    refine ⟨hatt, fun p hp => ?_⟩
    rcases mem_sourceGrafts hp with hp | rfl
    · obtain ⟨hmem, hid⟩ := byID_eq_some h.source_found
      exact hgraft snapX hmem (hid ▸ hatt) p hp
    · exact h.head_attached

/-- **A plan patches no snapshot that another branch reaches.** -/
theorem Planned.patches_isolated
    (hp : patch ∈ (h.plan digest).grafts) :
    patch.snapshotID ∉ graph.otherBranchReach req.branch := by
  rcases h.mem_grafts digest hp with ⟨s, hmem, hhit, rfl⟩ | rfl
  · exact ((supersedes_eq_ok h.supersedes_eq).2 s hmem hhit).2
  · exact h.segment_isolated _ h.source_mem

/-- Every id of the segment is a member of the branch. -/
theorem Planned.segment_member (hid : id ∈ segment) : graph.memberships id req.branch = true := by
  cases h.mem_segment_iff.1 hid with
  | source => exact h.source_member
  | child _ hkid => exact (mem_branchChildren.1 hkid).2

/-- **The store accepts the scope of a plan exactly when the lane is labelled.** -/
theorem Planned.scope_iff (hs : StoredGraph graph) (forkName : String) :
    validateJoinGraphScope digest
      ((h.plan digest).toMutation forkName)
      graph.snapshots graph.refs = .ok () ↔ LaneLabelled graph req := by
  obtain ⟨hlane, last, hlast, hnone⟩ := h.lane
  have hseg : checkSegment graph.snapshots (graph.attached req.branch) none segment = .ok () := by
    refine checkSegment_eq_ok (fun id hid => ⟨h.mem_attached (h.mem_targetShared hid), ?_⟩)
      (fun _ _ hb => absurd hb Bool.false_ne_true) (hlane.chain.imp fun a b hab => ?_)
    · obtain ⟨s, hmem, rfl⟩ := List.mem_map.1 (hlane.stored id hid)
      exact ⟨s, byID_of_mem h.ids_nodup hmem⟩
    · have hkid : b ∈ graph.branchChildren req.branch a := hab ▸ List.mem_singleton_self b
      exact ((mem_firstChildren h.ids_nodup).1 (mem_branchChildren.1 hkid).1).2
  have hchildren : checkOnlyChildren graph.snapshots (graph.attached req.branch) segment =
      .ok () ↔ LaneLabelled graph req := by
    constructor
    · intro hok s hmem hatt id hid hfirst
      have hc := mem_of_checkOnlyChildren hok (h.mem_segment_iff.2 hid)
        (mem_attachedChildren.2 ⟨s, hmem, hfirst, hatt, rfl⟩)
        (mem_snapshotReachableSet.1 hatt).1
      exact h.segment_member hc
    · intro hlabelled
      refine checkOnlyChildren_of_chain hlane.chain (fun x hx => ?_) fun id hid c hc => ?_
      · have hxl : x = last := Option.some.inj (hx.symm.trans hlast)
        rw [hxl, hnone]
      · -- an attached child is a commit, so only the label can keep it off the lane
        obtain ⟨s, hmem, hfirst, hatt, rfl⟩ := mem_attachedChildren.1 hc
        have hfind := byID_of_mem h.ids_nodup hmem
        exact mem_branchChildren.2 ⟨(mem_firstChildren h.ids_nodup).2
            ⟨isJoinCommit_of_attached hfind hatt, s, hfind, hfirst⟩,
          hlabelled s hmem hatt id (h.mem_segment_iff.1 hid) hfirst⟩
  simp only [validateJoinGraphScope, validateJoinSegmentTopology, bind_eq_ok, exists_unit_iff,
    refuse_eq_ok, checkAll_eq_ok]
  rw [← hchildren]
  refine ⟨fun hall => hall.2.2.2.2.2, fun hc => ⟨fun hbad => hbad.2 rfl, h.segment_isolated,
    fun patch hp => h.patches_isolated digest hp, hseg,
    fun patch hp => h.patches_scoped digest hs hp, hc⟩⟩

end

end Planned

/-- **The store accepts a plan exactly when its fork name is a ref name and every attached
child of the lane is a member of the branch.** -/
theorem planJoin_accepted_iff {digest : JoinScope → ContentHash} {graph : JoinGraph}
    {req : JoinRequest} {plan : JoinPlan} {forkName : String} (hs : StoredGraph graph)
    (h : planJoin digest graph req = .ok plan) (hfork : ForkNameFor plan forkName) :
    (∃ m, plan.mutation forkName = .ok m ∧
      validateJoinGraphScope digest m graph.snapshots graph.refs = .ok ()) ↔
    (forkName = "" ∨ validBranchName forkName = true) ∧ LaneLabelled graph req := by
  obtain ⟨snapX, head, segment, superseded, hp, rfl⟩ := planJoin_eq_ok h
  simp only [mutation_eq_ok, hp.mutation_iff digest hs hfork, ← hp.scope_iff digest hs forkName]
  constructor
  · rintro ⟨m, ⟨hname, rfl⟩, hscope⟩
    exact ⟨hname, hscope⟩
  · rintro ⟨hname, hscope⟩
    exact ⟨_, ⟨hname, rfl⟩, hscope⟩

/-- The branch ref of `main` was once moved to `a`. -/
def mainLog : List RefLogEntry :=
  [{ kind := .branch, name := "main", old := digitHash 'b', new := digitHash 'a', createdAt := 1 }]

/-- `laneGraph` with memberships read from its labels and `mainLog`, and `2` labelled with
another branch. -/
def mixedGraph : JoinGraph :=
  let snapshots := [digitSnapshot 'b' [] [], digitSnapshot '1' ['b'] [],
    { digitSnapshot '2' ['1'] [] with branch := "feature" }, digitSnapshot 'a' ['b'] ['2']]
  { snapshots := snapshots, refs := [mainRef 'a']
    memberships := projectSnapshotBranchMemberships snapshots mainLog }

/-- The plan for `1` in `mixedGraph`: the planner does not see `2` above it. -/
def mixedPlan : JoinPlan :=
  { scopeRevision := "", repoID := digitHash '0', branch := "main", branchID := ""
    source := digitHash '1', segment := [digitHash '1']
    expectedHead := digitHash 'a', newHead := digitHash '1', remainingTip := ""
    grafts := [{ snapshotID := digitHash '1', expectedSeq := 0, parents := [digitHash 'a'] }] }

/-- The sample is a graph that a store can hold. -/
theorem mixedGraph_stored : StoredGraph mixedGraph :=
  ⟨by decide +kernel, by decide +kernel⟩

/-- Its plan. -/
theorem mixedGraph_plan : planJoin (fun _ => "") mixedGraph laneRequest = .ok mixedPlan := by
  decide +kernel

/-- The sample plan has no fork. -/
theorem mixedPlan_fork : ForkNameFor mixedPlan "" :=
  ⟨fun _ => rfl, fun h => absurd rfl h⟩

/-- **A plan of the preview that the store refuses**: an attached child of the source carries
another branch label, so the planner leaves it out and the store does not. -/
theorem planJoin_refused_mixed :
    StoredGraph mixedGraph ∧
    mixedGraph.memberships = projectSnapshotBranchMemberships mixedGraph.snapshots mainLog ∧
    (∃ e ∈ mainLog, e.kind = .branch ∧ e.name = "main" ∧ e.new = mixedPlan.expectedHead) ∧
    planJoin (fun _ => "") mixedGraph laneRequest = .ok mixedPlan ∧ ForkNameFor mixedPlan "" ∧
    mixedPlan.mutation "" = .ok (mixedPlan.toMutation "") ∧
    validateJoinGraphScope (fun _ => "") (mixedPlan.toMutation "") mixedGraph.snapshots
      mixedGraph.refs = .error
        (conflict "join segment changed or gained another attached first-parent child") := by
  refine ⟨mixedGraph_stored, rfl, ?_, mixedGraph_plan, mixedPlan_fork, ?_, ?_⟩
  · exact ⟨_, List.mem_singleton_self _, rfl, rfl, rfl⟩
  · decide +kernel
  · decide +kernel

/-- The criterion at `mixedGraph`: its lane is not labelled, and its plan not accepted. -/
theorem planJoin_accepted_iff_mixed :
    (∃ m, mixedPlan.mutation "" = .ok m ∧
      validateJoinGraphScope (fun _ => "") m mixedGraph.snapshots mixedGraph.refs = .ok ()) ↔
    (("" : String) = "" ∨ validBranchName "" = true) ∧ LaneLabelled mixedGraph laneRequest :=
  planJoin_accepted_iff mixedGraph_stored mixedGraph_plan mixedPlan_fork

end Backend
end CxtHub
