/-
# A join loses no session and touches no other branch

The graph after a plan: each patched register is replaced, the branch ref moves to
the new head, and a residual session ref is added at the remaining tip.

`Planned.step_kept` and `Planned.step_new` say how the edges change: only edges
from outside into the segment are lost, and only the edge from the source to the
old head is gained.  `planJoin_keeps_reachable` follows: what the branch and its
sessions reached is still reached, the old head from the new one, and nothing
changes for the other branches.  So no run of joins loses a snapshot (`held_subset_joins`).
-/

import CxtHub.Backend.Segment
import CxtHub.Lib.Lines

namespace CxtHub
namespace Backend

open Relation

variable {s : Snapshot} {patches : List GraftPatch} {a b x : ContentHash} {ref : Ref}

/-- One patch replaces the graft register of its snapshot. -/
def patchSnapshot (s : Snapshot) (p : GraftPatch) : Snapshot :=
  if s.id = p.snapshotID then { s with graftParents := some p.parents } else s

/-- The snapshots after the patches, applied one after another. -/
def applyPatches (snaps : List Snapshot) (patches : List GraftPatch) : List Snapshot :=
  patches.foldl (fun snaps p => snaps.map fun s => patchSnapshot s p) snaps

/-- The branch ref moves; the source picks the first ref of that name. -/
def moveBranch (branch : String) (target : ContentHash) : List Ref → List Ref
  | [] => []
  | ref :: refs =>
      if isBranchNamed branch ref then { ref with target := target } :: refs
      else ref :: moveBranch branch target refs

/-- The refs after a plan, with the residual session ref under the given name. -/
def JoinPlan.afterRefs (plan : JoinPlan) (forkName : String) (refs : List Ref) : List Ref :=
  moveBranch plan.branch plan.newHead refs ++
    if plan.remainingTip = "" then []
    else [{ kind := .session, name := forkName, repoID := plan.repoID,
            target := plan.remainingTip }]

/-! ### Patched registers -/

@[simp] theorem patchSnapshot_id (s : Snapshot) (p : GraftPatch) :
    (patchSnapshot s p).id = s.id := by
  unfold patchSnapshot
  split_ifs <;> rfl

@[simp] theorem patchSnapshot_parents (s : Snapshot) (p : GraftPatch) :
    (patchSnapshot s p).parents = s.parents := by
  unfold patchSnapshot
  split_ifs <;> rfl

@[simp] theorem foldl_patchSnapshot_parents (s : Snapshot) (patches : List GraftPatch) :
    (patches.foldl patchSnapshot s).parents = s.parents := by
  induction patches generalizing s with
  | nil => rfl
  | cons p patches ih => simp [ih]

/-- A snapshot without a patch stays as it is. -/
theorem foldl_patchSnapshot_of_notMem
    (h : s.id ∉ patches.map GraftPatch.snapshotID) : patches.foldl patchSnapshot s = s := by
  induction patches with
  | nil => rfl
  | cons p patches ih =>
      rw [List.map_cons, List.mem_cons, not_or] at h
      rw [List.foldl_cons, patchSnapshot, if_neg h.1, ih h.2]

/-- With distinct patches, a patched register holds the edges of its patch. -/
theorem foldl_patchSnapshot_of_mem
    (hn : (patches.map GraftPatch.snapshotID).Nodup) {p : GraftPatch} (hp : p ∈ patches)
    (hid : p.snapshotID = s.id) :
    (patches.foldl patchSnapshot s).graftParents.list = p.parents := by
  induction patches generalizing s with
  | nil => cases hp
  | cons q patches ih =>
      rw [List.map_cons, List.nodup_cons] at hn
      rw [List.foldl_cons]
      rcases List.mem_cons.1 hp with rfl | hp
      · have hq : (patchSnapshot s p).id ∉ patches.map GraftPatch.snapshotID := by
          rw [patchSnapshot_id, ← hid]
          exact hn.1
        rw [foldl_patchSnapshot_of_notMem hq, patchSnapshot, if_pos hid.symm]
        rfl
      · exact ih hn.2 hp (by rw [patchSnapshot_id, hid])

/-- Patches keep the ids. -/
theorem applyPatches_map_id (snaps : List Snapshot) (patches : List GraftPatch) :
    (applyPatches snaps patches).map Snapshot.id = snaps.map Snapshot.id := by
  induction patches generalizing snaps with
  | nil => rfl
  | cons p patches ih =>
      have hcons : applyPatches snaps (p :: patches) =
          applyPatches (snaps.map fun s => patchSnapshot s p) patches := rfl
      rw [hcons, ih, List.map_map]
      exact List.map_congr_left fun s _ => patchSnapshot_id s p

/-- Finding after a patch is patching what was found. -/
theorem byID_map_patchSnapshot (snaps : List Snapshot) (p : GraftPatch) (id : ContentHash) :
    byID (snaps.map fun s => patchSnapshot s p) id =
      (byID snaps id).map fun s => patchSnapshot s p := by
  unfold byID
  rw [List.find?_map]
  congr 2
  funext s
  simp

/-- A patched snapshot is found under its id. -/
theorem byID_applyPatches (snaps : List Snapshot) (patches : List GraftPatch)
    (id : ContentHash) :
    byID (applyPatches snaps patches) id =
      (byID snaps id).map fun s => patches.foldl patchSnapshot s := by
  induction patches generalizing snaps with
  | nil => simp [applyPatches]
  | cons p patches ih =>
      have hcons : applyPatches snaps (p :: patches) =
          applyPatches (snaps.map fun s => patchSnapshot s p) patches := rfl
      rw [hcons, ih, byID_map_patchSnapshot, Option.map_map]
      rfl

/-- **A step after the patches**: natural parents as before, graft parents from the
patched register. -/
theorem step_applyPatches {snaps : List Snapshot} :
    Step (applyPatches snaps patches) a b ↔ a ≠ "" ∧ ∃ s, byID snaps a = some s ∧
      (b ∈ s.parents.list ∨ b ∈ (patches.foldl patchSnapshot s).graftParents.list) := by
  rw [Step, mem_parentsOf, byID_applyPatches]
  cases byID snaps a <;> simp

/-! ### The edges of a plan -/

section Planned

variable (digest : JoinScope → ContentHash) {graph : JoinGraph} {req : JoinRequest}
  {snapX : Snapshot} {head : Ref} {segment : List ContentHash} {superseded : List GraftPatch}

/-- The plan that is returned. -/
abbrev Planned.plan (_ : Planned graph req snapX head segment superseded) : JoinPlan :=
  buildPlan digest graph req snapX head segment superseded

/-- The snapshots after a plan. -/
def JoinPlan.afterSnapshots (plan : JoinPlan) (snaps : List Snapshot) : List Snapshot :=
  applyPatches snaps plan.grafts

section

variable (h : Planned graph req snapX head segment superseded)

include h

/-- The source is found under its id. -/
theorem Planned.eq_source (hs : byID graph.snapshots a = some s)
    (hid : s.id = req.source) : s = snapX := by
  rw [← (byID_eq_some hs).2, hid, h.source_found] at hs
  exact (Option.some.inj hs).symm

/-- The source is not superseded. -/
theorem Planned.source_notMem_superseded :
    req.source ∉ superseded.map GraftPatch.snapshotID := by
  intro hmem
  rw [(supersedes_eq_ok h.supersedes_eq).1, List.map_map] at hmem
  obtain ⟨sn, hsn, hid⟩ := List.mem_map.1 hmem
  have hhit := (List.mem_filter.1 hsn).2
  have hout : sn.id ∉ segment := by
    simp only [hitsSegment, Bool.and_eq_true, Bool.not_eq_true', List.contains_eq_mem,
      decide_eq_false_iff_not] at hhit
    exact hhit.1.1
  have hid' : sn.id = req.source := hid
  exact hout (hid' ▸ h.source_mem)

/-- No snapshot is superseded twice. -/
theorem Planned.superseded_nodup :
    (superseded.map GraftPatch.snapshotID).Nodup := by
  rw [(supersedes_eq_ok h.supersedes_eq).1, List.map_map]
  exact (List.filter_sublist.map Snapshot.id).nodup h.ids_nodup

/-- No register is patched twice. -/
theorem Planned.grafts_nodup :
    ((h.plan digest).grafts.map GraftPatch.snapshotID).Nodup := by
  rw [Planned.plan, buildPlan, List.map_append, List.nodup_append]
  refine ⟨h.superseded_nodup, List.nodup_singleton _, fun a ha b hb hab => ?_⟩
  have hb' : b = req.source := List.mem_singleton.1 hb
  exact h.source_notMem_superseded (hb' ▸ hab ▸ ha)

/-- The source's register after the plan. -/
theorem Planned.grafts_source :
    ((h.plan digest).grafts.foldl patchSnapshot
      snapX).graftParents.list = sourceGrafts snapX head.target :=
  foldl_patchSnapshot_of_mem (h.grafts_nodup digest)
    (p := { snapshotID := req.source, expectedSeq := snapX.graftSeq,
            parents := sourceGrafts snapX head.target })
    (by simp [buildPlan]) (byID_eq_some h.source_found).2.symm

/-- Any other register: filtered when it hits the segment, unchanged otherwise. -/
theorem Planned.grafts_other (hs : s ∈ graph.snapshots) (hne : s.id ≠ req.source) :
    ((h.plan digest).grafts.foldl patchSnapshot s).graftParents.list =
      if hitsSegment (snapshotReachableSet graph.snapshots [head.target]) segment s = true then
        s.graftParents.list.filter fun g => !segment.contains g
      else s.graftParents.list := by
  have hsup := (supersedes_eq_ok h.supersedes_eq).1
  split_ifs with hhit
  · refine foldl_patchSnapshot_of_mem (h.grafts_nodup digest) (p := supersedePatch segment s) ?_ rfl
    rw [Planned.plan, buildPlan, List.mem_append, hsup]
    exact Or.inl (List.mem_map.2 ⟨s, List.mem_filter.2 ⟨hs, hhit⟩, rfl⟩)
  · rw [foldl_patchSnapshot_of_notMem]
    intro hmem
    rw [Planned.plan, buildPlan, List.map_append, List.mem_append, List.map_singleton,
      List.mem_singleton] at hmem
    rcases hmem with hmem | hmem
    · rw [hsup, List.map_map] at hmem
      obtain ⟨t, ht, hid⟩ := List.mem_map.1 hmem
      obtain ⟨ht, hthit⟩ := List.mem_filter.1 ht
      have hts : t = s := by
        have hfind := byID_of_mem h.ids_nodup hs
        have hid' : t.id = s.id := hid
        rw [← hid', byID_of_mem h.ids_nodup ht] at hfind
        exact Option.some.inj hfind
      exact hhit (hts ▸ hthit)
    · exact hne hmem

/-- **Only edges into the segment are lost**, and only those the plan supersedes. -/
theorem Planned.step_kept (hab : Step graph.snapshots a b) :
    Step ((h.plan digest).afterSnapshots graph.snapshots) a b ∨ b ∈ segment := by
  rw [JoinPlan.afterSnapshots, step_applyPatches]
  obtain ⟨hne, hmem⟩ := hab
  obtain ⟨s, hs, hb⟩ := mem_parentsOf.1 hmem
  rcases hb with hb | hb
  · exact Or.inl ⟨hne, s, hs, Or.inl hb⟩
  obtain ⟨hmem, hid⟩ := byID_eq_some hs
  by_cases hsrc : s.id = req.source
  · have hsx := h.eq_source hs hsrc
    refine Or.inl ⟨hne, s, hs, Or.inr ?_⟩
    rw [hsx, h.grafts_source digest, sourceGrafts]
    rw [hsx] at hb
    split_ifs
    · exact hb
    · exact List.mem_append_left _ hb
  · by_cases hbs : b ∈ segment
    · exact Or.inr hbs
    · refine Or.inl ⟨hne, s, hs, Or.inr ?_⟩
      rw [h.grafts_other digest hmem hsrc]
      split_ifs
      · exact List.mem_filter.2 ⟨hb, by simpa using hbs⟩
      · exact hb

/-- **Only the edge from the source to the old head is gained.** -/
theorem Planned.step_new
    (hab : Step ((h.plan digest).afterSnapshots graph.snapshots) a b) :
    Step graph.snapshots a b ∨ (a = req.source ∧ b = head.target) := by
  rw [JoinPlan.afterSnapshots, step_applyPatches] at hab
  obtain ⟨hne, s, hs, hb⟩ := hab
  have hstep : b ∈ s.parents.list ∨ b ∈ s.graftParents.list → Step graph.snapshots a b :=
    fun hb => ⟨hne, mem_parentsOf.2 ⟨s, hs, hb⟩⟩
  rcases hb with hb | hb
  · exact Or.inl (hstep (Or.inl hb))
  obtain ⟨hmem, hid⟩ := byID_eq_some hs
  by_cases hsrc : s.id = req.source
  · have hsx := h.eq_source hs hsrc
    rw [hsx, h.grafts_source digest, sourceGrafts] at hb
    split_ifs at hb
    · exact Or.inl (hstep (Or.inr (hsx ▸ hb)))
    · rcases List.mem_append.1 hb with hb | hb
      · exact Or.inl (hstep (Or.inr (hsx ▸ hb)))
      · exact Or.inr ⟨by rw [← hid, hsrc], List.mem_singleton.1 hb⟩
  · rw [h.grafts_other digest hmem hsrc] at hb
    refine Or.inl (hstep (Or.inr ?_))
    split_ifs at hb
    · exact (List.mem_filter.1 hb).1
    · exact hb

/-- The source reaches the old head in one step. -/
theorem Planned.step_head :
    Step ((h.plan digest).afterSnapshots graph.snapshots) req.source head.target := by
  rw [JoinPlan.afterSnapshots, step_applyPatches]
  refine ⟨ne_empty_of_validContentHash h.source_valid, snapX, h.source_found, Or.inr ?_⟩
  rw [h.grafts_source digest, sourceGrafts]
  split_ifs with hin
  · exact hin
  · exact List.mem_append_right _ (List.mem_singleton_self _)

/-- A node that another branch reaches keeps its edges. -/
theorem Planned.step_other (ha : a ∈ graph.otherBranchReach req.branch) :
    Step graph.snapshots a b ↔
      Step ((h.plan digest).afterSnapshots graph.snapshots) a b := by
  rw [JoinPlan.afterSnapshots, step_applyPatches, Step, mem_parentsOf]
  refine and_congr_right fun _ => exists_congr fun s => and_congr_right fun hs => ?_
  obtain ⟨hmem, hid⟩ := byID_eq_some hs
  have hsrc : s.id ≠ req.source := fun hsrc =>
    h.segment_isolated _ h.source_mem (hsrc ▸ hid ▸ ha)
  have hmiss :
      ¬ hitsSegment (snapshotReachableSet graph.snapshots [head.target]) segment s = true :=
    fun hhit => ((supersedes_eq_ok h.supersedes_eq).2 s hmem hhit).2 (hid ▸ ha)
  rw [h.grafts_other digest hmem hsrc, if_neg hmiss]

/-- **The tip reaches the whole segment** along first parents, which no patch touches. -/
theorem Planned.reach_segment (hx : x ∈ segment) :
    ReflTransGen (Step ((h.plan digest).afterSnapshots graph.snapshots)) (tipOf req segment) x := by
  obtain ⟨hlane, -⟩ := h.lane
  have hchain : segment.IsChain fun a b =>
      Step ((h.plan digest).afterSnapshots graph.snapshots) b a := by
    refine hlane.chain.imp_of_mem_imp fun a b _ hb hab => ?_
    have hkid : b ∈ graph.branchChildren req.branch a := hab ▸ List.mem_singleton_self b
    obtain ⟨-, s, hs, hp⟩ := (mem_firstChildren h.ids_nodup).1 (mem_branchChildren.1 hkid).1
    rw [JoinPlan.afterSnapshots, step_applyPatches]
    exact ⟨ne_empty_of_mem_targetShared (h.mem_targetShared hb), s, hs,
      Or.inl (List.mem_of_mem_head? hp)⟩
  have hlast : tipOf req segment = segment.getLast hlane.ne_nil := by
    rw [tipOf, List.getLastD_eq_getLast?, List.getLast?_eq_some_getLast hlane.ne_nil,
      Option.getD_some]
  rw [hlast]
  exact Paths.reach_of_chain hchain hlane.ne_nil hx

end

end Planned

/-! ### The refs of a plan -/

section Refs

variable {branch : String} {target : ContentHash} {refs : List Ref}

/-- A moved branch is found with its new target. -/
theorem find?_moveBranch {head : Ref} (h : refs.find? (isBranchNamed branch) = some head) :
    (moveBranch branch target refs).find? (isBranchNamed branch) =
      some { head with target := target } := by
  induction refs with
  | nil => cases h
  | cons ref refs ih =>
      unfold moveBranch
      split_ifs with hb
      · rw [List.find?_cons_of_pos hb, Option.some.injEq] at h
        subst h
        exact List.find?_cons_of_pos hb
      · rw [List.find?_cons_of_neg hb] at h
        rw [List.find?_cons_of_neg hb, ih h]

/-- Moving a branch leaves every ref with another name alone. -/
theorem mem_moveBranch_of_not (h : isBranchNamed branch ref = false) :
    ref ∈ moveBranch branch target refs ↔ ref ∈ refs := by
  induction refs with
  | nil => rfl
  | cons r refs ih =>
      unfold moveBranch
      split_ifs with hb
      · have hmoved : ref ≠ { r with target := target } := by
          rintro rfl
          exact absurd hb (by simpa [isBranchNamed] using h)
        have hr : ref ≠ r := by
          rintro rfl
          exact absurd hb (by simp [h])
        simp [hmoved, hr]
      · simp [ih]

/-- A ref is still there after the move, unless it is the one that moved. -/
theorem mem_moveBranch {ref head : Ref} (hmem : ref ∈ refs)
    (hhead : refs.find? (isBranchNamed branch) = some head) :
    ref ∈ moveBranch branch target refs ∨ ref = head := by
  induction refs with
  | nil => cases hmem
  | cons r refs ih =>
      unfold moveBranch
      split_ifs with hb
      · rw [List.find?_cons_of_pos hb, Option.some.injEq] at hhead
        rcases List.mem_cons.1 hmem with rfl | hmem
        · exact Or.inr hhead
        · exact Or.inl (List.mem_cons_of_mem _ hmem)
      · rw [List.find?_cons_of_neg hb] at hhead
        rcases List.mem_cons.1 hmem with rfl | hmem
        · exact Or.inl (List.mem_cons_self ..)
        · exact (ih hmem hhead).imp_left (List.mem_cons_of_mem _)

end Refs

/-- The refs of other branches and sessions. -/
theorem otherScope_iff {branch : String} :
    otherScope branch ref = true ↔
      (ref.kind = .branch ∨ ref.kind = .session) ∧ inScope branch ref = false := by
  cases hk : ref.kind <;> simp [otherScope, inScope, isBranchNamed, isSessionOf, hk]

/-- What other branches reach. -/
theorem mem_otherBranchReach {graph : JoinGraph} {branch : String} :
    x ∈ graph.otherBranchReach branch ↔ x ≠ "" ∧ ∃ ref ∈ graph.refs,
      otherScope branch ref = true ∧ ref.target ≠ "" ∧
        ReflTransGen (Step graph.snapshots) ref.target x := by
  simp only [JoinGraph.otherBranchReach, otherRoots, mem_snapshotReachableSet, List.mem_map,
    List.mem_filter, Bool.and_eq_true, Bool.not_eq_true', decide_eq_false_iff_not]
  refine and_congr_right fun _ => ⟨?_, ?_⟩
  · rintro ⟨_, ⟨ref, ⟨hr, ho, hne⟩, rfl⟩, hreach⟩
    exact ⟨ref, hr, ho, hne, hreach⟩
  · rintro ⟨ref, hr, ho, hne, hreach⟩
    exact ⟨_, ⟨ref, ⟨hr, ho, hne⟩, rfl⟩, hreach⟩

section Main

variable (digest : JoinScope → ContentHash) {graph : JoinGraph} {req : JoinRequest}
  {snapX : Snapshot} {head : Ref} {segment : List ContentHash} {superseded : List GraftPatch}

/-- A node that some ref of the branch reaches after the plan. -/
def CoveredAfter (plan : JoinPlan) (forkName : String) (graph : JoinGraph) (x : ContentHash) :
    Prop :=
  ∃ ref ∈ plan.afterRefs forkName graph.refs, inScope plan.branch ref = true ∧
    ReflTransGen (Step (plan.afterSnapshots graph.snapshots)) ref.target x

section

variable (h : Planned graph req snapX head segment superseded)

include h

/-- The moved branch ref. -/
theorem Planned.find?_afterRefs (forkName : String) :
    let plan := h.plan digest
    (plan.afterRefs forkName graph.refs).find? (isBranchNamed req.branch) =
      some { head with target := plan.newHead } := by
  intro plan
  have hmoved := @find?_moveBranch req.branch plan.newHead graph.refs head h.head_found
  rw [JoinPlan.afterRefs, List.find?_append, buildPlan_branch, hmoved, Option.some_or]

/-- The new head is covered after the join. -/
theorem Planned.covered_newHead (forkName : String) :
    let plan := h.plan digest
    CoveredAfter plan forkName graph plan.newHead := by
  have hfind := h.find?_afterRefs digest forkName
  refine ⟨_, List.mem_of_find?_eq_some hfind, ?_, .refl⟩
  have hnamed := List.find?_some hfind
  have hscope : inScope req.branch
      { head with
        target := (h.plan digest).newHead } = true := by
    rw [inScope, hnamed, Bool.true_or]
  exact hscope

/-- The tip is the new head or the target of the residual session ref. -/
theorem Planned.covered_tip {forkName : String}
    (hfork : (h.plan digest).remainingTip ≠ "" →
      hasPrefix forkName (sessionRefPrefix req.branch) = true) :
    CoveredAfter (h.plan digest) forkName graph (tipOf req segment) := by
  have hnew := h.covered_newHead digest forkName
  by_cases hinc : req.includeDescendants = true
  · have heq : (h.plan digest).newHead = tipOf req segment := if_pos hinc
    exact heq ▸ hnew
  by_cases htip : tipOf req segment = req.source
  · have heq : (h.plan digest).newHead = tipOf req segment := by rw [htip]; exact if_neg hinc
    exact heq ▸ hnew
  -- a partial join: the residual session ref stands at the tip
  have hrem : (h.plan digest).remainingTip = tipOf req segment := if_pos ⟨by simpa using hinc, htip⟩
  have hne : tipOf req segment ≠ "" := by
    obtain ⟨hlane, -⟩ := h.lane
    refine ne_empty_of_mem_targetShared (h.mem_targetShared ?_)
    rw [tipOf, List.getLastD_eq_getLast?, List.getLast?_eq_some_getLast hlane.ne_nil]
    exact List.getLast_mem hlane.ne_nil
  refine ⟨{ kind := .session, name := forkName, repoID := req.repoID,
            target := tipOf req segment }, ?_, ?_, .refl⟩
  · rw [JoinPlan.afterRefs, hrem, if_neg hne]
    exact List.mem_append_right _ (List.mem_singleton_self _)
  · have hprefix := hfork (hrem ▸ hne)
    simp [inScope, isSessionOf, hprefix]

end

/-- What is reached from a covered snapshot is covered. -/
theorem CoveredAfter.tail {plan : JoinPlan} {forkName : String} {x y : ContentHash}
    (h : CoveredAfter plan forkName graph x)
    (hxy : ReflTransGen (Step (plan.afterSnapshots graph.snapshots)) x y) :
    CoveredAfter plan forkName graph y := by
  obtain ⟨ref, hmem, hscope, hreach⟩ := h
  exact ⟨ref, hmem, hscope, hreach.trans hxy⟩

section

variable (h : Planned graph req snapX head segment superseded)

include h

/-- **What the branch reached before is covered after**: a path is followed until it
loses an edge, which ends in the segment, and the tip covers the segment. -/
theorem Planned.covered_of_reach {forkName : String}
    (hfork : (h.plan digest).remainingTip ≠ "" →
      hasPrefix forkName (sessionRefPrefix req.branch) = true)
    (hmem : ref ∈ graph.refs) (hscope : inScope req.branch ref = true)
    (hx : ReflTransGen (Step graph.snapshots) ref.target x) :
    CoveredAfter (h.plan digest) forkName graph x := by
  have hseg : ∀ y ∈ segment, CoveredAfter
      (h.plan digest) forkName graph y :=
    fun y hy => (h.covered_tip digest hfork).tail (h.reach_segment digest hy)
  refine Paths.covered_of_path (fun y z hy hyz => ?_) ?_ hx
  · rcases h.step_kept digest hyz with hkept | hz
    · exact hy.tail (.single hkept)
    · exact hseg z hz
  · have hmoved := @mem_moveBranch req.branch
      (h.plan digest).newHead graph.refs ref head hmem h.head_found
    rcases hmoved with hstays | rfl
    · exact ⟨ref, List.mem_append_left _ hstays, hscope, .refl⟩
    · exact (hseg _ h.source_mem).tail (.single (h.step_head digest))

/-- The new head reaches the old one, through the source. -/
theorem Planned.newHead_reaches_head :
    let plan := h.plan digest
    ReflTransGen (Step (plan.afterSnapshots graph.snapshots)) plan.newHead head.target := by
  intro plan
  refine ReflTransGen.tail ?_ (h.step_head digest)
  by_cases hinc : req.includeDescendants = true
  · have heq : plan.newHead = tipOf req segment := if_pos hinc
    rw [heq]
    exact h.reach_segment digest h.source_mem
  · have heq : plan.newHead = req.source := if_neg hinc
    rw [heq]

/-- Nothing changes for what another branch reaches. -/
theorem Planned.reach_other (hmem : ref ∈ graph.refs) (hother : otherScope req.branch ref = true) :
    ReflTransGen (Step graph.snapshots) ref.target x ↔
      ReflTransGen (Step ((h.plan digest).afterSnapshots graph.snapshots)) ref.target x := by
  by_cases hne : ref.target = ""
  · -- the empty target has no step in either graph
    have hstuck : ∀ snaps : List Snapshot,
        ReflTransGen (Step snaps) ref.target x ↔ ref.target = x := fun snaps =>
      ⟨fun hr => (Relation.reflTransGen_iff_eq fun b hb => hb.1 hne).1 hr |>.symm,
        fun he => he ▸ .refl⟩
    rw [hstuck, hstuck]
  · refine Paths.reach_congr fun y hy z => ?_
    by_cases hye : y = ""
    · simp [Step, hye]
    · exact h.step_other digest (mem_otherBranchReach.2 ⟨hye, ref, hmem, hother, hne, hy⟩)

end

end Main

/-- **A join loses no reachable session and touches no other branch.**  What the
branch ref or a session ref of the branch reached is reached from one of them
after the plan; the old head is reached from the moved branch ref; every other
branch and session ref is kept and reaches the same snapshots. -/
theorem planJoin_keeps_reachable {digest : JoinScope → ContentHash} {graph : JoinGraph}
    {req : JoinRequest} {plan : JoinPlan} {forkName : String}
    (h : planJoin digest graph req = .ok plan)
    (hfork : plan.remainingTip ≠ "" → hasPrefix forkName (sessionRefPrefix req.branch) = true) :
    (∀ ref ∈ graph.refs, inScope req.branch ref = true →
      ∀ x ∈ snapshotReachableSet graph.snapshots [ref.target],
        ∃ ref' ∈ plan.afterRefs forkName graph.refs, inScope req.branch ref' = true ∧
          x ∈ snapshotReachableSet (plan.afterSnapshots graph.snapshots) [ref'.target]) ∧
    (∃ old new, graph.refs.find? (isBranchNamed req.branch) = some old ∧
      (plan.afterRefs forkName graph.refs).find? (isBranchNamed req.branch) = some new ∧
      new.target = plan.newHead ∧
      old.target ∈ snapshotReachableSet (plan.afterSnapshots graph.snapshots) [new.target]) ∧
    (∀ ref, otherScope req.branch ref = true →
      (ref ∈ plan.afterRefs forkName graph.refs ↔ ref ∈ graph.refs) ∧
      (ref ∈ graph.refs → ∀ x, x ∈ snapshotReachableSet graph.snapshots [ref.target] ↔
        x ∈ snapshotReachableSet (plan.afterSnapshots graph.snapshots) [ref.target])) := by
  obtain ⟨snapX, head, segment, superseded, hp, rfl⟩ := planJoin_eq_ok h
  refine ⟨fun ref hmem hscope x hx => ?_, ?_, fun ref hother => ⟨?_, fun hmem x => ?_⟩⟩
  · obtain ⟨hne, _, hroot, hreach⟩ := mem_snapshotReachableSet.1 hx
    rw [List.mem_singleton] at hroot
    obtain ⟨ref', hmem', hscope', hreach'⟩ :=
      hp.covered_of_reach digest hfork hmem hscope (hroot ▸ hreach)
    exact ⟨ref', hmem', hscope',
      mem_snapshotReachableSet.2 ⟨hne, _, List.mem_singleton_self _, hreach'⟩⟩
  · refine ⟨head, _, hp.head_found, hp.find?_afterRefs digest forkName, rfl, ?_⟩
    exact mem_snapshotReachableSet.2
      ⟨hp.head_ne_empty, _, List.mem_singleton_self _, hp.newHead_reaches_head digest⟩
  · obtain ⟨-, hout⟩ := otherScope_iff.1 hother
    have hnamed : isBranchNamed req.branch ref = false := (Bool.or_eq_false_iff.1 hout).1
    rw [JoinPlan.afterRefs, List.mem_append, buildPlan_branch, mem_moveBranch_of_not hnamed]
    refine ⟨fun hm => hm.resolve_right fun hfresh => ?_, Or.inl⟩
    -- the residual session ref is in the scope of the branch
    split_ifs at hfresh with hrem
    · cases hfresh
    · rw [List.mem_singleton.1 hfresh] at hout
      simp [inScope, isSessionOf, hfork hrem] at hout
  · simp only [mem_snapshotReachableSet, List.mem_singleton, exists_eq_left]
    exact and_congr_right fun _ => hp.reach_other digest hmem hother

/-- A snapshot of `main` named by a digit, for examples. -/
def digitSnapshot (c : Char) (parents grafts : List Char) : Snapshot :=
  { id := digitHash c, repoID := digitHash '0', branch := "main",
    parents := some (parents.map digitHash), docHash := digitHash c,
    graftParents := some (grafts.map digitHash) }

/-- The ref of `main`, for examples. -/
def mainRef (c : Char) : Ref :=
  { kind := .branch, name := "main", repoID := digitHash '0', target := digitHash c }

/-- A branch at `a` over `b`, with the lane `1`, `2` over `b` hung below `a` by a graft. -/
def laneGraph : JoinGraph :=
  { snapshots := [digitSnapshot 'b' [] [], digitSnapshot '1' ['b'] [],
      digitSnapshot '2' ['1'] [], digitSnapshot 'a' ['b'] ['2']]
    refs := [mainRef 'a']
    memberships := fun _ branch => branch == "main" }

/-- Join `1` alone. -/
def laneRequest : JoinRequest :=
  { repoID := digitHash '0', branch := "main", source := digitHash '1',
    includeDescendants := false }

/-- The plan for `laneRequest`: `a` lets go of `2`, `1` takes `a`, and a session ref
keeps `2`. -/
def lanePlan : JoinPlan :=
  { scopeRevision := "", repoID := digitHash '0', branch := "main", branchID := ""
    source := digitHash '1', segment := [digitHash '1', digitHash '2']
    expectedHead := digitHash 'a', newHead := digitHash '1', remainingTip := digitHash '2'
    grafts := [{ snapshotID := digitHash 'a', expectedSeq := 0, parents := [] },
      { snapshotID := digitHash '1', expectedSeq := 0, parents := [digitHash 'a'] }] }

/-- A partial join of a two-snapshot lane keeps the branch and its session. -/
theorem planJoin_keeps_reachable_lane :
    planJoin (fun _ => "") laneGraph laneRequest = .ok lanePlan ∧
    (∀ ref ∈ laneGraph.refs, inScope "main" ref = true →
      ∀ x ∈ snapshotReachableSet laneGraph.snapshots [ref.target],
        ∃ ref' ∈ lanePlan.afterRefs "fork/v1/4/main/s" laneGraph.refs,
          inScope "main" ref' = true ∧
          x ∈ snapshotReachableSet (lanePlan.afterSnapshots laneGraph.snapshots)
            [ref'.target]) := by
  have hplan : planJoin (fun _ => "") laneGraph laneRequest = .ok lanePlan := by decide +kernel
  have hfork : hasPrefix "fork/v1/4/main/s" (sessionRefPrefix laneRequest.branch) = true := by
    decide
  exact ⟨hplan, (planJoin_keeps_reachable hplan fun _ => hfork).1⟩

/-! ### Runs of joins -/

variable (digest : JoinScope → ContentHash) (g : JoinGraph)

/-- The snapshots that a branch or a session reaches. -/
def JoinGraph.held : Set ContentHash :=
  {x | ∃ ref ∈ g.refs, (ref.kind = .branch ∨ ref.kind = .session) ∧
    x ∈ snapshotReachableSet g.snapshots [ref.target]}

/-- A call of `join`, with what it reads beside refs and snapshots. -/
structure JoinCall where
  request : JoinRequest
  pendings : List Pending
  memberships : ContentHash → String → Bool
  fork : String

/-- `join`: a refused plan changes nothing; a fork is named under the prefix of its branch. -/
def JoinGraph.join (call : JoinCall) : JoinGraph :=
  match planJoin digest
    { g with pendings := call.pendings, memberships := call.memberships } call.request with
  | .error _ => g
  | .ok plan => { g with
      refs := plan.afterRefs (sessionRefPrefix call.request.branch ++ call.fork) g.refs
      snapshots := plan.afterSnapshots g.snapshots }

/-- **One join loses nothing that was held**, whether it succeeds or not. -/
theorem JoinGraph.held_subset_join (call : JoinCall) : g.held ⊆ (g.join digest call).held := by
  rintro x ⟨ref, hmem, hkind, hx⟩
  unfold JoinGraph.join
  split
  · exact ⟨ref, hmem, hkind, hx⟩
  · rename_i plan hplan
    obtain ⟨snapX, head, segment, superseded, hp, rfl⟩ := planJoin_eq_ok hplan
    simp only [held, Set.mem_ofPred_eq, mem_snapshotReachableSet, List.mem_singleton,
      exists_eq_left] at hx ⊢
    obtain ⟨hne, hreach⟩ := hx
    cases hscope : inScope call.request.branch ref with
    | true =>
        obtain ⟨ref', hmem', hscope', hreach'⟩ := hp.covered_of_reach digest
          (fun _ => hasPrefix_append _ call.fork) hmem hscope hreach
        refine ⟨ref', hmem', ?_, hne, hreach'⟩
        simp [inScope, isBranchNamed, isSessionOf] at hscope'
        exact hscope'.imp And.left And.left
    | false =>
        have hreach' := (hp.reach_other digest hmem (otherScope_iff.2 ⟨hkind, hscope⟩)).1 hreach
        refine ⟨ref, List.mem_append_left _ ?_, hkind, hne, hreach'⟩
        exact (mem_moveBranch_of_not (Bool.or_eq_false_iff.1 hscope).1).2 hmem

/-- **No run of joins loses a snapshot**, whatever branches they are for. -/
theorem held_subset_joins (calls : List JoinCall) :
    g.held ⊆ (calls.foldl (JoinGraph.join digest) g).held := by
  induction calls generalizing g with
  | nil => exact subset_rfl
  | cons call calls ih => exact (g.held_subset_join digest call).trans (ih _)

end Backend
end CxtHub
