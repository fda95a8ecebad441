/-
# What a join does to cycles

The supersede patches only remove edges; the source patch adds one edge, from the
source to the old head.  The graph after the plan is therefore acyclic exactly
when the head no longer reaches the source, and `Planned.acyclic_iff` says when
that is: no snapshot that the head reaches outside the lane has a natural parent
on it.  The planner excludes the case that the head itself is on the lane.
-/

import CxtHub.Backend.JoinReach
import CxtHub.Lib.Acyclic

namespace CxtHub
namespace Backend

open Relation CxtHub.Graph

variable {snaps : List Snapshot} {a b : ContentHash}

/-- An overlay edge of the stored graph. -/
def Parent (snaps : List Snapshot) (a b : ContentHash) : Prop := b ∈ parentsOf snaps a

/-- With ids that are not empty, parents are steps. -/
theorem parent_iff_step (hids : ∀ s ∈ snaps, s.id ≠ "")
    : Parent snaps a b ↔ Step snaps a b := by
  refine ⟨fun hab => ⟨?_, hab⟩, fun hab => hab.2⟩
  obtain ⟨s, hs, -⟩ := mem_parentsOf.1 hab
  obtain ⟨hmem, hid⟩ := byID_eq_some hs
  exact hid ▸ hids s hmem

/-- A step of the graph that stays off the lane. -/
def OffLane (graph : JoinGraph) (req : JoinRequest) (a b : ContentHash) : Prop :=
  Parent graph.snapshots a b ∧ ¬ OnLane graph req.branch req.source b

/-- No snapshot that the branch head reaches off the lane has a natural parent on it. -/
def LaneClear (graph : JoinGraph) (req : JoinRequest) : Prop :=
  ∀ head u p, graph.refs.find? (isBranchNamed req.branch) = some head →
    ReflTransGen (OffLane graph req) head.target u → OnLane graph req.branch req.source p →
      p ∉ naturalParentsOf graph.snapshots u

/-- Patches keep ids that are not empty. -/
theorem applyPatches_ids (hids : ∀ s ∈ snaps, s.id ≠ "")
    (patches : List GraftPatch) : ∀ s ∈ applyPatches snaps patches, s.id ≠ "" := by
  induction patches generalizing snaps with
  | nil => exact hids
  | cons p patches ih =>
      refine ih fun s hs => ?_
      obtain ⟨t, ht, rfl⟩ := List.mem_map.1 hs
      rw [patchSnapshot_id]
      exact hids t ht

/-- Patches that only drop edges add no edge. -/
theorem step_of_shrinking {patches : List GraftPatch}
    (hn : (patches.map GraftPatch.snapshotID).Nodup)
    (hshrink : ∀ p ∈ patches, ∀ s ∈ snaps, s.id = p.snapshotID →
      p.parents ⊆ s.graftParents.list)
    (hab : Step (applyPatches snaps patches) a b) : Step snaps a b := by
  obtain ⟨hne, s, hs, hb⟩ := step_applyPatches.1 hab
  refine ⟨hne, mem_parentsOf.2 ⟨s, hs, hb.imp_right fun hb => ?_⟩⟩
  by_cases hp : s.id ∈ patches.map GraftPatch.snapshotID
  · obtain ⟨p, hp, hid⟩ := List.mem_map.1 hp
    rw [foldl_patchSnapshot_of_mem hn hp hid] at hb
    exact hshrink p hp s (byID_eq_some hs).1 hid.symm hb
  · rwa [foldl_patchSnapshot_of_notMem hp] at hb

/-- The edges that a plan keeps. -/
def Kept (graph : JoinGraph) (plan : JoinPlan) (a b : ContentHash) : Prop :=
  Step graph.snapshots a b ∧ Step (plan.afterSnapshots graph.snapshots) a b

/-- A natural edge is kept by every plan. -/
theorem kept_of_natural {graph : JoinGraph} (plan : JoinPlan)
    (hids : ∀ s ∈ graph.snapshots, s.id ≠ "")
    (hab : NaturalStep graph.snapshots a b) : Kept graph plan a b := by
  unfold NaturalStep naturalParentsOf at hab
  cases hs : byID graph.snapshots a with
  | none => simp [hs] at hab
  | some s =>
      rw [hs] at hab
      obtain ⟨hmem, hid⟩ := byID_eq_some hs
      have hne : a ≠ "" := hid ▸ hids s hmem
      refine ⟨⟨hne, mem_parentsOf.2 ⟨s, hs, Or.inl hab⟩⟩, ?_⟩
      rw [JoinPlan.afterSnapshots, step_applyPatches]
      exact ⟨hne, s, hs, Or.inl hab⟩

section Planned

variable (digest : JoinScope → ContentHash) {graph : JoinGraph} {req : JoinRequest}
  {snapX : Snapshot} {head : Ref} {segment : List ContentHash} {superseded : List GraftPatch}

variable (h : Planned graph req snapX head segment superseded)

include h

/-- A supersede patch drops edges of its register. -/
theorem Planned.superseded_shrinks :
    ∀ p ∈ superseded, ∀ s ∈ graph.snapshots, s.id = p.snapshotID →
      p.parents ⊆ s.graftParents.list := by
  intro p hp s hs hid
  rw [(supersedes_eq_ok h.supersedes_eq).1] at hp
  obtain ⟨t, ht, rfl⟩ := List.mem_map.1 hp
  have hts : t = s := by
    have hfind := byID_of_mem h.ids_nodup hs
    have hid' : s.id = t.id := hid
    rw [hid', byID_of_mem h.ids_nodup (List.mem_filter.1 ht).1] at hfind
    exact Option.some.inj hfind
  rw [← hts]
  exact fun x hx => (List.mem_filter.1 hx).1

/-- Every id of the segment reaches the source along natural parents. -/
theorem Planned.natural_source {x : ContentHash} (hx : x ∈ segment) :
    ReflTransGen (NaturalStep graph.snapshots) x req.source := by
  obtain ⟨hlane, -⟩ := h.lane
  refine List.IsChain.induction (fun x => ReflTransGen (NaturalStep graph.snapshots) x req.source)
    _ hlane.chain (fun a b hab ha => ?_) (fun hne => ?_) x hx
  · have hkid : b ∈ graph.branchChildren req.branch a := hab ▸ List.mem_singleton_self b
    obtain ⟨-, s, hs, hp⟩ := (mem_firstChildren h.ids_nodup).1 (mem_branchChildren.1 hkid).1
    refine ReflTransGen.head ?_ ha
    rw [NaturalStep, naturalParentsOf, hs]
    exact List.mem_of_mem_head? hp
  · have hh := hlane.head
    rw [List.head?_eq_some_head hne, Option.some.injEq] at hh
    exact hh ▸ .refl

/-- The head is off the lane: otherwise the source would be in its natural history. -/
theorem Planned.head_notMem :
    head.target ∉ segment := by
  intro hmem
  have hnat := naturalReachable_iff.2 (h.natural_source hmem)
  rw [h.not_natural] at hnat
  cases hnat

/-- From the head's reach, only a natural edge into the segment is kept. -/
theorem Planned.natural_of_kept
    (hreach : a ∈ snapshotReachableSet graph.snapshots [head.target])
    (ha : a ∉ segment) (hb : b ∈ segment)
    (hab : Step ((h.plan digest).afterSnapshots
      graph.snapshots) a b) : NaturalStep graph.snapshots a b := by
  rw [JoinPlan.afterSnapshots, step_applyPatches] at hab
  obtain ⟨-, s, hs, hp⟩ := hab
  obtain ⟨hmem, hid⟩ := byID_eq_some hs
  rcases hp with hp | hp
  · rw [NaturalStep, naturalParentsOf, hs]
    exact hp
  · have hsrc : s.id ≠ req.source := fun he => ha (hid ▸ he ▸ h.source_mem)
    rw [h.grafts_other digest hmem hsrc] at hp
    split_ifs at hp with hhit
    · have hout := (List.mem_filter.1 hp).2
      simp [hb] at hout
    · refine absurd ?_ hhit
      simp only [hitsSegment, Bool.and_eq_true, Bool.not_eq_true', List.contains_eq_mem,
        decide_eq_true_eq, decide_eq_false_iff_not, List.any_eq_true]
      exact ⟨⟨hid ▸ ha, hid ▸ hreach⟩, b, hp, hb⟩

/-- **The kept edges lead from the head to the source exactly when the lane is not clear.** -/
theorem Planned.kept_source_iff (hids : ∀ s ∈ graph.snapshots, s.id ≠ "") :
    ReflTransGen (Kept graph (h.plan digest)) head.target req.source ↔ ¬ LaneClear graph req := by
  constructor
  · intro hpath hclear
    -- along a kept path from the head, every node is reached off the lane
    have hoff : ∀ y, ReflTransGen
        (Kept graph (h.plan digest)) head.target y →
        ReflTransGen (OffLane graph req) head.target y ∧ y ∉ segment ∧
          ReflTransGen (Step graph.snapshots) head.target y := by
      intro y hy
      induction hy with
      | refl => exact ⟨.refl, h.head_notMem, .refl⟩
      | @tail a b _ hab ih =>
          obtain ⟨hpre, hout, hreach⟩ := ih
          have hnot : b ∉ segment := by
            intro hb
            have ha : a ∈ snapshotReachableSet graph.snapshots [head.target] :=
              mem_snapshotReachableSet.2 ⟨hab.1.1, _, List.mem_singleton_self _, hreach⟩
            exact hclear head a b h.head_found hpre (h.mem_segment_iff.1 hb)
              (h.natural_of_kept digest ha hout hb hab.2)
          refine ⟨hpre.tail ⟨(parent_iff_step hids).2 hab.1, ?_⟩, hnot, hreach.tail hab.1⟩
          exact fun hb => hnot (h.mem_segment_iff.2 hb)
    exact (hoff _ hpath).2.1 h.source_mem
  · intro hnot
    simp only [LaneClear, not_forall, not_not] at hnot
    obtain ⟨head', u, p, hhead, hu, hp, hup⟩ := hnot
    rw [h.head_found, Option.some.injEq] at hhead
    subst hhead
    have hpre : ReflTransGen
        (Kept graph (h.plan digest)) head.target u := by
      refine ReflTransGen.mono (fun a b hab => ?_) _ _ hu
      have hstep := (parent_iff_step hids).1 hab.1
      have hb : b ∉ segment := fun hb => hab.2 (h.mem_segment_iff.1 hb)
      exact ⟨hstep, (h.step_kept digest hstep).resolve_right hb⟩
    have hsource := ReflTransGen.mono (fun a b hab => kept_of_natural
      (h.plan digest) hids hab) _ _ (h.natural_source (h.mem_segment_iff.2 hp))
    exact (hpre.tail (kept_of_natural _ hids hup)).trans hsource

/-- The graph after the whole plan. -/
theorem Planned.acyclic_after_iff
    (hids : ∀ s ∈ graph.snapshots, s.id ≠ "") (hdag : Acyclic (Parent graph.snapshots)) :
    Acyclic (Parent ((h.plan digest).afterSnapshots graph.snapshots)) ↔ LaneClear graph req := by
  have hafter := applyPatches_ids hids
    (h.plan digest).grafts
  have hkept : Acyclic
      (Kept graph (h.plan digest)) :=
    hdag.mono fun a b hab => (parent_iff_step hids).2 hab.1
  have hinsert : ∀ a b, Parent ((buildPlan digest graph req snapX head segment
      superseded).afterSnapshots graph.snapshots) a b ↔
      Kept graph (h.plan digest) a b ∨ (a = req.source ∧ b = head.target) := by
    intro a b
    rw [JoinPlan.afterSnapshots, parent_iff_step hafter]
    constructor
    · exact fun hab => (h.step_new digest hab).imp_left fun hb => ⟨hb, hab⟩
    · rintro (hab | ⟨rfl, rfl⟩)
      · exact hab.2
      · exact h.step_head digest
  rw [acyclic_insert_iff hinsert, h.kept_source_iff digest hids, not_not]
  exact and_iff_right hkept

/-- **Every prefix of the patches keeps the graph acyclic exactly when the lane is clear.** -/
theorem Planned.acyclic_iff
    (hids : ∀ s ∈ graph.snapshots, s.id ≠ "") (hdag : Acyclic (Parent graph.snapshots)) :
    (∀ k, Acyclic (Parent (applyPatches graph.snapshots
      ((h.plan digest).grafts.take k)))) ↔ LaneClear graph req := by
  rw [← h.acyclic_after_iff digest hids hdag]
  constructor
  · intro hall
    have hfull := hall (h.plan digest).grafts.length
    rwa [List.take_length] at hfull
  · intro hafter k
    by_cases hk : k ≤ superseded.length
    · -- only supersede patches: edges are dropped
      have htake : (h.plan digest).grafts.take k =
          superseded.take k := List.take_append_of_le_length hk
      rw [htake]
      refine hdag.mono fun a b hab => ?_
      rw [parent_iff_step (applyPatches_ids hids _)] at hab
      refine (parent_iff_step hids).2 (step_of_shrinking ?_ ?_ hab)
      · exact ((List.take_sublist k superseded).map _).nodup h.superseded_nodup
      · exact fun p hp => h.superseded_shrinks p (List.mem_of_mem_take hp)
    · have htake : (h.plan digest).grafts.take k = (h.plan digest).grafts := by
        refine List.take_of_length_le ?_
        rw [Planned.plan, buildPlan, List.length_append, List.length_singleton]
        omega
      rw [htake]
      exact hafter

end Planned

end Backend
end CxtHub
