/-
# A diverged append keeps both histories

`appendPlan` (`backend/internal/adapters/store/append_plan.go`) hangs the old tip of a branch
below an incoming line of history: every incoming snapshot without natural parents, or with a
natural parent the old tip reaches, gets the old tip as one more graft parent.

The boundary is chosen by natural parents and reachability counts grafts too, so that there is
a boundary at all needs an argument: among the incoming snapshots that one of them reaches, a
lowest one has no natural parent among them, and its natural parents are incoming or shared.
Everything an append adds leads from outside what the old tip reaches into it, which is why no
order of the patches makes a cycle (`Acyclic.enter`).

`dedupHashParents` drops the empty id, so all this needs that no snapshot has it.
-/

import CxtHub.Backend.GraftRegister

namespace CxtHub
namespace Backend

open Relation CxtHub.Graph

variable {tip x b : ContentHash} {s : Snapshot}

/-- Zero or more overlay edges. -/
def Reaches (snaps : List Snapshot) : ContentHash → ContentHash → Prop :=
  ReflTransGen (Parent snaps)

/-- Every snapshot a tip reaches is in the list. -/
def CompleteAncestry (snaps : List Snapshot) (tip : ContentHash) : Prop :=
  ∀ x, Reaches snaps tip x → x ∈ snaps.map Snapshot.id

/-- What the next tip brings in. -/
def IsIncoming (snaps : List Snapshot) (old next x : ContentHash) : Prop :=
  Reaches snaps next x ∧ ¬ Reaches snaps old x

/-- An incoming snapshot at which the old tip is hung in. -/
def IsBoundary (snaps : List Snapshot) (old next : ContentHash) (s : Snapshot) : Prop :=
  IsIncoming snaps old next s.id ∧
    (s.parents.list = [] ∨ ∃ p ∈ s.parents.list, Reaches snaps old p)

section Plan

variable {snaps : List Snapshot} {old next : ContentHash}

/-! ### What the plan is -/

/-- The nodes the walk of `appendPlan` collects. -/
def ancestors (snaps : List Snapshot) (tip : ContentHash) : List ContentHash :=
  Worklist.reach (parentsOf snaps) (fun _ => false) (snaps.map Snapshot.id) [tip]

/-- The ancestors are what the tip reaches. -/
theorem mem_ancestors : x ∈ ancestors snaps tip ↔ Reaches snaps tip x := by
  have hedge : Worklist.Edge (parentsOf snaps) (fun _ => false) = Parent snaps := by
    funext a b
    simp [Worklist.Edge, Parent]
  rw [ancestors, Worklist.mem_reach (fun b hb => parentsOf_of_notMem hb), hedge]
  simp [Reaches]

/-- Every ancestor is stored. -/
theorem completeAncestry_iff :
    CompleteAncestry snaps tip ↔ ∀ x ∈ ancestors snaps tip, x ∈ snaps.map Snapshot.id :=
  forall_congr' fun _ => imp_congr_left mem_ancestors.symm

/-- The walk returns the ancestors when all are stored. -/
theorem appendWalk_of_complete (h : CompleteAncestry snaps tip) :
    appendWalk snaps tip = .ok (ancestors snaps tip) := by
  have hnone : (ancestors snaps tip).reverse.find? (fun id => id ∉ snaps.map Snapshot.id) =
      none := by
    rw [List.find?_eq_none]
    intro x hx
    simpa using completeAncestry_iff.1 h x (List.mem_reverse.1 hx)
  unfold appendWalk
  dsimp only
  rw [← ancestors, hnone]

/-- The patch of a boundary snapshot. -/
def boundaryPatch (old : ContentHash) (s : Snapshot) : GraftPatch :=
  { snapshotID := s.id, expectedSeq := s.graftSeq
    parents := (dedupHashParents s.id s.parents (some (s.graftParents.list ++ [old]))).list }

/-- The test of the loop, on an incoming snapshot. -/
theorem atBoundary_iff (hin : IsIncoming snaps old next s.id) :
    (s.parents.list.length = 0 ∨
      s.parents.list.any (fun p => (ancestors snaps old).contains p) = true) ↔
      IsBoundary snaps old next s := by
  simp [IsBoundary, hin, mem_ancestors]

/-- A snapshot at the boundary gets a patch. -/
theorem appendPatch_boundary (hs : byID snaps s.id = some s)
    (hb : IsBoundary snaps old next s) (hseq : s.graftSeq ≠ maxGraftSeq) :
    appendPatch snaps (ancestors snaps old) old s.id = .ok (some (boundaryPatch old s)) := by
  unfold appendPatch
  rw [hs]
  dsimp only
  rw [if_pos ((atBoundary_iff hb.1).2 hb), refuse, if_neg hseq]
  rfl

/-- One further in does not. -/
theorem appendPatch_inner (hs : byID snaps s.id = some s)
    (hin : IsIncoming snaps old next s.id) (hb : ¬ IsBoundary snaps old next s) :
    appendPatch snaps (ancestors snaps old) old s.id = .ok none := by
  unfold appendPatch
  rw [hs]
  dsimp only
  rw [if_neg fun h => hb ((atBoundary_iff hin).1 h)]

/-- The patch of a snapshot is of that snapshot. -/
theorem snapshotID_of_appendPatch {shared : List ContentHash} {id : ContentHash} {p : GraftPatch}
    (h : appendPatch snaps shared old id = .ok (some p)) : p.snapshotID = id := by
  unfold appendPatch at h
  cases hs : byID snaps id with
  | none => simp [hs] at h
  | some s =>
      rw [hs] at h
      dsimp only at h
      split at h
      · simp only [bind_eq_ok, Except.ok.injEq, Option.some.injEq] at h
        obtain ⟨-, -, rfl⟩ := h
        rfl
      · simp at h

/-- The patches come in the order of the ids. -/
theorem snapshotIDs_sublist {shared ids : List ContentHash} {patches : List (Option GraftPatch)}
    (h : readAll (appendPatch snaps shared old) ids = .ok patches) :
    List.Sublist ((patches.filterMap id).map GraftPatch.snapshotID) ids := by
  rw [readAll_eq_ok] at h
  induction h with
  | nil => exact List.Sublist.refl []
  | @cons i patch ids patches hp _ ih =>
      cases patch with
      | none => exact ih.cons i
      | some p =>
          have hcons : (some p :: patches).filterMap id = p :: patches.filterMap id := rfl
          rw [hcons, List.map_cons, snapshotID_of_appendPatch hp]
          exact ih.cons_cons i

/-- The incoming ids in the order of the loop. -/
theorem mem_incomingIDs :
    x ∈ ((ancestors snaps next).filter fun id => id ∉ ancestors snaps old).insertionSort (· ≤ ·) ↔
      IsIncoming snaps old next x := by
  rw [List.mem_insertionSort, List.mem_filter, mem_ancestors, decide_eq_true_eq, mem_ancestors,
    IsIncoming]

/-- The patches are those of the boundary snapshots. -/
structure AppendPatches (snaps : List Snapshot) (old next : ContentHash)
    (patches : List GraftPatch) : Prop where
  nodup : (patches.map GraftPatch.snapshotID).Nodup
  boundary : ∀ p ∈ patches, ∃ s ∈ snaps, IsBoundary snaps old next s ∧ boundaryPatch old s = p

/-- Part of the patches are patches of the same kind. -/
theorem AppendPatches.of_prefix {done patches : List GraftPatch}
    (h : AppendPatches snaps old next patches) (hdone : done <+: patches) :
    AppendPatches snaps old next done where
  nodup := h.nodup.sublist (hdone.sublist.map _)
  boundary p hp := h.boundary p (hdone.subset hp)

/-! ### There is a boundary -/

/-- A natural parent is a parent. -/
theorem parent_of_natural {a : ContentHash} (h : NaturalStep snaps a b) : Parent snaps a b := by
  unfold NaturalStep naturalParentsOf at h
  cases hs : byID snaps a with
  | none => simp [hs] at h
  | some s => exact mem_parentsOf.2 ⟨s, hs, Or.inl (by simpa [hs] using h)⟩

/-- **Every incoming snapshot reaches a boundary along natural parents.** -/
theorem exists_boundary (hacyclic : Acyclic (Parent snaps)) (hnext : CompleteAncestry snaps next)
    (hx : IsIncoming snaps old next x) :
    ∃ s, byID snaps s.id = some s ∧ IsBoundary snaps old next s ∧
      ReflTransGen (NaturalStep snaps) x s.id := by
  classical
  -- the incoming snapshots below `x`, and a lowest one among them
  let below := (snaps.map Snapshot.id).filter fun y =>
    IsIncoming snaps old next y ∧ ReflTransGen (NaturalStep snaps) x y
  have hbelow : ∀ y, y ∈ below ↔ IsIncoming snaps old next y ∧
      ReflTransGen (NaturalStep snaps) x y := by
    intro y
    rw [List.mem_filter, decide_eq_true_eq]
    exact ⟨fun h => h.2, fun h => ⟨hnext y h.1.1, h⟩⟩
  have hne : below ≠ [] := List.ne_nil_of_mem ((hbelow x).2 ⟨hx, .refl⟩)
  obtain ⟨y, hy, hlow⟩ := hacyclic.exists_sink hne
  obtain ⟨hin, hxy⟩ := (hbelow y).1 hy
  obtain ⟨s, hs⟩ : ∃ s, byID snaps y = some s := by
    cases hs : byID snaps y with
    | none =>
        obtain ⟨t, ht, hid⟩ := List.mem_map.1 (hnext y hin.1)
        exact absurd hid (byID_eq_none.1 hs t ht)
    | some s => exact ⟨s, rfl⟩
  obtain rfl := (byID_eq_some hs).2
  refine ⟨s, hs, ⟨hin, ?_⟩, hxy⟩
  by_contra hnot
  obtain ⟨hsome, hnone⟩ := not_or.1 hnot
  obtain ⟨p, hp⟩ := List.exists_mem_of_ne_nil _ hsome
  have hstep : NaturalStep snaps s.id p := by
    unfold NaturalStep naturalParentsOf
    rwa [hs]
  have hpin : IsIncoming snaps old next p :=
    ⟨hin.1.tail (parent_of_natural hstep), fun hold => hnone ⟨p, hp, hold⟩⟩
  exact hlow p ((hbelow p).2 ⟨hpin, hxy.tail hstep⟩) (parent_of_natural hstep)

/-- **`appendPlan` succeeds on diverged histories**, with one patch for each boundary. -/
theorem appendPlan_eq_ok (hn : (snaps.map Snapshot.id).Nodup) (hacyclic : Acyclic (Parent snaps))
    (hold : CompleteAncestry snaps old) (hnext : CompleteAncestry snaps next)
    (hon : ¬ Reaches snaps old next) (hno : ¬ Reaches snaps next old)
    (hseq : ∀ s ∈ snaps, IsBoundary snaps old next s → s.graftSeq ≠ maxGraftSeq) :
    ∃ patches, appendPlan snaps old next = .ok patches ∧ patches ≠ [] ∧
      AppendPatches snaps old next patches ∧
      ∀ s ∈ snaps, IsBoundary snaps old next s → boundaryPatch old s ∈ patches := by
  let ids :=
    ((ancestors snaps next).filter fun id => id ∉ ancestors snaps old).insertionSort (· ≤ ·)
  have hids : ∀ x, x ∈ ids ↔ IsIncoming snaps old next x := fun x => mem_incomingIDs
  -- the patch of every incoming snapshot
  have hpatch : ∀ id ∈ ids, ∃ s ∈ snaps, s.id = id ∧
      ((IsBoundary snaps old next s ∧
        appendPatch snaps (ancestors snaps old) old id = .ok (some (boundaryPatch old s))) ∨
      (¬ IsBoundary snaps old next s ∧
        appendPatch snaps (ancestors snaps old) old id = .ok none)) := by
    intro id hid
    have hin := (hids id).1 hid
    obtain ⟨s, hs, rfl⟩ := List.mem_map.1 (hnext id hin.1)
    have hby := byID_of_mem hn hs
    refine ⟨s, hs, rfl, ?_⟩
    by_cases hb : IsBoundary snaps old next s
    · exact Or.inl ⟨hb, appendPatch_boundary hby hb (hseq s hs hb)⟩
    · exact Or.inr ⟨hb, appendPatch_inner hby hin hb⟩
  obtain ⟨read, hread⟩ : ∃ read,
      readAll (appendPatch snaps (ancestors snaps old) old) ids = .ok read :=
    readAll_of_forall fun id hid => by
      obtain ⟨s, -, -, ⟨-, h⟩ | ⟨-, h⟩⟩ := hpatch id hid <;> exact ⟨_, h⟩
  have hall : ∀ s ∈ snaps, IsBoundary snaps old next s →
      boundaryPatch old s ∈ read.filterMap id := by
    intro s hs hb
    obtain ⟨patch, hmem, hp⟩ := exists_mem_of_readAll hread s.id ((hids s.id).2 hb.1)
    rw [appendPatch_boundary (byID_of_mem hn hs) hb (hseq s hs hb)] at hp
    exact List.mem_filterMap.2 ⟨patch, hmem, (Except.ok.inj hp).symm⟩
  have hne : read.filterMap id ≠ [] := by
    obtain ⟨s, hs, hb, -⟩ := exists_boundary hacyclic hnext ⟨.refl, hon⟩
    exact List.ne_nil_of_mem (hall s (byID_eq_some hs).1 hb)
  refine ⟨read.filterMap id, ?_, hne, ⟨?_, ?_⟩, hall⟩
  · have hdiverged : ¬ (next ∈ ancestors snaps old ∨ old ∈ ancestors snaps next) := by
      rw [mem_ancestors, mem_ancestors]
      exact not_or.2 ⟨hon, hno⟩
    rw [appendPlan, appendWalk_of_complete hold, appendWalk_of_complete hnext]
    simp only [ok_bind, refuse, if_neg hdiverged, hread, if_neg hne, ids]
  · refine List.Nodup.sublist (snapshotIDs_sublist hread) ?_
    exact (List.perm_insertionSort _ _).nodup_iff.2 ((Worklist.nodup_walk List.nodup_nil).filter _)
  · intro p hp
    obtain ⟨patch, hmem, hpatch'⟩ := List.mem_filterMap.1 hp
    obtain rfl : patch = some p := hpatch'
    obtain ⟨id, hid, hread'⟩ := exists_of_mem_readAll hread (some p) hmem
    obtain ⟨s, hs, -, ⟨hb, h⟩ | ⟨-, h⟩⟩ := hpatch id hid
    · rw [h] at hread'
      exact ⟨s, hs, hb, Option.some.inj (Except.ok.inj hread')⟩
    · rw [h] at hread'
      cases Except.ok.inj hread'

/-! ### What the patches do -/

/-- A patch adds the old tip and takes nothing away. -/
theorem mem_boundaryPatch_parents :
    b ∈ (boundaryPatch old s).parents ↔
      (b ∈ s.graftParents.list ∨ b = old) ∧ b ≠ "" ∧ b ≠ s.id ∧ b ∉ s.parents.list := by
  simp [boundaryPatch, dedupHashParents]

/-- **The edges after a part of the patches**: those before, and one to the old tip from every
patched snapshot. -/
theorem AppendPatches.parent_iff {done : List GraftPatch} (h : AppendPatches snaps old next done)
    (hids : ∀ s ∈ snaps, s.id ≠ "") (hn : (snaps.map Snapshot.id).Nodup)
    (hacyclic : Acyclic (Parent snaps)) (hold : CompleteAncestry snaps old)
    (hnext : CompleteAncestry snaps next) {a : ContentHash} :
    Parent (applyPatches snaps done) a b ↔
      Parent snaps a b ∨ (a ∈ done.map GraftPatch.snapshotID ∧ b = old) := by
  have hedge : Parent (applyPatches snaps done) a b ↔ ∃ s, byID snaps a = some s ∧
      (b ∈ s.parents.list ∨ b ∈ (done.foldl patchSnapshot s).graftParents.list) := by
    rw [Parent, mem_parentsOf, byID_applyPatches]
    cases byID snaps a <;> simp
  have hnonempty : ∀ x ∈ snaps.map Snapshot.id, x ≠ "" := fun x hx => by
    obtain ⟨s, hs, rfl⟩ := List.mem_map.1 hx
    exact hids s hs
  by_cases ha : a ∈ done.map GraftPatch.snapshotID
  · obtain ⟨p, hp, rfl⟩ := List.mem_map.1 ha
    obtain ⟨s, hs, hb, rfl⟩ := h.boundary p hp
    have hby : byID snaps s.id = some s := byID_of_mem hn hs
    have hgrafts : (done.foldl patchSnapshot s).graftParents.list = (boundaryPatch old s).parents :=
      foldl_patchSnapshot_of_mem h.nodup hp rfl
    have hid : (boundaryPatch old s).snapshotID = s.id := rfl
    have hparent : Parent snaps s.id b ↔ b ∈ s.parents.list ∨ b ∈ s.graftParents.list := by
      rw [Parent, mem_parentsOf, hby]
      simp
    rw [hedge, hid, hby, hparent]
    simp only [Option.some.injEq, exists_eq_left', hgrafts, mem_boundaryPatch_parents]
    constructor
    · rintro (hb | ⟨hb | hb, -⟩)
      · exact Or.inl (Or.inl hb)
      · exact Or.inl (Or.inr hb)
      · exact Or.inr ⟨ha, hb⟩
    · rintro (hparents | ⟨-, rfl⟩)
      · by_cases hnatural : b ∈ s.parents.list
        · exact Or.inl hnatural
        · have hstep : Parent snaps s.id b := hparent.2 hparents
          refine Or.inr ⟨Or.inl (hparents.resolve_left hnatural), ?_, ?_, hnatural⟩
          · exact hnonempty b (hnext b (hb.1.1.tail hstep))
          · rintro rfl
            exact hacyclic _ (.single hstep)
      · by_cases hnatural : b ∈ s.parents.list
        · exact Or.inl hnatural
        · refine Or.inr ⟨Or.inr rfl, hnonempty b (hold b .refl), ?_, hnatural⟩
          rintro rfl
          exact hb.1.2 .refl
  · rw [hedge]
    simp only [ha, false_and, or_false]
    rw [Parent, mem_parentsOf]
    refine exists_congr fun s => and_congr_right fun hs => ?_
    rw [foldl_patchSnapshot_of_notMem ((byID_eq_some hs).2 ▸ ha)]

end Plan

/-- **A diverged append loses nothing.**  On an acyclic graph of snapshots with distinct ids,
none of them empty, two tips with complete ancestry that do not reach each other get at least
one patch unless a boundary register is exhausted.  After the patches everything the next tip
brought in reaches the old tip, the next tip reaches all that either tip reached, every edge is
still there, and no part of the patches makes a cycle. -/
theorem appendPlan_lossless {snaps : List Snapshot} {old next : ContentHash}
    (hids : ∀ s ∈ snaps, s.id ≠ "") (hn : (snaps.map Snapshot.id).Nodup)
    (hacyclic : Acyclic (Parent snaps))
    (hold : CompleteAncestry snaps old) (hnext : CompleteAncestry snaps next)
    (hon : ¬ Reaches snaps old next) (hno : ¬ Reaches snaps next old)
    (hseq : ∀ s ∈ snaps, IsBoundary snaps old next s → s.graftSeq ≠ maxGraftSeq) :
    ∃ patches, appendPlan snaps old next = .ok patches ∧ patches ≠ [] ∧
      (∀ x, Reaches snaps next x → ¬ Reaches snaps old x →
        Reaches (applyPatches snaps patches) x old) ∧
      (∀ x, Reaches snaps old x ∨ Reaches snaps next x →
        Reaches (applyPatches snaps patches) next x) ∧
      (∀ a b, Parent snaps a b → Parent (applyPatches snaps patches) a b) ∧
      ∀ done, done <+: patches → Acyclic (Parent (applyPatches snaps done)) := by
  obtain ⟨patches, hplan, hne, hpatches, hall⟩ :=
    appendPlan_eq_ok hn hacyclic hold hnext hon hno hseq
  have hkept : ∀ a b, Parent snaps a b → Parent (applyPatches snaps patches) a b := fun a b hab =>
    (hpatches.parent_iff hids hn hacyclic hold hnext).2 (Or.inl hab)
  have hpaths : ∀ a b, Reaches snaps a b → Reaches (applyPatches snaps patches) a b :=
    ReflTransGen.mono hkept
  have hjoin : ∀ x, Reaches snaps next x → ¬ Reaches snaps old x →
      Reaches (applyPatches snaps patches) x old := by
    intro x hx hout
    obtain ⟨s, hs, hb, hxs⟩ := exists_boundary hacyclic hnext ⟨hx, hout⟩
    have hmem : s.id ∈ patches.map GraftPatch.snapshotID :=
      List.mem_map.2 ⟨_, hall s (byID_eq_some hs).1 hb, rfl⟩
    have hedge : Parent (applyPatches snaps patches) s.id old :=
      (hpatches.parent_iff hids hn hacyclic hold hnext).2 (Or.inr ⟨hmem, rfl⟩)
    exact (hpaths x s.id (ReflTransGen.mono (fun _ _ => parent_of_natural) _ _ hxs)).tail hedge
  refine ⟨patches, hplan, hne, hjoin, ?_, hkept, ?_⟩
  · rintro x (hx | hx)
    · exact (hjoin next .refl hon).trans (hpaths old x hx)
    · exact hpaths next x hx
  · intro done hdone
    have hpart := hpatches.of_prefix hdone
    have hedges := fun a b => hpart.parent_iff hids hn hacyclic hold hnext (a := a) (b := b)
    -- the new edges lead from incoming snapshots, which the old tip does not reach, to the old tip
    have hclosed : ∀ a b, Reaches snaps old a → Parent (applyPatches snaps done) a b →
        Reaches snaps old b := by
      intro a b ha hab
      rcases (hedges a b).1 hab with hab | ⟨-, rfl⟩
      · exact ReflTransGen.tail ha hab
      · exact .refl
    refine hacyclic.enter hclosed fun a b hab => ?_
    rcases (hedges a b).1 hab with hab | ⟨ha, rfl⟩
    · exact Or.inl hab
    · obtain ⟨p, hp, rfl⟩ := List.mem_map.1 ha
      obtain ⟨s, -, hb, rfl⟩ := hpart.boundary p hp
      exact Or.inr ⟨hb.1.2, .refl⟩

/-- Two lines over `a`. -/
def divergedSnapshots : List Snapshot :=
  [digitSnapshot 'a' [] [], digitSnapshot 'b' ['a'] [], digitSnapshot 'c' ['a'] []]

/-- The tip `c` takes the tip `b` below it. -/
theorem appendPlan_lossless_diverged :
    ∃ patches, appendPlan divergedSnapshots (digitHash 'b') (digitHash 'c') = .ok patches ∧
      Reaches (applyPatches divergedSnapshots patches) (digitHash 'c') (digitHash 'b') := by
  have hids : ∀ s ∈ divergedSnapshots, s.id ≠ "" := by decide +kernel
  have hbc : ¬ Reaches divergedSnapshots (digitHash 'b') (digitHash 'c') := by
    rw [← mem_ancestors]
    decide +kernel
  have hcb : ¬ Reaches divergedSnapshots (digitHash 'c') (digitHash 'b') := by
    rw [← mem_ancestors]
    decide +kernel
  have hseq : ∀ s ∈ divergedSnapshots, s.graftSeq ≠ maxGraftSeq := by decide +kernel
  obtain ⟨patches, hplan, -, hjoin, -⟩ :=
    appendPlan_lossless hids (by decide +kernel)
      (snapshotGraphHasCycle_eq_false.1 (by decide +kernel))
      (completeAncestry_iff.2 (by decide +kernel)) (completeAncestry_iff.2 (by decide +kernel))
      hbc hcb fun s hs _ => hseq s hs
  exact ⟨patches, hplan, hjoin _ .refl hbc⟩

/-- A snapshot with the empty id, and one apart from it. -/
def emptyTipSnapshots : List Snapshot :=
  [{ id := "", repoID := digitHash '0', docHash := "" }, digitSnapshot 'a' [] []]

/-- An old tip with the empty id is dropped from the patch that should hang it in. -/
theorem appendPlan_emptyID :
    (emptyTipSnapshots.map Snapshot.id).Nodup ∧ Acyclic (Parent emptyTipSnapshots) ∧
      CompleteAncestry emptyTipSnapshots "" ∧ CompleteAncestry emptyTipSnapshots (digitHash 'a') ∧
      ¬ Reaches emptyTipSnapshots "" (digitHash 'a') ∧
      ¬ Reaches emptyTipSnapshots (digitHash 'a') "" ∧
      (∀ s ∈ emptyTipSnapshots, s.graftSeq ≠ maxGraftSeq) ∧
      ∃ patches, appendPlan emptyTipSnapshots "" (digitHash 'a') = .ok patches ∧
        ¬ Reaches (applyPatches emptyTipSnapshots patches) (digitHash 'a') "" := by
  refine ⟨by decide +kernel, snapshotGraphHasCycle_eq_false.1 (by decide +kernel),
    completeAncestry_iff.2 (by decide +kernel), completeAncestry_iff.2 (by decide +kernel),
    ?_, ?_, by decide +kernel, [{ snapshotID := digitHash 'a', expectedSeq := 0, parents := [] }],
    by decide +kernel, ?_⟩
  all_goals
    rw [← mem_ancestors]
    decide +kernel

end Backend
end CxtHub
