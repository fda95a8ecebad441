/-
# The order of a join's patches

`validateJoinTransitionOrder` walks the after images forward and the before images
back, and looks for a cycle after each file.  The rollback passes through the states
of the forward walk in reverse (`replaceSnapshot_before`), so the check accepts when
no prefix of the after images closes a cycle: `validateJoinTransitionOrder_of_prefixes`.

`planJoin_acyclic_iff`: from an acyclic graph, the patches of a plan keep it acyclic,
and both checks accept, exactly when the lane is clear.  The planner does not check
that: it looks at the natural history of the head and at the graft edges into the
segment, and a path from the head to the source may use a graft edge and then a
natural one.
-/

import CxtHub.Backend.JoinAcyclic
import CxtHub.Backend.JoinAgreement
import CxtHub.Backend.JoinJournal
import CxtHub.Lib.Kahn

namespace CxtHub
namespace Backend

open Relation CxtHub.Graph

variable {s snap : Snapshot} {id : ContentHash} {candidate : List Snapshot}

/-- `ValidateAcyclicAncestry` of `backend/internal/domain/graph_cycle.go`, for a context
that is not cancelled. -/
def validateAcyclicAncestry (snaps : List Snapshot) : Except DomainError Unit :=
  refuse (takesAll (parentsOf snaps) (snaps.map Snapshot.id) = false)
    { sentinel := .integrity, format := "cyclic graph ancestry" }

/-- The check passes exactly when no snapshot is its own ancestor. -/
theorem validateAcyclicAncestry_eq_ok {snaps : List Snapshot}
    (hn : (snaps.map Snapshot.id).Nodup) :
    validateAcyclicAncestry snaps = .ok () ↔ Acyclic (Parent snaps) := by
  rw [validateAcyclicAncestry, refuse_eq_ok, Bool.not_eq_false,
    takesAll_iff hn fun _ => parentsOf_of_notMem]
  rfl

/-- The other detector agrees. -/
theorem snapshotGraphHasCycle_eq_false {snaps : List Snapshot} :
    snapshotGraphHasCycle snaps = false ↔ Acyclic (Parent snaps) :=
  hasCycle_eq_false_iff fun _ => parentsOf_of_notMem

/-! ### Images in place -/

/-- The snapshots with an image of each entry in place. -/
def replaced (image : JoinEntry → SnapshotFile) (entries : List JoinEntry)
    (candidate : List Snapshot) : List Snapshot :=
  entries.foldl (fun candidate entry => replaceSnapshot (image entry).1 candidate) candidate

/-- An image of an entry in place of a snapshot. -/
def place (image : JoinEntry → SnapshotFile) (s : Snapshot) (entry : JoinEntry) : Snapshot :=
  if s.id = (image entry).1.id then (image entry).1 else s

section Place

variable {image : JoinEntry → SnapshotFile} {entries : List JoinEntry}

/-- The images replace the snapshots of their ids. -/
theorem replaced_eq_map (image : JoinEntry → SnapshotFile) (entries : List JoinEntry)
    (candidate : List Snapshot) :
    replaced image entries candidate = candidate.map fun s => entries.foldl (place image) s := by
  induction entries generalizing candidate with
  | nil => simp [replaced]
  | cons entry entries ih =>
      have hcons : replaced image (entry :: entries) candidate =
          replaced image entries (replaceSnapshot (image entry).1 candidate) := rfl
      rw [hcons, ih, replaceSnapshot, List.map_map]
      rfl

/-- A snapshot without an image stays as it is. -/
theorem foldl_place_of_notMem
    (himg : ∀ e ∈ entries, (image e).1.id = e.id) (h : s.id ∉ entries.map JoinEntry.id) :
    entries.foldl (place image) s = s := by
  induction entries with
  | nil => rfl
  | cons e entries ih =>
      rw [List.map_cons, List.mem_cons, not_or] at h
      have hne : ¬ s.id = (image e).1.id := himg e (List.mem_cons_self ..) ▸ h.1
      rw [List.foldl_cons, place, if_neg hne]
      exact ih (fun e' he => himg e' (List.mem_cons_of_mem _ he)) h.2

/-- With distinct entries, a snapshot that an entry names becomes its image. -/
theorem foldl_place_of_mem (himg : ∀ e ∈ entries, (image e).1.id = e.id)
    (hn : (entries.map JoinEntry.id).Nodup) {entry : JoinEntry} (he : entry ∈ entries)
    (hid : s.id = entry.id) : entries.foldl (place image) s = (image entry).1 := by
  induction entries generalizing s with
  | nil => cases he
  | cons e entries ih =>
      rw [List.map_cons, List.nodup_cons] at hn
      have himg' : ∀ e ∈ entries, (image e).1.id = e.id := fun e' he' =>
        himg e' (List.mem_cons_of_mem _ he')
      have hfirst := himg e (List.mem_cons_self ..)
      rw [List.foldl_cons, place]
      rcases List.mem_cons.1 he with rfl | he
      · rw [if_pos (hid.trans hfirst.symm)]
        exact foldl_place_of_notMem himg' (hfirst.symm ▸ hn.1)
      · have hne : ¬ s.id = (image e).1.id := fun heq =>
          hn.1 (List.mem_map.2 ⟨entry, he, hid.symm.trans (heq.trans hfirst)⟩)
        rw [if_neg hne]
        exact ih himg' hn.2 he hid

/-- Placing images keeps the id. -/
theorem foldl_place_id (s : Snapshot) : (entries.foldl (place image) s).id = s.id := by
  induction entries generalizing s with
  | nil => rfl
  | cons e entries ih =>
      rw [List.foldl_cons, ih, place]
      split_ifs with hid
      · exact hid.symm
      · rfl

/-- What is found under an id after the replacements. -/
theorem byID_replaced (candidate : List Snapshot) (id : ContentHash) :
    byID (replaced image entries candidate) id =
      (byID candidate id).map fun s => entries.foldl (place image) s := by
  rw [replaced_eq_map]
  unfold byID
  rw [List.find?_map]
  congr 2
  funext s
  simp [foldl_place_id]

end Place

/-- The images of an entry are valid, and the before image is what is stored. -/
structure Images (snaps : List Snapshot) (repoID : ContentHash) (entry : JoinEntry) : Prop where
  stored : entry.id ∈ snaps.map Snapshot.id
  before : validateJoinSnapshot entry.before entry.id repoID = .ok entry.before.1
  after : validateJoinSnapshot entry.after entry.id repoID = .ok entry.after.1
  current : ∀ s ∈ snaps, s.id = entry.id → s = entry.before.1

/-- What is checked of an image. -/
theorem validateJoinSnapshot_eq_ok {file : SnapshotFile} {repoID : ContentHash}
    : validateJoinSnapshot file id repoID = .ok s ↔
      file.1.id = id ∧ file.1.repoID = repoID ∧ validateSnapshotRefs file.1 = .ok () ∧
        file.1 = s := by
  simp only [validateJoinSnapshot, bind_eq_ok, exists_unit_iff, refuse_eq_ok, not_or, not_not,
    Except.ok.injEq, and_assoc]

section Images

variable {snaps : List Snapshot} {repoID : ContentHash} {entry : JoinEntry}
  {entries : List JoinEntry}

theorem Images.before_id (h : Images snaps repoID entry) : entry.before.1.id = entry.id :=
  (validateJoinSnapshot_eq_ok.1 h.before).1

theorem Images.after_id (h : Images snaps repoID entry) : entry.after.1.id = entry.id :=
  (validateJoinSnapshot_eq_ok.1 h.after).1

/-- Putting back what is stored changes nothing. -/
theorem Images.replace_before (h : Images snaps repoID entry) :
    replaceSnapshot entry.before.1 snaps = snaps := by
  conv_rhs => rw [← List.map_id snaps]
  refine List.map_congr_left fun s hs => ?_
  split_ifs with hid
  · exact (h.current s hs (hid.trans h.before_id)).symm
  · rfl

/-- The first loop puts the before images in place. -/
theorem loadBefore_eq_replaced
    (hstored : ∀ e ∈ entries, e.id ∈ candidate.map Snapshot.id)
    (h : ∀ e ∈ entries, Images snaps repoID e) :
    loadBefore repoID entries candidate = .ok (replaced JoinEntry.before entries candidate) := by
  induction entries generalizing candidate with
  | nil => rfl
  | cons entry entries ih =>
      have he := h entry (List.mem_cons_self ..)
      have hids : (replaceSnapshot entry.before.1 candidate).map Snapshot.id =
          candidate.map Snapshot.id := by
        rw [replaceSnapshot, List.map_map]
        refine List.map_congr_left fun s _ => ?_
        by_cases hs : s.id = entry.before.1.id <;> simp [hs]
      rw [loadBefore, refuse_of_not (not_not.2 (hstored entry (List.mem_cons_self ..))), ok_bind,
        he.before, ok_bind, he.after, ok_bind]
      refine ih (fun e hmem => ?_) fun e hmem => h e (List.mem_cons_of_mem _ hmem)
      rw [hids]
      exact hstored e (List.mem_cons_of_mem _ hmem)

/-- The before images of the stored snapshots are in place. -/
theorem replaced_before (h : ∀ e ∈ entries, Images snaps repoID e) :
    replaced JoinEntry.before entries snaps = snaps := by
  induction entries with
  | nil => rfl
  | cons entry entries ih =>
      have hcons : replaced JoinEntry.before (entry :: entries) snaps =
          replaced JoinEntry.before entries (replaceSnapshot entry.before.1 snaps) := rfl
      rw [hcons, (h entry (List.mem_cons_self ..)).replace_before]
      exact ih fun e hmem => h e (List.mem_cons_of_mem _ hmem)

/-- A snapshot that no entry names stays in place. -/
theorem mem_replaced_of_ne (h : ∀ entry ∈ entries, Images snaps repoID entry)
    (hs : s ∈ replaced JoinEntry.after entries candidate)
    (hid : s.id ∉ entries.map JoinEntry.id) : s ∈ candidate := by
  induction entries generalizing candidate with
  | nil => exact hs
  | cons entry entries ih =>
      rw [List.map_cons, List.mem_cons, not_or] at hid
      have hmem := ih (fun e he => h e (List.mem_cons_of_mem _ he)) hs hid.2
      obtain ⟨t, ht, hts⟩ := List.mem_map.1 hmem
      split_ifs at hts with heq
      · have hafter := (h entry (List.mem_cons_self ..)).after_id
        exact absurd (hts ▸ hafter) hid.1
      · exact hts ▸ ht

/-- **Rolling one entry back undoes its step.** -/
theorem replaceSnapshot_before (h : ∀ e ∈ entries ++ [entry], Images snaps repoID e)
    (hnew : entry.id ∉ entries.map JoinEntry.id) :
    replaceSnapshot entry.before.1 (replaced JoinEntry.after (entries ++ [entry]) snaps) =
      replaced JoinEntry.after entries snaps := by
  have he := h entry (List.mem_append_right _ (List.mem_singleton_self _))
  have hpre : ∀ e ∈ entries, Images snaps repoID e := fun e hmem =>
    h e (List.mem_append_left _ hmem)
  rw [replaced, List.foldl_append, List.foldl_cons, List.foldl_nil, replaceSnapshot,
    replaceSnapshot, List.map_map]
  conv_rhs => rw [← List.map_id (replaced JoinEntry.after entries snaps)]
  refine List.map_congr_left fun s hs => ?_
  simp only [Function.comp_apply, he.after_id, he.before_id, id_eq]
  by_cases hid : s.id = entry.id
  · -- the entry is still at its before image, since no earlier entry names it
    have hmem := mem_replaced_of_ne hpre hs (hid ▸ hnew)
    rw [if_pos hid, if_pos he.after_id, he.current s hmem hid]
  · rw [if_neg hid, if_neg hid]

/-- An accepted order has valid after images. -/
theorem after_of_loadBefore {start : List Snapshot}
    (h : loadBefore repoID entries candidate = .ok start) : ∀ e ∈ entries,
      validateJoinSnapshot e.after e.id repoID = .ok e.after.1 := by
  induction entries generalizing candidate with
  | nil => exact fun e he => by cases he
  | cons entry entries ih =>
      simp only [loadBefore, bind_eq_ok, exists_unit_iff] at h
      obtain ⟨-, before, -, after, hafter, hrest⟩ := h
      intro e he
      rcases List.mem_cons.1 he with rfl | he
      · rwa [(validateJoinSnapshot_eq_ok.1 hafter).2.2.2]
      · exact ih hrest e he

/-- The order check validates every image after the join. -/
theorem after_of_order (h : validateJoinTransitionOrder snaps entries repoID = .ok ()) :
    ∀ e ∈ entries, validateJoinSnapshot e.after e.id repoID = .ok e.after.1 := by
  simp only [validateJoinTransitionOrder, bind_eq_ok] at h
  obtain ⟨start, hstart, -⟩ := h
  exact after_of_loadBefore hstart

/-- The walk forward passes when no stage has a cycle. -/
theorem walkImages_forward {image : JoinEntry → SnapshotFile} {format : String}
    (h : ∀ pre, pre <+: entries → snapshotGraphHasCycle (replaced image pre candidate) = false) :
    walkImages image format entries candidate = .ok (replaced image entries candidate) := by
  induction entries generalizing candidate with
  | nil => rfl
  | cons entry entries ih =>
      have hfirst : snapshotGraphHasCycle (replaceSnapshot (image entry).1 candidate) = false :=
        h [entry] ⟨entries, rfl⟩
      rw [walkImages, refuse_of_not (by simp [hfirst]), ok_bind]
      exact ih fun pre hpre => h (entry :: pre) (List.cons_prefix_cons.2 ⟨rfl, hpre⟩)

/-- **The walk back passes the same stages**, in the opposite order. -/
theorem walkImages_back {format : String}
    (himg : ∀ entry ∈ entries, Images snaps repoID entry)
    (hn : (entries.map JoinEntry.id).Nodup)
    (h : ∀ pre, pre <+: entries →
      snapshotGraphHasCycle (replaced JoinEntry.after pre snaps) = false) :
    walkImages JoinEntry.before format entries.reverse (replaced JoinEntry.after entries snaps) =
      .ok snaps := by
  induction entries using List.reverseRecOn with
  | nil => rfl
  | append_singleton entries entry ih =>
      have hn' := hn
      rw [List.map_append, List.nodup_append] at hn'
      have hnew : entry.id ∉ entries.map JoinEntry.id := fun hmem =>
        hn'.2.2 _ hmem _ (List.mem_singleton_self _) rfl
      have hstep : snapshotGraphHasCycle (replaced JoinEntry.after entries snaps) = false :=
        h entries (List.prefix_append _ _)
      rw [List.reverse_append, List.reverse_singleton, List.singleton_append, walkImages,
        replaceSnapshot_before himg hnew, refuse_of_not (by simp [hstep]), ok_bind]
      exact ih (fun e he => himg e (List.mem_append_left _ he)) hn'.1
        fun pre hpre => h pre (hpre.trans (List.prefix_append _ _))

/-- **The order is accepted when no prefix of the after images closes a cycle.** -/
theorem validateJoinTransitionOrder_of_prefixes
    (himg : ∀ entry ∈ entries, Images snaps repoID entry)
    (hn : (entries.map JoinEntry.id).Nodup)
    (h : ∀ pre, pre <+: entries →
      snapshotGraphHasCycle (replaced JoinEntry.after pre snaps) = false) :
    validateJoinTransitionOrder snaps entries repoID = .ok () := by
  have hstart : snapshotGraphHasCycle snaps = false := h [] List.nil_prefix
  rw [validateJoinTransitionOrder,
    loadBefore_eq_replaced (fun e he => (himg e he).stored) himg, ok_bind, replaced_before himg,
    refuse_of_not (by simp [hstart]), ok_bind, walkImages_forward h, ok_bind,
    walkImages_back himg hn h, ok_bind]

end Images

/-! ### The entries of a plan -/

section Entries

variable {r : Repo} {snaps : List Snapshot} {patches : List GraftPatch}
  {entries : List JoinEntry}

/-- Reading a snapshot and encoding it gives the stored image. -/
theorem encodeSnapshot_of_getSnapshot
    (h : r.getSnapshot id = .ok snap) : (encodeSnapshot snap).1 = snap := by
  obtain ⟨-, -, ⟨file, -, rfl⟩, -⟩ := Repo.getSnapshot_eq_ok.1 h
  rw [encodeSnapshot_val]

/-- A patched snapshot is grafted to the parents of its patch. -/
theorem list_graftedBy {patch : GraftPatch} {p : ContentHash}
    (hp : p ∈ (encodeSnapshot (graftedBy patch snap)).1.graftParents.list) :
    p ∈ patch.parents := by
  have hlist : (encodeSnapshot (graftedBy patch snap)).1.graftParents.list =
      freshFrom ("" :: snap.id :: snap.parents.list) patch.parents := list_omitSlice _
  rw [hlist, mem_freshFrom] at hp
  exact hp.1

/-- A stored snapshot with another register: an empty register is encoded as nil, and nothing
else changes. -/
theorem encodeSnapshot_register
    (h : r.getSnapshot id = .ok snap) (grafts : Slice ContentHash) (grafted : Bool) (seq : ℕ) :
    (encodeSnapshot { snap with graftParents := grafts, grafted := grafted,
                                graftSeq := seq }).1 =
      { snap with graftParents := omitSlice grafts, grafted := grafted, graftSeq := seq } := by
  have hbefore := encodeSnapshot_of_getSnapshot h
  have hbranches : omitSlice snap.branches = snap.branches := congrArg Snapshot.branches hbefore
  have hmodels : omitSlice snap.models = snap.models := congrArg Snapshot.models hbefore
  simp only [encodeSnapshot, omitEmpty, hbranches, hmodels]

/-- The image that is written for a patch. -/
theorem encodeSnapshot_graftedBy
    (h : r.getSnapshot id = .ok snap) (patch : GraftPatch) :
    (encodeSnapshot (graftedBy patch snap)).1 =
      { snap with
        graftParents := omitSlice (dedupHashParents snap.id snap.parents (some patch.parents))
        grafted := (graftedBy patch snap).grafted
        graftSeq := snap.graftSeq + 1 } :=
  encodeSnapshot_register h _ _ _

/-- The images that `ApplyJoin` prepares are valid. -/
theorem images_of_joinEntry (hlist : r.listSnapshots = .ok snaps) {patch : GraftPatch}
    (hvalid : validatePatch patch = .ok ()) {entry : JoinEntry}
    (h : r.joinEntry patch = .ok entry) : Images snaps r.id entry := by
  obtain ⟨snap, hsnap, -, hmax, rfl⟩ := Repo.joinEntry_eq_ok.1 h
  obtain ⟨-, -, -, hrefs, hrepo, hid⟩ := Repo.getSnapshot_eq_ok.1 hsnap
  have hbefore := encodeSnapshot_of_getSnapshot hsnap
  have hmem : snap ∈ snaps := (Repo.mem_listSnapshots hlist).2 (by rw [hid, hsnap])
  have hseq := (validateSnapshotRefs_eq_ok hrefs).2.2.2
  simp only [validatePatch, bind_eq_ok, exists_unit_iff, validateContentHash_eq_ok,
    checkAll_eq_ok] at hvalid
  refine ⟨List.mem_map.2 ⟨snap, hmem, hid⟩, ?_, ?_, fun s hs hsid => ?_⟩
  · rw [validateJoinSnapshot_eq_ok, hbefore]
    exact ⟨hid, hrepo, hrefs, rfl⟩
  · refine validateJoinSnapshot_eq_ok.2 ⟨hid, hrepo, ?_, rfl⟩
    have hgrafts : ∀ p ∈ (encodeSnapshot (graftedBy patch snap)).1.graftParents.list,
        validContentHash p = true := fun p hp => hvalid.2 p (list_graftedBy hp)
    rw [encodeSnapshot_graftedBy hsnap] at hgrafts ⊢
    exact validateSnapshotRefs_graft hrefs hgrafts (by omega)
  · have hread := (Repo.mem_listSnapshots hlist).1 hs
    rw [hsid, hsnap, Except.ok.injEq] at hread
    exact hread.symm.trans hbefore.symm

/-- There is one entry for each patch. -/
theorem ids_of_joinEntries (h : readAll r.joinEntry patches = .ok entries) :
    entries.map JoinEntry.id = patches.map GraftPatch.snapshotID := by
  rw [readAll_eq_ok] at h
  induction h with
  | nil => rfl
  | cons he _ ih =>
      obtain ⟨snap, -, -, -, rfl⟩ := Repo.joinEntry_eq_ok.1 he
      rw [List.map_cons, List.map_cons, ih]

/-- **The after images have no edge that the patches do not have.**  `dedupHashParents` may
drop an edge of a patch; it adds none. -/
theorem parent_replaced (hlist : r.listSnapshots = .ok snaps)
    (hn : (patches.map GraftPatch.snapshotID).Nodup)
    (h : readAll r.joinEntry patches = .ok entries) {a b : ContentHash}
    (hab : Parent (replaced JoinEntry.after entries snaps) a b) :
    Parent (applyPatches snaps patches) a b := by
  have hids := ids_of_joinEntries h
  have himg : ∀ e ∈ entries, e.after.1.id = e.id := by
    intro e he
    obtain ⟨patch, -, hpe⟩ := exists_of_mem_readAll h e he
    obtain ⟨snap, hsnap, -, -, rfl⟩ := Repo.joinEntry_eq_ok.1 hpe
    exact (Repo.getSnapshot_eq_ok.1 hsnap).2.2.2.2.2
  obtain ⟨t, ht, hb⟩ := mem_parentsOf.1 hab
  rw [byID_replaced, Option.map_eq_some_iff] at ht
  obtain ⟨s, hs, rfl⟩ := ht
  refine mem_parentsOf.2 ⟨patches.foldl patchSnapshot s, ?_, ?_⟩
  · rw [byID_applyPatches, hs, Option.map_some]
  · rw [foldl_patchSnapshot_parents]
    by_cases hmem : s.id ∈ patches.map GraftPatch.snapshotID
    · obtain ⟨patch, hpatch, hpid⟩ := List.mem_map.1 hmem
      obtain ⟨entry, hentry, hpe⟩ := exists_mem_of_readAll h patch hpatch
      obtain ⟨snap, hsnap, -, -, rfl⟩ := Repo.joinEntry_eq_ok.1 hpe
      have hread := (Repo.mem_listSnapshots hlist).1 (byID_eq_some hs).1
      rw [← hpid, hsnap, Except.ok.injEq] at hread
      subst hread
      rw [foldl_place_of_mem himg (hids ▸ hn) hentry hpid.symm] at hb
      rw [foldl_patchSnapshot_of_mem hn hpatch hpid]
      exact hb.imp_right list_graftedBy
    · rw [foldl_place_of_notMem himg (hids ▸ hmem)] at hb
      rwa [foldl_patchSnapshot_of_notMem hmem]

end Entries

/-! ### Plans and cycles -/

/-- **When the patches of a plan keep the graph acyclic.**  After every prefix of the patches
the graph is acyclic, the order of the entries prepared from the same snapshots is accepted,
and so is the graph after the plan, exactly when the lane is clear. -/
theorem planJoin_acyclic_iff {digest : JoinScope → ContentHash} {graph : JoinGraph}
    {req : JoinRequest} {plan : JoinPlan} (hplan : planJoin digest graph req = .ok plan)
    (hstored : StoredGraph graph) (hdag : Acyclic (Parent graph.snapshots)) :
    ((∀ k, Acyclic (Parent (applyPatches graph.snapshots (plan.grafts.take k)))) ∧
      (∀ (r : Repo) entries, r.listSnapshots = .ok graph.snapshots →
        readAll r.joinEntry plan.grafts = .ok entries →
        validateJoinTransitionOrder graph.snapshots entries r.id = .ok ()) ∧
      validateAcyclicAncestry (plan.afterSnapshots graph.snapshots) = .ok ()) ↔
    LaneClear graph req := by
  obtain ⟨snapX, head, segment, superseded, h, rfl⟩ := planJoin_eq_ok hplan
  have hids : ∀ s ∈ graph.snapshots, s.id ≠ "" := fun s hs =>
    ne_empty_of_validContentHash (validateSnapshotRefs_eq_ok (hstored.snapshots s hs)).1
  rw [← h.acyclic_iff digest hids hdag]
  refine ⟨fun hall => hall.1, fun hpre => ⟨hpre, ?_, ?_⟩⟩
  · intro r entries hlist hentries
    have hn := h.grafts_nodup digest
    refine validateJoinTransitionOrder_of_prefixes ?_ (ids_of_joinEntries hentries ▸ hn) ?_
    · intro entry he
      obtain ⟨patch, hpatch, hpe⟩ := exists_of_mem_readAll hentries entry he
      exact images_of_joinEntry hlist (h.patches_valid digest hstored hpatch) hpe
    · -- a prefix of the entries comes from the prefix of the patches of that length
      intro pre hprefix
      rw [List.prefix_iff_eq_take.1 hprefix, snapshotGraphHasCycle_eq_false]
      have htake := readAll_eq_ok.2 (List.forall₂_take pre.length (readAll_eq_ok.1 hentries))
      refine (hpre pre.length).mono fun a b hab => parent_replaced hlist ?_ htake hab
      exact ((List.take_sublist _ _).map _).nodup hn
  · have hafter := hpre (buildPlan digest graph req snapX head segment superseded).grafts.length
    rw [List.take_length] at hafter
    refine (validateAcyclicAncestry_eq_ok ?_).2 hafter
    rw [JoinPlan.afterSnapshots, applyPatches_map_id]
    exact h.ids_nodup

/-- `main` at `a` over `b`; `a` has a graft to `c`, whose second parent is the lane `1`. -/
def detourRepo : Repo :=
  { id := digitHash '0'
    snapshots :=
      { entries := [digitSnapshot 'b' [] [], digitSnapshot '1' ['b'] [],
          digitSnapshot 'c' ['b', '1'] [], digitSnapshot 'a' ['b'] ['c']].map
            fun s => (s.id, encodeSnapshot s)
        nodup := by decide +kernel }
    head := none
    heads := { entries := [("main", .target (digitHash 'a'))], nodup := by decide }
    sessions := .empty
    tags := .empty
    protocol := none
    reflog := mainLog
    journal := none }

/-- The graph that the store lists for `detourRepo`. -/
def detourGraph : JoinGraph :=
  { snapshots := detourRepo.snapshots.entries.map fun e => e.2.1
    refs := [mainRef 'a']
    memberships := projectSnapshotBranchMemberships
      (detourRepo.snapshots.entries.map fun e => e.2.1) mainLog }

/-- The plan for `1`: no register is superseded, and `1` takes `a`. -/
def detourPlan : JoinPlan :=
  { scopeRevision := "", repoID := digitHash '0', branch := "main", branchID := ""
    source := digitHash '1', segment := [digitHash '1'], expectedHead := digitHash 'a'
    newHead := digitHash '1', remainingTip := ""
    grafts := [{ snapshotID := digitHash '1', expectedSeq := 0, parents := [digitHash 'a'] }] }

/-- The plan of the sample. -/
theorem detourGraph_plan : planJoin (fun _ => "") detourGraph laneRequest = .ok detourPlan := by
  decide +kernel

/-- The sample is a graph that a store can hold. -/
theorem detourGraph_stored : StoredGraph detourGraph :=
  ⟨by decide +kernel, by decide +kernel⟩

/-- No snapshot of the sample is its own ancestor. -/
theorem detourGraph_acyclic : Acyclic (Parent detourGraph.snapshots) :=
  snapshotGraphHasCycle_eq_false.1 (by decide +kernel)

/-- The plan for `1` closes the cycle `1`, `a`, `c`, `1`, and the store refuses it. -/
theorem planJoin_cycle_detour :
    detourRepo.listSnapshots = .ok detourGraph.snapshots ∧
    detourRepo.listRefs = .ok detourGraph.refs ∧
    Acyclic (Parent detourGraph.snapshots) ∧
    planJoin (fun _ => "") detourGraph laneRequest = .ok detourPlan ∧
    ¬ Acyclic (Parent (applyPatches detourGraph.snapshots (detourPlan.grafts.take 1))) ∧
    (readAll detourRepo.joinEntry detourPlan.grafts >>= fun entries =>
      validateJoinTransitionOrder detourGraph.snapshots entries detourRepo.id) =
      .error (conflict "join patch order creates an intermediate reachability cycle at %s"
        [digitHash '1']) ∧
    validateAcyclicAncestry (detourPlan.afterSnapshots detourGraph.snapshots) =
      .error { sentinel := .integrity, format := "cyclic graph ancestry" } := by
  refine ⟨by decide +kernel, by decide +kernel, detourGraph_acyclic, detourGraph_plan, ?_,
    by decide +kernel, by decide +kernel⟩
  rw [← snapshotGraphHasCycle_eq_false, Bool.not_eq_false]
  decide +kernel

/-- The plan of `detourGraph` meets the hypotheses, and its lane is not clear. -/
theorem planJoin_acyclic_iff_detour : ¬ LaneClear detourGraph laneRequest := by
  intro hclear
  have hall := (planJoin_acyclic_iff detourGraph_plan detourGraph_stored
    detourGraph_acyclic).2 hclear
  exact absurd hall.2.2 (by decide +kernel)

end Backend
end CxtHub
