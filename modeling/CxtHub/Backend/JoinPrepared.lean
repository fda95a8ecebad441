/-
# A prepared join

`Prepared` is what the checks of `ApplyJoin` establish before its first write, and
`Between` the states that a stop can leave while the files are moved: each patched
snapshot at one of its two images, the branch at one of its two heads, the residual
session ref there or not, everything else as before.

`Between.pendingJoin` is the heart of recovery: in each such state the journal passes
all three validations.  The conditions `Recoverable` are needed for it, and `ApplyJoin`
does not check them.
-/

import CxtHub.Backend.JoinOrder
import CxtHub.Backend.JoinRecovery
import CxtHub.Backend.RefReads

namespace CxtHub
namespace Backend

/-- What `ApplyJoin` has checked when it writes its journal. -/
structure Prepared (m : JoinMutation) (r : Repo) (j : JoinJournal) : Prop where
  version : j.version = 1
  phase : j.phase = .prepared
  repo : j.repoID = r.id
  branchEq : j.branch = m.branch
  newEq : j.newHead = m.newHead
  created : j.createdAt ≠ 0
  idle : r.journal = none
  repoValid : validContentHash r.id = true
  headValid : validContentHash j.expectedHead = true
  newValid : validContentHash j.newHead = true
  branchValid : validBranchName j.branch = true
  current : ∃ cur, r.getRef .branch j.branch = .ok cur ∧ cur.target = j.expectedHead ∧
    cur.branchID = j.branchID
  forkPair : j.forkName = "" ↔ j.forkTip = ""
  forkValid : j.forkName ≠ "" →
    validBranchName j.forkName = true ∧ validContentHash j.forkTip = true
  fork : r.forkState j.forkName j.forkTip = .ok j.forkExisted
  nonempty : m.grafts ≠ []
  distinct : (m.grafts.map GraftPatch.snapshotID).Nodup
  patches : ∀ p ∈ m.grafts, validatePatch p = .ok ()
  entries : readAll r.joinEntry m.grafts = .ok j.snapshots
  stored : ∀ id ∈ [j.expectedHead, j.newHead, j.forkTip] ++ m.grafts.flatMap GraftPatch.parents,
    id ≠ "" → ∃ s, r.getSnapshot id = .ok s
  ordered : ∃ all, r.listSnapshots = .ok all ∧
    validateJoinTransitionOrder all j.snapshots r.id = .ok ()
  refs : ∃ refs, r.listRefsRaw = .ok refs

/-- The snapshots that have to be stored are. -/
theorem Repo.requireSnapshots_eq_ok {r : Repo} {ids : List ContentHash} {u : Unit} :
    r.requireSnapshots ids = .ok u ↔
      ∀ id ∈ ids, id ≠ "" → ∃ s, r.getSnapshot id = .ok s := by
  rw [Repo.requireSnapshots, checkAll_eq_ok]
  refine forall_congr' fun id => imp_congr_right fun _ => ?_
  by_cases hid : id = ""
  · simp [hid]
  · simp only [hid, if_false, ne_eq, not_false_eq_true, true_imp_iff]
    cases r.getSnapshot id with
    | ok s => simp
    | error e => by_cases he : e.sentinel = .notFound <;> simp [he]

/-- The branch is where it is expected. -/
theorem Repo.expectBranch_eq_ok {r : Repo} {branch : String} {head : ContentHash} {cur : Ref} :
    r.expectBranch branch head = .ok cur ↔
      r.getRef .branch branch = .ok cur ∧ cur.target = head := by
  unfold Repo.expectBranch
  cases r.getRef .branch branch with
  | error e => simp
  | ok ref =>
      simp only [bind_eq_ok, exists_unit_iff, refuse_eq_ok, ne_eq, not_not, Except.ok.injEq]
      constructor
      · rintro ⟨htarget, rfl⟩
        exact ⟨rfl, htarget⟩
      · rintro ⟨rfl, htarget⟩
        exact ⟨htarget, rfl⟩

/-- What a valid mutation satisfies, as far as the journal depends on it. -/
theorem validateJoinMutation_eq_ok {m : JoinMutation} (h : validateJoinMutation m = .ok ()) :
    (validContentHash m.expectedHead = true ∧ validContentHash m.newHead = true) ∧
      validBranchName m.branch = true ∧ (m.forkName = "" ↔ m.forkTip = "") ∧
      (m.forkName ≠ "" → validBranchName m.forkName = true ∧
        validContentHash m.forkTip = true) ∧
      m.grafts ≠ [] ∧ (m.grafts.map GraftPatch.snapshotID).Nodup ∧
      ∀ p ∈ m.grafts, validatePatch p = .ok () := by
  simp only [validateJoinMutation, bind_eq_ok, exists_unit_iff, checkAll_eq_ok, refuse_eq_ok,
    checkFresh_eq_ok, validateContentHash_eq_ok, validateBranchName_eq_ok, List.mem_cons,
    List.not_mem_nil, or_false, forall_eq_or_imp, forall_eq, ne_eq, not_not,
    decide_eq_decide] at h
  obtain ⟨⟨-, -, hhead, hnew⟩, -, -, -, hbranch, hpair, hfork, hne, ⟨hpatch, hn, -⟩, -⟩ := h
  refine ⟨⟨hhead, hnew⟩, hbranch, hpair, fun hname => ?_, fun hnil => ?_, hn, hpatch⟩
  · simp only [validateJoinFork, hname, if_false, bind_eq_ok, exists_unit_iff,
      validateBranchName_eq_ok, validateContentHash_eq_ok] at hfork
    exact ⟨hfork.1, hfork.2.1⟩
  · exact hne (by rw [hnil, List.length_nil])

/-- **The journal of a join is prepared.** -/
theorem Repo.prepared_of_prepareJoin {digest : JoinScope → ContentHash}
    {contextWrite : Repo → Ref → Except DomainError Unit} {m : JoinMutation} {now : ℕ} {r : Repo}
    {j : JoinJournal} (hrepo : m.repoID = r.id) (hnow : now ≠ 0)
    (h : r.prepareJoin digest contextWrite m now = .ok j) : Prepared m r j := by
  simp only [Repo.prepareJoin, bind_eq_ok, exists_unit_iff, refuse_eq_ok,
    Repo.expectBranch_eq_ok, Repo.requireSnapshots_eq_ok, Except.ok.injEq] at h
  obtain ⟨hm, hidle, cur, ⟨hcur, htarget⟩, -, hstored, hscope, entries, hentries, all, hall,
    horder, existed, hfork, rfl⟩ := h
  obtain ⟨⟨hhead, hnew⟩, hbranch, hpair, hforkv, hne, hn, hpatch⟩ :=
    validateJoinMutation_eq_ok hm
  have hrefs : ∃ refs, r.listRefsRaw = .ok refs := by
    have hlen : ¬ m.grafts.length = 0 := fun h0 => hne (List.length_eq_zero_iff.1 h0)
    simp only [Repo.ensureJoinGraphScope, hlen, if_false, bind_eq_ok, Repo.listRefs] at hscope
    obtain ⟨-, -, -, ⟨refs, hrefs, -⟩, -⟩ := hscope
    exact ⟨refs, hrefs⟩
  have hraw := (Repo.getRef_branch.1 hcur).1
  exact {
    version := rfl
    phase := rfl
    repo := hrepo
    branchEq := rfl
    newEq := rfl
    created := hnow
    idle := by simpa using hidle
    repoValid := (Repo.getRefRaw_branch.1 hraw).1
    headValid := hhead
    newValid := hnew
    branchValid := hbranch
    current := ⟨cur, hcur, htarget, rfl⟩
    forkPair := hpair
    forkValid := hforkv
    fork := hfork
    nonempty := hne
    distinct := hn
    patches := hpatch
    entries := hentries
    stored := fun id hid => by
      refine hstored id ?_
      simp only [JoinMutation.required, List.mem_append, List.mem_cons, List.not_mem_nil,
        or_false, List.mem_flatMap] at hid ⊢
      rcases hid with hid | ⟨p, hp, hid⟩
      · exact Or.inl (Or.inl (Or.inr hid))
      · exact Or.inr ⟨p, hp, Or.inr hid⟩
    ordered := ⟨all, hall, hrepo ▸ horder⟩
    refs := hrefs }

/-! ### Between before and after -/

/-- A state between the two sides of a join, as far as recovery validates it. -/
structure Between (r : Repo) (j : JoinJournal) (c : Repo) : Prop where
  id : c.id = r.id
  head : c.head = r.head
  tags : c.tags = r.tags
  protocol : c.protocol = r.protocol
  keys : c.snapshots.keys = r.snapshots.keys
  images : ∀ k, c.snapshots.get k = r.snapshots.get k ∨
    ∃ e ∈ j.snapshots, e.id = k ∧ c.snapshots.get k = some e.after
  heads : c.heads = r.heads ∨ c.heads = r.heads.set j.branch (j.branchFile j.newHead)
  sessions : c.sessions = r.sessions ∨
    (j.forkName ≠ "" ∧ c.sessions = r.sessions.set j.forkName j.forkTip)

/-- What recovery needs of a repository and a mutation, and `ApplyJoin` does not check: no
patch empties its register, no archive event hides the branch at its new head, and the branch
file is the one `encodeRef` writes. -/
structure Recoverable (m : JoinMutation) (r : Repo) : Prop where
  grafts : ∀ p ∈ m.grafts, ∀ s, r.getSnapshot p.snapshotID = .ok s →
    (dedupHashParents s.id s.parents (some p.parents)).list ≠ []
  shown : r.contextProtocol = .ok 1 ∨ ∀ refs states, r.listRefsRaw = .ok refs →
    branchLifecycleStates refs = .ok states → hides (states m.branch) m.newHead = false
  canonical : ∀ cur, r.getRefRaw .branch m.branch = .ok cur →
    r.heads.get m.branch = some (encodeRef
      { branchID := cur.branchID, kind := .branch, name := m.branch, repoID := r.id,
        target := cur.target })

variable {m : JoinMutation} {r c : Repo} {j : JoinJournal}

/-! ### The journal by itself -/

/-- The branch ref of the journal at a head. -/
def JoinJournal.branchRefAt (j : JoinJournal) (target : ContentHash) : Ref :=
  { branchID := j.branchID, kind := .branch, name := j.branch, repoID := j.repoID,
    target := target }

/-- A prepared entry is accepted exactly when its register is not emptied: the empty register
reads back as nil, which `reflect.DeepEqual` tells from what `dedupHashParents` returns. -/
theorem validateTransition_iff {patch : GraftPatch} {snap : Snapshot} {e : JoinEntry}
    (hsnap : r.getSnapshot patch.snapshotID = .ok snap) (hmax : snap.graftSeq ≠ maxGraftSeq)
    (he : { id := patch.snapshotID, before := encodeSnapshot snap,
            after := encodeSnapshot (graftedBy patch snap) } = e)
    (hafter : validateJoinSnapshot e.after e.id r.id = .ok e.after.1) :
    validateTransition snap e r.id = .ok () ↔
      (dedupHashParents snap.id snap.parents (some patch.parents)).list ≠ [] := by
  subst he
  have henc := encodeSnapshot_graftedBy hsnap patch
  rw [validateTransition, hafter]
  rw [henc]
  simp only [bind_eq_ok, exists_unit_iff, refuse_eq_ok, not_or, not_not, ne_eq, hmax,
    not_false_eq_true, true_and, dedupHashParents, list_omitSlice, Slice.list_some,
    freshFrom_freshFrom]
  unfold omitSlice
  split_ifs with hlen
  · simpa using hlen
  · simpa using hlen

section Prepared

variable (h : Prepared m r j)

include h

/-- Each entry holds the images before and after its patch. -/
theorem Prepared.images {all : List Snapshot}
    (hall : r.listSnapshots = .ok all) : ∀ e ∈ j.snapshots, Images all r.id e := by
  intro e he
  obtain ⟨patch, hpatch, hpe⟩ := exists_of_mem_readAll h.entries e he
  exact images_of_joinEntry hall (h.patches patch hpatch) hpe

/-- No snapshot has two entries. -/
theorem Prepared.entries_nodup : (j.snapshots.map JoinEntry.id).Nodup := by
  rw [ids_of_joinEntries h.entries]
  exact h.distinct

/-- The before image of an entry is what its file holds. -/
theorem Prepared.get_before {e : JoinEntry} (he : e ∈ j.snapshots) :
    r.snapshots.get e.id = some e.before := by
  obtain ⟨patch, -, hpe⟩ := exists_of_mem_readAll h.entries e he
  obtain ⟨snap, hsnap, -, -, rfl⟩ := Repo.joinEntry_eq_ok.1 hpe
  obtain ⟨-, -, ⟨file, hfile, rfl⟩, -⟩ := Repo.getSnapshot_eq_ok.1 hsnap
  rw [encodeSnapshot_val]
  exact hfile

/-- The branch at a content hash is a valid ref. -/
theorem validateRef_branchRefAt {t : ContentHash}
    (ht : validContentHash t = true) : validateRef (j.branchRefAt t) = .ok () := by
  obtain ⟨cur, hcur, -, hid⟩ := h.current
  obtain ⟨-, -, file, -, hfile⟩ := Repo.getRefRaw_branch.1 (Repo.getRef_branch.1 hcur).1
  obtain ⟨hkind, -, -, hvalid⟩ := Repo.branchRef_eq_ok hfile
  obtain ⟨hbranchID, -⟩ := (validateRef_eq_ok (by rw [hkind]; decide)).1 hvalid
  refine (validateRef_eq_ok (by change RefKind.branch ≠ .head; decide)).2 ⟨?_, ?_, ?_, ht⟩
  · change ¬ badBranchID j.branchID
    rwa [← hid]
  · change validContentHash j.repoID = true
    rw [h.repo]
    exact h.repoValid
  · exact validateBranchName_eq_ok.2 h.branchValid

/-- Reading the branch file that a join writes. -/
theorem branchRef_branchFile (hid : c.id = r.id) {t : ContentHash}
    (ht : validContentHash t = true) :
    c.branchRef j.branch (j.branchFile t) = .ok (j.branchRefAt t) := by
  have hv := validateRef_branchRefAt h ht
  have hrepo : j.repoID = c.id := h.repo.trans hid.symm
  unfold JoinJournal.branchFile encodeRef
  by_cases hb : j.branchID = ""
  · have href : j.branchRefAt t =
        { kind := .branch, name := j.branch, repoID := c.id, target := t } := by
      rw [JoinJournal.branchRefAt, hb, hrepo]
    rw [if_neg (by simp [hb]), Repo.branchRef, Repo.plainRef, ← href, hv, ok_bind]
  · rw [if_pos ⟨rfl, hb⟩, Repo.branchRef,
      refuse_of_not (by simp only [ne_eq, hrepo, not_true_eq_false, or_self, not_false_eq_true]),
      ok_bind]
    change (validateRef (j.branchRefAt t) >>= fun _ => .ok (j.branchRefAt t)) = _
    rw [hv, ok_bind]

/-- A fork that was there has a name. -/
theorem Prepared.existed_name (hex : j.forkExisted = true) :
    j.forkName ≠ "" := by
  intro hname
  have hfork := h.fork
  rw [Repo.forkState, if_pos hname, hex] at hfork
  cases hfork

/-- The header of a prepared journal is valid. -/
theorem Prepared.header : validateJournalHeader j r.id = .ok () := by
  simp only [validateJournalHeader, bind_eq_ok, exists_unit_iff, refuse_eq_ok, not_or, not_and,
    Bool.not_eq_false, ne_eq, not_not, decide_eq_decide]
  refine ⟨h.version, ⟨h.repo.symm ▸ h.repoValid, h.headValid, h.newValid, h.repo, h.branchValid,
    h.created⟩, validateRef_branchRefAt h h.newValid, ⟨h.forkPair, h.existed_name⟩, h.forkValid⟩

/-- **A prepared journal is valid exactly when no patch empties its register.** -/
theorem Prepared.validateFSJoinJournal_iff :
    validateFSJoinJournal j r.id = .ok () ↔ ∀ p ∈ m.grafts, ∀ s,
      r.getSnapshot p.snapshotID = .ok s →
        (dedupHashParents s.id s.parents (some p.parents)).list ≠ [] := by
  obtain ⟨all, hall, -⟩ := h.ordered
  have hlen : ¬ j.snapshots.length = 0 := by
    intro h0
    have hids := ids_of_joinEntries h.entries
    rw [List.length_eq_zero_iff.1 h0] at hids
    exact h.nonempty (List.map_eq_nil_iff.1 hids.symm)
  rw [validateFSJoinJournal, h.header, ok_bind, refuse_of_not hlen, ok_bind, h.repo,
    validateJournalEntries_eq_ok]
  constructor
  · rintro ⟨hentries, -⟩ p hp s hs
    obtain ⟨e, he, hpe⟩ := exists_mem_of_readAll h.entries p hp
    obtain ⟨snap, hsnap, -, hmax, heq⟩ := Repo.joinEntry_eq_ok.1 hpe
    rw [hsnap, Except.ok.injEq] at hs
    subst hs
    obtain ⟨-, before, hbefore, htrans⟩ := hentries e he
    have himg := h.images hall e he
    rw [himg.before, Except.ok.injEq] at hbefore
    have hsb : e.before.1 = snap := by rw [← heq]; exact encodeSnapshot_of_getSnapshot hsnap
    rw [← hbefore, hsb] at htrans
    exact (validateTransition_iff hsnap hmax heq himg.after).1 htrans
  · intro hgrafts
    refine ⟨fun e he => ?_, h.entries_nodup, fun _ _ => List.not_mem_nil⟩
    obtain ⟨p, hp, hpe⟩ := exists_of_mem_readAll h.entries e he
    obtain ⟨snap, hsnap, -, hmax, heq⟩ := Repo.joinEntry_eq_ok.1 hpe
    have himg := h.images hall e he
    have hsb : e.before.1 = snap := by rw [← heq]; exact encodeSnapshot_of_getSnapshot hsnap
    refine ⟨?_, snap, hsb ▸ himg.before,
      (validateTransition_iff hsnap hmax heq himg.after).2 (hgrafts p hp snap hsnap)⟩
    rw [← heq]
    exact (Repo.getSnapshot_eq_ok.1 hsnap).2.1

/-- What the residual session file was before the join. -/
theorem Prepared.fork_get (hne : j.forkName ≠ "") :
    (j.forkExisted = true ∧ r.sessions.get j.forkName = some j.forkTip) ∨
    (j.forkExisted = false ∧ r.sessions.get j.forkName = none) := by
  obtain ⟨hvn, -⟩ := h.forkValid hne
  have hfork := h.fork
  rw [Repo.forkState, if_neg hne] at hfork
  cases hget : r.sessions.get j.forkName with
  | none =>
      rw [Repo.getRef_session_none h.repoValid hvn hget] at hfork
      have hfalse : j.forkExisted = false := (Except.ok.inj hfork).symm
      exact Or.inr ⟨hfalse, rfl⟩
  | some t =>
      -- every ref was listed, so the file that is there is a valid ref
      obtain ⟨refs, hrefs⟩ := h.refs
      obtain ⟨-, -, -, sessions, -, -, -, hsessions, -, -⟩ := Repo.listRefsRaw_eq_ok.1 hrefs
      obtain ⟨ref, -, href⟩ :=
        exists_mem_of_readAll hsessions j.forkName (Dir.mem_keys_iff.2 ⟨t, hget⟩)
      obtain ⟨-, -, t', ht', hplain⟩ := Repo.getRefRaw_session.1 href
      rw [hget, Option.some.injEq] at ht'
      subst ht'
      obtain ⟨hkind, -, htarget, hvalid⟩ := Repo.plainRef_eq_ok hplain
      have hvt := ((validateRef_eq_ok (by rw [hkind]; decide)).1 hvalid).2.2.2
      rw [Repo.getRef_session_some h.repoValid hvn hget (htarget ▸ hvt)] at hfork
      simp only [bind_eq_ok, exists_unit_iff, refuse_eq_ok, ne_eq, not_not,
        Except.ok.injEq] at hfork
      obtain ⟨heq, hex⟩ := hfork
      have heq' : t = j.forkTip := heq
      exact Or.inl ⟨hex.symm, by rw [heq']⟩

end Prepared

/-! ### Snapshots between before and after -/

/-- A snapshot that no entry names reads as before. -/
theorem Between.getSnapshot_other (hc : Between r j c) {k : ContentHash}
    (hk : k ∉ j.snapshots.map JoinEntry.id) : c.getSnapshot k = r.getSnapshot k := by
  have hget : c.snapshots.get k = r.snapshots.get k :=
    (hc.images k).resolve_right fun ⟨e, he, heid, _⟩ => hk (List.mem_map.2 ⟨e, he, heid⟩)
  unfold Repo.getSnapshot
  rw [hget, hc.id]

/-- A ref of another name or kind reads as before. -/
theorem Between.getRefRaw_congr (hc : Between r j c) {kind : RefKind} {name : String}
    (hbranch : kind = .branch → c.heads.get name = r.heads.get name)
    (hsession : kind = .session → c.sessions.get name = r.sessions.get name) :
    c.getRefRaw kind name = r.getRefRaw kind name := by
  have hplain : c.plainRef = r.plainRef := by
    funext kind name t
    simp only [Repo.plainRef, hc.id]
  unfold Repo.getRefRaw
  rw [hc.id]
  cases kind with
  | head =>
      have hhead : c.headRef = r.headRef := by
        funext content
        simp only [Repo.headRef, hplain, hc.id]
      simp only [hc.head, hhead]
  | branch =>
      have hfile : c.branchRef name = r.branchRef name := by
        funext file
        cases file <;> simp only [Repo.branchRef, hplain, hc.id]
      simp only [hbranch rfl, hfile]
  | session => simp only [hsession rfl, hplain]
  | tag => simp only [hc.tags, hplain]

/-- The protocol stays as it is. -/
theorem Between.contextProtocol (hc : Between r j c) :
    c.contextProtocol = r.contextProtocol := by
  rw [Repo.contextProtocol, Repo.contextProtocol, hc.protocol]

section Between

variable (h : Prepared m r j) (hc : Between r j c)

include h hc

/-- A patched snapshot reads as one of its two images. -/
theorem Between.getSnapshot_entry {e : JoinEntry}
    (he : e ∈ j.snapshots) :
    c.getSnapshot e.id = .ok e.before.1 ∨ c.getSnapshot e.id = .ok e.after.1 := by
  obtain ⟨all, hall, -⟩ := h.ordered
  have himg := h.images hall e he
  obtain ⟨hbid, hbrepo, hbrefs, -⟩ := validateJoinSnapshot_eq_ok.1 himg.before
  obtain ⟨haid, harepo, harefs, -⟩ := validateJoinSnapshot_eq_ok.1 himg.after
  have hvalid : validContentHash e.id = true := hbid ▸ (validateSnapshotRefs_eq_ok hbrefs).1
  rw [Repo.getSnapshot_eq_ok, Repo.getSnapshot_eq_ok, hc.id]
  rcases hc.images e.id with hget | ⟨e', he', heid, hget⟩
  · refine Or.inl ⟨h.repoValid, hvalid, ⟨e.before, ?_, rfl⟩, hbrefs, hbrepo, hbid⟩
    rw [hget, h.get_before he]
  · have heq : e' = e := List.inj_on_of_nodup_map h.entries_nodup he' he heid
    subst heq
    exact Or.inr ⟨h.repoValid, hvalid, ⟨e'.after, hget, rfl⟩, harefs, harepo, haid⟩

/-- Every stored snapshot can be read in a state between the two sides. -/
theorem Between.exists_getSnapshot {k : ContentHash}
    (hk : ∃ s, r.getSnapshot k = .ok s) : ∃ s, c.getSnapshot k = .ok s := by
  by_cases hmem : k ∈ j.snapshots.map JoinEntry.id
  · obtain ⟨e, he, rfl⟩ := List.mem_map.1 hmem
    exact (hc.getSnapshot_entry h he).elim (fun hs => ⟨_, hs⟩) fun hs => ⟨_, hs⟩
  · rw [hc.getSnapshot_other hmem]
    exact hk

/-- **The order is accepted again**: the before images give back the listing that `ApplyJoin`
checked. -/
theorem Between.order : ∃ all,
    c.listSnapshots = .ok all ∧
    (∀ k, (∃ s, r.getSnapshot k = .ok s) → k ∈ all.map Snapshot.id) ∧
    (∀ e ∈ j.snapshots, e.id ∈ all.map Snapshot.id) ∧
    validateJoinTransitionOrder all j.snapshots r.id = .ok () := by
  obtain ⟨all, hall, horder⟩ := h.ordered
  have himg := h.images hall
  have hread : readAll r.getSnapshot (r.snapshots.keys.filter validContentHash) = .ok all := by
    simp only [Repo.listSnapshots, bind_eq_ok, exists_unit_iff] at hall
    exact hall.2
  have hbid : ∀ e ∈ j.snapshots, e.before.1.id = e.id := fun e he => (himg e he).before_id
  obtain ⟨all', hread'⟩ : ∃ all',
      readAll c.getSnapshot (r.snapshots.keys.filter validContentHash) = .ok all' :=
    readAll_of_forall fun k hk => by
      obtain ⟨s, -, hs⟩ := exists_mem_of_readAll hread k hk
      exact hc.exists_getSnapshot h ⟨s, hs⟩
  have hlist : c.listSnapshots = .ok all' := by
    have hvalid : validateContentHash r.id = .ok () := validateContentHash_eq_ok.2 h.repoValid
    rw [Repo.listSnapshots, hc.id, hc.keys, hvalid, ok_bind]
    exact hread'
  -- putting the before images back gives the listing of the repository before the join
  have hback : replaced JoinEntry.before j.snapshots all' = all := by
    rw [replaced_eq_map]
    refine map_readAll (fun k _ s' s hs' hs => ?_) hread' hread
    have hid' : s'.id = k := (Repo.getSnapshot_eq_ok.1 hs').2.2.2.2.2
    by_cases hmem : k ∈ j.snapshots.map JoinEntry.id
    · obtain ⟨e, he, rfl⟩ := List.mem_map.1 hmem
      have hsid : s.id = e.id := (Repo.getSnapshot_eq_ok.1 hs).2.2.2.2.2
      have hsall : s ∈ all := (Repo.mem_listSnapshots hall).2 (hsid.symm ▸ hs)
      rw [foldl_place_of_mem hbid h.entries_nodup he hid', (himg e he).current s hsall hsid]
    · rw [hc.getSnapshot_other hmem, hs, Except.ok.injEq] at hs'
      rw [foldl_place_of_notMem hbid (hid'.symm ▸ hmem), hs']
  have hstored : ∀ k, (∃ s, r.getSnapshot k = .ok s) → k ∈ all'.map Snapshot.id := by
    rintro k hk
    obtain ⟨s, hs⟩ := hc.exists_getSnapshot h hk
    have hid : s.id = k := (Repo.getSnapshot_eq_ok.1 hs).2.2.2.2.2
    exact List.mem_map.2 ⟨s, (Repo.mem_listSnapshots hlist).2 (hid.symm ▸ hs), hid⟩
  have hentry : ∀ e ∈ j.snapshots, e.id ∈ all'.map Snapshot.id := by
    intro e he
    obtain ⟨s, hs, hid⟩ := List.mem_map.1 (himg e he).stored
    exact hstored e.id ⟨s, hid ▸ (Repo.mem_listSnapshots hall).1 hs⟩
  refine ⟨all', hlist, hstored, hentry, ?_⟩
  rw [validateJoinTransitionOrder, loadBefore_eq_replaced hentry himg, ok_bind, hback]
  rw [validateJoinTransitionOrder,
    loadBefore_eq_replaced (fun e he => (himg e he).stored) himg, ok_bind,
    replaced_before himg] at horder
  exact horder

/-! ### Refs between before and after -/

/-- The branch file reads as the ref of the old or of the new head. -/
theorem Between.getRefRaw_branch :
    (c.heads = r.heads ∧ c.getRefRaw .branch j.branch = r.getRefRaw .branch j.branch) ∨
    (c.heads = r.heads.set j.branch (j.branchFile j.newHead) ∧
      c.getRefRaw .branch j.branch = .ok (j.branchRefAt j.newHead)) := by
  rcases hc.heads with hheads | hheads
  · exact Or.inl ⟨hheads, hc.getRefRaw_congr (fun _ => by rw [hheads]) fun hk => by cases hk⟩
  · refine Or.inr ⟨hheads, Repo.getRefRaw_branch.2 ⟨?_, h.branchValid, _, ?_,
      branchRef_branchFile h hc.id h.newValid⟩⟩
    · rw [hc.id]
      exact h.repoValid
    · rw [hheads, Dir.get_set_self]

/-- Every ref can be listed, and the lifecycle events are the same. -/
theorem Between.listRefsRaw {refs : List Ref}
    (hrefs : r.listRefsRaw = .ok refs) : ∃ refs', c.listRefsRaw = .ok refs' ∧
      branchLifecycleStates refs' = branchLifecycleStates refs := by
  obtain ⟨tags, htags, hstates⟩ := Repo.states_of_listRefsRaw hrefs
  obtain ⟨hid, head, heads, sessions, -, hhead, hheads, hsessions, -, -⟩ :=
    Repo.listRefsRaw_eq_ok.1 hrefs
  have hhead' : c.listHead = .ok head := by
    rw [← hhead, Repo.listHead, hc.getRefRaw_congr (fun hk => by cases hk) fun hk => by cases hk]
    rfl
  have htags' : readAll (c.getRefRaw .tag) c.tags.keys = .ok tags := by
    have hread : c.getRefRaw .tag = r.getRefRaw .tag := by
      funext name
      exact hc.getRefRaw_congr (fun hk => by cases hk) fun hk => by cases hk
    rw [hread, hc.tags, htags]
  obtain ⟨cur, hcur, -⟩ := h.current
  have hcurRaw := (Repo.getRef_branch.1 hcur).1
  obtain ⟨-, -, file, hfile, -⟩ := Repo.getRefRaw_branch.1 hcurRaw
  obtain ⟨heads', hheads'⟩ : ∃ heads', readAll (c.getRefRaw .branch) c.heads.keys = .ok heads' := by
    refine readAll_of_forall fun name hname => ?_
    by_cases hn : name = j.branch
    · subst hn
      rcases hc.getRefRaw_branch h with ⟨-, hraw⟩ | ⟨-, hraw⟩
      · exact ⟨cur, hraw.trans hcurRaw⟩
      · exact ⟨_, hraw⟩
    · have hget : c.heads.get name = r.heads.get name := by
        rcases hc.heads with hh | hh
        · rw [hh]
        · rw [hh, Dir.get_set_of_ne _ _ hn]
      obtain ⟨f, hf⟩ := Dir.mem_keys_iff.1 hname
      obtain ⟨ref, -, href⟩ := exists_mem_of_readAll hheads name
        (Dir.mem_keys_iff.2 ⟨f, hget ▸ hf⟩)
      exact ⟨ref, (hc.getRefRaw_congr (fun _ => hget) fun hk => by cases hk).trans href⟩
  obtain ⟨sessions', hsessions'⟩ : ∃ sessions',
      readAll (c.getRefRaw .session) c.sessions.keys = .ok sessions' := by
    refine readAll_of_forall fun name hname => ?_
    by_cases hget : c.sessions.get name = r.sessions.get name
    · obtain ⟨t, ht⟩ := Dir.mem_keys_iff.1 hname
      obtain ⟨ref, -, href⟩ := exists_mem_of_readAll hsessions name
        (Dir.mem_keys_iff.2 ⟨t, hget ▸ ht⟩)
      exact ⟨ref, (hc.getRefRaw_congr (fun hk => by cases hk) fun _ => hget).trans href⟩
    · -- the only session file that differs is the residual one
      obtain ⟨hne, hset⟩ := hc.sessions.resolve_left fun hs => hget (by rw [hs])
      have hn : name = j.forkName := by
        by_contra hn
        exact hget (by rw [hset, Dir.get_set_of_ne _ _ hn])
      obtain ⟨hvn, hvt⟩ := h.forkValid hne
      have href := Repo.getRef_session_some (hc.id.symm ▸ hid) hvn
        (by rw [hset, Dir.get_set_self]) hvt
      rw [Repo.getRef, bind_eq_ok] at href
      obtain ⟨ref, hraw, -⟩ := href
      exact ⟨ref, hn ▸ hraw⟩
  have hlist := Repo.listRefsRaw_eq_ok.2 ⟨hc.id.symm ▸ hid, head, heads', sessions', tags, hhead',
    hheads', hsessions', htags', rfl⟩
  refine ⟨_, hlist, ?_⟩
  obtain ⟨tags', htags'', hstates'⟩ := Repo.states_of_listRefsRaw hlist
  rw [htags', Except.ok.injEq] at htags''
  rw [hstates', hstates, htags'']

/-! ### The journal against the repository -/

/-- The graphs of the journal pass their check in every state between. -/
theorem Between.graphs :
    c.validateJoinJournalGraphs j = .ok () := by
  obtain ⟨all, hlist, hstored, hentry, horder⟩ := hc.order h
  obtain ⟨before, hbefore, -⟩ := h.ordered
  simp only [Repo.validateJoinJournalGraphs, hlist, ok_bind, bind_eq_ok, exists_unit_iff,
    checkAll_eq_ok, refuse_eq_ok, not_and, not_not, h.repo, horder, and_true]
  refine ⟨fun id hid hne => hstored id (h.stored id (List.mem_append_left _ hid) hne),
    fun e he => ⟨hentry e he, fun parent hparent => ?_⟩⟩
  obtain ⟨p, hp, hpe⟩ := exists_of_mem_readAll h.entries e he
  obtain ⟨snap, -, -, -, heq⟩ := Repo.joinEntry_eq_ok.1 hpe
  rw [JoinEntry.afterGrafts, (h.images hbefore e he).after] at hparent
  have hmem : parent ∈ p.parents := by
    rw [← heq] at hparent
    exact list_graftedBy hparent
  have hvalid := h.patches p hp
  simp only [validatePatch, bind_eq_ok, exists_unit_iff, validateContentHash_eq_ok,
    checkAll_eq_ok] at hvalid
  refine hstored parent (h.stored parent ?_ (ne_empty_of_validContentHash (hvalid.2 _ hmem)))
  exact List.mem_append_right _ (List.mem_flatMap.2 ⟨p, hp, hmem⟩)

/-- The branch reads as the old or the new head. -/
theorem Between.branch (hrec : Recoverable m r) :
    c.checkBranchProjection j = .ok () := by
  obtain ⟨cur, hcur, htarget, hid⟩ := h.current
  obtain ⟨hraw, hshown⟩ := Repo.getRef_branch.1 hcur
  obtain ⟨ref, hread, hbranchID, hheads⟩ : ∃ ref, c.getRef .branch j.branch = .ok ref ∧
      ref.branchID = j.branchID ∧ (ref.target = j.expectedHead ∨ ref.target = j.newHead) := by
    rcases hc.getRefRaw_branch h with ⟨-, hcraw⟩ | ⟨-, hcraw⟩
    · refine ⟨cur, Repo.getRef_branch.2 ⟨hcraw.trans hraw, ?_⟩, hid, Or.inl htarget⟩
      rw [hc.contextProtocol]
      refine hshown.imp_right fun ⟨hzero, refs, states, hrefs, hstates, hvis⟩ => ?_
      obtain ⟨refs', hrefs', hsame⟩ := hc.listRefsRaw h hrefs
      exact ⟨hzero, refs', states, hrefs', hsame.trans hstates, hvis⟩
    · refine ⟨_, Repo.getRef_branch.2 ⟨hcraw, ?_⟩, rfl, Or.inr rfl⟩
      rw [hc.contextProtocol]
      rcases hshown with hone | ⟨hzero, refs, states, hrefs, hstates, -⟩
      · exact Or.inl hone
      · obtain ⟨refs', hrefs', hsame⟩ := hc.listRefsRaw h hrefs
        refine Or.inr ⟨hzero, refs', states, hrefs', hsame.trans hstates, ?_⟩
        have hvis := hrec.shown.resolve_left (by rw [hzero]; simp) refs states hrefs hstates
        rw [← h.branchEq, ← h.newEq] at hvis
        exact hvis
  rw [Repo.checkBranchProjection, hread]
  refine refuse_of_not ?_
  rintro (hne | ⟨hold, hnew⟩)
  · exact hne hbranchID
  · exact hheads.elim hold hnew

/-- The residual session ref is at its target, or was not there. -/
theorem Between.fork :
    c.checkForkProjection j = .ok () := by
  unfold Repo.checkForkProjection
  split_ifs with hname
  · rfl
  obtain ⟨hvn, hvt⟩ := h.forkValid hname
  have hvalid : validContentHash c.id = true := hc.id.symm ▸ h.repoValid
  have hthere : c.sessions.get j.forkName = some j.forkTip ∨
      (j.forkExisted = false ∧ c.sessions.get j.forkName = none) := by
    rcases hc.sessions with hs | ⟨-, hs⟩
    · rw [hs]
      exact (h.fork_get hname).imp_left And.right
    · rw [hs, Dir.get_set_self]
      exact Or.inl rfl
  rcases hthere with hget | ⟨hex, hget⟩
  · rw [Repo.getRef_session_some hvalid hvn hget hvt]
    exact refuse_of_not fun hne => hne rfl
  · rw [Repo.getRef_session_none hvalid hvn hget]
    exact refuse_of_not fun hbad => hbad ⟨rfl, hex⟩

/-- **In every state between the two sides, the journal passes all validations.** -/
theorem Between.pendingJoin (hrec : Recoverable m r)
    {phase : JoinPhase} (hj : c.journal = some { j with phase := phase }) :
    c.pendingJoin = .ok (some { j with phase := phase }) := by
  have hown : validateFSJoinJournal { j with phase := phase } c.id = .ok () := by
    rw [hc.id]
    exact h.validateFSJoinJournal_iff.2 hrec.grafts
  have hgraphs : c.validateJoinJournalGraphs { j with phase := phase } = .ok () := by
    change c.validateJoinJournalGraphs j = .ok ()
    exact hc.graphs h
  have hentries : ∀ e ∈ j.snapshots, c.checkEntryProjection j e = .ok () := by
    intro e he
    obtain ⟨all, hall, -⟩ := h.ordered
    have himg := h.images hall e he
    rcases hc.getSnapshot_entry h he with hs | hs
    · rw [Repo.checkEntryProjection, hs]
      exact refuse_of_not fun hne => hne.1 (h.repo.symm ▸ himg.before)
    · rw [Repo.checkEntryProjection, hs]
      exact refuse_of_not fun hne => hne.2 (h.repo.symm ▸ himg.after)
  have hproj : c.validateJoinJournalProjection { j with phase := phase } = .ok () := by
    change c.validateJoinJournalProjection j = .ok ()
    simp only [Repo.validateJoinJournalProjection, bind_eq_ok, exists_unit_iff, checkAll_eq_ok]
    exact ⟨hc.branch h hrec, hentries, hc.fork h⟩
  rw [Repo.pendingJoin, hj]
  dsimp only
  rw [wrapping_eq_ok.2 hown, ok_bind, wrapping_eq_ok.2 hgraphs, ok_bind, wrapping_eq_ok.2 hproj,
    ok_bind]

end Between

end Backend
end CxtHub
