/-
# Superseded graft edges stay removed

Every call leaves the register of a snapshot as it is or advances its sequence by one
(`RegisterCall.step`), so along a run the sequence never decreases, and it grows
whenever the edges change.  A client event with expected sequence `e` is accepted only
if the sequence is then at least `e + 1`; a later change brings it to `e + 2`, where
the event is refused for ever: `graft_register_runs`.
-/

import CxtHub.Backend.GraftRegister

namespace CxtHub
namespace Backend

variable {next : Snapshot} {out : Option Snapshot} {add : List ContentHash}

/-- `s'` is `s`, or its register one sequence later. -/
def Advanced (s s' : Snapshot) : Prop := s' = s ∨ s'.graftSeq = s.graftSeq + 1

/-- Every readable snapshot stays readable, its register unchanged or advanced. -/
def RegistersKept (r r' : Repo) : Prop :=
  ∀ k s, r.getSnapshot k = .ok s → ∃ s', r'.getSnapshot k = .ok s' ∧ Advanced s s'

/-- Doing nothing keeps the registers. -/
theorem registersKept_refl (r : Repo) : RegistersKept r r :=
  fun _ s hs => ⟨s, hs, Or.inl rfl⟩

/-! ### Calls that write one snapshot -/

section Single

variable {r : Repo} {id : ContentHash} {snap : Snapshot}

/-- What a write of one register may store. -/
structure NextRegister (snap next : Snapshot) : Prop where
  bound : snap.graftSeq ≠ maxGraftSeq
  shape : ∃ (grafts : Slice ContentHash) (grafted : Bool),
    (∀ p ∈ grafts.list, validContentHash p = true) ∧
    next = { snap with graftParents := grafts, grafted := grafted,
                       graftSeq := snap.graftSeq + 1 }

/-- The stored register reads back valid and one sequence later. -/
theorem getSnapshot_writeImage (h : r.getSnapshot id = .ok snap)
    (hnext : NextRegister snap next) :
    ∃ s', Repo.getSnapshot
        { r with snapshots := r.snapshots.set id (encodeSnapshot next) } id = .ok s' ∧
      s'.graftSeq = snap.graftSeq + 1 := by
  obtain ⟨hmax, grafts, grafted, hvalid, rfl⟩ := hnext
  obtain ⟨hr, hid, -, hrefs, hrepo, hsid⟩ := Repo.getSnapshot_eq_ok.1 h
  have hseq := (validateSnapshotRefs_eq_ok hrefs).2.2.2
  have henc := encodeSnapshot_register h grafts grafted (snap.graftSeq + 1)
  refine ⟨_, Repo.getSnapshot_eq_ok.2 ⟨hr, hid, ⟨_, Dir.get_set_self .., henc⟩, ?_, hrepo,
    hsid⟩, rfl⟩
  refine validateSnapshotRefs_graft hrefs (fun p hp => ?_) (by omega)
  rw [list_omitSlice] at hp
  exact hvalid p hp

/-- A newer register in place of an older keeps the registers. -/
theorem registersKept_writeImage (h : r.getSnapshot id = .ok snap)
    (hnext : NextRegister snap next) :
    RegistersKept r { r with snapshots := r.snapshots.set id (encodeSnapshot next) } := by
  intro k s hs
  by_cases hk : k = id
  · subst hk
    rw [h, Except.ok.injEq] at hs
    subst hs
    obtain ⟨s', hs', hseq⟩ := getSnapshot_writeImage h hnext
    exact ⟨s', hs', Or.inr hseq⟩
  · refine ⟨s, ?_, Or.inl rfl⟩
    rw [← hs]
    unfold Repo.getSnapshot
    rw [Dir.get_set_of_ne _ _ hk]

/-- When a register can be written. -/
theorem Repo.openRegister_eq_ok {parents : List ContentHash} :
    r.openRegister id parents = .ok snap ↔ r.getSnapshot id = .ok snap ∧ r.journal = none ∧
      (∀ p ∈ parents, validContentHash p = true) ∧ r.requireSnapshots parents = .ok () := by
  simp only [Repo.openRegister, Repo.requireNoPendingJoin, bind_eq_ok, exists_unit_iff,
    checkAll_eq_ok, validateContentHash_eq_ok, refuse_eq_ok, Except.ok.injEq, List.mem_cons,
    List.not_mem_nil, or_false, forall_eq_or_imp, forall_eq, Bool.not_eq_true,
    Option.isSome_eq_false_iff, Option.isNone_iff_eq_none]
  constructor
  · rintro ⟨-, hparents, hj, s, hs, hreq, rfl⟩
    exact ⟨hs, hj, hparents, hreq⟩
  · rintro ⟨hs, hj, hparents, hreq⟩
    obtain ⟨hr, hid, -⟩ := Repo.getSnapshot_eq_ok.1 hs
    exact ⟨⟨hr, hid⟩, hparents, hj, snap, hs, hreq, rfl⟩

/-- A check for cycles that passes returns what it was given. -/
theorem Repo.checkCycle_eq_ok {format : String}
    (h : r.checkCycle next format = .ok out) : out = some next := by
  simp only [Repo.checkCycle, bind_eq_ok, exists_unit_iff, Except.ok.injEq] at h
  obtain ⟨-, -, -, rfl⟩ := h
  rfl

/-- **An accepted addition**: nothing is written, and a client event is a retry; or the register
advances, and a client event expected its sequence. -/
theorem Repo.addGraftParents_eq_ok {expected : Option ℕ}
    (h : r.addGraftParents id add expected = .ok out) :
    ∃ snap, r.openRegister id add = .ok snap ∧
      ((out = none ∧ ∀ e, expected = some e → snap.graftSeq = e + 1) ∨
        ∃ next, out = some next ∧ NextRegister snap next ∧
          ∀ e, expected = some e → snap.graftSeq = e) := by
  simp only [Repo.addGraftParents, bind_eq_ok] at h
  obtain ⟨snap, hopen, h⟩ := h
  obtain ⟨hsnap, -, hadd, -⟩ := Repo.openRegister_eq_ok.1 hopen
  have hgrafts := (validateSnapshotRefs_eq_ok (Repo.getSnapshot_eq_ok.1 hsnap).2.2.2.1).2.2.1
  refine ⟨snap, hopen, ?_⟩
  split_ifs at h with hfresh
  · cases expected with
    | none =>
        rw [acknowledge, Except.ok.injEq] at h
        exact Or.inl ⟨h.symm, fun e he => by cases he⟩
    | some e =>
        rw [acknowledge] at h
        split_ifs at h with hseq hretry
        · simp only [bind_eq_ok, exists_unit_iff, refuse_eq_ok, Except.ok.injEq] at h
          obtain ⟨hmax, rfl⟩ := h
          refine Or.inr ⟨_, rfl, ⟨hmax, snap.graftParents, snap.grafted, hgrafts, rfl⟩, ?_⟩
          exact fun e' he' => hseq.trans (Option.some.inj he')
        · rw [Except.ok.injEq] at h
          exact Or.inl ⟨h.symm, fun e' he' => Option.some.inj he' ▸ hretry.2⟩
  · simp only [bind_eq_ok, exists_unit_iff, refuse_eq_ok] at h
    obtain ⟨hexpected, hmax, hcycle⟩ := h
    refine Or.inr ⟨_, Repo.checkCycle_eq_ok hcycle, ⟨hmax, _, true, fun p hp => ?_, rfl⟩, ?_⟩
    · rw [Slice.list_some] at hp
      rcases List.mem_append.1 hp with hp | hp
      · exact hgrafts p hp
      · exact hadd p (mem_freshFrom.1 hp).1
    · rintro e rfl
      simpa using hexpected

/-- The next register has a higher sequence number. -/
theorem Repo.setGraftParents_eq_ok {parents : List ContentHash}
    (h : r.setGraftParents id parents = .ok out) :
    ∃ snap next, r.getSnapshot id = .ok snap ∧ out = some next ∧ NextRegister snap next := by
  simp only [Repo.setGraftParents, bind_eq_ok, exists_unit_iff, refuse_eq_ok] at h
  obtain ⟨snap, hopen, hmax, hcycle⟩ := h
  obtain ⟨hsnap, -, hparents, -⟩ := Repo.openRegister_eq_ok.1 hopen
  refine ⟨snap, _, hsnap, Repo.checkCycle_eq_ok hcycle, hmax, _, _, fun p hp => ?_, rfl⟩
  exact hparents p (mem_freshFrom.1 hp).1

end Single

/-! ### Calls that write through the journal -/

section Journal

variable {r c : Repo} {j : JoinJournal}

/-- The entries of a journal advance the registers they name. -/
def JoinJournal.Advances (j : JoinJournal) (r : Repo) : Prop :=
  ∀ e ∈ j.snapshots, validateJoinSnapshot e.after e.id r.id = .ok e.after.1 ∧
    ∃ snap, r.getSnapshot e.id = .ok snap ∧ e.after.1.graftSeq = snap.graftSeq + 1

/-- The projection of a journal, run to its end. -/
theorem runs_projectForward (j : JoinJournal) (c : Repo) :
    Dur.Runs (projectForward j) c (fun _ => True) fun _ c' => c' = j.projected c := by
  refine Dur.Runs.bind (Dur.Runs.forEach (J := fun done c' => c' = { c with
    snapshots := Dir.setAll JoinEntry.id JoinEntry.after done c.snapshots }) rfl ?_) ?_
  · rintro done e rest hl t rfl
    refine Dur.Runs.write trivial ?_
    rw [Dir.setAll_append]
    rfl
  · rintro _ _ rfl
    refine Dur.Runs.bind (Q := fun _ c' => c' = { c with
      snapshots := Dir.setAll JoinEntry.id JoinEntry.after j.snapshots c.snapshots
      sessions := (j.projected c).sessions }) ?_ ?_
    · unfold writeFork
      by_cases hname : j.forkName = ""
      · rw [if_pos hname]
        exact Dur.Runs.pure (by simp only [JoinJournal.projected, if_pos hname])
      · rw [if_neg hname]
        exact Dur.Runs.write trivial (by simp only [JoinJournal.projected, if_neg hname, if_true])
    · rintro _ _ rfl
      exact Dur.Runs.write trivial rfl

/-- A journal, run to its end, leaves the repository after the join. -/
theorem runs_commitJournal (hid : validContentHash r.id = true) :
    Dur.Runs (commitJournal j) r (fun _ => True) fun _ c => c = j.after r := by
  refine Dur.Runs.bind (Q := fun _ c => c = { r with journal := some j })
    (Dur.Runs.write trivial rfl) ?_
  rintro _ _ rfl
  refine Dur.Runs.bind (runs_projectForward j _) ?_
  rintro _ _ rfl
  refine Dur.Runs.bind (Q := fun _ c => c = j.finishing r r.reflog)
    (Dur.Runs.write trivial rfl) ?_
  rintro _ _ rfl
  exact runs_completeCommittedJoin (j := j.commit) hid trivial trivial trivial

/-- The registers after a journal that advances them. -/
theorem registersKept_after (h : j.Advances r) : RegistersKept r (j.after r) := by
  intro k s hs
  obtain ⟨hr, hid, ⟨file, hfile, hfs⟩, hrefs, hrepo, hsid⟩ := Repo.getSnapshot_eq_ok.1 hs
  rcases @Dir.get_setAll _ _ _ _ JoinEntry.id JoinEntry.after j.snapshots r.snapshots k
    with hget | ⟨e, he, rfl, hget⟩
  · exact ⟨s, Repo.getSnapshot_eq_ok.2 ⟨hr, hid, ⟨file, hget.trans hfile, hfs⟩, hrefs, hrepo,
      hsid⟩, Or.inl rfl⟩
  · obtain ⟨hafter, snap, hsnap, hseq⟩ := h e he
    rw [hs, Except.ok.injEq] at hsnap
    subst hsnap
    obtain ⟨haid, harepo, harefs, -⟩ := validateJoinSnapshot_eq_ok.1 hafter
    exact ⟨e.after.1, Repo.getSnapshot_eq_ok.2 ⟨hr, hid, ⟨e.after, hget, rfl⟩, harefs, harepo,
      haid⟩, Or.inr hseq⟩

/-- The images of a join advance the registers. -/
theorem advances_of_prepareJoin {digest : JoinScope → ContentHash}
    {contextWrite : Repo → Ref → Except DomainError Unit} {m : JoinMutation} {now : ℕ}
    (h : r.prepareJoin digest contextWrite { m with repoID := r.id } now = .ok j) :
    validContentHash r.id = true ∧ j.Advances r := by
  simp only [Repo.prepareJoin, bind_eq_ok, exists_unit_iff, Repo.expectBranch_eq_ok,
    Except.ok.injEq] at h
  obtain ⟨-, -, cur, ⟨hcur, -⟩, -, -, -, entries, hentries, all, -, horder, existed, -, rfl⟩ := h
  refine ⟨(Repo.getRefRaw_branch.1 (Repo.getRef_branch.1 hcur).1).1, fun e he => ?_⟩
  obtain ⟨patch, -, hpe⟩ := exists_of_mem_readAll hentries e he
  have hafter := after_of_order horder e he
  obtain ⟨snap, hsnap, -, -, rfl⟩ := Repo.joinEntry_eq_ok.1 hpe
  exact ⟨hafter, snap, hsnap, rfl⟩

/-- So do those of an append. -/
theorem advances_of_prepareAppend {contextWrite : Repo → Ref → Except DomainError Unit}
    {ref : Ref} {expected : ContentHash} {now : ℕ}
    (h : r.prepareAppend contextWrite ref expected now = .ok j) :
    validContentHash r.id = true ∧ j.Advances r := by
  simp only [Repo.prepareAppend, Repo.listSnapshots, bind_eq_ok, exists_unit_iff,
    validateContentHash_eq_ok, Except.ok.injEq] at h
  obtain ⟨-, -, -, -, cur, -, -, -, all, ⟨hr, -⟩, patches, -, entries, hentries, horder, rfl⟩ := h
  refine ⟨hr, fun e he => ?_⟩
  obtain ⟨patch, -, hpe⟩ := exists_of_mem_readAll hentries e he
  have hafter := after_of_order horder e he
  simp only [Repo.appendEntry, bind_eq_ok, exists_unit_iff, Except.ok.injEq] at hpe
  obtain ⟨snap, hsnap, -, rfl⟩ := hpe
  have hsid : snap.id = patch.snapshotID := (Repo.getSnapshot_eq_ok.1 hsnap).2.2.2.2.2
  refine ⟨hafter, snap, ?_, rfl⟩
  rw [hsid, hsnap]

end Journal

/-! ### One call -/

section Step

variable (digest : JoinScope → ContentHash)
  (contextWrite : Repo → Ref → Except DomainError Unit)

/-- The repository after a call. -/
def RegisterCall.after (call : RegisterCall) (r : Repo) : Repo :=
  (call.run digest contextWrite).final r

/-- A call that fails before its first write changes nothing. -/
theorem final_of_read_error {α : Type} {f : Repo → Except DomainError α} {r : Repo}
    {g : α → Dur Repo DomainError Unit} {e : DomainError} (h : f r = .error e) :
    (Dur.read f >>= g).final r = r ∧ (Dur.read f >>= g).result r = .error e := by
  have hrun : (Dur.read f >>= g) r = ([], .error e) := Dur.bind_of_error h
  refine ⟨?_, Dur.result_bind_of_error h⟩
  rw [Dur.final, Dur.trace, hrun]
  rfl

/-- After a read that succeeds, the run goes on in the same store. -/
theorem final_of_read_ok {α : Type} {f : Repo → Except DomainError α} {r : Repo}
    {g : α → Dur Repo DomainError Unit} {a : α} (h : f r = .ok a) :
    (Dur.read f >>= g).final r = (g a).final r :=
  Dur.final_bind_of_ok h

/-- Storing a next register keeps the registers. -/
theorem registersKept_store {r : Repo} {id : ContentHash}
    (h : ∀ next, out = some next → ∃ snap, r.getSnapshot id = .ok snap ∧
      NextRegister snap next) : RegistersKept r ((storeSnapshot id out).final r) := by
  cases out with
  | none => exact registersKept_refl r
  | some next =>
      obtain ⟨snap, hsnap, hnext⟩ := h next rfl
      exact registersKept_writeImage hsnap hnext

/-- **One call** leaves every register as it is or advances it by one. -/
theorem RegisterCall.step (call : RegisterCall) (r : Repo) :
    RegistersKept r (call.after digest contextWrite r) := by
  have hjournal : ∀ (f : Repo → Except DomainError JoinJournal),
      (∀ j, f r = .ok j → validContentHash r.id = true ∧ j.Advances r) →
      RegistersKept r ((Dur.read f >>= commitJournal).final r) := by
    intro f hf
    cases hread : f r with
    | error e => rw [(final_of_read_error hread).1]; exact registersKept_refl r
    | ok j =>
        obtain ⟨hid, hadv⟩ := hf j hread
        obtain ⟨-, _, -, hfinal⟩ := runs_commitJournal (j := j) hid
        rw [final_of_read_ok hread, hfinal]
        exact registersKept_after hadv
  have hstore : ∀ (id : ContentHash) (f : Repo → Except DomainError (Option Snapshot)),
      (∀ out, f r = .ok out → ∀ next, out = some next → ∃ snap,
        r.getSnapshot id = .ok snap ∧ NextRegister snap next) →
      RegistersKept r ((Dur.read f >>= storeSnapshot id).final r) := by
    intro id f hf
    cases hread : f r with
    | error e => rw [(final_of_read_error hread).1]; exact registersKept_refl r
    | ok out =>
        rw [final_of_read_ok hread]
        exact registersKept_store (hf out hread)
  have hadd : ∀ id parents expected, ∀ out, r.addGraftParents id parents expected = .ok out →
      ∀ next, out = some next → ∃ snap, r.getSnapshot id = .ok snap ∧
        NextRegister snap next := by
    rintro id parents expected out h next rfl
    obtain ⟨snap, hopen, ⟨hnone, -⟩ | ⟨next', heq, hnext, -⟩⟩ := Repo.addGraftParents_eq_ok h
    · cases hnone
    · rw [Option.some.inj heq]
      exact ⟨snap, (Repo.openRegister_eq_ok.1 hopen).1, hnext⟩
  cases call with
  | add id parents => exact hstore id _ (hadd id parents none)
  | addCAS id parents expected => exact hstore id _ (hadd id parents (some expected))
  | set id parents =>
      refine hstore id _ ?_
      rintro out h next rfl
      obtain ⟨snap, next', hsnap, heq, hnext⟩ := Repo.setGraftParents_eq_ok h
      rw [Option.some.inj heq]
      exact ⟨snap, hsnap, hnext⟩
  | join m now =>
      exact hjournal (fun c => c.prepareJoin digest contextWrite { m with repoID := r.id } now)
        fun j h => advances_of_prepareJoin h
  | append ref expected now => exact hjournal _ fun j h => advances_of_prepareAppend h

/-! ### Runs -/

/-- The repository after some calls, one after another. -/
def runCalls (calls : List RegisterCall) (r : Repo) : Repo :=
  calls.foldl (fun r call => call.after digest contextWrite r) r

/-- **A run** keeps every readable snapshot; its sequence never decreases. -/
theorem runCalls_getSnapshot (calls : List RegisterCall) {r : Repo} {id : ContentHash}
    {s : Snapshot} (h : r.getSnapshot id = .ok s) :
    ∃ s', (runCalls digest contextWrite calls r).getSnapshot id = .ok s' ∧
      s.graftSeq ≤ s'.graftSeq := by
  induction calls generalizing r s with
  | nil => exact ⟨s, h, Nat.le_refl _⟩
  | cons call calls ih =>
      obtain ⟨s₁, hs₁, hadv⟩ := RegisterCall.step digest contextWrite call r id s h
      obtain ⟨s', hs', hle⟩ := ih hs₁
      refine ⟨s', hs', Nat.le_trans ?_ hle⟩
      rcases hadv with rfl | hseq <;> omega

variable {digest contextWrite}

/-- The sequence just after an accepted client event. -/
theorem accepted_seq {r : Repo} {id : ContentHash} {e : ℕ}
    (h : (RegisterCall.addCAS id add e |>.run digest contextWrite).result r = .ok ()) :
    (∀ p ∈ add, validContentHash p = true) ∧ r.requireSnapshots add = .ok () ∧
    ∃ s, (RegisterCall.addCAS id add e |>.after digest contextWrite r).getSnapshot id = .ok s ∧
      s.graftSeq = e + 1 := by
  change (Dur.read (fun r : Repo => r.addGraftParents id add (some e)) >>=
    storeSnapshot id).result r = .ok () at h
  change _ ∧ _ ∧ ∃ s, Repo.getSnapshot ((Dur.read (fun r : Repo =>
    r.addGraftParents id add (some e)) >>= storeSnapshot id).final r) id = .ok s ∧ _
  cases hread : r.addGraftParents id add (some e) with
  | error err =>
      rw [(final_of_read_error hread).2] at h
      cases h
  | ok out =>
      rw [final_of_read_ok hread]
      obtain ⟨snap, hopen, hcases⟩ := Repo.addGraftParents_eq_ok hread
      obtain ⟨hsnap, -, hvalid, hstored⟩ := Repo.openRegister_eq_ok.1 hopen
      refine ⟨hvalid, hstored, ?_⟩
      rcases hcases with ⟨rfl, hretry⟩ | ⟨next, rfl, hnext, hseq⟩
      · exact ⟨snap, hsnap, hretry e rfl⟩
      · obtain ⟨s', hs', hs'seq⟩ := getSnapshot_writeImage hsnap hnext
        exact ⟨s', hs', by rw [hs'seq, hseq e rfl]⟩

/-- The stored parents of an event stay stored. -/
theorem requireSnapshots_runCalls (calls : List RegisterCall) {r : Repo} {ids : List ContentHash}
    (h : r.requireSnapshots ids = .ok ()) :
    (runCalls digest contextWrite calls r).requireSnapshots ids = .ok () := by
  unfold Repo.requireSnapshots at h ⊢
  rw [checkAll_eq_ok] at h ⊢
  intro p hp
  have hread := h p hp
  split_ifs at hread ⊢ with hempty
  · rfl
  · cases hget : r.getSnapshot p with
    | error err =>
        rw [hget] at hread
        dsimp only at hread
        split_ifs at hread
    | ok s =>
        obtain ⟨s', hs', -⟩ := runCalls_getSnapshot digest contextWrite calls hget
        rw [hs']

/-- **Late delivery**: two sequences after the expected one, an event is refused. -/
theorem late_delivery {r : Repo} {id : ContentHash} {e : ℕ}
    {s : Snapshot} (hs : r.getSnapshot id = .ok s) (hseq : e + 2 ≤ s.graftSeq)
    (hvalid : ∀ p ∈ add, validContentHash p = true) (hstored : r.requireSnapshots add = .ok ()) :
    (∃ err, (RegisterCall.addCAS id add e |>.run digest contextWrite).result r = .error err ∧
      err.sentinel = .conflict) ∧
    (RegisterCall.addCAS id add e |>.after digest contextWrite r) = r := by
  have hadd : ∃ err, r.addGraftParents id add (some e) = .error err ∧ err.sentinel = .conflict := by
    obtain ⟨hr, hid, -⟩ := Repo.getSnapshot_eq_ok.1 hs
    cases hj : r.journal with
    | some j =>
        refine ⟨conflict "pending graph transaction; restart to recover", ?_, rfl⟩
        have hids : checkAll validateContentHash [r.id, id] = .ok () := by
          simp [hr, hid]
        have hadd : checkAll validateContentHash add = .ok () := by
          simpa using hvalid
        simp only [Repo.addGraftParents, Repo.openRegister, Repo.requireNoPendingJoin, hids, hadd,
          ok_bind, hj, refuse, Option.isSome_some, if_true, error_bind]
    | none =>
        have hopen := Repo.openRegister_eq_ok.2 ⟨hs, hj, hvalid, hstored⟩
        refine ⟨{ sentinel := .conflict }, ?_, rfl⟩
        rw [Repo.addGraftParents, hopen, ok_bind]
        dsimp only
        split_ifs with hfresh
        · rw [acknowledge, if_neg (by omega), if_neg (by omega)]
        · rw [refuse, if_pos (by simp only [Option.any_some, decide_eq_true_eq]; omega),
            error_bind]
  obtain ⟨err, herr, hconflict⟩ := hadd
  exact ⟨⟨err, (final_of_read_error herr).2, hconflict⟩, (final_of_read_error herr).1⟩

/-- The register of `id` holds the edge to `p`. -/
def Repo.HasGraft (r : Repo) (id p : ContentHash) : Prop :=
  ∃ s, r.getSnapshot id = .ok s ∧ p ∈ s.graftParents.list

/-- **The graft register of a snapshot** along any run: its sequence never decreases, grows with
every call that changes its edges and stays in bounds.  Once a client event was accepted and
an edge of it removed, each later delivery of the event is a conflict and changes nothing. -/
theorem graft_register_runs {r : Repo} {id : ContentHash} {s : Snapshot}
    (hs : r.getSnapshot id = .ok s) :
    (∀ calls call, ∃ s₁ s₂,
      (runCalls digest contextWrite calls r).getSnapshot id = .ok s₁ ∧
      (runCalls digest contextWrite (calls ++ [call]) r).getSnapshot id = .ok s₂ ∧
      s₁.graftSeq ≤ s₂.graftSeq ∧ s₂.graftSeq ≤ maxGraftSeq ∧
      (s₁.graftParents.list ≠ s₂.graftParents.list → s₁.graftSeq < s₂.graftSeq)) ∧
    ∀ before add e between (call : RegisterCall) later p,
      let event := RegisterCall.addCAS id add e
      let r₁ := runCalls digest contextWrite before r
      let r₂ := runCalls digest contextWrite between (event.after digest contextWrite r₁)
      let r₃ := call.after digest contextWrite r₂
      let r₄ := runCalls digest contextWrite later r₃
      (event.run digest contextWrite).result r₁ = .ok () → p ∈ add →
        r₂.HasGraft id p → ¬ r₃.HasGraft id p →
        (∃ err, (event.run digest contextWrite).result r₄ = .error err ∧
          err.sentinel = .conflict) ∧ event.after digest contextWrite r₄ = r₄ := by
  constructor
  · intro calls call
    obtain ⟨s₁, hs₁, -⟩ := runCalls_getSnapshot digest contextWrite calls hs
    obtain ⟨s₂, hs₂, hadv⟩ := RegisterCall.step digest contextWrite call _ id s₁ hs₁
    have hbound := (validateSnapshotRefs_eq_ok (Repo.getSnapshot_eq_ok.1 hs₂).2.2.2.1).2.2.2
    refine ⟨s₁, s₂, hs₁, ?_, ?_, hbound, ?_⟩
    · rw [runCalls, List.foldl_append]
      exact hs₂
    · rcases hadv with rfl | hseq <;> omega
    · rcases hadv with rfl | hseq
      · exact fun hne => absurd rfl hne
      · intro _
        omega
  · intro before add e between call later p event r₁ r₂ r₃ r₄ hok _ hhas hlost
    obtain ⟨hvalid, hstored, s₁, hs₁, hseq₁⟩ := accepted_seq hok
    obtain ⟨s₂, hs₂, hle₂⟩ := runCalls_getSnapshot digest contextWrite between hs₁
    obtain ⟨s₃, hs₃, hadv⟩ := RegisterCall.step digest contextWrite call _ id s₂ hs₂
    obtain ⟨s₄, hs₄, hle₄⟩ := runCalls_getSnapshot digest contextWrite later hs₃
    -- the call that lost the edge advanced the register: the event is now two sequences behind
    have hseq₃ : s₃.graftSeq = s₂.graftSeq + 1 := by
      rcases hadv with rfl | hseq
      · obtain ⟨s', hs', hp⟩ := hhas
        rw [hs₂, Except.ok.injEq] at hs'
        exact absurd ⟨s₃, hs₃, hs' ▸ hp⟩ hlost
      · exact hseq
    have hruns : r₄ = runCalls digest contextWrite (event :: between ++ call :: later) r₁ := by
      rw [runCalls, List.foldl_append]
      rfl
    refine late_delivery hs₄ (by omega) hvalid ?_
    rw [hruns]
    exact requireSnapshots_runCalls _ hstored

/-- `a` of `laneRepo` acknowledges its edge to `2`, lets go of it and refuses the event. -/
theorem graft_register_runs_lane :
    let event := RegisterCall.addCAS (digitHash 'a') [digitHash '2'] 0
    let removed := runCalls (fun _ => "") (fun _ _ => .ok ())
      [event, .set (digitHash 'a') []] laneRepo
    (event.run (fun _ => "") (fun _ _ => .ok ())).result laneRepo = .ok () ∧
    (∃ err, (event.run (fun _ => "") (fun _ _ => .ok ())).result removed = .error err ∧
      err.sentinel = .conflict) ∧
    event.after (fun _ => "") (fun _ _ => .ok ()) removed = removed := by
  intro event removed
  have hsnap : laneRepo.getSnapshot (digitHash 'a') = .ok (digitSnapshot 'a' ['b'] ['2']) := by
    decide +kernel
  have hok : (event.run (fun _ => "") (fun _ _ => .ok ())).result laneRepo = .ok () := by
    decide +kernel
  have hhas : (event.after (fun _ => "") (fun _ _ => .ok ()) laneRepo).getSnapshot (digitHash 'a') =
      .ok { digitSnapshot 'a' ['b'] ['2'] with graftSeq := 1 } := by
    decide +kernel
  have hlost : removed.getSnapshot (digitHash 'a') =
      .ok { digitSnapshot 'a' ['b'] [] with graftParents := none, graftSeq := 2 } := by
    decide +kernel
  refine ⟨hok, (graft_register_runs hsnap).2 [] [digitHash '2'] 0 [] (.set (digitHash 'a') []) []
    (digitHash '2') hok (List.mem_singleton_self _) ⟨_, hhas, by decide⟩ ?_⟩
  rintro ⟨s, hs, hp⟩
  have heq := Except.ok.inj (hs.symm.trans hlost)
  rw [heq] at hp
  revert hp
  decide

end Step

end Backend
end CxtHub
