/-
# Stopping a join

`ApplyJoin` and `recoverJoinJournals` as procedures on the directory of a repository.
Up to the committed journal every state is `Midway`, and recovery leads back to the
repository before the join; from then on every state is `Finishing`, and recovery
leads to `JoinJournal.after`.

`applyJoin_settles_iff`: a stop at any write, also of recovery itself, is harmless
exactly when the join is `Recoverable`.
-/

import CxtHub.Backend.JoinPrepared

namespace CxtHub
namespace Backend

variable {log : List RefLogEntry} {I : Repo → Prop}

/-- Append a line unless it is there. -/
def ensureLine (entry : RefLogEntry) (log : List RefLogEntry) : List RefLogEntry :=
  if entry ∈ log then log else log ++ [entry]

/-- The line is in the log afterwards. -/
theorem mem_ensureLine (entry : RefLogEntry) (log : List RefLogEntry) :
    entry ∈ ensureLine entry log := by
  unfold ensureLine
  split_ifs with h
  · exact h
  · exact List.mem_append_right _ (List.mem_singleton_self _)

/-- No line is lost. -/
theorem mem_ensureLine_of_mem {entry line : RefLogEntry}
    (h : line ∈ log) : line ∈ ensureLine entry log := by
  unfold ensureLine
  split_ifs
  · exact h
  · exact List.mem_append_left _ h

/-- A line that is there is not written again. -/
theorem ensureLine_of_mem {entry : RefLogEntry} (h : entry ∈ log) :
    ensureLine entry log = log := if_pos h

section Journal

variable (j : JoinJournal)

/-- Whether the join adds the residual session ref. -/
def JoinJournal.addsFork : Prop := j.forkName ≠ "" ∧ j.forkExisted = false

instance : Decidable j.addsFork := inferInstanceAs (Decidable (_ ∧ _))

/-- The reflog with the line of the residual session ref. -/
def JoinJournal.forkLog (log : List RefLogEntry) : List RefLogEntry :=
  if j.addsFork then ensureLine j.forkLine log else log

/-- The reflog after a join: one line for each ref it moves. -/
def JoinJournal.fullLog (log : List RefLogEntry) : List RefLogEntry :=
  ensureLine j.branchLine (j.forkLog log)

/-- The files after a join, with the journal and the reflog as they were. -/
def JoinJournal.projected (r : Repo) : Repo :=
  { r with
    snapshots := Dir.setAll JoinEntry.id JoinEntry.after j.snapshots r.snapshots
    sessions := if j.forkName = "" then r.sessions else r.sessions.set j.forkName j.forkTip
    heads := r.heads.set j.branch (j.branchFile j.newHead) }

/-- **The repository after a join.** -/
def JoinJournal.after (r : Repo) : Repo :=
  { j.projected r with reflog := j.fullLog r.reflog, journal := none }

/-- The journal once the join is committed. -/
def JoinJournal.commit : JoinJournal := { j with phase := .committed }

/-- A state with a committed journal. -/
def Repo.isCommitted (r : Repo) : Bool :=
  match r.journal with
  | some j => decide (j.phase = .committed)
  | none => false

end Journal

/-- A state of a join that is not committed. -/
structure Midway (r : Repo) (j : JoinJournal) (c : Repo) : Prop extends Between r j c where
  reflog : c.reflog = r.reflog
  journal : c.journal = some j

section Forward

variable {m : JoinMutation} {r c : Repo} {j : JoinJournal}

/-- The entries name files that are there. -/
theorem Prepared.entry_keys (h : Prepared m r j) : ∀ e ∈ j.snapshots, e.id ∈ r.snapshots.keys :=
  fun _ he => Dir.mem_keys_iff.2 ⟨_, h.get_before he⟩

/-- The images of the first entries, or of all of them, are between the two sides. -/
theorem Prepared.between_setAll (h : Prepared m r j) {done rest : List JoinEntry}
    (hl : j.snapshots = done ++ rest) :
    Between r j { r with
      snapshots := Dir.setAll JoinEntry.id JoinEntry.after done r.snapshots
      journal := some j } where
  id := rfl
  head := rfl
  tags := rfl
  protocol := rfl
  keys := Dir.keys_setAll fun e he => h.entry_keys e (hl ▸ List.mem_append_left _ he)
  images := fun k => (Dir.get_setAll done r.snapshots k).imp_right fun ⟨e, he, hid, hget⟩ =>
    ⟨e, hl ▸ List.mem_append_left _ he, hid, hget⟩
  heads := Or.inl rfl
  sessions := Or.inl rfl

/-- **The projection of a join** passes through states between the two sides. -/
theorem Prepared.runs_forward (h : Prepared m r j) :
    Dur.Runs (projectForward j) { r with journal := some j } (Midway r j) fun _ c =>
      c = { j.projected r with journal := some j } := by
  refine Dur.Runs.bind (Dur.Runs.forEach (J := fun done c => c = { r with
    snapshots := Dir.setAll JoinEntry.id JoinEntry.after done r.snapshots, journal := some j })
    rfl ?_) fun _ c hc => ?_
  · rintro done e rest hl t rfl
    have hstep : (done ++ [e]) ++ rest = j.snapshots := by rw [hl, List.append_assoc]; rfl
    have hset : Dir.setAll JoinEntry.id JoinEntry.after (done ++ [e]) r.snapshots =
        (Dir.setAll JoinEntry.id JoinEntry.after done r.snapshots).set e.id e.after := by
      rw [Dir.setAll_append]; rfl
    refine Dur.Runs.write ?_ ?_
    · have hb := h.between_setAll hstep.symm
      rw [hset] at hb
      exact ⟨hb, rfl, rfl⟩
    · rw [hset]
  · subst hc
    have hall := h.between_setAll (List.append_nil j.snapshots).symm
    have hfork : Dur.Runs (writeFork j true) { r with
        snapshots := Dir.setAll JoinEntry.id JoinEntry.after j.snapshots r.snapshots,
        journal := some j } (Midway r j) fun _ c => c = { r with
        snapshots := Dir.setAll JoinEntry.id JoinEntry.after j.snapshots r.snapshots,
        sessions := (j.projected r).sessions, journal := some j } := by
      unfold writeFork
      by_cases hname : j.forkName = ""
      · rw [if_pos hname]
        exact Dur.Runs.pure (by simp only [JoinJournal.projected, if_pos hname])
      · rw [if_neg hname]
        refine Dur.Runs.write ?_ (by simp only [JoinJournal.projected, if_neg hname, if_true])
        exact ⟨{ hall with sessions := Or.inr ⟨hname, rfl⟩ }, rfl, rfl⟩
    refine Dur.Runs.bind hfork fun _ c hc => ?_
    subst hc
    refine Dur.Runs.write ⟨{ hall with heads := Or.inr rfl, sessions := ?_ }, rfl, rfl⟩ rfl
    by_cases hname : j.forkName = ""
    · exact Or.inl (if_pos hname)
    · exact Or.inr ⟨hname, if_neg hname⟩

end Forward

section Back

variable {m : JoinMutation} {r c : Repo} {j : JoinJournal}

/-- The branch file before the join is the one recovery writes. -/
theorem Prepared.heads_get (h : Prepared m r j) (hrec : Recoverable m r) :
    r.heads.get j.branch = some (j.branchFile j.expectedHead) := by
  obtain ⟨cur, hcur, htarget, hid⟩ := h.current
  have hfile := hrec.canonical cur (h.branchEq ▸ (Repo.getRef_branch.1 hcur).1)
  rw [← h.branchEq, htarget, hid, ← h.repo] at hfile
  exact hfile

variable (h : Prepared m r j) (hc : Midway r j c)

include h hc

/-- Putting a before image back stays between the two sides. -/
theorem Midway.write_before {e : JoinEntry} (he : e ∈ j.snapshots) :
    Midway r j { c with snapshots := c.snapshots.set e.id e.before } := by
  have hmem : e.id ∈ c.snapshots.keys := hc.keys ▸ h.entry_keys e he
  refine ⟨{ hc.toBetween with keys := ?_, images := fun k => ?_ }, hc.reflog, hc.journal⟩
  · exact (Dir.keys_set_of_mem _ hmem).trans hc.keys
  · by_cases hk : k = e.id
    · subst hk
      exact Or.inl (by rw [Dir.get_set_self, h.get_before he])
    · dsimp only
      rw [Dir.get_set_of_ne _ _ hk]
      exact hc.images k

/-- With every before image back, the snapshots are those before the join. -/
theorem Midway.snapshots_eq
    (hback : ∀ e ∈ j.snapshots, c.snapshots.get e.id = some e.before) :
    c.snapshots = r.snapshots := by
  refine Dir.ext_get hc.keys fun k => ?_
  rcases hc.images k with hget | ⟨e, he, rfl, -⟩
  · exact hget
  · rw [hback e he, h.get_before he]

/-- The residual session file is put back as it was. -/
theorem Midway.sessions_back (hne : j.forkName ≠ "") :
    (if j.forkExisted then c.sessions.set j.forkName j.forkTip
      else c.sessions.erase j.forkName) = r.sessions := by
  rcases h.fork_get hne with ⟨hex, hget⟩ | ⟨hex, hget⟩
  · rw [hex, if_pos rfl]
    rcases hc.sessions with hs | ⟨-, hs⟩
    · rw [hs, Dir.set_get_self hget]
    · rw [hs, Dir.set_set, Dir.set_get_self hget]
  · have hnew : j.forkName ∉ r.sessions.keys := by
      rw [Dir.mem_keys_iff, hget]
      rintro ⟨t, ht⟩
      cases ht
    rw [hex, if_neg (by decide)]
    rcases hc.sessions with hs | ⟨-, hs⟩
    · rw [hs, Dir.erase_of_notMem hnew]
    · rw [hs, Dir.erase_set_new hnew]

/-- Writing the expected head back restores the heads. -/
theorem Midway.heads_back (hrec : Recoverable m r) :
    c.heads.set j.branch (j.branchFile j.expectedHead) = r.heads := by
  rcases hc.heads with hh | hh
  · rw [hh, Dir.set_get_self (h.heads_get hrec)]
  · rw [hh, Dir.set_set, Dir.set_get_self (h.heads_get hrec)]

/-- The loop of the rollback puts every before image back. -/
theorem Midway.runs_images :
    Dur.Runs (Dur.forEach (fun e : JoinEntry => writeImage e.id e.before) j.snapshots.reverse) c
      (Midway r j) fun _ c => Midway r j c ∧ c.snapshots = r.snapshots := by
  have hloop := Dur.Runs.forEach (s := c) (I := Midway r j)
    (g := fun e : JoinEntry => writeImage e.id e.before) (l := j.snapshots.reverse)
    (J := fun done c => Midway r j c ∧ ∀ e ∈ done, c.snapshots.get e.id = some e.before)
    ⟨hc, fun e he => by cases he⟩ ?_
  · refine hloop.mono (fun _ hI => hI) fun _ t ⟨ht, hback⟩ => ⟨ht, ht.snapshots_eq h ?_⟩
    exact fun e he => hback e (List.mem_reverse.2 he)
  · rintro done e rest hl t ⟨ht, hdone⟩
    have hmem : ∀ x ∈ done ++ e :: rest, x ∈ j.snapshots := fun x hx =>
      List.mem_reverse.1 (hl ▸ hx)
    have he : e ∈ j.snapshots := hmem e (List.mem_append_right _ (List.mem_cons_self ..))
    have hnext := ht.write_before h he
    refine Dur.Runs.write hnext ⟨hnext, fun x hx => ?_⟩
    rcases List.mem_append.1 hx with hx | hx
    · by_cases hxe : x.id = e.id
      · obtain rfl := List.inj_on_of_nodup_map h.entries_nodup
          (hmem x (List.mem_append_left _ hx)) he hxe
        exact Dir.get_set_self ..
      · dsimp only
        rw [Dir.get_set_of_ne _ _ hxe]
        exact hdone x hx
    · rw [List.mem_singleton.1 hx]
      exact Dir.get_set_self ..

/-- Writing the fork back keeps the store midway at every write. -/
theorem Midway.runs_fork (hsnap : c.snapshots = r.snapshots) :
    Dur.Runs (writeFork j j.forkExisted) c (Midway r j) fun _ c =>
      Midway r j c ∧ c.snapshots = r.snapshots ∧ c.sessions = r.sessions := by
  unfold writeFork
  by_cases hname : j.forkName = ""
  · rw [if_pos hname]
    exact Dur.Runs.pure ⟨hc, hsnap, hc.sessions.resolve_right fun hs => hs.1 hname⟩
  · rw [if_neg hname]
    have hsess := hc.sessions_back h hname
    have hnext : Midway r j { c with sessions := r.sessions } :=
      ⟨{ hc.toBetween with sessions := Or.inl rfl }, hc.reflog, hc.journal⟩
    rw [← hsess] at hnext
    exact Dur.Runs.write hnext ⟨hnext, hsnap, hsess⟩

/-- Writing the branch back ends in the state before the join. -/
theorem Midway.runs_branch (hrec : Recoverable m r)
    (hsnap : c.snapshots = r.snapshots) (hsess : c.sessions = r.sessions) :
    Dur.Runs (writeBranch j j.expectedHead) c (Midway r j) fun _ c =>
      c = { r with journal := some j } := by
  have hheads := hc.heads_back h hrec
  refine Dur.Runs.write ?_ ?_
  · exact ⟨{ hc.toBetween with heads := Or.inl hheads }, hc.reflog, hc.journal⟩
  · rw [hheads, ← hsnap, ← hsess, ← hc.id, ← hc.head, ← hc.tags, ← hc.protocol, ← hc.reflog,
      ← hc.journal]

/-- **Rolling back** leads to the repository before the join. -/
theorem Midway.runs_back (hrec : Recoverable m r) :
    Dur.Runs (rollBack j) c (fun c => Midway r j c ∨ c = r) fun _ c => c = r := by
  have hproject : Dur.Runs (projectBack j) c (Midway r j) fun _ c =>
      c = { r with journal := some j } := by
    refine Dur.Runs.bind (hc.runs_images h) fun _ c₁ ⟨hc₁, hsnap₁⟩ => ?_
    refine Dur.Runs.bind (hc₁.runs_fork h hsnap₁) fun _ c₂ ⟨hc₂, hsnap₂, hsess₂⟩ => ?_
    exact hc₂.runs_branch h hrec hsnap₂ hsess₂
  refine Dur.Runs.bind (hproject.mono (fun _ hI => Or.inl hI) fun _ _ hQ => hQ) ?_
  rintro _ _ rfl
  have hidle : ({ r with journal := none } : Repo) = r := by rw [← h.idle]
  exact Dur.Runs.write (Or.inr hidle) hidle

end Back

section Finish

variable {m : JoinMutation} {r c : Repo} {j : JoinJournal}

/-- A committed join whose reflog is still being written. -/
def JoinJournal.finishing (j : JoinJournal) (r : Repo) (log : List RefLogEntry) : Repo :=
  { j.projected r with reflog := log, journal := some j.commit }

/-- The reflog as it was, with the line of the session ref, and with all lines. -/
def JoinJournal.logs (j : JoinJournal) (log : List RefLogEntry) : List (List RefLogEntry) :=
  [log, j.forkLog log, j.fullLog log]

/-- A state of a committed join. -/
def Finishing (r : Repo) (j : JoinJournal) (c : Repo) : Prop :=
  ∃ log ∈ j.logs r.reflog, c = j.finishing r log

/-- Logging the session ref again changes nothing but a log without its line. -/
theorem forkLog_logs (h : log ∈ j.logs r.reflog) :
    j.forkLog log = j.forkLog r.reflog ∨ j.forkLog log = j.fullLog r.reflog := by
  have hline : ∀ l, j.addsFork → j.forkLine ∈ l → j.forkLog l = l := fun l hadds hmem => by
    rw [JoinJournal.forkLog, if_pos hadds, ensureLine_of_mem hmem]
  have hnone : ∀ l, ¬ j.addsFork → j.forkLog l = l := fun l hadds => if_neg hadds
  simp only [JoinJournal.logs, List.mem_cons, List.not_mem_nil, or_false] at h
  by_cases hadds : j.addsFork
  · have hfork : j.forkLine ∈ j.forkLog r.reflog := by
      rw [JoinJournal.forkLog, if_pos hadds]
      exact mem_ensureLine ..
    rcases h with rfl | rfl | rfl
    · exact Or.inl rfl
    · exact Or.inl (hline _ hadds hfork)
    · exact Or.inr (hline _ hadds (mem_ensureLine_of_mem hfork))
  · rcases h with rfl | rfl | rfl
    · exact Or.inl rfl
    · exact Or.inl (hnone _ hadds)
    · exact Or.inr (hnone _ hadds)

/-- Writing the line of the branch completes the log. -/
theorem branchLog_logs
    (h : log = j.forkLog r.reflog ∨ log = j.fullLog r.reflog) :
    ensureLine j.branchLine log = j.fullLog r.reflog := by
  rcases h with rfl | rfl
  · rfl
  · exact ensureLine_of_mem (mem_ensureLine ..)

/-- Writing a line of the log, if it is not there yet. -/
theorem runs_ensureJoinReflog {e : RefLogEntry}
    (hid : validContentHash c.id = true)
    (hI : I { c with reflog := ensureLine e c.reflog }) :
    Dur.Runs (ensureJoinReflog e) c I fun _ c' =>
      c' = { c with reflog := ensureLine e c.reflog } := by
  have hread : (validateContentHash c.id >>= fun _ => (.ok c.reflog : Except DomainError _)) =
      .ok c.reflog := by
    have hv : validateContentHash c.id = .ok () := validateContentHash_eq_ok.2 hid
    rw [hv, ok_bind]
  refine Dur.Runs.bind (Q := fun log c' => log = c.reflog ∧ c' = c)
    (Dur.Runs.read hread ⟨rfl, rfl⟩) ?_
  rintro log c' ⟨hlog, hc'⟩
  rw [hlog, hc']
  by_cases hmem : e ∈ c.reflog
  · rw [if_pos hmem, ensureLine_of_mem hmem]
    exact Dur.Runs.pure rfl
  · have heq : ensureLine e c.reflog = c.reflog ++ [e] := if_neg hmem
    rw [if_neg hmem]
    rw [heq] at hI ⊢
    exact Dur.Runs.write hI rfl

/-- Completing a join: the two log lines, then the journal is removed. -/
theorem runs_completeCommittedJoin (hid : validContentHash c.id = true)
    (hfork : I { c with reflog := j.forkLog c.reflog })
    (hfull : I { c with reflog := j.fullLog c.reflog })
    (hdone : I { c with reflog := j.fullLog c.reflog, journal := none }) :
    Dur.Runs (completeCommittedJoin j) c I fun _ c' =>
      c' = { c with reflog := j.fullLog c.reflog, journal := none } := by
  have hforkRun : Dur.Runs (ensureForkReflog j) c I fun _ c' =>
      c' = { c with reflog := j.forkLog c.reflog } := by
    change Dur.Runs (if j.addsFork then ensureJoinReflog j.forkLine else pure ()) _ _ _
    by_cases hadds : j.addsFork
    · have hl : j.forkLog c.reflog = ensureLine j.forkLine c.reflog := if_pos hadds
      rw [hl] at hfork ⊢
      rw [if_pos hadds]
      exact runs_ensureJoinReflog hid hfork
    · have hl : j.forkLog c.reflog = c.reflog := if_neg hadds
      rw [if_neg hadds, hl]
      exact Dur.Runs.pure rfl
  refine Dur.Runs.bind hforkRun ?_
  rintro _ _ rfl
  have hbranchRun : Dur.Runs (ensureJoinReflog j.branchLine) { c with reflog := j.forkLog c.reflog }
      I fun _ c' => c' = { c with reflog := j.fullLog c.reflog } :=
    runs_ensureJoinReflog (c := { c with reflog := j.forkLog c.reflog }) hid hfull
  refine Dur.Runs.bind hbranchRun ?_
  rintro _ _ rfl
  exact Dur.Runs.write hdone rfl

/-- **Completing a committed join** leads to the repository after it. -/
theorem Finishing.runs_complete (h : Prepared m r j) (hc : Finishing r j c) :
    Dur.Runs (completeCommittedJoin j.commit) c (fun c => Finishing r j c ∨ c = j.after r)
      fun _ c => c = j.after r := by
  obtain ⟨log, hlog, rfl⟩ := hc
  have hfork := forkLog_logs hlog
  have hfull : j.fullLog log = j.fullLog r.reflog := branchLog_logs hfork
  have hmem : ∀ l, l = j.forkLog r.reflog ∨ l = j.fullLog r.reflog → l ∈ j.logs r.reflog :=
    fun l hl => by
      simp only [JoinJournal.logs, List.mem_cons, List.not_mem_nil, or_false]
      exact Or.inr hl
  have hdone : ({ j.finishing r log with reflog := j.fullLog log, journal := none } : Repo) =
      j.after r := by
    rw [hfull]
    rfl
  have hrun := runs_completeCommittedJoin (c := j.finishing r log) (j := j.commit)
    (I := fun c => Finishing r j c ∨ c = j.after r) h.repoValid
    (Or.inl ⟨j.forkLog log, hmem _ hfork, rfl⟩)
    (Or.inl ⟨j.fullLog log, hmem _ (Or.inr hfull), rfl⟩) (Or.inr hdone)
  exact hrun.mono (fun _ hI => hI) fun _ _ hQ => hQ.trans hdone

/-- Projecting a committed join again changes nothing. -/
theorem Finishing.runs_forward (h : Prepared m r j) (hc : Finishing r j c) :
    Dur.Runs (projectForward j.commit) c (Finishing r j) fun _ c' => c' = c := by
  obtain ⟨log, hlog, rfl⟩ := hc
  have hstay : Finishing r j (j.finishing r log) := ⟨log, hlog, rfl⟩
  refine Dur.Runs.bind (Dur.Runs.forEach (J := fun _ c => c = j.finishing r log) rfl ?_)
    fun _ c hc => Dur.Runs.bind (Q := fun _ c => c = j.finishing r log) ?_ fun _ c hc => ?_
  · rintro done e rest hl t rfl
    have he : e ∈ j.snapshots := by
      have hl' : j.snapshots = done ++ e :: rest := hl
      rw [hl']
      exact List.mem_append_right _ (List.mem_cons_self ..)
    have hsame : (j.finishing r log).snapshots.set e.id e.after =
        (j.finishing r log).snapshots :=
      Dir.set_get_self (Dir.get_setAll_of_mem h.entries_nodup he r.snapshots)
    have hstate : { j.finishing r log with
        snapshots := (j.finishing r log).snapshots.set e.id e.after } = j.finishing r log := by
      rw [hsame]
    exact Dur.Runs.write (hstate.symm ▸ hstay) hstate
  · subst hc
    unfold writeFork
    by_cases hname : j.commit.forkName = ""
    · rw [if_pos hname]
      exact Dur.Runs.pure rfl
    · rw [if_neg hname]
      have hname' : ¬ j.forkName = "" := hname
      have hstate : { j.finishing r log with
          sessions := if true then (j.finishing r log).sessions.set j.forkName j.forkTip
            else (j.finishing r log).sessions.erase j.forkName } = j.finishing r log := by
        simp only [JoinJournal.finishing, JoinJournal.projected, if_neg hname', if_true,
          Dir.set_set]
      exact Dur.Runs.write (hstate.symm ▸ hstay) hstate
  · subst hc
    have hstate : { j.finishing r log with
        heads := (j.finishing r log).heads.set j.branch (j.branchFile j.newHead) } =
        j.finishing r log := by
      simp only [JoinJournal.finishing, JoinJournal.projected, Dir.set_set]
    exact Dur.Runs.write (hstate.symm ▸ hstay) hstate

/-- The files after a join are between the two sides. -/
theorem Prepared.between_finishing (h : Prepared m r j) (log : List RefLogEntry) :
    Between r j (j.finishing r log) := by
  have hall := h.between_setAll (List.append_nil j.snapshots).symm
  refine ⟨rfl, rfl, rfl, rfl, hall.keys, hall.images, Or.inr rfl, ?_⟩
  by_cases hname : j.forkName = ""
  · exact Or.inl (if_pos hname)
  · exact Or.inr ⟨hname, if_neg hname⟩

end Finish

/-! ### Recovery -/

section Recover

variable {m : JoinMutation} {r c : Repo} {j : JoinJournal}

/-- Without a journal, recovery does nothing. -/
theorem runs_recover_idle (h : c.journal = none) :
    Dur.Runs recoverJoinJournals c I fun _ c' => c' = c := by
  have hread : c.pendingJoin = .ok none := by rw [Repo.pendingJoin, h]
  refine Dur.Runs.bind (Q := fun pending c' => pending = none ∧ c' = c)
    (Dur.Runs.read hread ⟨rfl, rfl⟩) ?_
  rintro _ _ ⟨rfl, rfl⟩
  exact Dur.Runs.pure rfl

/-- With a valid journal, recovery runs the branch of its phase. -/
theorem runs_recover {Q : Unit → Repo → Prop} {p : JoinJournal}
    (hread : c.pendingJoin = .ok (some p))
    (hback : p.phase = .prepared → Dur.Runs (rollBack p) c I Q)
    (hfinish : p.phase = .committed → Dur.Runs (finishCommittedJoin p) c I Q) :
    Dur.Runs recoverJoinJournals c I Q := by
  refine Dur.Runs.bind (Q := fun pending c' => pending = some p ∧ c' = c)
    (Dur.Runs.read hread ⟨rfl, rfl⟩) ?_
  rintro pending c' ⟨hpending, hc'⟩
  rw [hpending, hc']
  cases hphase : p.phase with
  | prepared => simpa only [hphase] using hback hphase
  | committed => simpa only [hphase] using hfinish hphase

/-- A prepared journal is in that phase. -/
theorem Prepared.with_phase (h : Prepared m r j) : { j with phase := .prepared } = j := by
  rw [← h.phase]

/-- **Before the commit, recovery leads back.** -/
theorem Midway.settles (h : Prepared m r j) (hrec : Recoverable m r)
    (hc : Midway r j c ∨ c = r) : Dur.Settles recoverJoinJournals c r := by
  refine Dur.settles_of_invariant (I := fun c => Midway r j c ∨ c = r) ?_ hc
  rintro c (hc | rfl)
  · have hj : c.journal = some { j with phase := .prepared } := by
      rw [h.with_phase]
      exact hc.journal
    have hread := hc.toBetween.pendingJoin h hrec hj
    rw [h.with_phase] at hread
    refine runs_recover hread (fun _ => hc.runs_back h hrec) fun hphase => ?_
    rw [h.phase] at hphase
    cases hphase
  · exact runs_recover_idle h.idle

/-- **After the commit, recovery leads to the repository after the join.** -/
theorem Finishing.settles (h : Prepared m r j) (hrec : Recoverable m r)
    (hc : Finishing r j c ∨ c = j.after r) : Dur.Settles recoverJoinJournals c (j.after r) := by
  refine Dur.settles_of_invariant (I := fun c => Finishing r j c ∨ c = j.after r) ?_ hc
  rintro c (hc | rfl)
  · obtain ⟨log, hlog, rfl⟩ := hc
    have hfin : Finishing r j (j.finishing r log) := ⟨log, hlog, rfl⟩
    have hj : (j.finishing r log).journal = some { j with phase := .committed } := rfl
    have hread := (h.between_finishing log).pendingJoin h hrec hj
    refine runs_recover hread (fun hphase => by cases hphase) fun _ => ?_
    refine Dur.Runs.bind ((hfin.runs_forward h).mono (fun _ => Or.inl) fun _ _ hQ => hQ) ?_
    rintro _ c' hc'
    rw [hc']
    exact hfin.runs_complete h
  · exact runs_recover_idle rfl

/-- The journal that a successful recovery validated. -/
theorem pendingJoin_of_result {p : JoinJournal} (hj : c.journal = some p)
    (h : recoverJoinJournals.result c = .ok ()) : c.pendingJoin = .ok (some p) := by
  cases hread : c.pendingJoin with
  | error e =>
      have herr : recoverJoinJournals.result c = .error e := Dur.result_bind_of_error hread
      rw [herr] at h
      cases h
  | ok pending =>
      simp only [Repo.pendingJoin, hj, bind_eq_ok, exists_unit_iff, wrapping_eq_ok,
        Except.ok.injEq] at hread
      rw [← hread.2.2.2]

/-- Rolling back leaves the branch file as `encodeRef` writes it. -/
theorem runs_rollBack_heads (hj : c.pendingJoin = .ok (some j)) (hphase : j.phase = .prepared) :
    Dur.Runs recoverJoinJournals c (fun _ => True) fun _ c' =>
      c'.heads.get j.branch = some (j.branchFile j.expectedHead) := by
  refine runs_recover hj (fun _ => ?_) fun hcommit => by rw [hphase] at hcommit; cases hcommit
  have hbranch : ∀ t, Dur.Runs (writeBranch j j.expectedHead) t (fun _ => True) fun _ c' =>
      c'.heads.get j.branch = some (j.branchFile j.expectedHead) := fun t =>
    Dur.Runs.write trivial (Dir.get_set_self ..)
  have hfork : ∀ t, Dur.Runs (writeFork j j.forkExisted) t (fun _ => True) fun _ _ => True := by
    intro t
    unfold writeFork
    by_cases hname : j.forkName = ""
    · rw [if_pos hname]
      exact Dur.Runs.pure trivial
    · rw [if_neg hname]
      exact Dur.Runs.write trivial trivial
  have himages : Dur.Runs (Dur.forEach (fun e : JoinEntry => writeImage e.id e.before)
      j.snapshots.reverse) c (fun _ => True) fun _ _ => True :=
    Dur.Runs.forEach (J := fun _ _ => True) trivial fun _ _ _ _ _ _ =>
      Dur.Runs.write trivial trivial
  refine Dur.Runs.bind (Dur.Runs.bind himages fun _ t _ => Dur.Runs.bind (hfork t) fun _ t' _ =>
    hbranch t') fun _ t ht => ?_
  exact Dur.Runs.write trivial ht

end Recover

/-! ### Every stop of a join -/

section Crash

variable {digest : JoinScope → ContentHash}
  {contextWrite : Repo → Ref → Except DomainError Unit} {m : JoinMutation} {now : ℕ} {r : Repo}
  {j : JoinJournal}

/-- The states before the commit: the start, the prepared journal and the projection. -/
def JoinJournal.openStates (j : JoinJournal) (r : Repo) : List Repo :=
  r :: { r with journal := some j } :: (projectForward j).trace { r with journal := some j }

/-- The states from the commit on. -/
def JoinJournal.closedStates (j : JoinJournal) (r : Repo) : List Repo :=
  j.finishing r r.reflog :: (completeCommittedJoin j.commit).trace (j.finishing r r.reflog)

section

variable (h : Prepared m r j)

include h

/-- The states in which a stop of `ApplyJoin` can leave the repository. -/
theorem crashes_applyJoin (hprep : r.prepareJoin digest contextWrite m now = .ok j) :
    (applyJoin digest contextWrite m now).crashes r = j.openStates r ++ j.closedStates r := by
  obtain ⟨-, _, hresult, hfinal⟩ := h.runs_forward
  have hread : (Dur.read (Repo.prepareJoin digest contextWrite m now)).result r = .ok j := hprep
  have hopen : (writeJournal (some j)).final r = { r with journal := some j } := rfl
  have hcommit : (writeJournal (some j.commit)).final
      ((projectForward j).final { r with journal := some j }) = j.finishing r r.reflog := by
    rw [hfinal]
    rfl
  have hmark : (writeJournal (some j.commit)).trace
      ((projectForward j).final { r with journal := some j }) = [j.finishing r r.reflog] := by
    rw [hfinal]
    rfl
  change r :: (Dur.read (Repo.prepareJoin digest contextWrite m now) >>= fun j => do
    writeJournal (some j)
    projectForward j
    writeJournal (some j.commit)
    completeCommittedJoin j.commit).trace r = _
  rw [Dur.trace_bind_of_ok hread, Dur.trace_read, List.nil_append, Dur.final_read,
    Dur.trace_bind_of_ok rfl, hopen, Dur.trace_bind_of_ok hresult, Dur.trace_bind_of_ok rfl, hmark,
    hcommit]
  rfl

/-- The states of an open journal: midway, or the state before. -/
theorem mem_openStates {c : Repo} (hc : c ∈ j.openStates r) :
    Midway r j c ∨ c = r := by
  rcases List.mem_cons.1 hc with rfl | hc
  · exact Or.inr rfl
  · rcases List.mem_cons.1 hc with rfl | hc
    · exact Or.inl ⟨h.between_setAll (List.nil_append j.snapshots).symm, rfl, rfl⟩
    · exact Or.inl (h.runs_forward.1 c hc)

/-- Those of a closed one: finishing, or the state after. -/
theorem mem_closedStates {c : Repo} (hc : c ∈ j.closedStates r) :
    Finishing r j c ∨ c = j.after r := by
  have hstart : Finishing r j (j.finishing r r.reflog) :=
    ⟨r.reflog, List.mem_cons_self .., rfl⟩
  rcases List.mem_cons.1 hc with rfl | hc
  · exact Or.inl hstart
  · exact (hstart.runs_complete h).1 c hc

/-- An open state is not committed. -/
theorem isCommitted_of_mem_openStates {c : Repo}
    (hc : c ∈ j.openStates r) : c.isCommitted = false := by
  rcases mem_openStates h hc with hmid | rfl
  · rw [Repo.isCommitted, hmid.journal]
    simp only [h.phase, reduceCtorEq, decide_false]
  · rw [Repo.isCommitted, h.idle]

/-- The last state before the commit is the whole projection. -/
theorem openStates_last : ∃ pre,
    j.openStates r = pre ++ [{ j.projected r with journal := some j }] := by
  obtain ⟨-, _, -, hfinal⟩ := h.runs_forward
  have hlast : (({ r with journal := some j } : Repo) ::
      (projectForward j).trace { r with journal := some j }).getLast (List.cons_ne_nil _ _) =
        { j.projected r with journal := some j } := by
    rw [← hfinal, Dur.final, List.getLastD_eq_getLast?, List.getLast_eq_getLastD]
    rw [List.getLastD_eq_getLast?]
  refine ⟨r :: (({ r with journal := some j } : Repo) ::
    (projectForward j).trace { r with journal := some j }).dropLast, ?_⟩
  rw [List.cons_append, ← hlast, List.dropLast_append_getLast]
  rfl

/-- A branch that recovery reads at its new head is not hidden there. -/
theorem Between.shown {c : Repo} (hc : Between r j c)
    (hheads : c.heads = r.heads.set j.branch (j.branchFile j.newHead))
    (hbranch : c.checkBranchProjection j = .ok ()) :
    r.contextProtocol = .ok 1 ∨ ∀ refs states, r.listRefsRaw = .ok refs →
      branchLifecycleStates refs = .ok states → hides (states m.branch) m.newHead = false := by
  have hfile : c.getRefRaw .branch j.branch = .ok (j.branchRefAt j.newHead) := by
    refine Repo.getRefRaw_branch.2 ⟨hc.id.symm ▸ h.repoValid, h.branchValid, _, ?_,
      branchRef_branchFile h hc.id h.newValid⟩
    rw [hheads, Dir.get_set_self]
  cases hread : c.getRef .branch j.branch with
  | error e =>
      rw [Repo.checkBranchProjection, hread] at hbranch
      cases hbranch
  | ok ref =>
      obtain ⟨hraw, hshown⟩ := Repo.getRef_branch.1 hread
      rw [hfile, Except.ok.injEq] at hraw
      rw [hc.contextProtocol] at hshown
      refine hshown.imp_right ?_
      rintro ⟨-, refs', states', hrefs', hstates', hvis⟩ refs states hrefs hstates
      obtain ⟨refs'', hrefs'', hsame⟩ := hc.listRefsRaw h hrefs
      rw [hrefs', Except.ok.injEq] at hrefs''
      rw [← hrefs'', hstates', hstates, Except.ok.injEq] at hsame
      rw [← hraw, hsame] at hvis
      rw [← h.branchEq, ← h.newEq]
      exact hvis

/-- The branch file is canonical when it is the one that recovery writes. -/
theorem Prepared.canonical_of_get
    (hget : r.heads.get j.branch = some (j.branchFile j.expectedHead)) (cur : Ref)
    (hcur : r.getRefRaw .branch m.branch = .ok cur) :
    r.heads.get m.branch = some (encodeRef
      { branchID := cur.branchID, kind := .branch, name := m.branch, repoID := r.id,
        target := cur.target }) := by
  obtain ⟨cur', hcur', htarget, hid⟩ := h.current
  have hraw := (Repo.getRef_branch.1 hcur').1
  rw [h.branchEq, hcur, Except.ok.injEq] at hraw
  subst hraw
  rw [htarget, hid, ← h.repo, ← h.branchEq]
  exact hget

end

/-- A state of the run lies before the commit, or the commit lies at or before it. -/
theorem split_states {A B pre post : List Repo} {c : Repo} (h : A ++ B = pre ++ c :: post) :
    (∃ post', A = pre ++ c :: post') ∨ ∃ pre', pre = A ++ pre' ∧ B = pre' ++ c :: post := by
  rcases List.append_eq_append_iff.1 h with ⟨pre', hpre, hB⟩ | ⟨rest, hA, hrest⟩
  · exact Or.inr ⟨pre', hpre, hB⟩
  · cases rest with
    | nil => exact Or.inr ⟨[], by rw [hA, List.append_nil, List.append_nil], hrest.symm⟩
    | cons x rest =>
        rw [List.cons_append, List.cons.injEq] at hrest
        exact Or.inl ⟨rest, by rw [hA, hrest.1]⟩

/-- None of the open states is committed. -/
theorem not_committed_openStates (h : Prepared m r j) {states : List Repo}
    (hs : ∀ c ∈ states, c ∈ j.openStates r) : states.any Repo.isCommitted = false := by
  rw [List.any_eq_false]
  intro c hc
  rw [isCommitted_of_mem_openStates h (hs c hc)]
  decide

/-- **When a stop of a join is harmless.**  The repository passed all checks of `ApplyJoin`.
Whatever write it stops at, and however often recovery is stopped too, recovery then succeeds
and leaves the repository as before the join, or, once the committed journal was written, as
after it: exactly when the join is recoverable. -/
theorem applyJoin_settles_iff (hrepo : m.repoID = r.id) (hnow : now ≠ 0)
    (hprep : r.prepareJoin digest contextWrite m now = .ok j) :
    (∀ pre c post, (applyJoin digest contextWrite m now).crashes r = pre ++ c :: post →
      Dur.Settles recoverJoinJournals c
        (if (pre ++ [c]).any Repo.isCommitted = true then j.after r else r)) ↔
    Recoverable m r := by
  have h := Repo.prepared_of_prepareJoin hrepo hnow hprep
  rw [crashes_applyJoin h hprep]
  constructor
  · intro hall
    have hopen : ∀ pre c post, j.openStates r = pre ++ c :: post →
        Dur.Settles recoverJoinJournals c r := by
      intro pre c post hsplit
      have hnot : (pre ++ [c]).any Repo.isCommitted = false :=
        not_committed_openStates h fun x hx => by
          rw [hsplit, ← List.singleton_append, ← List.append_assoc]
          exact List.mem_append_left _ hx
      have hset := hall pre c (post ++ j.closedStates r) (by rw [hsplit]; simp)
      rwa [if_neg (by rw [hnot]; decide)] at hset
    -- a stop right after the prepared journal
    obtain ⟨hresult, hfinal⟩ := hopen [r] _ _ rfl _ .refl
    have hpending := pendingJoin_of_result (c := { r with journal := some j }) rfl hresult
    have hgrafts : validateFSJoinJournal j r.id = .ok () := by
      simp only [Repo.pendingJoin, bind_eq_ok, exists_unit_iff, wrapping_eq_ok] at hpending
      exact hpending.1
    obtain ⟨-, _, -, hheads⟩ := runs_rollBack_heads hpending h.phase
    rw [hfinal] at hheads
    -- a stop right before the committed journal
    obtain ⟨pre, hlast⟩ := openStates_last h
    obtain ⟨hresult', -⟩ := hopen pre _ [] hlast _ .refl
    have hpending' := pendingJoin_of_result
      (c := { j.projected r with journal := some j }) rfl hresult'
    have hbetween : Between r j { j.projected r with journal := some j } :=
      { h.between_finishing r.reflog with }
    have hbranch : Repo.checkBranchProjection { j.projected r with journal := some j } j =
        .ok () := by
      simp only [Repo.pendingJoin, bind_eq_ok, exists_unit_iff, wrapping_eq_ok,
        Repo.validateJoinJournalProjection] at hpending'
      exact hpending'.2.2.1.1
    exact ⟨h.validateFSJoinJournal_iff.1 hgrafts, hbetween.shown h rfl hbranch,
      h.canonical_of_get hheads⟩
  · intro hrec pre c post hsplit
    rcases split_states hsplit with ⟨post', hA⟩ | ⟨pre', rfl, hB⟩
    · have hmem : ∀ x ∈ pre ++ [c], x ∈ j.openStates r := fun x hx => by
        rw [hA, ← List.singleton_append, ← List.append_assoc]
        exact List.mem_append_left _ hx
      have hnot := not_committed_openStates h hmem
      rw [if_neg (by rw [hnot]; decide)]
      refine Midway.settles h hrec (mem_openStates h (hmem c ?_))
      exact List.mem_append_right _ (List.mem_singleton_self _)
    · -- the committed journal is the first of the closed states
      have hfirst : j.finishing r r.reflog ∈ pre' ++ [c] := by
        cases pre' with
        | nil => exact List.mem_singleton.2 (List.cons.inj hB).1
        | cons x pre' => exact (List.cons.inj hB).1 ▸ List.mem_cons_self ..
      have hcommitted : ((j.openStates r ++ pre') ++ [c]).any Repo.isCommitted = true := by
        refine List.any_eq_true.2 ⟨j.finishing r r.reflog, ?_, rfl⟩
        rw [List.append_assoc]
        exact List.mem_append_right _ hfirst
      rw [if_pos hcommitted]
      refine Finishing.settles h hrec (mem_closedStates h ?_)
      rw [hB]
      exact List.mem_append_right _ (List.mem_cons_self ..)

theorem nodup_laneHeads :
    (List.map Prod.fst [("main", BranchFile.target (digitHash 'a'))]).Nodup := by decide

/-- The repository of `laneGraph`. -/
def laneRepo : Repo :=
  { id := digitHash '0'
    snapshots :=
      { entries := laneGraph.snapshots.map fun s => (s.id, encodeSnapshot s)
        nodup := by decide +kernel }
    head := none
    heads := { entries := [("main", .target (digitHash 'a'))], nodup := nodup_laneHeads }
    sessions := .empty
    tags := .empty
    protocol := none
    reflog := mainLog
    journal := none }

/-- The mutation of `lanePlan`: `a` lets go of its only graft parent. -/
def laneMutation : JoinMutation := lanePlan.toMutation "fork/v1/4/main/s"

/-- The journal of `laneMutation`. -/
def laneJournal : JoinJournal :=
  { phase := .prepared, repoID := digitHash '0', branch := "main", branchID := ""
    expectedHead := digitHash 'a', newHead := digitHash '1', forkName := "fork/v1/4/main/s"
    forkTip := digitHash '2', forkExisted := false, createdAt := 1
    snapshots := [
      { id := digitHash 'a', before := encodeSnapshot (digitSnapshot 'a' ['b'] ['2'])
        after := encodeSnapshot { digitSnapshot 'a' ['b'] [] with graftSeq := 1 } },
      { id := digitHash '1', before := encodeSnapshot (digitSnapshot '1' ['b'] [])
        after := encodeSnapshot
          { digitSnapshot '1' ['b'] ['a'] with grafted := true, graftSeq := 1 } }] }

/-- The journal of the sample. -/
theorem laneRepo_prepareJoin :
    laneRepo.prepareJoin (fun _ => "") (fun _ _ => .ok ()) laneMutation 1 = .ok laneJournal := by
  decide +kernel

/-- **A join that cannot be recovered**: it empties the register of `a`, and recovery refuses
its journal from the first write on. -/
theorem applyJoin_stuck_lane :
    laneRepo.prepareJoin (fun _ => "") (fun _ _ => .ok ()) laneMutation 1 = .ok laneJournal ∧
    { laneRepo with journal := some laneJournal } ∈
      (applyJoin (fun _ => "") (fun _ _ => .ok ()) laneMutation 1).crashes laneRepo ∧
    recoverJoinJournals.result { laneRepo with journal := some laneJournal } =
      .error { sentinel := .integrity,
               format := "validate join journal %s: join journal changes non-graft metadata %s",
               args := [digitHash '0', digitHash 'a'] } := by
  refine ⟨laneRepo_prepareJoin, ?_, by decide +kernel⟩
  exact List.mem_append_left _ (List.mem_cons_of_mem _ (List.mem_cons_self ..))

/-- The criterion at `laneRepo`. -/
theorem applyJoin_settles_iff_lane :
    (∀ pre c post, (applyJoin (fun _ => "") (fun _ _ => .ok ()) laneMutation 1).crashes laneRepo =
        pre ++ c :: post →
      Dur.Settles recoverJoinJournals c
        (if (pre ++ [c]).any Repo.isCommitted = true then laneJournal.after laneRepo
          else laneRepo)) ↔
    Recoverable laneMutation laneRepo :=
  applyJoin_settles_iff rfl (by decide) laneRepo_prepareJoin

end Crash

end Backend
end CxtHub
