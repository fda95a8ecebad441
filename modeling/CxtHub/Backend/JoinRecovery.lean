/-
# Recovery of an interrupted join

`recoverJoinJournals` of `backend/internal/adapters/store/fs_store.go` for the
directory of one repository: the journal is validated by itself, against the stored
graph and against the files, and then a prepared join is rolled back, a committed
one rolled forward.

Where the source prints the path of the journal, the id of its repository stands.
-/

import CxtHub.Backend.JoinJournal

namespace CxtHub
namespace Backend

/-- `fmt.Errorf(text + ": %w", args…, cause)`. -/
def DomainError.wrap (text : String) (args : List String) (cause : DomainError) : DomainError :=
  { cause with format := text ++ ": " ++ cause.format, args := args ++ cause.args }

/-- Wrap the error of a check. -/
def wrapping {α : Type} (text : String) (args : List String) :
    Except DomainError α → Except DomainError α
  | .ok a => .ok a
  | .error e => .error (e.wrap text args)

@[simp] theorem wrapping_eq_ok {α : Type} {text : String} {args : List String}
    {x : Except DomainError α} {a : α} : wrapping text args x = .ok a ↔ x = .ok a := by
  cases x <;> simp [wrapping]

/-- `fmt.Errorf("%w: text", ErrIntegrity)`. -/
def corrupt (format : String) (args : List String) : DomainError :=
  { sentinel := .integrity, format := format, args := args }

/-! ### The journal by itself -/

/-- The header checks of `validateFSJoinJournal`. -/
def validateJournalHeader (j : JoinJournal) (repoDir : ContentHash) :
    Except DomainError Unit := do
  refuse (j.version ≠ 1) (corrupt "unsupported join journal version/phase" [])
  refuse (validContentHash j.repoID = false ∨ validContentHash j.expectedHead = false ∨
      validContentHash j.newHead = false ∨ j.repoID ≠ repoDir ∨
      validBranchName j.branch = false ∨ j.createdAt = 0)
    (corrupt "invalid join journal header" [])
  refuse (validateRef { repoID := j.repoID, kind := .branch, name := j.branch,
                        target := j.newHead, branchID := j.branchID } ≠ .ok ()) integrity
  refuse (decide (j.forkName = "") ≠ decide (j.forkTip = "") ∨
      (j.forkExisted = true ∧ j.forkName = ""))
    (corrupt "incomplete join fork journal" [])
  refuse (j.forkName ≠ "" ∧ (validBranchName j.forkName = false ∨
      validContentHash j.forkTip = false))
    (corrupt "invalid join fork journal" [])

/-- The after image of an entry: the next graft sequence, and nothing changed but the
graft register.  The comparison of graft sets is `reflect.DeepEqual`, which tells nil
from an empty slice. -/
def validateTransition (before : Snapshot) (entry : JoinEntry) (repoID : ContentHash) :
    Except DomainError Unit :=
  match validateJoinSnapshot entry.after entry.id repoID with
  | .error _ => .error (corrupt "invalid join snapshot transition %s" [entry.id])
  | .ok after => do
      refuse (before.graftSeq = maxGraftSeq ∨ after.graftSeq ≠ before.graftSeq + 1)
        (corrupt "invalid join snapshot transition %s" [entry.id])
      refuse ({ before with graftParents := after.graftParents, grafted := after.grafted,
                            graftSeq := after.graftSeq } ≠ after ∨
          after.graftParents ≠ dedupHashParents after.id after.parents after.graftParents)
        (corrupt "join journal changes non-graft metadata %s" [entry.id])

/-- The loop of `validateFSJoinJournal` over the entries. -/
def validateJournalEntries (repoID : ContentHash) :
    List ContentHash → List JoinEntry → Except DomainError Unit
  | _, [] => .ok ()
  | seen, entry :: entries => do
      refuse (validContentHash entry.id = false ∨ entry.id ∈ seen)
        (corrupt "invalid/duplicate join snapshot" [])
      let before ← wrapping "join journal before %s" [entry.id]
        (validateJoinSnapshot entry.before entry.id repoID)
      validateTransition before entry repoID
      validateJournalEntries repoID (entry.id :: seen) entries

/-- What is checked of the entries of a journal. -/
theorem validateJournalEntries_eq_ok {repoID : ContentHash} {seen : List ContentHash}
    {entries : List JoinEntry} {u : Unit} :
    validateJournalEntries repoID seen entries = .ok u ↔
      (∀ e ∈ entries, validContentHash e.id = true ∧ ∃ before,
        validateJoinSnapshot e.before e.id repoID = .ok before ∧
        validateTransition before e repoID = .ok ()) ∧
      (entries.map JoinEntry.id).Nodup ∧ ∀ e ∈ entries, e.id ∉ seen := by
  induction entries generalizing seen with
  | nil => simp [validateJournalEntries]
  | cons e entries ih =>
      simp only [validateJournalEntries, bind_eq_ok, exists_unit_iff, refuse_eq_ok, not_or,
        Bool.not_eq_false, wrapping_eq_ok, ih, List.mem_cons, forall_eq_or_imp, List.map_cons,
        List.nodup_cons, List.mem_map, not_exists, not_and]
      constructor
      · rintro ⟨⟨hid, hseen⟩, before, hbefore, htrans, hall, hn, hfresh⟩
        exact ⟨⟨⟨hid, before, hbefore, htrans⟩, hall⟩, ⟨fun x hx => (hfresh x hx).1, hn⟩, hseen,
          fun x hx => (hfresh x hx).2⟩
      · rintro ⟨⟨⟨hid, before, hbefore, htrans⟩, hall⟩, ⟨hnew, hn⟩, hseen, hfresh⟩
        exact ⟨⟨hid, hseen⟩, before, hbefore, htrans, hall, hn,
          fun x hx => ⟨hnew x hx, hfresh x hx⟩⟩

/-- `validateFSJoinJournal`. -/
def validateFSJoinJournal (j : JoinJournal) (repoDir : ContentHash) :
    Except DomainError Unit := do
  validateJournalHeader j repoDir
  refuse (j.snapshots.length = 0) (corrupt "empty join journal" [])
  validateJournalEntries j.repoID [] j.snapshots

/-! ### The journal against the repository -/

/-- The graft parents of an after image; an image that does not decode has none. -/
def JoinEntry.afterGrafts (entry : JoinEntry) (repoID : ContentHash) : List ContentHash :=
  match validateJoinSnapshot entry.after entry.id repoID with
  | .ok after => after.graftParents.list
  | .error _ => []

/-- `validateJoinJournalGraphs`. -/
def Repo.validateJoinJournalGraphs (r : Repo) (j : JoinJournal) : Except DomainError Unit := do
  let all ← r.listSnapshots
  let stored := all.map Snapshot.id
  checkAll (fun id => refuse (id ≠ "" ∧ id ∉ stored)
    (corrupt "join journal ref target missing %s" [id])) [j.expectedHead, j.newHead, j.forkTip]
  checkAll (fun entry : JoinEntry => do
    refuse (entry.id ∉ stored) (corrupt "join journal snapshot missing %s" [entry.id])
    checkAll (fun parent => refuse (parent ∉ stored)
      (corrupt "join journal graft parent missing %s" [parent]))
      (entry.afterGrafts j.repoID)) j.snapshots
  match validateJoinTransitionOrder all j.snapshots j.repoID with
  | .ok () => .ok ()
  | .error e => .error (corrupt ("join journal transition order: " ++ e.format) e.args)

/-- The branch file agrees with the journal: the old or the new head. -/
def Repo.checkBranchProjection (r : Repo) (j : JoinJournal) : Except DomainError Unit :=
  match r.getRef .branch j.branch with
  | .error _ => .error (corrupt "join journal branch projection disagrees" [])
  | .ok branch =>
      refuse (branch.branchID ≠ j.branchID ∨
          (branch.target ≠ j.expectedHead ∧ branch.target ≠ j.newHead))
        (corrupt "join journal branch projection disagrees" [])

/-- A stored snapshot is one of the two images of its entry. -/
def Repo.checkEntryProjection (r : Repo) (j : JoinJournal) (entry : JoinEntry) :
    Except DomainError Unit :=
  match r.getSnapshot entry.id with
  | .error _ => .error (corrupt "join journal snapshot projection missing %s" [entry.id])
  | .ok current =>
      refuse (validateJoinSnapshot entry.before entry.id j.repoID ≠ .ok current ∧
          validateJoinSnapshot entry.after entry.id j.repoID ≠ .ok current)
        (corrupt "join journal snapshot projection disagrees %s" [entry.id])

/-- The residual session ref is at its target, or was not there before the join. -/
def Repo.checkForkProjection (r : Repo) (j : JoinJournal) : Except DomainError Unit :=
  if j.forkName = "" then .ok ()
  else match r.getRef .session j.forkName with
    | .ok fork => refuse (fork.target ≠ j.forkTip)
        (corrupt "join journal session projection disagrees" [])
    | .error e => refuse (¬ (e.sentinel = .notFound ∧ j.forkExisted = false))
        (corrupt "join journal session projection disagrees" [])

/-- `validateJoinJournalProjection`. -/
def Repo.validateJoinJournalProjection (r : Repo) (j : JoinJournal) :
    Except DomainError Unit := do
  r.checkBranchProjection j
  checkAll (r.checkEntryProjection j) j.snapshots
  r.checkForkProjection j

/-! ### Recovery -/

/-- The journal that recovery works on, fully validated. -/
def Repo.pendingJoin (r : Repo) : Except DomainError (Option JoinJournal) :=
  match r.journal with
  | none => .ok none
  | some j => do
      wrapping "validate join journal %s" [r.id] (validateFSJoinJournal j r.id)
      wrapping "validate join journal graph %s" [r.id] (r.validateJoinJournalGraphs j)
      wrapping "validate join journal projection %s" [r.id] (r.validateJoinJournalProjection j)
      .ok (some j)

/-- Undo a prepared join and remove its journal. -/
def rollBack (j : JoinJournal) : Dur Repo DomainError Unit := do
  projectBack j
  writeJournal none

/-- `finishCommittedJoin`. -/
def finishCommittedJoin (j : JoinJournal) : Dur Repo DomainError Unit := do
  projectForward j
  completeCommittedJoin j

/-- `recoverJoinJournals`. -/
def recoverJoinJournals : Dur Repo DomainError Unit := do
  let pending ← Dur.read Repo.pendingJoin
  match pending with
  | none => pure ()
  | some j =>
      match j.phase with
      | .prepared => rollBack j
      | .committed => finishCommittedJoin j

end Backend
end CxtHub
