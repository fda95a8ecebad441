/-
# The join journal

`FSStore.ApplyJoin` of `backend/internal/adapters/store/fs_store.go`.  A join is
prepared (all checks, and the before and after image of each patched snapshot),
written to the journal, projected file by file, marked committed, logged and
removed from the journal.

`ApplyJoin` first completes a history event left pending by a stop
(`recoverHistoryEvent`), a transaction with a journal of its own; a `Repo` is the
directory after that.  The digest of the join scope and the protocol check
`validateContextWrite` are parameters.  File operations succeed: the branch of the
source that undoes a join after a failed write (`failPreparedJoin`) is not modelled.
-/

import CxtHub.Backend.JoinValidation
import CxtHub.Backend.Store
import CxtHub.Lib.Durable

namespace CxtHub
namespace Backend

/-- `dedupHashParents`, which never returns nil. -/
def dedupHashParents (id : ContentHash) (natural graft : Slice ContentHash) :
    Slice ContentHash :=
  some (freshFrom ("" :: id :: natural.list) graft.list)

/-- `validateJoinSnapshot`. -/
def validateJoinSnapshot (file : SnapshotFile) (id repoID : ContentHash) :
    Except DomainError Snapshot := do
  refuse (file.1.id ≠ id ∨ file.1.repoID ≠ repoID) integrity
  validateSnapshotRefs file.1
  .ok file.1

/-! ### The order of the patches -/

/-- `candidate[position[id]] = snap`. -/
def replaceSnapshot (snap : Snapshot) (candidate : List Snapshot) : List Snapshot :=
  candidate.map fun t => if t.id = snap.id then snap else t

/-- The first loop of `validateJoinTransitionOrder`: start from the before images. -/
def loadBefore (repoID : ContentHash) :
    List JoinEntry → List Snapshot → Except DomainError (List Snapshot)
  | [], candidate => .ok candidate
  | entry :: entries, candidate => do
      refuse (entry.id ∉ candidate.map Snapshot.id)
        { sentinel := .integrity, format := "join transition snapshot missing %s",
          args := [entry.id] }
      let before ← validateJoinSnapshot entry.before entry.id repoID
      let _ ← validateJoinSnapshot entry.after entry.id repoID
      loadBefore repoID entries (replaceSnapshot before candidate)

/-- Put one image of each entry in place, in order, and look for a cycle each time. -/
def walkImages (image : JoinEntry → SnapshotFile) (format : String) :
    List JoinEntry → List Snapshot → Except DomainError (List Snapshot)
  | [], candidate => .ok candidate
  | entry :: entries, candidate => do
      let next := replaceSnapshot (image entry).1 candidate
      refuse (snapshotGraphHasCycle next = true) (conflict format [entry.id])
      walkImages image format entries next

/-- `validateJoinTransitionOrder`. -/
def validateJoinTransitionOrder (all : List Snapshot) (entries : List JoinEntry)
    (repoID : ContentHash) : Except DomainError Unit := do
  let start ← loadBefore repoID entries all
  refuse (snapshotGraphHasCycle start = true)
    (conflict "join before-state contains a reachability cycle")
  let done ← walkImages JoinEntry.after
    "join patch order creates an intermediate reachability cycle at %s" entries start
  let _ ← walkImages JoinEntry.before
    "join rollback order creates an intermediate reachability cycle at %s" entries.reverse done
  .ok ()

/-! ### Preparing a join -/

/-- The loop body of `ApplyJoin` on a snapshot: the register is replaced, the sequence
advances. -/
def graftedBy (patch : GraftPatch) (snap : Snapshot) : Snapshot :=
  let grafts := dedupHashParents snap.id snap.parents (some patch.parents)
  { snap with graftParents := grafts, grafted := decide (0 < grafts.list.length),
              graftSeq := snap.graftSeq + 1 }

/-- The journal entry of one patch. -/
def Repo.joinEntry (r : Repo) (patch : GraftPatch) : Except DomainError JoinEntry := do
  let snap ← r.getSnapshot patch.snapshotID
  refuse (snap.graftSeq ≠ patch.expectedSeq) { sentinel := .conflict }
  refuse (snap.graftSeq = maxGraftSeq) (conflict "graft sequence exhausted")
  .ok { id := patch.snapshotID, before := encodeSnapshot snap,
        after := encodeSnapshot (graftedBy patch snap) }

/-- The entry of a patch holds the images before and after it. -/
theorem Repo.joinEntry_eq_ok {r : Repo} {patch : GraftPatch} {entry : JoinEntry} :
    r.joinEntry patch = .ok entry ↔ ∃ snap, r.getSnapshot patch.snapshotID = .ok snap ∧
      snap.graftSeq = patch.expectedSeq ∧ snap.graftSeq ≠ maxGraftSeq ∧
      { id := patch.snapshotID, before := encodeSnapshot snap,
        after := encodeSnapshot (graftedBy patch snap) } = entry := by
  simp only [Repo.joinEntry, bind_eq_ok, exists_unit_iff, refuse_eq_ok, not_not, ne_eq,
    Except.ok.injEq]

/-- The branch ref a join starts from; any failure is a ref conflict. -/
def Repo.expectBranch (r : Repo) (branch : String) (head : ContentHash) :
    Except DomainError Ref :=
  match r.getRef .branch branch with
  | .ok cur => refuse (cur.target ≠ head) { sentinel := .refConflict } >>= fun _ => .ok cur
  | .error _ => .error { sentinel := .refConflict }

/-- Whether the residual session ref is there already; at another target it is a conflict. -/
def Repo.forkState (r : Repo) (forkName : String) (forkTip : ContentHash) :
    Except DomainError Bool :=
  if forkName = "" then .ok false
  else match r.getRef .session forkName with
    | .ok existing => refuse (existing.target ≠ forkTip) { sentinel := .refConflict } >>=
        fun _ => .ok true
    | .error e => if e.sentinel = .notFound then .ok false else .error e

/-- `ensureJoinGraphScope`. -/
def Repo.ensureJoinGraphScope (digest : JoinScope → ContentHash) (r : Repo)
    (m : JoinMutation) : Except DomainError Unit :=
  if m.grafts.length = 0 then .ok ()
  else do
    let snaps ← r.listSnapshots
    let refs ← r.listRefs
    validateJoinGraphScope digest m snaps refs

/-- The ids a join needs to be stored. -/
def JoinMutation.required (m : JoinMutation) : List ContentHash :=
  [m.source, m.expectedHead, m.newHead, m.forkTip] ++ m.segment ++
    m.grafts.flatMap fun p => p.snapshotID :: p.parents

/-- The checks of `ApplyJoin`, up to the journal it writes. -/
def Repo.prepareJoin (digest : JoinScope → ContentHash)
    (contextWrite : Repo → Ref → Except DomainError Unit) (m : JoinMutation) (now : ℕ)
    (r : Repo) : Except DomainError JoinJournal := do
  validateJoinMutation m
  refuse (r.journal.isSome = true) (conflict "unfinished join journal requires store recovery")
  let cur ← r.expectBranch m.branch m.expectedHead
  contextWrite r { branchID := m.branchID, kind := .branch, name := m.branch, repoID := m.repoID,
                   target := m.newHead }
  r.requireSnapshots m.required
  r.ensureJoinGraphScope digest m
  let entries ← readAll r.joinEntry m.grafts
  let all ← r.listSnapshots
  validateJoinTransitionOrder all entries m.repoID
  let existed ← r.forkState m.forkName m.forkTip
  .ok { phase := .prepared, repoID := m.repoID, branch := m.branch, branchID := cur.branchID
        expectedHead := m.expectedHead, newHead := m.newHead, forkName := m.forkName
        forkTip := m.forkTip, forkExisted := existed, createdAt := now, snapshots := entries }

/-! ### Writes -/

/-- The branch file of a journal at a target. -/
def JoinJournal.branchFile (j : JoinJournal) (target : ContentHash) : BranchFile :=
  encodeRef { branchID := j.branchID, kind := .branch, name := j.branch, repoID := j.repoID,
              target := target }

/-- Write the journal. -/
def writeJournal (j : Option JoinJournal) : Dur Repo DomainError Unit :=
  .write fun r => { r with journal := j }

/-- Write a snapshot image. -/
def writeImage (id : ContentHash) (image : SnapshotFile) : Dur Repo DomainError Unit :=
  .write fun r => { r with snapshots := r.snapshots.set id image }

/-- Write the branch file. -/
def writeBranch (j : JoinJournal) (target : ContentHash) : Dur Repo DomainError Unit :=
  .write fun r => { r with heads := r.heads.set j.branch (j.branchFile target) }

/-- Write or remove the residual session ref. -/
def writeFork (j : JoinJournal) (keep : Bool) : Dur Repo DomainError Unit :=
  if j.forkName = "" then pure ()
  else .write fun r =>
    { r with sessions := if keep then r.sessions.set j.forkName j.forkTip
                         else r.sessions.erase j.forkName }

/-- `applyJoinProjection(j, true)`. -/
def projectForward (j : JoinJournal) : Dur Repo DomainError Unit := do
  Dur.forEach (fun entry => writeImage entry.id entry.after) j.snapshots
  writeFork j true
  writeBranch j j.newHead

/-- `applyJoinProjection(j, false)`. -/
def projectBack (j : JoinJournal) : Dur Repo DomainError Unit := do
  Dur.forEach (fun entry => writeImage entry.id entry.before) j.snapshots.reverse
  writeFork j j.forkExisted
  writeBranch j j.expectedHead

/-- `ensureJoinReflog`: append the line unless it is there. -/
def ensureJoinReflog (entry : RefLogEntry) : Dur Repo DomainError Unit := do
  let logs ← Dur.read fun r : Repo => validateContentHash r.id >>= fun _ => .ok r.reflog
  if entry ∈ logs then pure () else .write fun r => { r with reflog := r.reflog ++ [entry] }

/-- The reflog line of the residual session ref. -/
def JoinJournal.forkLine (j : JoinJournal) : RefLogEntry :=
  { kind := .session, name := j.forkName, old := "", new := j.forkTip, createdAt := j.createdAt }

/-- The reflog line of the branch. -/
def JoinJournal.branchLine (j : JoinJournal) : RefLogEntry :=
  { kind := .branch, name := j.branch, old := j.expectedHead, new := j.newHead,
    createdAt := j.createdAt }

/-- Log the residual session ref if the join added it. -/
def ensureForkReflog (j : JoinJournal) : Dur Repo DomainError Unit :=
  if j.forkName ≠ "" ∧ j.forkExisted = false then ensureJoinReflog j.forkLine else pure ()

/-- `completeCommittedJoin`. -/
def completeCommittedJoin (j : JoinJournal) : Dur Repo DomainError Unit := do
  ensureForkReflog j
  ensureJoinReflog j.branchLine
  writeJournal none

/-- `ApplyJoin`. -/
def applyJoin (digest : JoinScope → ContentHash)
    (contextWrite : Repo → Ref → Except DomainError Unit) (m : JoinMutation) (now : ℕ) :
    Dur Repo DomainError Unit := do
  let j ← Dur.read (Repo.prepareJoin digest contextWrite m now)
  writeJournal (some j)
  projectForward j
  writeJournal (some { j with phase := .committed })
  completeCommittedJoin { j with phase := .committed }

end Backend
end CxtHub
