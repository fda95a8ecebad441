/-
# The graft register of a snapshot

The calls that write graft parents, as `backend/internal/adapters/store/fs_store.go`,
`fs_store_append.go` and `append_plan.go` have them: `AddGraftParents` and
`AddGraftParentsCAS` add edges, `SetGraftParents` replaces them, `ApplyJoin` and
`AppendRef` replace the registers of several snapshots through the join journal.

The repository that a call names is the directory it works on, so the repository id
of a call is the id of the `Repo`.  As for `ApplyJoin`, a `Repo` is the directory
after a pending history event was completed, and file operations succeed.
-/

import CxtHub.Backend.JoinCrash

namespace CxtHub
namespace Backend

/-- `requireNoPendingJoin`. -/
def Repo.requireNoPendingJoin (r : Repo) : Except DomainError Unit :=
  refuse (r.journal.isSome = true)
    (conflict "pending graph transaction; restart to recover")

/-- The checks that `addGraftParents` and `SetGraftParents` share, and the snapshot they read. -/
def Repo.openRegister (r : Repo) (id : ContentHash) (parents : List ContentHash) :
    Except DomainError Snapshot := do
  checkAll validateContentHash [r.id, id]
  checkAll validateContentHash parents
  r.requireNoPendingJoin
  let snap ← r.getSnapshot id
  r.requireSnapshots parents
  .ok snap

/-- The snapshot to be written, if the graph with it has no cycle. -/
def Repo.checkCycle (r : Repo) (next : Snapshot) (format : String) :
    Except DomainError (Option Snapshot) := do
  let all ← r.listSnapshots
  refuse (snapshotGraphHasCycle (replaceSnapshot next all) = true) (conflict format)
  .ok (some next)

/-- `addGraftParents` when every edge is there: only a client event with the current sequence
advances the register, and the one before it is a retry. -/
def acknowledge (snap : Snapshot) : Option ℕ → Except DomainError (Option Snapshot)
  | none => .ok none
  | some expected =>
      if snap.graftSeq = expected then do
        refuse (snap.graftSeq = maxGraftSeq) (conflict "graft sequence exhausted")
        .ok (some { snap with graftSeq := snap.graftSeq + 1 })
      else if expected < maxGraftSeq ∧ snap.graftSeq = expected + 1 then .ok none
      else .error { sentinel := .conflict }

/-- `addGraftParents`: the snapshot it writes, if any. -/
def Repo.addGraftParents (r : Repo) (id : ContentHash) (add : List ContentHash)
    (expected : Option ℕ) : Except DomainError (Option Snapshot) := do
  let snap ← r.openRegister id add
  let fresh := freshFrom ("" :: id :: snap.parents.list ++ snap.graftParents.list) add
  if fresh = [] then acknowledge snap expected
  else do
    refuse (expected.any (fun e => decide (snap.graftSeq ≠ e)) = true) { sentinel := .conflict }
    refuse (snap.graftSeq = maxGraftSeq) (conflict "graft sequence exhausted")
    r.checkCycle
      { snap with graftParents := some (snap.graftParents.list ++ fresh), grafted := true,
                  graftSeq := snap.graftSeq + 1 } "graft would create a reachability cycle"

/-- `SetGraftParents`: the snapshot it writes. -/
def Repo.setGraftParents (r : Repo) (id : ContentHash) (parents : List ContentHash) :
    Except DomainError (Option Snapshot) := do
  let snap ← r.openRegister id parents
  let out := freshFrom ("" :: id :: snap.parents.list) parents
  refuse (snap.graftSeq = maxGraftSeq) (conflict "graft sequence exhausted")
  r.checkCycle
    { snap with graftParents := some out, grafted := decide (0 < out.length),
                graftSeq := snap.graftSeq + 1 }
    "graft replacement would create a reachability cycle"

/-! ### `AppendRef` -/

/-- `walk` of `appendPlan`: the ancestors of a tip.  The loop ends at the first snapshot it
pops that is not stored. -/
def appendWalk (snaps : List Snapshot) (tip : ContentHash) :
    Except DomainError (List ContentHash) :=
  let seen := Worklist.reach (parentsOf snaps) (fun _ => false) (snaps.map Snapshot.id) [tip]
  match seen.reverse.find? fun id => id ∉ snaps.map Snapshot.id with
  | some id =>
      .error { sentinel := .integrity, format := "missing append ancestor %s", args := [id] }
  | none => .ok seen

/-- The patch of one incoming snapshot; `none` when it is not at the boundary.  Every incoming
snapshot is stored, or `appendWalk` would have failed. -/
def appendPatch (snaps : List Snapshot) (shared : List ContentHash) (old id : ContentHash) :
    Except DomainError (Option GraftPatch) :=
  match byID snaps id with
  | none => .ok none
  | some snap =>
      if snap.parents.list.length = 0 ∨
          snap.parents.list.any (fun p => shared.contains p) = true then do
        refuse (snap.graftSeq = maxGraftSeq) { sentinel := .conflict }
        .ok (some { snapshotID := id, expectedSeq := snap.graftSeq
                    parents := (dedupHashParents id snap.parents
                      (some (snap.graftParents.list ++ [old]))).list })
      else .ok none

/-- `appendPlan`. -/
def appendPlan (snaps : List Snapshot) (old next : ContentHash) :
    Except DomainError (List GraftPatch) := do
  let shared ← appendWalk snaps old
  let incoming ← appendWalk snaps next
  refuse (next ∈ shared ∨ old ∈ incoming) { sentinel := .refConflict }
  let ids := (incoming.filter fun id => id ∉ shared).insertionSort (· ≤ ·)
  let patches ← readAll (appendPatch snaps shared old) ids
  refuse (patches.filterMap id = []) integrity
  .ok (patches.filterMap id)

/-- The register of a snapshot after an append patch. -/
def appendedBy (patch : GraftPatch) (snap : Snapshot) : Snapshot :=
  { snap with graftParents := some patch.parents, grafted := decide (0 < patch.parents.length),
              graftSeq := snap.graftSeq + 1 }

/-- The journal entry of one append patch. -/
def Repo.appendEntry (r : Repo) (patch : GraftPatch) : Except DomainError JoinEntry := do
  let snap ← r.getSnapshot patch.snapshotID
  refuse (snap.graftSeq ≠ patch.expectedSeq) { sentinel := .conflict }
  .ok { id := snap.id, before := encodeSnapshot snap,
        after := encodeSnapshot (appendedBy patch snap) }

/-- The checks of `AppendRef`, up to the journal it writes. -/
def Repo.prepareAppend (contextWrite : Repo → Ref → Except DomainError Unit) (given : Ref)
    (expected : ContentHash) (now : ℕ) (r : Repo) : Except DomainError JoinJournal := do
  let ref := { given with repoID := r.id }
  validateRef ref
  refuse (ref.kind ≠ .branch) { sentinel := .validation }
  validateContentHash expected
  refuse (r.journal.isSome = true) { sentinel := .conflict }
  let current ← r.getRef ref.kind ref.name
  refuse (current.target ≠ expected) { sentinel := .refConflict }
  contextWrite r ref
  let snaps ← r.listSnapshots
  let patches ← appendPlan snaps expected ref.target
  let entries ← readAll r.appendEntry patches
  validateJoinTransitionOrder snaps entries r.id
  .ok { phase := .prepared, repoID := r.id, branch := ref.name, branchID := current.branchID
        expectedHead := expected, newHead := ref.target, forkName := "", forkTip := ""
        forkExisted := false, createdAt := now, snapshots := entries }

/-! ### Calls -/

/-- Write a snapshot, if there is one to write. -/
def storeSnapshot (id : ContentHash) : Option Snapshot → Dur Repo DomainError Unit
  | none => pure ()
  | some snap => writeImage id (encodeSnapshot snap)

/-- The writes of a journal: prepared, projected, committed, completed. -/
def commitJournal (j : JoinJournal) : Dur Repo DomainError Unit := do
  writeJournal (some j)
  projectForward j
  writeJournal (some { j with phase := .committed })
  completeCommittedJoin { j with phase := .committed }

/-- The calls that write graft registers. -/
inductive RegisterCall
  | add (id : ContentHash) (parents : List ContentHash)
  | addCAS (id : ContentHash) (parents : List ContentHash) (expected : ℕ)
  | set (id : ContentHash) (parents : List ContentHash)
  | join (m : JoinMutation) (now : ℕ)
  | append (ref : Ref) (expected : ContentHash) (now : ℕ)

/-- A call on the repository. -/
def RegisterCall.run (digest : JoinScope → ContentHash)
    (contextWrite : Repo → Ref → Except DomainError Unit) :
    RegisterCall → Dur Repo DomainError Unit
  | .add id parents => do
      let next ← Dur.read fun r => r.addGraftParents id parents none
      storeSnapshot id next
  | .addCAS id parents expected => do
      let next ← Dur.read fun r => r.addGraftParents id parents (some expected)
      storeSnapshot id next
  | .set id parents => do
      let next ← Dur.read fun r => r.setGraftParents id parents
      storeSnapshot id next
  | .join m now => fun r => applyJoin digest contextWrite { m with repoID := r.id } now r
  | .append ref expected now => do
      let j ← Dur.read fun r => r.prepareAppend contextWrite ref expected now
      commitJournal j

end Backend
end CxtHub
