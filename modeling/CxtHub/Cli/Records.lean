/-
# The snapshots of a replica

The snapshots that the client keeps under `.cxt`, with the check of their hashes and the
read of `cli/internal/adapters/storage`.  A record is written as JSON and read back
unchanged, so a file is its decoded record.

Memories are content-addressed and not written by the modelled calls, so their verified
reads are a parameter (`Objects`).

Of a snapshot, the fields that no modelled function reads are left out: provider, session,
fidelity, author, creation time, models and the compaction count; of a memory digest,
everything but its owner.
-/

import CxtHub.Cli.History

namespace CxtHub
namespace Cli

open Backend (ContentHash)

/-- A folder of files. -/
abbrev Folder (ν : Type) := Std.ExtTreeMap String ν

/-- `DocumentRef`. -/
structure DocumentRef where
  hash : ContentHash
  identity : String
  deriving DecidableEq, Repr

/-- `Snapshot`. -/
structure Snapshot where
  id : ContentHash
  repoID : String
  branch : String := ""
  parents : List ContentHash := []
  docHash : ContentHash
  docIdentity : String := ""
  memoryHash : ContentHash := ""
  claudeSettings : ContentHash := ""
  agentsSettings : ContentHash := ""
  codexSettings : ContentHash := ""
  message : String := ""
  grafted : Bool := false
  graftParents : List ContentHash := []
  graftSeq : ℕ := 0
  deriving DecidableEq, Repr

/-- `Snapshot.DocumentRef`. -/
def Snapshot.documentRef (s : Snapshot) : DocumentRef :=
  { hash := s.docHash, identity := s.docIdentity }

/-- `DocumentIdentity.Validate`. -/
def validateDocIdentity (identity : String) : Except DomainError Unit :=
  refuse (identity ≠ "" ∧ identity ≠ "cxt-manifest-sha256-v1")
    { sentinel := .unsupportedDocumentIdentity, format := "%q", args := [identity] }

/-- `MaxGraftSeq`. -/
def maxGraftSeq : ℕ := 2 ^ 63 - 1

/-- `validateSnapshotRefs`. -/
def validateSnapshotRefs (snap : Snapshot) : Except DomainError Unit := do
  checkAll validateContentHash [snap.id, snap.docHash]
  validateDocIdentity snap.docIdentity
  refuse (snap.id ≠ snap.docHash) (bare .hashMismatch)
  checkAll validateOptionalContentHash
    [snap.memoryHash, snap.claudeSettings, snap.agentsSettings, snap.codexSettings]
  checkAll validateContentHash snap.parents
  checkAll validateContentHash snap.graftParents
  refuse (maxGraftSeq < snap.graftSeq)
    { sentinel := .hashMismatch, format := "graft sequence exceeds persistent range" }

/-- `MemoryDigest`. -/
structure MemoryDigest where
  snapshotID : ContentHash
  deriving DecidableEq, Repr

/-- The folder of memories: what `GetMemory` makes of each file. -/
structure Objects where
  memories : Folder (Except DomainError MemoryDigest)

/-- `GetMemory`. -/
def Objects.getMemory (o : Objects) (hash : ContentHash) : Except DomainError MemoryDigest := do
  validateContentHash hash
  (o.memories[hash]?).getD (.error (bare .notFound))

/-- The replica, of which the modelled calls read and write the snapshots. -/
structure Store where
  snapshots : Folder Snapshot := ∅

/-- `GetSnapshot`. -/
def Store.getSnapshot (st : Store) (id : ContentHash) : Except DomainError Snapshot := do
  validateContentHash id
  match st.snapshots[id]? with
  | none => .error (bare .notFound)
  | some snap => do
      validateSnapshotRefs snap
      refuse (snap.id ≠ id) (bare .hashMismatch)
      .ok snap

end Cli
end CxtHub
