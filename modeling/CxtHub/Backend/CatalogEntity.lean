/-
# The values of a catalog

`decodeCatalogMerkleEntry` of `catalog_merkle_validate.go`, the half that decodes the value of a
live entry: a snapshot, a ref, a history event or the protocol of the repository.
`decodeCatalogMerkleJSON` admits the fields of the type alone, each once, under their exact names
and without `null`, but for the collections of a snapshot; the value has to pass the check of its
type and to belong to its key and repository.

A value is read by the names of its fields, so the canonical text of a valid value is valid
(`entityValid_canonical`).

`time.Time.UnmarshalJSON` is a parameter, which gives the instant of a text.  Of a snapshot only
what its check reads is decoded; the hash of its state, which cannot fail, is left out.
-/

import CxtHub.Backend.BranchPull
import CxtHub.Backend.CatalogKeys
import CxtHub.Lib.JsonRecord

namespace CxtHub
namespace Backend

open Cli (HistoryEvent EventKind GitCreation PullRequestMerge)
open Json (FieldType Keeps isStr isBool isNum arrayOf orNull record fieldOf text flag texts uint64
  int64)

/-! ### Types -/

/-- A field with the tag `json:"name"`, which must be there. -/
def must (name : String) (kind : Json → Bool) : FieldType := ⟨name, true, kind⟩

/-- A field with the tag `json:"name,omitempty"`. -/
def may (name : String) (kind : Json → Bool) : FieldType := ⟨name, false, kind⟩

/-- `TeamIdentity`. -/
def teamIdentityType : List FieldType := [must "name" isStr, must "email" isStr, must "team" isStr]

/-- `Snapshot`, whose collections may be `null`. -/
def snapshotType : List FieldType :=
  [must "id" isStr, must "repo_id" isStr, must "branch" isStr,
    may "branches" (orNull (arrayOf isStr)), must "parents" (orNull (arrayOf isStr)),
    must "doc_hash" isStr, may "doc_identity" isStr, may "memory_hash" isStr,
    may "claude_settings" isStr, may "agents_settings" isStr, may "codex_settings" isStr,
    must "provider" isStr, must "fidelity" isStr, must "message" isStr,
    must "author" (record teamIdentityType), must "created_at" isStr, may "grafted" isBool,
    may "graft_parents" (orNull (arrayOf isStr)), may "graft_seq" isNum, may "session_id" isStr,
    may "models" (orNull (arrayOf isStr)), may "compaction_count" isNum]

/-- `Ref`. -/
def refType : List FieldType :=
  [may "branch_id" isStr, must "kind" isStr, must "name" isStr, must "repo_id" isStr,
    must "target" isStr, may "symbolic" isStr]

/-- `GitCreation`. -/
def gitCreationType : List FieldType :=
  [must "evidence" isStr, may "command" (arrayOf isStr), may "start_ref" isStr,
    may "start_commit" isStr, may "origin_branch" isStr, may "origin_branch_id" isStr]

/-- `PullRequestMerge`. -/
def pullRequestType : List FieldType :=
  [must "number" isNum, must "base_branch" isStr, must "head_branch" isStr, must "head_sha" isStr,
    must "merge_sha" isStr]

/-- `HistoryEvent`. -/
def historyType : List FieldType :=
  [may "creation" (record gitCreationType), may "pr_completed" isBool,
    may "recovery_evidence" isStr, may "pr" (record pullRequestType),
    may "source_branch_id" isStr, must "id" isStr, must "repo_id" isStr, must "branch_id" isStr,
    must "branch" isStr, must "kind" isStr, may "local_branch" isStr, may "previous_branch" isStr,
    may "binding_parent" isStr, may "name_parent" isStr, may "memory_selection_parent" isStr,
    may "source" isStr, may "target" isStr, may "shared_target" isStr, may "memory_source" isStr,
    may "memory_hash" isStr, may "memory_pinned" isBool, may "git_before" isStr,
    may "git_after" isStr, may "worktree_id" isStr, must "created_at" isStr]

/-- `catalogMerkleProtocol`. -/
def protocolType : List FieldType := [must "context_protocol" isNum]

/-! ### Values -/

/-- `json.Unmarshal` into a snapshot. -/
def snapshotOf (time : String → Option ℕ) (j : Json) : Option Snapshot := do
  let f := fieldOf (some j)
  let graftSeq ← uint64 (f "graft_seq")
  let compactionCount ← int64 (f "compaction_count")
  let createdAt ← time (text (f "created_at"))
  pure { id := text (f "id"), repoID := text (f "repo_id"), parents := texts (f "parents")
         docHash := text (f "doc_hash"), memoryHash := text (f "memory_hash")
         claudeSettings := text (f "claude_settings"), agentsSettings := text (f "agents_settings")
         codexSettings := text (f "codex_settings"), graftParents := texts (f "graft_parents")
         graftSeq, compactionCount, createdAt }

/-- `json.Unmarshal` into a ref; a kind that is none fails the check of the ref anyway. -/
def refOf (j : Json) : Option Ref := do
  let f := fieldOf (some j)
  let kind ← refKindOf (text (f "kind"))
  pure { branchID := text (f "branch_id"), kind, name := text (f "name")
         repoID := text (f "repo_id"), target := text (f "target")
         symbolic := text (f "symbolic") }

/-- The kind of an event by its name. -/
def eventKindOf (name : String) : EventKind :=
  (([("birth", .birth), ("attach", .attach), ("orphan", .orphan), ("position", .position),
    ("publish", .publish), ("advance", .advance), ("rename", .rename), ("archive", .archive),
    ("pr-merge", .prMerge)] : List (String × EventKind)).lookup name).getD (.other name)

/-- `json.Unmarshal` into the record of a creation. -/
def gitCreationOf (j : Json) : GitCreation :=
  let f := fieldOf (some j)
  { evidence := text (f "evidence"), command := (texts (f "command")).getD []
    startRef := text (f "start_ref"), startCommit := text (f "start_commit")
    originBranch := text (f "origin_branch"), originBranchID := text (f "origin_branch_id") }

/-- `json.Unmarshal` into a pull request. -/
def pullRequestOf (j : Json) : Option PullRequestMerge := do
  let f := fieldOf (some j)
  let number ← int64 (f "number")
  pure { number, baseBranch := text (f "base_branch"), headBranch := text (f "head_branch")
         headSHA := text (f "head_sha"), mergeSHA := text (f "merge_sha") }

/-- `json.Unmarshal` into a history event. -/
def historyOf (time : String → Option ℕ) (j : Json) : Option HistoryEvent := do
  let f := fieldOf (some j)
  let pr ← (f "pr").mapM pullRequestOf
  let createdAt ← time (text (f "created_at"))
  pure { creation := (f "creation").map gitCreationOf, prCompleted := flag (f "pr_completed")
         recoveryEvidence := text (f "recovery_evidence"), pr
         sourceBranchID := text (f "source_branch_id"), id := text (f "id")
         repoID := text (f "repo_id"), branchID := text (f "branch_id"), branch := text (f "branch")
         kind := eventKindOf (text (f "kind")), localBranch := text (f "local_branch")
         previousBranch := text (f "previous_branch"), bindingParent := text (f "binding_parent")
         nameParent := text (f "name_parent")
         memorySelectionParent := text (f "memory_selection_parent"), source := text (f "source")
         target := text (f "target"), sharedTarget := text (f "shared_target")
         memorySource := text (f "memory_source"), memoryHash := text (f "memory_hash")
         memoryPinned := flag (f "memory_pinned"), gitBefore := text (f "git_before")
         gitAfter := text (f "git_after"), worktreeID := text (f "worktree_id"), createdAt }

/-! ### Checks -/

/-- `validateCatalogMerkleSnapshot`. -/
def validateCatalogMerkleSnapshot (s : Snapshot) : Except DomainError Unit := do
  refuse (validContentHash s.id = false ∨ validContentHash s.docHash = false ∨ s.id ≠ s.docHash ∨
      maxGraftSeq < s.graftSeq ∨ s.compactionCount < 0)
    (catalogMerkleInvalid "snapshot identity or scalar")
  refuse (∃ hash ∈ [s.memoryHash, s.claudeSettings, s.agentsSettings, s.codexSettings],
      (validateOptionalContentHash hash).isOk = false)
    (catalogMerkleInvalid "snapshot attachment")
  refuse (∃ parent ∈ s.parents.list ++ s.graftParents.list, validContentHash parent = false)
    (catalogMerkleInvalid "snapshot parent")

/-- The check of a ref against its key. -/
def refValid (repo : ContentHash) (key : Except DomainError (String × String)) (r : Ref) : Bool :=
  match key with
  | .error _ => false
  | .ok (kind, name) => decide (r.repoID = repo ∧ r.kind.text = kind ∧ r.name = name) &&
      (validateRef r).isOk && (decide (r.kind = .head) || decide (r.symbolic = "")) &&
      (parseBranchLifecycleRef r).isOk

/-- The check of a value by the kind of its entry. -/
def jsonValid (time : String → Option ℕ) (repo : ContentHash) (e : CatalogEntry) (j : Json) :
    Bool :=
  if e.kind = "snapshot" then
    record snapshotType j && (snapshotOf time j).any fun s =>
      decide (s.repoID = repo ∧ s.id = e.key) && (validateCatalogMerkleSnapshot s).isOk
  else if e.kind = "ref" then
    record refType j && (refOf j).any (refValid repo (catalogMerkleRefKey e.key))
  else if e.kind = "history" then
    record historyType j && (historyOf time j).any fun event =>
      decide (event.repoID = repo ∧ event.id = e.key) && (validateHistoryEvent event).isOk
  else
    record protocolType j && (int64 (fieldOf (some j) "context_protocol")).any fun n =>
      decide (0 ≤ n ∧ n ≤ 1)

/-- The value of a live entry decodes and belongs to its key and repository. -/
def entityValid (time : String → Option ℕ) (repo : ContentHash) (e : CatalogEntry) : Bool :=
  (Json.parse e.value.toList).any (jsonValid time repo e)

/-! ### Canonical values -/

section Sorted

variable {j : Json} {time : String → Option ℕ}

/-- The sorted form of an identity has the fields of one. -/
theorem keeps_teamIdentity : Keeps (record teamIdentityType) :=
  .record (by simp [teamIdentityType, must, Json.keeps_isStr])

theorem keeps_gitCreation : Keeps (record gitCreationType) :=
  .record (by
    simp [gitCreationType, must, may, Json.keeps_isStr, Json.keeps_isStr.arrayOf])

theorem keeps_pullRequest : Keeps (record pullRequestType) :=
  .record (by simp [pullRequestType, must, Json.keeps_isStr, Json.keeps_isNum])

/-- The sorted form of a snapshot has the fields of a snapshot. -/
theorem keeps_snapshot : Keeps (record snapshotType) :=
  .record (by
    simp [snapshotType, must, may, Json.keeps_isStr, Json.keeps_isBool, Json.keeps_isNum,
      Json.keeps_isStr.arrayOf.orNull, keeps_teamIdentity])

theorem keeps_ref : Keeps (record refType) :=
  .record (by simp [refType, must, may, Json.keeps_isStr])

/-- The sorted form of an event has the fields of an event. -/
theorem keeps_history : Keeps (record historyType) :=
  .record (by
    simp [historyType, must, may, Json.keeps_isStr, Json.keeps_isBool, keeps_gitCreation,
      keeps_pullRequest])

theorem keeps_protocol : Keeps (record protocolType) :=
  .record (by simp [protocolType, must, Json.keeps_isNum])

/-- The same snapshot is decoded from the sorted value. -/
theorem snapshotOf_sorted (h : record snapshotType j = true) :
    snapshotOf time j.sorted = snapshotOf time j := by
  simp only [snapshotOf, Json.fieldOf_sorted h, Json.text_sorted, Json.texts_sorted,
    Json.uint64_sorted, Json.int64_sorted]

/-- So is the same ref. -/
theorem refOf_sorted (h : record refType j = true) : refOf j.sorted = refOf j := by
  simp only [refOf, Json.fieldOf_sorted h, Json.text_sorted]

/-- And the same record of a creation. -/
theorem gitCreationOf_sorted (h : record gitCreationType j = true) :
    gitCreationOf j.sorted = gitCreationOf j := by
  simp only [gitCreationOf, Json.fieldOf_sorted h, Json.text_sorted, Json.texts_sorted]

/-- And the same pull request. -/
theorem pullRequestOf_sorted (h : record pullRequestType j = true) :
    pullRequestOf j.sorted = pullRequestOf j := by
  simp only [pullRequestOf, Json.fieldOf_sorted h, Json.text_sorted, Json.int64_sorted]

/-- **The same event is decoded from the sorted value**, with the records inside it. -/
theorem historyOf_sorted (h : record historyType j = true) :
    historyOf time j.sorted = historyOf time j := by
  have hnames : (historyType.map FieldType.name).Nodup := by decide
  -- the two records inside an event are sorted with it
  have hcreation : ((fieldOf (some j) "creation").map Json.sorted).map gitCreationOf =
      (fieldOf (some j) "creation").map gitCreationOf := by
    cases hi : fieldOf (some j) "creation" with
    | none => rfl
    | some i =>
        have hi : record gitCreationType i = true :=
          Json.kind_of_record (f := may "creation" (record gitCreationType)) h hnames
            (by simp [historyType]) hi
        simp [gitCreationOf_sorted hi]
  have hpr : ((fieldOf (some j) "pr").map Json.sorted).mapM pullRequestOf =
      (fieldOf (some j) "pr").mapM pullRequestOf := by
    cases hi : fieldOf (some j) "pr" with
    | none => rfl
    | some i =>
        have hi : record pullRequestType i = true :=
          Json.kind_of_record (f := may "pr" (record pullRequestType)) h hnames
            (by simp [historyType]) hi
        simp [pullRequestOf_sorted hi]
  simp only [historyOf, Json.fieldOf_sorted h, Json.text_sorted, Json.flag_sorted, hcreation, hpr]

end Sorted

/-- The sorted value passes the check of its kind, under a key that is read as the same. -/
theorem jsonValid_sorted {time : String → Option ℕ} {repo : ContentHash} {e e' : CatalogEntry}
    {j : Json} (hkind : e'.kind = e.kind) (hkey : e.kind ≠ "ref" → e'.key = e.key)
    (hnames : catalogMerkleRefKey e'.key = catalogMerkleRefKey e.key)
    (h : jsonValid time repo e j = true) : jsonValid time repo e' j.sorted = true := by
  unfold jsonValid at h ⊢
  rw [hkind]
  split_ifs at h ⊢ with hsnapshot hrefKind hhistory <;>
    rw [Bool.and_eq_true] at h ⊢
  · rw [snapshotOf_sorted h.1, hkey (by rw [hsnapshot]; decide)]
    exact ⟨keeps_snapshot j h.1, h.2⟩
  · rw [refOf_sorted h.1, hnames]
    exact ⟨keeps_ref j h.1, h.2⟩
  · rw [historyOf_sorted h.1, hkey hrefKind]
    exact ⟨keeps_history j h.1, h.2⟩
  · rw [Json.fieldOf_sorted h.1, Json.int64_sorted]
    exact ⟨keeps_protocol j h.1, h.2⟩

/-- **The canonical form of an entry with a valid value has a valid value.** -/
theorem entityValid_canonical {time : String → Option ℕ} {repo : ContentHash} {e : CatalogEntry}
    {key value : String} (h : entityValid time repo e = true)
    (hkey : catalogMerkleNormalizedKey e = .ok key) (hvalue : canonicalText e.value = some value) :
    entityValid time repo { e with key := key, value := value } = true := by
  obtain ⟨j, hj, -, hsorted⟩ := parse_of_canonicalText hvalue
  rw [entityValid, hj] at h
  rw [entityValid, hsorted]
  refine jsonValid_sorted (e := e) rfl (fun hkind => ?_) (catalogMerkleRefKey_normalized hkey) h
  rcases normalizedKey_eq_ok.1 hkey with ⟨-, rfl⟩ | ⟨href, -⟩
  · rfl
  · exact absurd href hkind

end Backend
end CxtHub
