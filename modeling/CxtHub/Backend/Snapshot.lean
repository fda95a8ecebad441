/-
# Snapshots and their reachability walk

`Snapshot` and `ReachabilityParents` of `backend/internal/domain/entities.go`,
and the two walks of `backend/internal/domain/join.go`: `snapshotReachableSet`
follows natural and graft parents, `naturalReachable` natural parents only.

The source indexes a list of snapshots by id in a map; `byID` is that lookup.
Where a list could hold an id twice the source rejects it (`PlanJoin`) or reads
it from a directory, which cannot.
-/

import CxtHub.Backend.Values
import CxtHub.Lib.Slices
import CxtHub.Lib.Worklist

namespace CxtHub
namespace Backend

open Relation Worklist

/-- `TeamIdentity`. -/
structure TeamIdentity where
  name : String := ""
  email : String := ""
  team : String := ""
  deriving DecidableEq, Repr

/-- `Snapshot`.  `docIdentity`, `provider` and `fidelity` are string types in the
source; instants are numbers, `0` the zero time. -/
structure Snapshot where
  id : ContentHash
  repoID : ContentHash
  branch : String := ""
  branches : Slice String := none
  parents : Slice ContentHash := none
  docHash : ContentHash
  docIdentity : String := ""
  memoryHash : ContentHash := ""
  claudeSettings : ContentHash := ""
  agentsSettings : ContentHash := ""
  codexSettings : ContentHash := ""
  provider : String := ""
  fidelity : String := ""
  message : String := ""
  author : TeamIdentity := {}
  createdAt : ℕ := 0
  grafted : Bool := false
  graftParents : Slice ContentHash := none
  graftSeq : ℕ := 0
  sessionID : String := ""
  models : Slice String := none
  compactionCount : Int := 0
  deriving DecidableEq, Repr

variable {snaps : List Snapshot} {a : ContentHash}

/-- `Snapshot.ReachabilityParents`: the natural parents, then the graft parents
not among them. -/
def Snapshot.reachabilityParents (s : Snapshot) : List ContentHash :=
  if s.graftParents.list.length = 0 then s.parents.list
  else s.parents.list ++ freshFrom s.parents.list s.graftParents.list

theorem Snapshot.mem_reachabilityParents {s : Snapshot} {p : ContentHash} :
    p ∈ s.reachabilityParents ↔ p ∈ s.parents.list ∨ p ∈ s.graftParents.list := by
  unfold Snapshot.reachabilityParents
  split_ifs with h
  · simp [List.length_eq_zero_iff.1 h]
  · rw [List.mem_append, mem_freshFrom]
    tauto

/-- `MaxGraftSeq`. -/
def maxGraftSeq : ℕ := 2 ^ 63 - 1

/-- The identity of documents stored as a root manifest. -/
def documentIdentityRootV1 : String := "cxt-manifest-sha256-v1"

/-- `DocumentIdentity.Validate`. -/
def validateDocIdentity (identity : String) : Except DomainError Unit :=
  refuse (identity ≠ "" ∧ identity ≠ documentIdentityRootV1)
    { sentinel := .unsupportedDocumentIdentity, format := "%q", args := [identity] }

/-- `validateSnapshotRefs` of `backend/internal/adapters/store/fs_store.go`, which every
read and write of a snapshot passes. -/
def validateSnapshotRefs (snap : Snapshot) : Except DomainError Unit := do
  validateDocIdentity snap.docIdentity
  checkAll validateContentHash [snap.repoID, snap.id, snap.docHash]
  refuse (snap.id ≠ snap.docHash) { sentinel := .integrity }
  checkAll validateOptionalContentHash
    [snap.memoryHash, snap.claudeSettings, snap.agentsSettings, snap.codexSettings]
  checkAll validateContentHash snap.parents.list
  checkAll validateContentHash snap.graftParents.list
  refuse (maxGraftSeq < snap.graftSeq)
    { sentinel := .integrity, format := "graft sequence exceeds persistent range" }

/-- What a stored snapshot is known to satisfy. -/
theorem validateSnapshotRefs_eq_ok {snap : Snapshot} (h : validateSnapshotRefs snap = .ok ()) :
    validContentHash snap.id = true ∧
      (∀ p ∈ snap.parents.list, validContentHash p = true) ∧
      (∀ p ∈ snap.graftParents.list, validContentHash p = true) ∧
      snap.graftSeq ≤ maxGraftSeq := by
  simp only [validateSnapshotRefs, bind_eq_ok, exists_unit_iff, checkAll_eq_ok, refuse_eq_ok,
    validateContentHash_eq_ok, List.mem_cons, List.not_mem_nil, or_false, forall_eq_or_imp,
    forall_eq, Nat.not_lt] at h
  obtain ⟨-, ⟨-, hid, -⟩, -, -, hparents, hgrafts, hseq⟩ := h
  exact ⟨hid, hparents, hgrafts, hseq⟩

/-- A valid snapshot stays valid with another valid register. -/
theorem validateSnapshotRefs_graft {snap : Snapshot} (h : validateSnapshotRefs snap = .ok ())
    {grafts : Slice ContentHash} {grafted : Bool} {seq : ℕ}
    (hgrafts : ∀ p ∈ grafts.list, validContentHash p = true) (hseq : seq ≤ maxGraftSeq) :
    validateSnapshotRefs { snap with graftParents := grafts, grafted := grafted,
                                     graftSeq := seq } = .ok () := by
  simp only [validateSnapshotRefs, bind_eq_ok, exists_unit_iff, checkAll_eq_ok, refuse_eq_ok,
    validateContentHash_eq_ok, Nat.not_lt] at h ⊢
  obtain ⟨hdoc, hhashes, hid, hoptional, hparents, -, -⟩ := h
  exact ⟨hdoc, hhashes, hid, hoptional, hparents, hgrafts, hseq⟩

/-- `byID[id]`. -/
def byID (snaps : List Snapshot) (id : ContentHash) : Option Snapshot :=
  snaps.find? fun s => s.id = id

/-- What is found under an id has it. -/
theorem byID_eq_some {id : ContentHash} {s : Snapshot}
    (h : byID snaps id = some s) : s ∈ snaps ∧ s.id = id :=
  ⟨List.mem_of_find?_eq_some h, by simpa using List.find?_some h⟩

theorem byID_eq_none {id : ContentHash} :
    byID snaps id = none ↔ ∀ s ∈ snaps, s.id ≠ id := by
  simp [byID]

/-- With distinct ids, the lookup finds every snapshot of the list. -/
theorem byID_of_mem (hn : (snaps.map Snapshot.id).Nodup) {s : Snapshot}
    (hs : s ∈ snaps) : byID snaps s.id = some s := by
  induction snaps with
  | nil => simp at hs
  | cons t snaps ih =>
      rw [List.map_cons, List.nodup_cons] at hn
      by_cases hts : t.id = s.id
      · rcases List.mem_cons.1 hs with rfl | hs
        · simp [byID]
        · exact absurd (List.mem_map.2 ⟨s, hs, hts.symm⟩) hn.1
      · have hs' := (List.mem_cons.1 hs).resolve_left fun h => hts (h ▸ rfl)
        rw [byID, List.find?_cons_of_neg (by simpa using hts)]
        exact ih hn.2 hs'

/-- The overlay parents of an id; none when the snapshot is missing. -/
def parentsOf (snaps : List Snapshot) (id : ContentHash) : List ContentHash :=
  match byID snaps id with
  | some s => s.reachabilityParents
  | none => []

/-- The natural parents of an id; none when the snapshot is missing. -/
def naturalParentsOf (snaps : List Snapshot) (id : ContentHash) : List ContentHash :=
  match byID snaps id with
  | some s => s.parents.list
  | none => []

/-- The walk skips the empty id. -/
def isNone (id : ContentHash) : Bool := decide (id = "")

/-- `snapshotReachableSet(byID, heads...)`. -/
def snapshotReachableSet (snaps : List Snapshot) (heads : List ContentHash) : List ContentHash :=
  reach (parentsOf snaps) isNone (snaps.map Snapshot.id) heads

/-- `naturalReachable(byID, from, anc)`. -/
def naturalReachable (snaps : List Snapshot) (start anc : ContentHash) : Bool :=
  if start = anc then true
  else reaches (naturalParentsOf snaps) (fun _ => false) (snaps.map Snapshot.id) start anc

/-- One step of the reachability walk. -/
def Step (snaps : List Snapshot) (a b : ContentHash) : Prop :=
  a ≠ "" ∧ b ∈ parentsOf snaps a

/-- The parents of a snapshot, natural and grafted. -/
theorem mem_parentsOf {b : ContentHash} :
    b ∈ parentsOf snaps a ↔
      ∃ s, byID snaps a = some s ∧ (b ∈ s.parents.list ∨ b ∈ s.graftParents.list) := by
  unfold parentsOf
  cases h : byID snaps a <;> simp [Snapshot.mem_reachabilityParents]

theorem parentsOf_of_notMem
    (h : a ∉ snaps.map Snapshot.id) : parentsOf snaps a = [] := by
  have hnone : byID snaps a = none :=
    byID_eq_none.2 fun s hs hid => h (List.mem_map.2 ⟨s, hs, hid⟩)
  rw [parentsOf, hnone]

theorem naturalParentsOf_of_notMem
    (h : a ∉ snaps.map Snapshot.id) : naturalParentsOf snaps a = [] := by
  have hnone : byID snaps a = none :=
    byID_eq_none.2 fun s hs hid => h (List.mem_map.2 ⟨s, hs, hid⟩)
  rw [naturalParentsOf, hnone]

/-- The edges of the walk are the steps of the ancestry. -/
theorem edge_eq_step (snaps : List Snapshot) : Edge (parentsOf snaps) isNone = Step snaps := by
  funext a b
  simp [Edge, Step, isNone]

/-- **The reachable set is the reflexive transitive closure of the overlay
parents**, over non-empty ids. -/
theorem mem_snapshotReachableSet {heads : List ContentHash}
    {x : ContentHash} :
    x ∈ snapshotReachableSet snaps heads ↔
      x ≠ "" ∧ ∃ h ∈ heads, ReflTransGen (Step snaps) h x := by
  rw [snapshotReachableSet, mem_reach (fun b hb => parentsOf_of_notMem hb), edge_eq_step]
  simp [isNone]

/-- One step along natural parents. -/
def NaturalStep (snaps : List Snapshot) (a b : ContentHash) : Prop :=
  b ∈ naturalParentsOf snaps a

/-- The walk along natural parents. -/
theorem naturalReachable_iff {start anc : ContentHash} :
    naturalReachable snaps start anc = true ↔ ReflTransGen (NaturalStep snaps) start anc := by
  have hedge : Edge (naturalParentsOf snaps) (fun _ => false) = NaturalStep snaps := by
    funext a b
    simp [Edge, NaturalStep]
  unfold naturalReachable
  split_ifs with h
  · simp [h, ReflTransGen.refl]
  · rw [reaches_iff (fun b hb => naturalParentsOf_of_notMem hb), hedge]

end Backend
end CxtHub
