/-
# The file store of one repository

The directory of a repository as `backend/internal/adapters/store/fs_store.go` keeps
it, and its reads: snapshots, refs with the lifecycle projection, the protocol
marker.  Every write of the source is an atomic rename, so a file holds one of the
values written to it.

A snapshot file is the JSON encoding of a snapshot.  Encoding drops an empty slice
of a field marked `omitempty`, and decoding gives nil for it: `SnapshotFile` holds
the snapshots that come back unchanged, and `encodeSnapshot` is what is stored.
-/

import CxtHub.Backend.Lifecycle
import CxtHub.Backend.Snapshot
import CxtHub.Lib.CycleSearch
import CxtHub.Lib.Dir

namespace CxtHub
namespace Backend

variable {α ε β : Type}

/-- `omitempty` on a slice. -/
def omitSlice {α : Type} (s : Slice α) : Slice α := if s.list.length = 0 then none else s

/-- What a snapshot reads back as after one encoding. -/
def omitEmpty (s : Snapshot) : Snapshot :=
  { s with
    branches := omitSlice s.branches
    graftParents := omitSlice s.graftParents
    models := omitSlice s.models }

@[simp] theorem omitSlice_omitSlice (s : Slice α) :
    omitSlice (omitSlice s) = omitSlice s := by
  unfold omitSlice
  split_ifs <;> simp_all

@[simp] theorem list_omitSlice (s : Slice α) : (omitSlice s).list = s.list := by
  unfold omitSlice
  split_ifs with h
  · rw [List.length_eq_zero_iff.1 h, Slice.list_none]
  · rfl

/-- Omitting empty lists twice changes nothing. -/
theorem omitEmpty_omitEmpty (s : Snapshot) : omitEmpty (omitEmpty s) = omitEmpty s := by
  simp [omitEmpty]

/-- The content of a snapshot file. -/
abbrev SnapshotFile := { s : Snapshot // omitEmpty s = s }

/-- `json.Marshal(snap)`. -/
def encodeSnapshot (s : Snapshot) : SnapshotFile := ⟨omitEmpty s, omitEmpty_omitEmpty s⟩

/-- A stored image is its own encoding. -/
@[simp] theorem encodeSnapshot_val (f : SnapshotFile) : encodeSnapshot f.1 = f :=
  Subtype.ext f.2

/-- The content of a branch file: a bare target, or a JSON record. -/
inductive BranchFile
  | target (t : ContentHash)
  | record (ref : Ref)
  deriving DecidableEq, Repr

/-- `encodeRef` for a branch. -/
def encodeRef (ref : Ref) : BranchFile :=
  if ref.kind = .branch ∧ ref.branchID ≠ "" then .record ref else .target ref.target

/-- `fsJoinSnapshot`: the images of one snapshot before and after a join. -/
structure JoinEntry where
  id : ContentHash
  before : SnapshotFile
  after : SnapshotFile
  deriving DecidableEq

/-- `fsJoinPhase`. -/
inductive JoinPhase
  | prepared
  | committed
  deriving DecidableEq, Repr

/-- `fsJoinJournal`; the version written is always `1`. -/
structure JoinJournal where
  version : ℕ := 1
  phase : JoinPhase
  repoID : ContentHash
  branch : String
  branchID : String
  expectedHead : ContentHash
  newHead : ContentHash
  forkName : String
  forkTip : ContentHash
  forkExisted : Bool
  createdAt : ℕ
  snapshots : List JoinEntry
  deriving DecidableEq

/-- The directory of a repository.  `id` names the directory; `protocol` is the text of the
`context-protocol` file; `reflog` holds the lines in the order they were appended. -/
structure Repo where
  id : ContentHash
  snapshots : Dir ContentHash SnapshotFile
  head : Option String
  heads : Dir String BranchFile
  sessions : Dir String ContentHash
  tags : Dir String ContentHash
  protocol : Option String
  reflog : List RefLogEntry
  journal : Option JoinJournal
  deriving DecidableEq

def notFound : DomainError := { sentinel := .notFound }

def integrity : DomainError := { sentinel := .integrity }

/-- `GetSnapshot`. -/
def Repo.getSnapshot (r : Repo) (id : ContentHash) : Except DomainError Snapshot := do
  checkAll validateContentHash [r.id, id]
  let some file := r.snapshots.get id | .error notFound
  validateSnapshotRefs file.1
  refuse (file.1.repoID ≠ r.id ∨ file.1.id ≠ id) integrity
  .ok file.1

/-- Read each element of a list; the first error ends the loop. -/
def readAll {ε α β : Type} (f : α → Except ε β) : List α → Except ε (List β)
  | [] => .ok []
  | a :: l => do
      let b ← f a
      let rest ← readAll f l
      .ok (b :: rest)

/-- The loop reads one value for each element, in order. -/
theorem readAll_eq_ok {f : α → Except ε β} {l : List α} {bs : List β} :
    readAll f l = .ok bs ↔ List.Forall₂ (fun a b => f a = .ok b) l bs := by
  induction l generalizing bs with
  | nil => cases bs <;> simp [readAll]
  | cons a l ih =>
      simp only [readAll, bind_eq_ok, ih, Except.ok.injEq]
      constructor
      · rintro ⟨b, hb, rest, hrest, rfl⟩
        exact .cons hb hrest
      · intro h
        cases h with
        | cons hb hrest => exact ⟨_, hb, _, hrest, rfl⟩

/-- Every value read comes from an element. -/
theorem exists_of_mem_readAll {f : α → Except ε β} {l : List α} {bs : List β}
    (h : readAll f l = .ok bs) : ∀ b ∈ bs, ∃ a ∈ l, f a = .ok b := by
  rw [readAll_eq_ok] at h
  induction h with
  | nil => exact fun b hb => by cases hb
  | cons hab _ ih =>
      intro b hb
      rcases List.mem_cons.1 hb with rfl | hb
      · exact ⟨_, List.mem_cons_self .., hab⟩
      · obtain ⟨a, ha, hfa⟩ := ih b hb
        exact ⟨a, List.mem_cons_of_mem _ ha, hfa⟩

/-- Every element gives a value. -/
theorem exists_mem_of_readAll {f : α → Except ε β} {l : List α} {bs : List β}
    (h : readAll f l = .ok bs) : ∀ a ∈ l, ∃ b ∈ bs, f a = .ok b := by
  rw [readAll_eq_ok] at h
  induction h with
  | nil => exact fun a ha => by cases ha
  | cons hab _ ih =>
      intro a ha
      rcases List.mem_cons.1 ha with rfl | ha
      · exact ⟨_, List.mem_cons_self .., hab⟩
      · obtain ⟨b, hb, hfa⟩ := ih a ha
        exact ⟨b, List.mem_cons_of_mem _ hb, hfa⟩

/-- A list is read when each item is. -/
theorem readAll_of_forall {f : α → Except ε β} {l : List α}
    (h : ∀ a ∈ l, ∃ b, f a = .ok b) : ∃ bs, readAll f l = .ok bs := by
  induction l with
  | nil => exact ⟨[], rfl⟩
  | cons a l ih =>
      obtain ⟨b, hb⟩ := h a (List.mem_cons_self ..)
      obtain ⟨bs, hbs⟩ := ih fun x hx => h x (List.mem_cons_of_mem _ hx)
      exact ⟨b :: bs, readAll_eq_ok.2 (.cons hb (readAll_eq_ok.1 hbs))⟩

/-- Two loops over the same elements, related element by element. -/
theorem map_readAll {γ : Type} {f : α → Except ε β} {g : α → Except ε γ} {φ : β → γ}
    {l : List α} (h : ∀ a ∈ l, ∀ b c, f a = .ok b → g a = .ok c → φ b = c) {bs : List β}
    {cs : List γ} (hf : readAll f l = .ok bs) (hg : readAll g l = .ok cs) : bs.map φ = cs := by
  rw [readAll_eq_ok] at hf hg
  induction hf generalizing cs with
  | nil => cases hg; rfl
  | cons hb _ ih =>
      cases hg with
      | cons hc hrest =>
          rw [List.map_cons, h _ (List.mem_cons_self ..) _ _ hb hc,
            ih (fun x hx => h x (List.mem_cons_of_mem _ hx)) hrest]

/-- A snapshot is read from the file of its id, which holds a valid snapshot of that id. -/
theorem Repo.getSnapshot_eq_ok {r : Repo} {id : ContentHash} {s : Snapshot} :
    r.getSnapshot id = .ok s ↔ validContentHash r.id = true ∧ validContentHash id = true ∧
      (∃ file, r.snapshots.get id = some file ∧ file.1 = s) ∧
      validateSnapshotRefs s = .ok () ∧ s.repoID = r.id ∧ s.id = id := by
  unfold Repo.getSnapshot
  simp only [bind_eq_ok, exists_unit_iff, checkAll_eq_ok, validateContentHash_eq_ok,
    List.mem_cons, List.not_mem_nil, or_false, forall_eq_or_imp, forall_eq]
  cases hfile : r.snapshots.get id with
  | none => simp
  | some file =>
      simp only [bind_eq_ok, exists_unit_iff, refuse_eq_ok, not_or, not_not, Except.ok.injEq,
        Option.some.injEq, exists_eq_left']
      constructor
      · rintro ⟨⟨hr, hid⟩, hv, ⟨hrepo, heq⟩, rfl⟩
        exact ⟨hr, hid, rfl, hv, hrepo, heq⟩
      · rintro ⟨hr, hid, rfl, hv, hrepo, heq⟩
        exact ⟨⟨hr, hid⟩, hv, ⟨hrepo, heq⟩, rfl⟩

/-- `ListSnapshots`.  The source sorts the result by creation time; no modelled caller
depends on the order. -/
def Repo.listSnapshots (r : Repo) : Except DomainError (List Snapshot) := do
  validateContentHash r.id
  readAll r.getSnapshot (r.snapshots.keys.filter validContentHash)

/-- The listed ids are the names of the files. -/
theorem Repo.listSnapshots_ids {r : Repo} {snaps : List Snapshot}
    (h : r.listSnapshots = .ok snaps) :
    snaps.map Snapshot.id = r.snapshots.keys.filter validContentHash := by
  simp only [Repo.listSnapshots, bind_eq_ok, exists_unit_iff, readAll_eq_ok] at h
  have hids : ∀ (ids : List ContentHash) (ss : List Snapshot),
      List.Forall₂ (fun id s => r.getSnapshot id = .ok s) ids ss → ss.map Snapshot.id = ids := by
    intro ids ss hss
    induction hss with
    | nil => rfl
    | cons hs _ ih => rw [List.map_cons, ih, (Repo.getSnapshot_eq_ok.1 hs).2.2.2.2.2]
  exact hids _ _ h.2

/-- The listing holds exactly the snapshots that can be read. -/
theorem Repo.mem_listSnapshots {r : Repo} {snaps : List Snapshot}
    (h : r.listSnapshots = .ok snaps) {s : Snapshot} :
    s ∈ snaps ↔ r.getSnapshot s.id = .ok s := by
  have hids := Repo.listSnapshots_ids h
  simp only [Repo.listSnapshots, bind_eq_ok, exists_unit_iff] at h
  have hread : ∀ t ∈ snaps, r.getSnapshot t.id = .ok t := by
    intro t ht
    obtain ⟨id, -, hid⟩ := exists_of_mem_readAll h.2 t ht
    rwa [(Repo.getSnapshot_eq_ok.1 hid).2.2.2.2.2]
  refine ⟨hread s, fun hs => ?_⟩
  obtain ⟨-, hid, ⟨file, hfile, -⟩, -⟩ := Repo.getSnapshot_eq_ok.1 hs
  have hmem : s.id ∈ snaps.map Snapshot.id := by
    rw [hids]
    exact List.mem_filter.2 ⟨Dir.mem_keys_iff.2 ⟨file, hfile⟩, hid⟩
  obtain ⟨t, ht, htid⟩ := List.mem_map.1 hmem
  have hts := hread t ht
  rw [htid, hs, Except.ok.injEq] at hts
  exact hts ▸ ht

/-- The ref of a bare target. -/
def Repo.plainRef (r : Repo) (kind : RefKind) (name : String) (target : ContentHash) :
    Except DomainError Ref :=
  let ref : Ref := { kind := kind, name := name, repoID := r.id, target := target }
  validateRef ref >>= fun _ => .ok ref

/-- The content of HEAD: `ref: refs/heads/…` or a target. -/
def Repo.headRef (r : Repo) (content : String) : Except DomainError Ref :=
  if hasPrefix content "ref: refs/heads/" then
    let ref : Ref :=
      { kind := .head, name := headRefName, repoID := r.id, target := ""
        symbolic := trimPrefix content "ref: refs/heads/" }
    validateRef ref >>= fun _ => .ok ref
  else r.plainRef .head headRefName content

/-- The content of a branch file. -/
def Repo.branchRef (r : Repo) (name : String) : BranchFile → Except DomainError Ref
  | .target t => r.plainRef .branch name t
  | .record ref => do
      refuse (ref.repoID ≠ r.id ∨ ref.kind ≠ .branch ∨ ref.name ≠ name) integrity
      validateRef ref
      .ok ref

/-- A file, or `ErrNotFound`. -/
def orNotFound {α : Type} (file : Option α) (f : α → Except DomainError Ref) :
    Except DomainError Ref :=
  match file with
  | none => .error notFound
  | some content => f content

/-- `getRefRaw`. -/
def Repo.getRefRaw (r : Repo) (kind : RefKind) (name : String) : Except DomainError Ref := do
  validateContentHash r.id
  validateRefName kind name
  match kind with
  | .head => orNotFound r.head r.headRef
  | .branch => orNotFound (r.heads.get name) (r.branchRef name)
  | .session => orNotFound (r.sessions.get name) (r.plainRef .session name)
  | .tag => orNotFound (r.tags.get name) (r.plainRef .tag name)

/-- The HEAD entry of a listing; a missing HEAD is no error. -/
def Repo.listHead (r : Repo) : Except DomainError (List Ref) :=
  match r.getRefRaw .head headRefName with
  | .ok ref => .ok [ref]
  | .error e => if e.sentinel = .notFound then .ok [] else .error e

/-- `listRefsRaw`: HEAD, then branches, sessions and tags. -/
def Repo.listRefsRaw (r : Repo) : Except DomainError (List Ref) := do
  validateContentHash r.id
  let head ← r.listHead
  let heads ← readAll (r.getRefRaw .branch) r.heads.keys
  let sessions ← readAll (r.getRefRaw .session) r.sessions.keys
  let tags ← readAll (r.getRefRaw .tag) r.tags.keys
  .ok (head ++ heads ++ sessions ++ tags)

/-- `contextProtocol`. -/
def Repo.contextProtocol (r : Repo) : Except DomainError ℕ :=
  match r.protocol with
  | none => .ok 0
  | some text => if text = "1\n" then .ok 1 else .error integrity

/-- The ref of a kind and name in a listing. -/
def findRef (kind : RefKind) (name : String) (refs : List Ref) : Except DomainError Ref :=
  match refs.find? fun ref => ref.kind = kind ∧ ref.name = name with
  | some ref => .ok ref
  | none => .error notFound

/-- `GetRef`: under the legacy protocol branches and HEAD are read through the lifecycle
projection. -/
def Repo.getRef (r : Repo) (kind : RefKind) (name : String) : Except DomainError Ref := do
  let ref ← r.getRefRaw kind name
  if kind ≠ .branch ∧ kind ≠ .head then .ok ref
  else do
    let protocol ← r.contextProtocol
    if protocol = 1 then .ok ref
    else do
      let refs ← r.listRefsRaw
      let projected ← projectBranchLifecycleRefs refs
      findRef kind name projected

/-- `ListRefs`. -/
def Repo.listRefs (r : Repo) : Except DomainError (List Ref) := do
  let refs ← r.listRefsRaw
  let protocol ← r.contextProtocol
  if protocol = 1 then .ok refs else projectBranchLifecycleRefs refs

/-- `requireSnapshots`: each id that is not empty is stored. -/
def Repo.requireSnapshots (r : Repo) (ids : List ContentHash) : Except DomainError Unit :=
  checkAll (fun id =>
    if id = "" then .ok ()
    else match r.getSnapshot id with
      | .ok _ => .ok ()
      | .error e =>
          if e.sentinel = .notFound then
            .error { sentinel := .notFound, format := "snapshot %s", args := [id] }
          else .error e) ids

/-- `snapshotGraphHasCycle`. -/
def snapshotGraphHasCycle (snaps : List Snapshot) : Bool :=
  Graph.hasCycle (parentsOf snaps) (snaps.map Snapshot.id)

end Backend
end CxtHub
