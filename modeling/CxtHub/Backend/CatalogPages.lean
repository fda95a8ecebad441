/-
# Pages of a catalog tree

A client reads the tree of a frozen root node by node, and a leaf page by page:
`CatalogMerkleRequest`, `CatalogMerklePage` and their checks in
`backend/internal/domain/catalog_merkle.go`, and `readCatalogMerklePage` of
`backend/internal/adapters/store/postgres_catalog_merkle.go`, which serves them.

Following the offsets that the server returns reads a stored leaf to its end, and each page
passes the check of its receiver (`exists_chain`).

`offset`, `limit` and `NextOffset` are integers; a request is validated before it is served.
-/

import CxtHub.Backend.CatalogRefinement

namespace CxtHub
namespace Backend

variable {offset limit : ℤ}

def catalogVersion : ℤ := 1

def defaultCatalogLimit : ℤ := 256

def maxCatalogLimit : ℤ := 1000

/-- `ErrCatalogResetRequired`. -/
def errCatalogResetRequired : DomainError :=
  { sentinel := .plain, format := "catalog synchronization requires a new baseline" }

/-- `CatalogCheckpoint`. -/
structure CatalogCheckpoint where
  version : ℤ := catalogVersion
  repoID : ContentHash
  epoch : String
  sequence : ℤ
  deriving DecidableEq, Repr

/-- `CatalogMerkleRequest`. -/
structure CatalogMerkleRequest where
  version : ℤ := catalogMerkleVersion
  rootHash : ContentHash := ""
  checkpoint : Option CatalogCheckpoint := none
  pfx : String := ""
  offset : ℤ := 0
  limit : ℤ := 0
  deriving DecidableEq, Repr

/-- `CatalogMerklePage`. -/
structure CatalogMerklePage where
  version : ℤ := catalogMerkleVersion
  scope : String := catalogMerkleScope
  repoID : ContentHash
  checkpoint : CatalogCheckpoint
  rootHash : ContentHash
  pfx : String
  nodeHash : ContentHash
  count : ℤ
  children : List CatalogMerkleChild
  entries : List CatalogEntry
  offset : ℤ
  nextOffset : Option ℤ := none
  deriving DecidableEq, Repr

/-! ## Checks -/

/-- `catalogEpochValid`. -/
def catalogEpochValid (epoch : String) : Bool :=
  let bytes := bytesOf epoch
  decide (bytes.length = 36) && bytes.zipIdx.all fun (c, i) =>
    if i ∈ [8, 13, 18, 23] then decide (c = byteOf '-')
    else decide (byteOf '0' ≤ c ∧ c ≤ byteOf '9' ∨ byteOf 'a' ≤ c ∧ c ≤ byteOf 'f' ∨
      byteOf 'A' ≤ c ∧ c ≤ byteOf 'F')

/-- `catalogMerkleCheckpointValid`. -/
def catalogMerkleCheckpointValid (repo : ContentHash) (cp : CatalogCheckpoint) : Bool :=
  validContentHash repo && decide (cp.version = catalogVersion) && decide (cp.repoID = repo) &&
    catalogEpochValid cp.epoch && decide (0 ≤ cp.sequence)

/-- `CatalogMerkleRequest.Validate`. -/
def CatalogMerkleRequest.validate (r : CatalogMerkleRequest) : Except DomainError Unit := do
  refuse (r.version ≠ catalogMerkleVersion ∨ catalogMerklePrefixValid r.pfx = false ∨
      r.offset < 0 ∨ r.limit < 0 ∨ r.limit > maxCatalogLimit)
    (catalogMerkleInvalid "request shape")
  refuse (¬ (r.rootHash = "" ↔ r.checkpoint = none))
    (catalogMerkleInvalid "root hash and checkpoint must appear together")
  if r.rootHash = "" then
    refuse (r.pfx ≠ "" ∨ r.offset ≠ 0) (catalogMerkleInvalid "latest request must select root")
  else
    refuse (validContentHash r.rootHash = false ∨
        ∃ cp ∈ r.checkpoint, catalogMerkleCheckpointValid cp.repoID cp = false)
      (catalogMerkleInvalid "frozen root identity")
  refuse (r.pfx.utf8ByteSize < 2 ∧ r.offset ≠ 0) (catalogMerkleInvalid "branch offset")

/-- The limit that a request stands for. -/
def CatalogMerkleRequest.effectiveLimit (r : CatalogMerkleRequest) : ℤ :=
  if r.limit = 0 then defaultCatalogLimit else r.limit

/-- The node that a page shows, or the part of a leaf. -/
def CatalogMerklePage.node (p : CatalogMerklePage) : CatalogMerkleNode :=
  { version := p.version, scope := p.scope, repoID := p.repoID, pfx := p.pfx, count := p.count
    children := p.children, entries := p.entries }

/-- The end of `CatalogMerklePage.Validate`, on a complete node. -/
def CatalogMerklePage.validateHash (env : CatalogEnv) (p : CatalogMerklePage) :
    Except DomainError Unit := do
  let hash ← catalogMerkleHash env p.node
  refuse (hash ≠ p.nodeHash) (catalogMerkleInvalid "node hash mismatch")

/-- The check on the continuation of a leaf page. -/
def CatalogMerklePage.validateContinuation (p : CatalogMerklePage) : Except DomainError Unit :=
  let finish := p.offset + p.entries.length
  if finish < p.count then
    refuse (p.entries = [] ∨ p.nextOffset ≠ some finish)
      (catalogMerkleInvalid "leaf continuation progress")
  else
    refuse (p.nextOffset ≠ none ∨ p.offset ≠ 0 ∧ p.entries = [])
      (catalogMerkleInvalid "final leaf continuation")

/-- The leaf case of `CatalogMerklePage.Validate`. -/
def CatalogMerklePage.validateLeaf (env : CatalogEnv) (p : CatalogMerklePage) (repo : ContentHash)
    (request : CatalogMerkleRequest) : Except DomainError Unit := do
  refuse (p.children ≠ [] ∨ (p.entries.length : ℤ) > request.effectiveLimit ∨ p.offset > p.count ∨
      (p.entries.length : ℤ) > p.count - p.offset)
    (catalogMerkleInvalid "leaf page bounds")
  p.validateContinuation
  let _ ← catalogMerkleCanonicalEntries env repo p.pfx p.entries
  refuse (∃ e ∈ p.entries, e.sequence > p.checkpoint.sequence)
    (catalogMerkleInvalid "entry beyond checkpoint")
  if p.offset ≠ 0 ∨ p.nextOffset ≠ none then .ok () else p.validateHash env

/-- What is checked of the page of a leaf. -/
theorem CatalogMerklePage.validateLeaf_eq_ok {env : CatalogEnv} {p : CatalogMerklePage}
    {repo : ContentHash} {r : CatalogMerkleRequest} :
    p.validateLeaf env repo r = .ok () ↔
      (p.children = [] ∧ (p.entries.length : ℤ) ≤ r.effectiveLimit ∧ p.offset ≤ p.count ∧
        (p.entries.length : ℤ) ≤ p.count - p.offset) ∧
      p.validateContinuation = .ok () ∧
      (∃ out, catalogMerkleCanonicalEntries env repo p.pfx p.entries = .ok out) ∧
      (∀ e ∈ p.entries, e.sequence ≤ p.checkpoint.sequence) ∧
      (p.offset = 0 ∧ p.nextOffset = none → p.validateHash env = .ok ()) := by
  simp only [validateLeaf, bind_eq_ok, exists_unit_iff, refuse_eq_ok, not_or, not_not, ne_eq,
    gt_iff_lt, not_lt, not_exists, not_and]
  refine and_congr_right fun _ => and_congr_right fun _ => ?_
  rw [← exists_and_right]
  refine exists_congr fun out => and_congr_right fun _ => and_congr_right fun _ => ?_
  split_ifs with hpartial
  · exact iff_of_true rfl fun h => absurd h (by tauto)
  · exact ⟨fun h _ => h, fun h => h (by tauto)⟩

/-- `CatalogMerklePage.Validate`. -/
def CatalogMerklePage.validate (env : CatalogEnv) (p : CatalogMerklePage) (repo : ContentHash)
    (request : CatalogMerkleRequest) : Except DomainError Unit := do
  request.validate
  refuse (p.version ≠ catalogMerkleVersion ∨ p.scope ≠ catalogMerkleScope ∨ p.repoID ≠ repo ∨
      catalogMerkleCheckpointValid repo p.checkpoint = false ∨
      validContentHash p.rootHash = false ∨ validContentHash p.nodeHash = false ∨
      p.pfx ≠ request.pfx ∨ p.offset ≠ request.offset ∨ p.count < 0)
    (catalogMerkleInvalid "page identity or shape")
  refuse (request.rootHash ≠ "" ∧
      (request.rootHash ≠ p.rootHash ∨ request.checkpoint ≠ some p.checkpoint))
    (catalogMerkleInvalid "page frozen root boundary")
  refuse (p.pfx = "" ∧ p.nodeHash ≠ p.rootHash) (catalogMerkleInvalid "root node hash")
  if p.pfx.utf8ByteSize < 2 then do
    refuse (p.nextOffset ≠ none) (catalogMerkleInvalid "branch continuation")
    p.validateHash env
  else p.validateLeaf env repo request

/-! ## Serving a page -/

/-- What a read sees of a repository in the database. -/
structure CatalogMerkleStore where
  /-- `checkRepositoryDocumentIdentity`. -/
  identity : Except DomainError Unit
  /-- `catalogMerkleState`: epoch and head. -/
  state : Except DomainError (String × ℤ)
  /-- `repository_catalog_merkle_roots`, by epoch and sequence. -/
  roots : String → ℤ → Option ContentHash
  /-- `repository_catalog_merkle_nodes`. -/
  rows : CatalogRows

/-- The way from the root down to the node of a prefix, with the hash of the node. -/
def catalogMerkleNodeAt (env : CatalogEnv) (rows : CatalogRows) (repo root : ContentHash)
    (pfx : String) : Except DomainError (ContentHash × CatalogMerkleNode) := do
  let node ← loadCatalogMerkleNode env rows repo root "" (-1)
  pfx.toList.foldlM (fun p c => do
    let child := p.2.child c
    let node ← loadCatalogMerkleNode env rows repo child.hash child.pfx child.count
    .ok (child.hash, node)) (root, node)

/-- `page.Entries` and `page.NextOffset` of a leaf. -/
def leafSlice (r : CatalogMerkleRequest) (entries : List CatalogEntry) :
    Except DomainError (List CatalogEntry × Option ℤ) := do
  let total : ℤ := entries.length
  refuse (r.offset > total ∨ r.offset = total ∧ r.offset ≠ 0) { sentinel := .validation }
  let finish := r.offset + min r.effectiveLimit (total - r.offset)
  .ok ((entries.take finish.toNat).drop r.offset.toNat,
    if finish < total then some finish else none)

/-- `readCatalogMerklePage`.  `CatalogMerkle` fills in the checkpoint of a request without a
root, so that there is always one. -/
def readCatalogMerklePage (env : CatalogEnv) (db : CatalogMerkleStore) (repo : ContentHash)
    (r : CatalogMerkleRequest) : Except DomainError CatalogMerklePage := do
  db.identity
  let (epoch, head) ← db.state
  match r.checkpoint with
  | none => .error errCatalogResetRequired
  | some cp => do
      refuse (cp.repoID ≠ repo ∨ cp.epoch ≠ epoch ∨ cp.sequence > head) errCatalogResetRequired
      match db.roots cp.epoch cp.sequence with
      | none => .error errCatalogResetRequired
      | some root => do
          refuse (root ≠ r.rootHash) errCatalogResetRequired
          let (nodeHash, node) ← catalogMerkleNodeAt env db.rows repo root r.pfx
          let (entries, next) ←
            if node.pfx.utf8ByteSize = 2 then leafSlice r node.entries else .ok ([], none)
          let page : CatalogMerklePage :=
            { repoID := repo, checkpoint := cp, rootHash := root, pfx := node.pfx
              nodeHash := nodeHash, count := node.count, children := node.children
              entries := entries, offset := r.offset, nextOffset := next }
          page.validate env repo r
          .ok page

/-! ## Stored nodes -/

section Loaded

variable {env : CatalogEnv} {rows : CatalogRows} {repo hash : ContentHash} {pfx : String}
  {count : ℤ} {n : CatalogMerkleNode}

/-- What a node that was loaded is known to be. -/
theorem loaded_spec (h : loadCatalogMerkleNode env rows repo hash pfx count = .ok n) :
    rows hash = some n ∧ n.repoID = repo ∧ n.pfx = pfx ∧ catalogMerkleHash env n = .ok hash := by
  have hrow := loadCatalogMerkleNode_eq_ok h
  simp only [loadCatalogMerkleNode, hrow, bind_eq_ok, exists_unit_iff, refuse_eq_ok, not_or,
    not_not, ne_eq] at h
  exact ⟨hrow, h.1.1, h.1.2.1, h.2.1⟩

/-- A node is loaded with the count its parent gives. -/
theorem count_of_loaded (h : loadCatalogMerkleNode env rows repo hash pfx count = .ok n)
    (hcount : 0 ≤ count) : n.count = count := by
  have hrow := loadCatalogMerkleNode_eq_ok h
  simp only [loadCatalogMerkleNode, hrow, bind_eq_ok, exists_unit_iff, refuse_eq_ok, not_or,
    not_not, ne_eq, not_and] at h
  exact h.1.2.2 hcount

/-- A node with a hash passes the checks on its shape. -/
theorem shape_of_hash (h : catalogMerkleHash env n = .ok hash) :
    n.version = catalogMerkleVersion ∧ n.scope = catalogMerkleScope ∧ 0 ≤ n.count ∧
      (n.pfx.utf8ByteSize < 2 →
        n.children.length = 16 ∧ n.entries = [] ∧
          ChildrenFrom n.pfx catalogMerkleHex 0 n.children) ∧
      (¬ n.pfx.utf8ByteSize < 2 → n.children = [] ∧ n.count = n.entries.length ∧
        ∃ out, catalogMerkleCanonicalEntries env n.repoID n.pfx n.entries = .ok out) := by
  simp only [catalogMerkleHash, catalogMerkleText_eq, bind_eq_ok] at h
  obtain ⟨_, ⟨m, hm, -⟩, -⟩ := h
  simp only [catalogMerkleCanonicalNode, bind_eq_ok, exists_unit_iff, refuse_eq_ok, not_or,
    not_not, ne_eq, not_lt] at hm
  obtain ⟨⟨hversion, hscope, -, -, hcount⟩, hm⟩ := hm
  refine ⟨hversion, hscope, hcount, fun hbranch => ?_, fun hleaf => ?_⟩
  · simp only [if_pos hbranch, canonicalBranch, bind_eq_ok, exists_unit_iff, refuse_eq_ok, not_or,
      not_not, ne_eq, childrenCount_eq_ok] at hm
    obtain ⟨⟨hlength, hentries⟩, _, ⟨hchildren, -⟩, -⟩ := hm
    exact ⟨hlength, hentries, hchildren⟩
  · simp only [if_neg hleaf, canonicalLeaf, bind_eq_ok, exists_unit_iff, refuse_eq_ok, not_or,
      not_not, ne_eq] at hm
    obtain ⟨⟨hchildren, hlength⟩, out, hout, -⟩ := hm
    exact ⟨hchildren, hlength, out, hout⟩

/-- The hash of a node is well formed. -/
theorem validContentHash_of_hash (h : catalogMerkleHash env n = .ok hash) :
    validContentHash hash = true := by
  simp only [catalogMerkleHash, bind_eq_ok, Except.ok.injEq] at h
  obtain ⟨x, -, rfl⟩ := h
  exact validContentHash_hashContent x

/-- The children of a branch are named by the sixteen digits. -/
theorem pfx_of_childrenFrom {hex : List Char} {total : ℤ} {children : List CatalogMerkleChild}
    (h : ChildrenFrom pfx hex total children) (hlength : children.length = hex.length) :
    children.map CatalogMerkleChild.pfx = hex.map pfx.push := by
  induction children generalizing hex total with
  | nil =>
      rw [List.length_eq_zero_iff.1 hlength.symm]
      rfl
  | cons child rest ih =>
      cases hex with
      | nil => exact h.elim
      | cons c hex =>
          obtain ⟨hchild, -, -, -, hrest⟩ := h
          rw [List.map_cons, List.map_cons, hchild, ih hrest (by simpa using hlength)]

/-- No checked child has a negative count. -/
theorem count_of_childrenFrom {hex : List Char} {total : ℤ} {children : List CatalogMerkleChild}
    (h : ChildrenFrom pfx hex total children) : ∀ child ∈ children, 0 ≤ child.count := by
  induction children generalizing hex total with
  | nil => exact fun _ hchild => (List.not_mem_nil hchild).elim
  | cons child rest ih =>
      cases hex with
      | nil => exact h.elim
      | cons c hex =>
          obtain ⟨-, -, hcount, -, hrest⟩ := h
          exact List.forall_mem_cons.2 ⟨hcount, ih hrest⟩

/-- The children of a hashed branch have counts. -/
theorem child_count_nonneg (h : catalogMerkleHash env n = .ok hash) (hn : n.pfx.utf8ByteSize < 2)
    (c : Char) : 0 ≤ (n.child c).count := by
  obtain ⟨-, -, hchildren⟩ := (shape_of_hash h).2.2.2.1 hn
  rw [CatalogMerkleNode.child, List.getD_eq_getElem?_getD]
  cases hchild : n.children[catalogMerkleHex.idxOf c]? with
  | none => exact le_rfl
  | some child => exact count_of_childrenFrom hchildren child (List.mem_of_getElem? hchild)

/-- The child of a digit has the prefix of its branch and the digit. -/
theorem child_pfx (h : catalogMerkleHash env n = .ok hash) (hn : n.pfx.utf8ByteSize < 2) {c : Char}
    (hc : c ∈ catalogMerkleHex) : (n.child c).pfx = n.pfx.push c := by
  obtain ⟨hlength, -, hchildren⟩ := (shape_of_hash h).2.2.2.1 hn
  have hpfx := pfx_of_childrenFrom hchildren hlength
  have hlt : catalogMerkleHex.idxOf c < catalogMerkleHex.length := List.idxOf_lt_length_of_mem hc
  have hget := congrArg (·[catalogMerkleHex.idxOf c]?) hpfx
  simp only [List.getElem?_map, List.getElem?_eq_getElem hlt, List.getElem_idxOf hlt,
    Option.map_some] at hget
  rw [CatalogMerkleNode.child, List.getD_eq_getElem?_getD]
  cases hchild : n.children[catalogMerkleHex.idxOf c]? with
  | none => rw [hchild] at hget; cases hget
  | some child =>
      rw [hchild] at hget
      exact Option.some.inj hget

/-- The three nodes from the root down to a leaf. -/
structure Descent (env : CatalogEnv) (rows : CatalogRows) (repo root : ContentHash)
    (high low : Char) (rootNode branch leaf : CatalogMerkleNode) : Prop where
  loadRoot : loadCatalogMerkleNode env rows repo root "" (-1) = .ok rootNode
  loadBranch : loadCatalogMerkleNode env rows repo (rootNode.child high).hash
    (rootNode.child high).pfx (rootNode.child high).count = .ok branch
  loadLeaf : loadCatalogMerkleNode env rows repo (branch.child low).hash
    (branch.child low).pfx (branch.child low).count = .ok leaf

/-- A node is reached by two steps down from the root. -/
theorem nodeAt_eq_ok {root : ContentHash} {high low : Char} {p : ContentHash × CatalogMerkleNode} :
    catalogMerkleNodeAt env rows repo root (bucketName high low) = .ok p ↔
      ∃ rootNode branch, Descent env rows repo root high low rootNode branch p.2 ∧
        p.1 = (branch.child low).hash := by
  simp only [catalogMerkleNodeAt, bucketName_toList, List.foldlM_cons, List.foldlM_nil, bind_eq_ok,
    Except.ok.injEq, pure_eq_ok]
  constructor
  · rintro ⟨rootNode, hroot, _, ⟨branch, hbranch, rfl⟩, _, ⟨leaf, hleaf, rfl⟩, rfl⟩
    exact ⟨rootNode, branch, ⟨hroot, hbranch, hleaf⟩, rfl⟩
  · rintro ⟨rootNode, branch, ⟨hroot, hbranch, hleaf⟩, hp⟩
    exact ⟨rootNode, hroot, _, ⟨branch, hbranch, rfl⟩, _, ⟨p.2, hleaf, rfl⟩, by rw [← hp]⟩

/-- The nodes on the way have the prefixes of the bucket. -/
theorem Descent.pfx_leaf {root : ContentHash} {high low : Char}
    {rootNode branch leaf : CatalogMerkleNode} (hhigh : high ∈ catalogMerkleHex)
    (hlow : low ∈ catalogMerkleHex) (h : Descent env rows repo root high low rootNode branch leaf) :
    branch.pfx = String.singleton high ∧ leaf.pfx = bucketName high low := by
  obtain ⟨-, -, hrootPfx, hroot⟩ := loaded_spec h.loadRoot
  obtain ⟨-, -, hbranchPfx, hbranch⟩ := loaded_spec h.loadBranch
  obtain ⟨-, -, hleafPfx, -⟩ := loaded_spec h.loadLeaf
  have hone : branch.pfx = String.singleton high := by
    rw [hbranchPfx, child_pfx hroot (by rw [hrootPfx]; decide) hhigh, hrootPfx]
    rfl
  have hsize : branch.pfx.utf8ByteSize < 2 := by
    rw [hone, String.utf8ByteSize_singleton, utf8Size_of_hex hhigh]
    decide
  exact ⟨hone, by rw [hleafPfx, child_pfx hbranch hsize hlow, hone, bucketName]⟩

end Loaded

/-! ## Reading a leaf page by page -/

/-- The request for the rest of a leaf from an offset. -/
def leafRequest (cp : CatalogCheckpoint) (root : ContentHash) (pfx : String) (offset limit : ℤ) :
    CatalogMerkleRequest :=
  { rootHash := root, checkpoint := some cp, pfx := pfx, offset := offset, limit := limit }

/-- Pages of a leaf from an offset, each asked for at the offset that the one before it
returned.  `limits` are the limits asked for, one after another. -/
inductive Chain (accepts : CatalogMerkleRequest → CatalogMerklePage → Prop)
    (cp : CatalogCheckpoint) (root : ContentHash) (pfx : String) (limits : ℕ → ℤ) :
    ℕ → ℤ → List CatalogMerklePage → Prop
  | last {i : ℕ} {offset : ℤ} {page : CatalogMerklePage} :
      accepts (leafRequest cp root pfx offset (limits i)) page → page.nextOffset = none →
        Chain accepts cp root pfx limits i offset [page]
  | more {i : ℕ} {offset next : ℤ} {page : CatalogMerklePage} {rest : List CatalogMerklePage} :
      accepts (leafRequest cp root pfx offset (limits i)) page → page.nextOffset = some next →
        Chain accepts cp root pfx limits (i + 1) next rest →
        Chain accepts cp root pfx limits i offset (page :: rest)

/-- A tree as it is stored for a checkpoint: the root is recorded, each leaf can be loaded
from it, and no entry is newer than the checkpoint (`collectCatalogMerkle` refuses such). -/
structure StoredTree (env : CatalogEnv) (db : CatalogMerkleStore) (repo : ContentHash)
    (cp : CatalogCheckpoint) (root : ContentHash) : Prop where
  identity : db.identity = .ok ()
  checkpoint : catalogMerkleCheckpointValid repo cp = true
  state : ∃ head, db.state = .ok (cp.epoch, head) ∧ cp.sequence ≤ head
  recorded : db.roots cp.epoch cp.sequence = some root
  leaves : ∀ high ∈ catalogMerkleHex, ∀ low ∈ catalogMerkleHex, ∃ p,
    catalogMerkleNodeAt env db.rows repo root (bucketName high low) = .ok p ∧
      ∀ e ∈ p.2.entries, e.sequence ≤ cp.sequence

section Served

variable {env : CatalogEnv} {db : CatalogMerkleStore} {repo root : ContentHash}
  {cp : CatalogCheckpoint} {high low : Char} {p : ContentHash × CatalogMerkleNode}

/-- Some of the canonical entries are canonical. -/
theorem canonicalEntries_of_sublist {pfx : String} {l l' out : List CatalogEntry}
    (h : catalogMerkleCanonicalEntries env repo pfx l = .ok out) (hl : l'.Sublist l) :
    ∃ out', catalogMerkleCanonicalEntries env repo pfx l' = .ok out' := by
  obtain ⟨hall, rfl, hsorted, -⟩ := canonicalEntriesFrom_eq_ok.1 h
  exact ⟨_, canonicalEntriesFrom_eq_ok.2 ⟨fun e he => hall e (hl.subset he), rfl,
    hsorted.sublist (hl.map _), nofun⟩⟩

/-- Where the page from an offset ends. -/
def pageEnd (entries : List CatalogEntry) (offset limit : ℤ) : ℤ :=
  offset + min (if limit = 0 then defaultCatalogLimit else limit) (entries.length - offset)

/-- The page that is served from an offset of a leaf. -/
def servedPage (repo root : ContentHash) (cp : CatalogCheckpoint)
    (p : ContentHash × CatalogMerkleNode) (offset limit : ℤ) : CatalogMerklePage :=
  { repoID := repo, checkpoint := cp, rootHash := root, pfx := p.2.pfx, nodeHash := p.1
    count := p.2.count, children := p.2.children
    entries := (p.2.entries.take (pageEnd p.2.entries offset limit).toNat).drop offset.toNat
    offset := offset
    nextOffset := if pageEnd p.2.entries offset limit < p.2.entries.length then
      some (pageEnd p.2.entries offset limit) else none }

variable (hhigh : high ∈ catalogMerkleHex) (hlow : low ∈ catalogMerkleHex)

/-- A valid checkpoint is one of the repository. -/
theorem repoID_of_checkpoint (h : catalogMerkleCheckpointValid repo cp = true) :
    cp.repoID = repo := by
  simp only [catalogMerkleCheckpointValid, Bool.and_eq_true, decide_eq_true_eq] at h
  exact h.1.1.2

/-- The root of a stored tree has a well-formed hash. -/
theorem StoredTree.validContentHash_root (ht : StoredTree env db repo cp root) :
    validContentHash root = true := by
  obtain ⟨p, hp, -⟩ := ht.leaves '0' (by decide) '0' (by decide)
  obtain ⟨rootNode, branch, hdescent, -⟩ := nodeAt_eq_ok.1 hp
  exact validContentHash_of_hash (loaded_spec hdescent.loadRoot).2.2.2

include hhigh hlow in
/-- A leaf request for a stored tree is valid. -/
theorem leafRequest_valid (ht : StoredTree env db repo cp root)
    (hoffset : 0 ≤ offset) (hlimit : 0 ≤ limit) (hmax : limit ≤ maxCatalogLimit) :
    (leafRequest cp root (bucketName high low) offset limit).validate = .ok () := by
  have hroot := ht.validContentHash_root
  have hne : root ≠ "" := by
    rintro rfl
    exact absurd hroot (by decide)
  have hcp := ht.checkpoint
  rw [← repoID_of_checkpoint hcp] at hcp
  have hsize := utf8ByteSize_bucketName hhigh hlow
  have hpfx := prefixValid_bucketName hhigh hlow
  simp only [CatalogMerkleRequest.validate, leafRequest, bind_eq_ok, exists_unit_iff, refuse_eq_ok,
    hne, if_false, hroot, hpfx, hsize]
  refine ⟨?_, by simp, by simp [hcp], by omega⟩
  simp only [ne_eq, not_true_eq_false, false_or, not_or, not_lt, Bool.true_eq_false]
  exact ⟨hoffset, hlimit, hmax⟩

/-- What a stored leaf is known to be. -/
structure LeafOf (env : CatalogEnv) (repo : ContentHash) (pfx : String)
    (p : ContentHash × CatalogMerkleNode) : Prop where
  repoID_eq : p.2.repoID = repo
  pfx_eq : p.2.pfx = pfx
  version : p.2.version = catalogMerkleVersion
  scope : p.2.scope = catalogMerkleScope
  children : p.2.children = []
  count : p.2.count = p.2.entries.length
  hash : catalogMerkleHash env p.2 = .ok p.1
  canonical : ∃ out, catalogMerkleCanonicalEntries env repo pfx p.2.entries = .ok out

include hhigh hlow in
/-- What is read at the name of a bucket is its leaf. -/
theorem leafOf_nodeAt {rows : CatalogRows}
    (hp : catalogMerkleNodeAt env rows repo root (bucketName high low) = .ok p) :
    LeafOf env repo (bucketName high low) p := by
  obtain ⟨rootNode, branch, hdescent, hhash⟩ := nodeAt_eq_ok.1 hp
  obtain ⟨-, hrepo, -, hleaf⟩ := loaded_spec hdescent.loadLeaf
  have hpfx := (hdescent.pfx_leaf hhigh hlow).2
  have hnot : ¬ p.2.pfx.utf8ByteSize < 2 := by
    rw [hpfx, utf8ByteSize_bucketName hhigh hlow]
    decide
  obtain ⟨hversion, hscope, -, -, hshape⟩ := shape_of_hash hleaf
  obtain ⟨hchildren, hcount, hcanonical⟩ := hshape hnot
  rw [hrepo, hpfx] at hcanonical
  exact ⟨hrepo, hpfx, hversion, hscope, hchildren, hcount, by rw [hhash]; exact hleaf, hcanonical⟩

/-- Arithmetic of a page: it ends after its offset, unless the leaf is empty, and inside the
leaf. -/
theorem pageEnd_spec (entries : List CatalogEntry) (hlimit : 0 ≤ limit)
    (hinside : offset < entries.length ∨ offset = 0) :
    offset ≤ pageEnd entries offset limit ∧ pageEnd entries offset limit ≤ entries.length ∧
      (offset < entries.length → offset < pageEnd entries offset limit) := by
  have hdefault : (0 : ℤ) < defaultCatalogLimit := by decide
  rw [pageEnd]
  split_ifs <;> omega

section Page

variable (hlimit : 0 ≤ limit) (hoffset : 0 ≤ offset)
  (hinside : offset < p.2.entries.length ∨ offset = 0)

include hlimit hoffset hinside

/-- A page has as many entries as its window. -/
theorem length_servedPage : ((servedPage repo root cp p offset limit).entries.length : ℤ) =
      pageEnd p.2.entries offset limit - offset := by
  have hend := pageEnd_spec p.2.entries hlimit hinside
  simp only [servedPage, List.length_drop, List.length_take]
  omega

variable (hsequence : ∀ e ∈ p.2.entries, e.sequence ≤ cp.sequence)

include hsequence

/-- The part of the check that is about leaves. -/
theorem servedPage_validLeaf {pfx : String} (hp : LeafOf env repo pfx p) :
    (servedPage repo root cp p offset limit).validateLeaf env repo
      (leafRequest cp root pfx offset limit) = .ok () := by
  have hlength : ((servedPage repo root cp p offset limit).entries.length : ℤ) =
    pageEnd p.2.entries offset limit - offset := length_servedPage hlimit hoffset hinside
  obtain ⟨hle, hend, hgrow⟩ := pageEnd_spec p.2.entries hlimit hinside
  have hsub : (servedPage repo root cp p offset limit).entries.Sublist p.2.entries :=
    (List.drop_sublist ..).trans (List.take_sublist ..)
  have hoff : (servedPage repo root cp p offset limit).offset = offset := rfl
  have hcount : (servedPage repo root cp p offset limit).count = p.2.entries.length := hp.count
  have hnext : (servedPage repo root cp p offset limit).nextOffset =
      if pageEnd p.2.entries offset limit < p.2.entries.length then
        some (pageEnd p.2.entries offset limit) else none := rfl
  have hempty : (servedPage repo root cp p offset limit).entries = [] ↔
      pageEnd p.2.entries offset limit = offset := by
    rw [← List.length_eq_zero_iff]
    omega
  rw [CatalogMerklePage.validateLeaf_eq_ok, hlength, hoff, hcount]
  refine ⟨⟨hp.children, ?_, by omega, by omega⟩, ?_, ?_, ?_, ?_⟩
  · simp only [pageEnd, CatalogMerkleRequest.effectiveLimit, leafRequest]
    omega
  · rw [CatalogMerklePage.validateContinuation, hlength, hoff, hcount, hnext, add_sub_cancel]
    split_ifs with hmore
    · rw [refuse_eq_ok, hempty]
      simp only [ne_eq, not_true_eq_false, or_false]
      omega
    · rw [refuse_eq_ok, hempty]
      simp only [ne_eq, not_true_eq_false, false_or]
      omega
  · obtain ⟨out, hout⟩ := hp.canonical
    rw [show (servedPage repo root cp p offset limit).pfx = pfx from hp.pfx_eq]
    exact canonicalEntries_of_sublist hout hsub
  · exact fun e he => hsequence e (hsub.subset he)
  · rintro ⟨rfl, hlast⟩
    have hall : pageEnd p.2.entries 0 limit = p.2.entries.length := by
      by_contra hne
      rw [hnext, if_pos (by omega)] at hlast
      cases hlast
    have hnode : (servedPage repo root cp p 0 limit).node = p.2 := by
      simp only [CatalogMerklePage.node, servedPage, hall, Int.toNat_natCast, List.take_length,
        Int.toNat_zero, List.drop_zero, ← hp.repoID_eq, ← hp.version, ← hp.scope]
    rw [CatalogMerklePage.validateHash, hnode, hp.hash, ok_bind, refuse_eq_ok]
    exact not_not.2 rfl

variable (ht : StoredTree env db repo cp root) (hmax : limit ≤ maxCatalogLimit)

include hhigh hlow ht hmax

/-- A page that is served passes the check of its receiver. -/
theorem servedPage_valid (hp : LeafOf env repo (bucketName high low) p) :
    (servedPage repo root cp p offset limit).validate env repo
      (leafRequest cp root (bucketName high low) offset limit) = .ok () := by
  have hnot : ¬ (bucketName high low).utf8ByteSize < 2 := by
    rw [utf8ByteSize_bucketName hhigh hlow]
    decide
  have hempty : bucketName high low ≠ "" := by
    intro h
    rw [h] at hnot
    exact hnot (by decide)
  have hcount : ¬ p.2.count < 0 := by
    rw [hp.count]
    omega
  simp only [CatalogMerklePage.validate, bind_eq_ok, exists_unit_iff, refuse_eq_ok]
  refine ⟨leafRequest_valid hhigh hlow ht hoffset hlimit hmax, ?_, ?_, ?_, ?_⟩
  · simp [servedPage, leafRequest, ht.checkpoint, ht.validContentHash_root, hp.pfx_eq,
      validContentHash_of_hash hp.hash, hcount]
  · simp [servedPage, leafRequest]
  · simp [servedPage, hp.pfx_eq, hempty]
  · have hbranch : ¬ (servedPage repo root cp p offset limit).pfx.utf8ByteSize < 2 := by
      rw [show (servedPage repo root cp p offset limit).pfx = bucketName high low from hp.pfx_eq]
      exact hnot
    rw [if_neg hbranch]
    exact servedPage_validLeaf hlimit hoffset hinside hsequence hp

/-- The page at an offset inside the leaf, or at `0`, is served. -/
theorem read_servedPage
    (hp : catalogMerkleNodeAt env db.rows repo root (bucketName high low) = .ok p) :
    readCatalogMerklePage env db repo (leafRequest cp root (bucketName high low) offset limit) =
      .ok (servedPage repo root cp p offset limit) := by
  have hleaf := leafOf_nodeAt hhigh hlow hp
  have hvalid := servedPage_valid hhigh hlow hlimit hoffset hinside hsequence ht hmax hleaf
  obtain ⟨head, hstate, hhead⟩ := ht.state
  have hsize : p.2.pfx.utf8ByteSize = 2 := by
    rw [hleaf.pfx_eq, utf8ByteSize_bucketName hhigh hlow]
  have hslice : leafSlice (leafRequest cp root (bucketName high low) offset limit) p.2.entries =
      .ok ((servedPage repo root cp p offset limit).entries,
        (servedPage repo root cp p offset limit).nextOffset) := by
    rw [leafSlice, refuse_of_not (by simp only [leafRequest]; omega)]
    rfl
  have hrepo := repoID_of_checkpoint ht.checkpoint
  have hnewer : ¬ cp.sequence > head := not_lt.2 hhead
  rw [readCatalogMerklePage, ht.identity, ok_bind, hstate, ok_bind]
  simp only [leafRequest] at hslice hvalid ⊢
  simp only [hrepo, hnewer, ok_bind, ht.recorded, ne_eq, not_true_eq_false, or_self,
    not_false_eq_true, refuse_of_not, hp, hsize, if_true, hslice]
  simp only [servedPage] at hvalid ⊢
  rw [hvalid, ok_bind]

end Page

include hhigh hlow in
/-- **A stored leaf is read to its end.**  From any offset inside the leaf the pages hold the
rest of its entries. -/
theorem exists_chain (ht : StoredTree env db repo cp root)
    (hp : catalogMerkleNodeAt env db.rows repo root (bucketName high low) = .ok p)
    (hsequence : ∀ e ∈ p.2.entries, e.sequence ≤ cp.sequence)
    {limits : ℕ → ℤ} (hlimits : ∀ i, 0 ≤ limits i ∧ limits i ≤ maxCatalogLimit)
    (hoffset : 0 ≤ offset) (hinside : offset < p.2.entries.length ∨ offset = 0)
    (i : ℕ) :
    ∃ pages, Chain (fun r page => readCatalogMerklePage env db repo r = .ok page) cp root
        (bucketName high low) limits i offset pages ∧
      Chain (fun r page => page.validate env repo r = .ok ()) cp root
        (bucketName high low) limits i offset pages ∧
      (∀ page ∈ pages, page.nodeHash = p.1 ∧ page.count = p.2.count) ∧
      pages.flatMap CatalogMerklePage.entries = p.2.entries.drop offset.toNat := by
  -- the rest of the leaf gets shorter with every page
  induction hrest : (p.2.entries.length - offset).toNat using Nat.strongRecOn
    generalizing offset i with
  | ind n ih =>
      obtain ⟨hlimit, hmax⟩ := hlimits i
      have hread := read_servedPage hhigh hlow hlimit hoffset hinside hsequence ht hmax hp
      have hvalid := servedPage_valid hhigh hlow hlimit hoffset hinside hsequence ht hmax
        (leafOf_nodeAt hhigh hlow hp)
      obtain ⟨hle, hend, hgrow⟩ := pageEnd_spec p.2.entries hlimit hinside
      have hnext : (servedPage repo root cp p offset (limits i)).nextOffset =
          if pageEnd p.2.entries offset (limits i) < p.2.entries.length then
            some (pageEnd p.2.entries offset (limits i)) else none := rfl
      have hentries : (servedPage repo root cp p offset (limits i)).entries =
        (p.2.entries.take (pageEnd p.2.entries offset (limits i)).toNat).drop offset.toNat := rfl
      by_cases hmore : pageEnd p.2.entries offset (limits i) < p.2.entries.length
      · rw [if_pos hmore] at hnext
        have hprogress := hgrow (by omega)
        obtain ⟨pages, hserved, hchecked, hbound, hconcat⟩ :=
          ih _ (by omega) (by omega) (Or.inl hmore) (i + 1) rfl
        refine ⟨_ :: pages, .more hread hnext hserved, .more hvalid hnext hchecked,
          List.forall_mem_cons.2 ⟨⟨rfl, rfl⟩, hbound⟩, ?_⟩
        have hcut : offset.toNat ≤
            (p.2.entries.take (pageEnd p.2.entries offset (limits i)).toNat).length := by
          rw [List.length_take]
          omega
        rw [List.flatMap_cons, hconcat, hentries, ← List.drop_append_of_le_length hcut,
          List.take_append_drop]
      · rw [if_neg hmore] at hnext
        refine ⟨[_], .last hread hnext, .last hvalid hnext,
          List.forall_mem_singleton.2 ⟨rfl, rfl⟩, ?_⟩
        have hall : (pageEnd p.2.entries offset (limits i)).toNat = p.2.entries.length := by omega
        rw [List.flatMap_singleton, hentries, hall, List.take_length]

end Served

/-- A chain of requests has one chain of answers. -/
theorem Chain.unique {accepts : CatalogMerkleRequest → CatalogMerklePage → Prop}
    (hunique : ∀ r page page', accepts r page → accepts r page' → page' = page)
    {cp : CatalogCheckpoint} {root : ContentHash} {pfx : String} {limits : ℕ → ℤ} {i : ℕ}
    {pages pages' : List CatalogMerklePage} (h : Chain accepts cp root pfx limits i offset pages)
    (h' : Chain accepts cp root pfx limits i offset pages') : pages' = pages := by
  induction h generalizing pages' with
  | last haccepts hnext =>
      cases h' with
      | last haccepts' _ => rw [hunique _ _ _ haccepts haccepts']
      | more haccepts' hnext' _ =>
          rw [hunique _ _ _ haccepts haccepts', hnext] at hnext'
          cases hnext'
  | more haccepts hnext _ ih =>
      cases h' with
      | last haccepts' hnext' =>
          rw [hunique _ _ _ haccepts haccepts', hnext] at hnext'
          cases hnext'
      | more haccepts' hnext' hrest' =>
          obtain rfl := hunique _ _ _ haccepts haccepts'
          rw [hnext] at hnext'
          cases hnext'
          rw [ih hrest']

end Backend
end CxtHub
