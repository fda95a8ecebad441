/-
# Verified pages of a catalog tree

A client may read a tree from a server it does not trust.  It has the hash of the root, checks
every page against its request, and binds each node to the descriptor in its verified parent.
The pages of a leaf are checked together: if the leaf they are put together to has the hash
of its descriptor, it has the canonical form of the leaf that the root commits to
(`catalogMerklePages_complete_and_sound`).

The second half connects this to the store: a tree that was built and published is a stored
tree, its rows have the hashes they are stored under, and the pages of its root and branches
verify the parents of its leaves.
-/

import CxtHub.Backend.CatalogPages

namespace CxtHub
namespace Backend

variable {n : CatalogMerkleNode} {hash : ContentHash} {db : CatalogMerkleStore}
  {cp : CatalogCheckpoint}

/-! ## Pages from any server -/

section Verified

variable {env : CatalogEnv} {repo root : ContentHash} {high low : Char}

/-- The text of a node with a hash. -/
theorem text_of_hash
    (h : catalogMerkleHash env n = .ok hash) :
    ∃ x m, catalogMerkleText env n = .ok x ∧ catalogMerkleCanonicalNode env n = .ok m ∧
      nodeText m = .ok x ∧ hash = env.hashContent x := by
  simp only [catalogMerkleHash, bind_eq_ok, Except.ok.injEq] at h
  obtain ⟨x, hx, rfl⟩ := h
  have htext := hx
  rw [catalogMerkleText_eq, bind_eq_ok] at htext
  obtain ⟨m, hm, hmx⟩ := htext
  exact ⟨x, m, hx, hm, hmx, rfl⟩

/-- What is left of a node when it is made canonical. -/
theorem canonicalNode_spec {m : CatalogMerkleNode} (h : catalogMerkleCanonicalNode env n = .ok m) :
    m.version = catalogMerkleVersion ∧ m.scope = catalogMerkleScope ∧
      (∀ e ∈ m.entries, CanonicalForm e) ∧ (n.pfx.utf8ByteSize < 2 → m = n) := by
  simp only [catalogMerkleCanonicalNode, bind_eq_ok, exists_unit_iff, refuse_eq_ok, not_or,
    not_not, ne_eq] at h
  obtain ⟨⟨hversion, hscope, -⟩, h⟩ := h
  by_cases hbranch : n.pfx.utf8ByteSize < 2
  · simp only [if_pos hbranch, canonicalBranch, bind_eq_ok, exists_unit_iff, refuse_eq_ok, not_or,
      not_not, ne_eq, Except.ok.injEq] at h
    obtain ⟨⟨-, hentries⟩, -, -, -, rfl⟩ := h
    refine ⟨hversion, hscope, ?_, fun _ => rfl⟩
    rw [hentries]
    exact fun e he => (List.not_mem_nil he).elim
  · simp only [if_neg hbranch, canonicalLeaf, bind_eq_ok, exists_unit_iff, refuse_eq_ok,
      Except.ok.injEq] at h
    obtain ⟨-, out, hout, rfl⟩ := h
    refine ⟨hversion, hscope, fun e he => ?_, fun hlt => absurd hlt hbranch⟩
    obtain ⟨hall, rfl, -⟩ := canonicalEntriesFrom_eq_ok.1 hout
    obtain ⟨e', he', rfl⟩ := List.mem_map.1 he
    obtain ⟨c, hc⟩ := Option.isSome_iff_exists.1 (hall e' he')
    rw [canonicalOr_eq hc]
    exact canonicalForm_of_canonicalEntry hc

/-- The text of a canonical node determines the node. -/
theorem eq_of_nodeText {m m' : CatalogMerkleNode} {x : List Char}
    (hversion : m.version = m'.version) (hscope : m.scope = m'.scope)
    (hm : ∀ e ∈ m.entries, CanonicalForm e) (hm' : ∀ e ∈ m'.entries, CanonicalForm e)
    (h : nodeText m = .ok x) (h' : nodeText m' = .ok x) : m = m' := by
  obtain ⟨hchildren, hentries⟩ := nodeText_inj hm hm' h h'
  obtain ⟨j, hj, -, rfl⟩ := nodeText_eq_ok.1 h
  obtain ⟨j', hj', -, hx⟩ := nodeText_eq_ok.1 h'
  have hsorted : j.sorted = j'.sorted := Json.print_injective (List.append_cancel_left hx)
  obtain ⟨entry, -, rfl⟩ := marshal_eq_ok.1 hj
  obtain ⟨entry', -, rfl⟩ := marshal_eq_ok.1 hj'
  have hfield := Json.lookup_of_sorted_eq (by simp) (by simp) hsorted
  have hrepo := hfield "repo_id"
  have hpfx := hfield "prefix"
  have hcount := hfield "count"
  simp only [Json.lookup_cons_eq, if_true, Option.map_some, Json.sorted_str, Json.sorted_int,
    Option.some.injEq, Json.str.injEq, String.reduceEq, if_false] at hrepo hpfx hcount
  have hcount' := Json.int_injective hcount
  cases m'
  subst hversion hscope hrepo hpfx hcount' hchildren hentries
  rfl

/-- Nodes with one hash have one canonical form. -/
theorem canonicalNode_eq_of_hash {T : Set (List Char)} (hinj : Set.InjOn env.hashContent T)
    {n' : CatalogMerkleNode} (h : catalogMerkleHash env n = .ok hash)
    (h' : catalogMerkleHash env n' = .ok hash)
    (hT : ∀ x, catalogMerkleText env n = .ok x → x ∈ T)
    (hT' : ∀ x, catalogMerkleText env n' = .ok x → x ∈ T) :
    catalogMerkleCanonicalNode env n = catalogMerkleCanonicalNode env n' := by
  obtain ⟨x, m, hx, hm, hmx, rfl⟩ := text_of_hash h
  obtain ⟨x', m', hx', hm', hmx', heq⟩ := text_of_hash h'
  obtain rfl := hinj (hT x hx) (hT' x' hx') heq
  obtain ⟨hversion, hscope, hform, -⟩ := canonicalNode_spec hm
  obtain ⟨hversion', hscope', hform', -⟩ := canonicalNode_spec hm'
  rw [hm, hm', eq_of_nodeText (hversion.trans hversion'.symm) (hscope.trans hscope'.symm) hform
    hform' hmx hmx']

/-- A page of a branch or root that passes its check has the hash that it names. -/
theorem hash_of_validate {page : CatalogMerklePage} {r : CatalogMerkleRequest}
    (h : page.validate env repo r = .ok ()) (hpfx : page.pfx.utf8ByteSize < 2) :
    catalogMerkleHash env page.node = .ok page.nodeHash ∧
      (page.pfx = "" → page.nodeHash = page.rootHash) := by
  simp only [CatalogMerklePage.validate, bind_eq_ok, exists_unit_iff, refuse_eq_ok, if_pos hpfx,
    CatalogMerklePage.validateHash, not_and, not_not, ne_eq] at h
  obtain ⟨-, -, -, hroot, -, hash, hhash, heq⟩ := h
  exact ⟨by rw [← heq]; exact hhash, hroot⟩

/-- What a client has checked of the branch above a leaf: the page of the root passes its
check, and so does that of the branch, which is bound to its descriptor in the root. -/
structure VerifiedParent (env : CatalogEnv) (repo root : ContentHash) (high : Char)
    (rootPage branchPage : CatalogMerklePage) : Prop where
  rootValid : ∃ r, rootPage.validate env repo r = .ok ()
  rootPfx : rootPage.pfx = ""
  rootHash : rootPage.rootHash = root
  branchValid : ∃ r, branchPage.validate env repo r = .ok ()
  branchPfx : branchPage.pfx = String.singleton high
  nodeHash : branchPage.nodeHash = (rootPage.node.child high).hash
  count : branchPage.count = (rootPage.node.child high).count

/-- The leaf that pages are put together to. -/
def joinedLeaf (repo : ContentHash) (pfx : String) (count : ℤ) (pages : List CatalogMerklePage) :
    CatalogMerkleNode :=
  { repoID := repo, pfx := pfx, count := count, entries := pages.flatMap CatalogMerklePage.entries }

/-- The nodes whose texts a client and a store hash between them. -/
def HashedNode (rows : CatalogRows) (seen : List CatalogMerkleNode) (n : CatalogMerkleNode) :
    Prop :=
  n ∈ seen ∨ ∃ hash, rows hash = some n

/-- The branch that a client has verified is the branch that the root commits to. -/
theorem VerifiedParent.node_eq {rows : CatalogRows} {seen : List CatalogMerkleNode}
    (hinj : Set.InjOn env.hashContent
      {x | ∃ n, HashedNode rows seen n ∧ catalogMerkleText env n = .ok x})
    (hhigh : high ∈ catalogMerkleHex) (hlow : low ∈ catalogMerkleHex)
    {rootPage branchPage : CatalogMerklePage}
    (h : VerifiedParent env repo root high rootPage branchPage) (hroot : rootPage.node ∈ seen)
    (hbranch : branchPage.node ∈ seen) {rootNode branch leaf : CatalogMerkleNode}
    (hdescent : Descent env rows repo root high low rootNode branch leaf) :
    branchPage.node = branch := by
  -- equal hashes of branches: both are their own canonical form
  have hsame : ∀ {n n' : CatalogMerkleNode} {hash : ContentHash}, n ∈ seen →
      (∃ hash, rows hash = some n') → n.pfx.utf8ByteSize < 2 → n'.pfx.utf8ByteSize < 2 →
      catalogMerkleHash env n = .ok hash → catalogMerkleHash env n' = .ok hash → n = n' := by
    intro n n' hash hn hn' hpfx hpfx' hhash hhash'
    have heq := canonicalNode_eq_of_hash hinj hhash hhash' (fun x hx => ⟨n, Or.inl hn, hx⟩)
      fun x hx => ⟨n', Or.inr hn', hx⟩
    obtain ⟨_, m, -, hm, -, -⟩ := text_of_hash hhash
    have hm' := hm
    rw [heq] at hm'
    rw [← (canonicalNode_spec hm).2.2.2 hpfx, (canonicalNode_spec hm').2.2.2 hpfx']
  obtain ⟨hrootRow, -, hrootPfx, hrootHash⟩ := loaded_spec hdescent.loadRoot
  obtain ⟨hbranchRow, -, -, hbranchHash⟩ := loaded_spec hdescent.loadBranch
  have hbranchPfx := (hdescent.pfx_leaf hhigh hlow).1
  have hempty : ("" : String).utf8ByteSize < 2 := by decide
  have hone : (String.singleton high).utf8ByteSize < 2 := by
    rw [String.utf8ByteSize_singleton, utf8Size_of_hex hhigh]
    decide
  obtain ⟨_, hrootValid⟩ := h.rootValid
  obtain ⟨_, hbranchValid⟩ := h.branchValid
  obtain ⟨hpageRoot, hnodeHash⟩ := hash_of_validate hrootValid (by rw [h.rootPfx]; exact hempty)
  obtain ⟨hpageBranch, -⟩ := hash_of_validate hbranchValid (by rw [h.branchPfx]; exact hone)
  rw [hnodeHash h.rootPfx, h.rootHash] at hpageRoot
  have hrootEq : rootPage.node = rootNode := hsame hroot ⟨_, hrootRow⟩
    (by rw [show rootPage.node.pfx = "" from h.rootPfx]; exact hempty)
    (by rw [hrootPfx]; exact hempty) hpageRoot hrootHash
  rw [h.nodeHash, hrootEq] at hpageBranch
  exact hsame hbranch ⟨_, hbranchRow⟩
    (by rw [show branchPage.node.pfx = String.singleton high from h.branchPfx]; exact hone)
    (by rw [hbranchPfx]; exact hone) hpageBranch hbranchHash

end Verified

/-! ## Trees that are built -/

section Built

variable {env : CatalogEnv} {rows : CatalogRows} {repo : ContentHash} {t : Levels}
  {S : List CatalogEntry}

/-- A node can be loaded without a count to compare. -/
theorem load_any_count {pfx : String} {count : ℤ}
    (h : loadCatalogMerkleNode env rows repo hash pfx count = .ok n) :
    loadCatalogMerkleNode env rows repo hash pfx (-1) = .ok n := by
  have hrow := loadCatalogMerkleNode_eq_ok h
  simp only [loadCatalogMerkleNode, hrow, bind_eq_ok, exists_unit_iff, refuse_eq_ok, not_or,
    not_not, ne_eq] at h ⊢
  exact ⟨⟨h.1.1, h.1.2.1, by omega⟩, h.2⟩

/-- The loads on the way to a leaf of a tree that was built and is read back. -/
theorem descent_of_built (ht : t.Over env repo (bucketEntries env S))
    (hrows : ∀ p ∈ t.nodes, ReadsBack env rows p) (hstable : Stable env repo) {high low : Char}
    (hhigh : high ∈ catalogMerkleHex) (hlow : low ∈ catalogMerkleHex) :
    ∃ leaf, Descent env rows repo t.root.1 high low t.root.2 (t.branch high).2 leaf ∧
      Canonical env repo (bucketName high low) (bucketEntries env S high low) leaf.entries := by
  have hroot := load_branch ht.root (hrows _ mem_nodes_root)
  have hbranch := load_branch (ht.branch high hhigh) (hrows _ (mem_nodes_branch hhigh))
  obtain ⟨out, -, hout, -⟩ := text_of_hashedLeaf (ht.leaf high hhigh low hlow)
  obtain ⟨leaf, hleaf, hentries⟩ := load_leaf hstable hout (ht.leaf high hhigh low hlow)
    (hrows _ (mem_nodes_leaf hhigh hlow))
  have hchild : t.root.2.child high = hashedChild (t.branch high) :=
    child_of_map (children_of_hashedBranch ht.root).1 hhigh
  have hchild' : (t.branch high).2.child low = hashedChild (t.leaf high low) :=
    child_of_map (children_of_hashedBranch (ht.branch high hhigh)).1 hlow
  refine ⟨leaf, ⟨load_any_count hroot, ?_, ?_⟩, hentries ▸ hout⟩
  · rw [hchild, (hashedChild_branch (ht.branch high hhigh)).1]
    exact hbranch
  · rw [hchild', (hashedChild_leaf (ht.leaf high hhigh low hlow)).1]
    exact hleaf

/-- A tree that was built from entries no newer than the checkpoint, published and recorded
is a stored tree. -/
theorem storedTree_of_build {head : ℤ}
    (ht : t.Over env repo (bucketEntries env S)) (hrows : ∀ p ∈ t.nodes, ReadsBack env db.rows p)
    (hstable : Stable env repo) (hsequence : ∀ e ∈ S, e.sequence ≤ cp.sequence)
    (hidentity : db.identity = .ok ()) (hcp : catalogMerkleCheckpointValid repo cp = true)
    (hstate : db.state = .ok (cp.epoch, head)) (hhead : cp.sequence ≤ head)
    (hrecorded : db.roots cp.epoch cp.sequence = some t.root.1) :
    StoredTree env db repo cp t.root.1 := by
  refine ⟨hidentity, hcp, ⟨head, hstate, hhead⟩, hrecorded, fun high hhigh low hlow => ?_⟩
  obtain ⟨leaf, hdescent, hcanonical⟩ := descent_of_built ht hrows hstable hhigh hlow
  refine ⟨(_, leaf), nodeAt_eq_ok.2 ⟨_, _, hdescent, rfl⟩, fun c hc => ?_⟩
  obtain ⟨e, he, hec⟩ := hcanonical.mem_iff.1 hc
  obtain ⟨-, -, -, key, value, -, -, rfl⟩ := canonicalEntry_eq_some.1 hec
  exact hsequence e (List.mem_of_mem_filter he)

/-- The rows of a tree that was built have the hashes they are stored under. -/
theorem hash_of_row (ht : t.Over env repo (bucketEntries env S))
    (hrows : ∀ p ∈ t.nodes, ReadsBack env rows p) (hstable : Stable env repo)
    {p : ContentHash × CatalogMerkleNode} (hp : p ∈ t.nodes)
    (hn : rows p.1 = some n) : catalogMerkleHash env n = .ok p.1 := by
  have hload : ∃ m, rows p.1 = some m ∧ catalogMerkleHash env m = .ok p.1 := by
    rcases mem_nodes_iff.1 hp with ⟨high, hhigh, low, hlow, rfl⟩ | ⟨high, hhigh, rfl⟩ | rfl
    · obtain ⟨leaf, hdescent, -⟩ := descent_of_built ht hrows hstable hhigh hlow
      have hchild : (t.branch high).2.child low = hashedChild (t.leaf high low) :=
        child_of_map (children_of_hashedBranch (ht.branch high hhigh)).1 hlow
      obtain ⟨hrow, -, -, hhash⟩ := loaded_spec hdescent.loadLeaf
      rw [hchild] at hrow hhash
      exact ⟨leaf, hrow, hhash⟩
    · obtain ⟨hrow, -, -, hhash⟩ := loaded_spec
        (load_branch (ht.branch high hhigh) (hrows _ (mem_nodes_branch hhigh)))
      exact ⟨_, hrow, hhash⟩
    · obtain ⟨hrow, -, -, hhash⟩ := loaded_spec (load_branch ht.root (hrows _ mem_nodes_root))
      exact ⟨_, hrow, hhash⟩
  obtain ⟨m, hm, hhash⟩ := hload
  rw [hn] at hm
  cases hm
  exact hhash

/-- A row is a node of the tree. -/
theorem mem_of_rowsOf {nodes : CatalogNodes}
    (h : rowsOf env nodes hash = some n) : ∃ p ∈ nodes, p.1 = hash := by
  obtain ⟨p, hp, -⟩ := Option.bind_eq_some_iff.1 h
  exact ⟨p, List.mem_of_find?_eq_some hp, by simpa using List.find?_some hp⟩

/-- A hash tells apart the texts of nodes that are stored under their hashes. -/
theorem injOn_of_rows (hrows : ∀ hash n, rows hash = some n → catalogMerkleHash env n = .ok hash)
    {seen : List CatalogMerkleNode} (hseen : ∀ n ∈ seen, ∃ hash, rows hash = some n) :
    Set.InjOn env.hashContent
      {x | ∃ n, HashedNode rows seen n ∧ catalogMerkleText env n = .ok x} := by
  have hstored : ∀ {n x}, HashedNode rows seen n → catalogMerkleText env n = .ok x →
      rows (env.hashContent x) = some n := by
    intro n x hn hx
    obtain ⟨hash, hrow⟩ : ∃ hash, rows hash = some n := hn.elim (hseen n) id
    have hhash := hrows hash n hrow
    rw [catalogMerkleHash, hx, ok_bind] at hhash
    rw [Except.ok.inj hhash]
    exact hrow
  rintro x ⟨n, hn, hx⟩ y ⟨n', hn', hy⟩ heq
  have hrow := hstored hn hx
  rw [heq, hstored hn' hy] at hrow
  cases hrow
  exact Except.ok.inj (hx.symm.trans hy)

end Built

/-- The page of a root or branch. -/
def branchPage (repo root : ContentHash) (cp : CatalogCheckpoint) (hash : ContentHash)
    (n : CatalogMerkleNode) : CatalogMerklePage :=
  { repoID := repo, checkpoint := cp, rootHash := root, pfx := n.pfx, nodeHash := hash
    count := n.count, children := n.children, entries := [], offset := 0 }

/-- It shows the node, and passes its check. -/
theorem branchPage_valid {env : CatalogEnv} {repo root : ContentHash}
    (ht : StoredTree env db repo cp root)
    (hhash : catalogMerkleHash env n = .ok hash) (hrepo : n.repoID = repo)
    (hpfx : n.pfx.utf8ByteSize < 2) (hvalid : catalogMerklePrefixValid n.pfx = true)
    (hroot : n.pfx = "" → hash = root) :
    (branchPage repo root cp hash n).node = n ∧
      (branchPage repo root cp hash n).validate env repo (leafRequest cp root n.pfx 0 0) =
        .ok () := by
  obtain ⟨hversion, hscope, hcount, hshape, -⟩ := shape_of_hash hhash
  obtain ⟨-, hentries, -⟩ := hshape hpfx
  have hnode : (branchPage repo root cp hash n).node = n := by
    simp only [CatalogMerklePage.node, branchPage, ← hversion, ← hscope, ← hrepo, ← hentries]
  have hrootValid := ht.validContentHash_root
  have hne : root ≠ "" := by
    rintro rfl
    exact absurd hrootValid (by decide)
  have hcp := ht.checkpoint
  rw [← repoID_of_checkpoint hcp] at hcp
  refine ⟨hnode, ?_⟩
  have hbranch : (branchPage repo root cp hash n).pfx.utf8ByteSize < 2 := hpfx
  simp only [CatalogMerklePage.validate, bind_eq_ok, exists_unit_iff, refuse_eq_ok, if_pos hbranch,
    CatalogMerklePage.validateHash, hnode, hhash, Except.ok.injEq, exists_eq_left']
  refine ⟨?_, ?_, ?_, ?_, ?_, ?_⟩
  · simp [CatalogMerkleRequest.validate, leafRequest, hvalid, hne, hrootValid, hcp, maxCatalogLimit,
      refuse_of_not]
  · simp [branchPage, leafRequest, ht.checkpoint, hrootValid, validContentHash_of_hash hhash,
      hcount]
  · simp [branchPage, leafRequest]
  · simpa [branchPage] using hroot
  · simp [branchPage]
  · simp [branchPage]

/-- The pages of the root and of a branch of a stored tree verify the parent of a leaf. -/
theorem verifiedParent_of_stored {env : CatalogEnv}
    {repo root : ContentHash} (ht : StoredTree env db repo cp root)
    {high low : Char} (hhigh : high ∈ catalogMerkleHex) (hlow : low ∈ catalogMerkleHex)
    {rootNode branch leaf : CatalogMerkleNode}
    (hdescent : Descent env db.rows repo root high low rootNode branch leaf) :
    VerifiedParent env repo root high (branchPage repo root cp root rootNode)
        (branchPage repo root cp (rootNode.child high).hash branch) ∧
      (branchPage repo root cp root rootNode).node = rootNode ∧
      (branchPage repo root cp (rootNode.child high).hash branch).node = branch := by
  obtain ⟨-, hrootRepo, hrootPfx, hrootHash⟩ := loaded_spec hdescent.loadRoot
  obtain ⟨-, hbranchRepo, -, hbranchHash⟩ := loaded_spec hdescent.loadBranch
  have hbranchPfx := (hdescent.pfx_leaf hhigh hlow).1
  have hempty : rootNode.pfx.utf8ByteSize < 2 := by
    rw [hrootPfx]
    decide
  have hone : branch.pfx.utf8ByteSize < 2 := by
    rw [hbranchPfx, String.utf8ByteSize_singleton, utf8Size_of_hex hhigh]
    decide
  obtain ⟨hroot, hrootValid⟩ := branchPage_valid ht hrootHash hrootRepo hempty
    (by rw [hrootPfx]; decide) fun _ => rfl
  obtain ⟨hbranch, hbranchValid⟩ := branchPage_valid ht hbranchHash hbranchRepo hone
    (by rw [hbranchPfx]; exact prefixValid_singleton hhigh)
    fun h => by rw [h] at hbranchPfx; exact absurd (congrArg String.toList hbranchPfx) (by simp)
  refine ⟨⟨⟨_, hrootValid⟩, hrootPfx, rfl, ⟨_, hbranchValid⟩, hbranchPfx, ?_, ?_⟩, hroot, hbranch⟩
  · rw [hroot]
    rfl
  · rw [hroot]
    exact count_of_loaded hdescent.loadBranch (child_count_nonneg hrootHash hempty high)

/-- **Paging a leaf is complete and cannot be forged.**  For every stored tree, every leaf of
it and every sequence of limits, following the offsets from `0` ends; the pages are those
served, each passes the check of its receiver and names the leaf, and together they hold its
entries.
Conversely, let pages from any server pass their checks against chained requests for one root
and checkpoint, and be bound to the descriptor in the verified parent.  If the leaf they are
put together to has the hash of the descriptor, it has the canonical form of the leaf that
the root commits to; the hash is assumed to tell the texts apart that are hashed on the way. -/
theorem catalogMerklePages_complete_and_sound (env : CatalogEnv) (repo root : ContentHash)
    (cp : CatalogCheckpoint) (high low : Char) (hhigh : high ∈ catalogMerkleHex)
    (hlow : low ∈ catalogMerkleHex) (limits : ℕ → ℤ) :
    (∀ db, StoredTree env db repo cp root → (∀ i, 0 ≤ limits i ∧ limits i ≤ maxCatalogLimit) →
      ∃ hash leaf pages,
        catalogMerkleNodeAt env db.rows repo root (bucketName high low) = .ok (hash, leaf) ∧
        (∀ pages', Chain (fun r page => readCatalogMerklePage env db repo r = .ok page) cp root
          (bucketName high low) limits 0 0 pages' ↔ pages' = pages) ∧
        Chain (fun r page => page.validate env repo r = .ok ()) cp root (bucketName high low)
          limits 0 0 pages ∧
        (∀ page ∈ pages, page.nodeHash = hash ∧ page.count = leaf.count) ∧
        pages.flatMap CatalogMerklePage.entries = leaf.entries) ∧
    (∀ rootPage branchPage pages rows hash leaf,
      VerifiedParent env repo root high rootPage branchPage →
      Chain (fun r page => page.validate env repo r = .ok ()) cp root (bucketName high low)
        limits 0 0 pages →
      (∀ page ∈ pages, page.nodeHash = (branchPage.node.child low).hash ∧
        page.count = (branchPage.node.child low).count) →
      catalogMerkleNodeAt env rows repo root (bucketName high low) = .ok (hash, leaf) →
      Set.InjOn env.hashContent {x | ∃ n, HashedNode rows [rootPage.node, branchPage.node,
          joinedLeaf repo (bucketName high low) (branchPage.node.child low).count pages] n ∧
        catalogMerkleText env n = .ok x} →
      catalogMerkleHash env
          (joinedLeaf repo (bucketName high low) (branchPage.node.child low).count pages) =
        .ok (branchPage.node.child low).hash →
      ∃ canonical, catalogMerkleCanonicalNode env
            (joinedLeaf repo (bucketName high low) (branchPage.node.child low).count pages) =
          .ok canonical ∧
        catalogMerkleCanonicalNode env leaf = .ok canonical) := by
  constructor
  · intro db ht hlimits
    obtain ⟨⟨hash, leaf⟩, hp, hsequence⟩ := ht.leaves high hhigh low hlow
    obtain ⟨pages, hserved, hchecked, hbound, hconcat⟩ :=
      exists_chain hhigh hlow ht hp hsequence hlimits le_rfl (Or.inr rfl) 0
    refine ⟨hash, leaf, pages, hp, fun pages' => ⟨fun h => ?_, fun h => h ▸ hserved⟩, hchecked,
      hbound, hconcat⟩
    exact hserved.unique (fun r page page' h h' => Except.ok.inj (h'.symm.trans h)) h
  · intro rootPage branchPage pages rows hash leaf hparent _ _ hp hinj hhash
    obtain ⟨rootNode, branch, hdescent, hleaf⟩ := nodeAt_eq_ok.1 hp
    obtain ⟨hrow, -, -, hleafHash⟩ := loaded_spec hdescent.loadLeaf
    have hbranch := hparent.node_eq hinj hhigh hlow (by simp) (by simp) hdescent
    have heq := canonicalNode_eq_of_hash hinj hhash (by rw [hbranch]; exact hleafHash)
      (fun x hx => ⟨_, Or.inl (by simp), hx⟩) fun x hx => ⟨leaf, Or.inr ⟨_, hrow⟩, hx⟩
    obtain ⟨_, m, -, hm, -, -⟩ := text_of_hash hhash
    exact ⟨m, hm, by rw [← heq]; exact hm⟩

/-- A repository that has published the sample catalog. -/
def sampleMerkleStore (nodes : CatalogNodes) (root : ContentHash) : CatalogMerkleStore where
  identity := .ok ()
  state := .ok ("00000000-0000-0000-0000-000000000000", 2)
  roots _ _ := some root
  rows := rowsOf sampleCatalogEnv nodes

def sampleCheckpoint : CatalogCheckpoint :=
  { repoID := digitHash '0', epoch := "00000000-0000-0000-0000-000000000000", sequence := 2 }

/-- The leaf of the sample, read in pages of one entry, and verified. -/
theorem catalogMerklePages_sample : ∃ db root hash leaf pages rootPage parentPage canonical,
    StoredTree sampleCatalogEnv db (digitHash '0') sampleCheckpoint root ∧
    catalogMerkleNodeAt sampleCatalogEnv db.rows (digitHash '0') root (bucketName '0' '0') =
      .ok (hash, leaf) ∧
    Chain (fun r page => readCatalogMerklePage sampleCatalogEnv db (digitHash '0') r = .ok page)
      sampleCheckpoint root (bucketName '0' '0') (fun _ => 1) 0 0 pages ∧
    VerifiedParent sampleCatalogEnv (digitHash '0') root '0' rootPage parentPage ∧
    catalogMerkleCanonicalNode sampleCatalogEnv (joinedLeaf (digitHash '0') (bucketName '0' '0')
      (parentPage.node.child '0').count pages) = .ok canonical ∧
    catalogMerkleCanonicalNode sampleCatalogEnv leaf = .ok canonical := by
  obtain ⟨⟨rootNode, nodes⟩, h⟩ := exists_build_sample
  obtain ⟨-, -, t, ht, hp⟩ := buildCatalogMerkle_eq_ok.1 h
  have hrows := readsBack_sample ht
  have hstable : Stable sampleCatalogEnv (digitHash '0') :=
    stable_of_entityValid rfl
  let db := sampleMerkleStore t.nodes t.root.1
  have hstored : StoredTree sampleCatalogEnv db (digitHash '0') sampleCheckpoint t.root.1 :=
    storedTree_of_build ht hrows hstable (by decide) rfl (by decide +kernel) rfl le_rfl rfl
  have hzero : '0' ∈ catalogMerkleHex := by decide
  obtain ⟨hread, hverify⟩ := catalogMerklePages_complete_and_sound sampleCatalogEnv (digitHash '0')
    t.root.1 sampleCheckpoint '0' '0' hzero hzero fun _ => 1
  obtain ⟨hash, leaf, pages, hleaf, hserved, hchecked, hbound, hconcat⟩ :=
    hread db hstored fun _ => ⟨by decide, by decide⟩
  obtain ⟨rootNode, branch, hdescent, rfl⟩ := nodeAt_eq_ok.1 hleaf
  obtain ⟨hparent, hroot, hbranch⟩ := verifiedParent_of_stored hstored hzero hzero hdescent
  have hof := leafOf_nodeAt hzero hzero hleaf
  obtain ⟨hrootRow, -⟩ := loaded_spec hdescent.loadRoot
  obtain ⟨hbranchRow, -, -, hbranchHash⟩ := loaded_spec hdescent.loadBranch
  obtain ⟨hleafRow, -⟩ := loaded_spec hdescent.loadLeaf
  have hcount : leaf.count = (branch.child '0').count := by
    refine count_of_loaded hdescent.loadLeaf (child_count_nonneg hbranchHash ?_ '0')
    rw [(hdescent.pfx_leaf hzero hzero).1]
    decide
  have hjoined : joinedLeaf (digitHash '0') (bucketName '0' '0') leaf.count pages = leaf := by
    simp only [joinedLeaf, hconcat, ← hof.repoID_eq, ← hof.pfx_eq, ← hof.version, ← hof.scope,
      ← hof.children]
  have hinj : Set.InjOn sampleCatalogEnv.hashContent
      {x | ∃ n, HashedNode db.rows [rootNode, branch, leaf] n ∧
        catalogMerkleText sampleCatalogEnv n = .ok x} := by
    refine injOn_of_rows (fun hash n hn => ?_) ?_
    · obtain ⟨p, hp, rfl⟩ := mem_of_rowsOf hn
      exact hash_of_row ht hrows hstable hp hn
    · simp only [List.forall_mem_cons, List.not_mem_nil, false_implies, implies_true, and_true]
      exact ⟨⟨_, hrootRow⟩, ⟨_, hbranchRow⟩, ⟨_, hleafRow⟩⟩
  obtain ⟨canonical, hcanonical⟩ := hverify _ _ pages db.rows _ leaf hparent hchecked
    (by rw [hbranch, ← hcount]; exact hbound) hleaf
    (by rw [hroot, hbranch, ← hcount, hjoined]; exact hinj)
    (by rw [hbranch, ← hcount, hjoined]; exact hof.hash)
  exact ⟨db, t.root.1, _, leaf, pages, _, _, canonical, hstored, hleaf, (hserved pages).2 rfl,
    hparent, hcanonical⟩

end Backend
end CxtHub
