/-
# An update is a rebuild

`updateCatalogMerkle_rebuilds`: on a stored tree that is read back as written, the update
returns the root that a build from the changed entries returns, and the nodes of that tree
which the old one lacks.  `exists_update` is the converse: when the changed entries can be
built and values stay valid in their canonical form, the update succeeds.
-/

import CxtHub.Backend.CatalogIncremental

namespace CxtHub
namespace Backend

variable {pfx : String} {l out : List CatalogEntry} {q : ContentHash × CatalogMerkleNode}
  {nodes : CatalogNodes}
variable {env : CatalogEnv} {rows : CatalogRows} {orders : MapOrders} {repo : ContentHash}
  {t : Levels} {changes : List CatalogEntry} {root : CatalogMerkleNode}

/-! ### When an update succeeds -/

/-- An entry that may stand in a leaf may do so in its canonical form. -/
def Stable (env : CatalogEnv) (repo : ContentHash) : Prop :=
  ∀ {pfx e c}, canonicalEntry env repo pfx e = some c → canonicalEntry env repo pfx c = some c

/-- Canonical entries are their own canonical form, in order. -/
theorem Canonical.self (hstable : Stable env repo)
    (h : Canonical env repo pfx l out) :
    Canonical env repo pfx out out ∧ sortedEntries out = out := by
  have hself : ∀ c ∈ out, canonicalEntry env repo pfx c = some c := by
    intro c hc
    obtain ⟨e, -, he⟩ := h.mem_iff.1 hc
    exact hstable he
  have hmap : ∀ {l : List CatalogEntry}, (∀ c ∈ l, c ∈ out) →
      l.map (canonicalOr env repo pfx) = l := by
    intro l hl
    rw [List.map_congr_left fun c hc => canonicalOr_eq (hself c (hl c hc)), List.map_id']
  have hout : Canonical env repo pfx out out :=
    ⟨fun c hc => by rw [hself c hc]; rfl, by rw [hmap fun _ hc => hc], h.sorted⟩
  refine ⟨hout, ?_⟩
  have hsorted := (canonical_iff.1 hout).2.1
  rw [hmap fun c hc => mem_sortedEntries.1 hc] at hsorted
  exact hsorted.symm

/-- A row that is its own payload is loaded. -/
theorem load_of_row {n : CatalogMerkleNode} {hash : ContentHash} (hrow : rows hash = some n)
    (hhash : catalogMerkleHash env n = .ok hash) (hpayload : catalogMerklePayload env n = .ok n) :
    loadCatalogMerkleNode env rows n.repoID hash n.pfx n.count = .ok n := by
  simp [loadCatalogMerkleNode, hrow, hhash, hpayload, refuse_of_not]

/-- A stored branch is loaded. -/
theorem load_branch {children : List CatalogMerkleChild}
    (hq : hashedBranch env repo pfx children = .ok q)
    (hread : ReadsBack env rows q) :
    loadCatalogMerkleNode env rows repo q.1 pfx q.2.count = .ok q.2 := by
  obtain ⟨m, hm, hrow⟩ := hread
  have hhash := hash_of_hashedBranch hq
  obtain ⟨-, -, -, -, x, -, rfl⟩ := hashedBranch_eq_ok.1 hq
  have hself : m = branchNode repo pfx children := by
    simp only [catalogMerklePayload, bind_eq_ok, mapM_eq_ok, Except.ok.injEq] at hm
    obtain ⟨-, -, entries, ⟨g, -, rfl⟩, -, -, -, -, rfl⟩ := hm
    rfl
  subst hself
  exact load_of_row hrow hhash hm

/-- A stored leaf is loaded, with its entries in canonical form. -/
theorem load_leaf
    (hstable : Stable env repo) (hout : Canonical env repo pfx l out)
    (hq : hashedLeaf env repo pfx l = .ok q) (hread : ReadsBack env rows q) :
    ∃ m, loadCatalogMerkleNode env rows repo q.1 pfx q.2.count = .ok m ∧ m.entries = out := by
  obtain ⟨m, hm, hrow⟩ := hread
  obtain ⟨hpfx, hshape, out', x, hout', hx, rfl⟩ := hashedLeaf_eq_ok.1 hq
  obtain rfl := hout.unique hout'
  obtain ⟨hself, hsorted⟩ := hout.self hstable
  have hlength : l.length = out.length := by
    rw [← hout.perm.length_eq, List.length_map]
  have hleaf : m = leafNode repo pfx out := by
    have hentries := entries_of_payload hout hm
    simp only [catalogMerklePayload, bind_eq_ok, Except.ok.injEq] at hm
    obtain ⟨-, -, entries, -, -, -, -, -, rfl⟩ := hm
    simp only at hentries
    rw [leafNode, leafNode, hentries, hsorted, hlength]
  subst hleaf
  have hnode := (canonicalNode_leaf_eq_ok hpfx).2 ⟨hshape, out, hself, rfl⟩
  have hhash : catalogMerkleHash env (leafNode repo pfx out) = .ok (env.hashContent x) := by
    rw [catalogMerkleHash, catalogMerkleText_eq, hnode, ok_bind, hx, ok_bind]
  have hcanonical : leafNode repo pfx out = canonicalLeafNode repo pfx out := by
    rw [leafNode, canonicalLeafNode, hsorted]
  have hpayload : catalogMerklePayload env (leafNode repo pfx out) =
      .ok (leafNode repo pfx out) := by
    rw [← hcanonical] at hx
    simp only [nodeText, bind_eq_ok] at hx
    obtain ⟨j, hj, raw, hraw, -⟩ := hx
    have hentries : (leafNode repo pfx out).entries.mapM payloadEntry =
        .ok (leafNode repo pfx out).entries := by
      refine mapM_eq_ok.2 ⟨id, fun c hc => ?_, by rw [List.map_id]⟩
      obtain ⟨e, -, he⟩ := hout.mem_iff.1 (mem_sortedEntries.1 hc)
      exact payloadEntry_of_canonicalEntry (hstable he)
    rw [catalogMerklePayload, hhash, ok_bind, hentries, ok_bind, hj, ok_bind, hraw, ok_bind]
  have hcount : (leafNode repo pfx l).count = (leafNode repo pfx out).count := by
    simp [leafNode, hlength]
  refine ⟨leafNode repo pfx out, ?_, hsorted⟩
  rw [hcount]
  exact load_of_row hrow hhash hpayload

/-- What is stored may stand for the entries. -/
theorem Canonical.to_stored {l' : List CatalogEntry}
    (hstable : Stable env repo) (h : Canonical env repo pfx l out)
    (hl : List.Forall₂ (Stored env repo pfx) l l') : Canonical env repo pfx l' out := by
  have hmap : AllCanonical env repo pfx l' ∧
      l.map (canonicalOr env repo pfx) = l'.map (canonicalOr env repo pfx) := by
    have hall := h.all
    clear h
    induction hl with
    | nil => exact ⟨nofun, rfl⟩
    | @cons e e' l l' he hl ih =>
        obtain ⟨hhead, htail⟩ := List.forall_mem_cons.1 hall
        obtain ⟨hl', hmap⟩ := ih htail
        obtain ⟨c, hc⟩ := Option.isSome_iff_exists.1 hhead
        have hc' : canonicalEntry env repo pfx e' = some c := by
          rcases he with rfl | he
          · exact hc
          · cases hc.symm.trans he
            exact hstable hc
        refine ⟨List.forall_mem_cons.2 ⟨by rw [hc']; rfl, hl'⟩, ?_⟩
        rw [List.map_cons, List.map_cons, hmap, canonicalOr_eq hc, canonicalOr_eq hc']
  exact ⟨hmap.1, hmap.2 ▸ h.perm, h.sorted⟩

/-- The new leaf of a bucket can be computed. -/
theorem exists_updatedLeaf
    (hstable : Stable env repo)
    (hq : hashedLeaf env repo pfx l = .ok q) (hread : ReadsBack env rows q)
    (hchanges : ∀ c ∈ changes, HasKey c)
    (hnew : ∃ p, hashedLeaf env repo pfx (applyChanges l changes) = .ok p) :
    ∃ p, updatedLeaf env rows orders repo pfx (hashedChild q) changes = .ok p := by
  obtain ⟨out, -, hout, -⟩ := text_of_hashedLeaf hq
  obtain ⟨m, hm, hentries⟩ := load_leaf hstable hout hq hread
  have hkeys : ∀ e ∈ out, HasKey e := by
    intro c hc
    obtain ⟨e, -, he⟩ := hout.mem_iff.1 hc
    exact hasKey_of_canonicalEntry (hstable he)
  obtain ⟨p, hp⟩ := hnew
  obtain ⟨out', -, hout', -⟩ := text_of_hashedLeaf hp
  have hrel := applyChanges_forall₂ Stored.semanticKey_eq (fun _ => .inl rfl)
    (stored_canonical hout) changes
  have hleaf : Canonical env repo pfx (orders.leaf pfx (applyChanges out changes)) out' :=
    (hout'.to_stored hstable hrel).of_perm
      ((orders.leaf_perm _ _).trans (applyChanges_perm hout.perm changes).symm)
  obtain ⟨p', hp', -⟩ := hashedLeaf_congr hout' hleaf hp
  refine ⟨p', ?_⟩
  simp only [updatedLeaf, bind_eq_ok, keyedLoop_eq_ok]
  refine ⟨m, hm, _, ⟨hentries ▸ hkeys, rfl⟩, _, ⟨hchanges, rfl⟩, ?_⟩
  rw [hentries, byKey_eq hkeys hout.nodup_keys hchanges, keyed_snd]
  exact hp'

/-- The branch of each digit is found, in the map or in the rows. -/
theorem exists_branchFor {entries : Char → Char → List CatalogEntry} (ht : t.Over env repo entries)
    (hrows : ∀ p ∈ t.nodes, ReadsBack env rows p) (hroot : root.children = t.rootChildren)
    (branches : List (Char × CatalogMerkleNode)) {high : Char} (hhigh : high ∈ catalogMerkleHex) :
    ∃ n, branchFor env rows repo root branches high = .ok n := by
  rw [branchFor]
  cases branches.lookup high with
  | some n => exact ⟨n, rfl⟩
  | none =>
      rw [child_of_map hroot hhigh]
      exact ⟨_, load_branch (ht.branch high hhigh) (hrows _ (mem_nodes_branch hhigh))⟩

/-- The loop over the buckets succeeds. -/
theorem exists_grouped {entries : Char → Char → List CatalogEntry} (ht : t.Over env repo entries)
    (hrows : ∀ p ∈ t.nodes, ReadsBack env rows p) (hroot : root.children = t.rootChildren)
    {groups : List String} (hn : groups.Nodup)
    (hgroups : ∀ b ∈ groups, ∃ high ∈ catalogMerkleHex, ∃ low ∈ catalogMerkleHex,
      b = bucketName high low)
    (hleaf : ∀ high ∈ catalogMerkleHex, ∀ low ∈ catalogMerkleHex, ∃ p,
      updatedLeaf env rows orders repo (bucketName high low) (hashedChild (t.leaf high low))
        (bucketEntries env changes high low) = .ok p) :
    ∃ st, groups.foldlM (updateBucket env rows orders repo root changes) {} = .ok st ∧
      Grouped env rows orders repo t changes groups st := by
  refine foldlM_progress (fun done b rest st hl hst => ?_) grouped_nil
  obtain ⟨high, hhigh, low, hlow, rfl⟩ := hgroups b (by simp [hl])
  have hnew : bucketName high low ∉ done := fun hmem => by
    rw [hl, List.nodup_append] at hn
    exact hn.2.2 _ hmem _ List.mem_cons_self rfl
  obtain ⟨branch, hbranch⟩ := exists_branchFor ht hrows hroot st.branches hhigh
  obtain ⟨p, hp⟩ := hleaf high hhigh low hlow
  have hold : branch.child low = hashedChild (t.leaf high low) := by
    rw [child_of_map (children_of_branchFor ht hrows hroot hst hhigh hbranch) hlow, mixedChild,
      if_neg hnew]
  rw [← hold] at hp
  have hstep : ∃ st', updateBucket env rows orders repo root changes st (bucketName high low) =
      .ok st' := by
    simp only [updateBucket, bucketDigits_bucketName, hbranch, ok_bind]
    rw [bucketEntries] at hp
    rw [hp]
    exact ⟨_, rfl⟩
  obtain ⟨st', hst'⟩ := hstep
  exact ⟨st', hst', updateBucket_invariant ht hrows hroot hhigh hlow hnew hst hst'⟩

/-- The loop over the branches succeeds. -/
theorem exists_rooted {groups : List String} {stBuckets : UpdateState}
    (hgrouped : Grouped env rows orders repo t changes groups stBuckets)
    (hroot : root.children = t.rootChildren) {highs : List Char}
    (hhighs : ∀ high ∈ highs, high ∈ catalogMerkleHex ∧ Touched groups high)
    (hbranch : ∀ high ∈ catalogMerkleHex, ∃ p, hashedBranch env repo (String.singleton high)
      (catalogMerkleHex.map (mixedChild env rows orders repo t changes groups high)) = .ok p) :
    ∃ st, highs.foldlM (updateBranch env repo stBuckets.branches) (root, stBuckets.nodes) =
        .ok st ∧ Rooted env rows orders repo t changes groups stBuckets.nodes highs st := by
  refine foldlM_progress (fun done high rest st hl hst => ?_) (rooted_nil hroot)
  obtain ⟨hhigh, htouched⟩ := hhighs high (by simp [hl])
  obtain ⟨n, hn, hchildren⟩ := hgrouped.branches high htouched
  obtain ⟨p, hp⟩ := hbranch high hhigh
  have hstep : ∃ st', updateBranch env repo stBuckets.branches st high = .ok st' := by
    rw [updateBranch, hn]
    simp only [hchildren, hp, ok_bind]
    exact ⟨_, rfl⟩
  obtain ⟨st', hst'⟩ := hstep
  exact ⟨st', hst', updateBranch_invariant hgrouped hhigh htouched hst hst'⟩

section Rebuilt

variable {S : List CatalogEntry} {t' : Levels} {st : UpdateState}
  (ht : t.Over env repo (bucketEntries env S))
  (ht' : t'.Over env repo (bucketEntries env (applyChanges S changes)))
  (hrows : ∀ p ∈ t.nodes, ReadsBack env rows p)
  (hentries : ∀ high low, bucketEntries env (applyChanges S changes) high low =
    applyChanges (bucketEntries env S high low) (bucketEntries env changes high low))
  (hgrouped : Grouped env rows orders repo t changes (orders.groups (groupsOf env changes)) st)

include ht ht' hrows hentries hgrouped

/-- The children that the first loop has collected are those of the rebuilt tree. -/
theorem mixedChild_rebuilt {high : Char} (hhigh : high ∈ catalogMerkleHex) :
    catalogMerkleHex.map
        (mixedChild env rows orders repo t changes (orders.groups (groupsOf env changes)) high) =
      t'.children high := by
  refine List.map_congr_left fun low hlow => ?_
  have hrebuilt := ht'.leaf high hhigh low hlow
  rw [hentries] at hrebuilt
  rw [mixedChild]
  split_ifs with hgroup
  · obtain ⟨p, hp, hchild⟩ := hashedLeaf_updated (ht.leaf high hhigh low hlow)
      (hrows _ (mem_nodes_leaf hhigh hlow)) rfl (hgrouped.leaf high hhigh low hlow hgroup)
    cases hp.symm.trans hrebuilt
    exact hchild.symm
  · rw [bucketEntries_eq_nil hgroup, applyChanges_nil] at hrebuilt
    rw [Except.ok.inj ((ht.leaf high hhigh low hlow).symm.trans hrebuilt)]

/-- The branch after the update is that of the rebuilt tree. -/
theorem newBranch_rebuilt {high : Char} (hhigh : high ∈ catalogMerkleHex) :
    hashedBranch env repo (String.singleton high) (catalogMerkleHex.map
        (mixedChild env rows orders repo t changes (orders.groups (groupsOf env changes)) high)) =
      .ok (t'.branch high) := by
  rw [mixedChild_rebuilt ht ht' hrows hentries hgrouped hhigh, ht'.branch high hhigh]

/-- The children that the second loop has collected are those of the rebuilt root. -/
theorem rootChildren_rebuilt {highs : List Char}
    (hhighs : ∀ high, high ∈ highs ↔ Touched (orders.groups (groupsOf env changes)) high)
    {stRoot : CatalogMerkleNode × CatalogNodes}
    (hrooted : Rooted env rows orders repo t changes (orders.groups (groupsOf env changes))
      st.nodes highs stRoot) : stRoot.1.children = t'.rootChildren := by
  rw [hrooted.children, Levels.rootChildren]
  refine List.map_congr_left fun high hhigh => ?_
  have hbranch := newBranch_rebuilt ht ht' hrows hentries hgrouped hhigh
  split_ifs with hh
  · rw [newBranch_eq hbranch]
  · have hold : catalogMerkleHex.map
          (mixedChild env rows orders repo t changes (orders.groups (groupsOf env changes)) high) =
        t.children high := List.map_congr_left fun low hlow => by
      rw [mixedChild, if_neg fun hgroup => hh ((hhighs high).2 ⟨low, hlow, hgroup⟩)]
    rw [hold, ht.branch high hhigh] at hbranch
    rw [Except.ok.inj hbranch]

end Rebuilt

/-- **An update succeeds when a rebuild does.** -/
theorem exists_update {S : List CatalogEntry} (hstable : Stable env repo)
    (hbuild : buildCatalogMerkle env repo S = .ok (root, nodes))
    (hrows : ∀ p ∈ nodes, ReadsBack env rows p)
    (hchanges : ∀ c ∈ changes, HasKey c ∧ (c.kind = "protocol" → c.key = repo))
    (hbuild' : ∃ p, buildCatalogMerkle env repo (applyChanges S changes) = .ok p) :
    ∃ p, updateCatalogMerkle env rows orders repo root changes = .ok p := by
  obtain ⟨-, hS, t, ht, hp⟩ := buildCatalogMerkle_eq_ok.1 hbuild
  cases hp
  obtain ⟨_, hbuild'⟩ := hbuild'
  obtain ⟨-, -, t', ht', -⟩ := buildCatalogMerkle_eq_ok.1 hbuild'
  have hkeys : ∀ e ∈ S, HasKey e := fun e he => by
    obtain ⟨b, hb⟩ := hS e he
    exact hasKey_of_bucket hb
  have hentries : ∀ high low, bucketEntries env (applyChanges S changes) high low =
      applyChanges (bucketEntries env S high low) (bucketEntries env changes high low) :=
    fun high low => filter_applyChanges (fun c hc => (hchanges c hc).1) hkeys _
  have hleaf : ∀ high ∈ catalogMerkleHex, ∀ low ∈ catalogMerkleHex, ∃ p,
      updatedLeaf env rows orders repo (bucketName high low) (hashedChild (t.leaf high low))
        (bucketEntries env changes high low) = .ok p := by
    intro high hhigh low hlow
    refine exists_updatedLeaf hstable (ht.leaf high hhigh low hlow)
      (hrows _ (mem_nodes_leaf hhigh hlow))
      (fun c hc => (hchanges c (List.mem_of_mem_filter hc)).1) ⟨t'.leaf high low, ?_⟩
    rw [← hentries]
    exact ht'.leaf high hhigh low hlow
  have hroot := (children_of_hashedBranch ht.root).1
  obtain ⟨st, hst, hgrouped⟩ := exists_grouped ht hrows hroot nodup_groups
    (fun _ => digits_of_group) hleaf
  have hhighs : ∀ high, high ∈ orders.branches (st.branches.map Prod.fst) ↔
      Touched (orders.groups (groupsOf env changes)) high := fun high => by
    rw [(orders.branches_perm _).mem_iff, hgrouped.mem_branches]
  obtain ⟨stRoot, hstRoot, hrooted⟩ := exists_rooted hgrouped hroot
    (fun high hh => ⟨hex_of_touched ((hhighs high).1 hh), (hhighs high).1 hh⟩)
    fun high hhigh => ⟨_, newBranch_rebuilt ht ht' hrows hentries hgrouped hhigh⟩
  have hnew : hashedBranch env repo "" stRoot.1.children = .ok t'.root := by
    rw [rootChildren_rebuilt ht ht' hrows hentries hgrouped hhighs hrooted, ht'.root]
  refine ⟨(t'.root.2, stRoot.2 ++ [t'.root]), ?_⟩
  simp only [updateCatalogMerkle, bind_eq_ok, exists_unit_iff, checkAll_eq_ok]
  refine ⟨fun c hc => ?_, st, hst, stRoot, hstRoot, _, hnew, rfl⟩
  obtain ⟨⟨key, hkey⟩, hprotocol⟩ := hchanges c hc
  refine ⟨_, catalogMerkleBucket_eq_ok.2 ⟨key, hkey, rfl⟩, ?_⟩
  simpa using hprotocol

/-! ### The update and the rebuild -/

/-- The hashes that are met when a tree is walked from its root. -/
inductive Reachable (nodes : CatalogNodes) (root : ContentHash) : ContentHash → Prop
  | root : Reachable nodes root root
  | child {hash : ContentHash} {n : CatalogMerkleNode} {c : CatalogMerkleChild} :
      Reachable nodes root hash → (hash, n) ∈ nodes → c ∈ n.children →
        Reachable nodes root c.hash

/-- The tree after the update is that of the changed entries. -/
theorem over_of_updated {S : List CatalogEntry} {t' : Levels}
    (hS : ∀ e ∈ S, HasKey e) (ht : t.Over env repo (bucketEntries env S))
    (hrows : ∀ p ∈ t.nodes, ReadsBack env rows p)
    (h : Updated env rows orders repo t changes t' nodes) :
    ∃ leaf : Char → Char → ContentHash × CatalogMerkleNode,
      Levels.Over env repo (bucketEntries env (applyChanges S changes))
        { t' with leaf := leaf } ∧
      ∀ high ∈ catalogMerkleHex, ∀ low ∈ catalogMerkleHex,
        hashedChild (leaf high low) = hashedChild (t'.leaf high low) := by
  have hleaf : ∀ high ∈ catalogMerkleHex, ∀ low ∈ catalogMerkleHex,
      ∃ p, hashedLeaf env repo (bucketName high low)
          (bucketEntries env (applyChanges S changes) high low) = .ok p ∧
        hashedChild p = hashedChild (t'.leaf high low) := by
    intro high hhigh low hlow
    have hentries : bucketEntries env (applyChanges S changes) high low =
        applyChanges (bucketEntries env S high low) (bucketEntries env changes high low) :=
      filter_applyChanges h.hasKey hS _
    rw [hentries]
    rcases h.leaf high hhigh low hlow with hnew | ⟨hnone, hold⟩
    · exact hashedLeaf_updated (ht.leaf high hhigh low hlow)
        (hrows _ (mem_nodes_leaf hhigh hlow)) rfl hnew
    · rw [hnone, hold]
      exact ⟨_, ht.leaf high hhigh low hlow, rfl⟩
  choose! leaf hleaf hchild using hleaf
  refine ⟨leaf, ⟨hleaf, fun high hhigh => ?_, h.linked.root⟩, hchild⟩
  rw [← h.linked.branch high hhigh]
  exact congrArg _ (List.map_congr_left fun low hlow => hchild high hhigh low hlow)

/-- **The update of a stored tree is a rebuild.**  The root is that of the changed entries,
every node of the rebuilt tree is returned or was a node of the old tree, and no hash met from
the new root is missing. -/
theorem updateCatalogMerkle_rebuilds {S : List CatalogEntry} {nodes nodes' : CatalogNodes}
    {root' : CatalogMerkleNode} (hbuild : buildCatalogMerkle env repo S = .ok (root, nodes))
    (hrows : ∀ p ∈ nodes, ReadsBack env rows p)
    (hupdate : updateCatalogMerkle env rows orders repo root changes = .ok (root', nodes')) :
    ∃ nodes'' hash, buildCatalogMerkle env repo (applyChanges S changes) = .ok (root', nodes'') ∧
      catalogMerkleHash env root' = .ok hash ∧ (hash, root') ∈ nodes' ∧ (hash, root') ∈ nodes'' ∧
      (∀ p ∈ nodes'', ∃ q ∈ nodes' ++ nodes, hashedChild q = hashedChild p ∧
        q.2.children = p.2.children) ∧
      ∀ h, Reachable (nodes' ++ nodes) hash h → ∃ q ∈ nodes' ++ nodes, q.1 = h := by
  obtain ⟨hrepo, hS, t, ht, hp⟩ := buildCatalogMerkle_eq_ok.1 hbuild
  cases hp
  have hkeys : ∀ e ∈ S, HasKey e := fun e he => by
    obtain ⟨b, hb⟩ := hS e he
    exact hasKey_of_bucket hb
  obtain ⟨t', h, rfl⟩ := updated_of_update ht hrows hupdate
  obtain ⟨leaf, hover, hchild⟩ := over_of_updated hkeys ht hrows h
  have hbuckets : ∀ e ∈ applyChanges S changes, ∃ b, catalogMerkleBucket env e = .ok b := by
    intro e he
    obtain ⟨key, hkey⟩ : HasKey e := (mem_applyChanges he).elim (hkeys e) (h.hasKey e)
    exact ⟨_, catalogMerkleBucket_eq_ok.2 ⟨key, hkey, rfl⟩⟩
  have hmem : ∀ q ∈ t'.nodes, q ∈ nodes' ++ t.nodes := fun q hq =>
    List.mem_append.2 (h.kept q hq)
  refine ⟨_, t'.root.1, buildCatalogMerkle_eq_ok.2 ⟨hrepo, hbuckets, _, hover, rfl⟩,
    hash_of_hashedBranch h.linked.root, h.root, mem_nodes_iff.2 (.inr (.inr rfl)), ?_, ?_⟩
  · intro p hp
    rcases mem_nodes_iff.1 hp with ⟨high, hhigh, low, hlow, rfl⟩ | ⟨high, hhigh, rfl⟩ | rfl
    · refine ⟨_, hmem _ (mem_nodes_leaf hhigh hlow), (hchild high hhigh low hlow).symm, ?_⟩
      rw [h.linked.leaf high hhigh low hlow, hover.linked.leaf high hhigh low hlow]
    · exact ⟨_, hmem _ (mem_nodes_branch hhigh), rfl, rfl⟩
    · exact ⟨_, hmem _ (mem_nodes_iff.2 (.inr (.inr rfl))), rfl, rfl⟩
  · intro hash hreach
    cases hreach with
    | root => exact ⟨_, List.mem_append_left _ h.root, rfl⟩
    | @child _ n c _ hn hc =>
        -- a node of either tree has its children in that tree
        rcases List.mem_append.1 hn with hn | hn
        · obtain ⟨q, hq, rfl⟩ := h.linked.closed (h.returned _ hn) hc
          exact ⟨q, hmem q hq, rfl⟩
        · obtain ⟨q, hq, rfl⟩ := ht.linked.closed hn hc
          exact ⟨q, List.mem_append_right _ hq, rfl⟩

/-! ### A stored tree -/

/-- Entries stay acceptable in canonical form when their values do. -/
theorem stable_of_validValue
    (h : ∀ e key value, env.validValue repo e = true → catalogMerkleNormalizedKey e = .ok key →
      canonicalText e.value = some value →
      env.validValue repo { e with key := key, value := value } = true) : Stable env repo := by
  intro pfx e c hc
  obtain ⟨hlive, hvalid, hb, key, value, hkey, hvalue, rfl⟩ := canonicalEntry_eq_some.1 hc
  have hkey' := normalizedKey_normalized hkey value
  refine canonicalEntry_eq_some.2 ⟨hlive, ?_, inBucket_iff.2 (bucket_congr hkey hkey' rfl
    (inBucket_iff.1 hb)), key, value, hkey', canonicalText_canonicalText hvalue, rfl⟩
  have hok : ∀ {x : Except DomainError Unit}, x.isOk = true ↔ x = .ok () := by
    intro x
    cases x <;> simp [Except.isOk, Except.toBool]
  rw [hok] at hvalid ⊢
  simp only [catalogMerkleValidateEntry, bind_eq_ok, exists_unit_iff, refuse_eq_ok, hlive,
    Bool.false_eq_true, if_false] at hvalid ⊢
  obtain ⟨hscope, hvalidKey, hvalidValue⟩ := hvalid
  have hvalidValue' := h e key value (by simpa using hvalidValue) hkey hvalue
  rw [hlive] at hvalidValue'
  refine ⟨hscope, ?_, by simpa using hvalidValue'⟩
  rcases normalizedKey_eq_ok.1 hkey with ⟨-, rfl⟩ | ⟨href, kind, name, -, -⟩
  · exact hvalidKey
  · -- the normalized key of a ref is the key of a ref
    rcases normalizedKey_eq_ok.1 hkey' with ⟨hplain, -⟩ | ⟨-, kind', name', hnames, -⟩
    · rcases hplain with ⟨hkind | hkind, -⟩ | ⟨hkind, -⟩ <;> rw [href] at hkind <;>
        exact absurd hkind (by decide)
    · simp only at hnames
      simp [catalogMerkleValidateKey, href, hnames]

/-- **With the checks of the source, entries stay acceptable in canonical form.** -/
theorem stable_of_entityValid {time : String → Option ℕ} (h : env.validValue = entityValid time) :
    Stable env repo :=
  stable_of_validValue fun _ _ _ => by
    rw [h]
    exact entityValid_canonical

/-- The payload of a node exists when its raw form is within the limit on nesting. -/
theorem exists_payload {n : CatalogMerkleNode} {hash : ContentHash}
    (hhash : catalogMerkleHash env n = .ok hash) (hentries : ∀ e ∈ n.entries,
      (∃ e', payloadEntry e = .ok e') ∧ ∃ o, e.marshal = .ok o ∧ o.depth + 2 ≤ Json.maxNesting) :
    ∃ m, catalogMerklePayload env n = .ok m := by
  choose! entry hentry hdepth using fun e he => (hentries e he).2
  choose! payload hpayload using fun e he => (hentries e he).1
  obtain ⟨x, hx⟩ := (nodeText_isOk_iff hentry).2 hdepth
  simp only [nodeText, bind_eq_ok] at hx
  obtain ⟨j, hj, raw, hraw, -⟩ := hx
  refine ⟨{ n with entries := n.entries.map payload }, ?_⟩
  rw [catalogMerklePayload, hhash, ok_bind, mapM_eq_ok.2 ⟨payload, hpayload, rfl⟩, ok_bind, hj,
    ok_bind, hraw, ok_bind]

/-- The rows that hold the payloads of some nodes. -/
def rowsOf (env : CatalogEnv) (nodes : CatalogNodes) : CatalogRows := fun hash =>
  (nodes.find? fun p => p.1 = hash).bind fun p => (catalogMerklePayload env p.2).toOption

/-- The rows of a tree are read back as written, if its hashes tell its nodes apart. -/
theorem readsBack_rowsOf
    (hinj : ∀ p ∈ nodes, ∀ q ∈ nodes, p.1 = q.1 → p = q)
    (hpayload : ∀ p ∈ nodes, ∃ m, catalogMerklePayload env p.2 = .ok m) :
    ∀ p ∈ nodes, ReadsBack env (rowsOf env nodes) p := by
  intro p hp
  obtain ⟨m, hm⟩ := hpayload p hp
  refine ⟨m, hm, ?_⟩
  cases hfind : nodes.find? fun q => q.1 = p.1 with
  | none =>
      rw [List.find?_eq_none] at hfind
      simpa using hfind p hp
  | some q =>
      have hq : q.1 = p.1 := by simpa using List.find?_some hfind
      rw [hinj q (List.mem_of_find?_eq_some hfind) p hp hq] at hfind
      rw [rowsOf, hfind, Option.bind_some, hm]
      rfl

/-- A branch has no entries of its own. -/
theorem entries_of_hashedBranch {children : List CatalogMerkleChild}
    {p : ContentHash × CatalogMerkleNode} (h : hashedBranch env repo pfx children = .ok p) :
    p.2.entries = [] := by
  obtain ⟨-, -, -, -, x, -, rfl⟩ := hashedBranch_eq_ok.1 h
  rfl

/-- A tree over entries whose raw form is within the limit on nesting can be stored. -/
theorem exists_payload_of_mem {S : List CatalogEntry} (ht : t.Over env repo (bucketEntries env S))
    (hS : ∀ e ∈ S, ∃ o, e.marshal = .ok o ∧ o.depth + 2 ≤ Json.maxNesting)
    {p : ContentHash × CatalogMerkleNode} (hp : p ∈ t.nodes) :
    ∃ m, catalogMerklePayload env p.2 = .ok m := by
  obtain ⟨n, x, -, -, htext, -⟩ := text_of_mem_nodes ht hp
  have hhash : catalogMerkleHash env p.2 = .ok (env.hashContent x) := by
    rw [catalogMerkleHash, htext]
    rfl
  refine exists_payload hhash ?_
  rcases mem_nodes_iff.1 hp with ⟨high, hhigh, low, hlow, rfl⟩ | ⟨high, hhigh, rfl⟩ | rfl
  · obtain ⟨-, -, out, x', hout, -, hleaf⟩ := hashedLeaf_eq_ok.1 (ht.leaf high hhigh low hlow)
    intro e he
    rw [hleaf] at he
    have hmem := mem_sortedEntries.1 he
    obtain ⟨c, hc⟩ := Option.isSome_iff_exists.1 (hout.all e hmem)
    exact ⟨⟨c, payloadEntry_of_canonicalEntry hc⟩, hS e (List.mem_of_mem_filter hmem)⟩
  · rw [entries_of_hashedBranch (ht.branch high hhigh)]
    exact fun _ he => (List.not_mem_nil he).elim
  · rw [entries_of_hashedBranch ht.root]
    exact fun _ he => (List.not_mem_nil he).elim

/-- The nodes of a tree over the samples are stored and read back. -/
theorem readsBack_sample
    (ht : t.Over sampleCatalogEnv (digitHash '0') (bucketEntries sampleCatalogEnv sampleEntries)) :
    ∀ p ∈ t.nodes, ReadsBack sampleCatalogEnv (rowsOf sampleCatalogEnv t.nodes) p :=
  readsBack_rowsOf (fun _ hp _ hq => eq_of_sample_hash ht hp hq) fun _ hp =>
    exists_payload_of_mem ht marshal_sample hp

/-- Every map is gone through in the order of its list. -/
def MapOrders.inOrder : MapOrders where
  groups := id
  groups_perm _ := .refl _
  leaf _ := id
  leaf_perm _ _ := .refl _
  branches := id
  branches_perm _ := .refl _

/-- The branch moves, under another spelling of its key, and the snapshot goes. -/
def sampleChanges : List CatalogEntry :=
  [branchEntry 3 "[ \"branch\", \"main\" ]" (sampleRef (digitHash 'b')),
    { sequence := 4, kind := "snapshot", key := digitHash 'a', deleted := true }]

/-- The update of the stored sample, with the maps gone through in the order of their keys. -/
theorem updateCatalogMerkle_sample : ∃ root nodes root' nodes',
    buildCatalogMerkle sampleCatalogEnv (digitHash '0') sampleEntries = .ok (root, nodes) ∧
    updateCatalogMerkle sampleCatalogEnv (rowsOf sampleCatalogEnv nodes) MapOrders.inOrder
      (digitHash '0') root sampleChanges = .ok (root', nodes') ∧
    ∃ nodes'', buildCatalogMerkle sampleCatalogEnv (digitHash '0')
      (applyChanges sampleEntries sampleChanges) = .ok (root', nodes'') := by
  obtain ⟨⟨root, nodes⟩, h⟩ := exists_build_sample
  obtain ⟨-, -, t, ht, hp⟩ := buildCatalogMerkle_eq_ok.1 h
  cases hp
  have hrows := readsBack_sample ht
  have hstable : Stable sampleCatalogEnv (digitHash '0') :=
    stable_of_entityValid rfl
  have hrebuild : ∃ p, buildCatalogMerkle sampleCatalogEnv (digitHash '0')
      (applyChanges sampleEntries sampleChanges) = .ok p := by
    have hlive : ∀ e ∈ applyChanges sampleEntries sampleChanges, e.deleted = false := by
      decide +kernel
    refine buildCatalogMerkle_isOk_iff.2
      ⟨by decide, fun e he => ?_, by decide +kernel, by decide +kernel⟩
    have hdeleted := hlive e he
    rcases mem_applyChanges he with hold | hnew
    · exact accepted_sample e hold
    · simp only [sampleChanges, List.mem_cons, List.not_mem_nil, or_false] at hnew
      rcases hnew with rfl | rfl
      · exact accepted_textOf rfl (by decide) (by decide) (by decide +kernel) (by decide +kernel)
      · cases hdeleted
  have hchanges : ∀ c ∈ sampleChanges,
      HasKey c ∧ (c.kind = "protocol" → c.key = digitHash '0') := by
    have hcheck : ∀ c ∈ sampleChanges, (catalogMerkleNormalizedKey c).isOk = true ∧
        c.kind ≠ "protocol" := by
      decide +kernel
    intro c hc
    obtain ⟨hkey, hkind⟩ := hcheck c hc
    refine ⟨?_, fun h => absurd h hkind⟩
    rw [HasKey]
    cases hk : catalogMerkleNormalizedKey c <;> simp_all [Except.isOk, Except.toBool]
  have hsucceeds : ∃ p, updateCatalogMerkle sampleCatalogEnv (rowsOf sampleCatalogEnv t.nodes)
      MapOrders.inOrder (digitHash '0') t.root.2 sampleChanges = .ok p :=
    exists_update hstable h hrows hchanges hrebuild
  obtain ⟨⟨root', nodes'⟩, hupdate⟩ := hsucceeds
  obtain ⟨nodes'', hash, hbuild, -⟩ := updateCatalogMerkle_rebuilds h hrows hupdate
  exact ⟨_, _, root', nodes', h, hupdate, nodes'', hbuild⟩

end Backend
end CxtHub
