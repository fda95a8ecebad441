/-
# One incremental update of a catalog tree

The two loops of `updateCatalogMerkle`, over a stored tree that is read back as written:
after the buckets `done` the branches above them have the new children of these buckets
and their old ones (`Grouped`), and after the branches `done` so does the root
(`Rooted`).  Put together, the update has computed a tree in which the leaves of the
changed buckets are new (`Updated`).
-/

import CxtHub.Backend.CatalogRebuild

namespace CxtHub
namespace Backend

variable {n : CatalogMerkleNode} {high low : Char} {p : ContentHash × CatalogMerkleNode}
  {groups done : List String} {b : String} {st : UpdateState}

/-! ### Children by digit -/

/-- The child of a digit, in children listed by digit. -/
theorem child_of_map {f : Char → CatalogMerkleChild} {c : Char}
    (h : n.children = catalogMerkleHex.map f) (hc : c ∈ catalogMerkleHex) : n.child c = f c := by
  have hlt : catalogMerkleHex.idxOf c < catalogMerkleHex.length := List.idxOf_lt_length_of_mem hc
  rw [CatalogMerkleNode.child, h, List.getD_eq_getElem?_getD, List.getElem?_map,
    List.getElem?_eq_getElem hlt, List.getElem_idxOf hlt, Option.map_some, Option.getD_some]

/-- Setting a child changes the list at its digit. -/
theorem setChild_of_map {f : Char → CatalogMerkleChild} {c : Char}
    (h : n.children = catalogMerkleHex.map f) (hc : c ∈ catalogMerkleHex)
    (child : CatalogMerkleChild) :
    (n.setChild c child).children = catalogMerkleHex.map (Function.update f c child) := by
  rw [CatalogMerkleNode.setChild, h, hex_nodup.map_update, if_pos hc]

/-- Dropping a key keeps the others. -/
theorem lookup_filter_ne {α : Type} {l : List (Char × α)} {k k' : Char} (h : k' ≠ k) :
    (l.filter fun p => p.1 ≠ k).lookup k' = l.lookup k' := by
  induction l with
  | nil => rfl
  | cons p l ih =>
      by_cases hp : p.1 = k
      · have hne : (k' == p.1) = false := by simp [hp, h]
        rw [List.filter_cons_of_neg (by simp [hp]), ih, List.lookup_cons, hne]
      · rw [List.filter_cons_of_pos (by simp [hp]), List.lookup_cons, List.lookup_cons, ih]

/-- The digits of the name of a bucket. -/
theorem bucketDigits_bucketName (high low : Char) :
    bucketDigits (bucketName high low) = (high, low) := by
  simp [bucketDigits]

/-! ### The old tree and its rows -/

section Update

variable (env : CatalogEnv) (rows : CatalogRows) (orders : MapOrders) (repo : ContentHash)
  (t : Levels) (changes : List CatalogEntry)

/-- The new leaf of a bucket. -/
def newLeaf (high low : Char) : ContentHash × CatalogMerkleNode :=
  match updatedLeaf env rows orders repo (bucketName high low) (hashedChild (t.leaf high low))
      (bucketEntries env changes high low) with
  | .ok p => p
  | .error _ => default

/-- The child for a bucket after the buckets `done`. -/
def mixedChild (done : List String) (high low : Char) : CatalogMerkleChild :=
  if bucketName high low ∈ done then hashedChild (newLeaf env rows orders repo t changes high low)
  else hashedChild (t.leaf high low)

/-- Some bucket below a branch is among `done`. -/
def Touched (done : List String) (high : Char) : Prop :=
  ∃ low ∈ catalogMerkleHex, bucketName high low ∈ done

instance (done : List String) (high : Char) : Decidable (Touched done high) :=
  List.decidableBEx (fun low => bucketName high low ∈ done) catalogMerkleHex

/-- The new branch above the buckets of `done`. -/
def newBranch (done : List String) (high : Char) : ContentHash × CatalogMerkleNode :=
  match hashedBranch env repo (String.singleton high)
      (catalogMerkleHex.map (mixedChild env rows orders repo t changes done high)) with
  | .ok p => p
  | .error _ => default

/-- The loop over the buckets has done `done`. -/
structure Grouped (done : List String) (st : UpdateState) : Prop where
  leaf : ∀ high ∈ catalogMerkleHex, ∀ low ∈ catalogMerkleHex, bucketName high low ∈ done →
    updatedLeaf env rows orders repo (bucketName high low) (hashedChild (t.leaf high low))
        (bucketEntries env changes high low) =
      .ok (newLeaf env rows orders repo t changes high low)
  branches : ∀ high, Touched done high → ∃ n, st.branches.lookup high = some n ∧
    n.children = catalogMerkleHex.map (mixedChild env rows orders repo t changes done high)
  other : ∀ high, ¬ Touched done high → st.branches.lookup high = none
  nodes : st.nodes = done.map fun b =>
    newLeaf env rows orders repo t changes (bucketDigits b).1 (bucketDigits b).2

/-- The loop over the branches has done `done`, after the buckets `groups`. -/
structure Rooted (groups : List String) (nodes : CatalogNodes) (done : List Char)
    (st : CatalogMerkleNode × CatalogNodes) : Prop where
  branch : ∀ high ∈ done, hashedBranch env repo (String.singleton high)
      (catalogMerkleHex.map (mixedChild env rows orders repo t changes groups high)) =
    .ok (newBranch env rows orders repo t changes groups high)
  children : st.1.children = catalogMerkleHex.map fun high =>
    if high ∈ done then hashedChild (newBranch env rows orders repo t changes groups high)
    else hashedChild (t.branch high)
  nodes : st.2 = nodes ++ done.map (newBranch env rows orders repo t changes groups)

end Update

variable {env : CatalogEnv} {rows : CatalogRows} {orders : MapOrders} {repo : ContentHash}
  {t : Levels} {changes : List CatalogEntry} {root : CatalogMerkleNode}
  {entries : Char → Char → List CatalogEntry}

/-- The new leaf is the one that the update computes. -/
theorem newLeaf_eq
    (h : updatedLeaf env rows orders repo (bucketName high low) (hashedChild (t.leaf high low))
      (bucketEntries env changes high low) = .ok p) :
    newLeaf env rows orders repo t changes high low = p := by
  rw [newLeaf, h]

/-- The new branch is the one that the update hashes. -/
theorem newBranch_eq
    (h : hashedBranch env repo (String.singleton high)
      (catalogMerkleHex.map (mixedChild env rows orders repo t changes groups high)) = .ok p) :
    newBranch env rows orders repo t changes groups high = p := by
  rw [newBranch, h]

/-- An updated leaf has the prefix of its bucket. -/
theorem pfx_of_updatedLeaf {child : CatalogMerkleChild} {l : List CatalogEntry}
    (h : updatedLeaf env rows orders repo b child l = .ok p) : p.2.pfx = b := by
  simp only [updatedLeaf, bind_eq_ok] at h
  obtain ⟨leaf, -, byKey, -, byKey', -, h⟩ := h
  obtain ⟨-, -, -, -, -, -, rfl⟩ := hashedLeaf_eq_ok.1 h
  rfl

/-- A branch is stored with the children it was given. -/
theorem children_of_hashedBranch {pfx : String} {children : List CatalogMerkleChild}
    (h : hashedBranch env repo pfx children = .ok p) :
    p.2.children = children ∧ p.2.pfx = pfx := by
  obtain ⟨-, -, -, -, -, -, rfl⟩ := hashedBranch_eq_ok.1 h
  exact ⟨rfl, rfl⟩

/-- The payload of a node has its children. -/
theorem children_of_payload {m : CatalogMerkleNode} (h : catalogMerklePayload env n = .ok m) :
    m.children = n.children := by
  simp only [catalogMerklePayload, bind_eq_ok, Except.ok.injEq] at h
  obtain ⟨-, -, -, -, -, -, -, -, rfl⟩ := h
  rfl

/-! ### The loop over the buckets -/

/-- The branch above a bucket, as the loop finds it. -/
theorem children_of_branchFor (ht : t.Over env repo entries)
    (hrows : ∀ p ∈ t.nodes, ReadsBack env rows p) (hroot : root.children = t.rootChildren)
    (hst : Grouped env rows orders repo t changes done st)
    (hhigh : high ∈ catalogMerkleHex)
    (h : branchFor env rows repo root st.branches high = .ok n) :
    n.children = catalogMerkleHex.map (mixedChild env rows orders repo t changes done high) := by
  by_cases htouched : Touched done high
  · obtain ⟨n', hn', hchildren⟩ := hst.branches high htouched
    rw [branchFor, hn'] at h
    cases h
    exact hchildren
  · rw [branchFor, hst.other high htouched] at h
    obtain ⟨m, hm, hrow⟩ := hrows _ (mem_nodes_branch hhigh)
    have hstored := loadCatalogMerkleNode_eq_ok h
    rw [child_of_map hroot hhigh] at hstored
    have hnm : m = n := Option.some.inj (hrow.symm.trans hstored)
    rw [← hnm, children_of_payload hm, (children_of_hashedBranch (ht.branch high hhigh)).1,
      Levels.children]
    refine List.map_congr_left fun low hlow => ?_
    rw [mixedChild, if_neg fun hdone => htouched ⟨low, hlow, hdone⟩]

/-- A bucket changes the child of its own digits only. -/
theorem mixedChild_append
    (h : bucketName high low ≠ b) :
    mixedChild env rows orders repo t changes (done ++ [b]) high low =
      mixedChild env rows orders repo t changes done high low := by
  simp only [mixedChild, List.mem_append, List.mem_singleton, h, or_false]

/-- **One round of the loop over the buckets keeps its invariant.** -/
theorem updateBucket_invariant (ht : t.Over env repo entries)
    (hrows : ∀ p ∈ t.nodes, ReadsBack env rows p) (hroot : root.children = t.rootChildren)
    (hhigh : high ∈ catalogMerkleHex)
    (hlow : low ∈ catalogMerkleHex) (hnew : bucketName high low ∉ done) {st' : UpdateState}
    (hst : Grouped env rows orders repo t changes done st)
    (h : updateBucket env rows orders repo root changes st (bucketName high low) = .ok st') :
    Grouped env rows orders repo t changes (done ++ [bucketName high low]) st' := by
  simp only [updateBucket, bucketDigits_bucketName, bind_eq_ok, Except.ok.injEq] at h
  obtain ⟨branch, hbranch, leaf, hleaf, rfl⟩ := h
  have hchildren := children_of_branchFor ht hrows hroot hst hhigh hbranch
  have hold : branch.child low = hashedChild (t.leaf high low) := by
    rw [child_of_map hchildren hlow, mixedChild, if_neg hnew]
  rw [hold] at hleaf
  have hnewLeaf := newLeaf_eq hleaf
  have hset : (branch.setChild low
        { pfx := bucketName high low, hash := leaf.1, count := leaf.2.count }).children =
      catalogMerkleHex.map (mixedChild env rows orders repo t changes
        (done ++ [bucketName high low]) high) := by
    rw [setChild_of_map hchildren hlow]
    refine List.map_congr_left fun low' _ => ?_
    by_cases hlow' : low' = low
    · rw [hlow', Function.update_self, mixedChild, if_pos (by simp), hnewLeaf, hashedChild, childOf,
        pfx_of_updatedLeaf hleaf]
    · rw [Function.update_of_ne hlow', mixedChild_append fun heq => hlow' (bucketName_inj.1 heq).2]
  have hother : ∀ high', high' ≠ high →
      (Touched (done ++ [bucketName high low]) high' ↔ Touched done high') := by
    intro high' hne
    refine exists_congr fun low' => and_congr_right fun _ => ?_
    rw [List.mem_append, List.mem_singleton]
    exact or_iff_left fun heq => hne (bucketName_inj.1 heq).1
  refine ⟨?_, ?_, ?_, ?_⟩
  · intro high' hhigh' low' hlow' hdone
    rw [List.mem_append, List.mem_singleton, bucketName_inj] at hdone
    rcases hdone with hdone | ⟨rfl, rfl⟩
    · exact hst.leaf high' hhigh' low' hlow' hdone
    · rw [hnewLeaf]
      exact hleaf
  · intro high' htouched
    by_cases hne : high' = high
    · subst hne
      exact ⟨_, by rw [List.lookup_cons_self], hset⟩
    · obtain ⟨n, hn, hnchildren⟩ := hst.branches high' ((hother high' hne).1 htouched)
      have hfalse : (high' == high) = false := by simpa using hne
      refine ⟨n, by rw [List.lookup_cons, hfalse, lookup_filter_ne hne, hn], ?_⟩
      rw [hnchildren]
      refine List.map_congr_left fun low' _ => ?_
      rw [mixedChild_append fun heq => hne (bucketName_inj.1 heq).1]
  · intro high' hnot
    have hne : high' ≠ high := by
      rintro rfl
      exact hnot ⟨low, hlow, by simp⟩
    have hfalse : (high' == high) = false := by simpa using hne
    rw [List.lookup_cons, hfalse, lookup_filter_ne hne,
      hst.other high' fun h => hnot ((hother high' hne).2 h)]
  · rw [hst.nodes, List.map_append, List.map_singleton, bucketDigits_bucketName, hnewLeaf]

/-- The buckets of the changes. -/
def groupsOf (env : CatalogEnv) (changes : List CatalogEntry) : List String :=
  (changes.filterMap fun e => (catalogMerkleBucket env e).toOption).dedup

/-- The groups are the buckets of the changes. -/
theorem mem_groupsOf :
    b ∈ groupsOf env changes ↔ ∃ c ∈ changes, catalogMerkleBucket env c = .ok b := by
  rw [groupsOf, List.mem_dedup, List.mem_filterMap]
  refine exists_congr fun c => and_congr_right fun _ => ?_
  cases catalogMerkleBucket env c <;> simp [Except.toOption]

/-- In any order of the map. -/
theorem mem_groups : b ∈ orders.groups (groupsOf env changes) ↔
    ∃ c ∈ changes, catalogMerkleBucket env c = .ok b := by
  rw [(orders.groups_perm _).mem_iff, mem_groupsOf]

/-- No bucket is updated twice. -/
theorem nodup_groups : (orders.groups (groupsOf env changes)).Nodup :=
  (orders.groups_perm _).nodup_iff.2 (List.nodup_dedup _)

/-- Each group is named by two digits. -/
theorem digits_of_group (h : b ∈ orders.groups (groupsOf env changes)) :
    ∃ high ∈ catalogMerkleHex, ∃ low ∈ catalogMerkleHex, b = bucketName high low := by
  obtain ⟨c, -, hc⟩ := mem_groups.1 h
  exact digits_of_bucket hc

/-- A touched branch is one of the sixteen. -/
theorem hex_of_touched (h : Touched (orders.groups (groupsOf env changes)) high) :
    high ∈ catalogMerkleHex := by
  obtain ⟨low, -, hb⟩ := h
  obtain ⟨high', hhigh', low', -, heq⟩ := digits_of_group hb
  rwa [(bucketName_inj.1 heq).1]

/-- A bucket that is no group has no changes. -/
theorem bucketEntries_eq_nil
    (h : bucketName high low ∉ orders.groups (groupsOf env changes)) :
    bucketEntries env changes high low = [] := by
  rw [bucketEntries, List.filter_eq_nil_iff]
  exact fun c hc hin => h (mem_groups.2 ⟨c, hc, inBucket_iff.1 hin⟩)

/-- Before the loop over the buckets. -/
theorem grouped_nil : Grouped env rows orders repo t changes [] {} :=
  ⟨nofun, fun _ ⟨_, _, h⟩ => (List.not_mem_nil h).elim, fun _ _ => rfl, rfl⟩

/-- **What the loop over the buckets leaves.** -/
theorem grouped_of_loop (ht : t.Over env repo entries)
    (hrows : ∀ p ∈ t.nodes, ReadsBack env rows p) (hroot : root.children = t.rootChildren)
    (hn : groups.Nodup)
    (hgroups : ∀ b ∈ groups, ∃ high ∈ catalogMerkleHex, ∃ low ∈ catalogMerkleHex,
      b = bucketName high low)
    (h : groups.foldlM (updateBucket env rows orders repo root changes) {} = .ok st) :
    Grouped env rows orders repo t changes groups st := by
  have hloop := foldlM_invariant (f := updateBucket env rows orders repo root changes)
    (P := fun done st => done.Nodup → (∀ b ∈ done, ∃ high ∈ catalogMerkleHex,
      ∃ low ∈ catalogMerkleHex, b = bucketName high low) →
      Grouped env rows orders repo t changes done st) ?_ (fun _ _ => grouped_nil) h
  · exact hloop hn hgroups
  · intro done b st st' hst hstep hn hall
    obtain ⟨high, hhigh, low, hlow, rfl⟩ := hall b (by simp)
    have hn' := List.nodup_append.1 hn
    exact updateBucket_invariant ht hrows hroot hhigh hlow
      (fun hmem => hn'.2.2 _ hmem _ (List.mem_singleton_self _) rfl)
      (hst hn'.1 fun b hb => hall b (List.mem_append_left _ hb)) hstep

/-! ### The loop over the branches -/

/-- **One round of the loop over the branches keeps its invariant.** -/
theorem updateBranch_invariant {stBuckets : UpdateState}
    (hgrouped : Grouped env rows orders repo t changes groups stBuckets)
    {done : List Char} (hhigh : high ∈ catalogMerkleHex)
    (htouched : Touched groups high) {st st' : CatalogMerkleNode × CatalogNodes}
    (hst : Rooted env rows orders repo t changes groups stBuckets.nodes done st)
    (h : updateBranch env repo stBuckets.branches st high = .ok st') :
    Rooted env rows orders repo t changes groups stBuckets.nodes (done ++ [high]) st' := by
  obtain ⟨n, hn, hchildren⟩ := hgrouped.branches high htouched
  simp only [updateBranch, hn, hchildren, bind_eq_ok, Except.ok.injEq] at h
  obtain ⟨branch, hbranch, rfl⟩ := h
  have hnew := newBranch_eq hbranch
  refine ⟨?_, ?_, ?_⟩
  · intro high' hdone
    rw [List.mem_append, List.mem_singleton] at hdone
    rcases hdone with hdone | rfl
    · exact hst.branch high' hdone
    · rw [hnew]
      exact hbranch
  · rw [setChild_of_map hst.children hhigh]
    refine List.map_congr_left fun high' _ => ?_
    by_cases hne : high' = high
    · rw [hne, Function.update_self, if_pos (by simp), hnew, hashedChild, childOf,
        (children_of_hashedBranch hbranch).2]
    · rw [Function.update_of_ne hne]
      simp only [List.mem_append, List.mem_singleton, hne, or_false]
  · rw [hst.nodes, List.map_append, List.map_singleton, hnew, List.append_assoc]

/-- Before the loop over the branches. -/
theorem rooted_nil {nodes : CatalogNodes}
    (hroot : root.children = t.rootChildren) :
    Rooted env rows orders repo t changes groups nodes [] (root, nodes) :=
  ⟨nofun, by simpa [Levels.rootChildren] using hroot, by simp⟩

/-- **What the loop over the branches leaves.** -/
theorem rooted_of_loop {stBuckets : UpdateState}
    (hgrouped : Grouped env rows orders repo t changes groups stBuckets)
    (hroot : root.children = t.rootChildren) {highs : List Char}
    (hhighs : ∀ high ∈ highs, high ∈ catalogMerkleHex ∧ Touched groups high)
    {st : CatalogMerkleNode × CatalogNodes}
    (h : highs.foldlM (updateBranch env repo stBuckets.branches) (root, stBuckets.nodes) =
      .ok st) :
    Rooted env rows orders repo t changes groups stBuckets.nodes highs st := by
  have hloop := foldlM_invariant (f := updateBranch env repo stBuckets.branches)
    (P := fun done st => (∀ high ∈ done, high ∈ catalogMerkleHex ∧ Touched groups high) →
      Rooted env rows orders repo t changes groups stBuckets.nodes done st) ?_
    (fun _ => rooted_nil hroot) h
  · exact hloop hhighs
  · intro done high st st' hst hstep hall
    obtain ⟨hhigh, htouched⟩ := hall high (by simp)
    exact updateBranch_invariant hgrouped hhigh htouched
      (hst fun high' h' => hall high' (List.mem_append_left _ h')) hstep

/-! ### The tree after the update -/

/-- The nodes of the tree after the update of the buckets `groups`. -/
def updatedLevels (env : CatalogEnv) (rows : CatalogRows) (orders : MapOrders)
    (repo : ContentHash) (t : Levels) (changes : List CatalogEntry) (groups : List String)
    (root : ContentHash × CatalogMerkleNode) : Levels where
  leaf high low :=
    if bucketName high low ∈ groups then newLeaf env rows orders repo t changes high low
    else t.leaf high low
  branch high :=
    if Touched groups high then newBranch env rows orders repo t changes groups high
    else t.branch high
  root := root

/-- The branches and the root of a tree are those above its leaves, which have no children. -/
structure Levels.Linked (env : CatalogEnv) (repo : ContentHash) (t : Levels) : Prop where
  leaf : ∀ high ∈ catalogMerkleHex, ∀ low ∈ catalogMerkleHex, (t.leaf high low).2.children = []
  branch : ∀ high ∈ catalogMerkleHex,
    hashedBranch env repo (String.singleton high) (t.children high) = .ok (t.branch high)
  root : hashedBranch env repo "" t.rootChildren = .ok t.root

/-- A built tree is linked by its hashes. -/
theorem Levels.Over.linked (ht : t.Over env repo entries) : t.Linked env repo where
  leaf high hhigh low hlow := by
    obtain ⟨-, -, out, text, -, -, h⟩ := hashedLeaf_eq_ok.1 (ht.leaf high hhigh low hlow)
    rw [h]
    rfl
  branch := ht.branch
  root := ht.root

/-- **No child of a tree is missing.** -/
theorem Levels.Linked.closed (ht : t.Linked env repo)
    (hp : p ∈ t.nodes) {c : CatalogMerkleChild} (hc : c ∈ p.2.children) :
    ∃ q ∈ t.nodes, hashedChild q = c := by
  rcases mem_nodes_iff.1 hp with ⟨high, hhigh, low, hlow, rfl⟩ | ⟨high, hhigh, rfl⟩ | rfl
  · rw [ht.leaf high hhigh low hlow] at hc
    cases hc
  · rw [(children_of_hashedBranch (ht.branch high hhigh)).1, Levels.children, List.mem_map] at hc
    obtain ⟨low, hlow, rfl⟩ := hc
    exact ⟨_, mem_nodes_leaf hhigh hlow, rfl⟩
  · rw [(children_of_hashedBranch ht.root).1, Levels.rootChildren, List.mem_map] at hc
    obtain ⟨high, hhigh, rfl⟩ := hc
    exact ⟨_, mem_nodes_branch hhigh, rfl⟩

/-- The children of a branch after the update, changed or not. -/
theorem updatedLevels_children {new : ContentHash × CatalogMerkleNode}
    : (updatedLevels env rows orders repo t changes groups new).children high =
      catalogMerkleHex.map (mixedChild env rows orders repo t changes groups high) := by
  refine List.map_congr_left fun low _ => ?_
  simp only [mixedChild, updatedLevels]
  split_ifs <;> rfl

/-- What a successful update has computed. -/
structure Updated (env : CatalogEnv) (rows : CatalogRows) (orders : MapOrders)
    (repo : ContentHash) (t : Levels) (changes : List CatalogEntry) (t' : Levels)
    (nodes : CatalogNodes) : Prop where
  hasKey : ∀ c ∈ changes, HasKey c
  linked : t'.Linked env repo
  /-- The leaf of a bucket with changes is new, and that of another one is the old one. -/
  leaf : ∀ high ∈ catalogMerkleHex, ∀ low ∈ catalogMerkleHex,
    updatedLeaf env rows orders repo (bucketName high low) (hashedChild (t.leaf high low))
        (bucketEntries env changes high low) = .ok (t'.leaf high low) ∨
      bucketEntries env changes high low = [] ∧ t'.leaf high low = t.leaf high low
  /-- Every returned node belongs to the new tree. -/
  returned : ∀ p ∈ nodes, p ∈ t'.nodes
  /-- What is not returned belongs to the old tree. -/
  kept : ∀ p ∈ t'.nodes, p ∈ nodes ∨ p ∈ t.nodes
  root : t'.root ∈ nodes

/-- The loop loads the branches of the changed buckets. -/
theorem Grouped.mem_branches
    (h : Grouped env rows orders repo t changes groups st) :
    high ∈ st.branches.map Prod.fst ↔ Touched groups high := by
  constructor
  · intro hmem
    by_contra hnot
    have hnone := List.lookup_eq_none_iff.1 (h.other high hnot)
    obtain ⟨p, hp, rfl⟩ := List.mem_map.1 hmem
    simpa using hnone p hp
  · intro htouched
    obtain ⟨n, hn, -⟩ := h.branches high htouched
    by_contra hnot
    rw [List.lookup_eq_none_iff.2 fun p hp => ?_] at hn
    · cases hn
    · exact bne_iff_ne.2 fun heq => hnot (List.mem_map.2 ⟨p, hp, heq.symm⟩)

/-- The new tree, after both loops. -/
theorem linked_updatedLevels (ht : t.Over env repo entries)
    (hgrouped : Grouped env rows orders repo t changes groups st)
    {highs : List Char} (hhighs : ∀ high, high ∈ highs ↔ Touched groups high)
    {stRoot : CatalogMerkleNode × CatalogNodes}
    (hrooted : Rooted env rows orders repo t changes groups st.nodes highs stRoot)
    {new : ContentHash × CatalogMerkleNode}
    (hnew : hashedBranch env repo "" stRoot.1.children = .ok new) :
    (updatedLevels env rows orders repo t changes groups new).Linked env repo where
  leaf high hhigh low hlow := by
    simp only [updatedLevels]
    split_ifs with hgroup
    · have hleaf := hgrouped.leaf high hhigh low hlow hgroup
      simp only [updatedLeaf, bind_eq_ok] at hleaf
      obtain ⟨leaf, -, byKey, -, byKey', -, hleaf⟩ := hleaf
      obtain ⟨-, -, out, text, -, -, h⟩ := hashedLeaf_eq_ok.1 hleaf
      rw [h]
      rfl
    · exact ht.linked.leaf high hhigh low hlow
  branch high hhigh := by
    rw [updatedLevels_children]
    simp only [updatedLevels]
    split_ifs with htouched
    · exact hrooted.branch high ((hhighs high).2 htouched)
    · rw [← ht.branch high hhigh, Levels.children]
      refine congrArg _ (List.map_congr_left fun low hlow => ?_)
      rw [mixedChild, if_neg fun hgroup => htouched ⟨low, hlow, hgroup⟩]
  root := by
    simp only [updatedLevels, Levels.rootChildren]
    rw [← hnew, hrooted.children]
    refine congrArg _ (List.map_congr_left fun high _ => ?_)
    simp only [hhighs]
    split_ifs <;> rfl

/-- The nodes that the update returns. -/
theorem mem_returned {groups : List String} {highs : List Char}
    (hdigits : ∀ b ∈ groups, ∃ high ∈ catalogMerkleHex, ∃ low ∈ catalogMerkleHex,
      b = bucketName high low) (hhighs : ∀ high, high ∈ highs ↔ Touched groups high)
    {new p : ContentHash × CatalogMerkleNode} :
    p ∈ ((groups.map fun b =>
          newLeaf env rows orders repo t changes (bucketDigits b).1 (bucketDigits b).2) ++
        highs.map (newBranch env rows orders repo t changes groups)) ++ [new] ↔
      (∃ high ∈ catalogMerkleHex, ∃ low ∈ catalogMerkleHex, bucketName high low ∈ groups ∧
        p = newLeaf env rows orders repo t changes high low) ∨
      (∃ high, Touched groups high ∧ p = newBranch env rows orders repo t changes groups high) ∨
      p = new := by
  simp only [List.mem_append, List.mem_map, List.mem_singleton, hhighs, or_assoc]
  refine or_congr ⟨?_, ?_⟩ (or_congr ?_ Iff.rfl)
  · rintro ⟨b, hb, rfl⟩
    obtain ⟨high, hhigh, low, hlow, rfl⟩ := hdigits b hb
    exact ⟨high, hhigh, low, hlow, hb, by rw [bucketDigits_bucketName]⟩
  · rintro ⟨high, -, low, -, hb, rfl⟩
    exact ⟨_, hb, by rw [bucketDigits_bucketName]⟩
  · exact exists_congr fun _ => and_congr_right fun _ => eq_comm

/-- **The update returns the nodes of a tree with the changed parts replaced.** -/
theorem updated_of_update (ht : t.Over env repo entries)
    (hrows : ∀ p ∈ t.nodes, ReadsBack env rows p) {p : CatalogMerkleNode × CatalogNodes}
    (h : updateCatalogMerkle env rows orders repo t.root.2 changes = .ok p) :
    ∃ t', Updated env rows orders repo t changes t' p.2 ∧ p.1 = t'.root.2 := by
  simp only [updateCatalogMerkle, bind_eq_ok, exists_unit_iff, checkAll_eq_ok] at h
  obtain ⟨hchanges, st, hbuckets, ⟨root, nodes⟩, hbranches, new, hnew, hp⟩ := h
  cases hp
  have hroot := (children_of_hashedBranch ht.root).1
  have hgrouped := grouped_of_loop ht hrows hroot nodup_groups (fun _ => digits_of_group) hbuckets
  have hhighs : ∀ high, high ∈ orders.branches (st.branches.map Prod.fst) ↔
      Touched (orders.groups (groupsOf env changes)) high := fun high => by
    rw [(orders.branches_perm _).mem_iff, hgrouped.mem_branches]
  have hrooted := rooted_of_loop hgrouped hroot
    (fun high hh => ⟨hex_of_touched ((hhighs high).1 hh), (hhighs high).1 hh⟩) hbranches
  have hreturned := @mem_returned env rows orders repo t changes _ _ (fun _ => digits_of_group)
    hhighs new
  refine ⟨updatedLevels env rows orders repo t changes (orders.groups (groupsOf env changes)) new,
    ⟨fun c hc => ?_, linked_updatedLevels ht hgrouped hhighs hrooted hnew, ?_, ?_, ?_, ?_⟩, rfl⟩
  · obtain ⟨b, hb, -⟩ := hchanges c hc
    exact hasKey_of_bucket hb
  · intro high hhigh low hlow
    simp only [updatedLevels]
    split_ifs with hgroup
    · exact .inl (hgrouped.leaf high hhigh low hlow hgroup)
    · exact .inr ⟨bucketEntries_eq_nil hgroup, rfl⟩
  · intro p hp
    rw [hrooted.nodes, hgrouped.nodes, hreturned] at hp
    rw [mem_nodes_iff]
    rcases hp with ⟨high, hhigh, low, hlow, hb, rfl⟩ | ⟨high, htouched, rfl⟩ | rfl
    · exact .inl ⟨high, hhigh, low, hlow, (if_pos hb).symm⟩
    · exact .inr (.inl ⟨high, hex_of_touched htouched, (if_pos htouched).symm⟩)
    · exact .inr (.inr rfl)
  · intro p hp
    rw [hrooted.nodes, hgrouped.nodes, hreturned]
    rcases mem_nodes_iff.1 hp with ⟨high, hhigh, low, hlow, rfl⟩ | ⟨high, hhigh, rfl⟩ | rfl
    · by_cases hb : bucketName high low ∈ orders.groups (groupsOf env changes)
      · exact .inl (.inl ⟨high, hhigh, low, hlow, hb, if_pos hb⟩)
      · refine .inr ?_
        simp only [updatedLevels, if_neg hb]
        exact mem_nodes_leaf hhigh hlow
    · by_cases htouched : Touched (orders.groups (groupsOf env changes)) high
      · exact .inl (.inr (.inl ⟨high, htouched, if_pos htouched⟩))
      · refine .inr ?_
        simp only [updatedLevels, if_neg htouched]
        exact mem_nodes_branch hhigh
    · exact .inl (.inr (.inr rfl))
  · simp [updatedLevels]

end Backend
end CxtHub
