/-
# What a catalog tree is built from

The specification of `BuildCatalogMerkle`.  An entry has a canonical form
(`canonicalEntry`), and a leaf is determined by the canonical forms of its entries in
the order of their keys (`hashedLeaf_eq_ok`); a branch is determined by its children
(`hashedBranch_eq_ok`); `buildCatalogMerkle_eq_ok` puts the levels together.
-/

import CxtHub.Backend.CatalogMerkle

namespace CxtHub
namespace Backend

variable {e c : CatalogEntry} {l out : List CatalogEntry} {p : ContentHash × CatalogMerkleNode}
  {hex : List Char} {total : ℤ}
variable {env : CatalogEnv} {repo : ContentHash} {pfx : String}

/-! ### Canonical entries -/

/-- Kind and key, in the order of a leaf. -/
def rank (c : CatalogEntry) : String ×ₗ String := toLex (c.kind, c.key)

/-- The canonical form of an entry that may stand in the leaf `pfx`. -/
def canonicalEntry (env : CatalogEnv) (repo : ContentHash) (pfx : String) (e : CatalogEntry) :
    Option CatalogEntry :=
  if e.deleted = false ∧ (catalogMerkleValidateEntry env repo e).isOk = true ∧
      inBucket env pfx e = true then
    match catalogMerkleNormalizedKey e, canonicalText e.value with
    | .ok key, some value => some { e with key := key, value := value }
    | _, _ => none
  else none

/-- **What the canonical form of an entry is.** -/
theorem canonicalEntry_eq_some :
    canonicalEntry env repo pfx e = some c ↔
      e.deleted = false ∧ (catalogMerkleValidateEntry env repo e).isOk = true ∧
        inBucket env pfx e = true ∧
        ∃ key value, catalogMerkleNormalizedKey e = .ok key ∧ canonicalText e.value = some value ∧
          c = { e with key := key, value := value } := by
  unfold canonicalEntry
  split_ifs with h
  · obtain ⟨hlive, hvalid, hbucket⟩ := h
    cases hkey : catalogMerkleNormalizedKey e <;> cases hvalue : canonicalText e.value <;>
      simp [hlive, hvalid, hbucket, eq_comm]
  · simp only [false_iff]
    tauto

/-- The canonical form keeps the order of the keys. -/
theorem rank_canonicalEntry (h : canonicalEntry env repo pfx e = some c) :
    rank c = semanticKey e := by
  obtain ⟨-, -, -, key, value, hkey, -, rfl⟩ := canonicalEntry_eq_some.1 h
  rw [rank, semanticKey, hkey]

/-- The canonical form, or the entry itself. -/
def canonicalOr (env : CatalogEnv) (repo : ContentHash) (pfx : String) (e : CatalogEntry) :
    CatalogEntry :=
  (canonicalEntry env repo pfx e).getD e

/-- The canonical form, where there is one. -/
theorem canonicalOr_eq (h : canonicalEntry env repo pfx e = some c) :
    canonicalOr env repo pfx e = c := by
  rw [canonicalOr, h, Option.getD_some]

/-- Every entry of a list may stand in the leaf `pfx`. -/
def AllCanonical (env : CatalogEnv) (repo : ContentHash) (pfx : String) (l : List CatalogEntry) :
    Prop :=
  ∀ e ∈ l, (canonicalEntry env repo pfx e).isSome = true

theorem lex_lt_iff {a b c d : String} :
    toLex (a, b) < toLex (c, d) ↔ a < c ∨ a = c ∧ b < d := Prod.Lex.toLex_lt_toLex

/-- **The loop keeps the canonical forms of entries in strict order.** -/
theorem canonicalEntriesFrom_eq_ok {prev : Option (String × String)} :
    canonicalEntriesFrom env repo pfx prev l = .ok out ↔
      AllCanonical env repo pfx l ∧ out = l.map (canonicalOr env repo pfx) ∧
        out.Pairwise (fun a b => rank a < rank b) ∧ ∀ p ∈ prev, ∀ c ∈ out, toLex p < rank c := by
  induction l generalizing prev out with
  | nil =>
      simp only [canonicalEntriesFrom, Except.ok.injEq]
      constructor
      · rintro rfl
        exact ⟨nofun, rfl, List.Pairwise.nil, nofun⟩
      · rintro ⟨-, rfl, -⟩
        rfl
  | cons e l ih =>
      have hrest : ∀ key value out, (do
            let out ← canonicalEntriesFrom env repo pfx (some (e.kind, key)) l
            .ok ({ e with key := key, value := value } :: out)) = Except.ok out ↔
          ∃ out', (AllCanonical env repo pfx l ∧ out' = l.map (canonicalOr env repo pfx) ∧
              out'.Pairwise (fun a b => rank a < rank b) ∧
              ∀ c ∈ out', toLex (e.kind, key) < rank c) ∧
            out = { e with key := key, value := value } :: out' := by
        intro key value out
        simp only [bind_eq_ok, ih, Except.ok.injEq, Option.mem_some_iff, forall_eq']
        exact exists_congr fun _ => and_congr_right fun _ => eq_comm
      rw [canonicalEntriesFrom]
      simp only [bind_eq_ok, exists_unit_iff, refuse_eq_ok]
      constructor
      · rintro ⟨hlive, key, hkey, hbucket, horder, h⟩
        cases hvalue : canonicalText e.value with
        | none => rw [hvalue] at h; cases h
        | some value =>
            rw [hvalue] at h
            obtain ⟨out', ⟨hall, rfl, hsorted, hlt⟩, rfl⟩ := (hrest key value out).1 h
            have hcanonical : canonicalEntry env repo pfx e =
                some { e with key := key, value := value } :=
              canonicalEntry_eq_some.2 ⟨by simp_all, by simp_all, by simp_all, key, value, hkey,
                hvalue, rfl⟩
            refine ⟨List.forall_mem_cons.2 ⟨by rw [hcanonical]; rfl, hall⟩, ?_,
              List.pairwise_cons.2 ⟨hlt, hsorted⟩, fun p hp c hc => ?_⟩
            · rw [List.map_cons, canonicalOr_eq hcanonical]
            · have hp' : toLex p < toLex (e.kind, key) := by
                rw [lex_lt_iff]
                by_contra hnot
                exact horder ⟨p, hp, hnot⟩
              rcases List.mem_cons.1 hc with rfl | hc
              · exact hp'
              · exact hp'.trans (hlt c hc)
      · rintro ⟨hall, rfl, hsorted, hprev⟩
        obtain ⟨he, hall⟩ := List.forall_mem_cons.1 hall
        obtain ⟨c, hc⟩ := Option.isSome_iff_exists.1 he
        obtain ⟨hlive, hvalid, hbucket, key, value, hkey, hvalue, rfl⟩ :=
          canonicalEntry_eq_some.1 hc
        rw [List.map_cons, canonicalOr_eq hc] at hsorted hprev ⊢
        obtain ⟨hlt, hsorted⟩ := List.pairwise_cons.1 hsorted
        refine ⟨by simp [hlive, hvalid], key, hkey, by simp [hbucket], ?_, ?_⟩
        · rintro ⟨p, hp, hnot⟩
          exact hnot (lex_lt_iff.1 (hprev p hp _ List.mem_cons_self))
        · rw [hvalue]
          exact (hrest key value _).2 ⟨_, ⟨hall, rfl, hsorted, hlt⟩, rfl⟩

/-! ### Leaves -/

/-- `out` lists the canonical forms of the entries in the order of their keys. -/
structure Canonical (env : CatalogEnv) (repo : ContentHash) (pfx : String)
    (l out : List CatalogEntry) : Prop where
  all : AllCanonical env repo pfx l
  perm : (l.map (canonicalOr env repo pfx)).Perm out
  sorted : out.Pairwise fun a b => rank a < rank b

/-- The entries in the order of their keys. -/
def sortedEntries (l : List CatalogEntry) : List CatalogEntry :=
  l.insertionSort fun a b => semanticKey a ≤ semanticKey b

/-- Sorting keeps the entries. -/
theorem mem_sortedEntries :
    e ∈ sortedEntries l ↔ e ∈ l := (List.perm_insertionSort _ l).mem_iff

/-- Entries in strict order are told apart by their rank. -/
theorem eq_of_rank_eq (hsorted : out.Pairwise fun a b => rank a < rank b)
    {a b : CatalogEntry} (ha : a ∈ out) (hb : b ∈ out) (h : rank a = rank b) : a = b := by
  have hn : (out.map rank).Nodup := List.pairwise_map.2 (hsorted.imp fun h => h.ne)
  exact List.inj_on_of_nodup_map hn ha hb h

/-- The canonical forms in order are those of the sorted entries. -/
theorem canonical_iff :
    Canonical env repo pfx l out ↔ AllCanonical env repo pfx (sortedEntries l) ∧
      out = (sortedEntries l).map (canonicalOr env repo pfx) ∧
      out.Pairwise fun a b => rank a < rank b := by
  have hperm : ((sortedEntries l).map (canonicalOr env repo pfx)).Perm
      (l.map (canonicalOr env repo pfx)) := (List.perm_insertionSort _ l).map _
  constructor
  · rintro ⟨hall, hout, hsorted⟩
    refine ⟨fun e he => hall e (mem_sortedEntries.1 he), ?_, hsorted⟩
    have hrank : ∀ e ∈ l, rank (canonicalOr env repo pfx e) = semanticKey e := by
      intro e he
      obtain ⟨c, hc⟩ := Option.isSome_iff_exists.1 (hall e he)
      rw [canonicalOr_eq hc, rank_canonicalEntry hc]
    have hle : ((sortedEntries l).map (canonicalOr env repo pfx)).Pairwise
        fun a b => rank a ≤ rank b := by
      rw [List.pairwise_map]
      refine (List.pairwise_insertionSort (fun a b => semanticKey a ≤ semanticKey b) l).imp_of_mem
        fun {a b} ha hb hab => ?_
      rw [hrank a (mem_sortedEntries.1 ha), hrank b (mem_sortedEntries.1 hb)]
      exact hab
    refine @List.Perm.eq_of_pairwise _ (fun a b => rank a ≤ rank b) _ _
      (fun a b ha hb hab hba => ?_) (hsorted.imp fun h => h.le) hle (hperm.trans hout).symm
    exact eq_of_rank_eq hsorted ha ((hperm.trans hout).mem_iff.1 hb) (le_antisymm hab hba)
  · rintro ⟨hall, rfl, hsorted⟩
    exact ⟨fun e he => hall e (mem_sortedEntries.2 he), hperm.symm, hsorted⟩

/-- What a node needs besides its children or entries. -/
def NodeShape (repo : ContentHash) (pfx : String) : Prop :=
  validContentHash repo = true ∧ catalogMerklePrefixValid pfx = true

/-- The leaf of some entries, as it is built. -/
def leafNode (repo : ContentHash) (pfx : String) (l : List CatalogEntry) : CatalogMerkleNode :=
  { repoID := repo, pfx := pfx, count := l.length, entries := sortedEntries l }

/-- The leaf that is hashed. -/
def canonicalLeafNode (repo : ContentHash) (pfx : String) (out : List CatalogEntry) :
    CatalogMerkleNode :=
  { repoID := repo, pfx := pfx, count := out.length, entries := out }

/-- A leaf is made canonical entry by entry. -/
theorem canonicalNode_leaf_eq_ok {n : CatalogMerkleNode}
    (hpfx : pfx.utf8ByteSize = 2) :
    catalogMerkleCanonicalNode env (leafNode repo pfx l) = .ok n ↔ NodeShape repo pfx ∧
      ∃ out, Canonical env repo pfx l out ∧ n = canonicalLeafNode repo pfx out := by
  have hlength : (sortedEntries l).length = l.length := (List.perm_insertionSort _ l).length_eq
  have hbranch : ¬ (leafNode repo pfx l).pfx.utf8ByteSize < 2 := by
    simp only [leafNode]
    omega
  simp only [catalogMerkleCanonicalNode, bind_eq_ok, exists_unit_iff, refuse_eq_ok, if_neg hbranch,
    canonicalLeaf, catalogMerkleCanonicalEntries, canonicalEntriesFrom_eq_ok, canonical_iff]
  constructor
  · rintro ⟨hshape, -, out, ⟨hall, hout, hsorted, -⟩, hn⟩
    cases hn
    refine ⟨by simp_all [leafNode, NodeShape], out, ⟨hall, hout, hsorted⟩, ?_⟩
    have hcount : out.length = l.length := by
      rw [hout, List.length_map]
      exact hlength
    simp [leafNode, canonicalLeafNode, hcount]
  · rintro ⟨⟨hrepo, hvalid⟩, out, ⟨hall, hout, hsorted⟩, rfl⟩
    refine ⟨?_, ?_, out, ⟨hall, hout, hsorted, by simp⟩, ?_⟩
    · simp [leafNode, hrepo, hvalid]
    · simp [leafNode, hlength]
    · have hcount : out.length = l.length := by
        rw [hout, List.length_map]
        exact hlength
      simp [leafNode, canonicalLeafNode, hcount]

/-- The text of a node that is canonical already. -/
def nodeText (n : CatalogMerkleNode) : Except DomainError (List Char) := do
  let j ← n.marshal
  let raw ← canonicalBytes j
  .ok (catalogMerkleNodeDomain.toList ++ raw)

/-- The text of a node is that of its canonical form. -/
theorem catalogMerkleText_eq (n : CatalogMerkleNode) :
    catalogMerkleText env n = catalogMerkleCanonicalNode env n >>= nodeText := rfl

/-- **A leaf is determined by the canonical forms of its entries.** -/
theorem hashedLeaf_eq_ok :
    hashedLeaf env repo pfx l = .ok p ↔ pfx.utf8ByteSize = 2 ∧ NodeShape repo pfx ∧
      ∃ out t, Canonical env repo pfx l out ∧ nodeText (canonicalLeafNode repo pfx out) = .ok t ∧
        p = (env.hashContent t, leafNode repo pfx l) := by
  have hkeys : AllCanonical env repo pfx l → ∀ e ∈ l,
      ∃ key, catalogMerkleNormalizedKey e = .ok key := by
    intro hall e he
    obtain ⟨c, hc⟩ := Option.isSome_iff_exists.1 (hall e he)
    obtain ⟨-, -, -, key, value, hkey, -⟩ := canonicalEntry_eq_some.1 hc
    exact ⟨key, hkey⟩
  simp only [hashedLeaf, newCatalogMerkleLeaf, catalogMerkleHash, catalogMerkleText_eq, bind_eq_ok,
    exists_unit_iff, refuse_eq_ok, checkAll_eq_ok, not_not]
  constructor
  · rintro ⟨n, ⟨hpfx, -, n', hn', hn⟩, h, ⟨t, ⟨n'', hn'', ht⟩, hh⟩, hp⟩
    cases hn
    cases hh
    cases hp
    obtain ⟨hshape, out, hout, rfl⟩ := (canonicalNode_leaf_eq_ok hpfx).1 hn''
    exact ⟨hpfx, hshape, out, t, hout, ht, rfl⟩
  · rintro ⟨hpfx, hshape, out, t, hout, ht, rfl⟩
    have hcanonical := (canonicalNode_leaf_eq_ok hpfx).2 ⟨hshape, out, hout, rfl⟩
    exact ⟨_, ⟨hpfx, fun e he => (hkeys hout.all e he).imp fun _ hkey => ⟨hkey, trivial⟩, _,
      hcanonical, rfl⟩, _, ⟨t, ⟨_, hcanonical, ht⟩, rfl⟩, rfl⟩

/-! ### Branches -/

/-- The children of a branch: sixteen in order, and their counts do not overflow. -/
def ChildrenFrom (pfx : String) : List Char → ℤ → List CatalogMerkleChild → Prop
  | _, _, [] => True
  | [], _, _ :: _ => False
  | c :: hex, total, child :: rest =>
      child.pfx = pfx.push c ∧ validContentHash child.hash = true ∧ 0 ≤ child.count ∧
        child.count ≤ maxInt64 - total ∧ ChildrenFrom pfx hex (total + child.count) rest

def totalCount (children : List CatalogMerkleChild) : ℤ :=
  (children.map CatalogMerkleChild.count).sum

/-- The loop over the children checks each and adds up their counts. -/
theorem childrenCount_eq_ok {n : ℤ} {children : List CatalogMerkleChild} :
    childrenCount pfx hex total children = .ok n ↔
      ChildrenFrom pfx hex total children ∧ n = total + totalCount children := by
  induction children generalizing hex total with
  | nil => cases hex <;> simp [childrenCount, ChildrenFrom, totalCount, eq_comm]
  | cons child rest ih =>
      cases hex with
      | nil => simp [childrenCount, ChildrenFrom]
      | cons c hex =>
          simp only [childrenCount, bind_eq_ok, exists_unit_iff, refuse_eq_ok, ih, ChildrenFrom,
            totalCount, List.map_cons, List.sum_cons, not_or, not_not, Bool.not_eq_false, not_lt,
            gt_iff_lt, add_assoc, and_assoc, ne_eq]

/-- The sum does not overflow, as the children were checked. -/
theorem sumCounts_of_childrenFrom
    {children : List CatalogMerkleChild} (h : ChildrenFrom pfx hex total children) :
    sumCounts total children = .ok (total + totalCount children) := by
  induction children generalizing hex total with
  | nil => simp [sumCounts, totalCount]
  | cons child rest ih =>
      cases hex with
      | nil => exact h.elim
      | cons c hex =>
          obtain ⟨-, -, hnonneg, hle, hrest⟩ := h
          have hpass : ¬ (child.count < 0 ∨ child.count > maxInt64 - total) := by omega
          rw [sumCounts, refuse_of_not hpass, ok_bind, ih hrest, totalCount, totalCount,
            List.map_cons, List.sum_cons, add_assoc]

/-- The counts of checked children have no negative sum. -/
theorem totalCount_nonneg {children : List CatalogMerkleChild}
    (h : ChildrenFrom pfx hex total children) : 0 ≤ totalCount children := by
  induction children generalizing hex total with
  | nil => simp [totalCount]
  | cons child rest ih =>
      cases hex with
      | nil => exact h.elim
      | cons c hex =>
          obtain ⟨-, -, hnonneg, -, hrest⟩ := h
          have := ih hrest
          simp only [totalCount, List.map_cons, List.sum_cons] at this ⊢
          omega

/-- The total is within the range of `int64`. -/
theorem totalCount_le {children : List CatalogMerkleChild}
    (h : ChildrenFrom pfx hex total children) (htotal : total ≤ maxInt64) :
    total + totalCount children ≤ maxInt64 := by
  induction children generalizing hex total with
  | nil => simpa [totalCount] using htotal
  | cons child rest ih =>
      cases hex with
      | nil => exact h.elim
      | cons c hex =>
          obtain ⟨-, -, -, hle, hrest⟩ := h
          have := ih hrest (by omega)
          simp only [totalCount, List.map_cons, List.sum_cons] at this ⊢
          omega

/-- The branch over some children. -/
def branchNode (repo : ContentHash) (pfx : String) (children : List CatalogMerkleChild) :
    CatalogMerkleNode :=
  { repoID := repo, pfx := pfx, count := totalCount children, children := children }

/-- A branch is its own canonical form when its children are in order. -/
theorem canonicalNode_branch_eq_ok {n m : CatalogMerkleNode}
    (hversion : n.version = catalogMerkleVersion) (hscope : n.scope = catalogMerkleScope)
    (hentries : n.entries = []) (hpfx : n.pfx.utf8ByteSize ≤ 1) :
    catalogMerkleCanonicalNode env n = .ok m ↔ NodeShape n.repoID n.pfx ∧
      n.children.length = 16 ∧ ChildrenFrom n.pfx catalogMerkleHex 0 n.children ∧
      n.count = totalCount n.children ∧ m = n := by
  have hbranch : n.pfx.utf8ByteSize < 2 := by omega
  simp only [catalogMerkleCanonicalNode, canonicalBranch, bind_eq_ok, exists_unit_iff,
    refuse_eq_ok, if_pos hbranch, childrenCount_eq_ok, Except.ok.injEq, zero_add, hversion, hscope,
    hentries, NodeShape]
  constructor
  · rintro ⟨hshape, hlength, _, ⟨hchildren, rfl⟩, hcount, rfl⟩
    refine ⟨by simp_all, by simp_all, hchildren, by simp_all, rfl⟩
  · rintro ⟨⟨hrepo, hvalid⟩, hlength, hchildren, hcount, rfl⟩
    have hnonneg : ¬ m.count < 0 := by
      rw [hcount]
      exact (totalCount_nonneg hchildren).not_gt
    exact ⟨by simp [hrepo, hvalid, hnonneg], by simp [hlength], _, ⟨hchildren, rfl⟩,
      by simp [hcount], rfl⟩

/-- **A branch is determined by its children.** -/
theorem hashedBranch_eq_ok {children : List CatalogMerkleChild} :
    hashedBranch env repo pfx children = .ok p ↔ pfx.utf8ByteSize ≤ 1 ∧ NodeShape repo pfx ∧
      children.length = 16 ∧ ChildrenFrom pfx catalogMerkleHex 0 children ∧
      ∃ t, nodeText (branchNode repo pfx children) = .ok t ∧
        p = (env.hashContent t, branchNode repo pfx children) := by
  have hcanonical : ∀ {count : ℤ} {m : CatalogMerkleNode}, pfx.utf8ByteSize ≤ 1 →
      (catalogMerkleCanonicalNode env
          { repoID := repo, pfx := pfx, count := count, children := children } = .ok m ↔
        NodeShape repo pfx ∧ children.length = 16 ∧ ChildrenFrom pfx catalogMerkleHex 0 children ∧
          count = totalCount children ∧
          m = { repoID := repo, pfx := pfx, count := count, children := children }) :=
    fun hpfx => canonicalNode_branch_eq_ok rfl rfl rfl hpfx
  simp only [hashedBranch, newCatalogMerkleBranch, catalogMerkleHash, catalogMerkleText_eq,
    bind_eq_ok, exists_unit_iff, refuse_eq_ok, not_lt, gt_iff_lt]
  constructor
  · rintro ⟨n, ⟨hpfx, count, -, n', hn', hn⟩, h, ⟨t, ⟨n'', hn'', ht⟩, hh⟩, hp⟩
    cases hn
    cases hh
    cases hp
    obtain ⟨hshape, hlength, hchildren, rfl, rfl⟩ := (hcanonical hpfx).1 hn''
    exact ⟨hpfx, hshape, hlength, hchildren, t, ht, rfl⟩
  · rintro ⟨hpfx, hshape, hlength, hchildren, t, ht, rfl⟩
    have hn := (hcanonical hpfx).2 ⟨hshape, hlength, hchildren, rfl, rfl⟩
    have hcount := sumCounts_of_childrenFrom hchildren
    rw [zero_add] at hcount
    exact ⟨_, ⟨hpfx, _, hcount, _, hn, rfl⟩, _, ⟨t, ⟨_, hn, ht⟩, rfl⟩, rfl⟩

/-! ### The three levels -/

/-- The prefix of the leaf with these two digits. -/
def bucketName (high low : Char) : String := (String.singleton high).push low

/-- What the parent of a hashed node records of it. -/
def hashedChild (p : ContentHash × CatalogMerkleNode) : CatalogMerkleChild := childOf p.1 p.2

/-- The nodes of a tree, level by level. -/
structure Levels where
  leaf : Char → Char → ContentHash × CatalogMerkleNode
  branch : Char → ContentHash × CatalogMerkleNode
  root : ContentHash × CatalogMerkleNode

namespace Levels

/-- The children of a branch. -/
def children (t : Levels) (high : Char) : List CatalogMerkleChild :=
  catalogMerkleHex.map fun low => hashedChild (t.leaf high low)

/-- The children of the root. -/
def rootChildren (t : Levels) : List CatalogMerkleChild :=
  catalogMerkleHex.map fun high => hashedChild (t.branch high)

/-- The nodes in the order in which they are built. -/
def nodes (t : Levels) : CatalogNodes :=
  (catalogMerkleHex.flatMap fun high =>
    catalogMerkleHex.map (t.leaf high) ++ [t.branch high]) ++ [t.root]

/-- The levels are those of a tree over leaves with these entries. -/
structure Over (env : CatalogEnv) (repo : ContentHash) (entries : Char → Char → List CatalogEntry)
    (t : Levels) : Prop where
  leaf : ∀ high ∈ catalogMerkleHex, ∀ low ∈ catalogMerkleHex,
    hashedLeaf env repo (bucketName high low) (entries high low) = .ok (t.leaf high low)
  branch : ∀ high ∈ catalogMerkleHex,
    hashedBranch env repo (String.singleton high) (t.children high) = .ok (t.branch high)
  root : hashedBranch env repo "" t.rootChildren = .ok t.root

end Levels

variable {t : Levels}

/-- The leaves are among the nodes. -/
theorem mem_nodes_leaf {high low : Char} (hhigh : high ∈ catalogMerkleHex)
    (hlow : low ∈ catalogMerkleHex) : t.leaf high low ∈ t.nodes := by
  rw [Levels.nodes, List.mem_append, List.mem_flatMap]
  exact .inl ⟨high, hhigh, List.mem_append_left _ (List.mem_map_of_mem hlow)⟩

/-- So are the branches. -/
theorem mem_nodes_branch {high : Char} (hhigh : high ∈ catalogMerkleHex) :
    t.branch high ∈ t.nodes := by
  rw [Levels.nodes, List.mem_append, List.mem_flatMap]
  exact .inl ⟨high, hhigh, by simp⟩

/-- So is the root. -/
theorem mem_nodes_root : t.root ∈ t.nodes := by
  simp [Levels.nodes]

/-- The nodes of a tree: leaves, branches and the root. -/
theorem mem_nodes_iff :
    p ∈ t.nodes ↔ (∃ high ∈ catalogMerkleHex, ∃ low ∈ catalogMerkleHex, p = t.leaf high low) ∨
      (∃ high ∈ catalogMerkleHex, p = t.branch high) ∨ p = t.root := by
  simp only [Levels.nodes, List.mem_append, List.mem_flatMap, List.mem_map, List.mem_singleton]
  constructor
  · rintro (⟨high, hhigh, ⟨low, hlow, rfl⟩ | rfl⟩ | rfl)
    · exact .inl ⟨high, hhigh, low, hlow, rfl⟩
    · exact .inr (.inl ⟨high, hhigh, rfl⟩)
    · exact .inr (.inr rfl)
  · rintro (⟨high, hhigh, low, hlow, rfl⟩ | ⟨high, hhigh, rfl⟩ | rfl)
    · exact .inl ⟨high, hhigh, .inl ⟨low, hlow, rfl⟩⟩
    · exact .inl ⟨high, hhigh, .inr rfl⟩
    · exact .inr rfl

/-- The entries of the bucket with these two digits. -/
def bucketEntries (env : CatalogEnv) (entries : List CatalogEntry) (high low : Char) :
    List CatalogEntry :=
  entries.filter (inBucket env (bucketName high low))

/-- A branch is built from the leaves of its sixteen buckets. -/
theorem buildBranch_eq_ok {buckets : String → List CatalogEntry} {high : Char}
    {p : (ContentHash × CatalogMerkleNode) × CatalogNodes} :
    buildBranch env repo buckets high = .ok p ↔ ∃ leaf : Char → ContentHash × CatalogMerkleNode,
      (∀ low ∈ catalogMerkleHex, hashedLeaf env repo (bucketName high low)
        (buckets (bucketName high low)) = .ok (leaf low)) ∧
      hashedBranch env repo (String.singleton high)
        (catalogMerkleHex.map fun low => hashedChild (leaf low)) = .ok p.1 ∧
      p.2 = catalogMerkleHex.map leaf ++ [p.1] := by
  simp only [buildBranch, bind_eq_ok, mapM_eq_ok]
  constructor
  · rintro ⟨_, ⟨leaf, hleaf, rfl⟩, branch, hbranch, hp⟩
    cases hp
    exact ⟨leaf, hleaf, hbranch, rfl⟩
  · rintro ⟨leaf, hleaf, hbranch, hp⟩
    refine ⟨_, ⟨leaf, hleaf, rfl⟩, p.1, ?_, ?_⟩
    · rw [List.map_map]
      exact hbranch
    · rw [← hp]

/-- **The specification of `BuildCatalogMerkle`.** -/
theorem buildCatalogMerkle_eq_ok {entries : List CatalogEntry}
    {p : CatalogMerkleNode × CatalogNodes} :
    buildCatalogMerkle env repo entries = .ok p ↔ validContentHash repo = true ∧
      (∀ e ∈ entries, ∃ b, catalogMerkleBucket env e = .ok b) ∧
      ∃ t : Levels, t.Over env repo (bucketEntries env entries) ∧ p = (t.root.2, t.nodes) := by
  simp only [buildCatalogMerkle, bind_eq_ok, exists_unit_iff, refuse_eq_ok, checkAll_eq_ok,
    mapM_eq_ok, buildBranch_eq_ok, Bool.not_eq_false, and_true]
  refine and_congr_right fun _ => and_congr_right fun _ => ?_
  constructor
  · rintro ⟨_, ⟨branch, hbranch, rfl⟩, root, hroot, hp⟩
    cases hp
    choose! leaf hleaf hbranch hnodes using hbranch
    refine ⟨⟨leaf, fun high => (branch high).1, root⟩, ⟨hleaf, hbranch, hroot⟩, ?_⟩
    rw [Levels.nodes, List.flatMap_map, List.flatMap_congr hnodes]
  · rintro ⟨t, ⟨hleaf, hbranch, hroot⟩, rfl⟩
    refine ⟨_, ⟨fun high => (t.branch high, catalogMerkleHex.map (t.leaf high) ++ [t.branch high]),
      fun high hhigh => ⟨t.leaf high, hleaf high hhigh, hbranch high hhigh, rfl⟩, rfl⟩, t.root,
      ?_, ?_⟩
    · rw [List.map_map]
      exact hroot
    · rw [List.flatMap_map]
      rfl

end Backend
end CxtHub
