/-
# The root of a catalog tree and the contents of the catalog

The text that is hashed for a node determines its children and entries (`nodeText_inj`), so
from the root down to the leaves a hash determines the canonical entries of each bucket;
and in the other direction the contents of the whole list determine those of the buckets.
-/

import CxtHub.Backend.CatalogAccepted
import CxtHub.Backend.CatalogEntity

namespace CxtHub
namespace Backend

variable {p : ContentHash × CatalogMerkleNode} {children : List CatalogMerkleChild}
  {e : CatalogEntry} {x : String × String × ℤ × String} {high : Char}
  {entries : Char → Char → List CatalogEntry}
variable {env : CatalogEnv} {repo : ContentHash} {pfx : String}

/-! ### The text of a node -/

/-- A child is determined by its JSON form. -/
theorem CatalogMerkleChild.json_inj {c c' : CatalogMerkleChild}
    (h : c.json.sorted = c'.json.sorted) : c = c' := by
  have hfield := Json.lookup_of_sorted_eq (by simp) (by simp) h
  have hpfx := hfield "prefix"
  have hhash := hfield "hash"
  have hcount := hfield "count"
  simp only [Json.lookup_cons_eq, if_true, Option.map_some, Json.sorted_str, Json.sorted_int,
    Option.some.injEq, Json.str.injEq, String.reduceEq, if_false] at hpfx hhash hcount
  cases c
  simp_all [Json.int_injective.eq_iff]

/-- So is a canonical entry. -/
theorem CanonicalForm.marshal_inj {c c' : CatalogEntry} {j j' : Json} (hc : CanonicalForm c)
    (hc' : CanonicalForm c') (hj : c.marshal = .ok j) (hj' : c'.marshal = .ok j')
    (h : j.sorted = j'.sorted) : c = c' := by
  obtain ⟨v, hv, hvalue, -⟩ := hc.marshal
  obtain ⟨v', hv', hvalue', -⟩ := hc'.marshal
  cases hj.symm.trans hv
  cases hj'.symm.trans hv'
  have hfield := Json.lookup_of_sorted_eq (by simp) (by simp) h
  have hsequence := hfield "sequence"
  have hkind := hfield "kind"
  have hkey := hfield "key"
  have hv := hfield "value"
  simp only [Json.lookup_cons_eq, if_true, Option.map_some, Json.sorted_str, Json.sorted_int,
    Option.some.injEq, Json.str.injEq, String.reduceEq, if_false] at hsequence hkind hkey hv
  obtain ⟨hlive, -⟩ := hc
  obtain ⟨hlive', -⟩ := hc'
  cases c
  cases c'
  simp_all [Json.int_injective.eq_iff]

/-- Lists that are equal after an injective map. -/
theorem eq_of_map_eq {α β : Type} {f g : α → β} {l l' : List α} (h : l.map f = l'.map g)
    (hinj : ∀ a ∈ l, ∀ b ∈ l', f a = g b → a = b) : l = l' := by
  induction l generalizing l' with
  | nil =>
      cases l' with
      | nil => rfl
      | cons b l' => cases h
  | cons a l ih =>
      cases l' with
      | nil => cases h
      | cons b l' =>
          rw [List.map_cons, List.map_cons, List.cons.injEq] at h
          rw [hinj a List.mem_cons_self b List.mem_cons_self h.1,
            ih h.2 fun a ha b hb =>
              hinj a (List.mem_cons_of_mem _ ha) b (List.mem_cons_of_mem _ hb)]

/-- **The text of a node determines its children and its entries.** -/
theorem nodeText_inj {n n' : CatalogMerkleNode} {t : List Char}
    (hn : ∀ e ∈ n.entries, CanonicalForm e) (hn' : ∀ e ∈ n'.entries, CanonicalForm e)
    (h : nodeText n = .ok t) (h' : nodeText n' = .ok t) :
    n.children = n'.children ∧ n.entries = n'.entries := by
  obtain ⟨j, hj, -, rfl⟩ := nodeText_eq_ok.1 h
  obtain ⟨j', hj', -, ht⟩ := nodeText_eq_ok.1 h'
  have hsorted : j.sorted = j'.sorted := Json.print_injective (List.append_cancel_left ht)
  obtain ⟨entry, hentry, rfl⟩ := marshal_eq_ok.1 hj
  obtain ⟨entry', hentry', rfl⟩ := marshal_eq_ok.1 hj'
  have hfield := Json.lookup_of_sorted_eq (by simp) (by simp) hsorted
  have hchildren := hfield "children"
  have hentries := hfield "entries"
  simp only [Json.lookup_cons_eq, if_true, Option.map_some, Json.sorted_arr, Option.some.injEq,
    Json.arr.injEq, String.reduceEq, if_false, List.map_map] at hchildren hentries
  refine ⟨eq_of_map_eq hchildren fun _ _ _ _ => CatalogMerkleChild.json_inj,
    eq_of_map_eq hentries fun c hc c' hc' heq => ?_⟩
  exact (hn c hc).marshal_inj (hn' c' hc') (hentry c hc) (hentry' c' hc') heq

/-- The text of a leaf is that of its canonical entries. -/
theorem text_of_hashedLeaf {l : List CatalogEntry}
    (h : hashedLeaf env repo pfx l = .ok p) :
    ∃ out t, Canonical env repo pfx l out ∧ nodeText (canonicalLeafNode repo pfx out) = .ok t ∧
      catalogMerkleText env p.2 = .ok t ∧ p.1 = env.hashContent t := by
  obtain ⟨hpfx, hshape, out, t, hout, ht, rfl⟩ := hashedLeaf_eq_ok.1 h
  refine ⟨out, t, hout, ht, ?_, rfl⟩
  rw [catalogMerkleText_eq, (canonicalNode_leaf_eq_ok hpfx).2 ⟨hshape, out, hout, rfl⟩, ok_bind, ht]

/-- The text of a branch is that of its children. -/
theorem text_of_hashedBranch
    (h : hashedBranch env repo pfx children = .ok p) :
    ∃ t, nodeText (branchNode repo pfx children) = .ok t ∧ catalogMerkleText env p.2 = .ok t ∧
      p.1 = env.hashContent t := by
  obtain ⟨hpfx, hshape, hlength, hchildren, t, ht, rfl⟩ := hashedBranch_eq_ok.1 h
  refine ⟨t, ht, ?_, rfl⟩
  have hcanonical := (@canonicalNode_branch_eq_ok env (branchNode repo pfx children) _ rfl rfl rfl
    hpfx).2 ⟨hshape, hlength, hchildren, rfl, rfl⟩
  rw [catalogMerkleText_eq, hcanonical, ok_bind, ht]

/-- The hash that is stored with a branch is its own. -/
theorem hash_of_hashedBranch
    (h : hashedBranch env repo pfx children = .ok p) :
    catalogMerkleHash env p.2 = .ok p.1 := by
  simp only [hashedBranch, bind_eq_ok, Except.ok.injEq] at h
  obtain ⟨branch, -, hash, hhash, rfl⟩ := h
  exact hhash

/-! ### Contents -/

/-- What an entry says: kind, normalized key, sequence and canonical value. -/
def content (e : CatalogEntry) : Option (String × String × ℤ × String) :=
  match catalogMerkleNormalizedKey e, canonicalText e.value with
  | .ok key, some value => some (e.kind, key, e.sequence, value)
  | _, _ => none

/-- What the entries of a catalog say. -/
def Contents (l : List CatalogEntry) : Set (String × String × ℤ × String) :=
  {x | ∃ e ∈ l, content e = some x}

/-- What an entry says, when it says anything. -/
theorem content_eq_some :
    content e = some x ↔ ∃ key value, catalogMerkleNormalizedKey e = .ok key ∧
      canonicalText e.value = some value ∧ x = (e.kind, key, e.sequence, value) := by
  unfold content
  cases catalogMerkleNormalizedKey e <;> cases canonicalText e.value <;> simp [eq_comm]

/-- The canonical entry with these contents. -/
def entryOf (x : String × String × ℤ × String) : CatalogEntry :=
  { kind := x.1, key := x.2.1, sequence := x.2.2.1, value := x.2.2.2 }

/-- A canonical form is the contents of the entry. -/
theorem content_of_canonicalEntry {c : CatalogEntry}
    (h : canonicalEntry env repo pfx e = some c) :
    ∃ x, content e = some x ∧ c = entryOf x := by
  obtain ⟨hlive, -, -, key, value, hkey, hvalue, rfl⟩ := canonicalEntry_eq_some.1 h
  refine ⟨_, content_eq_some.2 ⟨key, value, hkey, hvalue, rfl⟩, ?_⟩
  rw [entryOf, hlive]

/-- Contents are determined by their entry. -/
theorem entryOf_injective : Function.Injective entryOf := by
  rintro ⟨kind, key, sequence, value⟩ ⟨kind', key', sequence', value'⟩ h
  simp only [entryOf, CatalogEntry.mk.injEq] at h
  simp [h]

/-- Entries with the same contents stand in the same bucket. -/
theorem inBucket_of_content {e' : CatalogEntry}
    (h : content e = some x) (h' : content e' = some x) (hb : inBucket env pfx e = true) :
    inBucket env pfx e' = true := by
  obtain ⟨key, value, hkey, -, rfl⟩ := content_eq_some.1 h
  obtain ⟨key', value', hkey', -, hx⟩ := content_eq_some.1 h'
  simp only [Prod.mk.injEq] at hx
  obtain ⟨hkind, rfl, -⟩ := hx
  rw [inBucket_iff] at hb ⊢
  exact bucket_congr hkey hkey' hkind.symm hb

/-- The canonical entries of a bucket are the contents that fall into it. -/
theorem mem_out_iff {S out : List CatalogEntry} {low : Char}
    (h : Canonical env repo (bucketName high low) (bucketEntries env S high low) out) :
    entryOf x ∈ out ↔ ∃ e ∈ S, content e = some x ∧
      inBucket env (bucketName high low) e = true := by
  rw [h.mem_iff]
  constructor
  · rintro ⟨e, he, hc⟩
    obtain ⟨x', hx', heq⟩ := content_of_canonicalEntry hc
    rw [bucketEntries, List.mem_filter] at he
    exact ⟨e, he.1, by rw [hx', entryOf_injective heq], he.2⟩
  · rintro ⟨e, he, hx, hb⟩
    have hmem : e ∈ bucketEntries env S high low := List.mem_filter.2 ⟨he, hb⟩
    obtain ⟨c, hc⟩ := Option.isSome_iff_exists.1 (h.all e hmem)
    obtain ⟨x', hx', rfl⟩ := content_of_canonicalEntry hc
    rw [hx, Option.some.injEq] at hx'
    exact ⟨e, hmem, by rw [hc, hx']⟩

/-- **Catalogs with the same contents have the same canonical entries in every bucket.** -/
theorem out_eq_of_contents {S S' out out' : List CatalogEntry} {low : Char}
    (h : Canonical env repo (bucketName high low) (bucketEntries env S high low) out)
    (h' : Canonical env repo (bucketName high low) (bucketEntries env S' high low) out')
    (heq : Contents S = Contents S') : out = out' := by
  have hsub : ∀ {S S' out out' : List CatalogEntry},
      Canonical env repo (bucketName high low) (bucketEntries env S high low) out →
      Canonical env repo (bucketName high low) (bucketEntries env S' high low) out' →
      Contents S = Contents S' → ∀ c ∈ out, c ∈ out' := by
    intro S S' out out' h h' heq c hc
    obtain ⟨e, he, hec⟩ := h.mem_iff.1 hc
    obtain ⟨x, hx, rfl⟩ := content_of_canonicalEntry hec
    rw [bucketEntries, List.mem_filter] at he
    have hmem : x ∈ Contents S' := heq ▸ ⟨e, he.1, hx⟩
    obtain ⟨e', he', hx'⟩ := hmem
    exact (mem_out_iff h').2 ⟨e', he', hx', inBucket_of_content hx hx' he.2⟩
  have hnodup : ∀ {l : List CatalogEntry}, (l.Pairwise fun a b => rank a < rank b) → l.Nodup :=
    fun hl => hl.imp fun hlt heq => hlt.ne (congrArg rank heq)
  have hperm : out.Perm out' := (List.perm_ext_iff_of_nodup (hnodup h.sorted)
    (hnodup h'.sorted)).2 fun c => ⟨hsub h h' heq c, hsub h' h heq.symm c⟩
  refine @List.Perm.eq_of_pairwise _ (fun a b => rank a ≤ rank b) _ _ (fun a b ha hb hab hba => ?_)
    (h.sorted.imp fun hlt => hlt.le) (h'.sorted.imp fun hlt => hlt.le) hperm
  exact eq_of_rank_eq h.sorted ha (hperm.mem_iff.2 hb) (le_antisymm hab hba)

/-! ### The root and the contents -/

/-- Families over the sixteen digits with equal lists agree at each digit. -/
theorem hex_map_inj {α : Type} {f g : Char → α}
    (h : catalogMerkleHex.map f = catalogMerkleHex.map g) {c : Char} (hc : c ∈ catalogMerkleHex) :
    f c = g c := List.map_inj_left.1 h c hc

section SameContents

variable {S S' : List CatalogEntry} {t t' : Levels} (ht : t.Over env repo (bucketEntries env S))
  (ht' : t'.Over env repo (bucketEntries env S')) (heq : Contents S = Contents S')

include ht ht' heq

/-- Leaves over the same contents have the same text. -/
theorem leaf_eq_of_contents {low : Char} (hhigh : high ∈ catalogMerkleHex)
    (hlow : low ∈ catalogMerkleHex) :
    hashedChild (t.leaf high low) = hashedChild (t'.leaf high low) ∧
      catalogMerkleText env (t.leaf high low).2 = catalogMerkleText env (t'.leaf high low).2 := by
  have hp := ht.leaf high hhigh low hlow
  obtain ⟨out, x, hout, hx, htext, -⟩ := text_of_hashedLeaf hp
  obtain ⟨out', x', hout', hx', htext', -⟩ := text_of_hashedLeaf (ht'.leaf high hhigh low hlow)
  obtain rfl := out_eq_of_contents hout hout' heq
  obtain ⟨p, hp', hchild⟩ := hashedLeaf_congr hout hout' hp
  cases hp'.symm.trans (ht'.leaf high hhigh low hlow)
  exact ⟨hchild.symm, by rw [htext, htext', ← hx, ← hx']⟩

/-- Equal contents give equal branches. -/
theorem branch_eq_of_contents (hhigh : high ∈ catalogMerkleHex) :
    t.branch high = t'.branch high := by
  have hb := ht.branch high hhigh
  rw [Levels.children,
    List.map_congr_left fun low hlow => (leaf_eq_of_contents ht ht' heq hhigh hlow).1] at hb
  exact Except.ok.inj (hb.symm.trans (ht'.branch high hhigh))

/-- Catalogs with the same contents have the same root. -/
theorem root_eq_of_contents : t.root = t'.root := by
  have hr := ht.root
  have hmap : t.rootChildren = t'.rootChildren :=
    List.map_congr_left fun high hhigh => by rw [branch_eq_of_contents ht ht' heq hhigh]
  rw [hmap] at hr
  exact Except.ok.inj (hr.symm.trans ht'.root)

end SameContents

/-- The texts hashed for the nodes of a tree. -/
def HashedTexts (env : CatalogEnv) (nodes : CatalogNodes) : Set (List Char) :=
  {x | ∃ p ∈ nodes, catalogMerkleText env p.2 = .ok x}

/-- Equal hashes of two branches come from equal children. -/
theorem children_eq_of_hash {T : Set (List Char)} (hinj : Set.InjOn env.hashContent T)
    {children' : List CatalogMerkleChild} {p' : ContentHash × CatalogMerkleNode}
    (hp : hashedBranch env repo pfx children = .ok p)
    (hp' : hashedBranch env repo pfx children' = .ok p')
    (hT : ∀ x, catalogMerkleText env p.2 = .ok x → x ∈ T)
    (hT' : ∀ x, catalogMerkleText env p'.2 = .ok x → x ∈ T) (h : p.1 = p'.1) :
    children = children' := by
  obtain ⟨x, hx, htext, hhash⟩ := text_of_hashedBranch hp
  obtain ⟨x', hx', htext', hhash'⟩ := text_of_hashedBranch hp'
  rw [hhash, hhash'] at h
  obtain rfl := hinj (hT x htext) (hT' x' htext') h
  have hnone : ∀ cs, ∀ e ∈ (branchNode repo pfx cs).entries, CanonicalForm e :=
    fun _ _ he => (List.not_mem_nil he).elim
  exact (nodeText_inj (hnone _) (hnone _) hx hx').1

/-- Equal hashes of two leaves come from equal canonical entries. -/
theorem out_eq_of_hash {T : Set (List Char)} (hinj : Set.InjOn env.hashContent T)
    {l l' : List CatalogEntry} {p' : ContentHash × CatalogMerkleNode}
    (hp : hashedLeaf env repo pfx l = .ok p) (hp' : hashedLeaf env repo pfx l' = .ok p')
    (hT : ∀ x, catalogMerkleText env p.2 = .ok x → x ∈ T)
    (hT' : ∀ x, catalogMerkleText env p'.2 = .ok x → x ∈ T) (h : p.1 = p'.1) :
    ∃ out, Canonical env repo pfx l out ∧ Canonical env repo pfx l' out := by
  obtain ⟨out, x, hout, hx, htext, hhash⟩ := text_of_hashedLeaf hp
  obtain ⟨out', x', hout', hx', htext', hhash'⟩ := text_of_hashedLeaf hp'
  rw [hhash, hhash'] at h
  obtain rfl := hinj (hT x htext) (hT' x' htext') h
  have hform : ∀ {l out : List CatalogEntry}, Canonical env repo pfx l out →
      ∀ c ∈ out, CanonicalForm c := by
    intro l out hout c hc
    obtain ⟨e, -, he⟩ := hout.mem_iff.1 hc
    exact canonicalForm_of_canonicalEntry he
  have heq : out = out' := (nodeText_inj (hform hout) (hform hout') hx hx').2
  exact ⟨out, hout, heq ▸ hout'⟩

/-- **A root hash determines the contents.** -/
theorem contents_subset_of_root {S S' : List CatalogEntry} {t t' : Levels}
    (hS : ∀ e ∈ S, ∃ b, catalogMerkleBucket env e = .ok b)
    (ht : t.Over env repo (bucketEntries env S)) (ht' : t'.Over env repo (bucketEntries env S'))
    (hinj : Set.InjOn env.hashContent (HashedTexts env (t.nodes ++ t'.nodes)))
    (h : t.root.1 = t'.root.1) : Contents S ⊆ Contents S' := by
  have hT : ∀ p ∈ t.nodes, ∀ x, catalogMerkleText env p.2 = .ok x →
      x ∈ HashedTexts env (t.nodes ++ t'.nodes) :=
    fun p hp x hx => ⟨p, List.mem_append_left _ hp, hx⟩
  have hT' : ∀ p ∈ t'.nodes, ∀ x, catalogMerkleText env p.2 = .ok x →
      x ∈ HashedTexts env (t.nodes ++ t'.nodes) :=
    fun p hp x hx => ⟨p, List.mem_append_right _ hp, hx⟩
  have hroots := children_eq_of_hash hinj ht.root ht'.root (hT _ mem_nodes_root)
    (hT' _ mem_nodes_root) h
  have hbranch : ∀ high ∈ catalogMerkleHex, t.children high = t'.children high := by
    intro high hhigh
    have hchild := congrArg CatalogMerkleChild.hash (hex_map_inj hroots hhigh)
    exact children_eq_of_hash hinj (ht.branch high hhigh) (ht'.branch high hhigh)
      (hT _ (mem_nodes_branch hhigh)) (hT' _ (mem_nodes_branch hhigh)) hchild
  rintro x ⟨e, he, hx⟩
  obtain ⟨b, hb⟩ := hS e he
  obtain ⟨high, hhigh, low, hlow, rfl⟩ := digits_of_bucket hb
  have hchild := congrArg CatalogMerkleChild.hash (hex_map_inj (hbranch high hhigh) hlow)
  obtain ⟨out, hout, hout'⟩ := out_eq_of_hash hinj (ht.leaf high hhigh low hlow)
    (ht'.leaf high hhigh low hlow) (hT _ (mem_nodes_leaf hhigh hlow))
    (hT' _ (mem_nodes_leaf hhigh hlow)) hchild
  obtain ⟨e', he', hx', -⟩ := (mem_out_iff hout').1
    ((mem_out_iff hout).2 ⟨e, he, hx, inBucket_iff.2 hb⟩)
  exact ⟨e', he', hx'⟩

/-- **The root identifies the contents of the catalog.**  Injectivity of the hash is assumed
for the texts that the two builds hash.  Without it, equal contents still give equal roots. -/
theorem catalogMerkleHash_eq_iff {S S' : List CatalogEntry} {root root' : CatalogMerkleNode}
    {nodes nodes' : CatalogNodes} (h : buildCatalogMerkle env repo S = .ok (root, nodes))
    (h' : buildCatalogMerkle env repo S' = .ok (root', nodes'))
    (hinj : Set.InjOn env.hashContent (HashedTexts env (nodes ++ nodes'))) :
    (catalogMerkleHash env root = catalogMerkleHash env root' ↔ Contents S = Contents S') ∧
      (Contents S = Contents S' → root = root') ∧
      root.count = S.length ∧ (S.map semanticKey).Nodup := by
  obtain ⟨-, hS, t, ht, hp⟩ := buildCatalogMerkle_eq_ok.1 h
  obtain ⟨-, hS', t', ht', hp'⟩ := buildCatalogMerkle_eq_ok.1 h'
  cases hp
  cases hp'
  have hroot : Contents S = Contents S' → t.root = t'.root := root_eq_of_contents ht ht'
  refine ⟨⟨fun heq => ?_, fun heq => by rw [hroot heq]⟩, fun heq => by rw [hroot heq],
    root_count hS ht, nodup_of_buckets hS fun high hhigh low hlow => ?_⟩
  · rw [hash_of_hashedBranch ht.root, hash_of_hashedBranch ht'.root, Except.ok.injEq] at heq
    refine Set.Subset.antisymm (contents_subset_of_root hS ht ht' hinj heq)
      (contents_subset_of_root hS' ht' ht (hinj.mono ?_) heq.symm)
    rintro x ⟨p, hp, hx⟩
    exact ⟨p, List.mem_append.2 (List.mem_append.1 hp).symm, hx⟩
  · obtain ⟨out, -, hout, -⟩ := text_of_hashedLeaf (ht.leaf high hhigh low hlow)
    exact nodup_of_canonical hout

/-! ### A hash that tells the nodes of a tree apart -/

local instance neZero_sixteen : NeZero 16 := ⟨by decide⟩

/-- The digits for a node with this prefix and count. -/
def sampleCode (pfx count : List Char) : List (Fin 16) :=
  let digit c := Fin.ofNat 16 (catalogMerkleHex.idxOf c)
  (Fin.ofNat 16 pfx.length :: digit (pfx.getD 0 '0') :: digit (pfx.getD 1 '0') ::
    (count.map digit ++ List.replicate 64 0)).take 64

/-- The digits for a text: those of the node it is the text of, if it is one. -/
def sampleSum (t : List Char) : List (Fin 16) :=
  match Json.parse (t.drop catalogMerkleNodeDomain.toList.length) with
  | some (.obj fields) =>
      match fields.lookup "prefix", fields.lookup "count" with
      | some (.str pfx), some (.num count) => sampleCode pfx.toList count
      | _, _ => sampleCode [] []
  | _ => sampleCode [] []

theorem length_sampleCode (pfx count : List Char) : (sampleCode pfx count).length = 64 := by
  simp [sampleCode]

theorem length_sampleSum (t : List Char) : (sampleSum t).length = 64 := by
  unfold sampleSum
  repeat' split
  all_goals exact length_sampleCode _ _

/-- The one instant of the samples. -/
def sampleTime (t : String) : Option ℕ := if t = "2026-01-02T03:04:05Z" then some 1 else none

/-- A surroundings with the checks of the source. -/
def sampleCatalogEnv : CatalogEnv where
  sum := sampleSum
  length_sum := length_sampleSum
  validValue := entityValid sampleTime

/-- The hash of a node shows its prefix. -/
theorem sampleSum_nodeText {n : CatalogMerkleNode} {x : List Char} (h : nodeText n = .ok x) :
    ∃ count, sampleSum x = sampleCode n.pfx.toList count := by
  obtain ⟨j, hj, hdepth, rfl⟩ := nodeText_eq_ok.1 h
  obtain ⟨entry, -, rfl⟩ := marshal_eq_ok.1 hj
  rw [sampleSum, List.drop_left, Json.parse_print, if_pos ((Json.depth_sorted_le _).trans hdepth),
    Json.sorted_obj]
  dsimp only
  rw [Json.lookup_sortFields (by simp), Json.lookup_sortFields (by simp)]
  cases n.count <;> exact ⟨_, rfl⟩

/-- The digits show the prefix of the node. -/
theorem sampleCode_inj {pfx pfx' count count' : List Char} (hlength : pfx.length ≤ 2)
    (hlength' : pfx'.length ≤ 2) (hpfx : ∀ c ∈ pfx, c ∈ catalogMerkleHex)
    (hpfx' : ∀ c ∈ pfx', c ∈ catalogMerkleHex) (h : sampleCode pfx count = sampleCode pfx' count') :
    pfx = pfx' := by
  have hdigit : ∀ c ∈ catalogMerkleHex, ∀ c' ∈ catalogMerkleHex,
      Fin.ofNat 16 (catalogMerkleHex.idxOf c) = Fin.ofNat 16 (catalogMerkleHex.idxOf c') →
      c = c' := by
    intro c hc c' hc' hcode
    have hlt : catalogMerkleHex.idxOf c < 16 := List.idxOf_lt_length_of_mem hc
    have hlt' : catalogMerkleHex.idxOf c' < 16 := List.idxOf_lt_length_of_mem hc'
    have hindex := congrArg Fin.val hcode
    rw [Fin.val_ofNat, Fin.val_ofNat, Nat.mod_eq_of_lt hlt, Nat.mod_eq_of_lt hlt'] at hindex
    exact (List.idxOf_inj hc).1 hindex
  simp only [sampleCode, List.take_succ_cons, List.cons.injEq] at h
  obtain ⟨hlen, hfst, hsnd, -⟩ := h
  replace hlen : pfx.length = pfx'.length := by
    have hval := congrArg Fin.val hlen
    rw [Fin.val_ofNat, Fin.val_ofNat] at hval
    omega
  -- both have the same length, which is at most two
  rcases pfx with _ | ⟨a, _ | ⟨b, _ | ⟨_, _⟩⟩⟩
  · exact (List.length_eq_zero_iff.1 hlen.symm).symm
  · obtain ⟨a', rfl⟩ := List.length_eq_one_iff.1 hlen.symm
    rw [hdigit a (hpfx a (by simp)) a' (hpfx' a' (by simp)) hfst]
  · obtain ⟨a', b', rfl⟩ := List.length_eq_two.1 hlen.symm
    rw [hdigit a (hpfx a (by simp)) a' (hpfx' a' (by simp)) hfst,
      hdigit b (hpfx b (by simp)) b' (hpfx' b' (by simp)) hsnd]
  · simp at hlength

/-- The nodes of a tree by their prefixes. -/
theorem pfx_of_mem_nodes {t : Levels}
    (ht : t.Over env repo entries) (hp : p ∈ t.nodes) :
    (∃ high ∈ catalogMerkleHex, ∃ low ∈ catalogMerkleHex,
        p = t.leaf high low ∧ p.2.pfx.toList = [high, low]) ∨
      (∃ high ∈ catalogMerkleHex, p = t.branch high ∧ p.2.pfx.toList = [high]) ∨
      p = t.root ∧ p.2.pfx.toList = [] := by
  rcases mem_nodes_iff.1 hp with ⟨high, hhigh, low, hlow, rfl⟩ | ⟨high, hhigh, rfl⟩ | rfl
  · have hpfx : (t.leaf high low).2.pfx = _ :=
      (hashedChild_leaf (ht.leaf high hhigh low hlow)).1
    exact .inl ⟨high, hhigh, low, hlow, rfl, by simp [hpfx]⟩
  · have hpfx : (t.branch high).2.pfx = _ := (hashedChild_branch (ht.branch high hhigh)).1
    exact .inr (.inl ⟨high, hhigh, rfl, by simp [hpfx]⟩)
  · have hpfx : t.root.2.pfx = _ := (hashedChild_branch ht.root).1
    exact .inr (.inr ⟨rfl, by simp [hpfx]⟩)

/-- A node of a tree is determined by its prefix. -/
theorem eq_of_pfx_eq {t : Levels}
    (ht : t.Over env repo entries) {q : ContentHash × CatalogMerkleNode} (hp : p ∈ t.nodes)
    (hq : q ∈ t.nodes) (h : p.2.pfx.toList = q.2.pfx.toList) : p = q := by
  rcases pfx_of_mem_nodes ht hp with ⟨high, -, low, -, rfl, hpfx⟩ | ⟨high, -, rfl, hpfx⟩ |
      ⟨rfl, hpfx⟩ <;>
    rcases pfx_of_mem_nodes ht hq with ⟨high', -, low', -, rfl, hpfx'⟩ | ⟨high', -, rfl, hpfx'⟩ |
      ⟨rfl, hpfx'⟩ <;>
    simp_all

/-- Catalogs with the same contents have the same texts hashed. -/
theorem hashedTexts_subset {S S' : List CatalogEntry} {t t' : Levels}
    (ht : t.Over env repo (bucketEntries env S)) (ht' : t'.Over env repo (bucketEntries env S'))
    (heq : Contents S = Contents S') : HashedTexts env t'.nodes ⊆ HashedTexts env t.nodes := by
  rintro x ⟨p, hp, hx⟩
  rcases mem_nodes_iff.1 hp with ⟨high, hhigh, low, hlow, rfl⟩ | ⟨high, hhigh, rfl⟩ | rfl
  · refine ⟨_, mem_nodes_leaf hhigh hlow, ?_⟩
    rw [(leaf_eq_of_contents ht ht' heq hhigh hlow).2, hx]
  · exact ⟨_, mem_nodes_branch hhigh, by rw [branch_eq_of_contents ht ht' heq hhigh, hx]⟩
  · exact ⟨_, mem_nodes_root, by rw [root_eq_of_contents ht ht' heq, hx]⟩

/-- The text that is hashed for a node of a tree. -/
theorem text_of_mem_nodes {t : Levels}
    (ht : t.Over env repo entries) (hp : p ∈ t.nodes) :
    ∃ n x, nodeText n = .ok x ∧ n.pfx = p.2.pfx ∧ catalogMerkleText env p.2 = .ok x ∧
      p.1 = env.hashContent x := by
  have hbranch : ∀ {pfx children} {p : ContentHash × CatalogMerkleNode},
      hashedBranch env repo pfx children = .ok p →
      ∃ n x, nodeText n = .ok x ∧ n.pfx = p.2.pfx ∧ catalogMerkleText env p.2 = .ok x ∧
        p.1 = env.hashContent x := by
    intro pfx children p h
    obtain ⟨x, hx, htext, hhash⟩ := text_of_hashedBranch h
    exact ⟨_, x, hx, (hashedChild_branch h).1.symm, htext, hhash⟩
  rcases mem_nodes_iff.1 hp with ⟨high, hhigh, low, hlow, rfl⟩ | ⟨high, hhigh, rfl⟩ | rfl
  · obtain ⟨out, x, -, hx, htext, hhash⟩ := text_of_hashedLeaf (ht.leaf high hhigh low hlow)
    exact ⟨_, x, hx, (hashedChild_leaf (ht.leaf high hhigh low hlow)).1.symm, htext, hhash⟩
  · exact hbranch (ht.branch high hhigh)
  · exact hbranch ht.root

/-- **In the sample surroundings a hash determines the node of a tree.** -/
theorem eq_of_sample_hash {t : Levels}
    (ht : t.Over sampleCatalogEnv repo entries) {q : ContentHash × CatalogMerkleNode}
    (hp : p ∈ t.nodes) (hq : q ∈ t.nodes) (h : p.1 = q.1) : p = q := by
  have hpfx : ∀ {p : ContentHash × CatalogMerkleNode}, p ∈ t.nodes →
      p.2.pfx.toList.length ≤ 2 ∧ ∀ c ∈ p.2.pfx.toList, c ∈ catalogMerkleHex := by
    intro p hp
    rcases pfx_of_mem_nodes ht hp with ⟨high, hhigh, low, hlow, -, hpfx⟩ | ⟨high, hhigh, -, hpfx⟩ |
        ⟨-, hpfx⟩ <;> simp_all
  obtain ⟨n, x, hx, hn, -, hhash⟩ := text_of_mem_nodes ht hp
  obtain ⟨n', x', hx', hn', -, hhash'⟩ := text_of_mem_nodes ht hq
  obtain ⟨count, hcode⟩ := sampleSum_nodeText hx
  obtain ⟨count', hcode'⟩ := sampleSum_nodeText hx'
  have hdigit : ∀ d d' : Fin 16, d.val.digitChar = d'.val.digitChar → d = d' := by decide
  have hsum : sampleSum x = sampleSum x' := by
    rw [hhash, hhash', CatalogEnv.hashContent, CatalogEnv.hashContent, String.ofList_inj] at h
    exact List.map_injective_iff.2 (fun d d' => hdigit d d') (List.append_cancel_left h)
  rw [hcode, hcode', hn, hn'] at hsum
  exact eq_of_pfx_eq ht hp hq
    (sampleCode_inj (hpfx hp).1 (hpfx hq).1 (hpfx hp).2 (hpfx hq).2 hsum)

/-- The hash tells apart the texts of catalogs with the same contents. -/
theorem injOn_sample {S S' : List CatalogEntry} {t t' : Levels}
    (ht : t.Over sampleCatalogEnv repo (bucketEntries sampleCatalogEnv S))
    (ht' : t'.Over sampleCatalogEnv repo (bucketEntries sampleCatalogEnv S'))
    (heq : Contents S = Contents S') :
    Set.InjOn sampleCatalogEnv.hashContent
      (HashedTexts sampleCatalogEnv (t.nodes ++ t'.nodes)) := by
  have hsub : HashedTexts sampleCatalogEnv (t.nodes ++ t'.nodes) ⊆
      HashedTexts sampleCatalogEnv t.nodes := by
    rintro x ⟨p, hp, hx⟩
    rcases List.mem_append.1 hp with hp | hp
    · exact ⟨p, hp, hx⟩
    · exact hashedTexts_subset ht ht' heq ⟨p, hp, hx⟩
  refine Set.InjOn.mono hsub fun x hx y hy h => ?_
  obtain ⟨p, hp, hpx⟩ := hx
  obtain ⟨q, hq, hqy⟩ := hy
  obtain ⟨-, x', -, -, hx', hhash⟩ := text_of_mem_nodes ht hp
  obtain ⟨-, y', -, -, hy', hhash'⟩ := text_of_mem_nodes ht hq
  cases hpx.symm.trans hx'
  cases hqy.symm.trans hy'
  rw [← hhash, ← hhash'] at h
  obtain rfl := eq_of_sample_hash ht hp hq h
  exact Except.ok.inj (hpx.symm.trans hqy)

/-- The text of a value. -/
def textOf (j : Json) : String := String.ofList j.print

/-- The text of a value is read back. -/
theorem parse_textOf {j : Json} (h : j.depth ≤ Json.maxNesting) :
    Json.parse (textOf j).toList = some j := by
  rw [textOf, String.toList_ofList, Json.parse_print, if_pos h]

/-- The value of an entry is read back. -/
theorem parse_value {j : Json} (hvalue : e.value = textOf j)
    (hdepth : j.depth + 3 ≤ Json.maxNesting) : Json.parse e.value.toList = some j := by
  rw [hvalue]
  exact parse_textOf (by omega)

/-- The fields of a branch that points to a snapshot. -/
def sampleRefFields (target : ContentHash) : List (String × Json) :=
  [("kind", .str "branch"), ("name", .str "main"), ("repo_id", .str (digitHash '0')),
    ("target", .str target)]

def sampleRef (target : ContentHash) : Json := .obj (sampleRefFields target)

/-- The same branch with its fields in the opposite order. -/
def respelledRef (target : ContentHash) : Json := .obj (sampleRefFields target).reverse

def sampleSnapshot : Json :=
  .obj [("id", .str (digitHash 'a')), ("repo_id", .str (digitHash '0')), ("branch", .str "main"),
    ("parents", .arr [.str (digitHash 'b')]), ("doc_hash", .str (digitHash 'a')),
    ("provider", .str "claude"), ("fidelity", .str "full"), ("message", .str "a message"),
    ("author", .obj [("name", .str "ann"), ("email", .str ""), ("team", .str "")]),
    ("created_at", .str "2026-01-02T03:04:05Z"), ("compaction_count", .int 2)]

def branchEntry (sequence : ℤ) (key : String) (j : Json) : CatalogEntry :=
  { sequence, kind := "ref", key, value := textOf j }

def snapshotEntry : CatalogEntry :=
  { sequence := 2, kind := "snapshot", key := digitHash 'a', value := textOf sampleSnapshot }

/-- A branch and a snapshot. -/
def sampleEntries : List CatalogEntry :=
  [branchEntry 1 "[\"branch\",\"main\"]" (sampleRef (digitHash 'a')), snapshotEntry]

/-- The same in another order and spelling. -/
def respelledEntries : List CatalogEntry :=
  [snapshotEntry, branchEntry 1 "[\"branch\", \"\\u006dain\"]" (respelledRef (digitHash 'a'))]

/-- An entry is accepted when the checks of its key and of the JSON of its value pass. -/
theorem accepted_textOf {j : Json} (hvalue : e.value = textOf j)
    (hrepo : validContentHash repo = true)
    (hscope : e.deleted = false ∧ 0 ≤ e.sequence ∧ j.depth + 3 ≤ Json.maxNesting)
    (hkey : (catalogMerkleValidateKey repo e).isOk = true ∧
      (catalogMerkleNormalizedKey e).isOk = true)
    (hjson : jsonValid sampleTime repo e j = true) : Accepted sampleCatalogEnv repo e := by
  obtain ⟨hlive, hsequence, hdepth⟩ := hscope
  obtain ⟨hvalid, hnormal⟩ := hkey
  have hparse := parse_value hvalue hdepth
  refine ⟨hlive, ?_, exists_of_isOk hnormal, j, hparse, ?_⟩
  · obtain ⟨⟨⟩, hvalid⟩ := exists_of_isOk hvalid
    have hentity : sampleCatalogEnv.validValue repo e = true := by
      simp [sampleCatalogEnv, entityValid, hparse, hjson]
    simp [catalogMerkleValidateEntry, refuse, hrepo, hsequence.not_gt, hvalid, hlive, hentity]
    rfl
  · have := Json.depth_sorted_le j
    omega

/-- The JSON form of an entry nests one level around its value. -/
theorem marshal_textOf {j : Json} (hvalue : e.value = textOf j) (hlive : e.deleted = false)
    (hdepth : j.depth + 3 ≤ Json.maxNesting) :
    ∃ o, e.marshal = .ok o ∧ o.depth + 2 ≤ Json.maxNesting := by
  have hparse := parse_value hvalue hdepth
  have hne : e.value ≠ "" := by
    intro hempty
    rw [hempty] at hparse
    cases hparse
  have hmarshal : e.marshal = .ok (.obj [("sequence", .int e.sequence), ("kind", .str e.kind),
      ("key", .str e.key), ("value", j)]) := by
    simp [CatalogEntry.marshal, hlive, hne, hparse]
  refine ⟨_, hmarshal, ?_⟩
  simp only [Json.depth, Json.depthFields, Json.depth_int]
  omega

/-- The samples nest within the limit. -/
theorem marshal_sample :
    ∀ e ∈ sampleEntries, ∃ o, e.marshal = .ok o ∧ o.depth + 2 ≤ Json.maxNesting := by
  simp only [sampleEntries, List.forall_mem_cons, List.not_mem_nil, false_implies, implies_true,
    and_true]
  exact ⟨marshal_textOf rfl rfl (by decide), marshal_textOf rfl rfl (by decide)⟩

theorem accepted_snapshotEntry : Accepted sampleCatalogEnv (digitHash '0') snapshotEntry :=
  accepted_textOf rfl (by decide) (by decide) (by decide +kernel) (by decide +kernel)

/-- The samples pass the checks of the source. -/
theorem accepted_sample : ∀ e ∈ sampleEntries, Accepted sampleCatalogEnv (digitHash '0') e := by
  simp only [sampleEntries, List.forall_mem_cons, List.not_mem_nil, false_implies, implies_true,
    and_true]
  exact ⟨accepted_textOf rfl (by decide) (by decide) (by decide +kernel) (by decide +kernel),
    accepted_snapshotEntry⟩

/-- There is a tree over the samples. -/
theorem exists_build_sample : ∃ p, buildCatalogMerkle sampleCatalogEnv (digitHash '0')
    sampleEntries = .ok p :=
  buildCatalogMerkle_isOk_iff.2 ⟨by decide, accepted_sample, by decide +kernel, by decide⟩

/-- There is one over the other spelling. -/
theorem exists_build_respelled : ∃ p, buildCatalogMerkle sampleCatalogEnv (digitHash '0')
    respelledEntries = .ok p := by
  refine buildCatalogMerkle_isOk_iff.2 ⟨by decide, ?_, by decide +kernel, by decide⟩
  simp only [respelledEntries, List.forall_mem_cons, List.not_mem_nil, false_implies, implies_true,
    and_true]
  exact ⟨accepted_snapshotEntry,
    accepted_textOf rfl (by decide) (by decide) (by decide +kernel) (by decide +kernel)⟩

/-- The two spellings have one canonical form. -/
theorem sorted_respelledRef (target : ContentHash) :
    (respelledRef target).sorted = (sampleRef target).sorted := by
  have hsorted : (sampleRefFields target).map (fun p => (p.1, p.2.sorted)) =
      sampleRefFields target := by
    simp [sampleRefFields]
  have hnames : ((sampleRefFields target).map Prod.fst).Pairwise (· < ·) := by
    change ["kind", "name", "repo_id", "target"].Pairwise (· < ·)
    decide +kernel
  have hascending : Json.Ascending (sampleRefFields target) := List.pairwise_map.1 hnames
  rw [respelledRef, sampleRef, Json.sorted_obj, Json.sorted_obj, List.map_reverse, hsorted,
    Json.sortFields_reverse hascending, Json.sortFields_of_ascending hascending]

/-- The contents of an entry for the branch depend on the names in its key alone. -/
theorem content_branchEntry {sequence : ℤ} {key : String} {j : Json}
    (hnames : catalogMerkleRefKey key = .ok ("branch", "main"))
    (hdepth : j.depth ≤ Json.maxNesting) :
    content (branchEntry sequence key j) = some ("ref",
      String.ofList (pairJson "branch" "main").print, sequence, String.ofList j.sorted.print) := by
  have hvalue : canonicalText (textOf j) = some (String.ofList j.sorted.print) := by
    rw [canonicalText, parse_textOf hdepth, Option.map_some]
  exact content_eq_some.2 ⟨_, _, normalizedKey_eq_ok.2 (.inr ⟨rfl, _, _, hnames, rfl⟩), hvalue, rfl⟩

/-- The two lists say the same. -/
theorem contents_respelled : Contents sampleEntries = Contents respelledEntries := by
  have hbranch : content (branchEntry 1 "[\"branch\",\"main\"]" (sampleRef (digitHash 'a'))) =
      content (branchEntry 1 "[\"branch\", \"\\u006dain\"]" (respelledRef (digitHash 'a'))) := by
    rw [content_branchEntry (by decide +kernel) (by decide),
      content_branchEntry (by decide +kernel) (by decide), sorted_respelledRef]
  ext x
  simp [Contents, sampleEntries, respelledEntries, hbranch, or_comm]

/-- The root of the two lists is the same. -/
theorem catalogMerkleHash_respelled : ∃ root nodes root' nodes',
    buildCatalogMerkle sampleCatalogEnv (digitHash '0') sampleEntries = .ok (root, nodes) ∧
    buildCatalogMerkle sampleCatalogEnv (digitHash '0') respelledEntries = .ok (root', nodes') ∧
    catalogMerkleHash sampleCatalogEnv root = catalogMerkleHash sampleCatalogEnv root' ∧
    root = root' ∧ root.count = 2 := by
  obtain ⟨⟨root, nodes⟩, h⟩ := exists_build_sample
  obtain ⟨⟨root', nodes'⟩, h'⟩ := exists_build_respelled
  have hinj : Set.InjOn sampleCatalogEnv.hashContent
      (HashedTexts sampleCatalogEnv (nodes ++ nodes')) := by
    obtain ⟨-, -, t, ht, hp⟩ := buildCatalogMerkle_eq_ok.1 h
    obtain ⟨-, -, t', ht', hp'⟩ := buildCatalogMerkle_eq_ok.1 h'
    cases hp
    cases hp'
    exact injOn_sample ht ht' contents_respelled
  obtain ⟨hiff, hroot, hcount, -⟩ := catalogMerkleHash_eq_iff h h' hinj
  exact ⟨root, nodes, root', nodes', h, h', hiff.2 contents_respelled, hroot contents_respelled,
    hcount⟩

end Backend
end CxtHub
