/-
# What a catalog tree is built from, and when

`buildCatalogMerkle_isOk_iff`: a build succeeds exactly on live, valid entries with
distinct keys whose values nest less deep than the limit allows (`Accepted`).  The lemmas
on the way say that every entry falls into one bucket, so that the counts add up
(`root_count`), and what the JSON form of a node looks like (`nodeText_eq_ok`).
-/

import CxtHub.Backend.CatalogKeys

namespace CxtHub
namespace Backend

variable {l out S : List CatalogEntry} {c e : CatalogEntry} {p : ContentHash × CatalogMerkleNode}
  {high : Char}
variable {env : CatalogEnv} {repo : ContentHash} {pfx : String}

/-! ### Canonical entries of a leaf -/

section

variable (h : Canonical env repo pfx l out)

include h

/-- The canonical entries are determined by the entries. -/
theorem Canonical.unique {out' : List CatalogEntry}
    (h' : Canonical env repo pfx l out') : out = out' :=
  (canonical_iff.1 h).2.1.trans (canonical_iff.1 h').2.1.symm

/-- Their order does not matter. -/
theorem Canonical.of_perm {l' : List CatalogEntry}
    (hperm : l'.Perm l) : Canonical env repo pfx l' out :=
  ⟨fun e he => h.all e (hperm.mem_iff.1 he), (hperm.map _).trans h.perm, h.sorted⟩

/-- The canonical entries are those of the entries of the list. -/
theorem Canonical.mem_iff
    : c ∈ out ↔ ∃ e ∈ l, canonicalEntry env repo pfx e = some c := by
  rw [← h.perm.mem_iff, List.mem_map]
  refine exists_congr fun e => and_congr_right fun he => ?_
  obtain ⟨c', hc'⟩ := Option.isSome_iff_exists.1 (h.all e he)
  rw [canonicalOr_eq hc', hc', Option.some.injEq]

/-- The canonical entries have distinct keys. -/
theorem Canonical.nodup_keys :
    (out.map semanticKey).Nodup := by
  have hrank : out.map semanticKey = out.map rank := by
    refine List.map_congr_left fun c hc => ?_
    obtain ⟨e, -, he⟩ := h.mem_iff.1 hc
    rw [rank_canonicalEntry he, semanticKey_canonicalEntry he]
  rw [hrank]
  exact List.pairwise_map.2 (h.sorted.imp fun hlt => hlt.ne)

end

/-- What the parent records of a leaf does not depend on the spelling of the entries. -/
theorem hashedLeaf_congr {l' : List CatalogEntry}
    (hl : Canonical env repo pfx l out) (hl' : Canonical env repo pfx l' out)
    (h : hashedLeaf env repo pfx l = .ok p) :
    ∃ p', hashedLeaf env repo pfx l' = .ok p' ∧ hashedChild p' = hashedChild p := by
  obtain ⟨hpfx, hshape, out', t, hout', ht, rfl⟩ := hashedLeaf_eq_ok.1 h
  obtain rfl := hl.unique hout'
  refine ⟨_, hashedLeaf_eq_ok.2 ⟨hpfx, hshape, out, t, hl', ht, rfl⟩, ?_⟩
  have hlength : l'.length = l.length := by
    have h₁ := hl.perm.length_eq
    have h₂ := hl'.perm.length_eq
    rw [List.length_map] at h₁ h₂
    omega
  simp [hashedChild, childOf, leafNode, hlength]

/-! ### The text of a node -/

/-- Nothing is left to be made canonical. -/
def CanonicalForm (c : CatalogEntry) : Prop :=
  c.deleted = false ∧ canonicalText c.value = some c.value

/-- Canonical entries have nothing left to be made canonical. -/
theorem canonicalForm_of_canonicalEntry
    (h : canonicalEntry env repo pfx e = some c) : CanonicalForm c := by
  obtain ⟨hlive, -, -, key, value, -, hvalue, rfl⟩ := canonicalEntry_eq_some.1 h
  exact ⟨hlive, canonicalText_canonicalText hvalue⟩

/-- The JSON form of a canonical entry. -/
theorem CanonicalForm.marshal (h : CanonicalForm c) :
    ∃ v, c.marshal = .ok (.obj [("sequence", .int c.sequence), ("kind", .str c.kind),
        ("key", .str c.key), ("value", v)]) ∧ c.value = String.ofList v.sorted.print ∧
      Json.parse c.value.toList = some v := by
  obtain ⟨hlive, hvalue⟩ := h
  obtain ⟨v, hv, hprint, -⟩ := parse_of_canonicalText hvalue
  have hne : c.value ≠ "" := by
    intro hempty
    have hnone : canonicalText "" = none := by decide
    rw [hempty, hnone] at hvalue
    cases hvalue
  refine ⟨v, ?_, hprint, hv⟩
  simp [CatalogEntry.marshal, hlive, hne, hv]

/-- The text of a node within the limit on nesting. -/
theorem nodeText_eq_ok {n : CatalogMerkleNode} {t : List Char} :
    nodeText n = .ok t ↔ ∃ j, n.marshal = .ok j ∧ j.depth ≤ Json.maxNesting ∧
      t = catalogMerkleNodeDomain.toList ++ j.sorted.print := by
  have hbytes : ∀ {j : Json} {raw : List Char}, canonicalBytes j = .ok raw ↔
      j.depth ≤ Json.maxNesting ∧ raw = j.sorted.print := by
    intro j raw
    rw [← canonicalJSON_eq_some, canonicalBytes]
    cases canonicalJSON j <;> simp
  simp only [nodeText, bind_eq_ok, hbytes, Except.ok.injEq]
  refine exists_congr fun j => and_congr_right fun _ => ?_
  constructor
  · rintro ⟨_, ⟨hdepth, rfl⟩, rfl⟩
    exact ⟨hdepth, rfl⟩
  · rintro ⟨hdepth, rfl⟩
    exact ⟨_, ⟨hdepth, rfl⟩, rfl⟩

/-- The JSON form of a node by that of its entries. -/
theorem marshal_eq_ok {n : CatalogMerkleNode} {j : Json} :
    n.marshal = .ok j ↔
      ∃ entry : CatalogEntry → Json, (∀ e ∈ n.entries, e.marshal = .ok (entry e)) ∧
      j = .obj [("version", .int n.version), ("scope", .str n.scope), ("repo_id", .str n.repoID),
        ("prefix", .str n.pfx), ("count", .int n.count),
        ("children", .arr (n.children.map CatalogMerkleChild.json)),
        ("entries", .arr (n.entries.map entry))] := by
  simp only [CatalogMerkleNode.marshal, bind_eq_ok, mapM_eq_ok, Except.ok.injEq]
  constructor
  · rintro ⟨_, ⟨entry, hentry, rfl⟩, rfl⟩
    exact ⟨entry, hentry, rfl⟩
  · rintro ⟨entry, hentry, rfl⟩
    exact ⟨_, ⟨entry, hentry, rfl⟩, rfl⟩

/-! ### Counts and distinct keys -/

/-- A sum in which one character counts. -/
theorem sum_map_single {l : List Char} (hl : l.Nodup) {c : Char} (hc : c ∈ l) (n : ℤ) :
    (l.map fun d => if d = c then n else 0).sum = n := by
  simp [List.sum_map_ite_eq, List.count_eq_one_of_mem hl hc]

/-- The number of entries in the buckets. -/
def bucketTotal (env : CatalogEnv) (S : List CatalogEntry) : ℤ :=
  (catalogMerkleHex.map fun high =>
    (catalogMerkleHex.map fun low => ((bucketEntries env S high low).length : ℤ)).sum).sum

/-- **Every entry is in one bucket.** -/
theorem bucketTotal_eq
    (hS : ∀ e ∈ S, ∃ b, catalogMerkleBucket env e = .ok b) : bucketTotal env S = S.length := by
  induction S with
  | nil => simp [bucketTotal, bucketEntries]
  | cons e S ih =>
      obtain ⟨⟨b, hb⟩, hS⟩ := List.forall_mem_cons.1 hS
      obtain ⟨high, hhigh, low, hlow, rfl⟩ := digits_of_bucket hb
      have hcons : ∀ h l, ((bucketEntries env (e :: S) h l).length : ℤ) =
          (bucketEntries env S h l).length +
            if h = high then (if l = low then 1 else 0) else 0 := by
        intro h l
        have hin : inBucket env (bucketName h l) e = true ↔ h = high ∧ l = low := by
          rw [inBucket_iff, hb, Except.ok.injEq, bucketName_inj]
          exact and_congr eq_comm eq_comm
        rw [bucketEntries, List.filter_cons]
        by_cases hmem : h = high ∧ l = low
        · rw [if_pos (hin.2 hmem), if_pos hmem.1, if_pos hmem.2, List.length_cons, Nat.cast_succ,
            bucketEntries]
        · rw [if_neg fun h => hmem (hin.1 h), bucketEntries]
          split_ifs with h₁ h₂
          · exact absurd ⟨h₁, h₂⟩ hmem
          · rw [add_zero]
          · rw [add_zero]
      have hinner : ∀ h, (catalogMerkleHex.map fun l =>
          if h = high then (if l = low then (1 : ℤ) else 0) else 0).sum =
            if h = high then 1 else 0 := by
        intro h
        split_ifs
        · exact sum_map_single hex_nodup hlow 1
        · simp
      simp only [bucketTotal, hcons, List.sum_map_add, hinner] at ih ⊢
      rw [ih hS, sum_map_single hex_nodup hhigh 1, List.length_cons, Nat.cast_succ]

/-- A leaf counts its entries. -/
theorem count_of_hashedLeaf
    (h : hashedLeaf env repo pfx l = .ok p) : p.2.count = l.length := by
  obtain ⟨-, -, out, x, -, -, rfl⟩ := hashedLeaf_eq_ok.1 h
  rfl

/-- A branch counts those of its children. -/
theorem count_of_hashedBranch {children : List CatalogMerkleChild}
    (h : hashedBranch env repo pfx children = .ok p) :
    p.2.count = totalCount children := by
  obtain ⟨-, -, -, -, x, -, rfl⟩ := hashedBranch_eq_ok.1 h
  rfl

/-- The count of the root is the number of entries. -/
theorem root_count {t : Levels}
    (hS : ∀ e ∈ S, ∃ b, catalogMerkleBucket env e = .ok b)
    (ht : t.Over env repo (bucketEntries env S)) : t.root.2.count = S.length := by
  rw [count_of_hashedBranch ht.root, ← bucketTotal_eq hS, bucketTotal, totalCount,
    Levels.rootChildren, List.map_map]
  refine congrArg _ (List.map_congr_left fun high hhigh => ?_)
  change (t.branch high).2.count = _
  rw [count_of_hashedBranch (ht.branch high hhigh), totalCount, Levels.children, List.map_map]
  exact congrArg _ (List.map_congr_left fun low hlow =>
    count_of_hashedLeaf (ht.leaf high hhigh low hlow))

/-- The entries of a leaf have distinct keys. -/
theorem nodup_of_canonical (h : Canonical env repo pfx l out) :
    (l.map semanticKey).Nodup := by
  have hmap : l.map semanticKey = (l.map (canonicalOr env repo pfx)).map rank := by
    rw [List.map_map]
    refine List.map_congr_left fun e he => ?_
    obtain ⟨c, hc⟩ := Option.isSome_iff_exists.1 (h.all e he)
    rw [Function.comp_apply, canonicalOr_eq hc, rank_canonicalEntry hc]
  rw [hmap, (h.perm.map rank).nodup_iff]
  exact List.pairwise_map.2 (h.sorted.imp fun hlt => hlt.ne)

/-- Keys that are distinct in every bucket are distinct. -/
theorem nodup_of_buckets
    (hS : ∀ e ∈ S, ∃ b, catalogMerkleBucket env e = .ok b)
    (h : ∀ high ∈ catalogMerkleHex, ∀ low ∈ catalogMerkleHex,
      ((bucketEntries env S high low).map semanticKey).Nodup) : (S.map semanticKey).Nodup := by
  induction S with
  | nil => exact List.nodup_nil
  | cons e S ih =>
      obtain ⟨⟨b, hb⟩, hS⟩ := List.forall_mem_cons.1 hS
      rw [List.map_cons, List.nodup_cons]
      refine ⟨fun hmem => ?_, ih hS fun high hhigh low hlow => ?_⟩
      · obtain ⟨e', he', hkey⟩ := List.mem_map.1 hmem
        obtain ⟨high, hhigh, low, hlow, rfl⟩ := digits_of_bucket hb
        obtain ⟨key, hkey₁⟩ := hasKey_of_bucket hb
        obtain ⟨b', hb'⟩ := hS e' he'
        obtain ⟨key', hkey₂⟩ := hasKey_of_bucket hb'
        rw [semanticKey_eq hkey₁, semanticKey_eq hkey₂, toLex_inj, Prod.mk.injEq] at hkey
        obtain ⟨hkind, rfl⟩ := hkey
        have hin' := inBucket_iff.2 (bucket_congr hkey₁ hkey₂ hkind hb)
        have hn := h high hhigh low hlow
        rw [bucketEntries, List.filter_cons_of_pos (inBucket_iff.2 hb), List.map_cons,
          List.nodup_cons] at hn
        refine hn.1 (List.mem_map.2 ⟨e', List.mem_filter.2 ⟨he', hin'⟩, ?_⟩)
        rw [semanticKey_eq hkey₁, semanticKey_eq hkey₂, hkind]
      · refine List.Nodup.sublist ?_ (h high hhigh low hlow)
        exact ((List.sublist_cons_self e S).filter _).map _

/-! ### Hashes -/

/-- A digit of a hash is ASCII, and its byte is hexadecimal. -/
theorem byteOf_digit (d : Fin 16) :
    d.val.digitChar.toNat ≤ 127 ∧ isHexDigit (byteOf d.val.digitChar) = true := by
  revert d
  decide

/-- A computed hash is a valid one. -/
theorem validContentHash_hashContent (x : List Char) :
    validContentHash (env.hashContent x) = true := by
  have hascii : ∀ c ∈ contentHashPrefix.toList ++ (env.sum x).map fun d => d.val.digitChar,
      c.toNat ≤ 127 := by
    intro c hc
    have hpfx : ∀ c ∈ contentHashPrefix.toList, c.toNat ≤ 127 := forall_mem_of_all (by decide)
    rcases List.mem_append.1 hc with hc | hc
    · exact hpfx c hc
    · obtain ⟨d, -, rfl⟩ := List.mem_map.1 hc
      exact (byteOf_digit d).1
  have hbytes := bytesOf_ofList hascii
  rw [List.map_append, List.map_map] at hbytes
  have hpfx : bytesOf contentHashPrefix = contentHashPrefix.toList.map byteOf := by decide
  have hsize : (env.hashContent x).utf8ByteSize = 71 := by
    rw [← length_bytesOf, CatalogEnv.hashContent, hbytes, List.length_append, List.length_map,
      List.length_map, env.length_sum]
    decide
  have hdrop : (bytesOf (env.hashContent x)).drop 7 =
      (env.sum x).map (byteOf ∘ fun d => d.val.digitChar) := by
    rw [CatalogEnv.hashContent, hbytes]
    exact List.drop_left' (by decide)
  rw [validContentHash, hsize, hdrop, hasPrefix, CatalogEnv.hashContent, hbytes, hpfx]
  simp [List.isPrefixOf_iff_prefix, (byteOf_digit _).2]

/-! ### Accepted entries -/

/-- An entry that a tree can hold. -/
structure Accepted (env : CatalogEnv) (repo : ContentHash) (e : CatalogEntry) : Prop where
  live : e.deleted = false
  valid : (catalogMerkleValidateEntry env repo e).isOk = true
  hasKey : HasKey e
  /-- The value is JSON, and the node around it is within the limit on nesting. -/
  value : ∃ j, Json.parse e.value.toList = some j ∧ j.sorted.depth + 3 ≤ Json.maxNesting

/-- The entries that have a canonical form. -/
theorem canonicalEntry_isSome_iff :
    (canonicalEntry env repo pfx e).isSome = true ↔ e.deleted = false ∧
      (catalogMerkleValidateEntry env repo e).isOk = true ∧ inBucket env pfx e = true ∧
      HasKey e ∧ ∃ j, Json.parse e.value.toList = some j := by
  rw [Option.isSome_iff_exists]
  constructor
  · rintro ⟨c, hc⟩
    obtain ⟨hlive, hvalid, hb, key, value, hkey, hvalue, -⟩ := canonicalEntry_eq_some.1 hc
    obtain ⟨j, hj, -⟩ := parse_of_canonicalText hvalue
    exact ⟨hlive, hvalid, hb, ⟨key, hkey⟩, j, hj⟩
  · rintro ⟨hlive, hvalid, hb, ⟨key, hkey⟩, j, hj⟩
    exact ⟨_, canonicalEntry_eq_some.2 ⟨hlive, hvalid, hb, key, _, hkey,
      by rw [canonicalText, hj]; rfl, rfl⟩⟩

/-- Entries with distinct keys have their canonical forms in strict order. -/
theorem exists_canonical (hall : AllCanonical env repo pfx l)
    (hn : (l.map semanticKey).Nodup) : ∃ out, Canonical env repo pfx l out := by
  refine ⟨_, canonical_iff.2 ⟨fun e he => hall e (mem_sortedEntries.1 he), rfl, ?_⟩⟩
  have hperm : (sortedEntries l).Perm l := List.perm_insertionSort _ l
  have hne : ((sortedEntries l).map semanticKey).Nodup := (hperm.map _).nodup_iff.2 hn
  have hle : (sortedEntries l).Pairwise fun a b => semanticKey a ≤ semanticKey b :=
    List.pairwise_insertionSort _ l
  rw [List.pairwise_map]
  refine (hle.and (List.pairwise_map.1 hne)).imp_of_mem fun {a b} ha hb hab => ?_
  have hrank : ∀ e ∈ l, rank (canonicalOr env repo pfx e) = semanticKey e := by
    intro e he
    obtain ⟨c, hc⟩ := Option.isSome_iff_exists.1 (hall e he)
    rw [canonicalOr_eq hc, rank_canonicalEntry hc]
  rw [hrank a (mem_sortedEntries.1 ha), hrank b (mem_sortedEntries.1 hb)]
  exact lt_of_le_of_ne hab.1 hab.2

/-! ### Nesting -/

/-- Items nest at most as deep as a bound on each. -/
theorem depthItems_le_iff {l : List Json} {d : ℕ} : Json.depthItems l ≤ d ↔ ∀ j ∈ l, j.depth ≤ d :=
  ⟨fun h _ hj => (Json.depth_le_of_mem hj).trans h, Json.depthItems_le⟩

/-- A node within the limit on nesting has entries two levels below it. -/
theorem nodeText_isOk_iff {n : CatalogMerkleNode} {entry : CatalogEntry → Json}
    (hentry : ∀ e ∈ n.entries, e.marshal = .ok (entry e)) :
    (∃ x, nodeText n = .ok x) ↔ ∀ e ∈ n.entries, (entry e).depth + 2 ≤ Json.maxNesting := by
  have hchildren : Json.depthItems (n.children.map CatalogMerkleChild.json) ≤ 1 := by
    refine Json.depthItems_le fun j hj => ?_
    obtain ⟨c, -, rfl⟩ := List.mem_map.1 hj
    simp [CatalogMerkleChild.json, Json.depth, Json.depthFields]
  have hmarshal := marshal_eq_ok.2 ⟨entry, hentry, rfl⟩
  have hdepth : ∀ {j}, n.marshal = .ok j → (j.depth ≤ Json.maxNesting ↔
      ∀ e ∈ n.entries, (entry e).depth + 2 ≤ Json.maxNesting) := by
    intro j hj
    cases hj.symm.trans hmarshal
    have hentries : Json.depthItems (n.entries.map entry) ≤ Json.maxNesting - 2 ↔
        ∀ e ∈ n.entries, (entry e).depth ≤ Json.maxNesting - 2 := by
      simp [depthItems_le_iff]
    have hmax : 3 ≤ Json.maxNesting := by decide
    have hiff : (∀ e ∈ n.entries, (entry e).depth + 2 ≤ Json.maxNesting) ↔
        ∀ e ∈ n.entries, (entry e).depth ≤ Json.maxNesting - 2 :=
      forall₂_congr fun _ _ => by omega
    rw [hiff, ← hentries]
    simp only [Json.depth, Json.depthFields, Json.depth_int]
    omega
  constructor
  · rintro ⟨x, hx⟩
    obtain ⟨j, hj, hle, -⟩ := nodeText_eq_ok.1 hx
    exact (hdepth hj).1 hle
  · intro h
    exact ⟨_, nodeText_eq_ok.2 ⟨_, hmarshal, (hdepth hmarshal).2 h, rfl⟩⟩

/-- The JSON form of a canonical entry nests one level around its value. -/
theorem marshal_of_canonicalEntry {j : Json}
    (h : canonicalEntry env repo pfx e = some c) (hj : Json.parse e.value.toList = some j) :
    ∃ o, c.marshal = .ok o ∧ o.depth = j.sorted.depth + 1 := by
  obtain ⟨v, hv, -, hparse⟩ := (canonicalForm_of_canonicalEntry h).marshal
  obtain ⟨-, -, -, key, value, -, hvalue, rfl⟩ := canonicalEntry_eq_some.1 h
  obtain ⟨j', hj', -, hsorted⟩ := parse_of_canonicalText hvalue
  cases hj.symm.trans hj'
  cases hparse.symm.trans hsorted
  exact ⟨_, hv, by simp [Json.depth, Json.depthFields]⟩

/-! ### Accepted leaves -/

theorem utf8Size_of_hex {c : Char} (h : c ∈ catalogMerkleHex) : c.utf8Size = 1 :=
  forall_mem_of_all (p := fun c => c.utf8Size = 1) (by decide) c h

/-- The name of a bucket has two bytes. -/
theorem utf8ByteSize_bucketName {low : Char} (hhigh : high ∈ catalogMerkleHex)
    (hlow : low ∈ catalogMerkleHex) : (bucketName high low).utf8ByteSize = 2 := by
  simp [bucketName, utf8Size_of_hex hhigh, utf8Size_of_hex hlow]

/-- Each bucket is a valid prefix. -/
theorem prefixValid_bucketName {low : Char} (hhigh : high ∈ catalogMerkleHex)
    (hlow : low ∈ catalogMerkleHex) : catalogMerklePrefixValid (bucketName high low) = true := by
  simp [catalogMerklePrefixValid, utf8ByteSize_bucketName hhigh hlow, hhigh, hlow]

/-- A leaf has a text when the tree can hold each of its entries. -/
theorem nodeText_leaf_iff (hout : Canonical env repo pfx l out) :
    (∃ x, nodeText (canonicalLeafNode repo pfx out) = .ok x) ↔
      ∀ e ∈ l, Accepted env repo e := by
  have hentry : ∀ c ∈ out, ∃ o, c.marshal = .ok o := by
    intro c hc
    obtain ⟨e, -, he⟩ := hout.mem_iff.1 hc
    obtain ⟨v, hv, -⟩ := (canonicalForm_of_canonicalEntry he).marshal
    exact ⟨_, hv⟩
  choose! entry hentry using hentry
  rw [nodeText_isOk_iff (n := canonicalLeafNode repo pfx out) hentry]
  -- the nesting of an entry of the leaf, from the value of the entry of the list
  have hdepth : ∀ {e c j}, c ∈ out → canonicalEntry env repo pfx e = some c →
      Json.parse e.value.toList = some j → (entry c).depth = j.sorted.depth + 1 := by
    intro e c j hc he hj
    obtain ⟨o, ho, hodepth⟩ := marshal_of_canonicalEntry he hj
    cases ho.symm.trans (hentry c hc)
    exact hodepth
  constructor
  · intro h e he
    obtain ⟨hlive, hvalid, -, hkey, j, hj⟩ := canonicalEntry_isSome_iff.1 (hout.all e he)
    obtain ⟨c, hc⟩ := Option.isSome_iff_exists.1 (hout.all e he)
    have hmem := hout.mem_iff.2 ⟨e, he, hc⟩
    have hle := h c hmem
    rw [hdepth hmem hc hj] at hle
    exact ⟨hlive, hvalid, hkey, j, hj, by omega⟩
  · intro h c hc
    obtain ⟨e, he, hec⟩ := hout.mem_iff.1 hc
    obtain ⟨j, hj, hle⟩ := (h e he).value
    rw [hdepth hc hec hj]
    omega

/-- **A leaf is built exactly from accepted entries of its bucket with distinct keys.** -/
theorem hashedLeaf_isOk_iff {low : Char} (hhigh : high ∈ catalogMerkleHex)
    (hlow : low ∈ catalogMerkleHex)
    (hbucket : ∀ e ∈ l, inBucket env (bucketName high low) e = true) :
    (∃ p, hashedLeaf env repo (bucketName high low) l = .ok p) ↔ validContentHash repo = true ∧
      (∀ e ∈ l, Accepted env repo e) ∧ (l.map semanticKey).Nodup := by
  have htext : ∀ {out}, Canonical env repo (bucketName high low) l out →
      ((∃ x, nodeText (canonicalLeafNode repo (bucketName high low) out) = .ok x) ↔
        ∀ e ∈ l, Accepted env repo e) := fun hout => nodeText_leaf_iff hout
  constructor
  · rintro ⟨p, hp⟩
    obtain ⟨-, hshape, out, x, hout, hx, -⟩ := hashedLeaf_eq_ok.1 hp
    exact ⟨hshape.1, (htext hout).1 ⟨x, hx⟩, nodup_of_canonical hout⟩
  · rintro ⟨hrepo, hall, hn⟩
    have hcanonical : AllCanonical env repo (bucketName high low) l := fun e he =>
      canonicalEntry_isSome_iff.2 ⟨(hall e he).live, (hall e he).valid, hbucket e he,
        (hall e he).hasKey, (hall e he).value.imp fun _ h => h.1⟩
    obtain ⟨out, hout⟩ := exists_canonical hcanonical hn
    obtain ⟨x, hx⟩ := (htext hout).2 hall
    exact ⟨_, hashedLeaf_eq_ok.2 ⟨utf8ByteSize_bucketName hhigh hlow,
      ⟨hrepo, prefixValid_bucketName hhigh hlow⟩, out, x, hout, hx, rfl⟩⟩

/-! ### Accepted branches -/

/-- The children over a list of digits, one for each. -/
theorem childrenFrom_map {f : Char → CatalogMerkleChild} {hex : List Char} {total : ℤ}
    (hf : ∀ c ∈ hex, (f c).pfx = pfx.push c ∧ validContentHash (f c).hash = true ∧
      0 ≤ (f c).count) (h : total + totalCount (hex.map f) ≤ maxInt64) :
    ChildrenFrom pfx hex total (hex.map f) := by
  induction hex generalizing total with
  | nil => trivial
  | cons c hex ih =>
      obtain ⟨⟨hpfx, hhash, hcount⟩, hrest⟩ := List.forall_mem_cons.1 hf
      have hnonneg : 0 ≤ totalCount (hex.map f) := by
        refine List.sum_nonneg fun n hn => ?_
        simp only [List.mem_map] at hn
        obtain ⟨_, ⟨d, hd, rfl⟩, rfl⟩ := hn
        exact (hrest d hd).2.2
      have hsum : totalCount ((c :: hex).map f) = (f c).count + totalCount (hex.map f) := by
        simp [totalCount]
      exact ⟨hpfx, hhash, hcount, by omega, ih hrest (by omega)⟩

/-- A branch is built when the counts of its children do not overflow. -/
theorem exists_hashedBranch {f : Char → CatalogMerkleChild} (hpfx : pfx.utf8ByteSize ≤ 1)
    (hrepo : validContentHash repo = true) (hvalid : catalogMerklePrefixValid pfx = true)
    (hf : ∀ c ∈ catalogMerkleHex, (f c).pfx = pfx.push c ∧ validContentHash (f c).hash = true ∧
      0 ≤ (f c).count) (hle : totalCount (catalogMerkleHex.map f) ≤ maxInt64) :
    ∃ p, hashedBranch env repo pfx (catalogMerkleHex.map f) = .ok p := by
  obtain ⟨x, hx⟩ := (@nodeText_isOk_iff (branchNode repo pfx (catalogMerkleHex.map f))
    (fun _ => default) fun _ he => (List.not_mem_nil he).elim).2
    fun _ he => (List.not_mem_nil he).elim
  exact ⟨_, hashedBranch_eq_ok.2 ⟨hpfx, ⟨hrepo, hvalid⟩, by rw [List.length_map]; decide,
    childrenFrom_map hf (by rwa [zero_add]), x, hx, rfl⟩⟩

/-! ### Accepted catalogs -/

/-- Each single digit is a valid prefix. -/
theorem prefixValid_singleton (hhigh : high ∈ catalogMerkleHex) :
    catalogMerklePrefixValid (String.singleton high) = true := by
  simp [catalogMerklePrefixValid, utf8Size_of_hex hhigh, hhigh]

/-- What a parent records of a hashed leaf. -/
theorem hashedChild_leaf
    (h : hashedLeaf env repo pfx l = .ok p) : (hashedChild p).pfx = pfx ∧
      validContentHash (hashedChild p).hash = true ∧ (hashedChild p).count = l.length := by
  obtain ⟨-, -, out, x, -, -, rfl⟩ := hashedLeaf_eq_ok.1 h
  exact ⟨rfl, validContentHash_hashContent x, rfl⟩

/-- What a parent records of a hashed branch. -/
theorem hashedChild_branch {children : List CatalogMerkleChild}
    (h : hashedBranch env repo pfx children = .ok p) :
    (hashedChild p).pfx = pfx ∧ validContentHash (hashedChild p).hash = true ∧
      (hashedChild p).count = totalCount children := by
  obtain ⟨-, -, -, -, x, -, rfl⟩ := hashedBranch_eq_ok.1 h
  exact ⟨rfl, validContentHash_hashContent x, rfl⟩

/-- The entries below a branch are some of all entries. -/
theorem totalCount_branch_le
    (hS : ∀ e ∈ S, ∃ b, catalogMerkleBucket env e = .ok b)
    (hhigh : high ∈ catalogMerkleHex) :
    (catalogMerkleHex.map fun low => ((bucketEntries env S high low).length : ℤ)).sum ≤
      S.length := by
  rw [← bucketTotal_eq hS, bucketTotal]
  refine List.single_le_sum (fun n hn => ?_) _ (List.mem_map.2 ⟨high, hhigh, rfl⟩)
  obtain ⟨high', -, rfl⟩ := List.mem_map.1 hn
  refine List.sum_nonneg fun n hn => ?_
  obtain ⟨low, -, rfl⟩ := List.mem_map.1 hn
  exact Nat.cast_nonneg _

/-- The tree over accepted entries. -/
theorem exists_over (hrepo : validContentHash repo = true)
    (hall : ∀ e ∈ S, Accepted env repo e) (hn : (S.map semanticKey).Nodup)
    (hlength : (S.length : ℤ) ≤ maxInt64) :
    ∃ t : Levels, t.Over env repo (bucketEntries env S) := by
  have hS : ∀ e ∈ S, ∃ b, catalogMerkleBucket env e = .ok b := by
    intro e he
    obtain ⟨key, hkey⟩ := (hall e he).hasKey
    exact ⟨_, catalogMerkleBucket_eq_ok.2 ⟨key, hkey, rfl⟩⟩
  have hleaf : ∀ high ∈ catalogMerkleHex, ∀ low ∈ catalogMerkleHex, ∃ p,
      hashedLeaf env repo (bucketName high low) (bucketEntries env S high low) = .ok p := by
    intro high hhigh low hlow
    refine (hashedLeaf_isOk_iff hhigh hlow fun e he => (List.mem_filter.1 he).2).2
      ⟨hrepo, fun e he => hall e (List.mem_filter.1 he).1, ?_⟩
    exact hn.sublist (List.filter_sublist.map _)
  choose! leaf hleaf using hleaf
  have hbranch : ∀ high ∈ catalogMerkleHex, ∃ p, hashedBranch env repo (String.singleton high)
      (catalogMerkleHex.map fun low => hashedChild (leaf high low)) = .ok p := by
    intro high hhigh
    refine exists_hashedBranch (by simp [utf8Size_of_hex hhigh]) hrepo
      (prefixValid_singleton hhigh) (fun low hlow => ?_) ?_
    · obtain ⟨hpfx, hhash, hcount⟩ := hashedChild_leaf (hleaf high hhigh low hlow)
      exact ⟨hpfx, hhash, hcount ▸ Nat.cast_nonneg _⟩
    · rw [totalCount, List.map_map]
      refine le_trans (le_of_eq ?_) ((totalCount_branch_le hS hhigh).trans hlength)
      exact congrArg _ (List.map_congr_left fun low hlow =>
        (hashedChild_leaf (hleaf high hhigh low hlow)).2.2)
  choose! branch hbranch using hbranch
  have hcount : ∀ high ∈ catalogMerkleHex, (hashedChild (branch high)).count =
      (catalogMerkleHex.map fun low => ((bucketEntries env S high low).length : ℤ)).sum := by
    intro high hhigh
    rw [(hashedChild_branch (hbranch high hhigh)).2.2, totalCount, List.map_map]
    exact congrArg _ (List.map_congr_left fun low hlow =>
      (hashedChild_leaf (hleaf high hhigh low hlow)).2.2)
  have hroot : ∃ p, hashedBranch env repo ""
      (catalogMerkleHex.map fun high => hashedChild (branch high)) = .ok p := by
    refine exists_hashedBranch (by decide) hrepo (by decide) (fun high hhigh => ?_) ?_
    · obtain ⟨hpfx, hhash, -⟩ := hashedChild_branch (hbranch high hhigh)
      refine ⟨hpfx, hhash, ?_⟩
      rw [hcount high hhigh]
      refine List.sum_nonneg fun n hn => ?_
      obtain ⟨low, -, rfl⟩ := List.mem_map.1 hn
      exact Nat.cast_nonneg _
    · rw [totalCount, List.map_map]
      refine le_trans (le_of_eq ?_) (le_of_eq_of_le (bucketTotal_eq hS) hlength)
      exact congrArg _ (List.map_congr_left hcount)
  obtain ⟨root, hroot⟩ := hroot
  exact ⟨⟨leaf, branch, root⟩, hleaf, hbranch, hroot⟩

/-- **What `BuildCatalogMerkle` accepts.** -/
theorem buildCatalogMerkle_isOk_iff :
    (∃ p, buildCatalogMerkle env repo S = .ok p) ↔ validContentHash repo = true ∧
      (∀ e ∈ S, Accepted env repo e) ∧ (S.map semanticKey).Nodup ∧
      (S.length : ℤ) ≤ maxInt64 := by
  constructor
  · rintro ⟨p, hp⟩
    obtain ⟨hrepo, hS, t, ht, -⟩ := buildCatalogMerkle_eq_ok.1 hp
    have hleaf : ∀ high ∈ catalogMerkleHex, ∀ low ∈ catalogMerkleHex,
        (∀ e ∈ bucketEntries env S high low, Accepted env repo e) ∧
          ((bucketEntries env S high low).map semanticKey).Nodup := by
      intro high hhigh low hlow
      exact ((hashedLeaf_isOk_iff hhigh hlow fun e he => (List.mem_filter.1 he).2).1
        ⟨_, ht.leaf high hhigh low hlow⟩).2
    refine ⟨hrepo, fun e he => ?_, nodup_of_buckets hS fun high hhigh low hlow =>
      (hleaf high hhigh low hlow).2, ?_⟩
    · obtain ⟨b, hb⟩ := hS e he
      obtain ⟨high, hhigh, low, hlow, rfl⟩ := digits_of_bucket hb
      exact (hleaf high hhigh low hlow).1 e (List.mem_filter.2 ⟨he, inBucket_iff.2 hb⟩)
    · rw [← root_count hS ht, count_of_hashedBranch ht.root]
      obtain ⟨-, -, -, hchildren, -⟩ := hashedBranch_eq_ok.1 ht.root
      simpa using totalCount_le hchildren (by simp [maxInt64])
  · rintro ⟨hrepo, hall, hn, hlength⟩
    obtain ⟨t, ht⟩ := exists_over hrepo hall hn hlength
    refine ⟨_, buildCatalogMerkle_eq_ok.2 ⟨hrepo, fun e he => ?_, t, ht, rfl⟩⟩
    obtain ⟨key, hkey⟩ := (hall e he).hasKey
    exact ⟨_, catalogMerkleBucket_eq_ok.2 ⟨key, hkey, rfl⟩⟩

end Backend
end CxtHub
