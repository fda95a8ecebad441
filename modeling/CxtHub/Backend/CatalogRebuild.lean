/-
# The incremental update agrees with a rebuild

`applyChanges` is what a list of changes means for the entries of a catalog.  A change
touches one bucket, in which the update computes the same canonical entries as a build
from all entries would (`hashedLeaf_updated`); the loops then rewrite exactly the children
of the touched buckets (`updateBucket_invariant`, `updateBranch_invariant`), and every other
node is that of the old tree.
-/

import CxtHub.Backend.CatalogContents
import CxtHub.Backend.CatalogUpdate

namespace CxtHub
namespace Backend

variable {l l' changes out : List CatalogEntry} {c e e' : CatalogEntry}
variable {env : CatalogEnv} {repo : ContentHash} {pfx : String}

/-! ### What changes mean -/

/-- One change, by kind and normalized key. -/
def applyChange (l : List CatalogEntry) (c : CatalogEntry) : List CatalogEntry :=
  (l.filter fun e => semanticKey e ≠ semanticKey c) ++ if c.deleted then [] else [c]

/-- The changes in order. -/
def applyChanges (l changes : List CatalogEntry) : List CatalogEntry := changes.foldl applyChange l

@[simp] theorem applyChanges_nil (l : List CatalogEntry) : applyChanges l [] = l := rfl

@[simp] theorem applyChanges_cons (l : List CatalogEntry) (c : CatalogEntry)
    (changes : List CatalogEntry) :
    applyChanges l (c :: changes) = applyChanges (applyChange l c) changes := rfl

/-- Changes are applied one after another. -/
theorem applyChanges_append (l changes changes' : List CatalogEntry) :
    applyChanges l (changes ++ changes') = applyChanges (applyChanges l changes) changes' :=
  List.foldl_append

/-- The order of the entries does not matter to a change. -/
theorem applyChanges_perm (h : l.Perm l')
    (changes : List CatalogEntry) : (applyChanges l changes).Perm (applyChanges l' changes) := by
  induction changes generalizing l l' with
  | nil => exact h
  | cons c changes ih => exact ih ((h.filter _).append_right _)

/-- Changes act alike on entries that correspond under a relation that keeps the keys. -/
theorem applyChanges_forall₂ {R : CatalogEntry → CatalogEntry → Prop}
    (hkey : ∀ {e e'}, R e e' → semanticKey e' = semanticKey e) (hrefl : ∀ e, R e e)
    (h : List.Forall₂ R l l') (changes : List CatalogEntry) :
    List.Forall₂ R (applyChanges l changes) (applyChanges l' changes) := by
  induction changes generalizing l l' with
  | nil => exact h
  | cons c changes ih =>
      have hnew : List.Forall₂ R (if c.deleted = true then [] else [c])
          (if c.deleted = true then [] else [c]) := by
        split_ifs
        · exact .nil
        · exact .cons (hrefl c) .nil
      refine ih (List.rel_append (List.rel_filter (fun e e' he => ?_) h) hnew)
      dsimp only
      rw [hkey he]

/-- A change adds at most its own entry. -/
theorem mem_applyChange (h : e ∈ applyChange l c) :
    e ∈ l ∨ e = c := by
  rw [applyChange, List.mem_append] at h
  rcases h with h | h
  · exact .inl (List.mem_of_mem_filter h)
  · split_ifs at h with hdeleted
    · simp at h
    · exact .inr (List.mem_singleton.1 h)

/-- What changes can leave. -/
theorem mem_applyChanges
    (h : e ∈ applyChanges l changes) : e ∈ l ∨ e ∈ changes := by
  induction changes generalizing l with
  | nil => exact .inl h
  | cons c changes ih =>
      rcases ih h with h | h
      · exact (mem_applyChange h).imp_right fun (he : e = c) => he ▸ List.mem_cons_self
      · exact .inr (List.mem_cons_of_mem _ h)

/-- A change of another bucket leaves a bucket alone, and one of its own acts on it. -/
theorem filter_applyChange (hc : HasKey c)
    (hl : ∀ e ∈ l, HasKey e) (b : String) :
    (applyChange l c).filter (inBucket env b) =
      applyChanges (l.filter (inBucket env b)) ([c].filter (inBucket env b)) := by
  obtain ⟨key, hkey⟩ := hc
  rw [applyChange, List.filter_append, List.filter_filter, List.filter_singleton]
  cases hb : inBucket env b c with
  | true =>
      rw [cond_true, applyChanges_cons, applyChanges_nil, applyChange, List.filter_filter]
      congr 1
      · exact List.filter_congr fun e _ => Bool.and_comm _ _
      · split_ifs
        · rfl
        · rw [List.filter_singleton, hb, cond_true]
  | false =>
      have hnew : (if c.deleted = true then [] else [c]).filter (inBucket env b) = [] := by
        split_ifs
        · rfl
        · rw [List.filter_singleton, hb, cond_false]
      rw [cond_false, applyChanges_nil, hnew, List.append_nil]
      refine List.filter_congr fun e he => ?_
      cases hin : inBucket env b e with
      | false => rfl
      | true =>
          -- an entry with the key of the change would stand in its bucket
          rw [Bool.true_and, decide_eq_true_eq]
          intro heq
          obtain ⟨key', hkey'⟩ := hl e he
          rw [semanticKey_eq hkey, semanticKey_eq hkey', toLex_inj, Prod.mk.injEq] at heq
          obtain ⟨hkind, rfl⟩ := heq
          rw [inBucket_iff.2 (bucket_congr hkey' hkey hkind.symm (inBucket_iff.1 hin))] at hb
          cases hb

/-- **A bucket sees the changes that fall into it, and no others.** -/
theorem filter_applyChanges (hc : ∀ c ∈ changes, HasKey c)
    (hl : ∀ e ∈ l, HasKey e) (b : String) :
    (applyChanges l changes).filter (inBucket env b) =
      applyChanges (l.filter (inBucket env b)) (changes.filter (inBucket env b)) := by
  induction changes generalizing l with
  | nil => rfl
  | cons c changes ih =>
      obtain ⟨hhead, htail⟩ := List.forall_mem_cons.1 hc
      have hl' : ∀ e ∈ applyChange l c, HasKey e := by
        intro e he
        rcases mem_applyChange he with he | rfl
        · exact hl e he
        · exact hhead
      have hsplit : (c :: changes).filter (inBucket env b) =
          [c].filter (inBucket env b) ++ changes.filter (inBucket env b) :=
        List.filter_append [c] changes
      rw [applyChanges_cons, ih htail hl', filter_applyChange hhead hl, hsplit,
        applyChanges_append]

/-! ### The keys of the update -/

/-- A valid key is read as its pair. -/
theorem unmarshalPair_of_refKey {key : String} {p : String × String}
    (h : catalogMerkleRefKey key = .ok p) : unmarshalPair key = .ok p := by
  rw [unmarshalPair, (catalogMerkleRefKey_eq_ok.1 h).1]
  rfl

/-- The second normalisation agrees with that of the domain. -/
theorem remarshalledKey_eq {key : String}
    (h : catalogMerkleNormalizedKey e = .ok key) : remarshalledKey e = .ok key := by
  rw [remarshalledKey]
  rcases normalizedKey_eq_ok.1 h with ⟨hplain, rfl⟩ | ⟨href, kind, name, hnames, rfl⟩
  · have href : e.kind ≠ "ref" := by
      rcases hplain with ⟨hkind | hkind, -⟩ | ⟨hkind, -⟩ <;> rw [hkind] <;> decide
    rw [if_neg href]
  · rw [if_pos href, unmarshalPair_of_refKey hnames]
    rfl

/-- The key under which `byKey` holds an entry. -/
def entryKeyOf (e : CatalogEntry) : String := e.kind ++ "\x00" ++ (ofLex (semanticKey e)).2

/-- The key of the map is computed for entries with a key. -/
theorem catalogMerkleEntryKey_eq_ok {k : String} :
    catalogMerkleEntryKey env e = .ok k ↔ HasKey e ∧ k = entryKeyOf e := by
  simp only [catalogMerkleEntryKey, bind_eq_ok, Except.ok.injEq]
  constructor
  · rintro ⟨b, hb, key, hkey, rfl⟩
    obtain ⟨key', hkey', -⟩ := catalogMerkleBucket_eq_ok.1 hb
    rw [remarshalledKey_eq hkey'] at hkey
    cases hkey
    exact ⟨⟨key, hkey'⟩, by rw [entryKeyOf, semanticKey_eq hkey']; rfl⟩
  · rintro ⟨⟨key, hkey⟩, rfl⟩
    exact ⟨_, catalogMerkleBucket_eq_ok.2 ⟨key, hkey, rfl⟩, key, remarshalledKey_eq hkey,
      by rw [entryKeyOf, semanticKey_eq hkey]; rfl⟩

/-- The keys of `byKey` tell the same entries apart as kind and normalized key. -/
theorem entryKeyOf_inj (h : HasKey e) (h' : HasKey e') :
    entryKeyOf e = entryKeyOf e' ↔ semanticKey e = semanticKey e' := by
  obtain ⟨key, hkey⟩ := h
  obtain ⟨key', hkey'⟩ := h'
  rw [entryKeyOf, entryKeyOf, semanticKey_eq hkey, semanticKey_eq hkey', toLex_inj, Prod.mk.injEq,
    ofLex_toLex, ofLex_toLex]
  constructor
  · intro heq
    -- no kind contains the separator
    have hlists := congrArg String.toList heq
    simp only [String.toList_append] at hlists
    have hkind := kind_of_normalizedKey hkey
    have hkind' := kind_of_normalizedKey hkey'
    simp only [List.mem_cons, List.not_mem_nil, or_false] at hkind hkind'
    rcases hkind with hk | hk | hk | hk <;> rcases hkind' with hk' | hk' | hk' | hk' <;>
      rw [hk, hk'] at hlists ⊢ <;> simp_all [String.toList_inj]
  · rintro ⟨hkind, rfl⟩
    rw [hkind]

/-! ### The map of a leaf -/

/-- `byKey` with these entries. -/
def keyed (l : List CatalogEntry) : EntryMap := l.map fun e => (entryKeyOf e, e)

@[simp] theorem keyed_snd (l : List CatalogEntry) : (keyed l).map Prod.snd = l := by
  simp [keyed, Function.comp_def]

/-- The map of two lists is that of one after the other. -/
theorem keyed_append (l l' : List CatalogEntry) : keyed (l ++ l') = keyed l ++ keyed l' :=
  List.map_append

/-- Dropping a key from the map drops the entries of that key. -/
theorem keyed_drop (hc : HasKey c)
    (hl : ∀ e ∈ l, HasKey e) :
    (keyed l).drop (entryKeyOf c) = keyed (l.filter fun e => semanticKey e ≠ semanticKey c) := by
  rw [EntryMap.drop, keyed, keyed, List.filter_map]
  refine congrArg _ (List.filter_congr fun e he => ?_)
  simp only [Function.comp_apply, ne_eq, entryKeyOf_inj (hl e he) hc]

/-- A change of the map is the change of the entries. -/
theorem keyed_change (hc : HasKey c)
    (hl : ∀ e ∈ l, HasKey e) : (keyed l).change (entryKeyOf c) c = keyed (applyChange l c) := by
  rw [EntryMap.change, EntryMap.put, keyed_drop hc hl, applyChange]
  split_ifs
  · rw [List.append_nil]
  · rw [keyed_append]
    rfl

/-- A loop over entries with keys is a fold over the map. -/
theorem keyedLoop_eq_ok {body : EntryMap → String → CatalogEntry → EntryMap} {m m' : EntryMap} :
    keyedLoop env body m l = .ok m' ↔
      (∀ e ∈ l, HasKey e) ∧ m' = l.foldl (fun m e => body m (entryKeyOf e) e) m := by
  induction l generalizing m with
  | nil =>
      simp only [keyedLoop, List.foldlM_nil, pure_eq_ok, List.not_mem_nil, false_imp_iff,
        implies_true, true_and, List.foldl_nil]
      exact eq_comm
  | cons e l ih =>
      unfold keyedLoop at ih ⊢
      simp only [List.foldlM_cons, bind_eq_ok, catalogMerkleEntryKey_eq_ok, Except.ok.injEq,
        List.forall_mem_cons, List.foldl_cons]
      constructor
      · rintro ⟨_, ⟨_, ⟨he, rfl⟩, rfl⟩, hl⟩
        obtain ⟨hkeys, rfl⟩ := ih.1 hl
        exact ⟨⟨he, hkeys⟩, rfl⟩
      · rintro ⟨⟨he, hl⟩, rfl⟩
        exact ⟨_, ⟨_, ⟨he, rfl⟩, rfl⟩, ih.2 ⟨hl, rfl⟩⟩

/-- The loop over the changes of a bucket. -/
theorem foldl_change (hc : ∀ c ∈ changes, HasKey c)
    (hl : ∀ e ∈ l, HasKey e) :
    changes.foldl (fun m e => EntryMap.change m (entryKeyOf e) e) (keyed l) =
      keyed (applyChanges l changes) := by
  induction changes generalizing l with
  | nil => rfl
  | cons c changes ih =>
      obtain ⟨hhead, htail⟩ := List.forall_mem_cons.1 hc
      rw [List.foldl_cons, keyed_change hhead hl, ih htail, applyChanges_cons]
      intro e he
      rcases mem_applyChange he with he | rfl
      · exact hl e he
      · exact hhead

/-- The loop over the entries of a stored leaf, no two of which have one key. -/
theorem foldl_put {l done : List CatalogEntry} (hkeys : ∀ e ∈ done ++ l, HasKey e)
    (hn : ((done ++ l).map semanticKey).Nodup) :
    l.foldl (fun m e => EntryMap.put m (entryKeyOf e) e) (keyed done) = keyed (done ++ l) := by
  induction l generalizing done with
  | nil => rw [List.append_nil, List.foldl_nil]
  | cons e l ih =>
      have hdone : ∀ d ∈ done, HasKey d := fun d hd => hkeys d (List.mem_append_left _ hd)
      have he : HasKey e := hkeys e (by simp)
      have hfresh : ∀ d ∈ done, semanticKey d ≠ semanticKey e := by
        intro d hd
        rw [List.map_append, List.nodup_append] at hn
        exact hn.2.2 _ (List.mem_map_of_mem hd) _ (List.mem_map_of_mem List.mem_cons_self)
      have hput : EntryMap.put (keyed done) (entryKeyOf e) e = keyed (done ++ [e]) := by
        rw [EntryMap.put, keyed_drop he hdone, List.filter_eq_self.2 (by simpa using hfresh),
          keyed_append]
        rfl
      rw [List.append_cons] at hkeys hn ⊢
      rw [List.foldl_cons, hput, ih hkeys hn]

/-- `byKey` after both loops. -/
theorem byKey_eq (hkeys : ∀ e ∈ out, HasKey e)
    (hn : (out.map semanticKey).Nodup) (hchanges : ∀ c ∈ changes, HasKey c) :
    changes.foldl (fun m e => EntryMap.change m (entryKeyOf e) e)
        (out.foldl (fun m e => EntryMap.put m (entryKeyOf e) e) []) =
      keyed (applyChanges out changes) := by
  have hput := @foldl_put out [] hkeys hn
  rw [List.nil_append] at hput
  rw [show ([] : EntryMap) = keyed [] from rfl, hput, foldl_change hchanges hkeys]

/-! ### Leaves -/

/-- The payload of an entry is its canonical form. -/
theorem payloadEntry_of_canonicalEntry
    (h : canonicalEntry env repo pfx e = some c) : payloadEntry e = .ok c := by
  obtain ⟨-, -, -, key, value, hkey, hvalue, rfl⟩ := canonicalEntry_eq_some.1 h
  have hne : e.value ≠ "" := by
    intro hempty
    have hnone : canonicalText "" = none := by decide
    rw [hempty, hnone] at hvalue
    cases hvalue
  rw [payloadEntry, remarshalledKey_eq hkey, ok_bind, if_neg hne, hvalue]

/-- An entry and what the stored leaf holds of it. -/
def Stored (env : CatalogEnv) (repo : ContentHash) (pfx : String) (e e' : CatalogEntry) : Prop :=
  e' = e ∨ canonicalEntry env repo pfx e = some e'

/-- A stored entry has the key of the entry it stands for. -/
theorem Stored.semanticKey_eq (h : Stored env repo pfx e e') :
    semanticKey e' = semanticKey e := by
  rcases h with rfl | h
  · rfl
  · exact semanticKey_canonicalEntry h

/-- And its canonical form. -/
theorem Stored.canonicalEntry_eq (h : Stored env repo pfx e e')
    (hc : canonicalEntry env repo pfx e' = some c) : canonicalEntry env repo pfx e = some c := by
  rcases h with rfl | h
  · exact hc
  · rw [h, canonicalEntry_idem h hc]

/-- The canonical forms are stored for the entries. -/
theorem stored_canonical (h : Canonical env repo pfx l out) :
    List.Forall₂ (Stored env repo pfx) l (l.map (canonicalOr env repo pfx)) := by
  rw [List.forall₂_map_right_iff, List.forall₂_same]
  intro e he
  obtain ⟨c, hc⟩ := Option.isSome_iff_exists.1 (h.all e he)
  exact .inr (by rw [canonicalOr_eq hc, hc])

/-- Entries may stand for what is stored of them. -/
theorem Canonical.of_stored (h : Canonical env repo pfx l' out)
    (hl : List.Forall₂ (Stored env repo pfx) l l') : Canonical env repo pfx l out := by
  have hmap : AllCanonical env repo pfx l ∧
      l.map (canonicalOr env repo pfx) = l'.map (canonicalOr env repo pfx) := by
    have hall := h.all
    clear h
    induction hl with
    | nil => exact ⟨nofun, rfl⟩
    | cons he hl ih =>
        obtain ⟨hhead, htail⟩ := List.forall_mem_cons.1 hall
        obtain ⟨hl, hmap⟩ := ih htail
        obtain ⟨c, hc⟩ := Option.isSome_iff_exists.1 hhead
        have hc' := he.canonicalEntry_eq hc
        refine ⟨List.forall_mem_cons.2 ⟨by rw [hc']; rfl, hl⟩, ?_⟩
        rw [List.map_cons, List.map_cons, hmap, canonicalOr_eq hc, canonicalOr_eq hc']
  exact ⟨hmap.1, hmap.2 ▸ h.perm, h.sorted⟩

/-- The entries of a stored leaf. -/
theorem entries_of_payload {m : CatalogMerkleNode}
    (hout : Canonical env repo pfx l out)
    (hm : catalogMerklePayload env (leafNode repo pfx l) = .ok m) : m.entries = out := by
  obtain ⟨hall, hsorted, -⟩ := canonical_iff.1 hout
  simp only [catalogMerklePayload, bind_eq_ok, mapM_eq_ok, Except.ok.injEq] at hm
  obtain ⟨-, -, entries, ⟨g, hg, rfl⟩, -, -, -, -, rfl⟩ := hm
  rw [hsorted]
  refine List.map_congr_left fun e he => ?_
  obtain ⟨c, hc⟩ := Option.isSome_iff_exists.1 (hall e he)
  have := hg e he
  rw [payloadEntry_of_canonicalEntry hc] at this
  cases this
  rw [canonicalOr_eq hc]

/-- What is loaded is the row of the hash. -/
theorem loadCatalogMerkleNode_eq_ok {rows : CatalogRows} {hash : ContentHash} {count : ℤ}
    {n : CatalogMerkleNode} (h : loadCatalogMerkleNode env rows repo hash pfx count = .ok n) :
    rows hash = some n := by
  unfold loadCatalogMerkleNode at h
  cases hrow : rows hash with
  | none => rw [hrow] at h; cases h
  | some node =>
      simp only [hrow, bind_eq_ok, exists_unit_iff, Except.ok.injEq] at h
      rw [h.2.2.2]

/-- The node is read back as it was written. -/
def ReadsBack (env : CatalogEnv) (rows : CatalogRows) (p : ContentHash × CatalogMerkleNode) :
    Prop :=
  ∃ m, catalogMerklePayload env p.2 = .ok m ∧ rows p.1 = some m

/-- **In a bucket the update computes what a build from all entries would.** -/
theorem hashedLeaf_updated {rows : CatalogRows} {orders : MapOrders}
    {q p : ContentHash × CatalogMerkleNode}
    {child : CatalogMerkleChild} (hq : hashedLeaf env repo pfx l = .ok q)
    (hread : ReadsBack env rows q) (hchild : child.hash = q.1)
    (h : updatedLeaf env rows orders repo pfx child changes = .ok p) :
    ∃ p', hashedLeaf env repo pfx (applyChanges l changes) = .ok p' ∧
      hashedChild p' = hashedChild p := by
  obtain ⟨-, -, out, t, hout, -, rfl⟩ := hashedLeaf_eq_ok.1 hq
  obtain ⟨m, hm, hrow⟩ := hread
  simp only [updatedLeaf, bind_eq_ok, keyedLoop_eq_ok] at h
  obtain ⟨leaf, hleaf, byKey, ⟨hkeys, rfl⟩, byKey', ⟨hchanges, rfl⟩, hp⟩ := h
  have hentries : leaf.entries = out := by
    have hstored := loadCatalogMerkleNode_eq_ok hleaf
    rw [hchild, hrow, Option.some.injEq] at hstored
    rw [← hstored, entries_of_payload hout hm]
  rw [hentries] at hkeys hp
  rw [byKey_eq hkeys hout.nodup_keys hchanges, keyed_snd] at hp
  obtain ⟨-, -, out', -, hout', -⟩ := hashedLeaf_eq_ok.1 hp
  -- the leaf was built from the stored entries in some order
  have hstored : Canonical env repo pfx
      (applyChanges (l.map (canonicalOr env repo pfx)) changes) out' :=
    hout'.of_perm ((applyChanges_perm hout.perm changes).trans (orders.leaf_perm _ _).symm)
  have hrel := applyChanges_forall₂ Stored.semanticKey_eq (fun _ => .inl rfl)
    (stored_canonical hout) changes
  exact hashedLeaf_congr hout' (hstored.of_stored hrel) hp

end Backend
end CxtHub
