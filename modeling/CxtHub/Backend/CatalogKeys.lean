/-
# Keys and buckets of catalog entries

The bucket of an entry is a function of its kind and normalized key, and normalizing a
key twice changes nothing; so an entry and its canonical form stand in one leaf, under
one key.
-/

import CxtHub.Backend.CatalogTree

namespace CxtHub
namespace Backend

variable {key b : String} {e c : CatalogEntry}
variable {env : CatalogEnv} {repo : ContentHash} {pfx : String}

/-! ### Reference keys -/

@[simp] theorem sorted_pairJson (a b : String) : (pairJson a b).sorted = pairJson a b := by
  simp [pairJson, Json.sorted_arr, Json.sorted]

theorem depth_pairJson (a b : String) : (pairJson a b).depth ≤ Json.maxNesting := by
  simp [pairJson, Json.depth, Json.depthItems, Json.maxNesting]

/-- The canonical text of a pair is its printed form. -/
theorem canonicalBytes_pairJson (a b : String) :
    canonicalBytes (pairJson a b) = .ok (pairJson a b).print := by
  rw [canonicalBytes, canonicalJSON_eq_some.2 ⟨depth_pairJson a b, rfl⟩, sorted_pairJson]

/-- A printed pair is read back. -/
theorem parse_pairJson (a b : String) : Json.parse (pairJson a b).print = some (pairJson a b) := by
  rw [Json.parse_print, if_pos (depth_pairJson a b)]

/-- The keys that are read as names of a ref. -/
theorem catalogMerkleRefKey_eq_ok {p : String × String} :
    catalogMerkleRefKey key = .ok p ↔
      Json.parse key.toList = some (pairJson p.1 p.2) ∧ refNameValid p.1 p.2 = true := by
  unfold catalogMerkleRefKey
  split
  · next kind name h =>
      rw [h]
      split_ifs with hvalid
      · simp only [Option.some.injEq, pairJson, Json.arr.injEq, List.cons.injEq,
          Json.str.injEq, and_true, false_iff, not_and]
        rintro ⟨rfl, rfl⟩
        simp [hvalid]
      · simp only [Except.ok.injEq, Option.some.injEq, pairJson, Json.arr.injEq, List.cons.injEq,
          Json.str.injEq, and_true]
        constructor
        · rintro rfl
          simpa using hvalid
        · rintro ⟨⟨rfl, rfl⟩, -⟩
          rfl
  · next hnot =>
      simp only [reduceCtorEq, false_iff, not_and]
      exact fun h => absurd h (hnot _ _)

/-! ### Normalized keys -/

/-- The kinds whose key is its own normal form. -/
def PlainKey (kind key : String) : Prop :=
  (kind = "snapshot" ∨ kind = "protocol") ∧ validContentHash key = true ∨
    kind = "history" ∧ key.utf8ByteSize = 32 ∧ (key.toList.all fun c => c ∈ catalogMerkleHex) = true

/-- **What a normalized key is.** -/
theorem normalizedKey_eq_ok :
    catalogMerkleNormalizedKey e = .ok key ↔ PlainKey e.kind e.key ∧ key = e.key ∨
      e.kind = "ref" ∧ ∃ kind name, catalogMerkleRefKey e.key = .ok (kind, name) ∧
        key = String.ofList (pairJson kind name).print := by
  unfold catalogMerkleNormalizedKey PlainKey
  split_ifs with h h₁ h₂
  · have hhistory : e.kind ≠ "history" := by rcases h with h | h <;> rw [h] <;> decide
    have href : e.kind ≠ "ref" := by rcases h with h | h <;> rw [h] <;> decide
    simp only [h, hhistory, href, bind_eq_ok, exists_unit_iff, refuse_eq_ok, Bool.not_eq_false,
      Except.ok.injEq, true_and, false_and, or_false]
    exact and_congr_right fun _ => eq_comm
  · simp only [h₁, bind_eq_ok, exists_unit_iff, refuse_eq_ok, not_or, ne_eq, not_not,
      Bool.not_eq_false, Except.ok.injEq, String.reduceEq, or_self, false_and, false_or, true_and,
      or_false]
    exact and_congr_right fun _ => eq_comm
  · simp only [h₂, bind_eq_ok, canonicalBytes_pairJson, Except.ok.injEq, true_and, Prod.exists,
      exists_eq_left', String.reduceEq, or_self, false_and, false_or]
    exact exists_congr fun _ => exists_congr fun _ => and_congr_right fun _ => eq_comm
  · simp [h, h₁, h₂]

/-- The four kinds. -/
theorem kind_of_normalizedKey
    (h : catalogMerkleNormalizedKey e = .ok key) :
    e.kind ∈ ["snapshot", "protocol", "history", "ref"] := by
  rcases normalizedKey_eq_ok.1 h with ⟨(⟨hkind | hkind, -⟩ | ⟨hkind, -⟩), -⟩ | ⟨hkind, -⟩ <;>
    simp [hkind]

/-- A normalized key is read as the same names. -/
theorem catalogMerkleRefKey_normalized (h : catalogMerkleNormalizedKey e = .ok key) :
    catalogMerkleRefKey key = catalogMerkleRefKey e.key := by
  rcases normalizedKey_eq_ok.1 h with ⟨-, rfl⟩ | ⟨-, kind, name, hnames, rfl⟩
  · rfl
  · rw [hnames, catalogMerkleRefKey_eq_ok, String.toList_ofList]
    exact ⟨parse_pairJson kind name, (catalogMerkleRefKey_eq_ok.1 hnames).2⟩

/-- **Normalizing twice changes nothing.** -/
theorem normalizedKey_normalized
    (h : catalogMerkleNormalizedKey e = .ok key) (value : String) :
    catalogMerkleNormalizedKey { e with key := key, value := value } = .ok key := by
  rw [normalizedKey_eq_ok]
  rcases normalizedKey_eq_ok.1 h with ⟨hplain, rfl⟩ | ⟨href, kind, name, hnames, rfl⟩
  · exact .inl ⟨hplain, rfl⟩
  · exact .inr ⟨href, kind, name, (catalogMerkleRefKey_normalized h).trans hnames, rfl⟩

/-- The key by which entries are ordered. -/
theorem semanticKey_eq
    (h : catalogMerkleNormalizedKey e = .ok key) : semanticKey e = toLex (e.kind, key) := by
  rw [semanticKey, h]

/-! ### Buckets -/

theorem hex_nodup : catalogMerkleHex.Nodup := by decide

/-- The digits below sixteen are hexadecimal. -/
theorem digitChar_mem_hex (d : Fin 16) : d.val.digitChar ∈ catalogMerkleHex := by
  revert d
  decide

/-- The two digits that a hash starts with. -/
def hashDigits (env : CatalogEnv) (t : List Char) : Char × Char :=
  (((env.sum t).getD 0 0).val.digitChar, ((env.sum t).getD 1 0).val.digitChar)

/-- The two digits after the prefix of a hash. -/
theorem take_hashContent (t : List Char) :
    String.ofList (((env.hashContent t).toList.drop 7).take 2) =
      bucketName (hashDigits env t).1 (hashDigits env t).2 := by
  have hlength := env.length_sum t
  match hsum : env.sum t with
  | [] => simp [hsum] at hlength
  | [_] => simp [hsum] at hlength
  | a :: b :: rest =>
      have hdrop : ((env.hashContent t).toList.drop 7) =
          a.val.digitChar :: b.val.digitChar :: rest.map fun d => d.val.digitChar := by
        rw [CatalogEnv.hashContent, String.toList_ofList, hsum]
        rfl
      rw [hdrop, hashDigits, hsum, ← String.toList_inj]
      simp [bucketName]

/-- The bucket of a kind and a normalized key. -/
def keyDigits (env : CatalogEnv) (kind key : String) : Char × Char :=
  hashDigits env (catalogMerkleKeyDomain.toList ++ (pairJson kind key).print)

/-- The bucket is named by two digits of the hash of the key. -/
theorem catalogMerkleBucket_eq_ok :
    catalogMerkleBucket env e = .ok b ↔ ∃ key, catalogMerkleNormalizedKey e = .ok key ∧
      b = bucketName (keyDigits env e.kind key).1 (keyDigits env e.kind key).2 := by
  simp only [catalogMerkleBucket, bind_eq_ok, canonicalBytes_pairJson, Except.ok.injEq,
    exists_eq_left', take_hashContent]
  exact exists_congr fun _ => and_congr_right fun _ => eq_comm

/-- An entry is in the bucket that is computed for it. -/
theorem inBucket_iff :
    inBucket env pfx e = true ↔ catalogMerkleBucket env e = .ok pfx := by
  unfold inBucket
  split
  · next h => simp [h]
  · next h => simp [h]

/-- **Entries with one kind and one normalized key stand in one bucket.** -/
theorem bucket_congr {e' : CatalogEntry}
    (h : catalogMerkleNormalizedKey e = .ok key) (h' : catalogMerkleNormalizedKey e' = .ok key)
    (hkind : e'.kind = e.kind) (hb : catalogMerkleBucket env e = .ok b) :
    catalogMerkleBucket env e' = .ok b := by
  obtain ⟨key', hkey', rfl⟩ := catalogMerkleBucket_eq_ok.1 hb
  rw [h] at hkey'
  cases hkey'
  exact catalogMerkleBucket_eq_ok.2 ⟨key, h', by rw [hkind]⟩

/-- Each bucket is one of the 256. -/
theorem digits_of_bucket (h : catalogMerkleBucket env e = .ok b) :
    ∃ high ∈ catalogMerkleHex, ∃ low ∈ catalogMerkleHex, b = bucketName high low := by
  obtain ⟨key, -, rfl⟩ := catalogMerkleBucket_eq_ok.1 h
  exact ⟨_, digitChar_mem_hex _, _, digitChar_mem_hex _, rfl⟩

@[simp] theorem bucketName_toList (high low : Char) :
    (bucketName high low).toList = [high, low] := by
  simp [bucketName]

/-- A bucket is determined by its name. -/
theorem bucketName_inj {high low high' low' : Char} :
    bucketName high low = bucketName high' low' ↔ high = high' ∧ low = low' := by
  rw [← String.toList_inj]
  simp

/-- The entry has a key. -/
def HasKey (e : CatalogEntry) : Prop := ∃ key, catalogMerkleNormalizedKey e = .ok key

/-- An entry in a bucket has a key. -/
theorem hasKey_of_bucket (h : catalogMerkleBucket env e = .ok b) :
    HasKey e := by
  obtain ⟨key, hkey, -⟩ := catalogMerkleBucket_eq_ok.1 h
  exact ⟨key, hkey⟩

/-! ### Canonical forms -/

/-- So has one with a canonical form. -/
theorem hasKey_of_canonicalEntry
    (h : canonicalEntry env repo pfx e = some c) : HasKey e := by
  obtain ⟨-, -, -, key, value, hkey, -⟩ := canonicalEntry_eq_some.1 h
  exact ⟨key, hkey⟩

/-- **A canonical form that is accepted again is its own canonical form.** -/
theorem canonicalEntry_idem {c' : CatalogEntry} (h : canonicalEntry env repo pfx e = some c)
    (h' : canonicalEntry env repo pfx c = some c') : c' = c := by
  obtain ⟨-, -, -, key, value, hkey, hvalue, rfl⟩ := canonicalEntry_eq_some.1 h
  obtain ⟨-, -, -, key', value', hkey', hvalue', rfl⟩ := canonicalEntry_eq_some.1 h'
  rw [normalizedKey_normalized hkey value] at hkey'
  rw [canonicalText_canonicalText hvalue] at hvalue'
  cases hkey'
  cases hvalue'
  rfl

/-- The canonical form of an entry has the same key. -/
theorem semanticKey_canonicalEntry
    (h : canonicalEntry env repo pfx e = some c) : semanticKey c = semanticKey e := by
  obtain ⟨-, -, -, key, value, hkey, -, rfl⟩ := canonicalEntry_eq_some.1 h
  rw [semanticKey_eq hkey, semanticKey_eq (normalizedKey_normalized hkey value)]

end Backend
end CxtHub
