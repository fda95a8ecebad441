/-
# The Merkle tree of a catalog

`backend/internal/domain/catalog_merkle.go` and the entry checks of
`catalog_merkle_validate.go`: entries are put into 256 leaves by the hash of their
typed key, the leaves hang under 16 branches and one root, and every node is hashed
over its canonical JSON.

SHA-256 and the typed decoding of an entry's value are parameters (`CatalogEnv`).  A
hash is its 64 hexadecimal digits.  JSON texts are lists of characters; `children` and
`entries` of a node are lists, since a nil one is refused everywhere.
-/

import CxtHub.Backend.Lifecycle
import CxtHub.Lib.CanonicalJson

namespace CxtHub
namespace Backend

/-- `CatalogEntry`; the raw JSON of the value is a text, empty when it is absent. -/
structure CatalogEntry where
  sequence : ℤ
  kind : String
  key : String
  deleted : Bool := false
  value : String := ""
  deriving DecidableEq, Repr, Inhabited

/-- What the tree takes from outside. -/
structure CatalogEnv where
  /-- The hexadecimal digits of the SHA-256 of a text. -/
  sum : List Char → List (Fin 16)
  length_sum : ∀ t, (sum t).length = 64
  /-- The typed value of a live entry decodes and belongs to its key and repository, the second
  half of `decodeCatalogMerkleEntry`; the source has `entityValid` here. -/
  validValue : ContentHash → CatalogEntry → Bool

def catalogMerkleVersion : ℤ := 1

def catalogMerkleScope : String := "sync-metadata-merkle-v1"

def catalogMerkleKeyDomain : String := catalogMerkleScope ++ ":key\x00"

def catalogMerkleNodeDomain : String := catalogMerkleScope ++ ":node\x00"

def catalogMerkleHex : List Char := "0123456789abcdef".toList

def maxInt64 : ℤ := 2 ^ 63 - 1

/-- `catalogMerkleInvalid`. -/
def catalogMerkleInvalid (message : String) : DomainError :=
  { sentinel := .validation, format := "catalog merkle " ++ message }

/-- `HashContent`. -/
def CatalogEnv.hashContent (env : CatalogEnv) (t : List Char) : ContentHash :=
  String.ofList (contentHashPrefix.toList ++ (env.sum t).map fun d => d.val.digitChar)

/-- `CatalogMerkleChild`. -/
structure CatalogMerkleChild where
  pfx : String
  hash : ContentHash
  count : ℤ
  deriving DecidableEq, Repr, Inhabited

/-- `CatalogMerkleNode`. -/
structure CatalogMerkleNode where
  version : ℤ := catalogMerkleVersion
  scope : String := catalogMerkleScope
  repoID : ContentHash
  pfx : String
  count : ℤ
  children : List CatalogMerkleChild := []
  entries : List CatalogEntry := []
  deriving DecidableEq, Repr, Inhabited

/-! ### Keys -/

/-- `catalogMerklePrefixValid`. -/
def catalogMerklePrefixValid (pfx : String) : Bool :=
  decide (pfx.utf8ByteSize ≤ 2) && pfx.toList.all fun c => decide (c ∈ catalogMerkleHex)

/-- `RefKind(s)`, when it is one of the kinds. -/
def refKindOf (s : String) : Option RefKind :=
  [RefKind.head, .branch, .session, .tag].find? fun k => k.text = s

/-- `ValidateRefName(RefKind(kind), name)` passes. -/
def refNameValid (kind name : String) : Bool :=
  match refKindOf kind with
  | none => false
  | some k => (validateRefName k name).isOk

/-- `catalogMerkleRefKey`: `decodeCatalogMerkleJSON` reads an array of strings. -/
def catalogMerkleRefKey (key : String) : Except DomainError (String × String) :=
  match Json.parse key.toList with
  | some (.arr [.str kind, .str name]) =>
      if refNameValid kind name = false then .error (catalogMerkleInvalid "ref key identity")
      else .ok (kind, name)
  | _ => .error (catalogMerkleInvalid "ref key")

/-- `canonicalJSON` of a Go value with this JSON form. -/
def canonicalBytes (j : Json) : Except DomainError (List Char) :=
  match canonicalJSON j with
  | none => .error { sentinel := .plain, format := "canonical bytes: reparse: %w" }
  | some t => .ok t

/-- The JSON form of `[2]string`. -/
def pairJson (a b : String) : Json := .arr [.str a, .str b]

/-- `catalogMerkleNormalizedKey`. -/
def catalogMerkleNormalizedKey (e : CatalogEntry) : Except DomainError String :=
  if e.kind = "snapshot" ∨ e.kind = "protocol" then do
    refuse (validContentHash e.key = false) (catalogMerkleInvalid "entry key")
    .ok e.key
  else if e.kind = "history" then do
    refuse (e.key.utf8ByteSize ≠ 32 ∨ (e.key.toList.all fun c => c ∈ catalogMerkleHex) = false)
      (catalogMerkleInvalid "history key")
    .ok e.key
  else if e.kind = "ref" then do
    let names ← catalogMerkleRefKey e.key
    let raw ← canonicalBytes (pairJson names.1 names.2)
    .ok (String.ofList raw)
  else .error (catalogMerkleInvalid "unknown entry kind")

/-- `CatalogMerkleBucket`. -/
def catalogMerkleBucket (env : CatalogEnv) (e : CatalogEntry) : Except DomainError String := do
  let key ← catalogMerkleNormalizedKey e
  let raw ← canonicalBytes (pairJson e.kind key)
  .ok (String.ofList
    (((env.hashContent (catalogMerkleKeyDomain.toList ++ raw)).toList.drop 7).take 2))

/-- `catalogMerkleHistoryIDValid`. -/
def catalogMerkleHistoryIDValid (id : String) : Bool :=
  decide (id.utf8ByteSize = 32) && id.toList.all (fun c => !c.isUpper) &&
    id.toList.all fun c => (Json.hexValue c).isSome

/-- The key check of `decodeCatalogMerkleEntry`. -/
def catalogMerkleValidateKey (repo : ContentHash) (e : CatalogEntry) : Except DomainError Unit :=
  if e.kind = "snapshot" then
    refuse (validContentHash e.key = false) (catalogMerkleInvalid "snapshot key")
  else if e.kind = "ref" then catalogMerkleRefKey e.key >>= fun _ => .ok ()
  else if e.kind = "history" then
    refuse (catalogMerkleHistoryIDValid e.key = false) (catalogMerkleInvalid "history key")
  else if e.kind = "protocol" then
    refuse (e.key ≠ repo) (catalogMerkleInvalid "protocol key")
  else .error (catalogMerkleInvalid "unknown entry kind")

/-- `catalogMerkleValidateEntry`. -/
def catalogMerkleValidateEntry (env : CatalogEnv) (repo : ContentHash) (e : CatalogEntry) :
    Except DomainError Unit := do
  refuse (validContentHash repo = false ∨ e.sequence < 0)
    (catalogMerkleInvalid "entry scope or sequence")
  catalogMerkleValidateKey repo e
  if e.deleted = true then
    refuse (e.value ≠ "") (catalogMerkleInvalid "tombstone has a value")
  else refuse (env.validValue repo e = false) (catalogMerkleInvalid "entry metadata")

/-! ### Canonical nodes -/

/-- `bucket, err := CatalogMerkleBucket(e)` with no error and this bucket. -/
def inBucket (env : CatalogEnv) (pfx : String) (e : CatalogEntry) : Bool :=
  match catalogMerkleBucket env e with
  | .ok b => b = pfx
  | .error _ => false

/-- The loop of `catalogMerkleCanonicalEntries`, after an entry with kind and key `prev`. -/
def canonicalEntriesFrom (env : CatalogEnv) (repo : ContentHash) (pfx : String) :
    Option (String × String) → List CatalogEntry → Except DomainError (List CatalogEntry)
  | _, [] => .ok []
  | prev, e :: rest => do
      refuse (e.deleted = true ∨ (catalogMerkleValidateEntry env repo e).isOk = false)
        (catalogMerkleInvalid "invalid live entry")
      let key ← catalogMerkleNormalizedKey e
      refuse (inBucket env pfx e = false) (catalogMerkleInvalid "entry bucket")
      refuse (∃ p ∈ prev, ¬ (p.1 < e.kind ∨ p.1 = e.kind ∧ p.2 < key))
        (catalogMerkleInvalid "entry order or duplicate semantic key")
      match canonicalText e.value with
      | none => .error (catalogMerkleInvalid "entry JSON")
      | some value => do
          let out ← canonicalEntriesFrom env repo pfx (some (e.kind, key)) rest
          .ok ({ e with key := key, value := value } :: out)

/-- `catalogMerkleCanonicalEntries`. -/
def catalogMerkleCanonicalEntries (env : CatalogEnv) (repo : ContentHash) (pfx : String)
    (entries : List CatalogEntry) : Except DomainError (List CatalogEntry) :=
  canonicalEntriesFrom env repo pfx none entries

/-- The child loop of `catalogMerkleCanonicalNode`, with the digits still to come. -/
def childrenCount (pfx : String) : List Char → ℤ → List CatalogMerkleChild →
    Except DomainError ℤ
  | _, count, [] => .ok count
  | [], _, _ :: _ => .error (catalogMerkleInvalid "child identity, order, or count")
  | c :: hex, count, child :: rest => do
      refuse (child.pfx ≠ pfx.push c ∨ validContentHash child.hash = false ∨ child.count < 0 ∨
          child.count > maxInt64 - count)
        (catalogMerkleInvalid "child identity, order, or count")
      childrenCount pfx hex (count + child.count) rest

/-- The branch case of `catalogMerkleCanonicalNode`. -/
def canonicalBranch (n : CatalogMerkleNode) : Except DomainError CatalogMerkleNode := do
  refuse (n.children.length ≠ 16 ∨ n.entries ≠ []) (catalogMerkleInvalid "branch shape")
  let count ← childrenCount n.pfx catalogMerkleHex 0 n.children
  refuse (count ≠ n.count) (catalogMerkleInvalid "branch count")
  .ok n

/-- The leaf case of `catalogMerkleCanonicalNode`. -/
def canonicalLeaf (env : CatalogEnv) (n : CatalogMerkleNode) :
    Except DomainError CatalogMerkleNode := do
  refuse (n.children ≠ [] ∨ n.count ≠ n.entries.length)
    (catalogMerkleInvalid "leaf shape or count")
  let entries ← catalogMerkleCanonicalEntries env n.repoID n.pfx n.entries
  .ok { n with entries := entries }

/-- `catalogMerkleCanonicalNode`. -/
def catalogMerkleCanonicalNode (env : CatalogEnv) (n : CatalogMerkleNode) :
    Except DomainError CatalogMerkleNode := do
  refuse (n.version ≠ catalogMerkleVersion ∨ n.scope ≠ catalogMerkleScope ∨
      validContentHash n.repoID = false ∨ catalogMerklePrefixValid n.pfx = false ∨ n.count < 0)
    (catalogMerkleInvalid "node identity or shape")
  if n.pfx.utf8ByteSize < 2 then canonicalBranch n else canonicalLeaf env n

/-! ### Wire form and hash -/

def CatalogMerkleChild.json (c : CatalogMerkleChild) : Json :=
  .obj [("prefix", .str c.pfx), ("hash", .str c.hash), ("count", .int c.count)]

/-- `json.Marshal` of an entry fails on a value that is no JSON. -/
def CatalogEntry.marshal (e : CatalogEntry) : Except DomainError Json :=
  let head := [("sequence", Json.int e.sequence), ("kind", .str e.kind), ("key", .str e.key)] ++
    if e.deleted then [("deleted", .bool true)] else []
  if e.value = "" then .ok (.obj head)
  else match Json.parse e.value.toList with
    | none => .error { sentinel := .plain, format := "canonical bytes: marshal: %w" }
    | some v => .ok (.obj (head ++ [("value", v)]))

/-- `json.Marshal` of a node. -/
def CatalogMerkleNode.marshal (n : CatalogMerkleNode) : Except DomainError Json := do
  let entries ← n.entries.mapM CatalogEntry.marshal
  .ok (.obj [("version", .int n.version), ("scope", .str n.scope), ("repo_id", .str n.repoID),
    ("prefix", .str n.pfx), ("count", .int n.count),
    ("children", .arr (n.children.map CatalogMerkleChild.json)), ("entries", .arr entries)])

/-- The text that `CatalogMerkleHash` hashes. -/
def catalogMerkleText (env : CatalogEnv) (node : CatalogMerkleNode) :
    Except DomainError (List Char) := do
  let normalized ← catalogMerkleCanonicalNode env node
  let j ← normalized.marshal
  let raw ← canonicalBytes j
  .ok (catalogMerkleNodeDomain.toList ++ raw)

/-- `CatalogMerkleHash`. -/
def catalogMerkleHash (env : CatalogEnv) (node : CatalogMerkleNode) :
    Except DomainError ContentHash :=
  catalogMerkleText env node >>= fun t => .ok (env.hashContent t)

/-! ### Building -/

/-- The kind and the normalized key of an entry. -/
def semanticKey (e : CatalogEntry) : String ×ₗ String :=
  toLex (e.kind, match catalogMerkleNormalizedKey e with
    | .ok key => key
    | .error _ => "")

/-- `NewCatalogMerkleLeaf`. -/
def newCatalogMerkleLeaf (env : CatalogEnv) (repo : ContentHash) (pfx : String)
    (entries : List CatalogEntry) : Except DomainError CatalogMerkleNode := do
  refuse (pfx.utf8ByteSize ≠ 2) (catalogMerkleInvalid "leaf prefix")
  checkAll (fun e => catalogMerkleNormalizedKey e >>= fun _ => .ok ()) entries
  let n : CatalogMerkleNode :=
    { repoID := repo, pfx := pfx, count := entries.length
      entries := entries.insertionSort fun a b => semanticKey a ≤ semanticKey b }
  catalogMerkleCanonicalNode env n >>= fun _ => .ok n

/-- The counting loop of `NewCatalogMerkleBranch`. -/
def sumCounts : ℤ → List CatalogMerkleChild → Except DomainError ℤ
  | count, [] => .ok count
  | count, child :: rest => do
      refuse (child.count < 0 ∨ child.count > maxInt64 - count)
        (catalogMerkleInvalid "child count overflow")
      sumCounts (count + child.count) rest

/-- `NewCatalogMerkleBranch`. -/
def newCatalogMerkleBranch (env : CatalogEnv) (repo : ContentHash) (pfx : String)
    (children : List CatalogMerkleChild) : Except DomainError CatalogMerkleNode := do
  refuse (pfx.utf8ByteSize > 1) (catalogMerkleInvalid "branch prefix")
  let count ← sumCounts 0 children
  let n : CatalogMerkleNode := { repoID := repo, pfx := pfx, count := count, children := children }
  catalogMerkleCanonicalNode env n >>= fun _ => .ok n

/-- The nodes by their hashes, as they are added to the map. -/
abbrev CatalogNodes := List (ContentHash × CatalogMerkleNode)

/-- What the parent of a node records of it. -/
def childOf (hash : ContentHash) (n : CatalogMerkleNode) : CatalogMerkleChild :=
  { pfx := n.pfx, hash := hash, count := n.count }

/-- A leaf and its hash. -/
def hashedLeaf (env : CatalogEnv) (repo : ContentHash) (pfx : String)
    (entries : List CatalogEntry) : Except DomainError (ContentHash × CatalogMerkleNode) := do
  let leaf ← newCatalogMerkleLeaf env repo pfx entries
  let hash ← catalogMerkleHash env leaf
  .ok (hash, leaf)

/-- A branch and its hash. -/
def hashedBranch (env : CatalogEnv) (repo : ContentHash) (pfx : String)
    (children : List CatalogMerkleChild) :
    Except DomainError (ContentHash × CatalogMerkleNode) := do
  let branch ← newCatalogMerkleBranch env repo pfx children
  let hash ← catalogMerkleHash env branch
  .ok (hash, branch)

/-- The branch of a first digit, after its sixteen leaves. -/
def buildBranch (env : CatalogEnv) (repo : ContentHash)
    (buckets : String → List CatalogEntry) (high : Char) :
    Except DomainError ((ContentHash × CatalogMerkleNode) × CatalogNodes) := do
  let pfx := String.singleton high
  let leaves ← catalogMerkleHex.mapM fun low =>
    hashedLeaf env repo (pfx.push low) (buckets (pfx.push low))
  let branch ← hashedBranch env repo pfx (leaves.map fun p => childOf p.1 p.2)
  .ok (branch, leaves ++ [branch])

/-- `BuildCatalogMerkle`. -/
def buildCatalogMerkle (env : CatalogEnv) (repo : ContentHash) (entries : List CatalogEntry) :
    Except DomainError (CatalogMerkleNode × CatalogNodes) := do
  refuse (validContentHash repo = false) (catalogMerkleInvalid "repository")
  checkAll (fun e => catalogMerkleBucket env e >>= fun _ => .ok ()) entries
  let branches ← catalogMerkleHex.mapM
    (buildBranch env repo fun bucket => entries.filter (inBucket env bucket))
  let root ← hashedBranch env repo "" (branches.map fun p => childOf p.1.1 p.1.2)
  .ok (root.2, (branches.flatMap fun p => p.2) ++ [root])

end Backend
end CxtHub
