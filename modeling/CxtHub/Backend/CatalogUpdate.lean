/-
# The incremental update of a catalog tree

`backend/internal/adapters/store/postgres_catalog_merkle.go`: `updateCatalogMerkle` takes
the root of the stored tree and a list of changes, rewrites the leaves they fall into,
then the branches above these leaves and then the root, and returns the new nodes only.

The rows of `repository_catalog_merkle_nodes` are the nodes that their payloads decode to,
by hash.  The three maps the function ranges over are lists, and the order in which a run
goes through each of them is a parameter (`MapOrders`).
-/

import CxtHub.Backend.CatalogMerkle

namespace CxtHub
namespace Backend

def errIntegrity : DomainError := { sentinel := .integrity }

/-- An error of `encoding/json`. -/
def errJson : DomainError := { sentinel := .plain, format := "json" }

/-! ### Keys of the update -/

/-- An element of a JSON array read into a string that was empty. -/
def stringAt (items : List Json) (i : ℕ) : Option String :=
  match items[i]? with
  | none => some ""
  | some .null => some ""
  | some (.str s) => some s
  | some _ => none

/-- `json.Unmarshal([]byte(key), &names)` into a `[2]string`. -/
def unmarshalPair (key : String) : Except DomainError (String × String) :=
  match Json.parse key.toList with
  | some .null => .ok ("", "")
  | some (.arr items) =>
      match stringAt items 0, stringAt items 1 with
      | some a, some b => .ok (a, b)
      | _, _ => .error errJson
  | _ => .error errJson

/-- The key of an entry, re-marshalled when it is that of a ref. -/
def remarshalledKey (e : CatalogEntry) : Except DomainError String :=
  if e.kind = "ref" then do
    let names ← unmarshalPair e.key
    .ok (String.ofList (pairJson names.1 names.2).print)
  else .ok e.key

/-- `catalogMerkleEntryKey`. -/
def catalogMerkleEntryKey (env : CatalogEnv) (e : CatalogEntry) : Except DomainError String := do
  let _ ← catalogMerkleBucket env e
  let key ← remarshalledKey e
  .ok (e.kind ++ "\x00" ++ key)

/-! ### Stored nodes -/

/-- An entry as the payload of its node holds it. -/
def payloadEntry (e : CatalogEntry) : Except DomainError CatalogEntry := do
  let key ← remarshalledKey e
  if e.value = "" then .ok { e with key := key }
  else match canonicalText e.value with
    | none => .error errJson
    | some value => .ok { e with key := key, value := value }

/-- `catalogMerklePayload`: the node that the payload decodes to.  The text of the node is
only needed for the limit on its nesting, in which keys have no part. -/
def catalogMerklePayload (env : CatalogEnv) (node : CatalogMerkleNode) :
    Except DomainError CatalogMerkleNode := do
  let _ ← catalogMerkleHash env node
  let entries ← node.entries.mapM payloadEntry
  let j ← node.marshal
  let _ ← canonicalBytes j
  .ok { node with entries := entries }

/-- The stored nodes of a repository. -/
abbrev CatalogRows := ContentHash → Option CatalogMerkleNode

/-- `loadCatalogMerkleNode`. -/
def loadCatalogMerkleNode (env : CatalogEnv) (rows : CatalogRows) (repo hash : ContentHash)
    (pfx : String) (count : ℤ) : Except DomainError CatalogMerkleNode :=
  match rows hash with
  | none => .error errIntegrity
  | some node => do
      refuse (node.repoID ≠ repo ∨ node.pfx ≠ pfx ∨ 0 ≤ count ∧ node.count ≠ count) errIntegrity
      refuse (catalogMerkleHash env node ≠ .ok hash) errIntegrity
      refuse (catalogMerklePayload env node ≠ .ok node) errIntegrity
      .ok node

/-! ### Leaves -/

/-- `byKey`. -/
abbrev EntryMap := List (String × CatalogEntry)

/-- `delete(byKey, key)`. -/
def EntryMap.drop (m : EntryMap) (key : String) : EntryMap := m.filter fun p => p.1 ≠ key

/-- `byKey[key] = entry`. -/
def EntryMap.put (m : EntryMap) (key : String) (e : CatalogEntry) : EntryMap :=
  m.drop key ++ [(key, e)]

/-- The body of the loop over the changes of a bucket. -/
def EntryMap.change (m : EntryMap) (key : String) (e : CatalogEntry) : EntryMap :=
  if e.deleted then m.drop key else m.put key e

/-- A loop over entries that computes the key of each. -/
def keyedLoop (env : CatalogEnv) (body : EntryMap → String → CatalogEntry → EntryMap)
    (m : EntryMap) (l : List CatalogEntry) : Except DomainError EntryMap :=
  l.foldlM (fun m e => catalogMerkleEntryKey env e >>= fun key => .ok (body m key e)) m

/-- The orders in which the maps of one run are gone through. -/
structure MapOrders where
  /-- The buckets of `groups`. -/
  groups : List String → List String
  groups_perm : ∀ l, (groups l).Perm l
  /-- The values of `byKey`, in each bucket. -/
  leaf : String → List CatalogEntry → List CatalogEntry
  leaf_perm : ∀ b l, (leaf b l).Perm l
  /-- The keys of `branches`. -/
  branches : List Char → List Char
  branches_perm : ∀ l, (branches l).Perm l

/-- The new leaf of a bucket: the stored leaf that `child` names, with the changes. -/
def updatedLeaf (env : CatalogEnv) (rows : CatalogRows) (orders : MapOrders) (repo : ContentHash)
    (bucket : String) (child : CatalogMerkleChild) (changes : List CatalogEntry) :
    Except DomainError (ContentHash × CatalogMerkleNode) := do
  let leaf ← loadCatalogMerkleNode env rows repo child.hash bucket child.count
  let byKey ← keyedLoop env EntryMap.put [] leaf.entries
  let byKey ← keyedLoop env EntryMap.change byKey changes
  hashedLeaf env repo bucket (orders.leaf bucket (byKey.map Prod.snd))

/-! ### The update -/

/-- `n.Children[strings.IndexByte("0123456789abcdef", c)]`. -/
def CatalogMerkleNode.child (n : CatalogMerkleNode) (c : Char) : CatalogMerkleChild :=
  n.children.getD (catalogMerkleHex.idxOf c) default

/-- The assignment to that element. -/
def CatalogMerkleNode.setChild (n : CatalogMerkleNode) (c : Char) (child : CatalogMerkleChild) :
    CatalogMerkleNode :=
  { n with children := n.children.set (catalogMerkleHex.idxOf c) child }

/-- The maps `branches` and `nodes` of `updateCatalogMerkle`. -/
structure UpdateState where
  branches : List (Char × CatalogMerkleNode) := []
  nodes : CatalogNodes := []

/-- The two digits of a bucket. -/
def bucketDigits (bucket : String) : Char × Char :=
  (bucket.toList.getD 0 '0', bucket.toList.getD 1 '0')

/-- `branches[prefix]`, or the stored branch. -/
def branchFor (env : CatalogEnv) (rows : CatalogRows) (repo : ContentHash)
    (root : CatalogMerkleNode) (branches : List (Char × CatalogMerkleNode)) (high : Char) :
    Except DomainError CatalogMerkleNode :=
  match branches.lookup high with
  | some branch => .ok branch
  | none => loadCatalogMerkleNode env rows repo (root.child high).hash (String.singleton high)
      (root.child high).count

/-- The body of the loop over `groups`. -/
def updateBucket (env : CatalogEnv) (rows : CatalogRows) (orders : MapOrders) (repo : ContentHash)
    (root : CatalogMerkleNode) (changes : List CatalogEntry) (st : UpdateState) (bucket : String) :
    Except DomainError UpdateState := do
  let (high, low) := bucketDigits bucket
  let branch ← branchFor env rows repo root st.branches high
  let leaf ← updatedLeaf env rows orders repo bucket (branch.child low)
    (changes.filter (inBucket env bucket))
  let branch := branch.setChild low { pfx := bucket, hash := leaf.1, count := leaf.2.count }
  .ok { branches := (high, branch) :: st.branches.filter fun p => p.1 ≠ high
        nodes := st.nodes ++ [leaf] }

/-- The body of the loop over `branches`, on the root and the new nodes. -/
def updateBranch (env : CatalogEnv) (repo : ContentHash)
    (branches : List (Char × CatalogMerkleNode)) (st : CatalogMerkleNode × CatalogNodes)
    (high : Char) : Except DomainError (CatalogMerkleNode × CatalogNodes) :=
  match branches.lookup high with
  | none => .ok st
  | some changed => do
      let branch ← hashedBranch env repo (String.singleton high) changed.children
      .ok (st.1.setChild high
          { pfx := String.singleton high, hash := branch.1, count := branch.2.count },
        st.2 ++ [branch])

/-- `updateCatalogMerkle`. -/
def updateCatalogMerkle (env : CatalogEnv) (rows : CatalogRows) (orders : MapOrders)
    (repo : ContentHash) (root : CatalogMerkleNode) (changes : List CatalogEntry) :
    Except DomainError (CatalogMerkleNode × CatalogNodes) := do
  checkAll (fun e => do
    let _ ← catalogMerkleBucket env e
    refuse (e.kind = "protocol" ∧ e.key ≠ repo) errIntegrity) changes
  let groups := (changes.filterMap fun e => (catalogMerkleBucket env e).toOption).dedup
  let st ← (orders.groups groups).foldlM (updateBucket env rows orders repo root changes) {}
  let (root, nodes) ← (orders.branches (st.branches.map Prod.fst)).foldlM
    (updateBranch env repo st.branches) (root, st.nodes)
  let new ← hashedBranch env repo "" root.children
  .ok (new.2, nodes ++ [new])

end Backend
end CxtHub
