/-
# Memory digests and their merge

`backend/internal/domain/entities.go` (the memory records), `memory_merge.go`,
`memory_sequence.go` and the rendering of fragments in `memory_prompt.go`.

Strings are valid UTF-8, as decoded JSON is.  A slice that JSON omits when it is empty
is a list; the others tell nil from empty.  `strings.ToLower` and SHA-256 are
parameters (`MemoryCodec`).

A digest is merged into another either by its fragments, which are then rendered, or,
when neither has one, as opaque text.
-/

import CxtHub.Backend.Values
import CxtHub.Lib.Json
import CxtHub.Lib.Slices

namespace CxtHub
namespace Backend

/-- `MemoryCodeScope`. -/
structure MemoryCodeScope where
  commit : String
  parent : String := ""
  paths : Slice String := none
  deriving DecidableEq, Repr

/-- `MemoryClaim`. -/
structure MemoryClaim where
  kind : String
  text : String
  code : Option MemoryCodeScope := none
  deriving DecidableEq, Repr

/-- `MemoryFragment`. -/
structure MemoryFragment where
  sourceSnapshot : ContentHash
  summary : String := ""
  keyFacts : List String := []
  openTasks : List String := []
  tasksAuthoritative : Bool := false
  claims : List MemoryClaim := []
  deriving DecidableEq, Repr

/-- `MemoryGraftCoverage`. -/
structure MemoryGraftCoverage where
  projectionVersion : ℕ
  projectionComplete : Bool
  lineageFingerprint : ContentHash := ""
  graftSeq : ℕ
  graftParents : List ContentHash := []
  pinnedSources : List ContentHash := []
  deriving DecidableEq, Repr

/-- `MemoryDigest`. -/
structure MemoryDigest where
  snapshotID : ContentHash := ""
  previousMemoryHash : ContentHash := ""
  summary : String := ""
  keyFacts : Slice String := none
  openTasks : Slice String := none
  tasksAuthoritative : Bool := false
  provider : String := ""
  fragments : List MemoryFragment := []
  graftCoverage : Option MemoryGraftCoverage := none
  claimsVersion : ℕ := 0
  deriving DecidableEq, Repr

/-- What the merge takes from the libraries. -/
structure MemoryCodec where
  /-- `strings.ToLower`. -/
  lower : String → String
  /-- `[sha256.Size]byte`. -/
  Sum : Type
  decSum : DecidableEq Sum
  /-- SHA-256 of a text. -/
  sha256 : List Char → Sum

instance (c : MemoryCodec) : DecidableEq c.Sum := c.decSum

/-! ### Wire form -/

section Wire

/-- A field that is left out when it is empty. -/
def optional (empty : Bool) (name : String) (j : Json) : List (String × Json) :=
  if empty then [] else [(name, j)]

/-- A slice of strings that is not nil. -/
def stringsJson (l : List String) : Json := .arr (l.map .str)

def sliceJson : Slice String → Json
  | none => .null
  | some l => stringsJson l

def MemoryCodeScope.json (s : MemoryCodeScope) : Json :=
  .obj (("commit", .str s.commit) :: optional (s.parent = "") "parent" (.str s.parent) ++
    [("paths", sliceJson s.paths)])

def MemoryClaim.json (c : MemoryClaim) : Json :=
  .obj (("kind", .str c.kind) :: ("text", .str c.text) ::
    optional c.code.isNone "code" ((c.code.map MemoryCodeScope.json).getD .null))

def MemoryFragment.json (f : MemoryFragment) : Json :=
  .obj (("source_snapshot", .str f.sourceSnapshot) ::
    optional (f.summary = "") "summary" (.str f.summary) ++
    optional f.keyFacts.isEmpty "key_facts" (stringsJson f.keyFacts) ++
    optional f.openTasks.isEmpty "open_tasks" (stringsJson f.openTasks) ++
    optional (!f.tasksAuthoritative) "tasks_authoritative" (.bool f.tasksAuthoritative) ++
    optional f.claims.isEmpty "claims" (.arr (f.claims.map MemoryClaim.json)))

def MemoryGraftCoverage.json (g : MemoryGraftCoverage) : Json :=
  .obj (("projection_version", .nat g.projectionVersion) ::
    ("projection_complete", .bool g.projectionComplete) ::
    optional (g.lineageFingerprint = "") "lineage_fingerprint" (.str g.lineageFingerprint) ++
    [("graft_seq", .nat g.graftSeq)] ++
    optional g.graftParents.isEmpty "graft_parents" (stringsJson g.graftParents) ++
    optional g.pinnedSources.isEmpty "pinned_sources" (stringsJson g.pinnedSources))

def MemoryDigest.json (d : MemoryDigest) : Json :=
  .obj (("snapshot_id", .str d.snapshotID) ::
    optional (d.previousMemoryHash = "") "previous_memory_hash" (.str d.previousMemoryHash) ++
    [("summary", .str d.summary), ("key_facts", sliceJson d.keyFacts),
      ("open_tasks", sliceJson d.openTasks), ("provider", .str d.provider)] ++
    optional d.fragments.isEmpty "fragments" (.arr (d.fragments.map MemoryFragment.json)) ++
    optional d.graftCoverage.isNone "graft_coverage"
      ((d.graftCoverage.map MemoryGraftCoverage.json).getD .null) ++
    optional (d.claimsVersion = 0) "claims_version" (.nat d.claimsVersion))

end Wire

/-- `memoryFragmentKey`. -/
def memoryFragmentKey (f : MemoryFragment) : List Char := f.json.print

/-! ### Rendering -/

/-- `dedupStrings`. -/
def dedupStrings (lists : List (List String)) : List String := freshFrom [""] lists.flatten

def extractiveFallbackHeader : String :=
  "Conversation digest (extractive fallback; provider compaction summary unavailable):"

def extractiveFallbackUsersHeader : String := "Recent user intent:"

def extractiveFallbackAssistantsHeader : String := "Recent assistant outcomes:"

def extractiveFallbackDeltaMarker : String := "[cxt conversation delta v1]"

/-- `writeExtractiveFallbackSection`. -/
def extractiveFallbackSection (header : String) (items : List String) : String :=
  if items = [] then ""
  else "\n\n" ++ header ++ "\n" ++ String.join (items.map fun item =>
    if trimSpace item ≠ "" then "- " ++ trimSpace item ++ "\n" else "")

/-- `renderExtractiveFallbackSummary`. -/
def renderExtractiveFallbackSummary (users assistants : List String) : String :=
  trimSpace (extractiveFallbackHeader ++ "\n" ++
    extractiveFallbackSection extractiveFallbackUsersHeader users ++
    extractiveFallbackSection extractiveFallbackAssistantsHeader assistants)

/-- The sections of a fallback summary. -/
inductive FallbackSection
  | header
  | users
  | assistants
  deriving DecidableEq, Repr

/-- The line loop of `parseExtractiveFallbackSummary`. -/
def parseFallbackLines : FallbackSection → Bool → Bool → List String → List String →
    List String → Option (List String × List String)
  | _, _, _, users, assistants, [] => some (users, assistants)
  | sec, seenUsers, seenAssistants, users, assistants, raw :: rest =>
      let line := trimSpace raw
      if line = "" then parseFallbackLines sec seenUsers seenAssistants users assistants rest
      else if line = extractiveFallbackUsersHeader then
        if seenUsers || seenAssistants then none
        else parseFallbackLines .users true seenAssistants users assistants rest
      else if line = extractiveFallbackAssistantsHeader then
        if seenAssistants then none
        else parseFallbackLines .assistants seenUsers true users assistants rest
      else
        let item := trimSpace (trimPrefix line "- ")
        if sec = .header ∨ hasPrefix line "- " = false ∨ item = "" then none
        else if sec = .users then
          parseFallbackLines sec seenUsers seenAssistants (users ++ [item]) assistants rest
        else parseFallbackLines sec seenUsers seenAssistants users (assistants ++ [item]) rest

/-- `parseExtractiveFallbackSummary`. -/
def parseExtractiveFallbackSummary (summary : String) : Option (List String × List String) :=
  match splitLines (trimSpace summary) with
  | [] => none
  | first :: rest =>
      if trimSpace first ≠ extractiveFallbackHeader then none
      else match parseFallbackLines .header false false [] [] rest with
        | none => none
        | some (users, assistants) =>
            if users = [] ∧ assistants = [] then none else some (users, assistants)

/-- `splitExtractiveFallbackSummary`: the baseline, and the users and assistants of a fallback. -/
def splitExtractiveFallbackSummary (text : String) :
    String × Option (List String × List String) :=
  let summary := trimSpace text
  match parseExtractiveFallbackSummary summary with
  | some found => ("", some found)
  | none =>
      let marker := "\n\n" ++ extractiveFallbackDeltaMarker ++ "\n"
      match splitLast marker.toList summary.toList with
      | none => (summary, none)
      | some (before, candidate) =>
          match parseExtractiveFallbackSummary (String.ofList candidate) with
          | some found => (trimSpace (String.ofList before), some found)
          | none => (summary, none)

/-- The variables of the loop of `renderMemoryFragments`. -/
structure Rendering where
  summaries : List String := []
  fallbackInsertAt : Option ℕ := none
  fallbackUsers : List String := []
  fallbackAssistants : List String := []
  facts : List String := []
  tasks : List String := []

/-- Add a summary that is not there yet. -/
def addSummary (summaries : List String) (text : String) : List String :=
  if text ≠ "" ∧ text ∉ summaries then summaries ++ [text] else summaries

/-- The summary of a fragment in the loop of `renderMemoryFragments`. -/
def Rendering.summarize (r : Rendering) (text : String) : Rendering :=
  let summary := trimSpace text
  if summary = "" then r
  else match splitExtractiveFallbackSummary summary with
    | (baseline, some (users, assistants)) =>
        let summaries := addSummary r.summaries baseline
        { r with summaries := summaries, fallbackInsertAt := some summaries.length
                 fallbackUsers := dedupStrings [r.fallbackUsers, users]
                 fallbackAssistants := dedupStrings [r.fallbackAssistants, assistants] }
    | (baseline, none) =>
        { r with summaries := addSummary r.summaries (if baseline = "" then summary else baseline) }

/-- One turn of the loop of `renderMemoryFragments`. -/
def Rendering.add (r : Rendering) (f : MemoryFragment) : Rendering :=
  { r.summarize f.summary with
    facts := dedupStrings [r.facts, f.keyFacts]
    tasks := if f.tasksAuthoritative then dedupStrings [f.openTasks]
      else dedupStrings [r.tasks, f.openTasks] }

/-- The summaries with the fallback in its place. -/
def Rendering.allSummaries (r : Rendering) : List String :=
  match r.fallbackInsertAt with
  | none => r.summaries
  | some i => r.summaries.take i ++
      renderExtractiveFallbackSummary r.fallbackUsers r.fallbackAssistants :: r.summaries.drop i

/-- `renderMemoryFragments`. -/
def renderMemoryFragments (out : MemoryDigest) : MemoryDigest :=
  let r := out.fragments.foldl Rendering.add {}
  { out with summary := String.intercalate "\n\n" r.allSummaries
             keyFacts := Slice.grown r.facts, openTasks := Slice.grown r.tasks }

/-! ### Merging -/

/-- `HasMemoryClaims`. -/
def MemoryDigest.hasMemoryClaims (d : MemoryDigest) : Bool :=
  d.fragments.any fun f => decide (f.claims ≠ [])

/-- `memoryFragments`. -/
def memoryFragments (d : MemoryDigest) : List MemoryFragment :=
  if d.fragments ≠ [] then d.fragments
  else if d.snapshotID = "" ∨ (d.summary = "" ∧ d.keyFacts.list = [] ∧ d.openTasks.list = []) then
    []
  else [{ sourceSnapshot := d.snapshotID, summary := d.summary, keyFacts := d.keyFacts.list
          openTasks := d.openTasks.list, tasksAuthoritative := d.tasksAuthoritative }]

/-- The loop of `mergeMemoryFragments`. -/
def mergeFragmentsFrom (seen : List (List Char)) : List MemoryFragment → List MemoryFragment
  | [] => []
  | f :: rest =>
      if f.sourceSnapshot = "" ∨ memoryFragmentKey f ∈ seen then mergeFragmentsFrom seen rest
      else f :: mergeFragmentsFrom (memoryFragmentKey f :: seen) rest

/-- `mergeMemoryFragments`. -/
def mergeMemoryFragments (groups : List (List MemoryFragment)) : List MemoryFragment :=
  mergeFragmentsFrom [] groups.flatten

/-- The summary of `mergeLegacyDigests`. -/
def mergeLegacySummary (c : MemoryCodec) (prior fresh : String) : String :=
  if prior ≠ "" ∧ prior ≠ fresh ∧ containsText (c.lower fresh) (c.lower prior) = false then
    if fresh = "" then prior else prior ++ "\n\n" ++ fresh
  else fresh

/-- `mergeLegacyDigests`. -/
def mergeLegacyDigests (c : MemoryCodec) (prior fresh : MemoryDigest) : MemoryDigest :=
  { fresh with
    summary := mergeLegacySummary c prior.summary fresh.summary
    keyFacts := Slice.grown (dedupStrings [prior.keyFacts.list, fresh.keyFacts.list])
    openTasks := Slice.grown (if fresh.tasksAuthoritative then dedupStrings [fresh.openTasks.list]
      else dedupStrings [prior.openTasks.list, fresh.openTasks.list]) }

/-- `MemoryClaimsVersion`. -/
def memoryClaimsVersion : ℕ := 1

/-- A digest that has claims has a version. -/
def MemoryDigest.withClaims (d : MemoryDigest) : MemoryDigest :=
  if d.hasMemoryClaims = true ∧ d.claimsVersion = 0 then
    { d with claimsVersion := memoryClaimsVersion } else d

/-- `MergeDigests`. -/
def mergeDigests (c : MemoryCodec) (prior fresh : MemoryDigest) : MemoryDigest :=
  if memoryFragments prior = [] ∧ memoryFragments fresh = [] then
    let out := mergeLegacyDigests c prior fresh
    { out with claimsVersion := max prior.claimsVersion out.claimsVersion }
  else
    let out : MemoryDigest :=
      { fresh with
        fragments := mergeMemoryFragments [memoryFragments prior, memoryFragments fresh]
        claimsVersion := max prior.claimsVersion fresh.claimsVersion }
    renderMemoryFragments out.withClaims

/-- The greatest claims version of a sequence, starting with `v`. -/
def greatestVersion (v : ℕ) (digests : List MemoryDigest) : ℕ :=
  digests.foldl (fun v d => max d.claimsVersion v) v

/-- `MergeDigestSequence` of at least two digests. -/
def mergeSequence (c : MemoryCodec) (first : MemoryDigest) (rest : List MemoryDigest) :
    MemoryDigest :=
  let digests := first :: rest
  if ∃ d ∈ digests, memoryFragments d = [] then rest.foldl (mergeDigests c) first
  else
    let last := rest.getLastD first
    let out : MemoryDigest :=
      { last with fragments := mergeMemoryFragments (digests.map memoryFragments)
                  claimsVersion := greatestVersion last.claimsVersion digests }
    renderMemoryFragments out.withClaims

/-- `MergeDigestSequence`. -/
def mergeDigestSequence (c : MemoryCodec) : List MemoryDigest → MemoryDigest
  | [] => {}
  | [d] => d
  | d :: e :: rest => mergeSequence c d (e :: rest)

end Backend
end CxtHub
