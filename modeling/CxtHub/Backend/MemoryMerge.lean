/-
# Merging digests

The union of fragments does not depend on how the fragments are grouped
(`mergeMemoryFragments_append`), so merging a sequence pairwise renders the same
digest as merging it at once (`mergeDigestSequence_eq_foldl`).  So the client's walk over a
lineage may put merges off (`flush_run`).
-/

import CxtHub.Backend.Memory

namespace CxtHub
namespace Backend

/-! ### Keys -/

/-- An omitted field is passed over. -/
theorem lookup_optional (k n : String) (e : Bool) (j : Json) (rest : List (String × Json)) :
    (optional e n j ++ rest).lookup k =
      if k = n ∧ e = false then some j else rest.lookup k := by
  by_cases h : k = n
  · cases e <;> simp [optional, h]
  · cases e <;> simp [optional, List.lookup_cons, h, beq_eq_false_iff_ne.2 h]

theorem lookup_optional_last (k n : String) (e : Bool) (j : Json) :
    (optional e n j).lookup k = if k = n ∧ e = false then some j else none := by
  rw [← List.append_nil (optional e n j), lookup_optional, List.lookup_nil]

/-- An optional field gives back the value it was written from. -/
theorem eq_of_optional {α : Type} {enc : α → Json} (henc : Function.Injective enc) {zero a b : α}
    [Decidable (a = zero)] [Decidable (b = zero)]
    (h : (if a = zero then none else some (enc a)) = if b = zero then none else some (enc b)) :
    a = b := by
  split_ifs at h with ha hb hb
  · rw [ha, hb]
  · exact henc (Option.some.inj h)

theorem str_injective : Function.Injective Json.str := fun _ _ h => Json.str.inj h

/-- A list of strings is determined by its JSON form. -/
theorem stringsJson_injective : Function.Injective stringsJson :=
  fun _ _ h => List.map_injective_iff.2 str_injective (Json.arr.inj h)

/-- A slice is determined by its JSON. -/
theorem sliceJson_injective : Function.Injective sliceJson := by
  intro a b h
  cases a <;> cases b
  · rfl
  · cases h
  · cases h
  · exact congrArg some (stringsJson_injective h)

/-- So is a scope. -/
theorem MemoryCodeScope.json_injective : Function.Injective MemoryCodeScope.json := by
  rintro ⟨commit, parent, paths⟩ ⟨commit', parent', paths'⟩ h
  have hfield := fun k => congrArg (List.lookup k) (Json.obj.inj h)
  have hcommit := hfield "commit"
  have hparent := hfield "parent"
  have hpaths := hfield "paths"
  simp [List.lookup_cons, lookup_optional] at hcommit hparent hpaths
  rw [hcommit, eq_of_optional str_injective hparent, sliceJson_injective hpaths]

/-- So is a claim. -/
theorem MemoryClaim.json_injective : Function.Injective MemoryClaim.json := by
  rintro ⟨kind, text, code⟩ ⟨kind', text', code'⟩ h
  have hfield := fun k => congrArg (List.lookup k) (Json.obj.inj h)
  have hkind := hfield "kind"
  have htext := hfield "text"
  have hcode := hfield "code"
  simp [List.lookup_cons] at hkind htext
  have hcode' : code.map MemoryCodeScope.json = code'.map MemoryCodeScope.json := by
    cases code <;> cases code' <;> simp [List.lookup_cons, optional] at hcode ⊢
    exact hcode
  rw [hkind, htext, Option.map_injective MemoryCodeScope.json_injective hcode']

/-- So is a list of claims. -/
theorem claimsJson_injective :
    Function.Injective fun l : List MemoryClaim => Json.arr (l.map MemoryClaim.json) :=
  fun _ _ h => List.map_injective_iff.2 MemoryClaim.json_injective (Json.arr.inj h)

/-- So is a fragment. -/
theorem MemoryFragment.json_injective : Function.Injective MemoryFragment.json := by
  rintro ⟨source, summary, facts, tasks, auth, claims⟩
    ⟨source', summary', facts', tasks', auth', claims'⟩ h
  have hfield := fun k => congrArg (List.lookup k) (Json.obj.inj h)
  have hsource := hfield "source_snapshot"
  have hsummary := hfield "summary"
  have hfacts := hfield "key_facts"
  have htasks := hfield "open_tasks"
  have hauth := hfield "tasks_authoritative"
  have hclaims := hfield "claims"
  simp [List.lookup_cons, lookup_optional, lookup_optional_last] at hsource hsummary hfacts htasks
  simp [List.lookup_cons, lookup_optional, lookup_optional_last] at hauth hclaims
  have hflag : auth = auth' := by cases auth <;> cases auth' <;> simp at hauth ⊢
  have hsummary' : summary = summary' := eq_of_optional str_injective hsummary
  have hfacts' : facts = facts' := eq_of_optional stringsJson_injective hfacts
  have htasks' : tasks = tasks' := eq_of_optional stringsJson_injective htasks
  have hclaims' : claims = claims' := eq_of_optional claimsJson_injective hclaims
  rw [hsource, hsummary', hfacts', htasks', hflag, hclaims']

/-- **Two fragments have one key only if they are equal.** -/
theorem memoryFragmentKey_injective : Function.Injective memoryFragmentKey :=
  Json.print_injective.comp MemoryFragment.json_injective

/-! ### The union of fragments -/

/-- The fragments that a merge keeps: those with a source. -/
def sourced (l : List MemoryFragment) : List MemoryFragment :=
  l.filter fun f => f.sourceSnapshot ≠ ""

/-- The loop keeps each sourced fragment once, where it first occurs. -/
theorem mergeFragmentsFrom_eq (seen l : List MemoryFragment) :
    mergeFragmentsFrom (seen.map memoryFragmentKey) l = freshFrom seen (sourced l) := by
  induction l generalizing seen with
  | nil => rfl
  | cons f l ih =>
      simp only [mergeFragmentsFrom, List.mem_map_of_injective memoryFragmentKey_injective]
      by_cases hf : f.sourceSnapshot = ""
      · have hsourced : sourced (f :: l) = sourced l := List.filter_cons_of_neg (by simp [hf])
        rw [if_pos (Or.inl hf), ih, hsourced]
      · have hsourced : sourced (f :: l) = f :: sourced l := List.filter_cons_of_pos (by simp [hf])
        rw [hsourced, freshFrom]
        by_cases hseen : f ∈ seen
        · rw [if_pos (Or.inr hseen), if_pos hseen, ih]
        · rw [if_neg (by simp [hf, hseen]), if_neg hseen, ← List.map_cons, ih]

/-- The merge keeps the first of each fragment that has a source. -/
theorem mergeMemoryFragments_eq (groups : List (List MemoryFragment)) :
    mergeMemoryFragments groups = freshFrom [] (sourced groups.flatten) :=
  mergeFragmentsFrom_eq [] _

/-- The sourced fragments of two lists. -/
theorem sourced_append (a b : List MemoryFragment) : sourced (a ++ b) = sourced a ++ sourced b :=
  List.filter_append ..

/-- What is kept has a source already. -/
theorem sourced_freshFrom (seen l : List MemoryFragment) :
    sourced (freshFrom seen (sourced l)) = freshFrom seen (sourced l) := by
  refine List.filter_eq_self.2 fun f hf => ?_
  exact (List.mem_filter.1 (mem_freshFrom.1 hf).1).2

/-- **Merging into a union is merging into the groups it was made of.** -/
theorem mergeMemoryFragments_append (groups : List (List MemoryFragment))
    (l : List MemoryFragment) :
    mergeMemoryFragments [mergeMemoryFragments groups, l] =
      mergeMemoryFragments (groups ++ [l]) := by
  simp only [mergeMemoryFragments_eq, List.flatten_cons, List.flatten_nil, List.append_nil,
    List.flatten_append, sourced_append, sourced_freshFrom, freshFrom_append_left]

/-! ### Rendered digests -/

/-- The digest with the metadata of `d` whose fragments are `l`. -/
def attributed (d : MemoryDigest) (l : List MemoryFragment) : MemoryDigest :=
  renderMemoryFragments ({ d with fragments := l }).withClaims

/-- A version for fragments with claims. -/
def claimed (l : List MemoryFragment) (v : ℕ) : ℕ :=
  if (l.any fun f => decide (f.claims ≠ [])) = true ∧ v = 0 then memoryClaimsVersion else v

/-- A digest rendered from fragments, as one fold. -/
theorem attributed_eq (d : MemoryDigest) (l : List MemoryFragment) :
    attributed d l =
      let r := l.foldl Rendering.add {}
      { d with summary := String.intercalate "\n\n" r.allSummaries
               keyFacts := Slice.grown r.facts, openTasks := Slice.grown r.tasks
               fragments := l, claimsVersion := claimed l d.claimsVersion } := by
  unfold attributed MemoryDigest.withClaims claimed MemoryDigest.hasMemoryClaims
  split_ifs <;> rfl

@[simp] theorem claimsVersion_attributed (d : MemoryDigest) (l : List MemoryFragment) :
    (attributed d l).claimsVersion = claimed l d.claimsVersion := by
  rw [attributed_eq]

/-- Rendering no fragments leaves the metadata. -/
theorem attributed_nil (d : MemoryDigest) :
    attributed d [] =
      { d with summary := "", keyFacts := none, openTasks := none, fragments := [] } := by
  rfl

@[simp] theorem memoryFragments_attributed (d : MemoryDigest) (l : List MemoryFragment) :
    memoryFragments (attributed d l) = l := by
  by_cases hl : l = []
  · subst hl
    simp [attributed_nil, memoryFragments]
  · rw [attributed_eq]
    exact if_pos hl

/-- A version that was already raised for some of the claims is raised no further. -/
theorem claimed_max {l l' : List MemoryFragment} (hl : l ⊆ l') (v w : ℕ) :
    claimed l' (max (claimed l v) w) = claimed l' (max v w) := by
  unfold claimed memoryClaimsVersion
  by_cases hclaims : (l.any fun f => decide (f.claims ≠ [])) = true
  · have hclaims' : (l'.any fun f => decide (f.claims ≠ [])) = true := by
      obtain ⟨f, hf, hne⟩ := List.any_eq_true.1 hclaims
      exact List.any_eq_true.2 ⟨f, hl hf, hne⟩
    simp only [hclaims, hclaims', true_and]
    split_ifs <;> omega
  · simp only [if_neg fun h : _ ∧ v = 0 => hclaims h.1]

variable {c : MemoryCodec}

/-- With fragments on either side, the merge renders all of them. -/
theorem mergeDigests_of_fragments {prior fresh : MemoryDigest}
    (h : memoryFragments prior ≠ [] ∨ memoryFragments fresh ≠ []) :
    mergeDigests c prior fresh =
      attributed { fresh with claimsVersion := max prior.claimsVersion fresh.claimsVersion }
        (mergeMemoryFragments [memoryFragments prior, memoryFragments fresh]) := by
  rw [mergeDigests, if_neg (by tauto)]
  rfl

/-- One more group loses no fragment. -/
theorem subset_mergeMemoryFragments (groups : List (List MemoryFragment))
    (l : List MemoryFragment) :
    mergeMemoryFragments groups ⊆ mergeMemoryFragments (groups ++ [l]) := by
  intro f hf
  simp only [mergeMemoryFragments_eq, mem_freshFrom, List.flatten_append, sourced_append,
    List.mem_append] at hf ⊢
  exact ⟨Or.inl hf.1, hf.2⟩

/-- Merging into a rendered digest. -/
theorem mergeDigests_attributed {d fresh : MemoryDigest} {groups : List (List MemoryFragment)}
    (h : mergeMemoryFragments groups ≠ [] ∨ memoryFragments fresh ≠ []) :
    mergeDigests c (attributed d (mergeMemoryFragments groups)) fresh =
      attributed { fresh with claimsVersion := max d.claimsVersion fresh.claimsVersion }
        (mergeMemoryFragments (groups ++ [memoryFragments fresh])) := by
  rw [mergeDigests_of_fragments (by rwa [memoryFragments_attributed]), memoryFragments_attributed,
    mergeMemoryFragments_append, claimsVersion_attributed, attributed_eq, attributed_eq]
  simp only [claimed_max (subset_mergeMemoryFragments groups _)]

/-! ### Sequences -/

/-- The greatest version after one more digest. -/
theorem greatestVersion_append (v : ℕ) (l : List MemoryDigest) (d : MemoryDigest) :
    greatestVersion v (l ++ [d]) = max d.claimsVersion (greatestVersion v l) := by
  rw [greatestVersion, List.foldl_append]
  rfl

/-- The version to start from counts like the others. -/
theorem greatestVersion_eq_max (v : ℕ) (l : List MemoryDigest) :
    greatestVersion v l = max v (greatestVersion 0 l) := by
  induction l using List.reverseRecOn with
  | nil => exact (max_eq_left (Nat.zero_le v)).symm
  | append_singleton l d ih =>
      rw [greatestVersion_append, greatestVersion_append, ih]
      omega

/-- It is at least each of them. -/
theorem le_greatestVersion {v : ℕ} {l : List MemoryDigest} {d : MemoryDigest} (hd : d ∈ l) :
    d.claimsVersion ≤ greatestVersion v l := by
  induction l using List.reverseRecOn with
  | nil => cases hd
  | append_singleton l e ih =>
      rw [greatestVersion_append]
      rcases List.mem_append.1 hd with hd | hd
      · exact (ih hd).trans (le_max_right ..)
      · rw [List.mem_singleton.1 hd]
        exact le_max_left ..

/-- **Attributed digests merged pairwise are merged at once.** -/
theorem foldl_mergeDigests {first : MemoryDigest} {rest : List MemoryDigest} (hne : rest ≠ [])
    (hall : ∀ d ∈ first :: rest, memoryFragments d ≠ []) :
    rest.foldl (mergeDigests c) first =
      attributed
        { rest.getLastD first with
          claimsVersion := greatestVersion (rest.getLastD first).claimsVersion (first :: rest) }
        (mergeMemoryFragments ((first :: rest).map memoryFragments)) := by
  induction rest using List.reverseRecOn with
  | nil => exact absurd rfl hne
  | append_singleton l d ih =>
      have hd : memoryFragments d ≠ [] := hall d (by simp)
      rw [List.foldl_append, List.foldl_cons, List.foldl_nil]
      by_cases hl : l = []
      · subst hl
        rw [List.foldl_nil, mergeDigests_of_fragments (Or.inr hd)]
        simp [greatestVersion]
      · have hlast : l.getLastD first ∈ first :: l := by
          rw [List.getLastD_eq_getLast?, List.getLast?_eq_some_getLast hl]
          exact List.mem_cons_of_mem _ (List.getLast_mem hl)
        have hle := le_greatestVersion (v := 0) hlast
        have hversion : max (greatestVersion (l.getLastD first).claimsVersion (first :: l))
            d.claimsVersion = greatestVersion d.claimsVersion (first :: (l ++ [d])) := by
          rw [← List.cons_append, greatestVersion_append, greatestVersion_eq_max,
            greatestVersion_eq_max d.claimsVersion]
          omega
        rw [ih hl fun e he => hall e (by simp at he ⊢; tauto), mergeDigests_attributed (Or.inr hd)]
        simp only [hversion, List.getLastD_concat, ← List.cons_append, List.map_append,
          List.map_cons, List.map_nil]

/-- **`MergeDigestSequence` is the pairwise fold.** -/
theorem mergeDigestSequence_cons (c : MemoryCodec) (first : MemoryDigest)
    (rest : List MemoryDigest) :
    mergeDigestSequence c (first :: rest) = rest.foldl (mergeDigests c) first := by
  cases rest with
  | nil => rfl
  | cons d rest =>
      rw [mergeDigestSequence, mergeSequence]
      split_ifs with h
      · rfl
      · push Not at h
        rw [foldl_mergeDigests (List.cons_ne_nil d rest) h]
        rfl

/-- **Merging a non-empty sequence at once is merging it pairwise from the left**, whatever mix
of digests it is. -/
theorem mergeDigestSequence_eq_foldl (c : MemoryCodec) {digests : List MemoryDigest}
    (hne : digests ≠ []) :
    mergeDigestSequence c digests = digests.tail.foldl (mergeDigests c) (digests.head hne) := by
  obtain ⟨first, rest, rfl⟩ := List.exists_cons_of_ne_nil hne
  rw [mergeDigestSequence_cons, List.tail_cons, List.head_cons]

/-- A text without fragments, fragments without a source, and a duplicate with claims. -/
theorem mergeDigestSequence_eq_foldl_mixed :
    ∃ (c : MemoryCodec) (a b d : MemoryDigest), memoryFragments a = [] ∧
      mergeMemoryFragments [memoryFragments b] = [] ∧ memoryFragments b ≠ [] ∧
      d.claimsVersion ≠ b.claimsVersion ∧
      mergeDigestSequence c [a, b, d, d] =
        mergeDigests c (mergeDigests c (mergeDigests c a b) d) d := by
  refine ⟨⟨id, Unit, inferInstance, fun _ => ()⟩, { summary := "prose" },
    { fragments := [{ sourceSnapshot := "" }] },
    { fragments := [{ sourceSnapshot := "s", claims := [{ kind := "k", text := "t" }] }]
      claimsVersion := 2 }, rfl, rfl, by simp [memoryFragments], by simp, ?_⟩
  exact mergeDigestSequence_eq_foldl _ (by simp)

/-! ### The walk over a lineage

`memoryProjectionWalker` of `cli/internal/app/memorize.go` queues the digests that it meets, and
merges the queue, as the server does, at the end and before an opaque digest, which may take the
place of the projection.  Which digests it meets does not depend on the projection, so its calls
are any sequence here. -/

/-- `memoryProjectionWalker`, as far as merging uses it. -/
structure MemoryProjectionWalker where
  projection : MemoryDigest := {}
  queued : List MemoryDigest := []
  found : Bool := false

/-- `mergeExactStrings`. -/
def mergeExactStrings (groups : List (List String)) : Slice String :=
  Slice.grown (dedupStrings groups)

/-- `legacyDigestContainsProjectionNarrative`. -/
def legacyDigestContainsProjectionNarrative (legacy projection : MemoryDigest) : Bool :=
  if projection.claimsVersion ≠ 0 ∨ projection.hasMemoryClaims = true then false
  else if projection.fragments = [] then
    decide (projection.summary = "") || containsText legacy.summary projection.summary
  else projection.fragments.all fun f =>
    decide (f.summary = "") || containsText legacy.summary f.summary

/-- An opaque digest in the place of a projection. -/
def MemoryDigest.inPlaceOf (digest projection : MemoryDigest) : MemoryDigest :=
  { digest with
    keyFacts := mergeExactStrings [projection.keyFacts.list, digest.keyFacts.list]
    openTasks := mergeExactStrings [projection.openTasks.list, digest.openTasks.list] }

namespace MemoryProjectionWalker

variable (c : MemoryCodec) (w : MemoryProjectionWalker) (digest : MemoryDigest)

/-- `merge`. -/
def merge : MemoryProjectionWalker :=
  if w.found = false then { w with projection := digest, found := true }
  else { w with queued := w.queued ++ [digest] }

/-- `flush`. -/
def flush : MemoryProjectionWalker :=
  if w.queued = [] then w
  else { w with projection := mergeDigestSequence c (w.projection :: w.queued), queued := [] }

/-- `mergeLegacyOpaque`. -/
def mergeLegacyOpaque : MemoryProjectionWalker :=
  let w := w.flush c
  if w.found = true ∧ legacyDigestContainsProjectionNarrative digest w.projection = true then
    { w with projection := digest.inPlaceOf w.projection }
  else w.merge digest

inductive Call
  | merge (digest : MemoryDigest)
  | mergeLegacyOpaque (digest : MemoryDigest)

def run : Call → MemoryProjectionWalker
  | .merge digest => w.merge digest
  | .mergeLegacyOpaque digest => w.mergeLegacyOpaque c digest

/-- The call on a projection that is always up to date. -/
def project : Option MemoryDigest → Call → MemoryDigest
  | none, .merge digest | none, .mergeLegacyOpaque digest => digest
  | some p, .merge digest => mergeDigests c p digest
  | some p, .mergeLegacyOpaque digest =>
      if legacyDigestContainsProjectionNarrative digest p = true then digest.inPlaceOf p
      else mergeDigests c p digest

/-- The walker stands for a projection. -/
inductive Shows : MemoryProjectionWalker → Option MemoryDigest → Prop
  | empty : Shows {} none
  | found (d : MemoryDigest) (queued : List MemoryDigest) :
      Shows ⟨d, queued, true⟩ (some (queued.foldl (mergeDigests c) d))

variable {c w} {p : Option MemoryDigest}

/-- Flushing shows what the walker stands for. -/
theorem Shows.flush (h : Shows c w p) : w.flush c = p.elim {} (⟨·, [], true⟩) := by
  cases h with
  | empty => rfl
  | found d queued =>
      cases queued <;> simp [MemoryProjectionWalker.flush, mergeDigestSequence_cons]

/-- Each call of the walker is the call of the projection. -/
theorem Shows.run (h : Shows c w p) (call : Call) : Shows c (w.run c call) (project c p call) := by
  cases call with
  | merge digest =>
      cases h with
      | empty => exact .found digest []
      | found d queued =>
          have hlast := Shows.found (c := c) d (queued ++ [digest])
          rwa [List.foldl_append] at hlast
  | mergeLegacyOpaque digest =>
      -- the queue is empty when an opaque digest is looked at
      simp only [MemoryProjectionWalker.run, mergeLegacyOpaque, h.flush]
      cases p with
      | none => exact .found digest []
      | some p =>
          simp only [Option.elim_some, project, true_and]
          split_ifs
          · exact .found _ []
          · exact .found p [digest]

/-- **Merging late is merging at once**, for every sequence of calls. -/
theorem flush_run (c : MemoryCodec) (calls : List Call) :
    (calls.foldl (run c) {}).flush c =
      (calls.foldl (fun p call => some (project c p call)) none).elim {} (⟨·, [], true⟩) := by
  suffices h : ∀ w p, Shows c w p → Shows c (calls.foldl (run c) w)
      (calls.foldl (fun p call => some (project c p call)) p) from (h {} none .empty).flush
  induction calls with
  | nil => exact fun _ _ h => h
  | cons call calls ih => exact fun _ _ h => ih _ _ (h.run call)

end MemoryProjectionWalker

end Backend
end CxtHub
