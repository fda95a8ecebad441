/-
# The bounded memory accumulator

`backend/internal/domain/memory_accumulator.go`: a sequence of digests is kept as the
union of its fragments, the metadata of the latest digest and the one opaque text that
a pairwise merge would still carry, all within a budget of bytes and entries.

`accumulatorJSON` is the counting writer of the source: it stops before it crosses the
limit and feeds the written text to the hash by which `index` finds equal fragments.
The only error is `ErrMemoryProjectionLimit`, written `none`.

`digest_of_addAll` says that the digest of a sequence is its pairwise merge.
-/

import CxtHub.Backend.MemoryMerge

namespace CxtHub
namespace Backend

variable {l : List MemoryFragment} {f : MemoryFragment}

def memoryAccumulatorMaxEntries : ℤ := 16384

def memoryAccumulatorEntryBytes : ℤ := 64

def memoryAccumulatorBaseBytes : ℤ := 128

/-- `accumulatorBudgetOK`. -/
def accumulatorBudgetOK (n entries limit : ℤ) : Bool :=
  decide (limit ≥ memoryAccumulatorBaseBytes ∧ n ≥ 0 ∧ entries ≥ 0 ∧
    entries ≤ memoryAccumulatorMaxEntries ∧ n ≤ limit - memoryAccumulatorBaseBytes ∧
    entries ≤ (limit - memoryAccumulatorBaseBytes - n).tdiv memoryAccumulatorEntryBytes)

/-! ### The counting writer -/

/-- `accumulatorJSON`, while it has not failed. -/
structure AccumulatorJSON where
  n : ℤ := 0
  entries : ℤ := 0
  /-- What was written, for the hash. -/
  written : List Char := []

/-- The bytes of a text. -/
def byteLength (t : List Char) : ℤ := (t.map fun c => (c.utf8Size : ℤ)).sum

namespace AccumulatorJSON

variable (limit : ℤ) (wireOnly : Bool)

/-- `accumulatorJSON.write`. -/
def write (text : List Char) (s : AccumulatorJSON) : Option AccumulatorJSON :=
  if byteLength text > limit - s.n then none
  else some { s with n := s.n + byteLength text, written := s.written ++ text }

/-- The escaped characters of a string, written one after the other. -/
def writeEscaped : List Char → AccumulatorJSON → Option AccumulatorJSON
  | [], s => some s
  | c :: t, s => (write limit (Json.escape c) s).bind (writeEscaped t)

/-- `accumulatorJSON.quoted`. -/
def quoted (text : String) (s : AccumulatorJSON) : Option AccumulatorJSON :=
  if limit - s.n < 2 ∨ byteLength text.toList > limit - s.n - 2 then none
  else ((write limit ['\x22'] s).bind (writeEscaped limit text.toList)).bind
    (write limit ['\x22'])

/-- The entries of a slice are charged unless only the wire form counts. -/
def charge (length : ℕ) (s : AccumulatorJSON) : Option AccumulatorJSON :=
  if wireOnly then some s
  else if (length : ℤ) > memoryAccumulatorMaxEntries - s.entries then none
  else some { s with entries := s.entries + length }

/-- A comma, but not before the first item. -/
def comma (first : Bool) (s : AccumulatorJSON) : Option AccumulatorJSON :=
  if first then some s else write limit [','] s

mutual

/-- `accumulatorJSON.value`; an array is a slice that is not nil. -/
def value : Json → AccumulatorJSON → Option AccumulatorJSON
  | .null, s => write limit "null".toList s
  | .bool b, s => write limit (if b then "true".toList else "false".toList) s
  | .num t, s => write limit t.1 s
  | .str t, s => quoted limit t s
  | .arr l, s => (((charge wireOnly l.length s).bind (write limit ['['])).bind
      (values true l)).bind (write limit [']'])
  | .obj l, s => ((write limit ['\x7b'] s).bind (fields true l)).bind (write limit ['\x7d'])

def values : Bool → List Json → AccumulatorJSON → Option AccumulatorJSON
  | _, [], s => some s
  | first, j :: l, s => ((comma limit first s).bind (value j)).bind (values false l)

def fields : Bool → List (String × Json) → AccumulatorJSON → Option AccumulatorJSON
  | _, [], s => some s
  | first, (k, j) :: l, s => ((((comma limit first s).bind (quoted limit k)).bind
      (write limit [':'])).bind (value j)).bind (fields false l)

end

end AccumulatorJSON

/-- `memoryAccumulatorSize`; the hash sees `written`. -/
def memoryAccumulatorSize (j : Json) (limit : ℤ) : Option AccumulatorJSON :=
  match AccumulatorJSON.value limit false j {} with
  | none => none
  | some s => if accumulatorBudgetOK s.n s.entries limit = false then none else some s

/-! ### Equal fragments -/

/-- `accumulatorStringEqual` on valid UTF-8. -/
def accumulatorStringEqual (a b : String) : Bool := a = b

/-- `accumulatorStringListEqual`. -/
def accumulatorStringListEqual (a b : List String) : Bool :=
  a.length = b.length && (a.zip b).all fun p => accumulatorStringEqual p.1 p.2

/-- The claims loop of `accumulatorFragmentsEqual`, for one claim. -/
def accumulatorClaimsEqual (x y : MemoryClaim) : Bool :=
  accumulatorStringEqual x.kind y.kind && accumulatorStringEqual x.text y.text &&
    match x.code, y.code with
    | none, none => true
    | some a, some b =>
        accumulatorStringEqual a.commit b.commit && accumulatorStringEqual a.parent b.parent &&
          (a.paths.isNone == b.paths.isNone) &&
          accumulatorStringListEqual a.paths.list b.paths.list
    | _, _ => false

/-- `accumulatorFragmentsEqual`. -/
def accumulatorFragmentsEqual (a b : MemoryFragment) : Bool :=
  accumulatorStringEqual a.sourceSnapshot b.sourceSnapshot &&
    accumulatorStringEqual a.summary b.summary &&
    (a.tasksAuthoritative == b.tasksAuthoritative) &&
    accumulatorStringListEqual a.keyFacts b.keyFacts &&
    accumulatorStringListEqual a.openTasks b.openTasks &&
    (a.claims.length = b.claims.length && (a.claims.zip b.claims).all fun p =>
      accumulatorClaimsEqual p.1 p.2)

/-! ### The accumulator -/

/-- `MemoryAccumulator`. -/
structure MemoryAccumulator (c : MemoryCodec) where
  maxBytes : ℤ
  single : Option MemoryDigest := none
  started : Bool := false
  latest : MemoryDigest := {}
  fragments : List MemoryFragment := []
  index : c.Sum → List ℕ := fun _ => []
  fragmentBytes : ℤ := 0
  fragmentEntries : ℤ := 0

/-- `NewMemoryAccumulator`. -/
def newMemoryAccumulator (c : MemoryCodec) (maxBytes : ℤ) : MemoryAccumulator c :=
  { maxBytes := maxBytes }

/-- The variables that an addition stages. -/
structure Staging (c : MemoryCodec) where
  used : ℤ
  entries : ℤ
  added : List MemoryFragment := []
  staged : c.Sum → List ℕ := fun _ => []

/-- A position of a list whose fragment equals `f`. -/
def equalAt (l : List MemoryFragment) (f : MemoryFragment) (i : ℕ) : Bool :=
  match l[i]? with
  | none => false
  | some g => accumulatorFragmentsEqual g f

/-- `accumulatorHasFragments`. -/
def accumulatorHasFragments (d : MemoryDigest) : Bool :=
  decide (d.fragments ≠ []) || (decide (d.snapshotID ≠ "") &&
    (decide (d.summary ≠ "") || decide (d.keyFacts.list ≠ []) || decide (d.openTasks.list ≠ [])))

/-- The loop of `accumulatorStrings`. -/
def accumulatorStringsFrom (limit : ℤ) (used : ℤ) (seen : List String) :
    List String → Option (List String)
  | [] => some seen
  | s :: rest =>
      if s = "" ∨ s ∈ seen then accumulatorStringsFrom limit used seen rest
      else match memoryAccumulatorSize (.str s) limit with
        | none => none
        | some size =>
            if size.n > limit - used ∨
                accumulatorBudgetOK (used + size.n) (seen.length + 1) limit = false then none
            else accumulatorStringsFrom limit (used + size.n) (seen ++ [s]) rest

/-- `accumulatorStrings`. -/
def accumulatorStrings (limit : ℤ) (groups : List (List String)) : Option (List String) :=
  accumulatorStringsFrom limit 0 [] groups.flatten

/-- The summary of `accumulatorLegacy`. -/
def accumulatorLegacySummary (c : MemoryCodec) (limit : ℤ) (prior fresh : String) :
    Option String :=
  if byteLength fresh.toList > limit then none
  else if prior ≠ "" ∧ prior ≠ fresh ∧ containsText (c.lower fresh) (c.lower prior) = false then
    if fresh = "" then some prior
    else if limit < 2 ∨ byteLength prior.toList > limit - 2 - byteLength fresh.toList then none
    else some (prior ++ "\n\n" ++ fresh)
  else some fresh

/-- `accumulatorLegacy`. -/
def accumulatorLegacy (c : MemoryCodec) (prior fresh : MemoryDigest) (limit : ℤ) :
    Option MemoryDigest :=
  match accumulatorLegacySummary c limit prior.summary fresh.summary,
    accumulatorStrings limit [prior.keyFacts.list, fresh.keyFacts.list],
    accumulatorStrings limit (if fresh.tasksAuthoritative then [fresh.openTasks.list]
      else [prior.openTasks.list, fresh.openTasks.list]) with
  | some summary, some facts, some tasks =>
      some { fresh with summary := summary, keyFacts := Slice.grown facts
                        openTasks := Slice.grown tasks }
  | _, _, _ => none

namespace MemoryAccumulator

variable {c : MemoryCodec}

/-- One fragment of the `addFragments` closure of `Add`. -/
def addFragment (a : MemoryAccumulator c) (s : Staging c) (f : MemoryFragment) :
    Option (Staging c) :=
  if f.sourceSnapshot = "" then some s
  else match memoryAccumulatorSize f.json a.maxBytes with
    | none => none
    | some size =>
        let key := c.sha256 size.written
        if (a.index key).any (equalAt a.fragments f) || (s.staged key).any (equalAt s.added f) then
          some s
        else
          let count := size.entries + 1
          if size.n > a.maxBytes - s.used ∨
              accumulatorBudgetOK (s.used + size.n) (s.entries + count) a.maxBytes = false then none
          else some { used := s.used + size.n, entries := s.entries + count
                      added := s.added ++ [f]
                      staged := Function.update s.staged key (s.staged key ++ [s.added.length]) }

/-- The `addFragments` closure of `Add`. -/
def addFragments (a : MemoryAccumulator c) (s : Staging c) (d : MemoryDigest) :
    Option (Staging c) :=
  (if d.fragments = [] then memoryFragments d else d.fragments).foldlM a.addFragment s

/-- The digest so far: the first one, or what is left of the later ones. -/
def prior (a : MemoryAccumulator c) : MemoryDigest := a.single.getD a.latest

/-- The metadata that `Add` retains when the digest is rendered from fragments. -/
def metadata (prior d : MemoryDigest) : MemoryDigest :=
  { d with summary := "", keyFacts := none, openTasks := none, fragments := []
           claimsVersion := max prior.claimsVersion d.claimsVersion }

/-- The `latest` of `Add`. -/
def nextLatest (a : MemoryAccumulator c) (s : Staging c) (d : MemoryDigest) :
    Option MemoryDigest :=
  let priorAttributed := decide (a.fragments ≠ []) || accumulatorHasFragments a.prior
  if a.fragments.length + s.added.length = 0 ∧ priorAttributed = false ∧
      accumulatorHasFragments d = false then
    (accumulatorLegacy c a.prior d a.maxBytes).map fun out =>
      { out with claimsVersion := max a.prior.claimsVersion out.claimsVersion }
  else some (metadata a.prior d)

/-- The fragments of the prior digest are staged unless they are retained already. -/
def stagePrior (a : MemoryAccumulator c) : Option (Staging c) :=
  let s : Staging c := { used := a.fragmentBytes, entries := a.fragmentEntries }
  if a.single.isSome ∨ a.fragments = [] then a.addFragments s a.prior else some s

/-- The last part of `Add`: check the budget and retain what was staged. -/
def retain (a : MemoryAccumulator c) (s : Staging c) (latest : MemoryDigest) :
    Option (MemoryAccumulator c) :=
  match memoryAccumulatorSize latest.json a.maxBytes with
  | none => none
  | some size =>
      if size.n > a.maxBytes - s.used ∨
          accumulatorBudgetOK (s.used + size.n) (s.entries + size.entries) a.maxBytes = false then
        none
      else some
        { a with
          single := none, latest := latest, fragments := a.fragments ++ s.added
          index := fun key => a.index key ++ (s.staged key).map (a.fragments.length + ·)
          fragmentBytes := s.used, fragmentEntries := s.entries }

/-- `MemoryAccumulator.Add`. -/
def add (a : MemoryAccumulator c) (d : MemoryDigest) : Option (MemoryAccumulator c) :=
  if a.started = false then
    match memoryAccumulatorSize d.json a.maxBytes with
    | none => none
    | some _ => some { a with single := some d, started := true }
  else do
    let s ← a.stagePrior
    let s ← a.addFragments s d
    let latest ← a.nextLatest s d
    a.retain s latest

/-- `MemoryAccumulator.Reset`. -/
def reset (a : MemoryAccumulator c) (d : MemoryDigest) : Option (MemoryAccumulator c) :=
  (newMemoryAccumulator c a.maxBytes).add d

/-- The digest that `Digest` renders. -/
def rendered (a : MemoryAccumulator c) : MemoryDigest :=
  match a.single with
  | some d => d
  | none =>
      if a.started = false then {}
      else if a.fragments = [] then a.latest
      else renderMemoryFragments ({ a.latest with fragments := a.fragments }).withClaims

/-- `MemoryAccumulator.Digest`. -/
def digest (a : MemoryAccumulator c) : Option MemoryDigest :=
  match AccumulatorJSON.value a.maxBytes true a.rendered.json {} with
  | none => none
  | some _ => some a.rendered

/-- The calls of `Add` for a sequence of digests. -/
def addAll (a : MemoryAccumulator c) (digests : List MemoryDigest) :
    Option (MemoryAccumulator c) :=
  digests.foldlM add a

end MemoryAccumulator

/-! ### What the helpers compute -/

/-- Equal length and equal items, by a comparison that decides equality. -/
theorem all_zip_iff {α : Type} {e : α → α → Bool} (he : ∀ x y, e x y = true ↔ x = y)
    (a b : List α) :
    (decide (a.length = b.length) && (a.zip b).all fun p => e p.1 p.2) = true ↔ a = b := by
  induction a generalizing b with
  | nil => cases b <;> simp
  | cons x a ih =>
      cases b with
      | nil => simp
      | cons y b =>
          have hrest := ih b
          simp only [Bool.and_eq_true, decide_eq_true_eq] at hrest
          simp only [List.length_cons, List.zip_cons_cons, List.all_cons, Bool.and_eq_true,
            decide_eq_true_eq, he, List.cons.injEq, Nat.add_right_cancel_iff, ← hrest]
          tauto

/-- The comparison of lists of strings decides equality. -/
theorem accumulatorStringListEqual_iff (a b : List String) :
    accumulatorStringListEqual a b = true ↔ a = b :=
  all_zip_iff (fun _ _ => decide_eq_true_iff) a b

/-- Slices with equal items that are both `nil` or both not. -/
theorem eq_of_list_eq {α : Type} {a b : Slice α} (hnil : a.isNone = b.isNone)
    (hlist : a.list = b.list) : a = b := by
  cases a <;> cases b
  · rfl
  · cases hnil
  · cases hnil
  · exact congrArg some hlist

/-- The comparison of claims decides equality. -/
theorem accumulatorClaimsEqual_iff (x y : MemoryClaim) :
    accumulatorClaimsEqual x y = true ↔ x = y := by
  rcases x with ⟨kind, text, _ | ⟨commit, parent, paths⟩⟩ <;>
    rcases y with ⟨kind', text', _ | ⟨commit', parent', paths'⟩⟩ <;>
    simp only [accumulatorClaimsEqual, accumulatorStringEqual, accumulatorStringListEqual_iff,
      Bool.and_eq_true, decide_eq_true_eq, beq_iff_eq, MemoryClaim.mk.injEq, reduceCtorEq,
      Option.some.injEq, MemoryCodeScope.mk.injEq, and_true, and_false, Bool.false_eq_true]
  constructor
  · rintro ⟨⟨hkind, htext⟩, ⟨⟨hcommit, hparent⟩, hnil⟩, hpaths⟩
    exact ⟨hkind, htext, hcommit, hparent, eq_of_list_eq hnil hpaths⟩
  · rintro ⟨hkind, htext, hcommit, hparent, rfl⟩
    exact ⟨⟨hkind, htext⟩, ⟨⟨hcommit, hparent⟩, rfl⟩, rfl⟩

/-- The comparison of fragments decides equality. -/
theorem accumulatorFragmentsEqual_iff (a b : MemoryFragment) :
    accumulatorFragmentsEqual a b = true ↔ a = b := by
  have hclaims := all_zip_iff accumulatorClaimsEqual_iff a.claims b.claims
  rcases a with ⟨source, summary, facts, tasks, auth, claims⟩
  rcases b with ⟨source', summary', facts', tasks', auth', claims'⟩
  simp only [accumulatorFragmentsEqual, Bool.and_eq_true, hclaims, accumulatorStringEqual,
    accumulatorStringListEqual_iff, decide_eq_true_eq, beq_iff_eq, MemoryFragment.mk.injEq]
  tauto

/-- The test for fragments sees whether there are any. -/
theorem accumulatorHasFragments_iff (d : MemoryDigest) :
    accumulatorHasFragments d = true ↔ memoryFragments d ≠ [] := by
  unfold accumulatorHasFragments memoryFragments
  by_cases hf : d.fragments = []
  · by_cases hid : d.snapshotID = ""
    · simp [hf, hid]
    · simp [hf, hid]
      tauto
  · simp [hf]

/-- Within the limit the loop keeps the first of each string that is not empty. -/
theorem accumulatorStringsFrom_eq {limit used : ℤ} {seen l out : List String}
    (h : accumulatorStringsFrom limit used seen l = some out) :
    out = seen ++ freshFrom ("" :: seen) l := by
  induction l generalizing used seen with
  | nil =>
      cases h
      exact (List.append_nil _).symm
  | cons s l ih =>
      rw [accumulatorStringsFrom] at h
      rw [freshFrom]
      by_cases hs : s = "" ∨ s ∈ seen
      · rw [if_pos hs] at h
        rw [if_pos (List.mem_cons.2 hs), ih h]
      · rw [if_neg hs] at h
        rw [if_neg (mt List.mem_cons.1 hs)]
        split at h
        · cases h
        · split_ifs at h
          rw [ih h, List.append_assoc, List.singleton_append]
          congr 2
          exact freshFrom_congr (fun x => by simp only [List.mem_cons, List.mem_append]; tauto) l

/-- Within the limit the result is that of `dedupStrings`. -/
theorem accumulatorStrings_eq {limit : ℤ} {groups : List (List String)} {out : List String}
    (h : accumulatorStrings limit groups = some out) : out = dedupStrings groups := by
  rw [accumulatorStringsFrom_eq h, List.nil_append, dedupStrings]

variable {c : MemoryCodec}

/-- Within the limit the result is that of `mergeLegacySummary`. -/
theorem accumulatorLegacySummary_eq {limit : ℤ} {prior fresh out : String}
    (h : accumulatorLegacySummary c limit prior fresh = some out) :
    out = mergeLegacySummary c prior fresh := by
  unfold accumulatorLegacySummary at h
  unfold mergeLegacySummary
  split_ifs at h ⊢ <;> exact (Option.some.inj h).symm

/-- Within the limit the result is that of `mergeLegacyDigests`. -/
theorem accumulatorLegacy_eq {limit : ℤ} {prior fresh out : MemoryDigest}
    (h : accumulatorLegacy c prior fresh limit = some out) :
    out = mergeLegacyDigests c prior fresh := by
  unfold accumulatorLegacy at h
  split at h
  · next summary facts tasks hsummary hfacts htasks =>
      cases h
      rw [mergeLegacyDigests, accumulatorLegacySummary_eq hsummary, accumulatorStrings_eq hfacts,
        accumulatorStrings_eq htasks]
      split_ifs <;> rfl
  · cases h

/-! ### The index -/

/-- Every position is listed under the hash of its fragment. -/
def Indexed (c : MemoryCodec) (limit : ℤ) (l : List MemoryFragment) (index : c.Sum → List ℕ) :
    Prop :=
  ∀ i f, l[i]? = some f →
    ∃ size, memoryAccumulatorSize f.json limit = some size ∧ i ∈ index (c.sha256 size.written)

/-- The comparison at a position. -/
theorem equalAt_iff {i : ℕ} :
    equalAt l f i = true ↔ l[i]? = some f := by
  unfold equalAt
  cases l[i]? with
  | none => simp
  | some g => rw [Option.some.injEq]; exact accumulatorFragmentsEqual_iff g f

/-- The index finds a fragment if it is there. -/
theorem any_equalAt_iff {limit : ℤ} {index : c.Sum → List ℕ}
    {size : AccumulatorJSON} (h : Indexed c limit l index)
    (hsize : memoryAccumulatorSize f.json limit = some size) :
    (index (c.sha256 size.written)).any (equalAt l f) = true ↔ f ∈ l := by
  rw [List.any_eq_true]
  constructor
  · rintro ⟨i, -, hi⟩
    exact List.mem_of_getElem? (equalAt_iff.1 hi)
  · intro hf
    obtain ⟨i, hi⟩ := List.getElem?_of_mem hf
    obtain ⟨size', hsize', hmem⟩ := h i f hi
    cases hsize.symm.trans hsize'
    exact ⟨i, hmem, equalAt_iff.2 hi⟩

/-- The index after one more fragment. -/
theorem Indexed.concat {limit : ℤ} {index : c.Sum → List ℕ}
    {size : AccumulatorJSON} (h : Indexed c limit l index)
    (hsize : memoryAccumulatorSize f.json limit = some size) :
    Indexed c limit (l ++ [f]) (Function.update index (c.sha256 size.written)
      (index (c.sha256 size.written) ++ [l.length])) := by
  have hgrows : ∀ key i, i ∈ index key → i ∈ Function.update index (c.sha256 size.written)
      (index (c.sha256 size.written) ++ [l.length]) key := by
    intro key i hi
    by_cases hkey : key = c.sha256 size.written
    · subst hkey
      rw [Function.update_self]
      exact List.mem_append_left _ hi
    · rwa [Function.update_of_ne hkey]
  intro i g hg
  by_cases hi : i < l.length
  · rw [List.getElem?_append_left hi] at hg
    obtain ⟨size', hsize', hmem⟩ := h i g hg
    exact ⟨size', hsize', hgrows _ i hmem⟩
  · have hlt := (List.getElem?_eq_some_iff.1 hg).1
    obtain rfl : i = l.length := by
      rw [List.length_append, List.length_singleton] at hlt
      omega
    rw [List.getElem?_concat_length] at hg
    cases hg
    exact ⟨size, hsize, by rw [Function.update_self]; simp⟩

/-- The staged index, shifted, extends the index. -/
theorem Indexed.append {limit : ℤ} {l' : List MemoryFragment} {index staged : c.Sum → List ℕ}
    (h : Indexed c limit l index) (h' : Indexed c limit l' staged) :
    Indexed c limit (l ++ l') fun key => index key ++ (staged key).map (l.length + ·) := by
  intro i f hf
  by_cases hi : i < l.length
  · rw [List.getElem?_append_left hi] at hf
    obtain ⟨size, hsize, hmem⟩ := h i f hf
    exact ⟨size, hsize, List.mem_append_left _ hmem⟩
  · rw [List.getElem?_append_right (by omega)] at hf
    obtain ⟨size, hsize, hmem⟩ := h' _ f hf
    refine ⟨size, hsize, List.mem_append_right _ (List.mem_map.2 ⟨_, hmem, ?_⟩)⟩
    omega

namespace MemoryAccumulator

variable {a : MemoryAccumulator c}

/-! ### Staging -/

section

variable (hindex : Indexed c a.maxBytes a.fragments a.index)

include hindex

/-- A fragment is staged once, unless it is there already. -/
theorem addFragment_eq {s t : Staging c}
    (hstaged : Indexed c a.maxBytes s.added s.staged) (h : a.addFragment s f = some t) :
    Indexed c a.maxBytes t.added t.staged ∧
      t.added = s.added ++ freshFrom (a.fragments ++ s.added) (sourced [f]) := by
  unfold addFragment at h
  by_cases hsource : f.sourceSnapshot = ""
  · rw [if_pos hsource] at h
    cases h
    refine ⟨hstaged, ?_⟩
    rw [show sourced [f] = [] from List.filter_cons_of_neg (by simp [hsource])]
    exact (List.append_nil _).symm
  · have hsourced : sourced [f] = [f] := List.filter_cons_of_pos (by simp [hsource])
    rw [if_neg hsource] at h
    split at h
    · cases h
    · next size hsize =>
        simp only [Bool.or_eq_true, any_equalAt_iff hindex hsize,
          any_equalAt_iff hstaged hsize, ← List.mem_append] at h
        rw [hsourced]
        split_ifs at h with hmem
        · cases h
          exact ⟨hstaged, by simp [freshFrom, hmem]⟩
        · cases h
          exact ⟨hstaged.concat hsize, by simp [freshFrom, hmem]⟩

/-- **Staging adds the sourced fragments that are not there yet, each once.** -/
theorem addAllFragments_eq {s t : Staging c}
    (hstaged : Indexed c a.maxBytes s.added s.staged) (h : l.foldlM a.addFragment s = some t) :
    Indexed c a.maxBytes t.added t.staged ∧
      t.added = s.added ++ freshFrom (a.fragments ++ s.added) (sourced l) := by
  induction l generalizing s with
  | nil =>
      cases h
      exact ⟨hstaged, (List.append_nil _).symm⟩
  | cons f l ih =>
      rw [List.foldlM_cons] at h
      obtain ⟨u, hu, h⟩ := Option.bind_eq_some_iff.1 h
      obtain ⟨hustaged, huadded⟩ := addFragment_eq hindex hstaged hu
      obtain ⟨htstaged, htadded⟩ := ih hustaged h
      refine ⟨htstaged, ?_⟩
      have hsplit : sourced (f :: l) = sourced [f] ++ sourced l := sourced_append [f] l
      rw [htadded, huadded, List.append_assoc, hsplit, freshFrom_append]
      congr 2
      exact freshFrom_congr (fun x => by
        simp only [List.mem_append, mem_freshFrom]
        tauto) _

/-- The fragments of a digest are staged once each. -/
theorem addFragments_eq {s t : Staging c} {d : MemoryDigest}
    (hstaged : Indexed c a.maxBytes s.added s.staged) (h : a.addFragments s d = some t) :
    Indexed c a.maxBytes t.added t.staged ∧
      t.added = s.added ++ freshFrom (a.fragments ++ s.added) (sourced (memoryFragments d)) := by
  have hfragments : (if d.fragments = [] then memoryFragments d else d.fragments) =
      memoryFragments d := by
    by_cases hd : d.fragments = []
    · rw [if_pos hd]
    · rw [if_neg hd, memoryFragments, if_pos hd]
  rw [addFragments, hfragments] at h
  exact addAllFragments_eq hindex hstaged h

end

/-! ### The accumulator and the pairwise merge -/

/-- The accumulator stands for the digest `r`. -/
structure Represents (a : MemoryAccumulator c) (r : MemoryDigest) : Prop where
  started : a.started = true
  indexed : Indexed c a.maxBytes a.fragments a.index
  union : ∃ groups, a.fragments = mergeMemoryFragments groups
  single : ∀ d, a.single = some d → d = r ∧ a.fragments = []
  later : a.single = none →
    r = if a.fragments = [] then a.latest else attributed a.latest a.fragments

namespace Represents

variable {r d : MemoryDigest} (h : a.Represents r)

include h

/-- What is rendered is the digest that is represented. -/
theorem rendered_eq : a.rendered = r := by
  unfold rendered
  cases hsingle : a.single with
  | some d => exact (h.single d hsingle).1
  | none =>
      rw [h.later hsingle, h.started]
      rfl

/-- Without retained fragments the prior digest is the represented one. -/
theorem prior_eq (hnone : a.fragments = []) : a.prior = r := by
  unfold prior
  cases hsingle : a.single with
  | some d => exact (h.single d hsingle).1
  | none => rw [h.later hsingle, if_pos hnone]; rfl

/-- With retained fragments the represented digest is rendered from them. -/
theorem eq_attributed (hsome : a.fragments ≠ []) :
    a.single = none ∧ a.prior = a.latest ∧ r = attributed a.latest a.fragments := by
  cases hsingle : a.single with
  | some d => exact absurd (h.single d hsingle).2 hsome
  | none => exact ⟨rfl, by rw [prior, hsingle]; rfl, by rw [h.later hsingle, if_neg hsome]⟩

/-- The prior digest is staged or retained: its union is complete. -/
theorem stagePrior_eq {s : Staging c} (hs : a.stagePrior = some s) :
    Indexed c a.maxBytes s.added s.staged ∧
      a.fragments ++ s.added = mergeMemoryFragments [memoryFragments r] := by
  have hempty : Indexed c a.maxBytes [] fun _ => [] := fun i f hf => by simp at hf
  unfold stagePrior at hs
  by_cases hnone : a.fragments = []
  · rw [if_pos (Or.inr hnone), h.prior_eq hnone] at hs
    obtain ⟨hstaged, hadded⟩ := addFragments_eq h.indexed hempty hs
    refine ⟨hstaged, ?_⟩
    rw [hadded, hnone, mergeMemoryFragments_eq]
    simp
  · obtain ⟨hsingle, -, hr⟩ := h.eq_attributed hnone
    rw [if_neg (by simp [hsingle, hnone])] at hs
    cases hs
    obtain ⟨groups, hgroups⟩ := h.union
    refine ⟨hempty, ?_⟩
    rw [hr, memoryFragments_attributed, List.append_nil, hgroups, mergeMemoryFragments_eq,
      mergeMemoryFragments_eq, List.flatten_singleton, sourced_freshFrom, freshFrom_freshFrom]

/-- With the staged fragments the accumulator has those of the merge. -/
theorem staged_eq {s t : Staging c} (hs : a.stagePrior = some s)
    (ht : a.addFragments s d = some t) :
    Indexed c a.maxBytes t.added t.staged ∧
      a.fragments ++ t.added = mergeMemoryFragments [memoryFragments r, memoryFragments d] := by
  obtain ⟨hstaged, hunion⟩ := h.stagePrior_eq hs
  obtain ⟨hstaged', hadded⟩ := addFragments_eq h.indexed hstaged ht
  refine ⟨hstaged', ?_⟩
  rw [hadded, ← List.append_assoc, hunion]
  simp only [mergeMemoryFragments_eq, List.flatten_cons, List.flatten_nil, List.append_nil,
    sourced_append, freshFrom_append, List.nil_append]
  congr 1
  exact freshFrom_congr (fun x => by simp) _

/-- The opaque branch is taken when neither digest has a fragment. -/
theorem legacy_iff {t : Staging c}
    (ht : a.fragments ++ t.added =
      mergeMemoryFragments [memoryFragments r, memoryFragments d]) :
    (a.fragments.length + t.added.length = 0 ∧
        (decide (a.fragments ≠ []) || accumulatorHasFragments a.prior) = false ∧
        accumulatorHasFragments d = false) ↔
      memoryFragments r = [] ∧ memoryFragments d = [] := by
  have hhas : ∀ e, accumulatorHasFragments e = false ↔ memoryFragments e = [] := fun e => by
    rw [← Bool.not_eq_true, accumulatorHasFragments_iff, not_not]
  rw [hhas, Bool.or_eq_false_iff, decide_eq_false_iff_not, not_not, hhas]
  constructor
  · rintro ⟨-, ⟨hnone, hprior⟩, hd⟩
    rw [h.prior_eq hnone] at hprior
    exact ⟨hprior, hd⟩
  · rintro ⟨hr, hd⟩
    have hnone : a.fragments = [] := by
      by_contra hsome
      obtain ⟨-, -, hattributed⟩ := h.eq_attributed hsome
      rw [hattributed, memoryFragments_attributed] at hr
      exact hsome hr
    rw [hr, hd] at ht
    refine ⟨?_, ⟨hnone, by rw [h.prior_eq hnone, hr]⟩, hd⟩
    rw [← List.length_append, ht]
    rfl

/-- The metadata that is retained renders to the pairwise merge. -/
theorem attributed_metadata
    (hl : a.fragments ⊆ l) :
    attributed { d with claimsVersion := max r.claimsVersion d.claimsVersion } l =
      attributed (metadata a.prior d) l := by
  rw [attributed_eq, attributed_eq]
  by_cases hnone : a.fragments = []
  · rw [h.prior_eq hnone]
    rfl
  · obtain ⟨-, hprior, hr⟩ := h.eq_attributed hnone
    rw [hprior, hr, claimsVersion_attributed]
    simp only [metadata, claimed_max hl]

/-- **One addition is one merge.** -/
theorem add {b : MemoryAccumulator c} (hadd : a.add d = some b) :
    b.Represents (mergeDigests c r d) := by
  rw [MemoryAccumulator.add, if_neg (by simp [h.started])] at hadd
  obtain ⟨s, hs, hadd⟩ := Option.bind_eq_some_iff.1 hadd
  obtain ⟨t, ht, hadd⟩ := Option.bind_eq_some_iff.1 hadd
  obtain ⟨latest, hlatest, hadd⟩ := Option.bind_eq_some_iff.1 hadd
  obtain ⟨hstaged, hunion⟩ := h.staged_eq hs ht
  unfold retain at hadd
  split at hadd
  · cases hadd
  split_ifs at hadd
  cases hadd
  refine ⟨h.started, h.indexed.append hstaged, ⟨_, hunion⟩, nofun, fun _ => ?_⟩
  simp only [hunion]
  unfold nextLatest at hlatest
  simp only [h.legacy_iff hunion] at hlatest
  by_cases hplain : memoryFragments r = [] ∧ memoryFragments d = []
  · rw [if_pos hplain] at hlatest
    obtain ⟨out, hout, rfl⟩ := Option.map_eq_some_iff.1 hlatest
    have hnone : a.fragments = [] :=
      (List.append_eq_nil_iff.1 (hunion.trans (by rw [hplain.1, hplain.2]; rfl))).1
    rw [h.prior_eq hnone] at hout ⊢
    rw [accumulatorLegacy_eq hout, mergeDigests, if_pos hplain, hplain.1, hplain.2]
    rfl
  · rw [if_neg hplain] at hlatest
    cases hlatest
    have hsub : a.fragments ⊆ mergeMemoryFragments [memoryFragments r, memoryFragments d] :=
      fun f hf => hunion ▸ List.mem_append_left _ hf
    rw [mergeDigests_of_fragments (by tauto), h.attributed_metadata hsub]
    split_ifs with hempty
    · rw [hempty, attributed_nil]
      rfl
    · rfl

/-- A run of additions is the pairwise merge. -/
theorem addAll {ds : List MemoryDigest} {b : MemoryAccumulator c}
    (hadd : a.addAll ds = some b) : b.Represents (ds.foldl (mergeDigests c) r) := by
  induction ds generalizing a r with
  | nil =>
      cases hadd
      exact h
  | cons d ds ih =>
      rw [MemoryAccumulator.addAll, List.foldlM_cons] at hadd
      obtain ⟨a', ha', hadd⟩ := Option.bind_eq_some_iff.1 hadd
      exact ih (h.add ha') hadd

end Represents

/-- The first digest is represented as it is. -/
theorem represents_of_add_new {maxBytes : ℤ} {d : MemoryDigest} {b : MemoryAccumulator c}
    (h : (newMemoryAccumulator c maxBytes).add d = some b) : b.Represents d := by
  rw [add, if_pos (show (newMemoryAccumulator c maxBytes).started = false from rfl)] at h
  split at h
  · cases h
  · cases h
    exact ⟨rfl, fun i f hf => by simp [newMemoryAccumulator] at hf, ⟨[], rfl⟩,
      fun e he => ⟨(Option.some.inj he).symm, rfl⟩, nofun⟩

/-- What is returned is the digest that is represented. -/
theorem Represents.digest_eq {r out : MemoryDigest} (h : a.Represents r)
    (hout : a.digest = some out) : out = r := by
  unfold digest at hout
  split at hout
  · cases hout
  · rw [← Option.some.inj hout, h.rendered_eq]

/-- **The digest of a sequence is its merge**, and a reset starts a new sequence. -/
theorem digest_of_addAll (c : MemoryCodec) :
    (∀ maxBytes ds a out, (newMemoryAccumulator c maxBytes).addAll ds = some a →
      a.digest = some out → out = mergeDigestSequence c ds) ∧
    ∀ (a₀ : MemoryAccumulator c) r ds a₁ a out, a₀.reset r = some a₁ → a₁.addAll ds = some a →
      a.digest = some out → out = mergeDigestSequence c (r :: ds) := by
  constructor
  · intro maxBytes ds a out hadd hout
    cases ds with
    | nil =>
        cases hadd
        unfold digest at hout
        split at hout
        · cases hout
        · exact (Option.some.inj hout).symm
    | cons d ds =>
        rw [addAll, List.foldlM_cons] at hadd
        obtain ⟨a', ha', hadd⟩ := Option.bind_eq_some_iff.1 hadd
        rw [mergeDigestSequence_cons]
        exact ((represents_of_add_new ha').addAll hadd).digest_eq hout
  · intro a₀ r ds a₁ a out hreset hadd hout
    rw [mergeDigestSequence_cons]
    exact ((represents_of_add_new hreset).addAll hadd).digest_eq hout

/-- Text is compared as it is, and hashed by itself. -/
def plainCodec : MemoryCodec where
  lower := id
  Sum := List Char
  decSum := inferInstance
  sha256 := id

/-- An opaque text, a digest that synthesizes a fragment, one with a sourceless fragment, and
one with claims. -/
def mixedDigests : List MemoryDigest :=
  [{ summary := "prose" },
    { snapshotID := digitHash '1', summary := "one", keyFacts := some ["k"] },
    { snapshotID := digitHash '2', fragments := [{ sourceSnapshot := "", summary := "lost" }] },
    { snapshotID := digitHash '3', fragments :=
      [{ sourceSnapshot := digitHash '1', summary := "one", keyFacts := ["k"] },
        { sourceSnapshot := digitHash '3', claims := [{ kind := "decision", text := "t" }] }] }]

/-- Digests with and without fragments, and a reset. -/
theorem digest_of_addAll_mixed :
    ∃ a out b e out',
      (newMemoryAccumulator plainCodec 8192).addAll mixedDigests = some a ∧
        a.digest = some out ∧ out = mergeDigestSequence plainCodec mixedDigests ∧
        a.reset { summary := "new" } = some b ∧ b.addAll mixedDigests = some e ∧
        e.digest = some out' ∧
        out' = mergeDigestSequence plainCodec ({ summary := "new" } :: mixedDigests) := by
  have hrun : (((newMemoryAccumulator plainCodec 8192).addAll mixedDigests).bind fun a =>
      a.digest.bind fun _ => (a.reset { summary := "new" }).bind fun b =>
        (b.addAll mixedDigests).bind digest).isSome = true := by
    decide +kernel
  obtain ⟨out', hrun⟩ := Option.isSome_iff_exists.1 hrun
  obtain ⟨a, ha, hrun⟩ := Option.bind_eq_some_iff.1 hrun
  obtain ⟨out, hout, hrun⟩ := Option.bind_eq_some_iff.1 hrun
  obtain ⟨b, hb, hrun⟩ := Option.bind_eq_some_iff.1 hrun
  obtain ⟨e, he, hout'⟩ := Option.bind_eq_some_iff.1 hrun
  exact ⟨a, out, b, e, out', ha, hout, (digest_of_addAll plainCodec).1 _ _ a out ha hout, hb, he,
    hout', (digest_of_addAll plainCodec).2 a _ _ b e out' hb he hout'⟩

end MemoryAccumulator

end Backend
end CxtHub
