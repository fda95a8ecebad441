/-
# Provider summaries in a memory prompt

A provider that runs out of context writes a summary of the earlier conversation
and starts again from it, so a later summary often holds an earlier one word for
word.  `dropByteContainedProviderSummaries` blanks a fragment's summary when the
summary of another fragment contains it.  Summaries are blanked in place while the
scan goes on, and a fragment may be blanked because of one that is itself blanked
later.  Containment, with the position in the list as a tie-break, is a strict
order: a fragment is blanked exactly when another one is above it, and one that
nothing is above holds its text and stays.
-/

import CxtHub.Backend.Memory

namespace CxtHub
namespace Backend

def providerContinuationPrefix : String :=
  "This session is being continued from a previous conversation"

/-- What may follow the opening words on a continuation's first line. -/
def providerContinuationEndings : List String :=
  [".", " that ran out of context.",
    " that ran out of context. The summary below covers the earlier portion of the conversation."]

def isProviderContinuationHeader (line : String) : Bool :=
  hasPrefix line providerContinuationPrefix &&
    decide (trimPrefix line providerContinuationPrefix ∈ providerContinuationEndings)

def isCanonicalProviderContinuation (summary : String) : Bool :=
  isProviderContinuationHeader
    (trimSpace (String.ofList (summary.toList.takeWhile (· ≠ '\n'))))

/-- The trimmed summary of the fragment at an index. -/
def trimmedSummary (fragments : List MemoryFragment) (i : ℕ) : String :=
  match fragments[i]? with
  | some f => trimSpace f.summary
  | none => ""

/-- The test of the inner loop: whether the fragment at `j` makes the candidate at
`i` redundant. -/
def makesRedundant (fragments : List MemoryFragment) (candidate : String) (i j : ℕ) : Bool :=
  let other := trimmedSummary fragments j
  if i = j then false
  else if other.utf8ByteSize < candidate.utf8ByteSize || !isCanonicalProviderContinuation other then
    false
  else
    containsText other candidate &&
      (decide (candidate.utf8ByteSize < other.utf8ByteSize) || decide (i < j))

/-- When one summary makes another redundant. -/
theorem makesRedundant_eq_true {fragments : List MemoryFragment} {candidate : String} {i j : ℕ} :
    makesRedundant fragments candidate i j = true ↔
      i ≠ j ∧ isCanonicalProviderContinuation (trimmedSummary fragments j) = true ∧
        containsText (trimmedSummary fragments j) candidate = true ∧
        (candidate.utf8ByteSize < (trimmedSummary fragments j).utf8ByteSize ∨ i < j) := by
  have hlen := @utf8ByteSize_le_of_containsText (trimmedSummary fragments j) candidate
  simp only [makesRedundant]
  split_ifs with hij hskip
  · simp [hij]
  · simp only [Bool.or_eq_true, decide_eq_true_eq, Bool.not_eq_true'] at hskip
    refine iff_of_false (by decide) fun ⟨_, hcanonical, hcontains, _⟩ => ?_
    rcases hskip with hshort | hother
    · exact absurd (hlen hcontains) (not_le.2 hshort)
    · exact absurd hcanonical (by rw [hother]; decide)
  · simp only [Bool.or_eq_true, decide_eq_true_eq, Bool.not_eq_true', not_or,
      Bool.not_eq_false] at hskip
    simp only [Bool.and_eq_true, Bool.or_eq_true, decide_eq_true_eq]
    exact ⟨fun h => ⟨hij, hskip.2, h.1, h.2⟩, fun h => ⟨h.2.2.1, h.2.2.2⟩⟩

/-- One turn of the outer loop. -/
def dropContainedAt (fragments : List MemoryFragment) (i : ℕ) : List MemoryFragment :=
  let candidate := trimmedSummary fragments i
  if candidate = "" || !isCanonicalProviderContinuation candidate then fragments
  else if (List.range fragments.length).any (makesRedundant fragments candidate i) then
    fragments.modify i fun f => { f with summary := "" }
  else fragments

def dropByteContainedProviderSummaries (fragments : List MemoryFragment) : List MemoryFragment :=
  (List.range fragments.length).foldl dropContainedAt fragments

/-! ## The order of containment -/

/-- The empty text is no continuation. -/
theorem isCanonicalProviderContinuation_empty : isCanonicalProviderContinuation "" = false := by
  decide +kernel

/-- The fragment at `j` holds the summary of the fragment at `i`, and is longer or
comes later. -/
structure Above (fragments : List MemoryFragment) (i j : ℕ) : Prop where
  candidate : isCanonicalProviderContinuation (trimmedSummary fragments i) = true
  other : isCanonicalProviderContinuation (trimmedSummary fragments j) = true
  contains : containsText (trimmedSummary fragments j) (trimmedSummary fragments i) = true
  later : (trimmedSummary fragments i).utf8ByteSize < (trimmedSummary fragments j).utf8ByteSize ∨
    i < j

section Above

variable {fragments : List MemoryFragment} {i j k : ℕ}

/-- There is no canonical continuation beyond the end. -/
theorem lt_length_of_canonical
    (h : isCanonicalProviderContinuation (trimmedSummary fragments i) = true) :
    i < fragments.length := by
  by_contra hge
  have hnone : fragments[i]? = none := List.getElem?_eq_none (not_lt.1 hge)
  simp only [trimmedSummary, hnone, isCanonicalProviderContinuation_empty] at h
  exact absurd h (by decide)

/-- No summary is above itself. -/
theorem Above.irrefl : ¬ Above fragments i i := fun h => by
  have := h.later
  omega

/-- Containment of summaries is transitive, so a dropped one is under a kept one. -/
theorem Above.trans (hij : Above fragments i j) (hjk : Above fragments j k) :
    Above fragments i k := by
  refine ⟨hij.candidate, hjk.other, containsText_trans hij.contains hjk.contains, ?_⟩
  have h1 := utf8ByteSize_le_of_containsText hij.contains
  have h2 := utf8ByteSize_le_of_containsText hjk.contains
  have h3 := hij.later
  have h4 := hjk.later
  omega

/-- Below a fragment that has something above it there is one that has nothing above
it: going up, the pair of length and index grows. -/
theorem Above.exists_maximal (h : Above fragments i j) :
    ∃ m, Above fragments i m ∧ ∀ n, ¬ Above fragments m n := by
  let rel : Fin fragments.length → Fin fragments.length → Prop :=
    fun a b => Above fragments b a
  have htrans : IsTrans _ rel := ⟨fun _ _ _ hab hbc => hbc.trans hab⟩
  have hirrefl : Std.Irrefl rel := ⟨fun _ => Above.irrefl⟩
  have hwf : WellFounded rel := Finite.wellFounded_of_trans_of_irrefl rel
  obtain ⟨m, hm, hmax⟩ := hwf.has_min {m | Above fragments i m}
    ⟨⟨j, lt_length_of_canonical h.other⟩, h⟩
  refine ⟨m, hm, fun n hn => ?_⟩
  exact hmax ⟨n, lt_length_of_canonical hn.other⟩ (hm.trans hn) hn

end Above

/-! ## The scan -/

/-- The fragment with its summary taken out. -/
def MemoryFragment.blank (f : MemoryFragment) : MemoryFragment := { f with summary := "" }

open Classical in
/-- The list once the scan has passed the first `k` fragments. -/
noncomputable def passed (fragments : List MemoryFragment) (k : ℕ) : List MemoryFragment :=
  fragments.mapIdx fun i f => if i < k ∧ ∃ j, Above fragments i j then f.blank else f

section Scan

variable {fragments : List MemoryFragment} {i k : ℕ}

theorem length_passed : (passed fragments k).length = fragments.length :=
  List.length_mapIdx

/-- A summary under another is blank once it was passed. -/
theorem getElem?_passed_of_above (hi : i < k) (h : ∃ j, Above fragments i j) :
    (passed fragments k)[i]? = fragments[i]?.map MemoryFragment.blank := by
  simp only [passed, List.getElem?_mapIdx, hi, h, and_self, if_true]

/-- A maximal one stays. -/
theorem getElem?_passed_of_maximal (h : ¬ (i < k ∧ ∃ j, Above fragments i j)) :
    (passed fragments k)[i]? = fragments[i]? := by
  simp only [passed, List.getElem?_mapIdx, h, if_false, Option.map_id']

theorem passed_zero : passed fragments 0 = fragments := by
  refine List.ext_getElem? fun i => getElem?_passed_of_maximal ?_
  omega

/-- A passed summary with one above it is blank. -/
theorem trimmedSummary_passed_of_above (hi : i < k) (h : ∃ j, Above fragments i j) :
    trimmedSummary (passed fragments k) i = "" := by
  have htrim : trimSpace "" = "" := by decide
  rw [trimmedSummary, getElem?_passed_of_above hi h]
  cases fragments[i]? with
  | none => rfl
  | some f => exact htrim

/-- Every other summary is as it was. -/
theorem trimmedSummary_passed_of_maximal (h : ¬ (i < k ∧ ∃ j, Above fragments i j)) :
    trimmedSummary (passed fragments k) i = trimmedSummary fragments i := by
  rw [trimmedSummary, getElem?_passed_of_maximal h, trimmedSummary]

/-- The inner loop finds a fragment exactly when one is above the candidate, although
it sees only those that are not blanked yet. -/
theorem any_makesRedundant
    (hk : isCanonicalProviderContinuation (trimmedSummary fragments k) = true) :
    (List.range fragments.length).any
        (makesRedundant (passed fragments k) (trimmedSummary fragments k) k) = true ↔
      ∃ j, Above fragments k j := by
  simp only [List.any_eq_true, List.mem_range, makesRedundant_eq_true]
  constructor
  · rintro ⟨j, -, -, hother, hcontains, hlater⟩
    by_cases hblank : j < k ∧ ∃ n, Above fragments j n
    · rw [trimmedSummary_passed_of_above hblank.1 hblank.2,
        isCanonicalProviderContinuation_empty] at hother
      exact absurd hother (by decide)
    · rw [trimmedSummary_passed_of_maximal hblank] at hother hcontains hlater
      exact ⟨j, hk, hother, hcontains, hlater⟩
  · rintro ⟨j, hj⟩
    -- the fragment at `j` may be blanked by now, one that nothing is above is not
    obtain ⟨m, hm, hmax⟩ := hj.exists_maximal
    have hne : k ≠ m := by
      rintro rfl
      exact hm.irrefl
    refine ⟨m, lt_length_of_canonical hm.other, hne, ?_⟩
    rw [trimmedSummary_passed_of_maximal fun h => h.2.elim hmax]
    exact ⟨hm.other, hm.contains, hm.later⟩

/-- Off the fragment at `k`, the lists after `k` and `k + 1` fragments agree. -/
theorem getElem?_passed_succ (hi : i ≠ k) :
    (passed fragments (k + 1))[i]? = (passed fragments k)[i]? := by
  have hlt : i < k + 1 ↔ i < k := by omega
  by_cases h : i < k ∧ ∃ j, Above fragments i j
  · rw [getElem?_passed_of_above h.1 h.2, getElem?_passed_of_above (hlt.2 h.1) h.2]
  · rw [getElem?_passed_of_maximal h, getElem?_passed_of_maximal (by rwa [hlt])]

/-- A round at a maximal summary changes nothing. -/
theorem passed_succ_of_maximal (h : ¬ ∃ j, Above fragments k j) :
    passed fragments (k + 1) = passed fragments k := by
  refine List.ext_getElem? fun i => ?_
  by_cases hi : i = k
  · subst hi
    rw [getElem?_passed_of_maximal fun hc => h hc.2, getElem?_passed_of_maximal fun hc => h hc.2]
  · exact getElem?_passed_succ hi

/-- A round at any other blanks it. -/
theorem passed_succ_of_above (h : ∃ j, Above fragments k j) :
    passed fragments (k + 1) = (passed fragments k).modify k MemoryFragment.blank := by
  refine List.ext_getElem? fun i => ?_
  by_cases hi : i = k
  · subst hi
    rw [List.getElem?_modify_eq, getElem?_passed_of_above (Nat.lt_succ_self i) h,
      getElem?_passed_of_maximal (by omega)]
    rfl
  · rw [List.getElem?_modify_ne _ _ (Ne.symm hi), getElem?_passed_succ hi]

/-- One turn of the outer loop passes one fragment more. -/
theorem dropContainedAt_passed :
    dropContainedAt (passed fragments k) k = passed fragments (k + 1) := by
  have hnow : trimmedSummary (passed fragments k) k = trimmedSummary fragments k :=
    trimmedSummary_passed_of_maximal (by omega)
  rw [dropContainedAt, hnow, length_passed]
  by_cases hk : isCanonicalProviderContinuation (trimmedSummary fragments k) = true
  · have hne : trimmedSummary fragments k ≠ "" := by
      intro h
      rw [h, isCanonicalProviderContinuation_empty] at hk
      exact absurd hk (by decide)
    simp only [hne, hk, decide_false, Bool.not_true, Bool.or_self, Bool.false_eq_true, if_false]
    by_cases habove : ∃ j, Above fragments k j
    · rw [if_pos ((any_makesRedundant hk).2 habove), passed_succ_of_above habove]
      rfl
    · rw [if_neg (mt (any_makesRedundant hk).1 habove), passed_succ_of_maximal habove]
  · have hnone : ¬ ∃ j, Above fragments k j := fun ⟨_, hj⟩ => hk hj.candidate
    simp only [hk, Bool.not_false, Bool.or_true, if_true, passed_succ_of_maximal hnone]

variable (fragments) in
/-- **The loop blanks exactly the summaries under another.** -/
theorem dropByteContainedProviderSummaries_eq :
    dropByteContainedProviderSummaries fragments = passed fragments fragments.length := by
  have hrun : ∀ n, (List.range n).foldl dropContainedAt fragments = passed fragments n := by
    intro n
    induction n with
    | zero => exact passed_zero.symm
    | succ n ih =>
        rw [List.range_succ, List.foldl_append, ih, List.foldl_cons, List.foldl_nil,
          dropContainedAt_passed]
  exact hrun _

end Scan

/-! ## What the pass keeps -/

section Kept

variable {fragments : List MemoryFragment} {i : ℕ} {f : MemoryFragment}

section

variable (hf : fragments[i]? = some f)

include hf

theorem trimmedSummary_eq :
    trimmedSummary fragments i = trimSpace f.summary := by
  simp only [trimmedSummary, hf]

/-- A fragment that nothing is above stays as it is. -/
theorem getElem?_drop_of_maximal
    (h : ¬ ∃ j, Above fragments i j) :
    (dropByteContainedProviderSummaries fragments)[i]? = some f := by
  rw [dropByteContainedProviderSummaries_eq, getElem?_passed_of_maximal fun hc => h hc.2, hf]

/-- A fragment that another one is above loses its summary and nothing else. -/
theorem getElem?_drop_of_above (h : ∃ j, Above fragments i j) :
    (dropByteContainedProviderSummaries fragments)[i]? = some f.blank := by
  have hlt : i < fragments.length := (List.getElem?_eq_some_iff.1 hf).1
  rw [dropByteContainedProviderSummaries_eq, getElem?_passed_of_above hlt h, hf, Option.map_some]

/-- What a blanked summary said stands in a summary that stays. -/
theorem exists_kept_of_above (h : ∃ j, Above fragments i j) :
    ∃ (j : ℕ) (g : MemoryFragment), fragments[j]? = some g ∧
      (dropByteContainedProviderSummaries fragments)[j]? = some g ∧
      containsText (trimSpace g.summary) (trimSpace f.summary) = true := by
  obtain ⟨_, hj⟩ := h
  obtain ⟨m, hm, hmax⟩ := hj.exists_maximal
  have hg := List.getElem?_eq_getElem (lt_length_of_canonical hm.other)
  have hcontains := hm.contains
  rw [trimmedSummary_eq hf, trimmedSummary_eq hg] at hcontains
  exact ⟨m, _, hg, getElem?_drop_of_maximal hg fun ⟨n, hn⟩ => hmax n hn, hcontains⟩

/-- What is above a fragment that no longer continuation contains is an equal
continuation at a later place. -/
theorem exists_above_iff_exists_later
    (hcanonical : isCanonicalProviderContinuation (trimSpace f.summary) = true)
    (hlongest : ∀ g ∈ fragments, isCanonicalProviderContinuation (trimSpace g.summary) = true →
      containsText (trimSpace g.summary) (trimSpace f.summary) = true →
      (trimSpace g.summary).utf8ByteSize ≤ (trimSpace f.summary).utf8ByteSize) :
    (∃ j, Above fragments i j) ↔
      ∃ (j : ℕ) (g : MemoryFragment), fragments[j]? = some g ∧
        trimSpace g.summary = trimSpace f.summary ∧ i < j := by
  constructor
  · rintro ⟨j, hj⟩
    have hg := List.getElem?_eq_getElem (lt_length_of_canonical hj.other)
    have hother := hj.other
    have hcontains := hj.contains
    have hlater := hj.later
    rw [trimmedSummary_eq hg] at hother hcontains hlater
    rw [trimmedSummary_eq hf] at hcontains hlater
    have hle := hlongest _ (List.mem_of_getElem? hg) hother hcontains
    exact ⟨j, _, hg, eq_of_containsText hcontains hle, by omega⟩
  · rintro ⟨j, g, hg, heq, hlt⟩
    refine ⟨j, ?_, ?_, ?_, Or.inr hlt⟩
    · rw [trimmedSummary_eq hf]
      exact hcanonical
    · rw [trimmedSummary_eq hg, heq]
      exact hcanonical
    · rw [trimmedSummary_eq hf, trimmedSummary_eq hg, heq]
      exact containsText_refl _

end

/-- A continuation is not empty, so blanking it changes the fragment. -/
theorem blank_ne_of_canonical
    (hcanonical : isCanonicalProviderContinuation (trimSpace f.summary) = true) : f.blank ≠ f := by
  intro h
  have hempty : f.summary = "" := congrArg MemoryFragment.summary h.symm
  have hfalse : isCanonicalProviderContinuation (trimSpace "") = false := by decide +kernel
  rw [hempty, hfalse] at hcanonical
  exact absurd hcanonical (by decide)

end Kept

/-- The pass loses no text.  It keeps the list's length and every fragment's other
fields; a blanked summary is contained in one that stays; a summary that is no
provider continuation stays; and of equal continuations that no longer one contains
the last one stays, and no other. -/
theorem dropByteContainedProviderSummaries_lossless (fragments : List MemoryFragment) :
    (dropByteContainedProviderSummaries fragments).length = fragments.length ∧
    ∀ i f, fragments[i]? = some f →
      ((dropByteContainedProviderSummaries fragments)[i]? = some f ∨
        (dropByteContainedProviderSummaries fragments)[i]? = some { f with summary := "" } ∧
          ∃ (j : ℕ) (g : MemoryFragment), fragments[j]? = some g ∧
            (dropByteContainedProviderSummaries fragments)[j]? = some g ∧
            containsText (trimSpace g.summary) (trimSpace f.summary) = true) ∧
      (isCanonicalProviderContinuation (trimSpace f.summary) = false →
        (dropByteContainedProviderSummaries fragments)[i]? = some f) ∧
      (isCanonicalProviderContinuation (trimSpace f.summary) = true →
        (∀ g ∈ fragments, isCanonicalProviderContinuation (trimSpace g.summary) = true →
          containsText (trimSpace g.summary) (trimSpace f.summary) = true →
          (trimSpace g.summary).utf8ByteSize ≤ (trimSpace f.summary).utf8ByteSize) →
        ((dropByteContainedProviderSummaries fragments)[i]? = some f ↔
          ∀ (j : ℕ) (g : MemoryFragment), fragments[j]? = some g →
            trimSpace g.summary = trimSpace f.summary → j ≤ i)) := by
  refine ⟨by rw [dropByteContainedProviderSummaries_eq, length_passed], fun i f hf => ⟨?_, ?_, ?_⟩⟩
  · by_cases habove : ∃ j, Above fragments i j
    · exact Or.inr ⟨getElem?_drop_of_above hf habove, exists_kept_of_above hf habove⟩
    · exact Or.inl (getElem?_drop_of_maximal hf habove)
  · intro hother
    refine getElem?_drop_of_maximal hf fun ⟨j, hj⟩ => ?_
    have hcanonical := hj.candidate
    rw [trimmedSummary_eq hf, hother] at hcanonical
    exact absurd hcanonical (by decide)
  · intro hcanonical hlongest
    have hiff := exists_above_iff_exists_later hf hcanonical hlongest
    constructor
    · intro hkept j g hg heq
      by_contra hlt
      have hblank := getElem?_drop_of_above hf (hiff.2 ⟨j, g, hg, heq, not_le.1 hlt⟩)
      exact blank_ne_of_canonical hcanonical (Option.some.inj (hblank.symm.trans hkept))
    · intro hlast
      refine getElem?_drop_of_maximal hf fun habove => ?_
      obtain ⟨j, g, hg, heq, hlt⟩ := hiff.1 habove
      exact absurd (hlast j g hg heq) (not_le.2 hlt)

end Backend
end CxtHub
