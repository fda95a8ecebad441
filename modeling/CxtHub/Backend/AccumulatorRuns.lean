/-
# The budget of the accumulator over whole runs

What `MemoryAccumulator` computes on unbounded integers is what the machine computes
(`Machine`), for every budget.  `Refined` relates the two functions by function, and
`Retained` is what every reachable accumulator satisfies: its two counters are the exact
cost of the fragments it retains, and they are within the budget.
-/

import CxtHub.Backend.AccumulatorWriter

namespace CxtHub
namespace Backend

open Machine (Fault InRange)
open MemoryAccumulator (plainCodec)

/-! ### The machine refines the model -/

/-- A loop of refined steps. -/
theorem Refined.foldlM {α γ : Type} {P : α → Prop} {m : α → γ → Except Fault α}
    {o : α → γ → Option α} (hstep : ∀ a x, P a → Refined P (m a x) (o a x)) (l : List γ) {a : α}
    (h : P a) :
    Refined P (l.foldlM m a) (l.foldlM o a) := by
  induction l generalizing a with
  | nil => exact refined_ok h
  | cons x l ih =>
      rw [List.foldlM_cons, List.foldlM_cons]
      exact (hstep a x h).bind fun b hb => ih hb

/-! ### The budget -/

theorem baseBytes_eq : memoryAccumulatorBaseBytes = 128 := rfl

theorem maxEntries_eq : memoryAccumulatorMaxEntries = 16384 := rfl

theorem entryBytes_eq : memoryAccumulatorEntryBytes = 64 := rfl

/-- What the budget bounds: the bytes and 64 more for every entry. -/
theorem accumulatorBudgetOK_iff (n entries limit : ℤ) :
    accumulatorBudgetOK n entries limit = true ↔
      0 ≤ n ∧ 0 ≤ entries ∧ entries ≤ 16384 ∧ 128 + n + 64 * entries ≤ limit := by
  rw [accumulatorBudgetOK, decide_eq_true_eq, baseBytes_eq, maxEntries_eq, entryBytes_eq]
  constructor
  · rintro ⟨hbase, hn, hentries, hmax, hroom, hquot⟩
    rw [Int.tdiv_eq_ediv_of_nonneg (by omega)] at hquot
    omega
  · rintro ⟨hn, hentries, hmax, hsum⟩
    rw [Int.tdiv_eq_ediv_of_nonneg (by omega)]
    omega

section Budget

variable {limit : ℤ} (hlimit : InRange limit)

include hlimit

/-- The sums of the budget check stay in range. -/
theorem machine_accumulatorBudgetOK (n entries : ℤ) :
    Machine.accumulatorBudgetOK n entries limit = .ok (accumulatorBudgetOK n entries limit) := by
  obtain ⟨hlow, hhigh⟩ := hlimit
  have hbase := baseBytes_eq
  by_cases hguard : limit ≥ memoryAccumulatorBaseBytes ∧ n ≥ 0 ∧ entries ≥ 0 ∧
      entries ≤ memoryAccumulatorMaxEntries
  · have hroom : InRange (limit - memoryAccumulatorBaseBytes) := by constructor <;> omega
    rw [Machine.accumulatorBudgetOK, if_pos hguard, int_of_inRange hroom, ok_bind]
    by_cases hn : n ≤ limit - memoryAccumulatorBaseBytes
    · have hrest : InRange (limit - memoryAccumulatorBaseBytes - n) := by constructor <;> omega
      have hquot : InRange ((limit - memoryAccumulatorBaseBytes - n).tdiv
          memoryAccumulatorEntryBytes) := by
        rw [Int.tdiv_eq_ediv_of_nonneg (by omega), entryBytes_eq]
        constructor <;> omega
      rw [if_pos hn, int_of_inRange hrest, ok_bind, int_of_inRange hquot, ok_bind,
        accumulatorBudgetOK]
      obtain ⟨h₁, h₂, h₃, h₄⟩ := hguard
      simp only [h₁, h₂, h₃, h₄, hn, true_and]
    · rw [if_neg hn, accumulatorBudgetOK, decide_eq_false fun h => hn h.2.2.2.2.1]
  · rw [Machine.accumulatorBudgetOK, if_neg hguard, accumulatorBudgetOK,
      decide_eq_false fun h => hguard ⟨h.1, h.2.1, h.2.2.1, h.2.2.2.1⟩]

/-- What `memoryAccumulatorSize` counts. -/
structure Measured (limit : ℤ) (j : Json) (s : AccumulatorJSON) : Prop where
  n_eq : s.n = byteLength j.print
  entries_eq : s.entries = sliceEntries j
  within : accumulatorBudgetOK s.n s.entries limit = true

/-- The counter of a JSON text overflows nowhere. -/
theorem refined_memoryAccumulatorSize (j : Json) :
    Refined (Measured limit j) (Machine.memoryAccumulatorSize j limit)
      (memoryAccumulatorSize j limit) := by
  have hempty : Sound limit {} := ⟨le_rfl, .inl rfl, le_rfl, by decide⟩
  obtain ⟨hmachine, hcount⟩ := writes_value hlimit false j {} hempty
  simp only [Machine.memoryAccumulatorSize, memoryAccumulatorSize, hmachine]
  cases hvalue : AccumulatorJSON.value limit false j {} with
  | none => exact refined_limit
  | some s =>
      obtain ⟨-, hn, hentries, -⟩ := hcount s hvalue
      simp only [orLimit_some, ok_bind, machine_accumulatorBudgetOK hlimit]
      cases hbudget : accumulatorBudgetOK s.n s.entries limit with
      | false => exact refined_limit
      | true => exact refined_ok ⟨by simpa using hn, by simpa using hentries, hbudget⟩

/-- An admission computes in range when what is used already is. -/
theorem Refined.reserve {α : Type} {P : α → Prop} {n count used entries : ℤ} (hn : 0 ≤ n)
    (hused : 0 ≤ used) (hle : used = 0 ∨ used ≤ limit) (htotal : InRange (entries + count))
    {m : ℤ × ℤ → Except Fault α} {o : Option α}
    (h : accumulatorBudgetOK (used + n) (entries + count) limit = true →
      Refined P (m (used + n, entries + count)) o) :
    Refined P (Machine.reserve n count used entries limit >>= m)
      (if n > limit - used ∨ accumulatorBudgetOK (used + n) (entries + count) limit = false
        then none else o) := by
  obtain ⟨hlow, hhigh⟩ := id hlimit
  have hroom : InRange (limit - used) := by
    constructor
    · rcases hle with hzero | hle <;> omega
    · omega
  rw [Machine.reserve, int_of_inRange hroom, ok_bind]
  by_cases hfull : n > limit - used
  · rw [if_pos hfull, if_pos (.inl hfull)]
    exact refined_limit
  · have hsum : InRange (used + n) := by constructor <;> omega
    rw [if_neg hfull, int_of_inRange hsum, ok_bind, int_of_inRange htotal, ok_bind,
      machine_accumulatorBudgetOK hlimit, ok_bind]
    cases hok : accumulatorBudgetOK (used + n) (entries + count) limit with
    | false => simpa [hfull] using refined_limit
    | true => simpa [hfull] using h hok

/-! ### The opaque text -/

/-- The loop over strings overflows nowhere while the bytes so far are within the limit. -/
theorem refined_accumulatorStringsFrom {used : ℤ} {seen : List String} (l : List String)
    (hused : 0 ≤ used) (hle : used = 0 ∨ used ≤ limit) (hseen : seen.length ≤ 16384) :
    Refined (fun _ => True) (Machine.accumulatorStringsFrom limit used seen l)
      (accumulatorStringsFrom limit used seen l) := by
  induction l generalizing used seen with
  | nil => exact refined_ok trivial
  | cons text l ih =>
      rw [Machine.accumulatorStringsFrom, accumulatorStringsFrom]
      by_cases hskip : text = "" ∨ text ∈ seen
      · rw [if_pos hskip, if_pos hskip]
        exact ih hused hle hseen
      · rw [if_neg hskip, if_neg hskip]
        refine (refined_memoryAccumulatorSize hlimit (.str text)).elim refined_limit
          fun size hsize => ?_
        have hn : 0 ≤ size.n := by
          rw [hsize.n_eq]
          exact byteLength_nonneg _
        refine .reserve hlimit hn hused hle (by constructor <;> omega) fun hok => ?_
        rw [accumulatorBudgetOK_iff] at hok
        refine ih (by omega) (.inr (by omega)) ?_
        rw [List.length_append, List.length_singleton]
        omega

/-- `accumulatorStrings` overflows nowhere. -/
theorem refined_accumulatorStrings (groups : List (List String)) :
    Refined (fun _ => True) (Machine.accumulatorStrings limit groups)
      (accumulatorStrings limit groups) :=
  refined_accumulatorStringsFrom hlimit _ le_rfl (.inl rfl) (by simp)

/-- Nor does the merge of two summaries. -/
theorem refined_accumulatorLegacySummary (c : MemoryCodec) (prior fresh : String) :
    Refined (fun _ => True) (Machine.accumulatorLegacySummary c limit prior fresh)
      (accumulatorLegacySummary c limit prior fresh) := by
  obtain ⟨hlow, hhigh⟩ := hlimit
  have hlen := byteLength_nonneg fresh.toList
  rw [Machine.accumulatorLegacySummary, accumulatorLegacySummary, ite_or]
  refine .ite (fun _ => refined_limit) fun hlong => .ite (fun _ => ?_) fun _ => refined_ok trivial
  refine .ite (fun _ => refined_ok trivial) fun _ => .ite (fun _ => refined_limit) fun hshort => ?_
  refine .int (by constructor <;> omega) (.int (by constructor <;> omega) ?_)
  exact .ite (fun _ => refined_limit) fun _ => refined_ok trivial

/-- Nor does the merge of two digests without fragments. -/
theorem refined_accumulatorLegacy (c : MemoryCodec) (prior fresh : MemoryDigest) :
    Refined (fun _ => True) (Machine.accumulatorLegacy c prior fresh limit)
      (accumulatorLegacy c prior fresh limit) := by
  rw [Machine.accumulatorLegacy, accumulatorLegacy]
  refine (refined_accumulatorLegacySummary hlimit c _ _).elim refined_limit fun summary _ => ?_
  refine (refined_accumulatorStrings hlimit _).elim refined_limit fun facts _ => ?_
  exact (refined_accumulatorStrings hlimit _).elim refined_limit fun tasks _ => refined_ok trivial

end Budget

/-! ### What the fragments cost -/

/-- The entries of the slices of a fragment. -/
def MemoryFragment.slices (f : MemoryFragment) : ℕ :=
  f.keyFacts.length + f.openTasks.length + f.claims.length +
    (f.claims.map fun c => ((c.code.map fun s => s.paths.list.length).getD 0)).sum

/-- Entries add up over fields. -/
theorem fieldEntries_append (l l' : List (String × Json)) :
    fieldEntries (l ++ l') = fieldEntries l + fieldEntries l' := by
  induction l with
  | nil => simp [fieldEntries]
  | cons p l ih =>
      obtain ⟨k, j⟩ := p
      rw [List.cons_append, fieldEntries, fieldEntries, ih, add_assoc]

/-- An omitted field has no entries, as the empty value has none. -/
theorem fieldEntries_optional {empty : Bool} {j : Json} (name : String)
    (h : empty = true → sliceEntries j = 0) :
    fieldEntries (optional empty name j) = sliceEntries j := by
  cases empty with
  | true => simp [optional, fieldEntries, h rfl]
  | false => simp [optional, fieldEntries]

/-- The entries of a list are those of its items. -/
theorem listEntries_map {α : Type} (g : α → Json) (l : List α) :
    listEntries (l.map g) = (l.map fun x => sliceEntries (g x)).sum := by
  induction l with
  | nil => rfl
  | cons x l ih => rw [List.map_cons, listEntries, ih, List.map_cons, List.sum_cons]

/-- A list of strings counts its strings. -/
theorem sliceEntries_stringsJson (l : List String) : sliceEntries (stringsJson l) = l.length := by
  simp [stringsJson, sliceEntries, listEntries_map]

/-- A slice of strings has one entry per item. -/
theorem sliceEntries_sliceJson (l : Slice String) : sliceEntries (sliceJson l) = l.list.length := by
  cases l with
  | none => rfl
  | some l => exact sliceEntries_stringsJson l

/-- A scope counts its paths. -/
theorem sliceEntries_codeScope (s : MemoryCodeScope) :
    sliceEntries s.json = s.paths.list.length := by
  have hparent : fieldEntries (optional (s.parent = "") "parent" (.str s.parent)) = 0 :=
    fieldEntries_optional _ fun _ => rfl
  rw [MemoryCodeScope.json, sliceEntries, List.cons_append, fieldEntries, fieldEntries_append,
    hparent, fieldEntries, fieldEntries, sliceEntries_sliceJson]
  simp [sliceEntries]

/-- A claim counts the paths of its scope. -/
theorem sliceEntries_claim (c : MemoryClaim) :
    sliceEntries c.json = (c.code.map fun s => s.paths.list.length).getD 0 := by
  obtain ⟨kind, text, code⟩ := c
  cases code with
  | none => rfl
  | some scope => simp [MemoryClaim.json, optional, sliceEntries, fieldEntries,
      sliceEntries_codeScope]

/-- The JSON of a fragment has as many entries as the fragment has slices. -/
theorem sliceEntries_fragment (f : MemoryFragment) : sliceEntries f.json = f.slices := by
  have hsummary : fieldEntries (optional (f.summary = "") "summary" (.str f.summary)) = 0 :=
    fieldEntries_optional _ fun _ => rfl
  have hfacts : fieldEntries (optional f.keyFacts.isEmpty "key_facts" (stringsJson f.keyFacts)) =
      f.keyFacts.length := by
    rw [fieldEntries_optional _ fun h => ?_, sliceEntries_stringsJson]
    rw [sliceEntries_stringsJson, List.isEmpty_iff.mp h, List.length_nil]
  have htasks : fieldEntries (optional f.openTasks.isEmpty "open_tasks"
      (stringsJson f.openTasks)) = f.openTasks.length := by
    rw [fieldEntries_optional _ fun h => ?_, sliceEntries_stringsJson]
    rw [sliceEntries_stringsJson, List.isEmpty_iff.mp h, List.length_nil]
  have hauthority : fieldEntries (optional (!f.tasksAuthoritative) "tasks_authoritative"
      (.bool f.tasksAuthoritative)) = 0 :=
    fieldEntries_optional _ fun _ => rfl
  have hclaims : fieldEntries (optional f.claims.isEmpty "claims"
      (.arr (f.claims.map MemoryClaim.json))) = f.claims.length +
        (f.claims.map fun c => ((c.code.map fun s => s.paths.list.length).getD 0)).sum := by
    have harr : sliceEntries (.arr (f.claims.map MemoryClaim.json)) = f.claims.length +
        (f.claims.map fun c => ((c.code.map fun s => s.paths.list.length).getD 0)).sum := by
      simp only [sliceEntries, List.length_map, listEntries_map, sliceEntries_claim]
    rw [fieldEntries_optional _ fun h => ?_, harr]
    rw [harr, List.isEmpty_iff.mp h]
    rfl
  simp only [MemoryFragment.json, sliceEntries, List.cons_append, fieldEntries,
    fieldEntries_append, hsummary, hfacts, htasks, hauthority, hclaims, MemoryFragment.slices]
  omega

/-- The bytes of the retained fragments on the wire. -/
def fragmentsBytes (l : List MemoryFragment) : ℤ := (l.map fun f => byteLength f.json.print).sum

/-- The entries of the retained fragments, each of which is an entry itself. -/
def fragmentsEntries (l : List MemoryFragment) : ℤ := (l.map fun f => (f.slices : ℤ) + 1).sum

/-- Each fragment counts for itself at least. -/
theorem length_le_fragmentsEntries (l : List MemoryFragment) :
    (l.length : ℤ) ≤ fragmentsEntries l := by
  induction l with
  | nil => exact le_rfl
  | cons f l ih =>
      simp only [fragmentsEntries, List.map_cons, List.sum_cons, List.length_cons] at ih ⊢
      omega

/-- The counters of the fragments are exact, and within the budget. -/
structure Retained (limit : ℤ) (l : List MemoryFragment) (bytes entries : ℤ) : Prop where
  bytes_eq : bytes = fragmentsBytes l
  entries_eq : entries = fragmentsEntries l
  within : l ≠ [] → accumulatorBudgetOK bytes entries limit = true

/-- Nothing is retained at no cost. -/
theorem retained_nil (limit : ℤ) : Retained limit [] 0 0 := ⟨rfl, rfl, fun h => absurd rfl h⟩

namespace Retained

variable {limit bytes entries : ℤ} {l : List MemoryFragment}

/-- The ranges that the next admission needs. -/
theorem range (h : Retained limit l bytes entries) :
    0 ≤ bytes ∧ (bytes = 0 ∨ bytes ≤ limit) ∧ 0 ≤ entries ∧ entries ≤ 16384 := by
  by_cases hnone : l = []
  · subst hnone
    have hbytes : bytes = 0 := h.bytes_eq
    have hentries : entries = 0 := h.entries_eq
    omega
  · have hwithin := h.within hnone
    rw [accumulatorBudgetOK_iff] at hwithin
    omega

/-- The limit on entries bounds the number of fragments. -/
theorem length_le (h : Retained limit l bytes entries) : l.length ≤ 16384 := by
  have hlen := length_le_fragmentsEntries l
  rw [← h.entries_eq] at hlen
  have := h.range
  omega

/-- One more fragment within the budget is retained at the sum of the costs. -/
theorem concat (h : Retained limit l bytes entries) {f : MemoryFragment} {size : AccumulatorJSON}
    (hsize : Measured limit f.json size)
    (hwithin : accumulatorBudgetOK (bytes + size.n) (entries + (size.entries + 1)) limit = true) :
    Retained limit (l ++ [f]) (bytes + size.n) (entries + (size.entries + 1)) := by
  refine ⟨?_, ?_, fun _ => hwithin⟩
  · rw [h.bytes_eq, hsize.n_eq]
    simp [fragmentsBytes]
  · rw [h.entries_eq, hsize.entries_eq, sliceEntries_fragment]
    simp [fragmentsEntries]

end Retained

/-! ### One call -/

section Calls

variable {c : MemoryCodec}

/-- What every reachable accumulator satisfies. -/
structure Accounted (maxBytes : ℤ) (a : MemoryAccumulator c) : Prop where
  budget : a.maxBytes = maxBytes
  retained : Retained maxBytes a.fragments a.fragmentBytes a.fragmentEntries

/-- The counters of an addition include what it has staged. -/
def Staged (a : MemoryAccumulator c) (s : Staging c) : Prop :=
  Retained a.maxBytes (a.fragments ++ s.added) s.used s.entries

variable {a : MemoryAccumulator c} (ha : InRange a.maxBytes)

include ha

/-- Staging a fragment overflows nowhere and keeps the account. -/
theorem refined_addFragment {s : Staging c} (hs : Staged a s) (f : MemoryFragment) :
    Refined (Staged a) (Machine.addFragment a s f) (a.addFragment s f) := by
  refine .ite (fun _ => refined_ok hs) fun _ => ?_
  refine (refined_memoryAccumulatorSize ha f.json).elim refined_limit fun size hsize => ?_
  have hwithin := hsize.within
  rw [accumulatorBudgetOK_iff] at hwithin
  obtain ⟨hused, hle, hentries, hmax⟩ := hs.range
  refine .ite (fun _ => refined_ok hs) fun _ => .int (by constructor <;> omega) ?_
  refine .reserve ha hwithin.1 hused hle (by constructor <;> omega) fun hok => refined_ok ?_
  have hnext := hs.concat hsize hok
  rwa [List.append_assoc] at hnext

/-- So does staging the fragments of a digest. -/
theorem refined_addFragments {s : Staging c} (hs : Staged a s) (d : MemoryDigest) :
    Refined (Staged a) (Machine.addFragments a s d) (a.addFragments s d) :=
  Refined.foldlM (fun _ f h => refined_addFragment ha h f) _ hs

/-- The next latest digest is computed without overflow. -/
theorem refined_nextLatest {s : Staging c} (hs : Staged a s) (d : MemoryDigest) :
    Refined (fun _ => True) (Machine.nextLatest a s d) (a.nextLatest s d) := by
  have hlen := hs.length_le
  rw [List.length_append] at hlen
  have htotal : InRange ((a.fragments.length : ℤ) + s.added.length) := by constructor <;> omega
  have hzero : (a.fragments.length : ℤ) + s.added.length = 0 ↔
      a.fragments.length + s.added.length = 0 := by omega
  rw [Machine.nextLatest, MemoryAccumulator.nextLatest, int_of_inRange htotal]
  simp only [ok_bind, hzero]
  split_ifs
  · rw [Option.map_eq_bind]
    exact (refined_accumulatorLegacy ha c a.prior d).bind fun _ _ => refined_ok trivial
  · exact refined_ok trivial

omit ha in
/-- An accumulator with a true account can start staging. -/
theorem Accounted.staged {maxBytes : ℤ} (h : Accounted maxBytes a) :
    Staged a { used := a.fragmentBytes, entries := a.fragmentEntries } := by
  obtain ⟨rfl, hretained⟩ := h
  rw [Staged, List.append_nil]
  exact hretained

/-- Staging the fragments of the latest digest overflows nowhere. -/
theorem refined_stagePrior {maxBytes : ℤ} (h : Accounted maxBytes a) :
    Refined (Staged a) (Machine.stagePrior a) a.stagePrior := by
  rw [Machine.stagePrior, MemoryAccumulator.stagePrior]
  split_ifs
  · exact refined_addFragments ha h.staged a.prior
  · exact refined_ok h.staged

omit ha in
/-- What was staged is retained. -/
theorem Accounted.retain {maxBytes : ℤ} (h : Accounted maxBytes a) {s : Staging c}
    (hs : Staged a s) {latest : MemoryDigest} {b : MemoryAccumulator c}
    (hb : a.retain s latest = some b) : Accounted maxBytes b := by
  obtain ⟨rfl, -⟩ := h
  rw [MemoryAccumulator.retain] at hb
  cases hsize : memoryAccumulatorSize latest.json a.maxBytes with
  | none =>
      rw [hsize] at hb
      cases hb
  | some size =>
      rw [hsize] at hb
      dsimp only at hb
      split_ifs at hb
      cases hb
      exact ⟨rfl, hs⟩

end Calls

/-- A call that ends with the accumulator of the model, or with the limit and no change. -/
def settle {c : MemoryCodec} (a : MemoryAccumulator c) (o : Option (MemoryAccumulator c)) :
    Except Fault Unit × MemoryAccumulator c :=
  match o with
  | some b => (.ok (), b)
  | none => (.error .limit, a)

section Methods

variable {c : MemoryCodec} {α β : Type}

@[simp] theorem run_ok_bind (v : α) (g : α → Machine.Method c β) (a : MemoryAccumulator c) :
    (Machine.compute (.ok v) >>= g).run.run a = (g v).run.run a := rfl

@[simp] theorem run_error_bind (e : Fault) (g : α → Machine.Method c β)
    (a : MemoryAccumulator c) :
    (Machine.compute (.error e) >>= g).run.run a = (.error e, a) := rfl

/-- Reading the receiver changes nothing. -/
theorem run_get_bind (g : MemoryAccumulator c → Machine.Method c β) (a : MemoryAccumulator c) :
    (get >>= g).run.run a = (g a).run.run a := rfl

/-- A write to the receiver. -/
theorem run_modify (g : MemoryAccumulator c → MemoryAccumulator c) (a : MemoryAccumulator c) :
    (modify g : Machine.Method c Unit).run.run a = (.ok (), g a) := rfl

/-- What follows a write sees it. -/
theorem run_modify_bind (g : MemoryAccumulator c → MemoryAccumulator c)
    (m : Unit → Machine.Method c β) (a : MemoryAccumulator c) :
    (modify g >>= m).run.run a = (m ()).run.run (g a) := rfl

end Methods

@[simp] theorem settle_some {c : MemoryCodec} (a b : MemoryAccumulator c) :
    settle a (some b) = (.ok (), b) := rfl

@[simp] theorem settle_none {c : MemoryCodec} (a : MemoryAccumulator c) :
    settle a none = (.error .limit, a) := rfl

section Run

variable {c : MemoryCodec} {maxBytes : ℤ} (hmax : InRange maxBytes) {a : MemoryAccumulator c}

/-- The limit leaves the accumulator as it was. -/
theorem settles_limit {α : Type} {g : α → Machine.Method c Unit} :
    (Machine.compute (.error .limit) >>= g).run.run a = settle a none ∧
      ∀ b : MemoryAccumulator c, none = some b → Accounted maxBytes b :=
  ⟨run_error_bind _ _ _, fun b hb => by cases hb⟩

/-- A new accumulator has a true account. -/
theorem accounted_new : Accounted maxBytes (newMemoryAccumulator c maxBytes) :=
  ⟨rfl, retained_nil maxBytes⟩

variable (h : Accounted maxBytes a)

include hmax h

/-- The assignments of `Add`, after its last test. -/
theorem run_retain {s : Staging c} (hs : Staged a s)
    (latest : MemoryDigest) :
    (Machine.retain s latest).run.run a = settle a (a.retain s latest) := by
  have ha : InRange a.maxBytes := by rwa [h.budget]
  rw [Machine.retain, run_get_bind, MemoryAccumulator.retain]
  refine (refined_memoryAccumulatorSize ha latest.json).elim rfl fun size hsize => ?_
  have hwithin := hsize.within
  rw [accumulatorBudgetOK_iff] at hwithin
  obtain ⟨hused, hle, hentries, hmax⟩ := hs.range
  have hreserve : Refined (fun _ => True)
      (Machine.reserve size.n size.entries s.used s.entries a.maxBytes >>= pure) _ :=
    .reserve ha hwithin.1 hused hle (by constructor <;> omega) fun _ => refined_ok trivial
  rw [bind_pure] at hreserve
  rw [run_ok_bind, hreserve.1]
  dsimp only
  split_ifs with hfull
  · rw [orLimit_none, run_error_bind, settle_none]
  · rw [orLimit_some, run_ok_bind, run_modify_bind, run_modify_bind, run_modify_bind,
      run_modify, settle_some]

/-- `Add` on a started accumulator is all or nothing, and keeps the account true. -/
theorem run_add_started (hstarted : a.started ≠ false)
    (d : MemoryDigest) :
    (Machine.add d).run.run a = settle a (a.add d) ∧
      ∀ b, a.add d = some b → Accounted maxBytes b := by
  have ha : InRange a.maxBytes := by rwa [h.budget]
  rw [Machine.add, run_get_bind, MemoryAccumulator.add, if_neg hstarted, if_neg hstarted,
    (refined_stagePrior ha h).1]
  cases hprior : a.stagePrior with
  | none => exact settles_limit
  | some s =>
  have hs := (refined_stagePrior ha h).2 s hprior
  simp only [orLimit_some, Option.bind_eq_bind, Option.bind_some]
  rw [run_ok_bind, (refined_addFragments ha hs d).1]
  cases hadded : a.addFragments s d with
  | none => exact settles_limit
  | some t =>
  have ht := (refined_addFragments ha hs d).2 t hadded
  simp only [orLimit_some, Option.bind_some]
  rw [run_ok_bind, (refined_nextLatest ha ht d).1]
  cases hlatest : a.nextLatest t d with
  | none => exact settles_limit
  | some latest =>
  simp only [orLimit_some, Option.bind_some]
  rw [run_ok_bind]
  exact ⟨run_retain hmax h ht latest, fun b hb => h.retain ht hb⟩

/-- `Add` is all or nothing: on an error the receiver is as before. -/
theorem run_add (d : MemoryDigest) :
    (Machine.add d).run.run a = settle a (a.add d) ∧
      ∀ b, a.add d = some b → Accounted maxBytes b := by
  by_cases hstarted : a.started = false
  · have ha : InRange a.maxBytes := by rwa [h.budget]
    rw [Machine.add, run_get_bind, MemoryAccumulator.add, if_pos hstarted, if_pos hstarted]
    refine (refined_memoryAccumulatorSize ha d.json).elim settles_limit fun size _ => ?_
    refine ⟨run_ok_bind _ _ _, fun b hb => ?_⟩
    cases hb
    exact ⟨h.budget, h.retained⟩
  · exact run_add_started hmax h hstarted d

/-- `Reset` is all or nothing as well. -/
theorem run_reset (d : MemoryDigest) :
    (Machine.reset d).run.run a = settle a (a.reset d) ∧
      ∀ b, a.reset d = some b → Accounted maxBytes b := by
  obtain ⟨hrun, hkeep⟩ := run_add hmax (accounted_new (c := c)) d
  rw [Machine.reset, run_get_bind, MemoryAccumulator.reset, h.budget, hrun]
  refine ⟨?_, hkeep⟩
  cases (newMemoryAccumulator c maxBytes).add d with
  | none => exact run_error_bind _ _ _
  | some b => rfl

/-- `Digest` computes in range. -/
theorem machine_digest :
    Machine.digest a = orLimit a.digest := by
  have ha : InRange a.maxBytes := by rwa [h.budget]
  have hempty : Sound a.maxBytes {} := ⟨le_rfl, .inl rfl, le_rfl, by decide⟩
  rw [Machine.digest, MemoryAccumulator.digest,
    (writes_value ha true a.rendered.json {} hempty).1]
  cases AccumulatorJSON.value a.maxBytes true a.rendered.json {} <;> rfl

end Run

/-! ### Whole runs -/

/-- A call of one of the methods. -/
inductive AccumulatorCall
  | add (d : MemoryDigest)
  | reset (d : MemoryDigest)
  | digest

section Runs

variable {c : MemoryCodec}

/-- The method that is called; only `Digest` has a result. -/
def AccumulatorCall.method : AccumulatorCall → Machine.Method c (Option MemoryDigest)
  | .add d => do
      Machine.add d
      pure none
  | .reset d => do
      Machine.reset d
      pure none
  | .digest => do
      let a ← get
      let d ← Machine.compute (Machine.digest a)
      pure (some d)

/-- The outcome of a call and the accumulator after it. -/
def perform (call : AccumulatorCall) (a : MemoryAccumulator c) :
    Except Fault (Option MemoryDigest) × MemoryAccumulator c :=
  call.method.run.run a

/-- The outcomes of a run and the accumulator at its end. -/
def performAll : List AccumulatorCall → MemoryAccumulator c →
    List (Except Fault (Option MemoryDigest)) × MemoryAccumulator c
  | [], a => ([], a)
  | call :: calls, a =>
      ((perform call a).1 :: (performAll calls (perform call a).2).1,
        (performAll calls (perform call a).2).2)

variable {maxBytes : ℤ} {a : MemoryAccumulator c}

/-- What one call guarantees. -/
structure Performed (maxBytes : ℤ) (a : MemoryAccumulator c)
    (r : Except Fault (Option MemoryDigest) × MemoryAccumulator c) : Prop where
  accounted : Accounted maxBytes r.2
  noOverflow : r.1 ≠ .error .overflow
  atomic : ∀ e, r.1 = .error e → r.2 = a

/-- A method that settles is performed as a call should be. -/
theorem performed_settle (h : Accounted maxBytes a) {m : Machine.Method c Unit}
    {o : Option (MemoryAccumulator c)} (hm : m.run.run a = settle a o)
    (ho : ∀ b, o = some b → Accounted maxBytes b) :
    Performed maxBytes a ((m >>= fun _ => pure none).run.run a) := by
  have hrun : (m >>= fun _ => (pure none : Machine.Method c (Option MemoryDigest))).run.run a =
      match m.run.run a with
      | (.ok _, b) => (.ok none, b)
      | (.error e, b) => (.error e, b) := by
    rw [ExceptT.run_bind, StateT.run_bind]
    rcases m.run.run a with ⟨outcome, b⟩
    cases outcome <;> rfl
  rw [hrun, hm]
  cases o with
  | none => exact ⟨h, by simp, fun _ _ => rfl⟩
  | some b => exact ⟨ho b rfl, by simp, by simp⟩

variable (hmax : InRange maxBytes)

include hmax

/-- **Each call is performed without overflow, and a failed one changes nothing.** -/
theorem performed_call (h : Accounted maxBytes a) (call : AccumulatorCall) :
    Performed maxBytes a (perform call a) := by
  cases call with
  | add d =>
      obtain ⟨hrun, hkeep⟩ := run_add hmax h d
      exact performed_settle h hrun hkeep
  | reset d =>
      obtain ⟨hrun, hkeep⟩ := run_reset hmax h d
      exact performed_settle h hrun hkeep
  | digest =>
      rw [perform, AccumulatorCall.method, run_get_bind, machine_digest hmax h]
      cases a.digest with
      | none =>
          rw [orLimit_none, run_error_bind]
          exact ⟨h, by simp, fun _ _ => rfl⟩
      | some d =>
          rw [orLimit_some, run_ok_bind]
          exact ⟨h, nofun, fun _ _ => rfl⟩

/-- By induction over the calls: the account stays true and no call overflows. -/
theorem performAll_accounted (h : Accounted maxBytes a) (calls : List AccumulatorCall) :
    Accounted maxBytes (performAll calls a).2 ∧
      ∀ r ∈ (performAll calls a).1, r ≠ .error .overflow := by
  induction calls generalizing a with
  | nil => exact ⟨h, by simp [performAll]⟩
  | cons call calls ih =>
      have hcall := performed_call hmax h call
      obtain ⟨hend, hrest⟩ := ih hcall.accounted
      refine ⟨hend, fun r hr => ?_⟩
      rcases List.mem_cons.1 hr with rfl | hr
      · exact hcall.noOverflow
      · exact hrest r hr

/-- **The budget is exact, and a failed call changes nothing.**  After any run the counters are
the cost of the retained fragments and within the budget, no call of the run left the range of
`int`, and a further call that fails is as if it had not been made. -/
theorem accumulator_exact_and_atomic (calls : List AccumulatorCall) :
    let run := performAll calls (newMemoryAccumulator c maxBytes)
    let a := run.2
    a.fragmentBytes = (a.fragments.map fun f => byteLength f.json.print).sum ∧
      a.fragmentEntries = (a.fragments.map fun f => (f.slices : ℤ) + 1).sum ∧
      (a.fragments ≠ [] →
        accumulatorBudgetOK a.fragmentBytes a.fragmentEntries maxBytes = true) ∧
      (∀ r ∈ run.1, r ≠ .error .overflow) ∧
      ∀ call e, (perform call a).1 = .error e → (perform call a).2 = a ∧
        ∀ later, performAll (call :: later) a =
          (.error e :: (performAll later a).1, (performAll later a).2) := by
  obtain ⟨haccounted, hrange⟩ := performAll_accounted hmax (accounted_new (c := c)) calls
  obtain ⟨hbytes, hentries, hwithin⟩ := haccounted.retained
  refine ⟨hbytes, hentries, hwithin, hrange, fun call e he => ?_⟩
  have hsame := (performed_call hmax haccounted call).atomic e he
  refine ⟨hsame, fun later => ?_⟩
  rw [performAll, he, hsame]

end Runs

/-- The error of a call, if any. -/
def faultOf {α : Type} : Except Fault α → Option Fault
  | .ok _ => none
  | .error e => some e

/-- The fault of a call is its error. -/
theorem eq_error_of_faultOf {α : Type} {x : Except Fault α} {e : Fault}
    (h : faultOf x = some e) : x = .error e := by
  cases x with
  | ok v => cases h
  | error e' => rw [Option.some.inj h]

/-- Two digests with a text of their own. -/
def attributedCalls : List AccumulatorCall :=
  [.add { snapshotID := "1", summary := "one" }, .add { snapshotID := "2", keyFacts := some ["k"] }]

/-- A digest with more entries than a small budget has room for. -/
def wideDigest : MemoryDigest :=
  { fragments := [{ sourceSnapshot := "3", keyFacts := List.replicate 20 "k" }] }

/-- Two digests are kept exactly, and a third beyond the limit changes nothing. -/
theorem accumulator_exact_and_atomic_wide :
    let a := (performAll attributedCalls (newMemoryAccumulator plainCodec 1024)).2
    a.fragments.length = 2 ∧
      a.fragmentBytes = (a.fragments.map fun f => byteLength f.json.print).sum ∧
      accumulatorBudgetOK a.fragmentBytes a.fragmentEntries 1024 = true ∧
      performAll [.add wideDigest, .digest] a =
        (.error .limit :: (performAll [.digest] a).1, (performAll [.digest] a).2) := by
  have hlength : (performAll attributedCalls
      (newMemoryAccumulator plainCodec 1024)).2.fragments.length = 2 := by decide +kernel
  have hfails : faultOf (perform (.add wideDigest) (performAll attributedCalls
      (newMemoryAccumulator plainCodec 1024)).2).1 = some .limit := by decide +kernel
  have hnonempty : (performAll attributedCalls
      (newMemoryAccumulator plainCodec 1024)).2.fragments ≠ [] := by
    intro hnil
    rw [hnil] at hlength
    cases hlength
  obtain ⟨hbytes, -, hwithin, -, hatomic⟩ :=
    accumulator_exact_and_atomic (c := plainCodec) (by decide : InRange 1024) attributedCalls
  exact ⟨hlength, hbytes, hwithin hnonempty,
    (hatomic _ _ (eq_error_of_faultOf hfails)).2 _⟩

end Backend
end CxtHub
