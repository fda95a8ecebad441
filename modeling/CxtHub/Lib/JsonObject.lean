/-
# JSON objects as two languages see them

On the Go side an object is a struct: a list of named fields, in which `omitempty` may
leave a value out, and an embedded struct adds its fields except those that the outer
struct declares itself (`embedding`).  Hiding is decided by the declared names, so a field
that `omitempty` leaves out still hides the embedded one.

On the JavaScript side an object is read by name and built by spreading and assigning:
`without`, `assign`.  `lookup_ofStruct`, `lookup_embedding`, `lookup_assign` and
`lookup_without` say what each leaves under a name.  The order in which an object lists
its names is kept by both sides and not otherwise used.
-/

import CxtHub.Lib.Dir
import CxtHub.Lib.Json

namespace CxtHub
namespace Json

/-! ### Structs -/

/-- The fields of a struct; `none` is a value that `omitempty` leaves out. -/
abbrev StructFields := List (String × Option Json)

/-- The declared names. -/
def names (l : StructFields) : List String := l.map Prod.fst

/-- A struct with an embedded one. -/
def embedding (inner own : StructFields) : StructFields :=
  inner.filter (fun f => decide (f.1 ∉ names own)) ++ own

/-- The object that a struct is written as. -/
def ofStruct (l : StructFields) : List (String × Json) :=
  l.filterMap fun f => f.2.map fun j => (f.1, j)

section Lookup

variable {α : Type} {k : String}

/-- A name that is not there. -/
theorem lookup_eq_none_iff {l : List (String × α)} :
    l.lookup k = none ↔ k ∉ l.map Prod.fst := by
  induction l with
  | nil => simp
  | cons p l ih =>
      rw [lookup_cons_eq, List.map_cons, List.mem_cons, not_or, ← ih]
      split_ifs with h <;> simp [h]

/-- With distinct names each field is found. -/
theorem lookup_of_mem {l : List (String × α)} {a : α} (hn : (l.map Prod.fst).Nodup)
    (h : (k, a) ∈ l) : l.lookup k = some a := by
  induction l with
  | nil => simp at h
  | cons p l ih =>
      obtain ⟨hp, hl⟩ := List.nodup_cons.1 hn
      rw [lookup_cons_eq]
      rcases List.mem_cons.1 h with rfl | h
      · rw [if_pos rfl]
      · have hk : k ≠ p.1 := fun hk => hp (List.mem_map.2 ⟨(k, a), h, hk⟩)
        rw [if_neg hk, ih hl h]

/-- Filtering by name keeps or drops all that is under a name. -/
theorem lookup_filter (p : String → Bool) (l : List (String × α)) :
    (l.filter fun f => p f.1).lookup k = if p k then l.lookup k else none := by
  induction l with
  | nil => simp
  | cons f l ih =>
      rw [List.filter_cons, lookup_cons_eq]
      by_cases hk : k = f.1
      · subst hk
        cases hp : p f.1 <;> simp [hp, ih, lookup_cons_eq]
      · cases hp : p f.1 <;> simp [hk, ih, lookup_cons_eq]

end Lookup

variable {l inner own : StructFields} {k : String}

/-- The written object has under a name what the struct declares. -/
theorem lookup_ofStruct (hn : (names l).Nodup) : (ofStruct l).lookup k = (l.lookup k).join := by
  induction l with
  | nil => rfl
  | cons f l ih =>
      obtain ⟨hf, hl⟩ := List.nodup_cons.1 hn
      obtain ⟨name, value⟩ := f
      cases value with
      | some j =>
          rw [ofStruct, List.filterMap_cons, Option.map_some]
          dsimp only
          rw [lookup_cons_eq, lookup_cons_eq]
          split_ifs
          · rfl
          · exact ih hl
      | none =>
          refine (ih hl).trans ?_
          rw [lookup_cons_eq]
          split_ifs with hk
          · -- the other fields have other names
            rw [lookup_eq_none_iff.2 (hk ▸ hf)]
            rfl
          · rfl

/-- Outer fields hide embedded ones. -/
theorem lookup_embedding :
    (embedding inner own).lookup k = if k ∈ names own then own.lookup k else inner.lookup k := by
  rw [embedding, List.lookup_append, lookup_filter fun n => decide (n ∉ names own)]
  by_cases h : k ∈ names own
  · rw [if_pos h, if_neg (by simpa using h), Option.none_or]
  · rw [if_neg h, if_pos (by simpa using h), lookup_eq_none_iff.2 h, Option.or_none]

/-- The fields of an embedded struct and its own have distinct names. -/
theorem names_embedding_nodup (hi : (names inner).Nodup) (ho : (names own).Nodup) :
    (names (embedding inner own)).Nodup := by
  rw [names, embedding, List.map_append, List.nodup_append]
  refine ⟨(List.filter_sublist.map Prod.fst).nodup hi, ho, fun a ha b hb hab => ?_⟩
  obtain ⟨f, hf, rfl⟩ := List.mem_map.1 ha
  exact (of_decide_eq_true (List.mem_filter.1 hf).2) (hab ▸ hb)

/-! ### Spreading and assigning -/

/-- `{...o, k: j}`. -/
def assign (o : List (String × Json)) (k : String) (j : Json) : List (String × Json) :=
  Dir.setEntry k j o

/-- `const {a, b, ...rest} = o`. -/
def without (ks : List String) (o : List (String × Json)) : List (String × Json) :=
  o.filter fun f => decide (f.1 ∉ ks)

/-- What an object has after an assignment. -/
theorem lookup_assign (o : List (String × Json)) (k k' : String) (j : Json) :
    (assign o k j).lookup k' = if k' = k then some j else o.lookup k' := by
  induction o with
  | nil => exact lookup_cons_eq _ (k, j) []
  | cons f o ih =>
      rw [assign] at ih
      rw [assign, Dir.setEntry]
      by_cases hf : f.1 = k
      · rw [if_pos hf, lookup_cons_eq, lookup_cons_eq, ← hf]
        split_ifs <;> rfl
      · rw [if_neg hf, lookup_cons_eq, lookup_cons_eq, ih]
        by_cases h : k' = f.1
        · simp [h, hf]
        · simp [h]

/-- What an object has after names are taken out. -/
theorem lookup_without (ks : List String) (o : List (String × Json)) (k : String) :
    (without ks o).lookup k = if k ∈ ks then none else o.lookup k := by
  rw [without, lookup_filter fun n => decide (n ∉ ks)]
  by_cases h : k ∈ ks <;> simp [h]

end Json
end CxtHub
