/-
# Slices, and lists without repetitions

A Go slice is nil or a list; the two are told apart by `reflect.DeepEqual` and
by the JSON encoding of a field without `omitempty`, and by nothing else.

`freshFrom seen l` is the loop that keeps the elements of `l` not met before,
with `seen` already met: `mem_freshFrom`, `nodup_freshFrom`,
`freshFrom_freshFrom`, which says that filtering twice filters once, and
`freshFrom_append`, which splits the loop.

A table that takes an element once, and refuses another one with its key, keeps its keys
distinct (`nodup_addNew`).
-/

import Mathlib

namespace CxtHub

/-- A Go slice; `none` is the nil slice. -/
abbrev Slice (α : Type) := Option (List α)

/-- The elements of a slice. -/
def Slice.list {α : Type} (s : Slice α) : List α := s.getD []

@[simp] theorem Slice.list_some {α : Type} (l : List α) : Slice.list (some l) = l := rfl

@[simp] theorem Slice.list_none {α : Type} : Slice.list (none : Slice α) = [] := rfl

/-- The slice that appending elements to nil gives. -/
def Slice.grown {α : Type} : List α → Slice α
  | [] => none
  | a :: l => some (a :: l)

variable {α : Type} [DecidableEq α]

/-- The elements of a list that are not in `seen` and not repeated, in order. -/
def freshFrom (seen : List α) : List α → List α
  | [] => []
  | a :: l => if a ∈ seen then freshFrom seen l else a :: freshFrom (a :: seen) l

/-- What is kept was not seen before. -/
@[simp] theorem mem_freshFrom {seen l : List α} {x : α} :
    x ∈ freshFrom seen l ↔ x ∈ l ∧ x ∉ seen := by
  induction l generalizing seen with
  | nil => simp [freshFrom]
  | cons a l ih =>
      unfold freshFrom
      split_ifs with ha
      · rw [ih, List.mem_cons]
        refine ⟨fun h => ⟨Or.inr h.1, h.2⟩, fun ⟨h, hx⟩ => ⟨h.resolve_left ?_, hx⟩⟩
        rintro rfl
        exact hx ha
      · rw [List.mem_cons, ih, List.mem_cons, List.mem_cons, not_or]
        by_cases hxa : x = a
        · subst hxa
          simp [ha]
        · simp [hxa]

/-- Only membership in `seen` matters. -/
theorem freshFrom_congr {seen seen' : List α} (h : ∀ x, x ∈ seen ↔ x ∈ seen') (l : List α) :
    freshFrom seen l = freshFrom seen' l := by
  induction l generalizing seen seen' with
  | nil => rfl
  | cons a l ih =>
      have hcons : ∀ x, x ∈ a :: seen ↔ x ∈ a :: seen' := fun x => by simp [h x]
      simp only [freshFrom, h a, ih h, ih hcons]

/-- Elements that are not in the list need not be remembered. -/
theorem freshFrom_cons_of_notMem {a : α} {l seen : List α} (ha : a ∉ l) :
    freshFrom (a :: seen) l = freshFrom seen l := by
  induction l generalizing seen with
  | nil => rfl
  | cons b l ih =>
      obtain ⟨hab, hal⟩ := not_or.1 (fun h => ha (List.mem_cons.2 h))
      have hswap : freshFrom (b :: a :: seen) l = freshFrom (a :: b :: seen) l :=
        freshFrom_congr (fun x => by simp only [List.mem_cons]; tauto) l
      simp only [freshFrom, List.mem_cons, Ne.symm hab, false_or, ih hal, hswap]

/-- Nothing is kept twice. -/
theorem nodup_freshFrom (seen l : List α) : (freshFrom seen l).Nodup := by
  induction l generalizing seen with
  | nil => exact List.nodup_nil
  | cons a l ih =>
      unfold freshFrom
      split_ifs with ha
      · exact ih seen
      · exact List.nodup_cons.2 ⟨by simp, ih _⟩

theorem freshFrom_eq_self {seen l : List α} (hn : l.Nodup) (hs : ∀ x ∈ l, x ∉ seen) :
    freshFrom seen l = l := by
  induction l generalizing seen with
  | nil => rfl
  | cons a l ih =>
      obtain ⟨ha, hl⟩ := List.nodup_cons.1 hn
      rw [freshFrom, if_neg (hs a (List.mem_cons_self ..)), freshFrom_cons_of_notMem ha,
        ih hl fun x hx => hs x (List.mem_cons_of_mem _ hx)]

/-- **Removing repetitions is idempotent.** -/
theorem freshFrom_freshFrom (seen l : List α) :
    freshFrom seen (freshFrom seen l) = freshFrom seen l :=
  freshFrom_eq_self (nodup_freshFrom seen l) fun _ hx => (mem_freshFrom.1 hx).2

/-- The second list is read after the first. -/
theorem freshFrom_append (seen a b : List α) :
    freshFrom seen (a ++ b) = freshFrom seen a ++ freshFrom (seen ++ a) b := by
  induction a generalizing seen with
  | nil => rw [List.nil_append, List.append_nil]; rfl
  | cons x a ih =>
      have hmem : ∀ s : List α, (∀ y, y ∈ s ↔ y ∈ seen ∨ y = x) →
          freshFrom (s ++ a) b = freshFrom (seen ++ x :: a) b := fun s hs =>
        freshFrom_congr (fun y => by simp only [List.mem_append, List.mem_cons, hs y]; tauto) b
      rw [List.cons_append, freshFrom, freshFrom]
      split_ifs with hx
      · rw [ih, hmem seen fun y => ⟨Or.inl, fun h => h.elim id fun he => he ▸ hx⟩]
      · rw [ih, hmem (x :: seen) fun y => by rw [List.mem_cons, or_comm], List.cons_append]

/-- Removing the repetitions of a part first changes nothing. -/
theorem freshFrom_append_left (a b : List α) :
    freshFrom [] (freshFrom [] a ++ b) = freshFrom [] (a ++ b) := by
  rw [freshFrom_append, freshFrom_append, freshFrom_freshFrom]
  congr 1
  exact freshFrom_congr (fun y => by simp) b

/-! ### Tables -/

theorem mem_addNew {l : List α} {a x : α} :
    x ∈ (if a ∈ l then l else l ++ [a]) ↔ x ∈ l ∨ x = a := by
  split_ifs with ha
  · exact ⟨.inl, fun hx => hx.elim id fun heq => heq ▸ ha⟩
  · simp

/-- Adding an item under a new key keeps the keys distinct. -/
theorem nodup_addNew {κ : Type} {key : α → κ} {l : List α} {a : α} (hn : (l.map key).Nodup)
    (hsame : ¬ ∃ old ∈ l, key old = key a ∧ old ≠ a) :
    ((if a ∈ l then l else l ++ [a]).map key).Nodup := by
  split_ifs with ha
  · exact hn
  · rw [List.map_append, List.map_singleton, List.nodup_append]
    refine ⟨hn, List.nodup_singleton _, fun k hk k' hk' heq => ?_⟩
    obtain ⟨old, hold, rfl⟩ := List.mem_map.1 hk
    exact hsame ⟨old, hold, heq.trans (List.mem_singleton.1 hk'), fun h => ha (h ▸ hold)⟩

end CxtHub
