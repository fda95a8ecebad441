/-
# Paths that survive a change of the edges

General facts on `Relation.ReflTransGen` for a graph whose edges are edited: a
path is kept when no node it can reach changes (`reach_congr`), what a set of
covered nodes reaches stays covered when every lost edge ends in the set
(`covered_of_path`), and a list of consecutive edges is a path from its last
element back to each of its elements (`reach_of_chain`).
-/

import Mathlib.Data.List.Chain

namespace CxtHub
namespace Paths

open Relation

variable {α : Type} {r r' : α → α → Prop}

/-- A path is kept by a relation that agrees on everything the start reaches. -/
theorem reach_of_agree {a x : α} (h : ∀ y, ReflTransGen r a y → ∀ z, r y z → r' y z)
    (hx : ReflTransGen r a x) : ReflTransGen r' a x := by
  induction hx with
  | refl => exact .refl
  | tail hy hz ih => exact ih.tail (h _ hy _ hz)

/-- **Two relations that agree on everything the start reaches have the same paths
from it.** -/
theorem reach_congr {a x : α} (h : ∀ y, ReflTransGen r a y → ∀ z, r y z ↔ r' y z) :
    ReflTransGen r a x ↔ ReflTransGen r' a x := by
  refine ⟨reach_of_agree fun y hy z => (h y hy z).1, fun hx => ?_⟩
  induction hx with
  | refl => exact .refl
  | tail _ hz ih => exact ih.tail ((h _ ih _).2 hz)

/-- If every lost edge ends in the covered set, a path from a covered node ends in
a covered node. -/
theorem covered_of_path {covered : α → Prop} (hlost : ∀ y z, covered y → r y z → covered z)
    {a x : α} (ha : covered a) (hx : ReflTransGen r a x) : covered x := by
  induction hx with
  | refl => exact ha
  | tail _ hz ih => exact hlost _ _ ih hz

/-- The last element of a chain of reversed edges reaches every element. -/
theorem reach_of_chain {l : List α} (hl : l.IsChain fun a b => r b a) (hne : l ≠ []) {x : α}
    (hx : x ∈ l) : ReflTransGen r (l.getLast hne) x := by
  induction l generalizing x with
  | nil => exact absurd rfl hne
  | cons a l ih =>
      cases l with
      | nil =>
          rw [List.mem_singleton] at hx
          rw [hx, List.getLast_singleton]
      | cons b l =>
          obtain ⟨hab, hrest⟩ := List.isChain_cons_cons.1 hl
          rw [List.getLast_cons (List.cons_ne_nil b l)]
          rcases List.mem_cons.1 hx with rfl | hx
          · exact (ih hrest (List.cons_ne_nil b l) (List.mem_cons_self ..)).tail hab
          · exact ih hrest (List.cons_ne_nil b l) hx

/-- An element of a chain is its last one or is followed by another. -/
theorem exists_next_of_chain {l : List α} (hl : l.IsChain r) {x : α} (hx : x ∈ l) :
    l.getLast? = some x ∨ ∃ y ∈ l, r x y := by
  induction l with
  | nil => cases hx
  | cons a l ih =>
      cases l with
      | nil =>
          rw [List.mem_singleton] at hx
          exact Or.inl (by rw [hx, List.getLast?_singleton])
      | cons b l =>
          obtain ⟨hab, hrest⟩ := List.isChain_cons_cons.1 hl
          rw [List.getLast?_cons_cons]
          rcases List.mem_cons.1 hx with rfl | hx
          · exact Or.inr ⟨b, by simp, hab⟩
          · exact (ih hrest hx).imp_right fun ⟨y, hy, hxy⟩ =>
              ⟨y, List.mem_cons_of_mem _ hy, hxy⟩

end Paths
end CxtHub
