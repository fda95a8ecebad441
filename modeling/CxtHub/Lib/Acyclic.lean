/-
# Acyclic relations

`Acyclic r`: no node reaches itself in one step or more.  Removing edges keeps it
(`Acyclic.mono`), adding one edge keeps it exactly when its end did not reach its start
(`acyclic_insert_iff`), and so does adding edges that lead from outside a closed set into it
(`Acyclic.enter`).

A search over a finite graph proves acyclicity by listing the nodes so that the
successors of each come later in the list: `Ordered`, `acyclic_of_ordered`.  The
other direction is `Acyclic.exists_sink`: among finitely many nodes one has no
successor.
-/

import CxtHub.Lib.Paths
import Mathlib.Data.Fintype.Order

namespace CxtHub
namespace Graph

open Relation

variable {α : Type}

/-- No node reaches itself. -/
def Acyclic (r : α → α → Prop) : Prop := ∀ x, ¬ TransGen r x x

section Edges

variable {r r' : α → α → Prop}

/-- Fewer edges make no cycle. -/
theorem Acyclic.mono (h : Acyclic r) (hsub : ∀ a b, r' a b → r a b) : Acyclic r' :=
  fun x hx => h x (TransGen.mono hsub _ _ hx)

/-- A path in the graph with one more edge either avoids the edge or passes it. -/
theorem transGen_insert {s t x y : α} (h : ∀ a b, r' a b → r a b ∨ (a = s ∧ b = t))
    (hxy : TransGen r' x y) :
    TransGen r x y ∨ (ReflTransGen r x s ∧ ReflTransGen r t y) := by
  induction hxy with
  | single hab =>
      rcases h _ _ hab with hr | ⟨rfl, rfl⟩
      · exact Or.inl (.single hr)
      · exact Or.inr ⟨.refl, .refl⟩
  | tail _ hbc ih =>
      rcases h _ _ hbc with hr | ⟨rfl, rfl⟩
      · rcases ih with ih | ⟨hs, ht⟩
        · exact Or.inl (ih.tail hr)
        · exact Or.inr ⟨hs, ht.tail hr⟩
      · rcases ih with ih | ⟨hs, -⟩
        · exact Or.inr ⟨ih.to_reflTransGen, .refl⟩
        · exact Or.inr ⟨hs, .refl⟩

/-- **Adding one edge keeps a graph acyclic exactly when its end does not reach its
start.** -/
theorem acyclic_insert_iff {s t : α} (h : ∀ a b, r' a b ↔ r a b ∨ (a = s ∧ b = t)) :
    Acyclic r' ↔ Acyclic r ∧ ¬ ReflTransGen r t s := by
  have hsub : ∀ a b, r a b → r' a b := fun a b hab => (h a b).2 (Or.inl hab)
  constructor
  · intro hr'
    refine ⟨hr'.mono hsub, fun hts => hr' s ?_⟩
    exact TransGen.head' ((h s t).2 (Or.inr ⟨rfl, rfl⟩)) (ReflTransGen.mono hsub _ _ hts)
  · rintro ⟨hr, hts⟩ x hx
    rcases transGen_insert (fun a b => (h a b).1) hx with hx | ⟨hxs, htx⟩
    · exact hr x hx
    · exact hts (htx.trans hxs)

/-- With edges that only lead from outside a closed set into it, a path either uses none of
them or enters the set. -/
theorem transGen_enter {inside : α → Prop} (hclosed : ∀ a b, inside a → r' a b → inside b)
    (hnew : ∀ a b, r' a b → r a b ∨ (¬ inside a ∧ inside b)) {x y : α} (hxy : TransGen r' x y) :
    TransGen r x y ∨ (¬ inside x ∧ inside y) := by
  induction hxy with
  | single hab => exact (hnew _ _ hab).imp_left TransGen.single
  | @tail b c hxb hbc ih =>
      rcases ih with ih | ⟨hx, hb⟩
      · rcases hnew b c hbc with hr | ⟨hb, hc⟩
        · exact Or.inl (ih.tail hr)
        · have hx : ¬ inside x := fun hx =>
            hb (Paths.covered_of_path hclosed hx hxb.to_reflTransGen)
          exact Or.inr ⟨hx, hc⟩
      · exact Or.inr ⟨hx, hclosed b c hb hbc⟩

/-- **Edges from outside a closed set into it make no cycle.** -/
theorem Acyclic.enter {inside : α → Prop} (h : Acyclic r)
    (hclosed : ∀ a b, inside a → r' a b → inside b)
    (hnew : ∀ a b, r' a b → r a b ∨ (¬ inside a ∧ inside b)) : Acyclic r' := by
  intro x hx
  rcases transGen_enter hclosed hnew hx with hx | ⟨hout, hin⟩
  · exact h x hx
  · exact hout hin

/-- Among finitely many nodes of an acyclic graph one has no successor. -/
theorem Acyclic.exists_sink (h : Acyclic r) {l : List α} (hl : l ≠ []) :
    ∃ x ∈ l, ∀ y ∈ l, ¬ r x y := by
  let R : { x // x ∈ l } → { x // x ∈ l } → Prop := fun a b => TransGen r b.1 a.1
  have : IsTrans { x // x ∈ l } R := ⟨fun _ _ _ hab hbc => hbc.trans hab⟩
  have : Std.Irrefl R := ⟨fun a ha => h a.1 ha⟩
  have : Finite { x // x ∈ l } := Set.Finite.to_subtype (List.finite_toSet l)
  have hwf : WellFounded R := Finite.wellFounded_of_trans_of_irrefl R
  obtain ⟨a, ha⟩ := List.exists_mem_of_ne_nil l hl
  obtain ⟨x, -, hx⟩ := hwf.has_min Set.univ ⟨⟨a, ha⟩, trivial⟩
  exact ⟨x.1, x.2, fun y hy hxy => hx ⟨y, hy⟩ trivial (.single hxy)⟩

end Edges

/-! ### Lists that order a graph -/

variable {succ : α → List α} {dom l : List α}

/-- A list in which the successors of each element come later or are outside the graph. -/
inductive Ordered (succ : α → List α) (dom : List α) : List α → Prop
  | nil : Ordered succ dom []
  | cons {a : α} {l : List α} : Ordered succ dom l → a ∉ l →
      (∀ y ∈ succ a, y ∈ l ∨ y ∉ dom) → Ordered succ dom (a :: l)

theorem Ordered.nodup (h : Ordered succ dom l) : l.Nodup := by
  induction h with
  | nil => exact List.nodup_nil
  | cons _ ha _ ih => exact List.nodup_cons.2 ⟨ha, ih⟩

/-- Successors of what is listed are listed, or outside. -/
theorem Ordered.closed_step (h : Ordered succ dom l) {x y : α} (hx : x ∈ l)
    (hy : y ∈ succ x) : y ∈ l ∨ y ∉ dom := by
  induction h with
  | nil => cases hx
  | cons _ _ hsucc ih =>
      rcases List.mem_cons.1 hx with rfl | hx
      · exact (hsucc y hy).imp_left (List.mem_cons_of_mem _)
      · exact (ih hx).imp_left (List.mem_cons_of_mem _)

/-- What an ordered list reaches is in it or outside the graph. -/
theorem Ordered.closed (hdom : ∀ b ∉ dom, succ b = []) (h : Ordered succ dom l) {x y : α}
    (hx : x ∈ l) (hxy : ReflTransGen (fun a b => b ∈ succ a) x y) : y ∈ l ∨ y ∉ dom := by
  induction hxy with
  | refl => exact Or.inl hx
  | tail _ hbc ih =>
      rcases ih with hb | hb
      · exact h.closed_step hb hbc
      · rw [hdom _ hb] at hbc
        cases hbc

/-- No element of an ordered list is on a cycle. -/
theorem Ordered.not_cycle (hdom : ∀ b ∉ dom, succ b = []) (h : Ordered succ dom l) {x : α}
    (hx : x ∈ l) : ¬ TransGen (fun a b => b ∈ succ a) x x := by
  induction h with
  | nil => cases hx
  | @cons a l hl ha hsucc ih =>
      rcases List.mem_cons.1 hx with rfl | hx
      · intro hcycle
        obtain ⟨y, hxy, hyx⟩ := TransGen.head'_iff.1 hcycle
        have hin : x ∈ dom := by
          by_contra hout
          rw [hdom x hout] at hxy
          cases hxy
        rcases hsucc y hxy with hy | hy
        · rcases hl.closed hdom hy hyx with hxl | hxd
          · exact ha hxl
          · exact hxd hin
        · rcases ReflTransGen.cases_head hyx with rfl | ⟨z, hz, -⟩
          · exact hy hin
          · rw [hdom y hy] at hz
            cases hz
      · exact ih hx

/-- **A graph whose nodes are all in an ordered list is acyclic.** -/
theorem acyclic_of_ordered (hdom : ∀ b ∉ dom, succ b = []) (h : Ordered succ dom l)
    (hall : ∀ x ∈ dom, x ∈ l) : Acyclic fun a b => b ∈ succ a := by
  intro x hx
  obtain ⟨y, hxy, -⟩ := TransGen.head'_iff.1 hx
  have hin : x ∈ dom := by
    by_contra hout
    rw [hdom x hout] at hxy
    cases hxy
  exact h.not_cycle hdom (hall x hin) hx

/-! ### Greedy orders -/

section Greedy

variable {less : α → α → Bool} {ready : List α → α → Prop} {done out : List α}

/-- A list that takes each time a ready node before which no ready node comes, until none is
ready.  What is ready depends on what is done. -/
def Greedy (less : α → α → Bool) (ready : List α → α → Prop) : List α → List α → Prop
  | done, [] => ∀ a, ¬ ready done a
  | done, a :: out =>
      ready done a ∧ (∀ b, ready done b → less b a = false) ∧ Greedy less ready (a :: done) out

/-- **There is one greedy order.** -/
theorem Greedy.unique {out' : List α}
    (hanti : ∀ done a b, ready done a → ready done b → less a b = false → less b a = false → a = b)
    (h : Greedy less ready done out) (h' : Greedy less ready done out') : out = out' := by
  induction out generalizing done out' with
  | nil =>
      cases out' with
      | nil => rfl
      | cons b out' => exact absurd h'.1 (h b)
  | cons a out ih =>
      cases out' with
      | nil => exact absurd h.1 (h' a)
      | cons b out' =>
          obtain rfl : a = b := hanti done a b h.1 h'.1 (h'.2.1 a h.1) (h.2.1 b h'.1)
          rw [ih h.2.2 h'.2.2]

/-- Nothing less than the next item is ready before it. -/
theorem Greedy.least {before after : List α} {a b : α}
    (h : Greedy less ready done (before ++ a :: after)) (hb : ready (before.reverse ++ done) b) :
    less b a = false := by
  induction before generalizing done with
  | nil => exact h.2.1 b hb
  | cons c before ih => exact ih h.2.2 (by simpa using hb)

/-- Each item is ready at its turn. -/
theorem Greedy.ready_at {before after : List α} {a : α}
    (h : Greedy less ready done (before ++ a :: after)) : ready (before.reverse ++ done) a := by
  induction before generalizing done with
  | nil => exact h.1
  | cons c before ih => simpa using ih h.2.2

/-- At the end nothing is ready. -/
theorem Greedy.stuck (h : Greedy less ready done out) (a : α) :
    ¬ ready (out.reverse ++ done) a := by
  induction out generalizing done with
  | nil => exact h a
  | cons c out ih => simpa using ih h.2.2

end Greedy

end Graph
end CxtHub
