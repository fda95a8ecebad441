/-
# Cycle search by depth-first visit

A recursive visit marks a node when it enters it (grey), again when it leaves it
(black), and reports a cycle when it meets a grey node.  `visit` returns the black
nodes, or `none` for a cycle; the grey nodes are the path from the root.

`search_isNone_iff`: the search finds a cycle exactly when there is one.  The black
nodes are an ordered list, and every grey node reaches the node being visited.
-/

import CxtHub.Lib.Acyclic

namespace CxtHub
namespace Graph

open Relation

variable {α : Type} [DecidableEq α]

/-- Visit a node, with the grey path above it and the nodes already black. -/
def visit (succ : α → List α) (dom : List α) : ℕ → List α → List α → α → Option (List α)
  | 0, _, _, _ => none
  | fuel + 1, grey, black, id =>
      if id ∈ grey then none
      else if id ∈ black then some black
      else if id ∉ dom then some black
      else ((succ id).foldlM (visit succ dom fuel (id :: grey)) black).map (id :: ·)

/-- Visit every node of the graph. -/
def hasCycle (succ : α → List α) (dom : List α) : Bool :=
  (dom.foldlM (visit succ dom (dom.length + 1) []) []).isNone

variable {succ : α → List α} {dom : List α}

/-- What a visit of some nodes leaves: a larger ordered list of black nodes, without
the grey ones, that holds every visited node of the graph. -/
structure Visited (succ : α → List α) (dom grey black nodes after : List α) : Prop where
  ordered : Ordered succ dom after
  fresh : ∀ g ∈ grey, g ∉ after
  grows : black ⊆ after
  done : ∀ p ∈ nodes, p ∈ after ∨ p ∉ dom

omit [DecidableEq α] in
/-- Visiting nodes one after another, when each visit does what it should. -/
theorem foldlM_visited {f : List α → α → Option (List α)} (grey nodes : List α) {C : Prop}
    (hf : ∀ black, Ordered succ dom black → (∀ g ∈ grey, g ∉ black) → ∀ p ∈ nodes,
      (∀ after, f black p = some after → Visited succ dom grey black [p] after) ∧
        (f black p = none → C)) {black : List α} (hblack : Ordered succ dom black)
    (hfresh : ∀ g ∈ grey, g ∉ black) :
    (∀ after, nodes.foldlM f black = some after →
      Visited succ dom grey black nodes after) ∧ (nodes.foldlM f black = none → C) := by
  induction nodes generalizing black with
  | nil =>
      refine ⟨fun after h => ?_, fun h => by cases h⟩
      rw [List.foldlM_nil, Option.pure_def, Option.some.injEq] at h
      subst h
      exact ⟨hblack, hfresh, fun _ h => h, fun _ h => by cases h⟩
  | cons p nodes ih =>
      obtain ⟨hsome, hnone⟩ := hf black hblack hfresh p (List.mem_cons_self ..)
      rw [List.foldlM_cons]
      cases hp : f black p with
      | none => exact ⟨fun _ h => (by cases h), fun _ => hnone hp⟩
      | some mid =>
          have hmid := hsome mid hp
          obtain ⟨ihs, ihn⟩ := ih (fun b hb hg q hq => hf b hb hg q (List.mem_cons_of_mem _ hq))
            hmid.ordered hmid.fresh
          refine ⟨fun after h => ?_, ihn⟩
          have hafter := ihs after h
          refine ⟨hafter.ordered, hafter.fresh, fun x hx => hafter.grows (hmid.grows hx), ?_⟩
          intro q hq
          rcases List.mem_cons.1 hq with rfl | hq
          · exact (hmid.done q (List.mem_singleton_self q)).imp_left fun h => hafter.grows h
          · exact hafter.done q hq

/-- **A visit extends the black list, or there is a cycle.**  The grey path has no
repetition, so it is shorter than the graph and the fuel does not run out. -/
theorem visit_spec {fuel : ℕ} {grey black : List α} {id : α}
    (hfuel : dom.length < fuel + grey.length) (hnodup : grey.Nodup) (hgrey : grey ⊆ dom)
    (hpath : ∀ g ∈ grey, TransGen (fun a b => b ∈ succ a) g id)
    (hblack : Ordered succ dom black) (hfresh : ∀ g ∈ grey, g ∉ black) :
    (∀ after, visit succ dom fuel grey black id = some after →
      Visited succ dom grey black [id] after) ∧
    (visit succ dom fuel grey black id = none → ∃ x, TransGen (fun a b => b ∈ succ a) x x) := by
  induction fuel generalizing grey black id with
  | zero =>
      have hle := (List.subperm_of_subset hnodup hgrey).length_le
      omega
  | succ fuel ih =>
      have hsame : (id ∈ black ∨ id ∉ dom) → Visited succ dom grey black [id] black :=
        fun h => ⟨hblack, hfresh, fun _ h => h, fun p hp => List.mem_singleton.1 hp ▸ h⟩
      unfold visit
      split_ifs with hg hb hd
      · exact ⟨fun _ h => (by cases h), fun _ => ⟨id, hpath id hg⟩⟩
      · refine ⟨fun after h => ?_, fun h => by cases h⟩
        rw [← Option.some.inj h]
        exact hsame (Or.inl hb)
      · -- the node turns grey while its successors are visited
        have hfold := foldlM_visited (id :: grey) (succ id)
          (fun b hbo hbf p hp => ih (by simp only [List.length_cons]; omega)
            (List.nodup_cons.2 ⟨hg, hnodup⟩) (List.cons_subset.2 ⟨hd, hgrey⟩)
            (fun g hgm => by
              rcases List.mem_cons.1 hgm with rfl | hgm
              · exact .single hp
              · exact (hpath g hgm).tail hp) hbo hbf)
          hblack (fun g hgm => by
            rcases List.mem_cons.1 hgm with rfl | hgm
            · exact hb
            · exact hfresh g hgm)
        refine ⟨fun after h => ?_, fun h => hfold.2 (Option.map_eq_none_iff.1 h)⟩
        obtain ⟨mid, hmid, rfl⟩ := Option.map_eq_some_iff.1 h
        have hv := hfold.1 mid hmid
        exact {
          ordered := .cons hv.ordered (hv.fresh id (List.mem_cons_self ..)) hv.done
          fresh := fun g hgm hmem => by
            rcases List.mem_cons.1 hmem with rfl | hmem
            · exact hg hgm
            · exact hv.fresh g (List.mem_cons_of_mem _ hgm) hmem
          grows := fun x hx => List.mem_cons_of_mem _ (hv.grows hx)
          done := fun p hp => Or.inl (List.mem_singleton.1 hp ▸ List.mem_cons_self ..) }
      · refine ⟨fun after h => ?_, fun h => by cases h⟩
        rw [← Option.some.inj h]
        exact hsame (Or.inr hd)

/-- **The search finds a cycle exactly when there is one**, given more turns than nodes. -/
theorem search_isNone_iff (hdom : ∀ b ∉ dom, succ b = []) {fuel : ℕ} (hfuel : dom.length < fuel) :
    (dom.foldlM (visit succ dom fuel []) []).isNone = true ↔ ¬ Acyclic fun a b => b ∈ succ a := by
  have hroot : ∀ black, Ordered succ dom black → (∀ g ∈ [], g ∉ black) → ∀ p ∈ dom,
      (∀ after, visit succ dom fuel [] black p = some after →
        Visited succ dom [] black [p] after) ∧
      (visit succ dom fuel [] black p = none →
        ∃ x, TransGen (fun a b => b ∈ succ a) x x) := fun black hb hf p _ =>
    visit_spec (by simpa using hfuel) List.nodup_nil (List.nil_subset _) (fun g hg => by cases hg)
      hb hf
  obtain ⟨hsome, hnone⟩ := foldlM_visited [] dom hroot Ordered.nil fun g hg => by cases hg
  cases h : dom.foldlM (visit succ dom fuel []) [] with
  | none =>
      obtain ⟨x, hx⟩ := hnone h
      exact ⟨fun _ hac => hac x hx, fun _ => rfl⟩
  | some after =>
      have hv := hsome after h
      have hall : ∀ x ∈ dom, x ∈ after := fun x hx =>
        (hv.done x hx).resolve_right fun hout => hout hx
      have hac := acyclic_of_ordered hdom hv.ordered hall
      exact ⟨fun hfalse => absurd hfalse (by simp), fun hnot => absurd hac hnot⟩

/-- **The search finds a cycle exactly when there is one.** -/
theorem hasCycle_iff (hdom : ∀ b ∉ dom, succ b = []) :
    hasCycle succ dom = true ↔ ¬ Acyclic fun a b => b ∈ succ a :=
  search_isNone_iff hdom (Nat.lt_succ_self _)

theorem hasCycle_eq_false_iff (hdom : ∀ b ∉ dom, succ b = []) :
    hasCycle succ dom = false ↔ Acyclic fun a b => b ∈ succ a := by
  rw [← not_iff_not, Bool.not_eq_false, hasCycle_iff hdom]

end Graph
end CxtHub
