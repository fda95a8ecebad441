/-
# A depth-first visit that works on every node when it leaves it

A recursive visit marks a node when it enters it, visits its children, works on it and
marks it as done.  Entering a node may fail, a child may be refused before it is visited,
the work may fail, and a node met on its own path is an error.

`visitAll_spec` says what a successful visit of some roots has done: it has worked once
on each node that can be reached from the roots, and on no other.  The path has no
repetition, so the fuel does not run out (`visit_fuel`).
-/

import CxtHub.Lib.Checks
import Mathlib.Data.List.Nodup
import Mathlib.Data.List.Perm.Subperm

namespace CxtHub
namespace PostOrder

open Relation

variable {α σ ε : Type} [DecidableEq α]

/-- What a visit does at a node. -/
structure Visitor (α σ ε : Type) where
  /-- Nodes that are passed over. -/
  skip : α → Bool
  /-- The children of a node that may be entered. -/
  enter : α → Except ε (List α)
  /-- What is asked of a child before it is visited. -/
  check : α → Except ε Unit
  /-- The work on a node whose children are done. -/
  leave : σ → α → Except ε σ
  /-- A node on its own path. -/
  cyclic : ε

/-- The nodes that are done, in the order in which they were left, and the state of the work. -/
structure Progress (α σ : Type) where
  done : List α := []
  state : σ

/-- Enter a node that is neither done nor on the path, with the visit of a child. -/
def Visitor.through (v : Visitor α σ ε) (child : Progress α σ → α → Except ε (Progress α σ))
    (acc : Progress α σ) (id : α) : Except ε (Progress α σ) := do
  let children ← v.enter id
  let acc ← children.foldlM (fun acc p => v.check p >>= fun _ => child acc p) acc
  let state ← v.leave acc.state id
  .ok { done := acc.done ++ [id], state := state }

/-- Visit a node, with the path above it. -/
def visit (v : Visitor α σ ε) : ℕ → List α → Progress α σ → α → Except ε (Progress α σ)
  | 0, _, _, _ => .error v.cyclic
  | fuel + 1, path, acc, id =>
      if v.skip id = true ∨ id ∈ acc.done then .ok acc
      else if id ∈ path then .error v.cyclic
      else v.through (visit v fuel (id :: path)) acc id

/-- Visit some roots one after another. -/
def visitAll (v : Visitor α σ ε) (fuel : ℕ) (roots : List α) (state : σ) :
    Except ε (Progress α σ) :=
  roots.foldlM (visit v fuel []) { state := state }

variable {v : Visitor α σ ε}

/-- One step from a node to a child. -/
def Visitor.Edge (v : Visitor α σ ε) (a b : α) : Prop :=
  v.skip a = false ∧ ∃ children, v.enter a = .ok children ∧ b ∈ children

/-! ### What a visit does -/

/-- The nodes that are done: none twice, each entered, with its children checked and done. -/
structure Complete (v : Visitor α σ ε) (done : List α) : Prop where
  nodup : done.Nodup
  kept : ∀ x ∈ done, v.skip x = false
  closed : ∀ x ∈ done, ∃ children, v.enter x = .ok children ∧
    ∀ p ∈ children, v.check p = .ok () ∧ (v.skip p = true ∨ p ∈ done)

/-- What a visit of some nodes leaves.  `J` is what the work keeps. -/
structure Visited (v : Visitor α σ ε) (J : List α → σ → Prop) (path nodes : List α)
    (acc after : Progress α σ) : Prop where
  complete : Complete v after.done
  fresh : ∀ g ∈ path, g ∉ after.done
  grows : acc.done ⊆ after.done
  visited : ∀ p ∈ nodes, v.skip p = true ∨ p ∈ after.done
  reached : ∀ x ∈ after.done, x ∈ acc.done ∨ ∃ p ∈ nodes, ReflTransGen v.Edge p x
  work : J after.done after.state

variable {J : List α → σ → Prop}

omit [DecidableEq α] in
/-- Visiting nodes one after another, when each visit does what it should. -/
theorem foldlM_visited {child : Progress α σ → α → Except ε (Progress α σ)} {path nodes : List α}
    (hchild : ∀ acc p after, Complete v acc.done → (∀ g ∈ path, g ∉ acc.done) →
      J acc.done acc.state → child acc p = .ok after → Visited v J path [p] acc after)
    {acc after : Progress α σ} (hacc : Complete v acc.done) (hfresh : ∀ g ∈ path, g ∉ acc.done)
    (hJ : J acc.done acc.state) (h : nodes.foldlM child acc = .ok after) :
    Visited v J path nodes acc after := by
  have hrun : Visited v J path ([] ++ nodes) acc after := foldlM_invariant
    (P := fun nodes s => Visited v J path nodes acc s)
    (fun nodes p s s' hs hstep => by
      have hp := hchild s p s' hs.complete hs.fresh hs.work hstep
      refine ⟨hp.complete, hp.fresh, fun x hx => hp.grows (hs.grows hx), ?_, ?_, hp.work⟩
      · intro q hq
        rcases List.mem_append.1 hq with hq | hq
        · exact (hs.visited q hq).imp_right fun hmem => hp.grows hmem
        · exact hp.visited q hq
      · intro x hx
        rcases hp.reached x hx with hx | ⟨q, hq, hpath⟩
        · refine (hs.reached x hx).imp_right ?_
          rintro ⟨q, hq, hpath⟩
          exact ⟨q, List.mem_append_left _ hq, hpath⟩
        · exact .inr ⟨q, List.mem_append_right _ hq, hpath⟩)
    ⟨hacc, hfresh, fun _ hx => hx, fun _ hp => absurd hp List.not_mem_nil,
      fun _ hx => .inl hx, hJ⟩ h
  simpa using hrun

/-- **What a visit does.**  The induction is on the fuel; the node joins the path while its
children are visited, so none of them can be done before it. -/
theorem visit_visited (hJ : ∀ done s id t, J done s → v.leave s id = .ok t → J (done ++ [id]) t)
    {fuel : ℕ} {path : List α} {acc after : Progress α σ} {id : α} (hacc : Complete v acc.done)
    (hfresh : ∀ g ∈ path, g ∉ acc.done) (hwork : J acc.done acc.state)
    (h : visit v fuel path acc id = .ok after) : Visited v J path [id] acc after := by
  induction fuel generalizing path acc after id with
  | zero => cases h
  | succ fuel ih =>
      rw [visit] at h
      split_ifs at h with hknown hpath
      · cases h
        exact ⟨hacc, hfresh, fun _ hx => hx, fun p hp => List.mem_singleton.1 hp ▸ hknown,
          fun _ hx => .inl hx, hwork⟩
      · rw [not_or, Bool.not_eq_true] at hknown
        simp only [Visitor.through, bind_eq_ok, Except.ok.injEq] at h
        obtain ⟨children, henter, mid, hmid, t, hleave, rfl⟩ := h
        have hmid' : Visited v J (id :: path) children acc mid := by
          refine foldlM_visited (fun acc p after hc hf hw hp => ?_) hacc ?_ hwork hmid
          · simp only [bind_eq_ok, exists_unit_iff] at hp
            exact ih hc hf hw hp.2
          · exact List.forall_mem_cons.2 ⟨hknown.2, hfresh⟩
        have hchecked : ∀ p ∈ children, v.check p = .ok () := by
          have hall : ∀ p ∈ [] ++ children, v.check p = .ok () := foldlM_invariant
            (P := fun done (_ : Progress α σ) => ∀ p ∈ done, v.check p = .ok ())
            (fun done p s s' hs hstep => by
              simp only [bind_eq_ok, exists_unit_iff] at hstep
              exact List.forall_mem_append.2 ⟨hs, List.forall_mem_singleton.2 hstep.1⟩)
            (fun _ hp => absurd hp List.not_mem_nil) hmid
          simpa using hall
        have hnew := hmid'.fresh id List.mem_cons_self
        have hedge : ∀ p ∈ children, v.Edge id p := fun p hp => ⟨hknown.1, children, henter, hp⟩
        refine ⟨⟨?_, ?_, ?_⟩, ?_, ?_, ?_, ?_, ?_⟩
        · exact List.Nodup.append hmid'.complete.nodup (List.nodup_singleton id)
            (List.disjoint_singleton.2 hnew)
        · exact List.forall_mem_append.2 ⟨hmid'.complete.kept, List.forall_mem_singleton.2 hknown.1⟩
        · refine List.forall_mem_append.2 ⟨fun x hx => ?_, List.forall_mem_singleton.2 ?_⟩
          · obtain ⟨kids, hkids, hall⟩ := hmid'.complete.closed x hx
            exact ⟨kids, hkids, fun p hp =>
              ⟨(hall p hp).1, (hall p hp).2.imp_right (List.mem_append_left _)⟩⟩
          · exact ⟨children, henter, fun p hp =>
              ⟨hchecked p hp, (hmid'.visited p hp).imp_right (List.mem_append_left _)⟩⟩
        · intro g hg hmem
          rcases List.mem_append.1 hmem with hmem | hmem
          · exact hmid'.fresh g (List.mem_cons_of_mem _ hg) hmem
          · exact hpath (List.mem_singleton.1 hmem ▸ hg)
        · exact fun x hx => List.mem_append_left _ (hmid'.grows hx)
        · exact List.forall_mem_singleton.2 (.inr (List.mem_append_right _ List.mem_cons_self))
        · intro x hx
          rcases List.mem_append.1 hx with hx | hx
          · refine (hmid'.reached x hx).imp_right ?_
            rintro ⟨p, hp, hreach⟩
            exact ⟨id, List.mem_cons_self, .head (hedge p hp) hreach⟩
          · exact .inr ⟨id, List.mem_cons_self, List.mem_singleton.1 hx ▸ .refl⟩
        · exact hJ mid.done mid.state id t hmid'.work hleave

/-- **A successful visit has worked once on every node that the roots reach**, and on no other. -/
theorem visitAll_spec
    (hJ : ∀ done s id t, J done s → v.leave s id = .ok t → J (done ++ [id]) t)
    {fuel : ℕ} {roots : List α} {state : σ} {after : Progress α σ} (hinit : J [] state)
    (h : visitAll v fuel roots state = .ok after) :
    Complete v after.done ∧ J after.done after.state ∧ ∀ x, x ∈ after.done ↔
      v.skip x = false ∧ ∃ r ∈ roots, ReflTransGen v.Edge r x := by
  have hafter : Visited v J [] roots { state := state } after := foldlM_visited
    (fun acc p after hc hf hw hp => visit_visited hJ hc hf hw hp)
    ⟨List.nodup_nil, fun _ hx => absurd hx List.not_mem_nil,
      fun _ hx => absurd hx List.not_mem_nil⟩ (fun _ hx => absurd hx List.not_mem_nil) hinit h
  refine ⟨hafter.complete, hafter.work, fun x => ⟨fun hx => ?_, ?_⟩⟩
  · exact ⟨hafter.complete.kept x hx, (hafter.reached x hx).resolve_left List.not_mem_nil⟩
  · rintro ⟨hskip, r, hr, hpath⟩
    -- Along a path from a root every node that is not passed over is done.
    have hall : v.skip x = true ∨ x ∈ after.done := by
      clear hskip
      induction hpath with
      | refl => exact hafter.visited r hr
      | tail _ hedge ih =>
          obtain ⟨hkept, children, henter, hmem⟩ := hedge
          obtain ⟨kids, hkids, hdone⟩ := hafter.complete.closed _
            (ih.resolve_left (by simp [hkept]))
          rw [henter, Except.ok.injEq] at hkids
          exact (hdone _ (hkids ▸ hmem)).2
    exact hall.resolve_left (by simp [hskip])

/-! ### Enough fuel -/

/-- **The fuel does not run out.**  The path holds different nodes that may be entered, so it is
no longer than a list of all of these. -/
theorem visit_fuel (dom : List α)
    (hdom : ∀ id children, v.enter id = .ok children → id ∈ dom) {fuel : ℕ} {path : List α}
    (hn : path.Nodup) (hsub : path ⊆ dom) (hfuel : dom.length < fuel + path.length) :
    visit v (fuel + 1) path = visit v fuel path := by
  induction fuel generalizing path with
  | zero =>
      have hle := (List.subperm_of_subset hn hsub).length_le
      omega
  | succ fuel ih =>
      funext acc id
      rw [visit, visit]
      split_ifs with hknown hpath
      · rfl
      · rfl
      · cases henter : v.enter id with
        | error e => simp only [Visitor.through, henter, error_bind]
        | ok children =>
            rw [ih (List.nodup_cons.2 ⟨hpath, hn⟩)
              (List.cons_subset.2 ⟨hdom id children henter, hsub⟩)
              (by rw [List.length_cons]; omega)]

end PostOrder
end CxtHub
