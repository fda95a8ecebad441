/-
# Replaying events in a causal order

`run step s l` applies the elements of a list one after another; a step may fail.
Every element has a key and names the keys it depends on.  A list is `Causal` when
each element comes after its dependencies.

When two independent neighbours may change places without a change of the outcome
(`Diamond`), every causal order of the same elements has the same outcome:
`run_perm`.  A part that holds the dependencies of its elements can then be run
first, and the rest after it: `run_closed`.
-/

import CxtHub.Lib.Checks
import Mathlib.Data.List.Perm.Basic

namespace CxtHub
namespace Replay

variable {σ ε α ι : Type}

/-- Apply the elements of a list one after another. -/
def run (step : σ → α → Except ε σ) : σ → List α → Except ε σ
  | s, [] => .ok s
  | s, a :: l => step s a >>= fun t => run step t l

section Run

variable {step : σ → α → Except ε σ} {s t : σ} {a : α} {l : List α}

/-- A run, step by step. -/
theorem run_cons : run step s (a :: l) = .ok t ↔ ∃ u, step s a = .ok u ∧ run step u l = .ok t := by
  rw [run, bind_eq_ok]

/-- **The invariant rule.** -/
theorem run_invariant {Inv : σ → Prop} (hstep : ∀ s a t, Inv s → step s a = .ok t → Inv t)
    (hs : Inv s) (h : run step s l = .ok t) : Inv t := by
  induction l generalizing s with
  | nil =>
      cases h
      exact hs
  | cons a l ih =>
      obtain ⟨u, hu, h⟩ := run_cons.1 h
      exact ih (hstep s a u hs hu) h

/-- **The invariant rule with the elements that were applied.** -/
theorem run_history {J : List α → σ → Prop} (done : List α)
    (hstep : ∀ done s a t, J done s → step s a = .ok t → J (done ++ [a]) t)
    (hs : J done s) (h : run step s l = .ok t) : J (done ++ l) t := by
  induction l generalizing s done with
  | nil =>
      cases h
      rwa [List.append_nil]
  | cons a l ih =>
      obtain ⟨u, hu, h⟩ := run_cons.1 h
      have hrest := ih _ (hstep done s a u hs hu) h
      rwa [List.append_assoc] at hrest

/-- A run over two lists is two runs. -/
theorem run_append {m : List α} :
    run step s (l ++ m) = .ok t ↔ ∃ u, run step s l = .ok u ∧ run step u m = .ok t := by
  induction l generalizing s with
  | nil => simp [run]
  | cons a l ih =>
      simp only [List.cons_append, run_cons, ih]
      constructor
      · rintro ⟨u, hu, v, hv, h⟩
        exact ⟨v, ⟨u, hu, hv⟩, h⟩
      · rintro ⟨v, ⟨u, hu, hv⟩, h⟩
        exact ⟨u, hu, v, hv, h⟩

end Run

section Order

variable (key : α → ι) (deps : α → List ι)

/-- Each element comes after its dependencies; those in `done` were met before. -/
def Causal : List ι → List α → Prop
  | _, [] => True
  | done, a :: l => (∀ d ∈ deps a, d ∈ done) ∧ Causal (key a :: done) l

/-- Neither element depends on the other. -/
def Independent (a b : α) : Prop := key a ∉ deps b ∧ key b ∉ deps a

variable {key deps} {done done' : List ι} {a b : α} {l m : List α}

theorem Causal.mono (h : Causal key deps done l) (hsub : ∀ d ∈ done, d ∈ done') :
    Causal key deps done' l := by
  induction l generalizing done done' with
  | nil => trivial
  | cons a l ih =>
      refine ⟨fun d hd => hsub d (h.1 d hd), ih h.2 fun d hd => ?_⟩
      rcases List.mem_cons.1 hd with rfl | hd
      · exact List.mem_cons_self
      · exact List.mem_cons_of_mem _ (hsub d hd)

/-- An element depends only on what was met before it. -/
theorem Causal.met (h : Causal key deps done (l ++ a :: m)) :
    ∀ d ∈ deps a, d ∈ done ∨ d ∈ l.map key := by
  induction l generalizing done with
  | nil => exact fun d hd => .inl (h.1 d hd)
  | cons b l ih =>
      intro d hd
      rcases ih h.2 d hd with hdone | hl
      · rcases List.mem_cons.1 hdone with rfl | hdone
        · exact .inr List.mem_cons_self
        · exact .inl hdone
      · exact .inr (List.mem_cons_of_mem _ hl)

/-- The elements after one that was met already. -/
theorem Causal.remove (h : Causal key deps done (l ++ a :: m)) :
    Causal key deps (key a :: done) (l ++ m) := by
  induction l generalizing done with
  | nil => exact h.2
  | cons b l ih =>
      refine ⟨fun d hd => List.mem_cons_of_mem _ (h.1 d hd), (ih h.2).mono fun d hd => ?_⟩
      simp only [List.mem_cons] at hd ⊢
      tauto

/-- Causal lists one after the other. -/
theorem causal_append (hl : Causal key deps done l)
    (hm : Causal key deps (l.map key ++ done) m) : Causal key deps done (l ++ m) := by
  induction l generalizing done with
  | nil => exact hm
  | cons a l ih =>
      refine ⟨hl.1, ih hl.2 (hm.mono fun d hd => ?_)⟩
      simp only [List.map_cons, List.cons_append, List.mem_cons, List.mem_append] at hd ⊢
      tauto

/-- A part is causal when its elements depend on nothing outside it that was not met. -/
theorem Causal.filter {keep : α → Bool} (h : Causal key deps done l)
    (hdone : ∀ a ∈ l, keep a = true → ∀ d ∈ deps a, d ∈ done → d ∈ done')
    (hclosed : ∀ a ∈ l, keep a = true → ∀ b ∈ l, key b ∈ deps a →
      keep b = true ∨ key b ∈ done') : Causal key deps done' (l.filter keep) := by
  induction l generalizing done done' with
  | nil => trivial
  | cons b l ih =>
      have hb := List.mem_cons_self (a := b) (l := l)
      by_cases hkeep : keep b = true
      · rw [List.filter_cons_of_pos hkeep]
        refine ⟨fun d hd => hdone b hb hkeep d hd (h.1 d hd), ih h.2 ?_ ?_⟩
        · intro a ha hka d hd hmem
          rcases List.mem_cons.1 hmem with rfl | hmem
          · exact List.mem_cons_self
          · exact List.mem_cons_of_mem _ (hdone a (List.mem_cons_of_mem _ ha) hka d hd hmem)
        · intro a ha hka c hc hd
          exact (hclosed a (List.mem_cons_of_mem _ ha) hka c (List.mem_cons_of_mem _ hc)
            hd).imp_right (List.mem_cons_of_mem _)
      · rw [List.filter_cons_of_neg hkeep]
        refine ih h.2 ?_ fun a ha hka c hc =>
          hclosed a (List.mem_cons_of_mem _ ha) hka c (List.mem_cons_of_mem _ hc)
        intro a ha hka d hd hmem
        have ha := List.mem_cons_of_mem b ha
        rcases List.mem_cons.1 hmem with rfl | hmem
        · exact (hclosed a ha hka b hb hd).resolve_left hkeep
        · exact hdone a ha hka d hd hmem

variable {step : σ → α → Except ε σ} {Inv : σ → Prop}

/-- Two independent steps that succeed in one order succeed in the other, with one outcome. -/
def Diamond (step : σ → α → Except ε σ) (Inv : σ → Prop) (key : α → ι) (deps : α → List ι)
    (P : α → Prop) : Prop :=
  ∀ s a b t u, Inv s → P a → P b → Independent key deps a b → step s a = .ok t →
    step t b = .ok u → ∃ t', step s b = .ok t' ∧ step t' a = .ok u

variable {P : α → Prop} {s t : σ}

/-- An element that is independent of those before it may be applied first. -/
theorem run_bubble (hstep : ∀ s a t, Inv s → step s a = .ok t → Inv t)
    (hdiamond : Diamond step Inv key deps P) (hs : Inv s) (ha : P a) (hl : ∀ b ∈ l, P b)
    (hind : ∀ b ∈ l, Independent key deps b a) (h : run step s (l ++ a :: m) = .ok t) :
    run step s (a :: (l ++ m)) = .ok t := by
  induction l generalizing s with
  | nil => exact h
  | cons b l ih =>
      rw [List.forall_mem_cons] at hl hind
      obtain ⟨u, hu, h⟩ := run_cons.1 h
      obtain ⟨v, hv, h⟩ := run_cons.1 (ih (hstep s b u hs hu) hl.2 hind.2 h)
      obtain ⟨u', hu', hv'⟩ := hdiamond s b a u v hs hl.1 ha hind.1 hu hv
      exact run_cons.2 ⟨u', hu', run_cons.2 ⟨v, hv', h⟩⟩

/-- **Every causal order of the same elements has the same outcome.** -/
theorem run_perm (hstep : ∀ s a t, Inv s → step s a = .ok t → Inv t)
    (hdiamond : Diamond step Inv key deps P) (hs : Inv s) (hP : ∀ a ∈ l, P a)
    (hl : Causal key deps done l) (hm : Causal key deps done m) (hperm : l.Perm m)
    (hnodup : (l.map key).Nodup) (hnew : ∀ a ∈ l, key a ∉ done) (h : run step s l = .ok t) :
    run step s m = .ok t := by
  induction m generalizing s done l with
  | nil => rwa [hperm.eq_nil] at h
  | cons a m ih =>
      obtain ⟨x, y, rfl⟩ := List.append_of_mem (hperm.mem_iff.2 List.mem_cons_self)
      have hperm' : (x ++ y).Perm m := (List.perm_middle.symm.trans hperm).cons_inv
      have hnodup' : (key a :: (x ++ y).map key).Nodup := by
        rw [← List.map_cons (f := key)]
        exact (List.perm_middle.map key).nodup_iff.1 hnodup
      obtain ⟨ha, hrest⟩ := List.nodup_cons.1 hnodup'
      have hbefore : ∀ b ∈ x, Independent key deps b a := by
        intro b hb
        refine ⟨fun hdep => hnew b (List.mem_append_left _ hb) (hm.1 _ hdep), fun hdep => ?_⟩
        obtain ⟨x₁, x₂, rfl⟩ := List.append_of_mem hb
        rw [List.append_assoc] at hl
        rcases hl.met _ hdep with hdone | hx
        · exact hnew a (by simp) hdone
        · exact ha (by
            simp only [List.map_append, List.mem_append]
            exact .inl (.inl hx))
      have hrun := run_bubble hstep hdiamond hs (hP a (by simp))
        (fun b hb => hP b (List.mem_append_left _ hb)) hbefore h
      obtain ⟨u, hu, hrun⟩ := run_cons.1 hrun
      refine run_cons.2 ⟨u, hu, ih (hstep s a u hs hu) (fun b hb => hP b ?_) hl.remove hm.2 hperm'
        hrest (fun b hb hmem => ?_) hrun⟩
      · simp only [List.mem_append, List.mem_cons] at hb ⊢
        tauto
      · rcases List.mem_cons.1 hmem with heq | hmem
        · exact ha (heq ▸ List.mem_map_of_mem hb)
        · refine hnew b ?_ hmem
          simp only [List.mem_append, List.mem_cons] at hb ⊢
          tauto

/-- **A part that holds the dependencies of its elements can be run first.** -/
theorem run_closed (hstep : ∀ s a t, Inv s → step s a = .ok t → Inv t)
    (hdiamond : Diamond step Inv key deps P) (hs : Inv s) (hP : ∀ a ∈ l, P a)
    (hl : Causal key deps [] l) (hnodup : (l.map key).Nodup) {keep : α → Bool}
    (hclosed : ∀ a ∈ l, keep a = true → ∀ b ∈ l, key b ∈ deps a → keep b = true)
    (h : run step s l = .ok t) :
    ∃ u, run step s (l.filter keep) = .ok u ∧ run step u (l.filter fun a => !keep a) = .ok t := by
  have hfirst : Causal key deps [] (l.filter keep) :=
    hl.filter (fun _ _ _ _ _ hd => hd) fun a ha hka b hb hd => .inl (hclosed a ha hka b hb hd)
  have hrest : Causal key deps ((l.filter keep).map key ++ []) (l.filter fun a => !keep a) := by
    refine hl.filter (fun _ _ _ _ _ hd => absurd hd List.not_mem_nil) fun a _ _ b hb _ => ?_
    by_cases hkb : keep b = true
    · right
      rw [List.append_nil]
      exact List.mem_map_of_mem (List.mem_filter.2 ⟨hb, hkb⟩)
    · exact .inl (by simpa using hkb)
  exact run_append.1 (run_perm hstep hdiamond hs hP hl (causal_append hfirst hrest)
    (List.filter_append_perm keep l).symm hnodup (fun _ _ hd => absurd hd List.not_mem_nil) h)

end Order

end Replay
end CxtHub
