/-
# Worklist search over a successor function

Two loops that walk a directed graph with an explicit stack, as programs write
them: `walk` collects every node it visits, `search` stops at a wanted node.
A node satisfying `stop` is never expanded and never collected; a node without
an entry in the graph has no successors.

The graph is a function `succ`, nonempty on the finite list `dom` only.  Each
turn of a loop pops one node, and the successors of a node are pushed once, so
`stack.length + pending succ dom seen` turns empty the stack (`walk_spec`);
`reach` and `reaches` are the loops with that bound.  A search is a walk that
collects its goal (`search_iff_mem_walk`), so both are characterised by the
reflexive transitive closure of `Edge` (`mem_reach`, `reaches_iff`).
-/

import Mathlib.Data.List.Basic
import Mathlib.Logic.Relation

namespace CxtHub
namespace Worklist

open Relation

variable {α : Type*} [DecidableEq α]

/-- One step of the graph: a node that is not stopped at, and a successor. -/
def Edge (succ : α → List α) (stop : α → Bool) (a b : α) : Prop :=
  stop a = false ∧ b ∈ succ a

/-- The collecting loop: pop the top of the stack, skip it when it is stopped at
or known, otherwise record it and push its successors, the last one on top. -/
def walk (succ : α → List α) (stop : α → Bool) : ℕ → List α → List α → List α
  | 0, seen, _ => seen
  | _ + 1, seen, [] => seen
  | n + 1, seen, a :: rest =>
      if stop a || decide (a ∈ seen) then walk succ stop n seen rest
      else walk succ stop n (a :: seen) ((succ a).reverse ++ rest)

/-- The searching loop: the same walk, left as soon as `goal` is popped. -/
def search (succ : α → List α) (stop : α → Bool) (goal : α) : ℕ → List α → List α → Bool
  | 0, _, _ => false
  | _ + 1, _, [] => false
  | n + 1, seen, a :: rest =>
      if a = goal then true
      else if stop a || decide (a ∈ seen) then search succ stop goal n seen rest
      else search succ stop goal n (a :: seen) ((succ a).reverse ++ rest)

/-- The successors still to be pushed: those of the nodes not seen yet. -/
def pending (succ : α → List α) : List α → List α → ℕ
  | [], _ => 0
  | c :: dom, seen => (if c ∈ seen then 0 else (succ c).length) + pending succ dom seen

/-- The nodes reached from `heads`. -/
def reach (succ : α → List α) (stop : α → Bool) (dom heads : List α) : List α :=
  walk succ stop (heads.length + pending succ dom []) [] heads.reverse

/-- Whether `goal` is reached from `start`. -/
def reaches (succ : α → List α) (stop : α → Bool) (dom : List α) (start goal : α) : Bool :=
  search succ stop goal (1 + pending succ dom []) [] [start]

section Bound

variable {succ : α → List α} {dom seen : List α} {a : α}

/-- Seeing one more leaves no more pending. -/
theorem pending_cons_le : pending succ dom (a :: seen) ≤ pending succ dom seen := by
  induction dom with
  | nil => exact Nat.le_refl _
  | cons c dom ih =>
      simp only [pending, List.mem_cons]
      by_cases hca : c = a <;> by_cases hcs : c ∈ seen <;> simp [hca, hcs] <;> omega

/-- Recording a fresh node of the domain pays for pushing its successors. -/
theorem pending_cons_add (hd : a ∈ dom) (hs : a ∉ seen) :
    pending succ dom (a :: seen) + (succ a).length ≤ pending succ dom seen := by
  induction dom with
  | nil => simp at hd
  | cons c dom ih =>
      by_cases hca : c = a
      · subst hca
        have hmono : pending succ dom (c :: seen) ≤ pending succ dom seen := pending_cons_le
        simp only [pending, List.mem_cons, true_or, if_true, if_neg hs]
        omega
      · have hrest := ih ((List.mem_cons.1 hd).resolve_left fun h => hca h.symm)
        simp only [pending, List.mem_cons, hca, false_or]
        omega

/-- The bound falls with every turn that expands a node. -/
theorem pending_step (hdom : ∀ b, b ∉ dom → succ b = []) (hs : a ∉ seen) :
    pending succ dom (a :: seen) + (succ a).length ≤ pending succ dom seen := by
  by_cases hd : a ∈ dom
  · exact pending_cons_add hd hs
  · rw [hdom a hd]
    exact pending_cons_le

end Bound

section Spec

variable {succ : α → List α} {stop : α → Bool} {dom : List α}

/-- **What a walk returns.**  With enough turns, and every successor of a seen
node either stopped at, seen or on the stack, the result holds exactly the seen
nodes and the nodes reached from the stack. -/
theorem walk_spec (hdom : ∀ b, b ∉ dom → succ b = []) :
    ∀ (n : ℕ) (seen stack : List α), stack.length + pending succ dom seen ≤ n →
      (∀ a ∈ seen, ∀ b ∈ succ a, stop b = true ∨ b ∈ seen ∨ b ∈ stack) →
      (∀ x ∈ walk succ stop n seen stack, x ∈ seen ∨
        (stop x = false ∧ ∃ h ∈ stack, ReflTransGen (Edge succ stop) h x)) ∧
      (∀ x ∈ seen, x ∈ walk succ stop n seen stack) ∧
      (∀ x ∈ stack, stop x = false → x ∈ walk succ stop n seen stack) ∧
      (∀ a ∈ walk succ stop n seen stack, ∀ b ∈ succ a,
        stop b = true ∨ b ∈ walk succ stop n seen stack)
  | 0, seen, stack, hn, hinv => by
      have hst : stack = [] := List.length_eq_zero_iff.1 (by omega)
      subst hst
      exact ⟨fun x hx => Or.inl hx, fun x hx => hx, by simp, fun a ha b hb =>
        (hinv a ha b hb).imp_right fun h => h.resolve_right (by simp)⟩
  | n + 1, seen, [], hn, hinv =>
      ⟨fun x hx => Or.inl hx, fun x hx => hx, by simp, fun a ha b hb =>
        (hinv a ha b hb).imp_right fun h => h.resolve_right (by simp)⟩
  | n + 1, seen, a :: rest, hn, hinv => by
      rw [List.length_cons] at hn
      by_cases hskip : (stop a || decide (a ∈ seen)) = true
      · -- the popped node is stopped at or known: only the stack gets shorter
        rw [walk, if_pos hskip]
        obtain ⟨h₁, h₂, h₃, h₄⟩ := walk_spec hdom n seen rest (by omega) fun c hc b hb => by
          rcases hinv c hc b hb with h | h | h
          · exact Or.inl h
          · exact Or.inr (Or.inl h)
          · rcases List.mem_cons.1 h with rfl | h
            · simp only [Bool.or_eq_true, decide_eq_true_eq] at hskip
              exact hskip.imp_right Or.inl
            · exact Or.inr (Or.inr h)
        refine ⟨fun x hx => (h₁ x hx).imp_right fun ⟨hx₁, h, hh, hr⟩ =>
          ⟨hx₁, h, List.mem_cons_of_mem _ hh, hr⟩, h₂, fun x hx hx₁ => ?_, h₄⟩
        rcases List.mem_cons.1 hx with rfl | hx
        · simp only [hx₁, Bool.false_or, decide_eq_true_eq] at hskip
          exact h₂ x hskip
        · exact h₃ x hx hx₁
      · -- a fresh node: its successors move from the bound to the stack
        rw [walk, if_neg hskip]
        simp only [Bool.or_eq_true, decide_eq_true_eq, not_or, Bool.not_eq_true] at hskip
        obtain ⟨hstop, hseen⟩ := hskip
        have hpay := pending_step (a := a) hdom hseen
        obtain ⟨h₁, h₂, h₃, h₄⟩ := walk_spec hdom n (a :: seen) ((succ a).reverse ++ rest)
          (by rw [List.length_append, List.length_reverse]; omega) fun c hc b hb => by
            rcases List.mem_cons.1 hc with rfl | hc
            · exact Or.inr (Or.inr (List.mem_append_left _ (List.mem_reverse.2 hb)))
            · rcases hinv c hc b hb with h | h | h
              · exact Or.inl h
              · exact Or.inr (Or.inl (List.mem_cons_of_mem _ h))
              · rcases List.mem_cons.1 h with rfl | h
                · exact Or.inr (Or.inl (List.mem_cons_self ..))
                · exact Or.inr (Or.inr (List.mem_append_right _ h))
        refine ⟨fun x hx => ?_, fun x hx => h₂ x (List.mem_cons_of_mem _ hx),
          fun x hx hx₁ => ?_, h₄⟩
        · rcases h₁ x hx with h | ⟨hx₁, h, hh, hr⟩
          · rcases List.mem_cons.1 h with rfl | h
            · exact Or.inr ⟨hstop, x, List.mem_cons_self .., .refl⟩
            · exact Or.inl h
          · refine Or.inr ⟨hx₁, ?_⟩
            rcases List.mem_append.1 hh with hh | hh
            · exact ⟨a, List.mem_cons_self .., .head ⟨hstop, List.mem_reverse.1 hh⟩ hr⟩
            · exact ⟨h, List.mem_cons_of_mem _ hh, hr⟩
        · rcases List.mem_cons.1 hx with rfl | hx
          · exact h₂ x (List.mem_cons_self ..)
          · exact h₃ x (List.mem_append_right _ hx) hx₁

/-- Nothing is visited twice. -/
theorem nodup_walk {succ : α → List α} {stop : α → Bool} {n : ℕ} {seen stack : List α}
    (h : seen.Nodup) : (walk succ stop n seen stack).Nodup := by
  induction n generalizing seen stack with
  | zero => exact h
  | succ n ih =>
      cases stack with
      | nil => exact h
      | cons a rest =>
          unfold walk
          split_ifs with hskip
          · exact ih h
          · have hnew : a ∉ seen := fun hmem => hskip (by simp [hmem])
            exact ih (List.nodup_cons.2 ⟨hnew, h⟩)

/-- **A walk computes reachability.** -/
theorem mem_reach (hdom : ∀ b, b ∉ dom → succ b = []) (heads : List α) (x : α) :
    x ∈ reach succ stop dom heads ↔
      stop x = false ∧ ∃ h ∈ heads, ReflTransGen (Edge succ stop) h x := by
  obtain ⟨h₁, -, h₃, h₄⟩ := @walk_spec _ _ succ stop dom hdom
    (heads.length + pending succ dom []) [] heads.reverse
    (Nat.le_of_eq (by rw [List.length_reverse])) (by simp)
  constructor
  · intro hx
    rcases h₁ x hx with h | ⟨hx₁, h, hh, hr⟩
    · simp at h
    · exact ⟨hx₁, h, List.mem_reverse.1 hh, hr⟩
  · rintro ⟨hx, h, hh, hr⟩
    -- along a path the source of every edge is collected, hence its target too
    have hall : ∀ y, ReflTransGen (Edge succ stop) h y → stop y = false →
        y ∈ reach succ stop dom heads := by
      intro y hy
      induction hy with
      | refl => exact fun hs => h₃ h (List.mem_reverse.2 hh) hs
      | tail _ he ih => exact fun hs => (h₄ _ (ih he.1) _ he.2).resolve_left (by simp [hs])
    exact hall x hr hx

/-- What was seen stays seen. -/
theorem mem_walk_of_mem {n : ℕ} {seen stack : List α} {x : α} (h : x ∈ seen) :
    x ∈ walk succ stop n seen stack := by
  induction n generalizing seen stack with
  | zero => exact h
  | succ n ih =>
      cases stack with
      | nil => exact h
      | cons a rest =>
          unfold walk
          split_ifs
          · exact ih h
          · exact ih (List.mem_cons_of_mem _ h)

/-- **A search is a walk** that is not stopped at the goal, and finds it. -/
theorem search_iff_mem_walk {goal : α} {n : ℕ} {seen stack : List α} (hg : goal ∉ seen) :
    search succ stop goal n seen stack = true ↔
      goal ∈ walk succ (fun x => stop x && decide (x ≠ goal)) n seen stack := by
  induction n generalizing seen stack with
  | zero => simp [search, walk, hg]
  | succ n ih =>
      cases stack with
      | nil => simp [search, walk, hg]
      | cons a rest =>
          unfold search walk
          by_cases hgoal : a = goal
          · subst hgoal
            simp [hg, mem_walk_of_mem]
          · have hstop : (stop a && decide (a ≠ goal)) = stop a := by simp [hgoal]
            rw [if_neg hgoal, hstop]
            split_ifs
            · exact ih hg
            · exact ih (by simpa [hg] using Ne.symm hgoal)

/-- **A search decides reachability.** -/
theorem reaches_iff (hdom : ∀ b, b ∉ dom → succ b = []) (start goal : α) :
    reaches succ stop dom start goal = true ↔ ReflTransGen (Edge succ stop) start goal := by
  have hwalk : reaches succ stop dom start goal = true ↔
      goal ∈ reach succ (fun x => stop x && decide (x ≠ goal)) dom [start] :=
    search_iff_mem_walk (by simp)
  rw [hwalk, mem_reach hdom]
  clear hwalk
  simp only [ne_eq, not_true_eq_false, decide_false, Bool.and_false, List.mem_singleton,
    exists_eq_left, true_and]
  constructor
  · intro h
    -- the path is cut where it first meets the goal
    induction h using ReflTransGen.head_induction_on with
    | refl => exact .refl
    | @head a b hab _ ih =>
        by_cases ha : a = goal
        · exact ha ▸ .refl
        · exact ih.head ⟨by simpa [ha] using hab.1, hab.2⟩
  · exact ReflTransGen.mono (fun a b (hab : Edge succ stop a b) => ⟨by simp [hab.1], hab.2⟩) _ _

end Spec

end Worklist
end CxtHub
