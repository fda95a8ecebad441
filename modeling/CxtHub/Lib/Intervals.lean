/-
# Depth-first intervals

A depth-first search with an explicit stack that gives every node the clock at which
it was entered and the clock at which it was left.  Nodes that are not `present` are
passed over.

A frame of the stack is a successor of the frame below it, so everything on the stack
reaches its top.  What is entered while a node is on the stack is therefore reached from
it, and these are the nodes whose start lies in its interval (`reach_of_interval`).  The
converse does not hold: an edge to a node that was entered before adds no interval.
Each turn uses up an edge or a node, so `budget` turns empty the stack
(`stack_visit`).
-/

import Mathlib

namespace CxtHub
namespace Intervals

open Relation

variable {α : Type} [DecidableEq α]

/-- The clock at which a node was entered, and left; `0` while it is open. -/
structure Interval where
  start : ℕ
  finish : ℕ := 0
  deriving DecidableEq, Repr

/-- A node on the stack and the index of its next successor. -/
structure Frame (α : Type) where
  id : α
  next : ℕ := 0

/-- The intervals, the clock and the stack, its top first. -/
structure Search (α : Type) where
  tree : α → Option Interval := fun _ => none
  clock : ℕ := 0
  stack : List (Frame α) := []

section Loop

variable (succ : α → List α) (present : α → Bool)

/-- Enter a node. -/
def enter (s : Search α) (p : α) : Search α :=
  { tree := Function.update s.tree p (some { start := s.clock })
    clock := s.clock + 1
    stack := { id := p } :: s.stack }

/-- Leave the node of a frame, with the frames below it. -/
def leave (s : Search α) (f : Frame α) (rest : List (Frame α)) : Search α :=
  let v := (s.tree f.id).getD { start := 0 }
  { s with tree := Function.update s.tree f.id (some { v with finish := s.clock })
           stack := rest }

/-- Pass to the next successor of the frame on top. -/
def advance (s : Search α) (f : Frame α) (rest : List (Frame α)) : Search α :=
  { s with stack := { f with next := f.next + 1 } :: rest }

/-- One turn of the loop. -/
def turn (s : Search α) : Search α :=
  match s.stack with
  | [] => s
  | f :: rest =>
      match (succ f.id)[f.next]? with
      | none => leave s f rest
      | some p =>
          if present p = false then advance s f rest
          else if (s.tree p).isSome then advance s f rest
          else enter (advance s f rest) p

/-- More turns than the search of the nodes of `dom` takes. -/
def budget (dom : List α) : ℕ := (dom.map fun d => (succ d).length + 1).sum

/-- Search from a node, unless it was entered before. -/
def visit (dom : List α) (s : Search α) (root : α) : Search α :=
  if (s.tree root).isSome then s
  else (turn succ present)^[budget succ dom] (enter s root)

end Loop

/-- What a turn does: nothing on an empty stack; otherwise it leaves the top of the stack,
passes over its next successor, or enters it. -/
theorem turn_cases (succ : α → List α) (present : α → Bool) (s : Search α) :
    (s.stack = [] ∧ turn succ present s = s) ∨
    ∃ f rest, s.stack = f :: rest ∧
      (turn succ present s = leave s f rest ∨
        ∃ p, (succ f.id)[f.next]? = some p ∧
          (turn succ present s = advance s f rest ∨
            present p = true ∧ s.tree p = none ∧
              turn succ present s = enter (advance s f rest) p)) := by
  cases hstack : s.stack with
  | nil => exact Or.inl ⟨rfl, by simp only [turn, hstack]⟩
  | cons f rest =>
      refine Or.inr ⟨f, rest, rfl, ?_⟩
      cases hnext : (succ f.id)[f.next]? with
      | none => exact Or.inl (by simp only [turn, hstack, hnext])
      | some p =>
          refine Or.inr ⟨p, rfl, ?_⟩
          simp only [turn, hstack, hnext]
          split_ifs with habsent hknown
          · exact Or.inl rfl
          · exact Or.inl rfl
          · exact Or.inr
              ⟨Bool.not_eq_false _ ▸ habsent, Option.not_isSome_iff_eq_none.1 hknown, rfl⟩

/-! ### The turns suffice -/

section Budget

variable (succ : α → List α) {present : α → Bool}

/-- The turns that the nodes not entered yet will take. -/
def unseen (tree : α → Option Interval) : List α → ℕ
  | [] => 0
  | d :: dom => (if (tree d).isSome then 0 else (succ d).length + 1) + unseen tree dom

/-- The turns that the frames of a stack will take. -/
def owed (stack : List (Frame α)) : ℕ :=
  (stack.map fun f => (succ f.id).length - f.next + 1).sum

omit [DecidableEq α] in
/-- The budget pays for every node once. -/
theorem unseen_le_budget (tree : α → Option Interval) (dom : List α) :
    unseen succ tree dom ≤ budget succ dom := by
  induction dom with
  | nil => exact le_rfl
  | cons d dom ih =>
      simp only [unseen, budget, List.map_cons, List.sum_cons] at ih ⊢
      split_ifs <;> omega

theorem unseen_update_le (tree : α → Option Interval) (p : α) (v : Interval) (dom : List α) :
    unseen succ (Function.update tree p (some v)) dom ≤ unseen succ tree dom := by
  induction dom with
  | nil => exact le_rfl
  | cons d dom ih =>
      by_cases hd : d = p
      · subst hd
        simp only [unseen, Function.update_self, Option.isSome_some, if_true]
        omega
      · simp only [unseen, Function.update_of_ne hd]
        omega

/-- Entering a node of `dom` pays for its frame. -/
theorem unseen_update_add {tree : α → Option Interval} {p : α} (v : Interval) {dom : List α}
    (hp : p ∈ dom) (hnew : tree p = none) :
    unseen succ (Function.update tree p (some v)) dom + ((succ p).length + 1) ≤
      unseen succ tree dom := by
  induction dom with
  | nil => cases hp
  | cons d dom ih =>
      by_cases hd : d = p
      · subst hd
        have hmono := unseen_update_le succ tree d v dom
        simp only [unseen, Function.update_self, Option.isSome_some, if_true, hnew,
          Option.isSome_none, Bool.false_eq_true, if_false]
        omega
      · have hrest := ih ((List.mem_cons.1 hp).resolve_left (Ne.symm hd))
        simp only [unseen, Function.update_of_ne hd]
        omega

variable {dom : List α} (hdom : ∀ p, present p = true → p ∈ dom)

include hdom in
/-- A turn with something on the stack takes one from what is left to do. -/
theorem turn_lt {s : Search α} (hs : s.stack ≠ []) :
    owed succ (turn succ present s).stack + unseen succ (turn succ present s).tree dom <
      owed succ s.stack + unseen succ s.tree dom := by
  obtain ⟨hnil, -⟩ | ⟨f, rest, hstack, hturn⟩ := turn_cases succ present s
  · exact absurd hnil hs
  obtain hturn | ⟨p, hnext, hturn | ⟨hpresent, hnew, hturn⟩⟩ := hturn
  · have hmono := unseen_update_le succ s.tree f.id
      { (s.tree f.id).getD { start := 0 } with finish := s.clock } dom
    simp only [hturn, hstack, leave, owed, List.map_cons, List.sum_cons] at hmono ⊢
    omega
  · have hlt : f.next < (succ f.id).length := (List.getElem?_eq_some_iff.1 hnext).1
    simp only [hturn, hstack, advance, owed, List.map_cons, List.sum_cons]
    omega
  · have hlt : f.next < (succ f.id).length := (List.getElem?_eq_some_iff.1 hnext).1
    have hpay := unseen_update_add succ { start := s.clock } (hdom p hpresent) hnew
    simp only [hturn, hstack, enter, advance, owed, List.map_cons, List.sum_cons]
    omega

include hdom in
/-- With enough turns the stack is empty. -/
theorem stack_iterate_turn {n : ℕ} {s : Search α}
    (hn : owed succ s.stack + unseen succ s.tree dom ≤ n) :
    ((turn succ present)^[n] s).stack = [] := by
  induction n generalizing s with
  | zero =>
      cases hstack : s.stack with
      | nil => exact hstack
      | cons f rest =>
          simp only [hstack, owed, List.map_cons, List.sum_cons] at hn
          omega
  | succ n ih =>
      by_cases hs : s.stack = []
      · have hstay : turn succ present s = s := by simp only [turn, hs]
        rw [Function.iterate_fixed hstay, hs]
      · have hlt := turn_lt succ hdom hs
        rw [Function.iterate_succ_apply]
        exact ih (by omega)

include hdom in
/-- A visit ends with an empty stack. -/
theorem stack_visit {s : Search α} (hs : s.stack = []) {root : α} (hroot : present root = true) :
    (visit succ present dom s root).stack = [] := by
  rw [visit]
  split_ifs with hknown
  · exact hs
  · refine stack_iterate_turn succ hdom ?_
    have hpay := unseen_update_add succ { start := s.clock } (hdom root hroot)
      (Option.not_isSome_iff_eq_none.1 hknown)
    have hle := unseen_le_budget succ s.tree dom
    simp only [enter, hs, owed, List.map_cons, List.map_nil, List.sum_cons, List.sum_nil]
    omega

end Budget

/-! ### What an interval proves -/

section Sound

variable {succ : α → List α} {present : α → Bool}

/-- One step between nodes that are present. -/
def Edge (succ : α → List α) (present : α → Bool) (a b : α) : Prop :=
  present a = true ∧ b ∈ succ a ∧ present b = true

/-- What every turn keeps.  A node on the stack reaches everything entered after it, and
a node that was left everything in its interval. -/
structure Sound (succ : α → List α) (present : α → Bool) (s : Search α) : Prop where
  present_of_entered : ∀ id v, s.tree id = some v → present id = true
  start_lt : ∀ id v, s.tree id = some v → v.start < s.clock
  finish_le : ∀ id v, s.tree id = some v → v.finish ≤ s.clock
  entered : ∀ f ∈ s.stack, ∃ v, s.tree f.id = some v
  chain : s.stack.IsChain fun f g => Edge succ present g.id f.id
  reach : ∀ r v t w, s.tree r = some v → s.tree t = some w → v.start ≤ w.start →
    (∃ f ∈ s.stack, f.id = r) ∨ w.start < v.finish → ReflTransGen (Edge succ present) r t

omit [DecidableEq α] in
/-- Everything on the stack reaches its top. -/
theorem reach_top {f : Frame α} {rest : List (Frame α)}
    (h : (f :: rest).IsChain fun f g => Edge succ present g.id f.id) {g : Frame α}
    (hg : g ∈ f :: rest) : ReflTransGen (Edge succ present) g.id f.id := by
  induction rest generalizing f with
  | nil => rw [List.mem_singleton.1 hg]
  | cons f' rest ih =>
      obtain ⟨hedge, hrest⟩ := List.isChain_cons_cons.1 h
      rcases List.mem_cons.1 hg with rfl | hg
      · exact .refl
      · exact (ih hrest hg).tail hedge

omit [DecidableEq α] in
theorem Sound.init : Sound succ present ({} : Search α) where
  present_of_entered := by simp
  start_lt := by simp
  finish_le := by simp
  entered := by simp
  chain := List.isChain_nil
  reach := by simp

omit [DecidableEq α] in
/-- Going on in a frame keeps the invariant. -/
theorem Sound.advance {s : Search α} (h : Sound succ present s) {f : Frame α}
    {rest : List (Frame α)} (hstack : s.stack = f :: rest) :
    Sound succ present (advance s f rest) where
  present_of_entered := h.present_of_entered
  start_lt := h.start_lt
  finish_le := h.finish_le
  entered := by
    intro g hg
    have hentered := h.entered
    rw [hstack] at hentered
    rcases List.mem_cons.1 hg with rfl | hg
    · exact hentered f (List.mem_cons_self ..)
    · exact hentered g (List.mem_cons_of_mem _ hg)
  chain := by
    have hchain := h.chain
    rw [hstack] at hchain
    cases rest with
    | nil => exact List.isChain_singleton _
    | cons g rest => exact List.isChain_cons_cons.2 (List.isChain_cons_cons.1 hchain)
  reach := by
    intro r v t w hr ht hle hopen
    refine h.reach r v t w hr ht hle (hopen.imp_left ?_)
    rintro ⟨g, hg, hid⟩
    rw [hstack]
    rcases List.mem_cons.1 hg with rfl | hg
    · exact ⟨f, List.mem_cons_self .., hid⟩
    · exact ⟨g, List.mem_cons_of_mem _ hg, hid⟩

/-- So does leaving it. -/
theorem Sound.leave {s : Search α} (h : Sound succ present s) {f : Frame α}
    {rest : List (Frame α)} (hstack : s.stack = f :: rest) :
    Sound succ present (leave s f rest) := by
  obtain ⟨u, hu⟩ := h.entered f (by rw [hstack]; exact List.mem_cons_self ..)
  -- the intervals are those of `s`, but for the end of the one that is left
  have hold : ∀ id v, (Intervals.leave s f rest).tree id = some v →
      ∃ v', s.tree id = some v' ∧ v.start = v'.start ∧
        (v.finish = v'.finish ∨ id = f.id ∧ v.finish = s.clock) := by
    intro id v hv
    by_cases hid : id = f.id
    · subst hid
      simp only [Intervals.leave, hu, Option.getD_some, Function.update_self,
        Option.some.injEq] at hv
      exact ⟨u, hu, by rw [← hv], Or.inr ⟨rfl, by rw [← hv]⟩⟩
    · simp only [Intervals.leave, Function.update_of_ne hid] at hv
      exact ⟨v, hv, rfl, Or.inl rfl⟩
  have hrest : ∀ g ∈ rest, g ∈ s.stack := fun g hg => hstack ▸ List.mem_cons_of_mem _ hg
  refine ⟨?_, ?_, ?_, ?_, ?_, ?_⟩
  · intro id v hv
    obtain ⟨v', hv', -⟩ := hold id v hv
    exact h.present_of_entered id v' hv'
  · intro id v hv
    obtain ⟨v', hv', hstart, -⟩ := hold id v hv
    rw [hstart]
    exact h.start_lt id v' hv'
  · intro id v hv
    obtain ⟨v', hv', -, hfinish | ⟨-, hfinish⟩⟩ := hold id v hv
    · rw [hfinish]
      exact h.finish_le id v' hv'
    · rw [hfinish]
      exact le_rfl
  · intro g hg
    obtain ⟨v, hv⟩ := h.entered g (hrest g hg)
    by_cases hid : g.id = f.id
    · rw [hid]
      exact ⟨_, Function.update_self ..⟩
    · exact ⟨v, by simpa only [Intervals.leave, Function.update_of_ne hid] using hv⟩
  · have hchain := h.chain
    rw [hstack] at hchain
    exact hchain.tail
  · intro r v t w hr ht hle hopen
    obtain ⟨v', hv', hstart, hfinish⟩ := hold r v hr
    obtain ⟨w', hw', hstart', -⟩ := hold t w ht
    rw [hstart, hstart'] at hle
    refine h.reach r v' t w' hv' hw' hle ?_
    rcases hopen with ⟨g, hg, hid⟩ | hlt
    · exact Or.inl ⟨g, hrest g hg, hid⟩
    · rcases hfinish with hfinish | ⟨hid, -⟩
      · exact Or.inr (by rwa [hfinish, hstart'] at hlt)
      · exact Or.inl ⟨f, by rw [hstack]; exact List.mem_cons_self .., hid.symm⟩

/-- Entering a node that every frame of the stack reaches. -/
theorem Sound.enter {s : Search α} (h : Sound succ present s) {p : α} (hp : present p = true)
    (hedge : ∀ f ∈ s.stack.head?, Edge succ present f.id p) (hnew : s.tree p = none) :
    Sound succ present (enter s p) := by
  have hcases : ∀ id v, (Intervals.enter s p).tree id = some v →
      id = p ∧ v = { start := s.clock } ∨ id ≠ p ∧ s.tree id = some v := by
    intro id v hv
    by_cases hid : id = p
    · subst hid
      simp only [Intervals.enter, Function.update_self, Option.some.injEq] at hv
      exact Or.inl ⟨rfl, hv.symm⟩
    · simp only [Intervals.enter, Function.update_of_ne hid] at hv
      exact Or.inr ⟨hid, hv⟩
  have hreach : ∀ g ∈ s.stack, ReflTransGen (Edge succ present) g.id p := by
    intro g hg
    cases hstack : s.stack with
    | nil => rw [hstack] at hg; cases hg
    | cons f rest =>
        have hchain := h.chain
        rw [hstack] at hchain hg
        exact (reach_top hchain hg).tail (hedge f (by rw [hstack]; rfl))
  refine ⟨?_, ?_, ?_, ?_, ?_, ?_⟩
  · intro id v hv
    rcases hcases id v hv with ⟨rfl, -⟩ | ⟨-, hv⟩
    · exact hp
    · exact h.present_of_entered id v hv
  · intro id v hv
    rcases hcases id v hv with ⟨-, rfl⟩ | ⟨-, hv⟩
    · exact Nat.lt_succ_self _
    · exact Nat.lt_succ_of_lt (h.start_lt id v hv)
  · intro id v hv
    rcases hcases id v hv with ⟨-, rfl⟩ | ⟨-, hv⟩
    · exact Nat.zero_le _
    · exact Nat.le_succ_of_le (h.finish_le id v hv)
  · intro g hg
    by_cases hid : g.id = p
    · rw [hid]
      exact ⟨_, Function.update_self ..⟩
    · have hg : g ∈ s.stack := (List.mem_cons.1 hg).resolve_left fun heq => hid (by rw [heq])
      obtain ⟨v, hv⟩ := h.entered g hg
      exact ⟨v, by simpa only [Intervals.enter, Function.update_of_ne hid] using hv⟩
  · cases hstack : s.stack with
    | nil =>
        simp only [Intervals.enter, hstack]
        exact List.isChain_singleton _
    | cons f rest =>
        have hchain := h.chain
        simp only [Intervals.enter, hstack] at hchain ⊢
        exact List.isChain_cons_cons.2 ⟨hedge f (by rw [hstack]; rfl), hchain⟩
  · intro r v t w hr ht hle hopen
    rcases hcases r v hr with ⟨rfl, rfl⟩ | ⟨hrp, hr'⟩
    · -- nothing but the node itself starts as late
      rcases hcases t w ht with ⟨rfl, -⟩ | ⟨-, ht⟩
      · exact .refl
      · exact absurd (h.start_lt t w ht) (not_lt.2 hle)
    · have hbelow : (∃ g ∈ s.stack, g.id = r) ∨ w.start < v.finish := by
        refine hopen.imp_left ?_
        rintro ⟨g, hg, hid⟩
        rcases List.mem_cons.1 hg with rfl | hg
        · exact absurd hid.symm hrp
        · exact ⟨g, hg, hid⟩
      rcases hcases t w ht with ⟨rfl, rfl⟩ | ⟨-, ht'⟩
      · -- a node that was left ends before the new one starts
        rcases hbelow with ⟨g, hg, rfl⟩ | hlt
        · exact hreach g hg
        · exact absurd (h.finish_le r v hr') (not_le.2 hlt)
      · exact h.reach r v t w hr' ht' hle hbelow

/-- **Each turn keeps the invariant.** -/
theorem Sound.turn {s : Search α} (h : Sound succ present s) :
    Sound succ present (turn succ present s) := by
  obtain ⟨-, hturn⟩ | ⟨f, rest, hstack, hturn⟩ := turn_cases succ present s
  · rwa [hturn]
  obtain hturn | ⟨p, hnext, hturn | ⟨hpresent, hnew, hturn⟩⟩ := hturn
  · rw [hturn]
    exact h.leave hstack
  · rw [hturn]
    exact h.advance hstack
  · rw [hturn]
    refine (h.advance hstack).enter hpresent ?_ hnew
    rintro g hg
    obtain ⟨v, hv⟩ := h.entered f (by rw [hstack]; exact List.mem_cons_self ..)
    cases Option.some.inj hg
    exact ⟨h.present_of_entered _ _ hv, List.mem_of_getElem? hnext, hpresent⟩

/-- And so does a visit from a root. -/
theorem Sound.visit {s : Search α} (h : Sound succ present s) (hs : s.stack = []) (dom : List α)
    {root : α} (hroot : present root = true) :
    Sound succ present (visit succ present dom s root) := by
  rw [Intervals.visit]
  split_ifs with hknown
  · exact h
  · have hstart : Sound succ present (Intervals.enter s root) :=
      h.enter hroot (by simp [hs]) (Option.not_isSome_iff_eq_none.1 hknown)
    exact Function.Iterate.rec (Sound succ present) hstart (fun _ ht => ht.turn) _

omit [DecidableEq α] in
/-- After a visit of all nodes a node reaches what starts in its interval. -/
theorem Sound.reach_of_interval {s : Search α} (h : Sound succ present s) {r t : α}
    {v w : Interval} (hr : s.tree r = some v) (ht : s.tree t = some w) (hle : v.start ≤ w.start)
    (hlt : w.start < v.finish) : ReflTransGen (Edge succ present) r t :=
  h.reach r v t w hr ht hle (Or.inr hlt)

theorem isSome_enter {s : Search α} {p id : α} (h : (s.tree id).isSome) :
    ((enter s p).tree id).isSome := by
  by_cases hid : id = p
  · simp only [enter, hid, Function.update_self, Option.isSome_some]
  · simpa only [enter, Function.update_of_ne hid] using h

/-- A node that was entered stays so. -/
theorem isSome_turn {s : Search α} {id : α} (h : (s.tree id).isSome) :
    ((turn succ present s).tree id).isSome := by
  obtain ⟨-, hturn⟩ | ⟨f, rest, -, hturn | ⟨p, -, hturn | ⟨-, -, hturn⟩⟩⟩ :=
    turn_cases succ present s
  · rwa [hturn]
  · rw [hturn]
    by_cases hid : id = f.id
    · simp only [leave, hid, Function.update_self, Option.isSome_some]
    · simpa only [leave, Function.update_of_ne hid] using h
  · rw [hturn]
    exact h
  · rw [hturn]
    exact isSome_enter h

theorem isSome_iterate_turn {s : Search α} {id : α} (h : (s.tree id).isSome) (n : ℕ) :
    (((turn succ present)^[n] s).tree id).isSome :=
  Function.Iterate.rec (fun s : Search α => (s.tree id).isSome) h (fun _ => isSome_turn) n

/-- What was entered stays entered. -/
theorem isSome_visit {s : Search α} {dom : List α} {root id : α} (h : (s.tree id).isSome) :
    ((visit succ present dom s root).tree id).isSome := by
  rw [visit]
  split_ifs
  · exact h
  · exact isSome_iterate_turn (isSome_enter h) _

/-- The root is entered. -/
theorem isSome_visit_root {s : Search α} {dom : List α} (root : α) :
    ((visit succ present dom s root).tree root).isSome := by
  rw [visit]
  split_ifs with hknown
  · exact hknown
  · refine isSome_iterate_turn ?_ _
    simp only [enter, Function.update_self, Option.isSome_some]

/-- **Visits of some roots** keep the intervals sound, leave nothing on the stack and enter
each root. -/
theorem Sound.visits {dom : List α} (hdom : ∀ p, present p = true → p ∈ dom) {s : Search α}
    (h : Sound succ present s) (hs : s.stack = []) {roots : List α}
    (hroots : ∀ r ∈ roots, present r = true) :
    Sound succ present (roots.foldl (Intervals.visit succ present dom) s) ∧
      (roots.foldl (Intervals.visit succ present dom) s).stack = [] ∧
      (∀ id, (s.tree id).isSome →
        ((roots.foldl (Intervals.visit succ present dom) s).tree id).isSome) ∧
      ∀ r ∈ roots, ((roots.foldl (Intervals.visit succ present dom) s).tree r).isSome := by
  induction roots generalizing s with
  | nil => exact ⟨h, hs, fun _ hid => hid, by simp⟩
  | cons r roots ih =>
      have hr : present r = true := hroots r (List.mem_cons_self ..)
      obtain ⟨hsound, hstack, hkept, hentered⟩ :=
        ih (h.visit hs dom hr) (stack_visit succ hdom hs hr) fun q hq =>
          hroots q (List.mem_cons_of_mem _ hq)
      refine ⟨hsound, hstack, fun id hid => hkept id (isSome_visit hid), fun q hq => ?_⟩
      rcases List.mem_cons.1 hq with rfl | hq
      · exact hkept q (isSome_visit_root q)
      · exact hentered q hq

end Sound

end Intervals
end CxtHub
