/-
# Acyclicity by counting down degrees

Every node starts with the number of its successors in the graph; a node whose
number reaches zero is ready, and taking a ready node counts down the nodes it is
a successor of.  The graph is acyclic exactly when every node is taken
(`drain_eq_length_iff`).

The invariant `Counting` compares the numbers with the nodes taken so far, which
form an ordered list.
-/

import CxtHub.Lib.Acyclic
import Mathlib.Data.List.Flatten

namespace CxtHub
namespace Graph

open Relation

variable {α : Type} [DecidableEq α]

/-- The nodes that list `p` among their successors, once for each time they do. -/
def listedBy (succ : α → List α) (dom : List α) (p : α) : List α :=
  dom.flatMap fun id => ((succ id).filter (· = p)).map fun _ => id

/-- Count down one node; it becomes ready at zero. -/
def countDown (state : (α → Int) × List α) (child : α) : (α → Int) × List α :=
  let degree := Function.update state.1 child (state.1 child - 1)
  (degree, if degree child = 0 then child :: state.2 else state.2)

/-- Take ready nodes, last in first out, and return how many were taken. -/
def drain (succ : α → List α) (dom : List α) : ℕ → (α → Int) × List α → ℕ → ℕ
  | fuel + 1, (degree, id :: ready), taken =>
      drain succ dom fuel ((listedBy succ dom id).foldl countDown (degree, ready)) (taken + 1)
  | _, _, taken => taken

/-- The number of successors in the graph. -/
def degreeOf (succ : α → List α) (dom : List α) (id : α) : Int :=
  ((succ id).countP (· ∈ dom) : ℕ)

/-- Whether every node is taken. -/
def takesAll (succ : α → List α) (dom : List α) : Bool :=
  decide (drain succ dom dom.length
    (degreeOf succ dom, (dom.filter fun id => degreeOf succ dom id = 0).reverse) 0 = dom.length)

variable {succ : α → List α} {dom : List α}

/-- Counting down a list of nodes: each loses the number of its occurrences, and is
ready when it had something and that was all. -/
theorem foldl_countDown (children : List α) (degree : α → Int) {ready : List α}
    (hready : ready.Nodup) (hzero : ∀ c ∈ ready, degree c ≤ 0) :
    (∀ c, (children.foldl countDown (degree, ready)).1 c = degree c - children.count c) ∧
    (∀ c, c ∈ (children.foldl countDown (degree, ready)).2 ↔
      c ∈ ready ∨ 0 < degree c ∧ degree c ≤ children.count c) ∧
    (children.foldl countDown (degree, ready)).2.Nodup := by
  induction children generalizing degree ready with
  | nil =>
      refine ⟨by simp, fun c => ?_, hready⟩
      have hnone : ¬ (0 < degree c ∧ degree c ≤ (([] : List α).count c : ℕ)) := by simp
      exact (or_iff_left hnone).symm
  | cons a children ih =>
      have hdegree : ∀ c, (countDown (degree, ready) a).1 c =
          degree c - if c = a then 1 else 0 := by
        intro c
        by_cases hc : c = a <;> simp [countDown, hc]
      have hmem : ∀ c, c ∈ (countDown (degree, ready) a).2 ↔ c ∈ ready ∨ c = a ∧ degree a = 1 := by
        intro c
        simp only [countDown, Function.update_self, sub_eq_zero]
        split_ifs with h <;> simp [h, or_comm]
      -- a node is pushed when it had one left, and those that are ready have none
      have hnodup : (countDown (degree, ready) a).2.Nodup := by
        simp only [countDown, Function.update_self]
        split_ifs with h
        · refine List.nodup_cons.2 ⟨fun hmem => ?_, hready⟩
          have := hzero a hmem
          omega
        · exact hready
      obtain ⟨h1, h2, h3⟩ := ih (countDown (degree, ready) a).1 hnodup fun c hc => by
        rw [hdegree]
        rcases (hmem c).1 hc with hc | ⟨rfl, hone⟩
        · have := hzero c hc
          split_ifs <;> omega
        · simp [hone]
      have hcount : ∀ c, ((a :: children).count c : Int) =
          children.count c + if c = a then 1 else 0 := by
        intro c
        by_cases hc : c = a
        · simp [hc]
        · simp [hc, Ne.symm hc]
      rw [List.foldl_cons]
      refine ⟨fun c => ?_, fun c => ?_, h3⟩
      · rw [h1, hdegree, hcount]
        omega
      · rw [h2, hmem, hdegree, hcount, or_assoc]
        refine or_congr_right ?_
        split_ifs with hc
        · subst hc
          rw [and_iff_right rfl]
          omega
        · simp [hc]

/-- How often an item is listed by another. -/
theorem count_listedBy (hn : dom.Nodup) (p c : α) :
    (listedBy succ dom p).count c = if c ∈ dom then (succ c).count p else 0 := by
  unfold listedBy
  induction dom with
  | nil => simp
  | cons a dom ih =>
      obtain ⟨ha, hn⟩ := List.nodup_cons.1 hn
      have hrep : ((succ a).filter (· = p)).map (fun _ => a) =
          List.replicate ((succ a).count p) a := by
        rw [List.map_const', List.count_eq_countP, List.countP_eq_length_filter]
        congr 2
      rw [List.flatMap_cons, List.count_append, ih hn, hrep, List.count_replicate]
      by_cases hca : c = a
      · subst hca
        simp [ha]
      · simp [hca, Ne.symm hca]

/-- Taking a node lowers what is left of each node by its occurrences. -/
theorem countP_left_cons {done : List α} {a : α} (hin : a ∈ dom) (hnew : a ∉ done)
    (l : List α) :
    l.countP (fun y => decide (y ∈ dom ∧ y ∉ done)) =
      l.countP (fun y => decide (y ∈ dom ∧ y ∉ a :: done)) + l.count a := by
  induction l with
  | nil => rfl
  | cons y l ih =>
      rw [List.countP_cons, List.countP_cons, List.count_cons, ih]
      by_cases hya : y = a
      · subst hya
        simp [hin, hnew]
        omega
      · simp [hya]
        omega

/-- The nodes taken, the nodes ready and the numbers agree. -/
structure Counting (succ : α → List α) (dom done ready : List α) (degree : α → Int) : Prop where
  ordered : Ordered succ dom done
  done_sub : done ⊆ dom
  ready_sub : ready ⊆ dom
  ready_nodup : ready.Nodup
  ready_new : ∀ x ∈ ready, x ∉ done
  degree_eq : ∀ x ∈ dom,
    degree x = ((succ x).countP (fun y => decide (y ∈ dom ∧ y ∉ done)) : ℕ)
  zero_iff : ∀ x ∈ dom, x ∉ done → (degree x = 0 ↔ x ∈ ready)

/-- At the start the nodes without successors in the graph are ready. -/
theorem counting_start (hn : dom.Nodup) :
    Counting succ dom [] (dom.filter fun id => degreeOf succ dom id = 0) (degreeOf succ dom) where
  ordered := .nil
  done_sub := List.nil_subset _
  ready_sub := fun _ hx => (List.mem_filter.1 hx).1
  ready_nodup := hn.filter _
  ready_new := fun _ _ => List.not_mem_nil
  degree_eq := fun x _ => by simp [degreeOf]
  zero_iff := fun x hx _ => by simp [hx]

/-- The order in which nodes are ready does not matter. -/
theorem Counting.perm {done ready ready' : List α} {degree : α → Int}
    (h : Counting succ dom done ready degree) (hperm : ready.Perm ready') :
    Counting succ dom done ready' degree where
  ordered := h.ordered
  done_sub := h.done_sub
  ready_sub := fun _ hx => h.ready_sub (hperm.mem_iff.2 hx)
  ready_nodup := hperm.nodup_iff.1 h.ready_nodup
  ready_new := fun x hx => h.ready_new x (hperm.mem_iff.2 hx)
  degree_eq := h.degree_eq
  zero_iff := fun x hx hxd => (h.zero_iff x hx hxd).trans hperm.mem_iff

/-- **A node is ready when its successors in the graph are all taken.** -/
theorem Counting.mem_ready {done ready : List α} {degree : α → Int}
    (h : Counting succ dom done ready degree) {x : α} :
    x ∈ ready ↔ x ∈ dom ∧ x ∉ done ∧ ∀ y ∈ succ x, y ∈ dom → y ∈ done := by
  have hzero : ∀ x ∈ dom, degree x = 0 ↔ ∀ y ∈ succ x, y ∈ dom → y ∈ done := by
    intro x hx
    rw [h.degree_eq x hx, Int.natCast_eq_zero, List.countP_eq_zero]
    refine forall₂_congr fun y _ => ?_
    simp
  constructor
  · intro hx
    have hdom := h.ready_sub hx
    have hnew := h.ready_new x hx
    exact ⟨hdom, hnew, (hzero x hdom).1 ((h.zero_iff x hdom hnew).2 hx)⟩
  · rintro ⟨hdom, hnew, hall⟩
    exact (h.zero_iff x hdom hnew).1 ((hzero x hdom).2 hall)

/-- **Taking a ready node keeps the invariant**, with the nodes it is a successor of counted down
in any order. -/
theorem Counting.take {done ready children : List α} {id : α} {degree : α → Int}
    (h : Counting succ dom done (id :: ready) degree)
    (hcount : ∀ c, children.count c = if c ∈ dom then (succ c).count id else 0) :
    Counting succ dom (id :: done) (children.foldl countDown (degree, ready)).2
      (children.foldl countDown (degree, ready)).1 := by
  have hid : id ∈ dom := h.ready_sub (List.mem_cons_self ..)
  have hnew : id ∉ done := h.ready_new id (List.mem_cons_self ..)
  obtain ⟨hidr, hready⟩ := List.nodup_cons.1 h.ready_nodup
  have hzero : ∀ x ∈ id :: ready, degree x = 0 := fun x hx =>
    (h.zero_iff x (h.ready_sub hx) (h.ready_new x hx)).2 hx
  have hleft : ∀ c ∈ dom, degree c =
      ((succ c).countP (fun y => decide (y ∈ dom ∧ y ∉ id :: done)) : ℕ) +
        (children.count c : ℕ) := by
    intro c hc
    rw [h.degree_eq c hc, countP_left_cons hid hnew, hcount, if_pos hc]
    exact Int.natCast_add _ _
  have hlisted : ∀ c, 0 < children.count c → c ∈ dom ∧ id ∈ succ c := by
    intro c hc
    rw [hcount] at hc
    split_ifs at hc with hin
    · exact ⟨hin, List.count_pos_iff.1 hc⟩
    · cases hc
  obtain ⟨h1, h2, h3⟩ := foldl_countDown children degree hready
    fun c hc => (hzero c (List.mem_cons_of_mem _ hc)).le
  exact {
    ordered := by
      refine .cons h.ordered hnew fun y hy => ?_
      have hnone : (succ id).countP (fun y => decide (y ∈ dom ∧ y ∉ done)) = 0 := by
        have hd := h.degree_eq id hid
        have h0 := hzero id (List.mem_cons_self ..)
        omega
      have hy' := List.countP_eq_zero.1 hnone y hy
      by_contra hcon
      rw [not_or, not_not] at hcon
      exact hy' (by simp [hcon.1, hcon.2])
    done_sub := List.cons_subset.2 ⟨hid, h.done_sub⟩
    ready_sub := fun x hx => by
      rcases (h2 x).1 hx with hx | hx
      · exact h.ready_sub (List.mem_cons_of_mem _ hx)
      · exact (hlisted x (by omega)).1
    ready_nodup := h3
    ready_new := fun x hx hxd => by
      rcases (h2 x).1 hx with hxr | hpos
      · rcases List.mem_cons.1 hxd with rfl | hxd
        · exact hidr hxr
        · exact h.ready_new x (List.mem_cons_of_mem _ hxr) hxd
      · -- a taken node has no successor left to take
        rcases List.mem_cons.1 hxd with rfl | hxd
        · have h0 := hzero x (List.mem_cons_self ..)
          omega
        · have hsucc := h.ordered.closed_step hxd (hlisted x (by omega)).2
          exact hsucc.elim hnew fun hout' => hout' hid
    degree_eq := fun x hx => by
      rw [h1, hleft x hx]
      omega
    zero_iff := fun x hx hxd => by
      rw [List.mem_cons, not_or] at hxd
      have hz := h.zero_iff x hx hxd.2
      rw [List.mem_cons, or_iff_right hxd.1] at hz
      have hl := hleft x hx
      rw [h1, h2, ← hz]
      omega }

/-- When every node is taken, none is ready. -/
theorem Counting.ready_eq_nil {done ready : List α} {degree : α → Int}
    (h : Counting succ dom done ready degree) (hlen : dom.length ≤ done.length) : ready = [] := by
  have hperm := (List.subperm_of_subset h.ordered.nodup h.done_sub).perm_of_length_le hlen
  refine List.eq_nil_iff_forall_not_mem.2 fun x hx => ?_
  exact h.ready_new x hx (hperm.mem_iff.2 (h.ready_sub hx))

/-- **When no node is ready, every node was taken exactly if the graph is acyclic.** -/
theorem Counting.finished {done : List α} {degree : α → Int} (h : Counting succ dom done [] degree)
    (hn : dom.Nodup) (hdom : ∀ b ∉ dom, succ b = []) :
    done.length = dom.length ↔ Acyclic fun a b => b ∈ succ a := by
  have hsub := List.subperm_of_subset h.ordered.nodup h.done_sub
  constructor
  · intro hlen
    have hperm := hsub.perm_of_length_le hlen.ge
    exact acyclic_of_ordered hdom h.ordered fun x hx => hperm.mem_iff.2 hx
  · intro hac
    -- a sink of the nodes left over would be ready
    have hall : dom ⊆ done := by
      intro x hx
      by_contra hxd
      have hmem : x ∈ dom.filter fun y => decide (y ∉ done) :=
        List.mem_filter.2 ⟨hx, decide_eq_true hxd⟩
      obtain ⟨z, hz, hsink⟩ := hac.exists_sink (List.ne_nil_of_mem hmem)
      obtain ⟨hzd, hznew⟩ := List.mem_filter.1 hz
      refine List.not_mem_nil (h.mem_ready.2 ⟨hzd, of_decide_eq_true hznew, fun y hy hyd => ?_⟩)
      by_contra hyt
      exact hsink y (List.mem_filter.2 ⟨hyd, decide_eq_true hyt⟩) hy
    exact le_antisymm hsub.length_le (List.subperm_of_subset hn hall).length_le

/-- The run of `drain` ends when no node is ready. -/
theorem drain_spec {fuel : ℕ} {done ready : List α} {degree : α → Int} (hn : dom.Nodup)
    (h : Counting succ dom done ready degree) (hfuel : dom.length ≤ fuel + done.length) :
    ∃ taken degree', Counting succ dom taken [] degree' ∧
      drain succ dom fuel (degree, ready) done.length = taken.length := by
  induction fuel generalizing done ready degree with
  | zero =>
      obtain rfl := h.ready_eq_nil (by omega)
      exact ⟨done, degree, h, rfl⟩
  | succ fuel ih =>
      cases ready with
      | nil => exact ⟨done, degree, h, rfl⟩
      | cons id ready =>
          have hlen : (id :: done).length = done.length + 1 := rfl
          exact ih (h.take (count_listedBy hn id)) (by omega)

/-- The nodes without successors in the graph, in the order in which they are taken. -/
def readyAtStart (succ : α → List α) (dom : List α) : List α :=
  (dom.filter fun id => degreeOf succ dom id = 0).reverse

/-- **Every node is taken exactly when the graph is acyclic**, given as many turns as nodes. -/
theorem drain_eq_length_iff (hn : dom.Nodup) (hdom : ∀ b ∉ dom, succ b = []) {fuel : ℕ}
    (hfuel : dom.length ≤ fuel) :
    drain succ dom fuel (degreeOf succ dom, readyAtStart succ dom) 0 = dom.length ↔
      Acyclic fun a b => b ∈ succ a := by
  have hstart : Counting succ dom [] (readyAtStart succ dom) (degreeOf succ dom) :=
    (counting_start hn).perm (List.reverse_perm _).symm
  obtain ⟨taken, degree', hend, hlen⟩ :=
    @drain_spec _ _ succ dom fuel _ _ _ hn hstart (by simpa using hfuel)
  have hcount : drain succ dom fuel (degreeOf succ dom, readyAtStart succ dom) 0 = taken.length :=
    hlen
  rw [hcount]
  exact hend.finished hn hdom

/-- **All items are taken exactly when there is no cycle.** -/
theorem takesAll_iff (hn : dom.Nodup) (hdom : ∀ b ∉ dom, succ b = []) :
    takesAll succ dom = true ↔ Acyclic fun a b => b ∈ succ a := by
  rw [takesAll, decide_eq_true_eq]
  exact drain_eq_length_iff hn hdom le_rfl

end Graph
end CxtHub
