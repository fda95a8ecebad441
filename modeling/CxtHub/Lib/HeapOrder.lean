/-
# Topological order by a heap

Kahn's algorithm with the ready nodes in a heap.  A node releases others (`par`) and waits for
those that release it; it is pushed when the last of them is taken.  So the loop takes each time
the least of the nodes that are ready (`drainHeap_greedy`), and it takes every node exactly when
the graph is acyclic.  Such an order is unique (`Greedy.unique`): it does not depend on the
numbers, on the heap or on the order of any list.
-/

import CxtHub.Lib.Heap
import CxtHub.Lib.Kahn

namespace CxtHub
namespace Graph

variable {α : Type} [DecidableEq α] {less : α → α → Bool} {par : α → List α}
  {dom done out queue : List α} {degree : α → ℤ}

/-- Count down one node, and push it when nothing is left. -/
def release (less : α → α → Bool) (s : (α → ℤ) × List α) (a : α) : (α → ℤ) × List α :=
  let degree := Function.update s.1 a (s.1 a - 1)
  (degree, if degree a = 0 then Heap.push less s.2 a else s.2)

/-- The loop that empties the heap. -/
def drainHeap (less : α → α → Bool) (par : α → List α) : ℕ → (α → ℤ) × List α → List α
  | 0, _ => []
  | fuel + 1, (degree, queue) =>
      match Heap.pop less queue with
      | none => []
      | some (a, queue) =>
          a :: drainHeap less par fuel ((par a).foldl (release less) (degree, queue))

/-- How often a node is released. -/
def releases (par : α → List α) (dom : List α) (a : α) : ℤ := ((dom.flatMap par).count a : ℕ)

/-- Ready: not done, and all that release the node are. -/
def Ready (par : α → List α) (dom done : List α) (a : α) : Prop :=
  a ∈ dom ∧ a ∉ done ∧ ∀ c ∈ dom, a ∈ par c → c ∈ done

/-- The items that list a parent. -/
theorem mem_listedBy {a c : α} : c ∈ listedBy par dom a ↔ c ∈ dom ∧ a ∈ par c := by
  simp [listedBy]

theorem releases_eq_degreeOf : releases par dom = degreeOf (listedBy par dom) dom := by
  funext a
  have hall : ∀ c ∈ listedBy par dom a, decide (c ∈ dom) = true := fun c hc =>
    decide_eq_true (mem_listedBy.1 hc).1
  rw [releases, degreeOf, List.countP_eq_length.2 hall, listedBy, List.count_flatMap,
    List.length_flatMap]
  congr 3
  funext c
  simp [List.count_eq_countP, List.countP_eq_length_filter, beq_eq_decide]

/-- Releasing nodes pushes those that Kahn's algorithm makes ready. -/
theorem foldl_release (w : Heap.WeakOrder less) (children : List α) (degree : α → ℤ)
    {ready : List α} (hheap : Heap.IsHeap less queue) (hready : queue.Perm ready) :
    (children.foldl (release less) (degree, queue)).1 =
        (children.foldl countDown (degree, ready)).1 ∧
      Heap.IsHeap less (children.foldl (release less) (degree, queue)).2 ∧
      (children.foldl (release less) (degree, queue)).2.Perm
        (children.foldl countDown (degree, ready)).2 := by
  induction children generalizing degree queue ready with
  | nil => exact ⟨rfl, hheap, hready⟩
  | cons c children ih =>
      rw [List.foldl_cons, List.foldl_cons, release, countDown]
      dsimp only
      split_ifs
      · exact ih _ (Heap.isHeap_push w hheap c) ((Heap.push_perm queue c).trans (hready.cons c))
      · exact ih _ hheap hready

/-- The loop from any of its states: it takes ready nodes, the least first, until none is. -/
theorem drainHeap_spec (w : Heap.WeakOrder less) (hn : dom.Nodup) (hpar : ∀ a, par a ⊆ dom)
    {fuel : ℕ} (hheap : Heap.IsHeap less queue)
    (h : Counting (listedBy par dom) dom done queue degree)
    (hfuel : dom.length ≤ fuel + done.length) :
    Greedy less (Ready par dom) done (drainHeap less par fuel (degree, queue)) ∧
      ∃ degree', Counting (listedBy par dom) dom
        ((drainHeap less par fuel (degree, queue)).reverse ++ done) [] degree' := by
  have hready : ∀ {done queue degree}, Counting (listedBy par dom) dom done queue degree →
      ∀ b, b ∈ queue ↔ Ready par dom done b := by
    intro done queue degree h b
    rw [h.mem_ready, Ready]
    refine and_congr_right fun _ => and_congr_right fun _ => forall_congr' fun c => ?_
    rw [mem_listedBy]
    tauto
  -- with nothing in the heap no node is ready
  have hnone : ∀ {done degree}, Counting (listedBy par dom) dom done [] degree →
      ∀ b, ¬ Ready par dom done b := fun h b hb => List.not_mem_nil ((hready h b).2 hb)
  induction fuel generalizing done queue degree with
  | zero =>
      obtain rfl := h.ready_eq_nil (by omega)
      exact ⟨hnone h, degree, h⟩
  | succ fuel ih =>
      rw [drainHeap]
      by_cases hempty : queue = []
      · subst hempty
        exact ⟨hnone h, degree, h⟩
      · obtain ⟨a, rest, hpop, hperm, hleast, hrest⟩ := Heap.pop_spec w hheap hempty
        have ha : a ∈ queue := hperm.mem_iff.2 List.mem_cons_self
        have hcount : ∀ c, (par a).count c =
            if c ∈ dom then (listedBy par dom c).count a else 0 := by
          intro c
          rw [count_listedBy hn, if_pos (h.ready_sub ha)]
          split_ifs with hc
          · rfl
          · exact List.count_eq_zero.2 fun hmem => hc (hpar a hmem)
        obtain ⟨hdegree, hheap', hperm'⟩ := foldl_release w (par a) degree hrest (.refl rest)
        have htake := ((h.perm hperm).take hcount).perm hperm'.symm
        rw [← hdegree] at htake
        obtain ⟨hgreedy, degree', hend⟩ := ih hheap' htake (by rw [List.length_cons]; omega)
        rw [hpop]
        refine ⟨⟨(hready h a).1 ha, fun b hb => ?_, hgreedy⟩, degree', ?_⟩
        · rcases List.mem_cons.1 (hperm.mem_iff.1 ((hready h b).2 hb)) with rfl | hb
          · by_contra hless
            rw [Bool.not_eq_false] at hless
            exact Bool.false_ne_true ((w.asymm b b hless).symm.trans hless)
          · exact hleast b hb
        · simpa using hend

/-- **The heap gives the greedy order**, and all of it exactly when the graph is acyclic. -/
theorem drainHeap_greedy (w : Heap.WeakOrder less) (hn : dom.Nodup) (hpar : ∀ a, par a ⊆ dom)
    (hout : out = drainHeap less par dom.length (releases par dom,
      Heap.init less (dom.filter fun a => releases par dom a = 0))) :
    Greedy less (Ready par dom) [] out ∧ out.Nodup ∧ out ⊆ dom ∧
      (out.length = dom.length ↔ Acyclic fun a c => c ∈ dom ∧ a ∈ par c) := by
  have hstart : Counting (listedBy par dom) dom []
      (Heap.init less (dom.filter fun a => releases par dom a = 0)) (releases par dom) := by
    rw [releases_eq_degreeOf]
    exact (counting_start hn).perm (Heap.init_perm _).symm
  obtain ⟨hgreedy, degree', hend⟩ := drainHeap_spec w hn hpar (Heap.isHeap_init w _) hstart le_rfl
  rw [← hout] at hgreedy hend
  rw [List.append_nil] at hend
  have hdom : ∀ b ∉ dom, listedBy par dom b = [] := by
    refine fun b hb => List.eq_nil_iff_forall_not_mem.2 fun c hc => ?_
    exact hb (hpar c (mem_listedBy.1 hc).2)
  have hfinished := hend.finished hn hdom
  simp only [List.length_reverse, mem_listedBy] at hfinished
  exact ⟨hgreedy, List.nodup_reverse.1 hend.ordered.nodup,
    fun a ha => hend.done_sub (List.mem_reverse.2 ha), hfinished⟩

end Graph
end CxtHub
