/-
# The order of a history

`OrderHistoryEvents` and `historyQueue` of `backend/internal/domain/context_branch.go`, as the
code runs: degrees and lists of children built while ranging over a map, and a binary heap of
the events that are ready.  Go ranges over a map in any order, so the order is a parameter
(`Iteration`).  The client has the same file, word for word; `HistoryEvent`, its dependencies
and `byID` are those of `Cli.History`.

The client's model (`Cli.orderHistoryEvents`) says what comes next, the earliest event whose
dependencies are placed, and not how it is found.  `orderHistoryEvents_eq_ok_iff` shows that
the heap and the degrees find it: the degrees count the dependencies not yet placed
(`Graph.Counting`), so the heap holds the ready events, and its least element is the earliest.
-/

import CxtHub.Cli.BranchOrder
import CxtHub.Lib.Heap
import CxtHub.Lib.Kahn

namespace CxtHub
namespace Backend
namespace HistoryQueue

open Cli (HistoryEvent Observed plain historyDependencies observedBefore indexEvents readyEvents
  earliest orderFrom)
open CxtHub.Graph Replay

/-- The order in which a range over the map of events meets them. -/
structure Iteration where
  order : List HistoryEvent → List HistoryEvent
  perm : ∀ l, (order l).Perm l

/-- `indegree`, `children` and `ready`. -/
structure Degrees where
  indegree : String → ℤ := fun _ => 0
  children : String → List String := fun _ => []
  ready : List HistoryEvent := []

/-- The inner loop over the dependencies of the event `id`. -/
def countDependency (byID : List HistoryEvent) (id : String) (s : Degrees) (parent : String) :
    Except Cli.DomainError Degrees :=
  if parent = "" then .ok s
  else do
    refuse (parent ∉ byID.map HistoryEvent.id)
      { sentinel := .plain, format := "missing history dependency %s", args := [parent] }
    .ok { s with indegree := Function.update s.indegree id (s.indegree id + 1)
                 children := Function.update s.children parent (s.children parent ++ [id]) }

/-- The body of the loop over `byID`. -/
def countEvent (byID : List HistoryEvent) (s : Degrees) (e : HistoryEvent) :
    Except Cli.DomainError Degrees := do
  let s ← (historyDependencies e).foldlM (countDependency byID e.id) s
  .ok (if s.indegree e.id = 0 then { s with ready := s.ready ++ [e] } else s)

/-- `byID[id]`. -/
def eventOf (byID : List HistoryEvent) (id : String) : Option HistoryEvent :=
  byID.find? fun e => e.id = id

/-- Count down one child, and push it when nothing is left. -/
def releaseChild (byID : List HistoryEvent) (s : (String → ℤ) × List HistoryEvent)
    (child : String) : (String → ℤ) × List HistoryEvent :=
  let degree := Function.update s.1 child (s.1 child - 1)
  (degree,
    match eventOf byID child with
    | some e => if degree child = 0 then Heap.push observedBefore s.2 e else s.2
    | none => s.2)

/-- The loop that empties the heap. -/
def drainQueue (byID : List HistoryEvent) (children : String → List String) :
    ℕ → (String → ℤ) × List HistoryEvent → List HistoryEvent → List HistoryEvent
  | 0, _, out => out
  | fuel + 1, (degree, queue), out =>
      match Heap.pop observedBefore queue with
      | none => out
      | some (e, queue) =>
          drainQueue byID children fuel
            ((children e.id).foldl (releaseChild byID) (degree, queue)) (out ++ [e])

/-- `OrderHistoryEvents`. -/
def orderHistoryEvents (it : Iteration) (events : List HistoryEvent) :
    Except Cli.DomainError (List HistoryEvent) := do
  let byID ← indexEvents [] events
  let s ← (it.order byID).foldlM (countEvent byID) {}
  let out := drainQueue byID s.children byID.length
    (s.indegree, Heap.init observedBefore s.ready) []
  refuse (out.length ≠ byID.length) (plain "cyclic history dependency")
  .ok out

/-! ### The graph of dependencies -/

/-- The dependencies of the event with an id. -/
def dependenciesOf (byID : List HistoryEvent) (id : String) : List String :=
  match eventOf byID id with
  | some e => historyDependencies e
  | none => []

section Graph

variable {byID : List HistoryEvent} {e : HistoryEvent}

/-- Each event is found by its id. -/
theorem eventOf_of_mem (hids : (byID.map HistoryEvent.id).Nodup) (he : e ∈ byID) :
    eventOf byID e.id = some e := by
  unfold eventOf
  cases h : byID.find? fun f => f.id = e.id with
  | none => exact absurd (List.find?_eq_none.1 h e he) (by simp)
  | some f =>
      have hid : f.id = e.id := by simpa using List.find?_some h
      rw [List.inj_on_of_nodup_map hids (List.mem_of_find?_eq_some h) he hid]

/-- What is found has the id. -/
theorem eventOf_eq_some {id : String} (h : eventOf byID id = some e) : e ∈ byID ∧ e.id = id :=
  ⟨List.mem_of_find?_eq_some h, by simpa using List.find?_some h⟩

/-- The dependencies of an event, by its id. -/
theorem dependenciesOf_of_mem (hids : (byID.map HistoryEvent.id).Nodup) (he : e ∈ byID) :
    dependenciesOf byID e.id = historyDependencies e := by
  rw [dependenciesOf, eventOf_of_mem hids he]

end Graph

/-! ### Counting -/

section Counting

variable {byID : List HistoryEvent} {e : HistoryEvent} {s : Degrees}

/-- An empty parent is no dependency. -/
theorem ne_empty_of_mem_dependencies {d : String} (h : d ∈ historyDependencies e) : d ≠ "" :=
  fun heq => (mem_freshFrom.1 h).2 (by rw [heq]; exact List.mem_singleton_self _)

/-- The state after some dependencies of one event. -/
theorem foldlM_countDependency (s : Degrees) (id : String) {deps : List String}
    (hne : ∀ d ∈ deps, d ≠ "") (hin : ∀ d ∈ deps, d ∈ byID.map HistoryEvent.id) :
    deps.foldlM (countDependency byID id) s =
      .ok { s with indegree := Function.update s.indegree id (s.indegree id + deps.length)
                   children := fun p =>
                     s.children p ++ (deps.filter (· = p)).map fun _ => id } := by
  induction deps generalizing s with
  | nil => simp [pure, Except.pure]
  | cons d deps ih =>
      obtain ⟨hd, hne⟩ := List.forall_mem_cons.1 hne
      obtain ⟨hdin, hin⟩ := List.forall_mem_cons.1 hin
      rw [List.foldlM_cons, countDependency, if_neg hd, refuse, if_neg (not_not.2 hdin)]
      simp only [ok_bind]
      rw [ih _ hne hin]
      simp only [Function.update_self, Function.update_idem, List.length_cons, Except.ok.injEq,
        Degrees.mk.injEq, and_true]
      refine ⟨?_, ?_⟩
      · congr 1
        omega
      · funext p
        by_cases hp : p = d
        · subst hp
          rw [Function.update_self, List.filter_cons_of_pos (by simp), List.map_cons,
            List.append_assoc, List.singleton_append]
        · rw [Function.update_of_ne hp, List.filter_cons_of_neg (by simpa using Ne.symm hp)]

/-- A dependency that is not in the map ends the loop. -/
theorem foldlM_countDependency_eq_ok {id : String} {deps : List String} {t : Degrees}
    (hne : ∀ d ∈ deps, d ≠ "") (h : deps.foldlM (countDependency byID id) s = .ok t) :
    ∀ d ∈ deps, d ∈ byID.map HistoryEvent.id := by
  induction deps generalizing s with
  | nil => exact fun d hd => absurd hd List.not_mem_nil
  | cons d deps ih =>
      obtain ⟨hd, hne⟩ := List.forall_mem_cons.1 hne
      rw [List.foldlM_cons, bind_eq_ok] at h
      obtain ⟨u, hu, h⟩ := h
      rw [countDependency, if_neg hd] at hu
      simp only [bind_eq_ok, exists_unit_iff, refuse_eq_ok, not_not] at hu
      exact List.forall_mem_cons.2 ⟨hu.1, ih hne h⟩

/-- What the loop over the map has built after the events `met`. -/
structure Counted (byID met : List HistoryEvent) (s : Degrees) : Prop where
  indegree : ∀ id, s.indegree id = if id ∈ met.map HistoryEvent.id then
    ((dependenciesOf byID id).length : ℤ) else 0
  children : s.children = listedBy (dependenciesOf byID) (met.map HistoryEvent.id)
  ready : s.ready = met.filter fun e => historyDependencies e = []

/-- One round of the count of dependencies. -/
theorem Counted.step (hids : (byID.map HistoryEvent.id).Nodup) {met : List HistoryEvent}
    (h : Counted byID met s) (he : e ∈ byID) (hnew : e.id ∉ met.map HistoryEvent.id)
    (hin : ∀ d ∈ historyDependencies e, d ∈ byID.map HistoryEvent.id) :
    ∃ t, countEvent byID s e = .ok t ∧ Counted byID (met ++ [e]) t := by
  have hdeps := dependenciesOf_of_mem hids he
  have hzero : s.indegree e.id = 0 := by rw [h.indegree, if_neg hnew]
  have hfold := foldlM_countDependency s e.id
    (fun d hd => ne_empty_of_mem_dependencies hd) hin
  have hready : (s.indegree e.id + (historyDependencies e).length = 0) ↔
      historyDependencies e = [] := by
    rw [hzero, Int.zero_add, Int.natCast_eq_zero, List.length_eq_zero_iff]
  have hcount : countEvent byID s e = .ok
      { indegree :=
          Function.update s.indegree e.id (s.indegree e.id + (historyDependencies e).length)
        children := fun p =>
          s.children p ++ ((historyDependencies e).filter (· = p)).map fun _ => e.id
        ready := if historyDependencies e = [] then s.ready ++ [e] else s.ready } := by
    rw [countEvent, hfold]
    simp only [ok_bind, Function.update_self, hready]
    split_ifs <;> rfl
  refine ⟨_, hcount, ⟨fun id => ?_, ?_, ?_⟩⟩
  · dsimp only
    by_cases hid : id = e.id
    · subst hid
      rw [Function.update_self, hzero, Int.zero_add, if_pos (by simp), hdeps]
    · rw [Function.update_of_ne hid, h.indegree]
      simp [hid]
  · funext p
    rw [h.children]
    simp only [listedBy, List.map_append, List.flatMap_append, List.map_singleton,
      List.flatMap_singleton, hdeps]
  · rw [List.filter_append, h.ready]
    by_cases hnil : historyDependencies e = []
    · simp [hnil]
    · simp [hnil]

/-- **The counts after the loop.** -/
theorem Counted.run (hids : (byID.map HistoryEvent.id).Nodup)
    (hin : ∀ e ∈ byID, ∀ d ∈ historyDependencies e, d ∈ byID.map HistoryEvent.id)
    {met l : List HistoryEvent} (hl : l ⊆ byID) (hn : ((met ++ l).map HistoryEvent.id).Nodup)
    (h : Counted byID met s) :
    ∃ t, l.foldlM (countEvent byID) s = .ok t ∧ Counted byID (met ++ l) t := by
  induction l generalizing met s with
  | nil => exact ⟨s, rfl, by rwa [List.append_nil]⟩
  | cons e l ih =>
      obtain ⟨he, hl⟩ := List.cons_subset.1 hl
      rw [List.append_cons] at hn ⊢
      have hnew : e.id ∉ met.map HistoryEvent.id := by
        have hmet := List.Nodup.of_append_left ((List.map_append ▸ hn : List.Nodup _))
        rw [List.map_append, List.map_singleton, List.nodup_append] at hmet
        exact fun hmem => hmet.2.2 e.id hmem e.id (List.mem_singleton_self _) rfl
      obtain ⟨u, hu, hcounted⟩ := h.step hids he hnew (hin e he)
      obtain ⟨t, ht, hdone⟩ := ih hl hn hcounted
      exact ⟨t, by rw [List.foldlM_cons, hu, ok_bind, ht], hdone⟩

/-- When the loop returns, every dependency is there. -/
theorem dependencies_of_run {l : List HistoryEvent} {t : Degrees}
    (h : l.foldlM (countEvent byID) s = .ok t) :
    ∀ e ∈ l, ∀ d ∈ historyDependencies e, d ∈ byID.map HistoryEvent.id := by
  induction l generalizing s with
  | nil => exact fun e he => absurd he List.not_mem_nil
  | cons e l ih =>
      rw [List.foldlM_cons, bind_eq_ok] at h
      obtain ⟨u, hu, h⟩ := h
      rw [countEvent, bind_eq_ok] at hu
      obtain ⟨v, hv, -⟩ := hu
      exact List.forall_mem_cons.2
        ⟨foldlM_countDependency_eq_ok (fun d hd => ne_empty_of_mem_dependencies hd) hv, ih h⟩

end Counting

/-! ### The heap holds the ready events -/

/-- The comparison of the heap sorts. -/
theorem weakOrder : Heap.WeakOrder observedBefore where
  asymm _ _ h := Cli.observed_of_before h
  negTrans a b c hab hbc := IsTrans.trans (r := Observed) c b a hbc hab

section Queue

variable {byID : List HistoryEvent} {dom : List String}

/-- The heap of the loop and the degrees, against the events that were placed. -/
structure Queued (byID : List HistoryEvent) (dom : List String) (out queue : List HistoryEvent)
    (degree : String → ℤ) : Prop where
  heap : Heap.IsHeap observedBefore queue
  queue_sub : queue ⊆ byID
  out_sub : out ⊆ byID
  counting : Counting (dependenciesOf byID) dom (out.map HistoryEvent.id).reverse
    (queue.map HistoryEvent.id) degree

/-- A map with every dependency of its events, and the ids in the order of a range over it. -/
structure Ranged (byID : List HistoryEvent) (dom : List String) : Prop where
  ids : (byID.map HistoryEvent.id).Nodup
  deps : ∀ e ∈ byID, ∀ d ∈ historyDependencies e, d ∈ byID.map HistoryEvent.id
  nodup : dom.Nodup
  mem : ∀ id, id ∈ dom ↔ id ∈ byID.map HistoryEvent.id

/-- Counting down children pushes the events that Kahn's algorithm makes ready. -/
theorem releaseChild_spec (hids : (byID.map HistoryEvent.id).Nodup) (degree : String → ℤ)
    {children ready : List String} {queue : List HistoryEvent}
    (hin : children ⊆ byID.map HistoryEvent.id) (hheap : Heap.IsHeap observedBefore queue)
    (hsub : queue ⊆ byID) (hready : (queue.map HistoryEvent.id).Perm ready) :
    (children.foldl (releaseChild byID) (degree, queue)).1 =
        (children.foldl countDown (degree, ready)).1 ∧
      Heap.IsHeap observedBefore (children.foldl (releaseChild byID) (degree, queue)).2 ∧
      (children.foldl (releaseChild byID) (degree, queue)).2 ⊆ byID ∧
      ((children.foldl (releaseChild byID) (degree, queue)).2.map HistoryEvent.id).Perm
        (children.foldl countDown (degree, ready)).2 := by
  induction children generalizing degree queue ready with
  | nil => exact ⟨rfl, hheap, hsub, hready⟩
  | cons c children ih =>
      obtain ⟨hc, hrest⟩ := List.cons_subset.1 hin
      obtain ⟨e, he, rfl⟩ := List.mem_map.1 hc
      rw [List.foldl_cons, List.foldl_cons, releaseChild, countDown, eventOf_of_mem hids he]
      split_ifs with hzero
      · refine ih _ hrest (Heap.isHeap_push weakOrder hheap e) ?_ ?_
        · intro x hx
          rcases List.mem_cons.1 ((Heap.push_perm queue e).mem_iff.1 hx) with rfl | hx
          · exact he
          · exact hsub hx
        · exact ((Heap.push_perm queue e).map _).trans (hready.cons e.id)
      · exact ih _ hrest hheap hsub hready

/-- A ready event that comes after no other is the earliest. -/
theorem earliest_of_least {l : List HistoryEvent} {e : HistoryEvent} (he : e ∈ l)
    (hids : ∀ a ∈ l, ∀ b ∈ l, a.id = b.id → a = b) (hleast : ∀ f ∈ l, Observed e f) :
    earliest l = some e := by
  cases h : earliest l with
  | none =>
      rw [Cli.earliest_eq_none.1 h] at he
      cases he
  | some f =>
      obtain ⟨hf, hmin⟩ := Cli.earliest_eq_some h
      rw [hids f hf e he (Cli.id_eq_of_observed (hmin e he) (hleast f hf))]

/-- The events of the map that are not placed yet. -/
def unplaced (byID out : List HistoryEvent) : List HistoryEvent :=
  byID.filter fun e => e.id ∉ out.map HistoryEvent.id

variable {out queue : List HistoryEvent} {degree : String → ℤ}

section Ranged

variable (g : Ranged byID dom) (h : Queued byID dom out queue degree)

include g h

/-- The queue holds the ready events. -/
theorem Queued.mem_queue {e : HistoryEvent} :
    e ∈ queue ↔ e ∈ readyEvents (out.map HistoryEvent.id) (unplaced byID out) := by
  have hqueue : e ∈ byID → (e ∈ queue ↔ e.id ∈ queue.map HistoryEvent.id) := by
    refine fun he => ⟨fun hq => List.mem_map_of_mem hq, fun hq => ?_⟩
    obtain ⟨f, hf, hid⟩ := List.mem_map.1 hq
    rwa [← List.inj_on_of_nodup_map g.ids (h.queue_sub hf) he hid]
  rw [Cli.mem_readyEvents, unplaced, List.mem_filter, decide_eq_true_eq]
  by_cases he : e ∈ byID
  · rw [hqueue he, h.counting.mem_ready, dependenciesOf_of_mem g.ids he, g.mem]
    simp only [List.mem_reverse]
    constructor
    · rintro ⟨-, hnew, hall⟩
      exact ⟨⟨he, hnew⟩, fun d hd => hall d hd ((g.mem d).2 (g.deps e he d hd))⟩
    · rintro ⟨⟨-, hnew⟩, hall⟩
      exact ⟨List.mem_map_of_mem he, hnew, fun d hd _ => hall d hd⟩
  · exact ⟨fun hq => absurd (h.queue_sub hq) he, fun hr => absurd hr.1.1 he⟩

/-- Placing the least event of the heap. -/
theorem Queued.step {e : HistoryEvent} {rest : List HistoryEvent} (hperm : queue.Perm (e :: rest))
    (hrest : Heap.IsHeap observedBefore rest) :
    Queued byID dom (out ++ [e])
      ((listedBy (dependenciesOf byID) dom e.id).foldl (releaseChild byID) (degree, rest)).2
      ((listedBy (dependenciesOf byID) dom e.id).foldl (releaseChild byID) (degree, rest)).1 := by
  have hcounting : Counting (dependenciesOf byID) dom (out.map HistoryEvent.id).reverse
      (e.id :: rest.map HistoryEvent.id) degree := h.counting.perm (hperm.map _)
  have htake := hcounting.take (count_listedBy g.nodup e.id)
  have hsub : rest ⊆ byID := fun x hx =>
    h.queue_sub (hperm.mem_iff.2 (List.mem_cons_of_mem _ hx))
  have he : e ∈ byID := h.queue_sub (hperm.mem_iff.2 List.mem_cons_self)
  have hchildren : listedBy (dependenciesOf byID) dom e.id ⊆ byID.map HistoryEvent.id := by
    intro c hc
    obtain ⟨id, hid, hc⟩ := List.mem_flatMap.1 hc
    obtain ⟨-, -, rfl⟩ := List.mem_map.1 hc
    exact (g.mem id).1 hid
  obtain ⟨hdegree, hheap, hqueue, hready⟩ := releaseChild_spec g.ids degree hchildren
    hrest hsub (List.Perm.refl (rest.map HistoryEvent.id))
  refine ⟨hheap, hqueue, ?_, ?_⟩
  · exact List.append_subset.2 ⟨h.out_sub, List.cons_subset.2 ⟨he, List.nil_subset _⟩⟩
  · rw [List.map_append, List.map_singleton, List.reverse_append, List.reverse_singleton,
      List.singleton_append, hdegree]
    exact htake.perm hready.symm

/-- **The loop over the heap places what the model places.** -/
theorem drainQueue_eq (fuel : ℕ) :
    drainQueue byID (listedBy (dependenciesOf byID) dom) fuel (degree, queue) out =
      orderFrom fuel out (unplaced byID out) := by
  induction fuel generalizing out queue degree with
  | zero => rfl
  | succ fuel ih =>
      have hmem := fun e => h.mem_queue (e := e) g
      rw [drainQueue, orderFrom]
      by_cases hempty : queue = []
      · have hnone : readyEvents (out.map HistoryEvent.id) (unplaced byID out) = [] := by
          refine List.eq_nil_iff_forall_not_mem.2 fun e he => ?_
          rw [← hmem, hempty] at he
          cases he
        rw [hempty, Heap.pop_nil, hnone, earliest]
      · obtain ⟨e, rest, hpop, hperm, hleast, hrest⟩ := Heap.pop_spec weakOrder h.heap hempty
        have he : e ∈ queue := hperm.mem_iff.2 List.mem_cons_self
        have hearliest : earliest (readyEvents (out.map HistoryEvent.id) (unplaced byID out)) =
            some e := by
          refine earliest_of_least ((hmem e).1 he) (fun a ha b hb hid => ?_) fun f hf => ?_
          · exact List.inj_on_of_nodup_map g.ids (h.queue_sub ((hmem a).2 ha))
              (h.queue_sub ((hmem b).2 hb)) hid
          · rcases List.mem_cons.1 (hperm.mem_iff.1 ((hmem f).2 hf)) with rfl | hf
            · exact (Std.Total.total (r := Observed) f f).elim id id
            · exact hleast f hf
        have hleft : (unplaced byID out).filter (fun f => f.id ≠ e.id) =
            unplaced byID (out ++ [e]) := by
          rw [unplaced, unplaced, List.filter_filter]
          refine List.filter_congr fun f _ => ?_
          rw [Bool.eq_iff_iff]
          simp [and_comm]
        rw [hpop, hearliest]
        dsimp only
        rw [hleft]
        exact ih (h.step g hperm hrest)

end Ranged

end Queue

/-! ### `OrderHistoryEvents` -/

section Order

variable {it : Iteration} {l out : List HistoryEvent}

/-- The state in which the loop over the heap starts. -/
theorem queued_start {byID : List HistoryEvent} (it : Iteration)
    (g : Ranged byID ((it.order byID).map HistoryEvent.id)) {s : Degrees}
    (h : Counted byID (it.order byID) s) :
    Queued byID ((it.order byID).map HistoryEvent.id) [] (Heap.init observedBefore s.ready)
      s.indegree := by
  have hperm := it.perm byID
  have hdegree : ∀ e ∈ it.order byID, degreeOf (dependenciesOf byID)
      ((it.order byID).map HistoryEvent.id) e.id = (historyDependencies e).length := by
    intro e he
    have hmem := hperm.mem_iff.1 he
    rw [degreeOf, dependenciesOf_of_mem g.ids hmem, List.countP_eq_length.2]
    exact fun d hd => by simpa using (g.mem d).2 (g.deps e hmem d hd)
  have hready : (s.ready.map HistoryEvent.id) = ((it.order byID).map HistoryEvent.id).filter
      fun id => degreeOf (dependenciesOf byID) ((it.order byID).map HistoryEvent.id) id = 0 := by
    rw [h.ready, List.filter_map]
    congr 1
    refine List.filter_congr fun e he => ?_
    rw [Function.comp_apply, hdegree e he]
    simp
  have hstart : Counting (dependenciesOf byID) ((it.order byID).map HistoryEvent.id) [] _ _ :=
    counting_start g.nodup
  have hsame : ∀ id ∈ (it.order byID).map HistoryEvent.id, s.indegree id =
      degreeOf (dependenciesOf byID) ((it.order byID).map HistoryEvent.id) id := by
    intro id hid
    obtain ⟨e, he, rfl⟩ := List.mem_map.1 hid
    rw [h.indegree, if_pos hid, hdegree e he, dependenciesOf_of_mem g.ids (hperm.mem_iff.1 he)]
  have hinit : (Heap.init observedBefore s.ready).Perm s.ready := Heap.init_perm s.ready
  refine ⟨Heap.isHeap_init weakOrder _, ?_, List.nil_subset _, ?_⟩
  · intro x hx
    rw [hinit.mem_iff, h.ready] at hx
    exact hperm.mem_iff.1 (List.mem_of_mem_filter hx)
  · refine Counting.perm ?_ (hinit.map _).symm
    rw [hready]
    exact { hstart with
      degree_eq := fun x hx => (hsame x hx).trans (hstart.degree_eq x hx)
      zero_iff := fun x hx hxd => by rw [hsame x hx]; exact hstart.zero_iff x hx hxd }

/-- **The heap and the degrees find the order of the model**, in whatever order the map is
ranged over. -/
theorem orderHistoryEvents_eq_ok_iff :
    orderHistoryEvents it l = .ok out ↔ Cli.orderHistoryEvents l = .ok out := by
  rw [Cli.orderHistoryEvents_eq_ok]
  simp only [orderHistoryEvents, bind_eq_ok, exists_unit_iff, refuse_eq_ok, not_not,
    Except.ok.injEq]
  refine exists_congr fun byID => and_congr_right fun hindex => ?_
  have hids : (byID.map HistoryEvent.id).Nodup := (Cli.indexEvents_eq_ok (by simp) hindex).1
  have hperm := it.perm byID
  have hn : ((it.order byID).map HistoryEvent.id).Nodup := (hperm.map _).nodup_iff.2 hids
  have hzero : Counted byID [] {} := ⟨fun id => by simp, by funext p; simp [listedBy], rfl⟩
  -- with every dependency in the map, the counted loop runs and the heap gives the model's order
  have hloop : (∀ e ∈ byID, ∀ d ∈ historyDependencies e, d ∈ byID.map HistoryEvent.id) →
      ∃ s, (it.order byID).foldlM (countEvent byID) {} = .ok s ∧
        drainQueue byID s.children byID.length (s.indegree, Heap.init observedBefore s.ready) [] =
          orderFrom byID.length [] byID := by
    intro hin
    obtain ⟨s, hs, hcounted⟩ := hzero.run hids hin hperm.subset (by simpa using hn)
    rw [List.nil_append] at hcounted
    refine ⟨s, hs, ?_⟩
    have g : Ranged byID _ := ⟨hids, hin, hn, fun id => (hperm.map _).mem_iff⟩
    rw [hcounted.children, drainQueue_eq g (queued_start it g hcounted)]
    simp [unplaced]
  constructor
  · rintro ⟨s, hs, hlength, rfl⟩
    have hin : ∀ e ∈ byID, ∀ d ∈ historyDependencies e, d ∈ byID.map HistoryEvent.id :=
      fun e he => dependencies_of_run hs e (hperm.mem_iff.2 he)
    obtain ⟨s', hs', heq⟩ := hloop hin
    obtain rfl := Except.ok.inj (hs.symm.trans hs')
    rw [heq] at hlength ⊢
    exact ⟨hin, hlength, rfl⟩
  · rintro ⟨hin, hlength, rfl⟩
    obtain ⟨s, hs, heq⟩ := hloop hin
    exact ⟨s, hs, by rw [heq, hlength], heq⟩

/-! ### The canonical order -/

/-- `d` is one of the three dependencies of an event. -/
def Dependency (e : HistoryEvent) (d : String) : Prop :=
  d ≠ "" ∧ (d = e.bindingParent ∨ d = e.nameParent ∨ d = e.memorySelectionParent)

/-- The list of dependencies is the relation. -/
theorem mem_dependencies_iff {e : HistoryEvent} {d : String} :
    d ∈ historyDependencies e ↔ Dependency e d := by
  simp [historyDependencies, Dependency, and_comm]

/-- Two events with one id that differ. -/
def Conflicting (l : List HistoryEvent) : Prop := ∃ a ∈ l, ∃ b ∈ l, a.id = b.id ∧ a ≠ b

/-- A dependency that is not in the list. -/
def MissingDependency (l : List HistoryEvent) : Prop :=
  ∃ e ∈ l, ∃ d, Dependency e d ∧ d ∉ l.map HistoryEvent.id

/-- The dependency relation, on ids. -/
def DependsOn (l : List HistoryEvent) (a b : String) : Prop := ∃ e ∈ l, e.id = a ∧ Dependency e b

/-- The events of `l`, each once and after its dependencies, and at each place the least of those
whose dependencies are placed. -/
structure CanonicalOrder (l out : List HistoryEvent) : Prop where
  mem : ∀ e, e ∈ out ↔ e ∈ l
  nodup : (out.map HistoryEvent.id).Nodup
  after : ∀ before e rest, out = before ++ e :: rest →
    ∀ d, Dependency e d → d ∈ before.map HistoryEvent.id
  least : ∀ before e rest, out = before ++ e :: rest → ∀ f ∈ l, f ∉ before →
    (∀ d, Dependency f d → d ∈ before.map HistoryEvent.id) → Observed e f

/-- The client's order is the canonical one. -/
theorem canonical_of_order (h : Cli.orderHistoryEvents l = .ok out) : CanonicalOrder l out := by
  have henum := Cli.enumerates_of_order h
  obtain ⟨byID, hindex, -, -, rfl⟩ := Cli.orderHistoryEvents_eq_ok.1 h
  refine ⟨henum.mem, henum.nodup, fun before e rest hsplit d hd => ?_,
    fun before e rest hsplit f hf hnew hdeps => ?_⟩
  · rw [hsplit] at henum
    exact (henum.causal.met d (mem_dependencies_iff.2 hd)).resolve_left List.not_mem_nil
  · have hgreedy := Cli.greedy_of_index hindex
    rw [hsplit] at hgreedy
    refine hgreedy.least ⟨hf, fun hin => ?_, fun d hd => ?_⟩
    · obtain ⟨g, hg, hid⟩ := List.mem_map.1 hin
      have hg : g ∈ before := by simpa using hg
      have hfg : g = f := List.inj_on_of_nodup_map henum.nodup (by simp [hsplit, hg])
        ((henum.mem f).2 hf) hid
      exact hnew (hfg ▸ hg)
    · simpa using hdeps d (mem_dependencies_iff.1 hd)

/-- Each event of the canonical order is the earliest ready one. -/
theorem CanonicalOrder.greedy (h : CanonicalOrder l out) {before rest : List HistoryEvent}
    (hout : out = before ++ rest) :
    Greedy observedBefore (Cli.ReadyIn l) before.reverse rest := by
  induction rest generalizing before with
  | nil =>
      intro e he
      have hmem := (h.mem e).2 he.1
      rw [hout, List.append_nil] at hmem
      exact he.2.1 (List.mem_map_of_mem (List.mem_reverse.2 hmem))
  | cons e rest ih =>
      have hn := h.nodup
      rw [hout, List.map_append, List.nodup_append] at hn
      refine ⟨⟨(h.mem e).1 (by simp [hout]), fun hin => ?_, fun d hd => ?_⟩, fun f hf => ?_, ?_⟩
      · rw [List.map_reverse, List.mem_reverse] at hin
        exact hn.2.2 e.id hin e.id (by simp) rfl
      · simpa using h.after before e rest hout d (mem_dependencies_iff.1 hd)
      · refine h.least before e rest hout f hf.1 (fun hin => ?_) fun d hd => ?_
        · exact hf.2.1 (List.mem_map_of_mem (List.mem_reverse.2 hin))
        · simpa using hf.2.2 d (mem_dependencies_iff.2 hd)
      · simpa using @ih (before ++ [e]) (by rw [hout, List.append_cons])

/-- **There is one canonical order.** -/
theorem CanonicalOrder.unique {out' : List HistoryEvent} (h : CanonicalOrder l out)
    (h' : CanonicalOrder l out') : out' = out :=
  Cli.greedy_unique (fun a ha b hb => List.inj_on_of_nodup_map h.nodup ((h.mem a).2 ha)
    ((h.mem b).2 hb)) (h'.greedy (List.nil_append _).symm) (h.greedy (List.nil_append _).symm)

/-! ### When there is no order -/

/-- **An acyclic history with all its dependencies has an order.** -/
theorem exists_order (hconflict : ¬ Conflicting l) (hmissing : ¬ MissingDependency l)
    (hacyclic : Acyclic (DependsOn l)) : ∃ out, Cli.orderHistoryEvents l = .ok out := by
  have hunique : ∀ a b, a ∈ [] ++ l → b ∈ [] ++ l → a.id = b.id → a = b := fun a b ha hb hid =>
    not_not.1 fun hne => hconflict ⟨a, ha, b, hb, hid, hne⟩
  obtain ⟨byID, hindex⟩ := Cli.exists_indexEvents hunique
  obtain ⟨hids, hmem⟩ := Cli.indexEvents_eq_ok (by simp) hindex
  have hmem : ∀ e, e ∈ byID ↔ e ∈ l := fun e => by simp [hmem e]
  have hin : ∀ e ∈ byID, ∀ d ∈ historyDependencies e, d ∈ byID.map HistoryEvent.id := by
    intro e he d hd
    by_contra hout
    refine hmissing ⟨e, (hmem e).1 he, d, mem_dependencies_iff.1 hd, fun hl => hout ?_⟩
    obtain ⟨f, hf, rfl⟩ := List.mem_map.1 hl
    exact List.mem_map_of_mem ((hmem f).2 hf)
  refine Cli.order_of_placed hindex hin fun e he => ?_
  by_contra hnew
  -- a lowest event among those left over would be ready
  have hleft : e.id ∈ (byID.map HistoryEvent.id).filter
      fun id => decide (id ∉ (orderFrom byID.length [] byID).map HistoryEvent.id) :=
    List.mem_filter.2 ⟨List.mem_map_of_mem ((hmem e).2 he), decide_eq_true hnew⟩
  obtain ⟨id, hid, hlow⟩ := hacyclic.exists_sink (List.ne_nil_of_mem hleft)
  obtain ⟨hin', hnew'⟩ := List.mem_filter.1 hid
  obtain ⟨f, hf, rfl⟩ := List.mem_map.1 hin'
  refine (Cli.greedy_of_index hindex).stuck f
    ⟨(hmem f).1 hf, by simpa using hnew', fun d hd => ?_⟩
  by_contra hout
  refine hlow d (List.mem_filter.2 ⟨hin f hf d hd, by simpa using hout⟩) ?_
  exact ⟨f, (hmem f).1 hf, rfl, mem_dependencies_iff.1 hd⟩

/-- A causal list puts the dependencies of each event after it, read backwards. -/
theorem ordered_of_causal {succ : String → List String} {dom done : List String}
    {x : List HistoryEvent} (hsucc : ∀ e ∈ x, succ e.id = historyDependencies e)
    (hn : (x.map HistoryEvent.id).Nodup) (hnew : ∀ e ∈ x, e.id ∉ done)
    (hcausal : Causal HistoryEvent.id historyDependencies done x) (hdone : Ordered succ dom done) :
    Ordered succ dom (x.foldl (fun done e => e.id :: done) done) := by
  induction x generalizing done with
  | nil => exact hdone
  | cons e x ih =>
      obtain ⟨hsucce, hsucc⟩ := List.forall_mem_cons.1 hsucc
      obtain ⟨hnewe, hnew⟩ := List.forall_mem_cons.1 hnew
      rw [List.map_cons, List.nodup_cons] at hn
      refine ih hsucc hn.2 (fun f hf => ?_) hcausal.2 (.cons hdone hnewe fun y hy => ?_)
      · rw [List.mem_cons, not_or]
        exact ⟨fun heq => hn.1 (heq ▸ List.mem_map_of_mem hf), hnew f hf⟩
      · rw [hsucce] at hy
        exact Or.inl (hcausal.1 y hy)

/-- The loop over the placed events adds their ids. -/
theorem mem_foldl_ids {x : List HistoryEvent} {done : List String} {id : String} :
    id ∈ x.foldl (fun done e => e.id :: done) done ↔ id ∈ done ∨ id ∈ x.map HistoryEvent.id := by
  induction x generalizing done with
  | nil => simp
  | cons e x ih =>
      rw [List.foldl_cons, ih, List.map_cons, List.mem_cons, List.mem_cons]
      tauto

/-- **An order refutes a cycle.** -/
theorem acyclic_of_order (h : Cli.orderHistoryEvents l = .ok out) : Acyclic (DependsOn l) := by
  have henum := Cli.enumerates_of_order h
  have hordered : Ordered (dependenciesOf out) (out.map HistoryEvent.id)
      (out.foldl (fun done e => e.id :: done) []) :=
    ordered_of_causal (fun e he => dependenciesOf_of_mem henum.nodup he) henum.nodup
      (fun _ _ => List.not_mem_nil) henum.causal .nil
  have hout : ∀ b ∉ out.map HistoryEvent.id, dependenciesOf out b = [] := by
    intro b hb
    unfold dependenciesOf
    cases he : eventOf out b with
    | none => rfl
    | some e =>
        obtain ⟨hmem, rfl⟩ := eventOf_eq_some he
        exact absurd (List.mem_map_of_mem hmem) hb
  refine (acyclic_of_ordered hout hordered fun x hx => mem_foldl_ids.2 (Or.inr hx)).mono ?_
  rintro a b ⟨e, he, rfl, hdep⟩
  have hmem := (henum.mem e).2 he
  rw [dependenciesOf_of_mem henum.nodup hmem]
  exact mem_dependencies_iff.2 hdep

/-- **`OrderHistoryEvents` fails exactly on a conflict, a missing dependency or a cycle.** -/
theorem order_fails_iff :
    (∃ err, Cli.orderHistoryEvents l = .error err) ↔
      Conflicting l ∨ MissingDependency l ∨ ¬ Acyclic (DependsOn l) := by
  constructor
  · rintro ⟨err, herr⟩
    by_contra hnone
    obtain ⟨hconflict, hrest⟩ := not_or.1 hnone
    obtain ⟨hmissing, hacyclic⟩ := not_or.1 hrest
    obtain ⟨out, hout⟩ := exists_order hconflict hmissing (not_not.1 hacyclic)
    rw [hout] at herr
    cases herr
  · intro hbad
    cases h : Cli.orderHistoryEvents l with
    | error err => exact ⟨err, rfl⟩
    | ok out =>
        have henum := Cli.enumerates_of_order h
        exfalso
        rcases hbad with ⟨a, ha, b, hb, hid, hne⟩ | ⟨e, he, d, hd, hout⟩ | hcycle
        · exact hne (List.inj_on_of_nodup_map henum.nodup ((henum.mem a).2 ha)
            ((henum.mem b).2 hb) hid)
        · obtain ⟨x, y, hsplit⟩ := List.append_of_mem ((henum.mem e).2 he)
          have hbefore := (canonical_of_order h).after x e y hsplit d hd
          obtain ⟨f, hf, rfl⟩ := List.mem_map.1 hbefore
          exact hout (List.mem_map_of_mem ((henum.mem f).1 (by rw [hsplit]; simp [hf])))
        · exact hcycle (acyclic_of_order h)

end Order

/-- **`OrderHistoryEvents` gives the canonical topological order.**  It fails exactly when two
events share an id and differ, a dependency is absent or the dependencies have a cycle; otherwise
the result is the one canonical order of the events, and neither the order or repetition of the
list nor the order in which the map is ranged over changes it. -/
theorem orderHistoryEvents_canonical (it : Iteration) (l : List HistoryEvent) :
    ((∃ err, orderHistoryEvents it l = .error err) ↔
      Conflicting l ∨ MissingDependency l ∨ ¬ Acyclic (DependsOn l)) ∧
    (∀ out, orderHistoryEvents it l = .ok out →
      CanonicalOrder l out ∧ ∀ out', CanonicalOrder l out' → out' = out) ∧
    ∀ (it' : Iteration) (l' : List HistoryEvent), (∀ e, e ∈ l ↔ e ∈ l') →
      ∀ out, orderHistoryEvents it l = .ok out ↔ orderHistoryEvents it' l' = .ok out := by
  refine ⟨?_, fun out hout => ?_, fun it' l' hmem out => ?_⟩
  · rw [← order_fails_iff]
    cases h : Cli.orderHistoryEvents l with
    | ok out => simp [orderHistoryEvents_eq_ok_iff.2 h]
    | error err =>
        refine iff_of_true ?_ ⟨err, rfl⟩
        cases h' : orderHistoryEvents it l with
        | error err => exact ⟨err, rfl⟩
        | ok out =>
            rw [orderHistoryEvents_eq_ok_iff, h] at h'
            cases h'
  · have hcanonical := canonical_of_order (orderHistoryEvents_eq_ok_iff.1 hout)
    exact ⟨hcanonical, fun out' => hcanonical.unique⟩
  · rw [orderHistoryEvents_eq_ok_iff, orderHistoryEvents_eq_ok_iff]
    exact ⟨Cli.orderHistoryEvents_congr hmem, Cli.orderHistoryEvents_congr fun e => (hmem e).symm⟩

end HistoryQueue
end Backend
end CxtHub
