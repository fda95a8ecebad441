/-
# Local history

`ReachableHistory` and `historyHeap` of `cli/internal/domain/history_query.go`.  The code marks the
snapshots that the roots reach, counts the marked children of each, and empties a heap of those
that have none left; the ids that no snapshot has are gaps.  It works with positions in the slice,
the model with the ids, which are distinct.

`Graph.drainHeap_greedy` gives the order, and its uniqueness says that nothing else matters.
-/

import CxtHub.Backend.Snapshot
import CxtHub.Cli.Values
import CxtHub.Lib.HeapOrder
import CxtHub.Lib.Sorted

namespace CxtHub
namespace LocalHistory

open Relation CxtHub.Graph
open Backend (ContentHash Snapshot byID byID_eq_none byID_eq_some byID_of_mem)
open Cli (DomainError)

section Model

variable (snaps : List Snapshot) (roots : List ContentHash)

/-- The loop that fills `byID`. -/
def refuseDuplicates : List ContentHash → List Snapshot → Except DomainError Unit
  | _, [] => .ok ()
  | seen, s :: snaps => do
      refuse (s.id ∈ seen)
        { sentinel := .hashMismatch, format := "duplicate snapshot %s", args := [s.id] }
      refuseDuplicates (s.id :: seen) snaps

/-- The natural and graft parents of an id, as they are listed. -/
def listedParents (id : ContentHash) : List ContentHash :=
  match byID snaps id with
  | some s => s.parents.list ++ s.graftParents.list
  | none => []

/-- The ids that are popped from the stack. -/
def visitedIDs : List ContentHash :=
  Worklist.reach (listedParents snaps) (fun _ => false) (snaps.map Snapshot.id) roots

/-- `chosen`. -/
def chosenIDs : List ContentHash :=
  (snaps.map Snapshot.id).filter (· ∈ visitedIDs snaps roots)

/-- `missing`. -/
def missingIDs : List ContentHash :=
  (visitedIDs snaps roots).filter (· ∉ snaps.map Snapshot.id)

/-- The ids that `parents` visits. -/
def chosenParents (id : ContentHash) : List ContentHash :=
  (listedParents snaps id).filter (· ∈ chosenIDs snaps roots)

/-- When a snapshot was created. -/
def creationOf (id : ContentHash) : ℕ := ((byID snaps id).map Snapshot.createdAt).getD 0

/-- `historyHeap.Less`. -/
def newerSnapshot (a b : ContentHash) : Bool :=
  if creationOf snaps a = creationOf snaps b then decide (a < b)
  else decide (creationOf snaps b < creationOf snaps a)

/-- The loop over the heap. -/
def drainedIDs : List ContentHash :=
  let ids := chosenIDs snaps roots
  let children := releases (chosenParents snaps roots) ids
  drainHeap (newerSnapshot snaps) (chosenParents snaps roots) ids.length
    (children, Heap.init (newerSnapshot snaps) (ids.filter fun id => children id = 0))

/-- `ReachableHistory`. -/
def reachableHistory : Except DomainError (List Snapshot × List ContentHash) := do
  refuseDuplicates [] snaps
  refuse ((drainedIDs snaps roots).length ≠ (chosenIDs snaps roots).length)
    { sentinel := .hashMismatch, format := "cyclic context ancestry" }
  .ok ((drainedIDs snaps roots).filterMap (byID snaps),
    sortOn (fun id => id) (missingIDs snaps roots))

/-- A snapshot lists a parent. -/
def ListsParent (s : Snapshot) (p : ContentHash) : Prop :=
  p ∈ s.parents.list ∨ p ∈ s.graftParents.list

/-- The snapshot with an id lists a parent. -/
def HasParent (id p : ContentHash) : Prop := ∃ s, byID snaps id = some s ∧ ListsParent s p

/-- The ids that the roots reach. -/
def Reachable (id : ContentHash) : Prop := ∃ r ∈ roots, ReflTransGen (HasParent snaps) r id

/-- A snapshot and a reachable child of it. -/
def ChildOf (p c : ContentHash) : Prop :=
  byID snaps p ≠ none ∧ Reachable snaps roots c ∧ HasParent snaps c p

/-- A reachable snapshot that is not listed, while all its children are. -/
def Available (listed : List ContentHash) (id : ContentHash) : Prop :=
  byID snaps id ≠ none ∧ Reachable snaps roots id ∧ id ∉ listed ∧
    ∀ c, ChildOf snaps roots id c → c ∈ listed

/-- The reachable snapshots, each once, the newest available one next; and the sorted gaps. -/
structure Listing (out : List Snapshot) (gaps : List ContentHash) : Prop where
  mem : ∀ s, s ∈ out ↔ s ∈ snaps ∧ Reachable snaps roots s.id
  nodup : (out.map Snapshot.id).Nodup
  order : Greedy (newerSnapshot snaps) (Available snaps roots) [] (out.map Snapshot.id)
  children_first : ∀ before s after, out = before ++ s :: after →
    ∀ c, ChildOf snaps roots s.id c → c ∈ before.map Snapshot.id
  gaps_sorted : gaps.Pairwise (· < ·)
  mem_gaps : ∀ id, id ∈ gaps ↔ Reachable snaps roots id ∧ byID snaps id = none

end Model

variable {snaps snaps' : List Snapshot} {roots roots' : List ContentHash}
  {g : Snapshot → Snapshot} {id p : ContentHash}

/-! ### The graph -/

/-- Distinct ids pass the check for duplicates. -/
theorem refuseDuplicates_eq_ok {seen : List ContentHash}
    (hn : (snaps.map Snapshot.id).Nodup) (hseen : ∀ s ∈ snaps, s.id ∉ seen) :
    refuseDuplicates seen snaps = .ok () := by
  induction snaps generalizing seen with
  | nil => rfl
  | cons s snaps ih =>
      obtain ⟨hs, hseen⟩ := List.forall_mem_cons.1 hseen
      obtain ⟨hnew, hn⟩ := List.nodup_cons.1 hn
      rw [refuseDuplicates, refuse_of_not hs, ok_bind]
      refine ih hn fun t ht => ?_
      rw [List.mem_cons, not_or]
      exact ⟨fun heq => hnew (heq ▸ List.mem_map_of_mem ht), hseen t ht⟩

/-- The parents that a snapshot lists. -/
theorem mem_listedParents : p ∈ listedParents snaps id ↔ HasParent snaps id p := by
  unfold listedParents HasParent
  cases byID snaps id <;> simp [ListsParent]

/-- The ids of the list are those that are found. -/
theorem mem_ids : id ∈ snaps.map Snapshot.id ↔ byID snaps id ≠ none := by
  rw [Ne, byID_eq_none]
  simp

/-- The traversal visits what is reachable from the roots. -/
theorem mem_visitedIDs : id ∈ visitedIDs snaps roots ↔ Reachable snaps roots id := by
  have hdom : ∀ b, b ∉ snaps.map Snapshot.id → listedParents snaps b = [] := by
    intro b hb
    rw [mem_ids, not_not] at hb
    rw [listedParents, hb]
  have hedge : Worklist.Edge (listedParents snaps) (fun _ => false) = HasParent snaps := by
    funext a b
    simp [Worklist.Edge, mem_listedParents]
  rw [visitedIDs, Worklist.mem_reach hdom, hedge]
  exact and_iff_right rfl

/-- Chosen are the reachable ids with a snapshot. -/
theorem mem_chosenIDs :
    id ∈ chosenIDs snaps roots ↔ byID snaps id ≠ none ∧ Reachable snaps roots id := by
  rw [chosenIDs, List.mem_filter, mem_ids, decide_eq_true_eq, mem_visitedIDs]

theorem nodup_chosenIDs (hn : (snaps.map Snapshot.id).Nodup) :
    (chosenIDs snaps roots).Nodup := hn.filter _

/-- Missing are the reachable ids without one. -/
theorem mem_missingIDs :
    id ∈ missingIDs snaps roots ↔ Reachable snaps roots id ∧ byID snaps id = none := by
  rw [missingIDs, List.mem_filter, mem_visitedIDs, decide_eq_true_eq, mem_ids, not_not]

theorem nodup_missingIDs : (missingIDs snaps roots).Nodup :=
  (Worklist.nodup_walk List.nodup_nil).filter _

/-- The edges of the loop are those between reachable snapshots. -/
theorem childOf_iff {c : ContentHash} :
    c ∈ chosenIDs snaps roots ∧ p ∈ chosenParents snaps roots c ↔ ChildOf snaps roots p c := by
  rw [chosenParents, List.mem_filter, mem_listedParents, decide_eq_true_eq, mem_chosenIDs,
    mem_chosenIDs, ChildOf]
  constructor
  · rintro ⟨⟨-, hc⟩, hparent, hp, -⟩
    exact ⟨hp, hc, hparent⟩
  · rintro ⟨hp, ⟨r, hr, hpath⟩, s, hs, hlists⟩
    exact ⟨⟨by simp [hs], r, hr, hpath⟩, ⟨s, hs, hlists⟩, hp, r, hr, hpath.tail ⟨s, hs, hlists⟩⟩

/-- A snapshot waits for its chosen children. -/
theorem ready_eq_available :
    Ready (chosenParents snaps roots) (chosenIDs snaps roots) = Available snaps roots := by
  funext listed id
  simp only [Ready, Available, mem_chosenIDs, ← childOf_iff, and_imp, and_assoc]

/-! ### The order of the heap -/

/-- The place of a snapshot in the order of the heap. -/
def recency (snaps : List Snapshot) (id : ContentHash) : ℕᵒᵈ ×ₗ String :=
  toLex (OrderDual.toDual (creationOf snaps id), id)

/-- The order of the heap by recency. -/
theorem newerSnapshot_eq_false {a b : ContentHash} :
    newerSnapshot snaps a b = false ↔ recency snaps b ≤ recency snaps a := by
  rw [← not_lt, ← Bool.not_eq_true]
  refine not_congr ?_
  rw [recency, recency, Prod.Lex.toLex_lt_toLex, newerSnapshot]
  split_ifs with h <;> simp [h]

/-- It is a weak order, as the heap asks. -/
theorem weakOrder_newerSnapshot : Heap.WeakOrder (newerSnapshot snaps) where
  asymm a b h := by
    rw [newerSnapshot_eq_false]
    refine (le_total _ _).resolve_right fun hle => ?_
    rw [newerSnapshot_eq_false.2 hle] at h
    cases h
  negTrans a b c hab hbc := by
    rw [newerSnapshot_eq_false] at hab hbc ⊢
    exact hbc.trans hab

/-- What the loop over the heap gives. -/
theorem drainedIDs_spec (roots : List ContentHash) (hn : (snaps.map Snapshot.id).Nodup) :
    Greedy (newerSnapshot snaps) (Available snaps roots) [] (drainedIDs snaps roots) ∧
      (drainedIDs snaps roots).Nodup ∧ drainedIDs snaps roots ⊆ chosenIDs snaps roots ∧
      ((drainedIDs snaps roots).length = (chosenIDs snaps roots).length ↔
        Acyclic (ChildOf snaps roots)) := by
  have hsub : ∀ id, chosenParents snaps roots id ⊆ chosenIDs snaps roots := fun id p hp => by
    simpa using (List.mem_filter.1 hp).2
  have hspec := drainHeap_greedy weakOrder_newerSnapshot (nodup_chosenIDs hn) hsub
    (rfl : drainedIDs snaps roots = _)
  rw [ready_eq_available] at hspec
  simpa only [childOf_iff] using hspec

/-! ### The listing -/

/-- **The result, which exists when no chosen snapshot is its own ancestor.** -/
theorem reachableHistory_eq_ok {r : List Snapshot × List ContentHash}
    (hn : (snaps.map Snapshot.id).Nodup) :
    reachableHistory snaps roots = .ok r ↔ Acyclic (ChildOf snaps roots) ∧
      ((drainedIDs snaps roots).filterMap (byID snaps),
        sortOn (fun id => id) (missingIDs snaps roots)) = r := by
  rw [reachableHistory, refuseDuplicates_eq_ok hn (by simp), ok_bind]
  simp only [bind_eq_ok, exists_unit_iff, refuse_eq_ok, not_not, (drainedIDs_spec roots hn).2.2.2,
    Except.ok.injEq]

/-- Looking up ids that are there. -/
theorem map_id_filterMap_byID {ids : List ContentHash} (h : ∀ id ∈ ids, byID snaps id ≠ none) :
    (ids.filterMap (byID snaps)).map Snapshot.id = ids := by
  induction ids with
  | nil => rfl
  | cons a ids ih =>
      obtain ⟨ha, h⟩ := List.forall_mem_cons.1 h
      obtain ⟨s, hs⟩ := Option.ne_none_iff_exists'.1 ha
      rw [List.filterMap_cons_some hs, List.map_cons, ih h, (byID_eq_some hs).2]

/-- **What is returned lists the chosen snapshots, newest available first.** -/
theorem listing_of_ok {out : List Snapshot} {gaps : List ContentHash}
    (hn : (snaps.map Snapshot.id).Nodup)
    (h : reachableHistory snaps roots = .ok (out, gaps)) : Listing snaps roots out gaps := by
  obtain ⟨hacyclic, heq⟩ := (reachableHistory_eq_ok hn).1 h
  obtain ⟨rfl, rfl⟩ := Prod.mk.inj heq
  obtain ⟨hgreedy, hnodup, hsub, hlen⟩ := drainedIDs_spec roots hn
  have hperm := (List.subperm_of_subset hnodup hsub).perm_of_length_le (hlen.2 hacyclic).ge
  have hids := map_id_filterMap_byID fun id hid => (mem_chosenIDs.1 (hsub hid)).1
  rw [← hids] at hgreedy
  refine ⟨fun s => ?_, by rwa [hids], hgreedy, fun before s after hout c hc => ?_, ?_, fun id => ?_⟩
  · simp only [List.mem_filterMap, hperm.mem_iff, mem_chosenIDs]
    constructor
    · rintro ⟨id, ⟨-, hreach⟩, hs⟩
      obtain ⟨hmem, rfl⟩ := byID_eq_some hs
      exact ⟨hmem, hreach⟩
    · rintro ⟨hmem, hreach⟩
      have hs := byID_of_mem hn hmem
      exact ⟨s.id, ⟨by simp [hs], hreach⟩, hs⟩
  · rw [hout, List.map_append, List.map_cons] at hgreedy
    simpa using hgreedy.ready_at.2.2.2 c hc
  · refine List.Pairwise.imp ?_ ((List.pairwise_insertionSort (· ≤ ·) _).and
      ((sortOn_perm (fun id => id) _).nodup_iff.2 nodup_missingIDs))
    exact fun h => lt_of_le_of_ne h.1 h.2
  · rw [mem_sortOn, mem_missingIDs]

/-- The same snapshots and roots in another order, with parents repeated or listed elsewhere. -/
structure Rearranged (g : Snapshot → Snapshot) (snaps : List Snapshot)
    (roots : List ContentHash) (snaps' : List Snapshot) (roots' : List ContentHash) :
    Prop where
  perm : snaps'.Perm (snaps.map g)
  roots : roots'.Perm roots
  id : ∀ s, (g s).id = s.id
  createdAt : ∀ s, (g s).createdAt = s.createdAt
  parents : ∀ s p, ListsParent (g s) p ↔ ListsParent s p

section Rearranged

variable (h : Rearranged g snaps roots snaps' roots') (hn : (snaps.map Snapshot.id).Nodup)

include h hn

theorem Rearranged.nodup : (snaps'.map Snapshot.id).Nodup := by
  have hids : (snaps.map g).map Snapshot.id = snaps.map Snapshot.id := by
    simp [Function.comp_def, h.id]
  rwa [(h.perm.map _).nodup_iff, hids]

/-- The same snapshots are found in another order. -/
theorem Rearranged.byID_eq (id : ContentHash) : byID snaps' id = (byID snaps id).map g := by
  cases hs : byID snaps id with
  | none =>
      rw [byID_eq_none] at hs
      refine byID_eq_none.2 fun t ht => ?_
      obtain ⟨s, hmem, rfl⟩ := List.mem_map.1 (h.perm.mem_iff.1 ht)
      rw [h.id]
      exact hs s hmem
  | some s =>
      obtain ⟨hmem, rfl⟩ := byID_eq_some hs
      rw [← h.id]
      exact byID_of_mem (h.nodup hn) (h.perm.mem_iff.2 (List.mem_map_of_mem hmem))

theorem Rearranged.newerSnapshot_eq : newerSnapshot snaps' = newerSnapshot snaps := by
  have hcreation : creationOf snaps' = creationOf snaps := by
    funext id
    rw [creationOf, creationOf, h.byID_eq hn]
    cases byID snaps id <;> simp [h.createdAt]
  funext a b
  rw [newerSnapshot, newerSnapshot, hcreation]

/-- With the same parents. -/
theorem Rearranged.hasParent_eq : HasParent snaps' = HasParent snaps := by
  funext id p
  rw [HasParent, HasParent, h.byID_eq hn]
  cases byID snaps id <;> simp [h.parents]

/-- The same ids are reachable. -/
theorem Rearranged.reachable_eq : Reachable snaps' roots' = Reachable snaps roots := by
  funext id
  simp only [Reachable, h.hasParent_eq hn, h.roots.mem_iff]

/-- A rearrangement has the same children. -/
theorem Rearranged.childOf_eq : ChildOf snaps' roots' = ChildOf snaps roots := by
  funext p c
  simp [ChildOf, h.reachable_eq hn, h.hasParent_eq hn, h.byID_eq hn]

/-- And the same are available at each step. -/
theorem Rearranged.available_eq : Available snaps' roots' = Available snaps roots := by
  funext listed id
  simp [Available, h.reachable_eq hn, h.childOf_eq hn, h.byID_eq hn]

/-- The heap gives the same order. -/
theorem Rearranged.drainedIDs_eq : drainedIDs snaps' roots' = drainedIDs snaps roots := by
  have hgreedy := (drainedIDs_spec roots' (h.nodup hn)).1
  rw [h.newerSnapshot_eq hn, h.available_eq hn] at hgreedy
  refine hgreedy.unique (fun _ a b _ _ hab hba => ?_) (drainedIDs_spec roots hn).1
  have heq := le_antisymm (newerSnapshot_eq_false.1 hba) (newerSnapshot_eq_false.1 hab)
  exact congrArg (fun place => (ofLex place).2) heq

/-- **The order of the input does not change the result.** -/
theorem Rearranged.reachableHistory_iff {r' : List Snapshot × List ContentHash} :
    reachableHistory snaps' roots' = .ok r' ↔
      ∃ r, reachableHistory snaps roots = .ok r ∧ r' = (r.1.map g, r.2) := by
  have hgaps : (missingIDs snaps' roots').Perm (missingIDs snaps roots) :=
    (List.perm_ext_iff_of_nodup nodup_missingIDs nodup_missingIDs).2 fun id => by
      simp [mem_missingIDs, h.reachable_eq hn, h.byID_eq hn]
  have hsorted := sortOn_eq_of_perm hgaps (nodup_missingIDs.map fun _ _ heq => heq)
  simp only [reachableHistory_eq_ok hn, reachableHistory_eq_ok (h.nodup hn), h.childOf_eq hn,
    hsorted, h.drainedIDs_eq hn, funext (h.byID_eq hn)]
  constructor
  · rintro ⟨hacyclic, rfl⟩
    exact ⟨_, ⟨hacyclic, rfl⟩, by rw [List.map_filterMap]⟩
  · rintro ⟨r, ⟨hacyclic, rfl⟩, rfl⟩
    exact ⟨hacyclic, by rw [List.map_filterMap]⟩

end Rearranged

/-- **The local history is exact and canonical.**  It fails exactly on a cycle among the reachable
snapshots; otherwise it lists them newest first, each after its children, with the gaps; and the
order of the lists, or a parent listed twice, does not change it. -/
theorem reachableHistory_canonical (snaps : List Snapshot) (roots : List ContentHash)
    (hn : (snaps.map Snapshot.id).Nodup) :
    ((∃ r, reachableHistory snaps roots = .ok r) ↔ Acyclic (ChildOf snaps roots)) ∧
    (∀ out gaps, reachableHistory snaps roots = .ok (out, gaps) → Listing snaps roots out gaps) ∧
    ∀ g snaps' roots', Rearranged g snaps roots snaps' roots' →
      ∀ r', reachableHistory snaps' roots' = .ok r' ↔
        ∃ r, reachableHistory snaps roots = .ok r ∧ r' = (r.1.map g, r.2) := by
  refine ⟨?_, fun out gaps => listing_of_ok hn, fun g snaps' roots' h r' =>
    h.reachableHistory_iff hn⟩
  simp only [reachableHistory_eq_ok hn]
  exact ⟨fun h => h.choose_spec.1, fun h => ⟨_, h, rfl⟩⟩

/-- A snapshot with a parent that is listed twice and one that is not there. -/
def sampleHistory : List Snapshot :=
  [{ id := "a", repoID := "r", docHash := "d" },
    { id := "b", repoID := "r", docHash := "d", parents := some ["x", "a"]
      graftParents := some ["a"] }]

/-- Two snapshots and a parent that is missing. -/
theorem reachableHistory_sampleHistory :
    (sampleHistory.map Snapshot.id).Nodup ∧
      Listing sampleHistory ["b"] sampleHistory.reverse ["x"] :=
  ⟨by decide, (reachableHistory_canonical sampleHistory ["b"] (by decide)).2.1 _ _
    (by decide +kernel)⟩

end LocalHistory
end CxtHub
