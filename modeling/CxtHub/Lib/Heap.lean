/-
# Binary heaps

`container/heap` on a list: `init`, `push`, `pop` and the two sifts they are made of, with
the comparison as a parameter.  A `pop` returns a least element and leaves a heap
(`pop_spec`), for every comparison that is a weak order (`WeakOrder`).

Both sifts are proved the same way.  `down` keeps every parent and child in order except at
the hole, and the children of the hole after the parent of the hole (`DownInv`); `up` is the
mirror image (`UpInv`).  Positions are compared through `Le`, which says nothing outside the
list, so a swap is a change of positions (`le_swap_iff`).
-/

import Mathlib.Data.List.Basic
import Mathlib.Order.Lattice

namespace CxtHub
namespace Heap

variable {α : Type} (less : α → α → Bool)

/-- A comparison that sorts: two elements neither of which comes first are alike. -/
structure WeakOrder (less : α → α → Bool) : Prop where
  asymm : ∀ a b, less a b = true → less b a = false
  negTrans : ∀ a b c, less a b = false → less b c = false → less a c = false

/-- `Swap(i, j)`. -/
def swap (h : List α) (i j : ℕ) : List α :=
  match h[i]?, h[j]? with
  | some a, some b => (h.set i b).set j a
  | _, _ => h

/-- `Less(i, j)`. -/
def lessAt (h : List α) (i j : ℕ) : Bool :=
  match h[i]?, h[j]? with
  | some a, some b => less a b
  | _, _ => false

/-- `up(h, j)`. -/
def up : ℕ → ℕ → List α → List α
  | 0, _, h => h
  | fuel + 1, j, h =>
      let i := (j - 1) / 2
      if i = j ∨ lessAt less h j i = false then h else up fuel i (swap h i j)

/-- The child that `down` compares with its parent. -/
def leastChild (h : List α) (i n : ℕ) : ℕ :=
  if 2 * i + 2 < n ∧ lessAt less h (2 * i + 2) (2 * i + 1) = true then 2 * i + 2 else 2 * i + 1

/-- `down(h, i, n)`. -/
def down (n : ℕ) : ℕ → ℕ → List α → List α
  | 0, _, h => h
  | fuel + 1, i, h =>
      if n ≤ 2 * i + 1 then h
      else
        let j := leastChild less h i n
        if lessAt less h j i = false then h else down n fuel j (swap h i j)

/-- The loop of `Init`, from position `k - 1` down to the root. -/
def sift (n : ℕ) : ℕ → List α → List α
  | 0, h => h
  | k + 1, h => sift n k (down less n n k h)

/-- `heap.Init(h)`. -/
def init (h : List α) : List α := sift less h.length (h.length / 2) h

/-- `heap.Push(h, x)`. -/
def push (h : List α) (x : α) : List α := up less (h.length + 1) h.length (h ++ [x])

/-- `heap.Pop(h)`; nothing to pop from an empty heap. -/
def pop (h : List α) : Option (α × List α) :=
  let n := h.length - 1
  let sunk := down less n n 0 (swap h 0 n)
  sunk.getLast?.map fun x => (x, sunk.dropLast)

/-! ### Positions -/

section Positions

variable {h : List α} {i j k n : ℕ}

theorem swap_of_lt (hi : i < h.length) (hj : j < h.length) :
    swap h i j = (h.set i h[j]).set j h[i] := by
  rw [swap, List.getElem?_eq_getElem hi, List.getElem?_eq_getElem hj]

@[simp] theorem length_swap (h : List α) (i j : ℕ) : (swap h i j).length = h.length := by
  unfold swap
  split <;> simp

/-- A swap keeps the items. -/
theorem swap_perm (h : List α) (i j : ℕ) : (swap h i j).Perm h := by
  by_cases hij : i < h.length ∧ j < h.length
  · rw [swap_of_lt hij.1 hij.2]
    exact List.set_set_perm hij.1 hij.2
  · have hsame : swap h i j = h := by
      unfold swap
      split
      · rename_i a b ha hb
        exact absurd ⟨(List.getElem?_eq_some_iff.1 ha).1, (List.getElem?_eq_some_iff.1 hb).1⟩ hij
      · rfl
    rw [hsame]

/-- Where the element at a position was before a swap. -/
def swapped (i j k : ℕ) : ℕ := if k = i then j else if k = j then i else k

/-- What stands at an index after a swap. -/
theorem getElem?_swap (hi : i < h.length) (hj : j < h.length) (k : ℕ) :
    (swap h i j)[k]? = h[swapped i j k]? := by
  rw [swap_of_lt hi hj, List.getElem?_set, List.getElem?_set, List.length_set, swapped]
  by_cases hki : k = i
  · by_cases hkj : k = j
    · rw [if_pos hkj.symm, if_pos (hkj ▸ hj), if_pos hki, List.getElem?_eq_getElem hj]
      congr 1
      exact List.getElem_of_eq rfl _ |>.trans (by congr 1; omega)
    · rw [if_neg (Ne.symm hkj), if_pos hki.symm, if_pos (hki ▸ hi), if_pos hki,
        List.getElem?_eq_getElem hj]
  · by_cases hkj : k = j
    · rw [if_pos hkj.symm, if_pos (hkj ▸ hj), if_neg hki, if_pos hkj, List.getElem?_eq_getElem hi]
    · rw [if_neg (Ne.symm hkj), if_neg (Ne.symm hki), if_neg hki, if_neg hkj]

/-- The element at `i` does not come after the one at `j`. -/
def Le (h : List α) (i j : ℕ) : Prop := lessAt less h j i = false

variable {less}

/-- The order after a swap, at the swapped indices. -/
theorem le_swap_iff (hi : i < h.length) (hj : j < h.length) {a b : ℕ} :
    Le less (swap h i j) a b ↔ Le less h (swapped i j a) (swapped i j b) := by
  simp only [Le, lessAt, getElem?_swap hi hj]

/-- The order of the heap is transitive. -/
theorem Le.trans (w : WeakOrder less) (hj : j < h.length) (hij : Le less h i j)
    (hjk : Le less h j k) : Le less h i k := by
  unfold Le lessAt at *
  rw [List.getElem?_eq_getElem hj] at hij hjk
  cases hi : h[i]? with
  | none => cases h[k]? <;> rfl
  | some a =>
      cases hk : h[k]? with
      | none => rfl
      | some c =>
          rw [hi] at hij
          rw [hk] at hjk
          exact w.negTrans c h[j] a hjk hij

theorem le_of_lessAt (w : WeakOrder less) (hij : lessAt less h i j = true) : Le less h i j := by
  unfold Le lessAt at *
  cases hi : h[i]? with
  | none => cases h[j]? <;> rfl
  | some a =>
      cases hj : h[j]? with
      | none => rfl
      | some b =>
          rw [hi, hj] at hij
          exact w.asymm a b hij

theorem Le.refl (w : WeakOrder less) (i : ℕ) : Le less h i i := by
  cases hi : lessAt less h i i with
  | true => exact le_of_lessAt w hi
  | false => exact hi

end Positions

/-- From the parent `lo` on, no child in the first `n` positions comes before its parent. -/
def HeapFrom (lo n : ℕ) (h : List α) : Prop :=
  ∀ k, 0 < k → k < n → lo ≤ (k - 1) / 2 → Le less h ((k - 1) / 2) k

/-- A heap. -/
def IsHeap (h : List α) : Prop := HeapFrom less 0 h.length h

variable {less} {h : List α} {n lo i j fuel : ℕ}

/-! ### The elements -/

/-- The least child is a child, and within the heap. -/
theorem leastChild_range (less : α → α → Bool) (h : List α) (hn : 2 * i + 1 < n) :
    leastChild less h i n < n ∧ (leastChild less h i n - 1) / 2 = i ∧
      i < leastChild less h i n := by
  unfold leastChild
  split_ifs with hright
  · omega
  · omega

/-- Sifting down keeps the items. -/
theorem down_perm (n fuel i : ℕ) (h : List α) : (down less n fuel i h).Perm h := by
  induction fuel generalizing h i with
  | zero => exact .refl h
  | succ fuel ih =>
      rw [down]
      dsimp only
      split_ifs
      · exact .refl h
      · exact .refl h
      · exact (ih _ _).trans (swap_perm h _ _)

/-- `down` leaves the positions from `n` on alone. -/
theorem getElem?_down {k : ℕ} (hk : n ≤ k) (hn : n ≤ h.length) :
    (down less n fuel i h)[k]? = h[k]? := by
  induction fuel generalizing h i with
  | zero => rfl
  | succ fuel ih =>
      rw [down]
      dsimp only
      split_ifs with hi hless
      · rfl
      · rfl
      · obtain ⟨hjn, -, hij⟩ := leastChild_range less h (Nat.lt_of_not_le hi)
        rw [ih (by rwa [length_swap]), getElem?_swap (by omega) (by omega), swapped,
          if_neg (by omega), if_neg (by omega)]

theorem length_down (n fuel i : ℕ) (h : List α) : (down less n fuel i h).length = h.length :=
  (down_perm n fuel i h).length_eq

/-- So does sifting all. -/
theorem sift_perm (n k : ℕ) (h : List α) : (sift less n k h).Perm h := by
  induction k generalizing h with
  | zero => exact .refl h
  | succ k ih => exact (ih _).trans (down_perm n n k h)

theorem init_perm (h : List α) : (init less h).Perm h := sift_perm _ _ h

/-- So does sifting up. -/
theorem up_perm (fuel j : ℕ) (h : List α) : (up less fuel j h).Perm h := by
  induction fuel generalizing h j with
  | zero => exact .refl h
  | succ fuel ih =>
      rw [up]
      split_ifs
      · exact .refl h
      · exact (ih _ _).trans (swap_perm h _ _)

/-- A push adds its item. -/
theorem push_perm (h : List α) (x : α) : (push less h x).Perm (x :: h) :=
  (up_perm _ _ _).trans (List.perm_append_singleton x h)

theorem pop_nil : pop less ([] : List α) = none := rfl

/-! ### Sifting down -/

/-- The order of a heap except at the hole `i`, whose children do not come before its parent. -/
structure DownInv (less : α → α → Bool) (h : List α) (n lo i : ℕ) : Prop where
  bound : n ≤ h.length
  low : lo ≤ i
  ordered : ∀ k, 0 < k → k < n → lo ≤ (k - 1) / 2 → (k - 1) / 2 ≠ i → Le less h ((k - 1) / 2) k
  grand : ∀ k, 0 < k → k < n → (k - 1) / 2 = i → 0 < i → lo ≤ (i - 1) / 2 →
    Le less h ((i - 1) / 2) k

/-- When the item is below neither child, the heap is restored. -/
theorem DownInv.finish (inv : DownInv less h n lo i)
    (hchildren : ∀ k, 0 < k → k < n → (k - 1) / 2 = i → Le less h i k) : HeapFrom less lo n h := by
  intro k hk hkn hlo
  by_cases hp : (k - 1) / 2 = i
  · rw [hp]
    exact hchildren k hk hkn hp
  · exact inv.ordered k hk hkn hlo hp

/-- Below a heap from `i + 1` on, position `i` is a hole. -/
theorem DownInv.of_heapFrom (hn : n ≤ h.length) (hheap : HeapFrom less (i + 1) n h) :
    DownInv less h n i i where
  bound := hn
  low := le_rfl
  ordered k hk hkn hlo hp := hheap k hk hkn (by omega)
  grand k hk hkn hp hi hlo := by omega

variable (w : WeakOrder less)

include w

/-- The child that is compared comes before no other child. -/
theorem le_leastChild {k : ℕ} (hk : 0 < k) (hkn : k < n)
    (hparent : (k - 1) / 2 = i) : Le less h (leastChild less h i n) k := by
  have hcases : k = 2 * i + 1 ∨ k = 2 * i + 2 := by omega
  unfold leastChild
  split_ifs with hright
  · rcases hcases with rfl | rfl
    · exact le_of_lessAt w hright.2
    · exact Le.refl w _
  · rcases hcases with rfl | rfl
    · exact Le.refl w _
    · exact Bool.eq_false_iff.2 fun hless => hright ⟨hkn, hless⟩

/-- One swap down keeps the invariant, one level lower. -/
theorem DownInv.move (inv : DownInv less h n lo i) (hn : 2 * i + 1 < n)
    (hless : lessAt less h (leastChild less h i n) i = true) :
    DownInv less (swap h i (leastChild less h i n)) n lo (leastChild less h i n) := by
  obtain ⟨hjn, hparent, hij⟩ := leastChild_range less h hn
  have hmin : ∀ k, 0 < k → k < n → (k - 1) / 2 = i → Le less h (leastChild less h i n) k :=
    fun k hk hkn hp => le_leastChild w hk hkn hp
  have hbound := inv.bound
  have hlow := inv.low
  generalize leastChild less h i n = j at *
  have hswap : ∀ {a b : ℕ}, Le less (swap h i j) a b ↔ Le less h (swapped i j a) (swapped i j b) :=
    le_swap_iff (by omega) (by omega)
  refine ⟨by rwa [length_swap], by omega, fun k hk hkn hlo hpk => ?_, fun k hk hkn hpk _ _ => ?_⟩
  · rw [hswap]
    by_cases hkj : k = j
    · subst hkj
      rw [hparent, swapped, if_pos rfl, swapped, if_neg (by omega), if_pos rfl]
      exact le_of_lessAt w hless
    · by_cases hki : k = i
      · subst hki
        rw [swapped, if_neg (by omega), if_neg hpk, swapped, if_pos rfl]
        exact inv.grand j (by omega) hjn hparent hk hlo
      · have hk' : swapped i j k = k := by rw [swapped, if_neg hki, if_neg hkj]
        rw [hk']
        by_cases hpi : (k - 1) / 2 = i
        · rw [hpi, swapped, if_pos rfl]
          exact hmin k hk hkn hpi
        · rw [swapped, if_neg hpi, if_neg hpk]
          exact inv.ordered k hk hkn hlo hpi
  · have hki : k ≠ i := by omega
    have hkj : k ≠ j := by omega
    rw [hswap, hparent, swapped, if_pos rfl, swapped, if_neg hki, if_neg hkj]
    have hstep := inv.ordered k hk hkn (by omega) (by omega)
    rwa [hpk] at hstep

/-- **`down` repairs the hole.** -/
theorem down_spec (inv : DownInv less h n lo i) (hfuel : n ≤ fuel + i) :
    HeapFrom less lo n (down less n fuel i h) := by
  induction fuel generalizing h i with
  | zero => exact inv.finish fun k hk hkn hp => by omega
  | succ fuel ih =>
      rw [down]
      by_cases hn : n ≤ 2 * i + 1
      · rw [if_pos hn]
        exact inv.finish fun k hk hkn hp => by omega
      · rw [if_neg hn]
        obtain ⟨hjn, -, hij⟩ := leastChild_range less h (Nat.lt_of_not_le hn)
        have hlength := inv.bound
        by_cases hless : lessAt less h (leastChild less h i n) i = false
        · rw [if_pos hless]
          exact inv.finish fun k hk hkn hp =>
            Le.trans w (by omega) hless (le_leastChild w hk hkn hp)
        · rw [if_neg hless]
          exact ih (inv.move w (by omega) (Bool.not_eq_false _ ▸ hless)) (by omega)

/-! ### `Init` -/

/-- **Sifting from the last parent up gives a heap.** -/
theorem sift_spec {k : ℕ} (hn : n ≤ h.length) (hheap : HeapFrom less k n h) :
    HeapFrom less 0 n (sift less n k h) := by
  induction k generalizing h with
  | zero => exact hheap
  | succ k ih =>
      exact ih (by rwa [length_down]) (down_spec w (DownInv.of_heapFrom hn hheap) (by omega))

/-- **`Init` makes a heap.** -/
theorem isHeap_init (h : List α) : IsHeap less (init less h) := by
  have hstart : HeapFrom less (h.length / 2) h.length h := fun k hk hkn hlo => by omega
  rw [IsHeap, (init_perm h).length_eq]
  exact sift_spec w le_rfl hstart

/-! ### Sifting up -/

/-- The order of a heap except between `j` and its parent, whose grandchildren through `j` do
not come before it. -/
structure UpInv (less : α → α → Bool) (h : List α) (j : ℕ) : Prop where
  bound : j < h.length
  ordered : ∀ k, 0 < k → k < h.length → k ≠ j → Le less h ((k - 1) / 2) k
  grand : ∀ k, 0 < k → k < h.length → (k - 1) / 2 = j → 0 < j → Le less h ((j - 1) / 2) k

/-- One swap up keeps the invariant, one level higher. -/
theorem UpInv.move (inv : UpInv less h j) (hj : 0 < j)
    (hless : lessAt less h j ((j - 1) / 2) = true) :
    UpInv less (swap h ((j - 1) / 2) j) ((j - 1) / 2) := by
  have hbound := inv.bound
  have hup : Le less h j ((j - 1) / 2) := le_of_lessAt w hless
  generalize hi : (j - 1) / 2 = i at *
  have hswap : ∀ {a b : ℕ}, Le less (swap h i j) a b ↔ Le less h (swapped i j a) (swapped i j b) :=
    le_swap_iff (by omega) hbound
  refine ⟨by rw [length_swap]; omega, fun k hk hkn hki => ?_, fun k hk hkn hpk hpos => ?_⟩
  · rw [length_swap] at hkn
    rw [hswap]
    by_cases hkj : k = j
    · subst hkj
      rw [hi, swapped, if_pos rfl, swapped, if_neg (by omega), if_pos rfl]
      exact hup
    · have hk' : swapped i j k = k := by rw [swapped, if_neg hki, if_neg hkj]
      rw [hk']
      by_cases hpj : (k - 1) / 2 = j
      · rw [hpj, swapped, if_neg (by omega), if_pos rfl]
        have hgrand := inv.grand k hk hkn hpj hj
        rwa [hi] at hgrand
      · have hordered := inv.ordered k hk hkn hkj
        by_cases hpi : (k - 1) / 2 = i
        · rw [hpi] at hordered
          rw [hpi, swapped, if_pos rfl]
          exact Le.trans w (by omega) hup hordered
        · rwa [swapped, if_neg hpi, if_neg hpj]
  · rw [length_swap] at hkn
    have hparent := inv.ordered i hpos (by omega) (by omega)
    have hpi : swapped i j ((i - 1) / 2) = (i - 1) / 2 := by
      rw [swapped, if_neg (by omega), if_neg (by omega)]
    rw [hswap, hpi]
    by_cases hkj : k = j
    · subst hkj
      rwa [swapped, if_neg (by omega), if_pos rfl]
    · rw [swapped, if_neg (by omega), if_neg hkj]
      have hordered := inv.ordered k hk hkn hkj
      rw [hpk] at hordered
      exact Le.trans w (by omega) hparent hordered

/-- **`up` repairs the hole.** -/
theorem up_spec (inv : UpInv less h j) (hfuel : j < fuel) :
    IsHeap less (up less fuel j h) := by
  induction fuel generalizing h j with
  | zero => omega
  | succ fuel ih =>
      rw [up]
      split_ifs with hstop
      · intro k hk hkn _
        by_cases hkj : k = j
        · subst hkj
          exact hstop.resolve_left (by omega)
        · exact inv.ordered k hk hkn hkj
      · obtain ⟨hne, hless⟩ := not_or.1 hstop
        have hj : 0 < j := by omega
        exact ih (inv.move w hj (Bool.not_eq_false _ ▸ hless)) (by omega)

/-- **`Push` keeps a heap.** -/
theorem isHeap_push (hheap : IsHeap less h) (x : α) :
    IsHeap less (push less h x) := by
  refine up_spec w ⟨by simp, fun k hk hkn hne => ?_, fun k hk hkn hp hpos => ?_⟩ (by omega)
  · rw [List.length_append, List.length_singleton] at hkn
    have hklen : k < h.length := by omega
    have hbefore := hheap k hk hklen (Nat.zero_le _)
    unfold Le lessAt at hbefore ⊢
    rwa [List.getElem?_append_left hklen, List.getElem?_append_left (by omega)]
  · rw [List.length_append, List.length_singleton] at hkn
    omega

/-! ### `Pop` -/

/-- The root of a heap does not come after any element. -/
theorem HeapFrom.root_le (hheap : HeapFrom less 0 n h) (hn : n ≤ h.length)
    (k : ℕ) (hk : k < n) : Le less h 0 k := by
  induction k using Nat.strongRecOn with
  | _ k ih =>
      by_cases hzero : k = 0
      · rw [hzero]
        exact Le.refl w 0
      · exact Le.trans w (by omega) (ih ((k - 1) / 2) (by omega) (by omega))
          (hheap k (by omega) hk (Nat.zero_le _))

/-- **`Pop` takes out a least element and leaves a heap.** -/
theorem pop_spec (hheap : IsHeap less h) (hne : h ≠ []) :
    ∃ x rest, pop less h = some (x, rest) ∧ h.Perm (x :: rest) ∧
      (∀ y ∈ rest, less y x = false) ∧ IsHeap less rest := by
  have hpos : 0 < h.length := List.length_pos_iff.2 hne
  have hlast : h.length - 1 < h.length := by omega
  have hcases : ∀ k, swapped 0 (h.length - 1) k = 0 ↔ k = h.length - 1 := fun k => by
    unfold swapped
    split_ifs <;> omega
  let sunk := down less (h.length - 1) (h.length - 1) 0 (swap h 0 (h.length - 1))
  have hperm : sunk.Perm h := (down_perm _ _ _ _).trans (swap_perm h _ _)
  have hlen : sunk.length = h.length := hperm.length_eq
  -- the last position holds what was at the root
  have hroot : sunk[h.length - 1]? = h[0]? := by
    rw [getElem?_down le_rfl (by rw [length_swap]; omega), getElem?_swap hpos hlast,
      (hcases _).2 rfl]
  have hget : sunk.getLast? = some h[0] := by
    rw [List.getLast?_eq_getElem?, hlen, hroot, List.getElem?_eq_getElem hpos]
  obtain ⟨rest, hsplit⟩ : ∃ rest, sunk = rest ++ [h[0]] :=
    (List.getLast?_eq_some_iff.1 hget)
  have hdrop : sunk.dropLast = rest := by rw [hsplit, List.dropLast_concat]
  have hrest : h.Perm (h[0] :: rest) := by
    rw [hsplit] at hperm
    exact hperm.symm.trans (List.perm_append_singleton _ rest)
  have hrestlen : rest.length = h.length - 1 := by
    have hcount := hrest.length_eq
    rw [List.length_cons] at hcount
    omega
  have hinv : DownInv less (swap h 0 (h.length - 1)) (h.length - 1) 0 0 := by
    refine DownInv.of_heapFrom (by rw [length_swap]; omega) fun k hk hkn hlo => ?_
    rw [le_swap_iff hpos hlast, swapped, if_neg (by omega), if_neg (by omega), swapped,
      if_neg (by omega), if_neg (by omega)]
    exact hheap k hk (by omega) (Nat.zero_le _)
  refine ⟨h[0], rest, ?_, hrest, fun y hy => ?_, fun k hk hkn _ => ?_⟩
  · have hpop : pop less h = sunk.getLast?.map fun x => (x, sunk.dropLast) := rfl
    rw [hpop, hget, hdrop]
    rfl
  · obtain ⟨k, hk, rfl⟩ := List.getElem_of_mem (hrest.mem_iff.2 (List.mem_cons_of_mem _ hy))
    have hle := HeapFrom.root_le w hheap le_rfl k hk
    unfold Le lessAt at hle
    rwa [List.getElem?_eq_getElem hk, List.getElem?_eq_getElem hpos] at hle
  · have hsunk := down_spec w hinv (Nat.le_add_right _ 0) k hk (by omega) (Nat.zero_le _)
    have hagree : ∀ m, m < rest.length → rest[m]? = sunk[m]? := fun m hm => by
      rw [hsplit, List.getElem?_append_left hm]
    unfold Le lessAt at hsunk ⊢
    rw [hagree k hkn, hagree _ (by omega)]
    exact hsunk

end Heap
end CxtHub
