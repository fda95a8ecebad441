/-
# Sorting by a key

`sortOn key l` is `sort.Slice` with a comparison of keys.  It is a permutation of the list
(`sortOn_perm`); when no key comes twice it does not depend on the order of the list
(`sortOn_eq_of_perm`).
-/

import Mathlib.Data.List.Sort
import Mathlib.Data.Prod.Lex

namespace CxtHub

variable {α κ : Type} [LinearOrder κ]

/-- A list in the order of its keys. -/
def sortOn (key : α → κ) (l : List α) : List α := l.insertionSort fun a b => key a ≤ key b

/-- Sorting keeps the items. -/
theorem sortOn_perm (key : α → κ) (l : List α) : (sortOn key l).Perm l :=
  List.perm_insertionSort _ l

@[simp] theorem mem_sortOn {key : α → κ} {l : List α} {a : α} : a ∈ sortOn key l ↔ a ∈ l :=
  (sortOn_perm key l).mem_iff

/-- Distinct keys determine the sorted list. -/
theorem sortOn_eq_of_perm {key : α → κ} {l l' : List α} (h : l.Perm l')
    (hn : (l.map key).Nodup) : sortOn key l = sortOn key l' := by
  have htotal : Std.Total fun a b : α => key a ≤ key b := ⟨fun a b => le_total (key a) (key b)⟩
  have htrans : IsTrans α fun a b => key a ≤ key b := ⟨fun _ _ _ => le_trans⟩
  have hperm : (sortOn key l).Perm (sortOn key l') :=
    (sortOn_perm key l).trans (h.trans (sortOn_perm key l').symm)
  refine hperm.eq_of_pairwise (fun a b ha hb hab hba => ?_) (List.pairwise_insertionSort _ l)
    (List.pairwise_insertionSort _ l')
  exact List.inj_on_of_nodup_map hn (mem_sortOn.1 ha) (h.mem_iff.2 (mem_sortOn.1 hb))
    (le_antisymm hab hba)

end CxtHub
