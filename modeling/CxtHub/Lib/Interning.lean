/-
# Dictionaries of first occurrences

A writer that sends repeated values once keeps a dictionary and writes the place of each
value in it, as a 32-bit number; a value not met before is added at the end (`intern`).

`Interns m as out` is the specification of a program `m` that writes through such a
dictionary: it meets the values `as`, in this order, so that the dictionary grows by
their first occurrences, and its result is `out` at the final places, which do not change
when the dictionary grows further.  Programs are specified by the rules `Interns.pure`,
`Interns.bind` and `Interns.mapM`.

`reread dict a` is what a reader finds at the place written for `a`.  It is `a` exactly when
the place is a 32-bit number (`reread_eq_self_iff`): the numbers wrap.
-/

import CxtHub.Lib.Slices

namespace CxtHub
namespace Interning

variable {α β γ : Type} [DecidableEq α]

/-- The number written for a value, `uint32` of its place. -/
def place (dict : List α) (a : α) : UInt32 := UInt32.ofNat (dict.idxOf a)

/-- Look a value up and add it when it is new. -/
def intern (a : α) : StateM (List α) UInt32 := do
  let dict ← get
  if a ∈ dict then
    pure (place dict a)
  else
    set (dict ++ [a])
    pure (UInt32.ofNat dict.length)

/-- The values met by a program, and its result as a function of the places. -/
structure Interns (m : StateM (List α) β) (as : List α) (out : (α → UInt32) → β) : Prop where
  dict : ∀ dict, (m.run dict).2 = dict ++ freshFrom dict as
  result : ∀ dict final, (m.run dict).2 <+: final → (m.run dict).1 = out (place final)

/-- Adding first occurrences twice. -/
theorem append_freshFrom_append (dict as bs : List α) :
    dict ++ freshFrom dict as ++ freshFrom (dict ++ freshFrom dict as) bs =
      dict ++ freshFrom dict (as ++ bs) := by
  rw [freshFrom_append, List.append_assoc]
  congr 2
  refine freshFrom_congr (fun x => ?_) bs
  simp only [List.mem_append, mem_freshFrom]
  by_cases hx : x ∈ dict <;> simp [hx]

/-- A longer dictionary keeps the places. -/
theorem place_of_isPrefix {dict final : List α} (h : dict <+: final) {a : α} (ha : a ∈ dict) :
    place final a = place dict a := by
  obtain ⟨rest, rfl⟩ := h
  rw [place, place, List.idxOf_append_of_mem ha]

/-- An item that is there keeps its place, a new one goes to the end. -/
theorem run_intern (a : α) (dict : List α) :
    (intern a).run dict =
      if a ∈ dict then (place dict a, dict) else (UInt32.ofNat dict.length, dict ++ [a]) := by
  by_cases ha : a ∈ dict
  · rw [if_pos ha]
    simp only [intern, StateT.run_bind, StateT.run_get, pure_bind, ha, if_true]
    rfl
  · rw [if_neg ha]
    simp only [intern, StateT.run_bind, StateT.run_get, pure_bind, ha, if_false]
    rfl

/-- The program that interns one item. -/
theorem interns_intern (a : α) : Interns (intern a) [a] (fun at_ => at_ a) where
  dict dict := by
    rw [run_intern]
    split_ifs with ha <;> simp [ha, freshFrom]
  result dict final h := by
    rw [run_intern] at h ⊢
    split_ifs at h ⊢ with ha
    · exact (place_of_isPrefix h ha).symm
    · have hmem : a ∈ dict ++ [a] := List.mem_append_right _ (List.mem_singleton_self a)
      rw [place_of_isPrefix h hmem, place, List.idxOf_append_of_notMem ha, List.idxOf_cons_self,
        Nat.add_zero]

theorem Interns.pure (b : β) : Interns (pure b : StateM (List α) β) [] (fun _ => b) where
  dict dict := (List.append_nil dict).symm
  result _ _ _ := rfl

/-- Two programs in a row meet both lists. -/
theorem Interns.bind {m : StateM (List α) β} {f : β → StateM (List α) γ} {as bs : List α}
    {out : (α → UInt32) → β} {out' : β → (α → UInt32) → γ} (hm : Interns m as out)
    (hf : ∀ b, Interns (f b) bs (out' b)) :
    Interns (m >>= f) (as ++ bs) (fun at_ => out' (out at_) at_) where
  dict dict := by
    rw [StateT.run_bind]
    refine ((hf _).dict _).trans ?_
    rw [hm.dict, append_freshFrom_append]
  result dict final h := by
    have hfirst : (m.run dict).2 <+: final := by
      rw [StateT.run_bind] at h
      have hgrow := (hf (m.run dict).1).dict (m.run dict).2
      exact (List.prefix_append _ _).trans (hgrow ▸ h)
    rw [← hm.result dict final hfirst]
    exact (hf _).result _ final h

theorem Interns.map {m : StateM (List α) β} {as : List α} {out : (α → UInt32) → β}
    (hm : Interns m as out) (f : β → γ) :
    Interns (f <$> m) as (fun at_ => f (out at_)) where
  dict := hm.dict
  result dict final h := congrArg f (hm.result dict final h)

/-- A loop meets the items of each round. -/
theorem Interns.mapM {δ : Type} {f : δ → StateM (List α) β} {as : δ → List α}
    {out : δ → (α → UInt32) → β} (hf : ∀ d, Interns (f d) (as d) (out d)) (l : List δ) :
    Interns (l.mapM f) (l.flatMap as) (fun at_ => l.map fun d => out d at_) := by
  induction l with
  | nil => exact Interns.pure []
  | cons d l ih =>
      rw [List.mapM_cons, List.flatMap_cons]
      have hrest : ∀ b, Interns (do let bs ← l.mapM f; Pure.pure (b :: bs)) (l.flatMap as)
          (fun at_ => b :: l.map fun d => out d at_) := fun b => by
        rw [← List.append_nil (l.flatMap as)]
        exact ih.bind fun bs => Interns.pure (b :: bs)
      exact (hf d).bind hrest

/-! ### Reading -/

/-- What stands at the place written for a value. -/
def reread [Inhabited α] (dict : List α) (a : α) : α := dict.getD (place dict a).toNat default

theorem place_lt {dict : List α} {a : α} (ha : a ∈ dict) : (place dict a).toNat < dict.length := by
  rw [place, UInt32.toNat_ofNat']
  exact (Nat.mod_le _ _).trans_lt (List.idxOf_lt_length_of_mem ha)

/-- What a reader finds at the place of an item. -/
theorem reread_eq_getElem [Inhabited α] {dict : List α} {a : α} (ha : a ∈ dict) :
    reread dict a = dict.get ⟨(place dict a).toNat, place_lt ha⟩ :=
  (List.getElem_eq_getD default).symm

/-- **A place is read back as its value exactly when it has not wrapped.** -/
theorem reread_eq_self_iff [Inhabited α] {dict : List α} (hn : dict.Nodup) {a : α}
    (ha : a ∈ dict) : reread dict a = a ↔ dict.idxOf a < 2 ^ 32 := by
  have hplace : (place dict a).toNat = dict.idxOf a % 2 ^ 32 := UInt32.toNat_ofNat'
  have hself : dict.get ⟨dict.idxOf a, List.idxOf_lt_length_of_mem ha⟩ = a := List.getElem_idxOf _
  rw [reread_eq_getElem ha]
  constructor
  · intro h
    have heq := (List.Nodup.get_inj_iff hn).1 (h.trans hself.symm)
    rw [Fin.mk.injEq, hplace] at heq
    exact heq ▸ Nat.mod_lt _ (by decide)
  · intro h
    refine Eq.trans ?_ hself
    congr 2
    rw [hplace, Nat.mod_eq_of_lt h]

/-- A dictionary that the places cover gives every value back, and no other does. -/
theorem forall_reread_eq_self_iff [Inhabited α] {dict : List α} (hn : dict.Nodup) :
    (∀ a ∈ dict, reread dict a = a) ↔ dict.length ≤ 2 ^ 32 := by
  constructor
  · intro h
    by_contra hlong
    have hlt : 2 ^ 32 < dict.length := Nat.lt_of_not_le hlong
    have hmem := List.getElem_mem hlt
    have hidx := (reread_eq_self_iff hn hmem).1 (h _ hmem)
    rw [List.Nodup.idxOf_getElem hn] at hidx
    exact Nat.lt_irrefl _ hidx
  · intro h a ha
    exact (reread_eq_self_iff hn ha).2 ((List.idxOf_lt_length_of_mem ha).trans_le h)

end Interning
end CxtHub
