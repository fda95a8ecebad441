/-
# Union-find without ranks

A forest is a parent map whose roots are its fixed points.  `find` climbs to the root and
then hangs every node of the way on it; `unite` hangs the root of one node on the root of
another.  The loops are given a number of turns, and give nothing when it does not
suffice; as many turns as there are nodes suffice (`Forest.find`, `Forest.unite`).

A compressed map has the roots it had (`Forest.hang`), and after any list of unions two
nodes have one root exactly when the listed pairs connect them (`uniteAll_spec`).
-/

import Mathlib.Data.Finset.Card
import Mathlib.Data.Nat.Find
import Mathlib.Dynamics.FixedPoints.Basic

namespace CxtHub
namespace UnionFind

open Function Relation

variable {α : Type*} {f g : α → α} {x y r s : α}

section Loops

variable [DecidableEq α]

/-- Up to the root. -/
def climb (f : α → α) : ℕ → α → Option α
  | 0, _ => none
  | n + 1, x => if f x = x then some x else climb f n (f x)

/-- Hang the nodes on the way to `r` on `r`. -/
def compress (r : α) : ℕ → (α → α) → α → Option (α → α)
  | 0, _, _ => none
  | n + 1, f, x => if f x = r then some f else compress r n (update f x r) (f x)

/-- The root of a node, and the map with a shorter way to it. -/
def find (n : ℕ) (f : α → α) (x : α) : Option (α × (α → α)) := do
  let r ← climb f n x
  let f ← compress r n f x
  some (r, f)

/-- Hang the root of `x` on the root of `y`. -/
def unite (n : ℕ) (f : α → α) (x y : α) : Option (α → α) := do
  let (a, f) ← find n f x
  let (b, f) ← find n f y
  some (update f a b)

/-- The unions of a list of pairs, one after the other. -/
def uniteAll (n : ℕ) : (α → α) → List (α × α) → Option (α → α)
  | f, [] => some f
  | f, e :: es => do
      let f ← unite n f e.1 e.2
      uniteAll n f es

end Loops

/-! ### Roots -/

/-- `r` is the root of `x`. -/
def Rep (f : α → α) (x r : α) : Prop := IsFixedPt f r ∧ ∃ k, f^[k] x = r

/-- An item has one representative. -/
theorem Rep.unique (hr : Rep f x r) (hs : Rep f x s) : r = s := by
  obtain ⟨hfr, k, rfl⟩ := hr
  obtain ⟨hfs, m, rfl⟩ := hs
  rcases le_total k m with h | h
  · obtain ⟨d, rfl⟩ := Nat.exists_eq_add_of_le h
    rw [Nat.add_comm, iterate_add_apply, hfr.iterate d]
  · obtain ⟨d, rfl⟩ := Nat.exists_eq_add_of_le h
    rw [Nat.add_comm, iterate_add_apply, hfs.iterate d]

theorem rep_self (h : IsFixedPt f r) : Rep f r r := ⟨h, 0, rfl⟩

/-- One step up. -/
theorem rep_parent : Rep f (f x) r ↔ Rep f x r := by
  refine and_congr_right fun hr => ⟨?_, ?_⟩
  · rintro ⟨k, hk⟩
    exact ⟨k + 1, hk⟩
  · rintro ⟨k, hk⟩
    refine ⟨k, ?_⟩
    rw [← iterate_succ_apply, iterate_succ_apply', hk, hr]

/-- Two maps with the same roots. -/
def SameRoots (f g : α → α) : Prop := ∀ x r, Rep g x r ↔ Rep f x r

/-- A parent map on finitely many nodes. -/
structure Forest (dom : Finset α) (f : α → α) : Prop where
  closed : ∀ x ∈ dom, f x ∈ dom
  outside : ∀ x, x ∉ dom → f x = x
  rooted : ∀ x, ∃ r, Rep f x r

/-- The identity is a forest of roots. -/
theorem forest_id (dom : Finset α) : Forest dom (id : α → α) where
  closed _ h := h
  outside _ _ := rfl
  rooted x := ⟨x, rep_self rfl⟩

section Depth

variable {dom : Finset α} (hf : Forest dom f)

include hf

/-- Climbing stays in the forest. -/
theorem Forest.iterate_mem (hx : x ∈ dom) (k : ℕ) : f^[k] x ∈ dom := by
  induction k generalizing x with
  | zero => exact hx
  | succ k ih => exact ih (hf.closed x hx)

/-- It is an item of the forest. -/
theorem Forest.rep_mem (hx : x ∈ dom) (hr : Rep f x r) : r ∈ dom := by
  obtain ⟨-, k, rfl⟩ := hr
  exact hf.iterate_mem hx k

/-- A way to the root passes each node once. -/
theorem Forest.depth_lt [DecidableEq α] (hx : x ∈ dom) (hr : Rep f x r) :
    ∃ k < dom.card, f^[k] x = r := by
  have hend : ∃ k, f^[k] x = r := hr.2
  refine ⟨Nat.find hend, ?_, Nat.find_spec hend⟩
  have hmaps : ∀ i ∈ Finset.range (Nat.find hend + 1), f^[i] x ∈ dom :=
    fun i _ => hf.iterate_mem hx i
  have hinj : ∀ i ∈ Finset.range (Nat.find hend + 1), ∀ j ∈ Finset.range (Nat.find hend + 1),
      i < j → f^[i] x ≠ f^[j] x := by
    intro i _ j hj hij heq
    have hj' := Finset.mem_range.1 hj
    -- A repeated node would give a shorter way.
    refine Nat.find_min hend (show i + (Nat.find hend - j) < Nat.find hend by omega) ?_
    have hsplit : Nat.find hend - j + j = Nat.find hend := by omega
    rw [Nat.add_comm, iterate_add_apply, heq, ← iterate_add_apply, hsplit]
    exact Nat.find_spec hend
  have hcard := Finset.card_le_card_of_injOn (fun i => f^[i] x) hmaps (by
    intro i hi j hj heq
    rcases lt_trichotomy i j with h | h | h
    · exact absurd heq (hinj i hi j hj h)
    · exact h
    · exact absurd heq.symm (hinj j hj i hi h))
  rw [Finset.card_range] at hcard
  omega

end Depth

/-! ### Connected nodes -/

/-- One of the pairs. -/
def Linked (es : List (α × α)) (a b : α) : Prop := (a, b) ∈ es

/-- The forest that the unions of the pairs have made. -/
structure Joined (dom : Finset α) (f : α → α) (es : List (α × α)) : Prop where
  forest : Forest dom f
  sound : ∀ x r, Rep f x r → EqvGen (Linked es) x r
  complete : ∀ a b, Linked es a b → ∃ r, Rep f a r ∧ Rep f b r

/-- The identity is the forest of no union. -/
theorem joined_id (dom : Finset α) : Joined dom (id : α → α) [] where
  forest := forest_id dom
  sound x r h := by
    rw [h.unique (rep_self rfl)]
    exact EqvGen.refl _
  complete a b h := absurd h List.not_mem_nil

/-- Two nodes have one root exactly when the pairs connect them. -/
theorem Joined.rep_iff {dom : Finset α} {es : List (α × α)} (h : Joined dom f es) :
    (∃ r, Rep f x r ∧ Rep f y r) ↔ EqvGen (Linked es) x y := by
  constructor
  · rintro ⟨r, hx, hy⟩
    exact (h.sound x r hx).trans _ _ _ ((h.sound y r hy).symm _ _)
  · intro hxy
    induction hxy with
    | rel a b hab => exact h.complete a b hab
    | refl a =>
        obtain ⟨r, hr⟩ := h.forest.rooted a
        exact ⟨r, hr, hr⟩
    | symm a b _ ih =>
        obtain ⟨r, ha, hb⟩ := ih
        exact ⟨r, hb, ha⟩
    | trans a b c _ _ ihab ihbc =>
        obtain ⟨r, ha, hb⟩ := ihab
        obtain ⟨s, hb', hc⟩ := ihbc
        obtain rfl := hb.unique hb'
        exact ⟨r, ha, hc⟩

/-! ### Changes of the map -/

section Change

variable [DecidableEq α]

/-- Hanging a node on its own root shortens the ways to the roots. -/
theorem iterate_hang (hx : Rep f x r) (hs : IsFixedPt f s) {m : ℕ} (h : f^[m] y = s) :
    ∃ j ≤ m, (update f x r)^[j] y = s := by
  induction m generalizing y with
  | zero => exact ⟨0, le_rfl, h⟩
  | succ m ih =>
      by_cases hy : y = x
      · subst hy
        have hrs : r = s := hx.unique ⟨hs, m + 1, h⟩
        exact ⟨1, by omega, by simp [hrs]⟩
      · obtain ⟨j, hj, hend⟩ := ih h
        refine ⟨j + 1, by omega, ?_⟩
        rw [iterate_succ_apply, update_of_ne hy, hend]

/-- Hanging an item under its representative changes no representative. -/
theorem rep_hang (hx : Rep f x r) (hy : Rep f y s) : Rep (update f x r) y s := by
  obtain ⟨hs, m, hm⟩ := hy
  obtain ⟨j, -, hj⟩ := iterate_hang hx hs hm
  refine ⟨?_, j, hj⟩
  by_cases h : s = x
  · subst h
    exact (update_self ..).trans (hx.unique (rep_self hs))
  · exact (update_of_ne h r f).trans hs

variable {dom : Finset α}

/-- Hanging a node on its own root changes no root. -/
theorem Forest.hang (hf : Forest dom f) (hmem : x ∈ dom) (hx : Rep f x r) :
    Forest dom (update f x r) ∧ SameRoots f (update f x r) := by
  refine ⟨⟨fun z hz => ?_, fun z hz => ?_, fun z => ?_⟩, fun z s => ⟨fun h => ?_, rep_hang hx⟩⟩
  · by_cases h : z = x
    · rw [h, update_self]
      exact hf.rep_mem hmem hx
    · rw [update_of_ne h]
      exact hf.closed z hz
  · have h : z ≠ x := by
      rintro rfl
      exact hz hmem
    rw [update_of_ne h]
    exact hf.outside z hz
  · obtain ⟨s, hs⟩ := hf.rooted z
    exact ⟨s, rep_hang hx hs⟩
  · obtain ⟨t, ht⟩ := hf.rooted z
    rwa [h.unique (rep_hang hx ht)]

/-- Hanging a root on another root. -/
theorem rep_join {a b : α} (ha : IsFixedPt f a) (hb : IsFixedPt f b) (hy : Rep f y s) :
    Rep (update f a b) y (if s = a then b else s) := by
  obtain ⟨hs, m, hm⟩ := hy
  have hb' : IsFixedPt (update f a b) b := by
    by_cases h : b = a
    · exact h ▸ update_self ..
    · exact (update_of_ne h b f).trans hb
  have hroot : Rep (update f a b) s (if s = a then b else s) := by
    split_ifs with h
    · exact ⟨hb', 1, by simp [h]⟩
    · have hfix : update f a b s = s := (update_of_ne h b f).trans hs
      exact rep_self hfix
  induction m generalizing y with
  | zero =>
      obtain rfl : y = s := hm
      exact hroot
  | succ m ih =>
      by_cases h : y = a
      · subst h
        obtain rfl : y = s := (rep_self ha).unique ⟨hs, m + 1, hm⟩
        exact hroot
      · rw [← rep_parent, update_of_ne h]
        exact ih hm

/-- Hanging one root under another gives a forest. -/
theorem Forest.join (hf : Forest dom f) {a b : α} (ha : a ∈ dom) (hb : b ∈ dom)
    (hfa : IsFixedPt f a) (hfb : IsFixedPt f b) : Forest dom (update f a b) where
  closed z hz := by
    by_cases h : z = a
    · rwa [h, update_self]
    · rw [update_of_ne h]
      exact hf.closed z hz
  outside z hz := by
    have h : z ≠ a := by
      rintro rfl
      exact hz ha
    rw [update_of_ne h]
    exact hf.outside z hz
  rooted z := by
    obtain ⟨s, hs⟩ := hf.rooted z
    exact ⟨_, rep_join hfa hfb hs⟩

/-! ### The loops -/

/-- With enough turns the climb ends at the root. -/
theorem climb_eq_some (hr : IsFixedPt f r) {k n : ℕ} (hk : f^[k] x = r) (hn : k < n) :
    climb f n x = some r := by
  induction k generalizing x n with
  | zero =>
      obtain ⟨n, rfl⟩ := Nat.exists_eq_succ_of_ne_zero (by omega : n ≠ 0)
      obtain rfl : x = r := hk
      exact if_pos hr
  | succ k ih =>
      obtain ⟨n, rfl⟩ := Nat.exists_eq_succ_of_ne_zero (by omega : n ≠ 0)
      rw [climb]
      split_ifs with hx
      · rw [← hk, iterate_fixed hx]
      · exact ih hk (by omega)

/-- **Compressing a path changes no representative.** -/
theorem Forest.compress (hf : Forest dom f) (hmem : x ∈ dom) (hr : IsFixedPt f r) {k n : ℕ}
    (hk : f^[k] x = r) (hkn : k ≤ n) (hn : 0 < n) :
    ∃ g, compress r n f x = some g ∧ Forest dom g ∧ SameRoots f g := by
  induction n generalizing f x k with
  | zero => omega
  | succ n ih =>
      rw [UnionFind.compress]
      split_ifs with hx
      · exact ⟨f, rfl, hf, fun _ _ => Iff.rfl⟩
      · -- The way has two steps at least: the end of none or one is `r`.
        obtain ⟨k, rfl⟩ : ∃ m, k = m + 2 := by
          rcases k with _ | _ | k
          · exact absurd (hk ▸ hr : f x = r) hx
          · exact absurd hk hx
          · exact ⟨k, rfl⟩
        have hrep : Rep f x r := ⟨hr, _, hk⟩
        obtain ⟨hforest, hsame⟩ := hf.hang hmem hrep
        obtain ⟨j, hj, hend⟩ := iterate_hang (y := f x) hrep hr (m := k + 1) hk
        obtain ⟨g, hg, hforest', hsame'⟩ := ih hforest (hf.closed x hmem)
          ((hsame x r).2 hrep).1 hend (by omega) (by omega)
        exact ⟨g, hg, hforest', fun z s => (hsame' z s).trans (hsame z s)⟩

variable {n : ℕ}

/-- `find` ends, gives the root, and changes no root. -/
theorem Forest.find (hf : Forest dom f) (hmem : x ∈ dom) (hn : dom.card ≤ n) :
    ∃ r g, find n f x = some (r, g) ∧ Rep f x r ∧ Forest dom g ∧ SameRoots f g := by
  obtain ⟨r, hr⟩ := hf.rooted x
  obtain ⟨k, hk, hend⟩ := hf.depth_lt hmem hr
  obtain ⟨g, hg, hforest, hsame⟩ := hf.compress hmem hr.1 hend (by omega) (by omega : 0 < n)
  refine ⟨r, g, ?_, hr, hforest, hsame⟩
  rw [UnionFind.find, climb_eq_some hr.1 hend (by omega)]
  simp [hg]

/-- `unite` ends, and moves the nodes under one root to the other. -/
theorem Forest.unite (hf : Forest dom f) (hx : x ∈ dom) (hy : y ∈ dom) (hn : dom.card ≤ n) :
    ∃ g a b, unite n f x y = some g ∧ Forest dom g ∧ Rep f x a ∧ Rep f y b ∧
      ∀ z s, Rep f z s → Rep g z (if s = a then b else s) := by
  obtain ⟨a, f₁, hfind, ha, hf₁, hsame₁⟩ := hf.find hx hn
  obtain ⟨b, f₂, hfind', hb, hf₂, hsame₂⟩ := hf₁.find hy hn
  have hsame : SameRoots f f₂ := fun z s => (hsame₂ z s).trans (hsame₁ z s)
  have hb' : Rep f y b := (hsame₁ y b).1 hb
  have hfa : IsFixedPt f₂ a := ((hsame x a).2 ha).1
  have hfb : IsFixedPt f₂ b := ((hsame y b).2 hb').1
  refine ⟨update f₂ a b, a, b, ?_, ?_, ha, hb', fun z s hz => ?_⟩
  · simp [UnionFind.unite, hfind, hfind']
  · exact hf₂.join (hf.rep_mem hx ha) (hf.rep_mem hy hb') hfa hfb
  · exact rep_join hfa hfb ((hsame z s).2 hz)

/-! ### Unions -/

/-- **Uniting two items joins their classes and no others.** -/
theorem Joined.unite {es : List (α × α)} (h : Joined dom f es) (hx : x ∈ dom) (hy : y ∈ dom)
    (hn : dom.card ≤ n) : ∃ g, unite n f x y = some g ∧ Joined dom g (es ++ [(x, y)]) := by
  obtain ⟨g, a, b, hunite, hforest, ha, hb, hmove⟩ := h.forest.unite hx hy hn
  have hle : Linked es ≤ Linked (es ++ [(x, y)]) := fun c d hcd => List.mem_append_left _ hcd
  have hmono := EqvGen.mono hle
  refine ⟨g, hunite, hforest, fun z s hz => ?_, fun c d hcd => ?_⟩
  · obtain ⟨t, ht⟩ := h.forest.rooted z
    rw [hz.unique (hmove z t ht)]
    split_ifs with hta
    · subst hta
      have hxy : EqvGen (Linked (es ++ [(x, y)])) x y :=
        EqvGen.rel _ _ (List.mem_append_right _ (List.mem_singleton_self _))
      have hzx := (h.sound z t ht).trans _ _ _ ((h.sound x t ha).symm _ _)
      exact ((hmono _ _ hzx).trans _ _ _ hxy).trans _ _ _ (hmono _ _ (h.sound y b hb))
    · exact hmono _ _ (h.sound z t ht)
  · rcases List.mem_append.1 hcd with hcd | hcd
    · obtain ⟨t, hc, hd⟩ := h.complete c d hcd
      exact ⟨_, hmove c t hc, hmove d t hd⟩
    · obtain ⟨rfl, rfl⟩ := Prod.mk.inj (List.mem_singleton.1 hcd)
      have hx' := hmove c a ha
      have hy' := hmove d b hb
      rw [if_pos rfl] at hx'
      refine ⟨b, hx', ?_⟩
      split_ifs at hy' <;> exact hy'

/-- The unions of a list end, and connect exactly what the pairs connect. -/
theorem uniteAll_spec (hn : dom.card ≤ n) {done es : List (α × α)}
    (hes : ∀ e ∈ es, e.1 ∈ dom ∧ e.2 ∈ dom) (h : Joined dom f done) :
    ∃ g, uniteAll n f es = some g ∧ Joined dom g (done ++ es) := by
  induction es generalizing f done with
  | nil => exact ⟨f, rfl, by simpa using h⟩
  | cons e es ih =>
      obtain ⟨hx, hy⟩ := hes e List.mem_cons_self
      obtain ⟨f₁, hunite, h₁⟩ := h.unite hx hy hn
      obtain ⟨g, hg, hjoined⟩ := ih (fun e' he' => hes e' (List.mem_cons_of_mem _ he')) h₁
      refine ⟨g, ?_, by simpa using hjoined⟩
      rw [uniteAll, hunite]
      exact hg

end Change

end UnionFind
end CxtHub
