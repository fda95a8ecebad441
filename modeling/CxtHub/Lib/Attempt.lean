/-
# Procedures that keep their state when they fail

An `Attempt` returns a value or an error and the state it has reached; a failed call leaves
what it wrote before it failed.  `collect` runs a procedure on every element and joins the
results, `firstOf` tries alternatives until one succeeds and undoes the failed ones.

What a run does to the state, whether it succeeds or fails, is a relation that its parts
keep (`Keeps`); what it does when it succeeds is a relation that composes (`collect_ok`).
When undoing gives back the state, a failed alternative leaves no trace (`firstOf_ok`).
-/

import Mathlib.Data.List.Basic

namespace CxtHub

/-- A procedure over a state. -/
def Attempt (σ ε α : Type) : Type := σ → Except ε α × σ

namespace Attempt

variable {σ ε α β : Type}

/-- `return a`. -/
def ok (a : α) : Attempt σ ε α := fun s => (.ok a, s)

/-- `return err`. -/
def fail (e : ε) : Attempt σ ε α := fun s => (.error e, s)

/-- The second part runs when the first succeeds. -/
def andThen (x : Attempt σ ε α) (f : α → Attempt σ ε β) : Attempt σ ε β := fun s =>
  match x s with
  | (.ok a, s') => f a s'
  | (.error e, s') => (.error e, s')

instance : Monad (Attempt σ ε) where
  pure := ok
  bind := andThen

/-- The error with a context. -/
def mapError (f : ε → ε) (x : Attempt σ ε α) : Attempt σ ε α := fun s =>
  match x s with
  | (.ok a, s') => (.ok a, s')
  | (.error e, s') => (.error (f e), s')

/-- A procedure on every element; the results are joined. -/
def collect (f : α → Attempt σ ε (List β)) : List α → Attempt σ ε (List β)
  | [] => ok []
  | a :: l => do
      let x ← f a
      let y ← collect f l
      ok (x ++ y)

/-- The first alternative that succeeds; `undo` takes a failed one back.  The error is made
from the last cause. -/
def firstOf (undo : σ → σ → σ) (f : α → Attempt σ ε β) (error : Option ε → ε) :
    Option ε → List α → Attempt σ ε β
  | cause, [] => fail (error cause)
  | _, a :: l => fun s =>
      match f a s with
      | (.ok b, s') => (.ok b, s')
      | (.error e, s') => firstOf undo f error (some e) l (undo s s')

theorem firstOf_cons {undo : σ → σ → σ} {f : α → Attempt σ ε β} {error : Option ε → ε}
    {cause : Option ε} {a : α} {l : List α} {s : σ} :
    firstOf undo f error cause (a :: l) s =
      match f a s with
      | (.ok b, s') => (.ok b, s')
      | (.error e, s') => firstOf undo f error (some e) l (undo s s') := rfl

/-! ### Successful runs -/

variable {s s' : σ} {a : α} {b : β} {e : ε}

@[simp] theorem ok_run : (ok a : Attempt σ ε α) s = (.ok a, s) := rfl

@[simp] theorem fail_run : (fail e : Attempt σ ε α) s = (.error e, s) := rfl

/-- A sequence succeeds when both parts do. -/
theorem bind_run_ok {x : Attempt σ ε α} {f : α → Attempt σ ε β} :
    (x >>= f) s = (.ok b, s') ↔ ∃ a m, x s = (.ok a, m) ∧ f a m = (.ok b, s') := by
  change andThen x f s = _ ↔ _
  rw [andThen]
  split
  · rename_i a m hx
    simp [hx]
  · rename_i e m hx
    simp [hx]

theorem mapError_run_ok {f : ε → ε} {x : Attempt σ ε α} :
    mapError f x s = (.ok a, s') ↔ x s = (.ok a, s') := by
  rw [mapError]
  split
  · rename_i hx
    rw [hx]
  · rename_i hx
    simp [hx]

/-- A relation between the states and the result that composes holds of the whole loop. -/
theorem collect_ok {f : α → Attempt σ ε (List β)} {P : σ → σ → List β → Prop} {l : List α}
    {out : List β} (hnil : ∀ s, P s s [])
    (happend : ∀ {s m s' x y}, P s m x → P m s' y → P s s' (x ++ y))
    (hf : ∀ a ∈ l, ∀ s s' x, f a s = (.ok x, s') → P s s' x)
    (h : collect f l s = (.ok out, s')) : P s s' out := by
  induction l generalizing s out with
  | nil =>
      obtain ⟨rfl, rfl⟩ : [] = out ∧ s = s' := by simpa [collect] using h
      exact hnil s
  | cons a l ih =>
      simp only [collect, bind_run_ok, ok_run] at h
      obtain ⟨x, m, hx, y, m', hy, heq⟩ := h
      obtain ⟨rfl, rfl⟩ : x ++ y = out ∧ m' = s' := by simpa using heq
      exact happend (hf a List.mem_cons_self s m x hx)
        (ih (fun b hb => hf b (List.mem_cons_of_mem _ hb)) hy)

/-- When each run gives a fixed result, so does the loop. -/
theorem collect_value {f : α → Attempt σ ε (List β)} {g : α → List β} {l : List α} {out : List β}
    (hf : ∀ a ∈ l, ∀ s s' x, f a s = (.ok x, s') → x = g a)
    (h : collect f l s = (.ok out, s')) : out = l.flatMap g := by
  induction l generalizing s out with
  | nil =>
      obtain ⟨rfl, -⟩ : [] = out ∧ s = s' := by simpa [collect] using h
      rfl
  | cons a l ih =>
      simp only [collect, bind_run_ok, ok_run] at h
      obtain ⟨x, m, hx, y, m', hy, heq⟩ := h
      obtain ⟨rfl, rfl⟩ : x ++ y = out ∧ m' = s' := by simpa using heq
      rw [hf a List.mem_cons_self s m x hx, ih (fun b hb => hf b (List.mem_cons_of_mem _ hb)) hy,
        List.flatMap_cons]

/-! ### All runs -/

variable {R : σ → σ → Prop}

/-- What a run does to the state, successful or not. -/
def Keeps (R : σ → σ → Prop) (x : Attempt σ ε α) : Prop := ∀ s, R s (x s).2

theorem keeps_ok [Std.Refl R] : Keeps R (ok a : Attempt σ ε α) := Std.Refl.refl

theorem keeps_fail [Std.Refl R] : Keeps R (fail e : Attempt σ ε α) := Std.Refl.refl

/-- What both parts keep, the sequence keeps. -/
theorem keeps_bind [IsTrans σ R] {x : Attempt σ ε α} {f : α → Attempt σ ε β} (hx : Keeps R x)
    (hf : ∀ a, Keeps R (f a)) : Keeps R (x >>= f) := by
  intro s
  change R s (andThen x f s).2
  have hs := hx s
  rw [andThen]
  split
  · rename_i a m heq
    rw [heq] at hs
    exact IsTrans.trans _ _ _ hs (hf a m)
  · rename_i e m heq
    rwa [heq] at hs

theorem keeps_mapError {f : ε → ε} {x : Attempt σ ε α} (hx : Keeps R x) :
    Keeps R (mapError f x) := by
  intro s
  have hs := hx s
  rw [mapError]
  split <;> rename_i heq <;> rwa [heq] at hs

/-- A loop keeps what each round does. -/
theorem keeps_collect [Std.Refl R] [IsTrans σ R] {f : α → Attempt σ ε (List β)} {l : List α}
    (hf : ∀ a ∈ l, Keeps R (f a)) : Keeps R (collect f l) := by
  induction l with
  | nil => exact keeps_ok
  | cons a l ih =>
      exact keeps_bind (hf a List.mem_cons_self) fun x =>
        keeps_bind (ih fun b hb => hf b (List.mem_cons_of_mem _ hb)) fun y => keeps_ok

section

variable {undo : σ → σ → σ} (hundo : ∀ s s', R s s' → undo s s' = s)

include hundo

/-- The first that succeeds, with the others undone. -/
theorem keeps_firstOf [Std.Refl R] {f : α → Attempt σ ε β} {error : Option ε → ε}
    {cause : Option ε} {l : List α} (hf : ∀ a ∈ l, Keeps R (f a)) :
    Keeps R (firstOf undo f error cause l) := by
  induction l generalizing cause with
  | nil => exact keeps_fail
  | cons a l ih =>
      intro s
      have hs := hf a List.mem_cons_self s
      rw [firstOf_cons]
      split
      · rename_i b m heq
        rwa [heq] at hs
      · rename_i e m heq
        rw [heq] at hs
        rw [hundo s m hs]
        exact ih (fun b hb => hf b (List.mem_cons_of_mem _ hb)) s

/-- **No trace.**  The alternative that succeeds runs from the first state. -/
theorem firstOf_ok {f : α → Attempt σ ε β} {error : Option ε → ε} {cause : Option ε} {l : List α}
    (hf : ∀ a ∈ l, Keeps R (f a)) (h : firstOf undo f error cause l s = (.ok b, s')) :
    ∃ a ∈ l, f a s = (.ok b, s') := by
  induction l generalizing cause with
  | nil => cases h
  | cons a l ih =>
      have hs := hf a List.mem_cons_self s
      rw [firstOf_cons] at h
      split at h
      · rename_i c m heq
        exact ⟨a, List.mem_cons_self, heq.trans h⟩
      · rename_i e m heq
        rw [heq] at hs
        rw [hundo s m hs] at h
        obtain ⟨c, hc, hrun⟩ := ih (fun c hc => hf c (List.mem_cons_of_mem _ hc)) h
        exact ⟨c, List.mem_cons_of_mem _ hc, hrun⟩

end

end Attempt

end CxtHub
