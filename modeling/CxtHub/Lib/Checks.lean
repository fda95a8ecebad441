/-
# Early returns

A procedure that checks its arguments and returns the first error is a block in
`Except`: `refuse c e` is `if c { return e }`, `checkAll` the loop that applies one
check to every element, and `onlyIf c x` makes a check when `c` holds.  A successful
run is read off with `bind_eq_ok`, `refuse_eq_ok` and `checkAll_eq_ok`, one conjunct
per check; `mapM_eq_ok` reads off a loop that collects results, and `foldlM_invariant`
one that updates a state.
-/

import Mathlib.Data.List.Basic

namespace CxtHub

variable {ε α β : Type}

/-- `if c { return e }`. -/
def refuse (c : Prop) [Decidable c] (e : ε) : Except ε Unit :=
  if c then .error e else .ok ()

/-- `for x in xs { if err := f(x); err != nil { return err } }`. -/
def checkAll (f : α → Except ε Unit) : List α → Except ε Unit
  | [] => .ok ()
  | x :: xs => f x >>= fun _ => checkAll f xs

/-- `if c { if err := x; err != nil { return err } }`. -/
def onlyIf (c : Prop) [Decidable c] (x : Except ε Unit) : Except ε Unit :=
  if c then x else .ok ()

/-- A block passes nothing from a check to the next line. -/
@[simp] theorem exists_unit_iff {p : Unit → Prop} : (∃ u, p u) ↔ p () :=
  ⟨fun ⟨(), h⟩ => h, fun h => ⟨(), h⟩⟩

/-- A sequence succeeds exactly when its parts do, the second with the result of the first. -/
@[simp] theorem bind_eq_ok {x : Except ε α} {f : α → Except ε β} {b : β} :
    (x >>= f) = .ok b ↔ ∃ a, x = .ok a ∧ f a = .ok b := by
  cases x <;> simp [bind, Except.bind]

/-- An early return is passed exactly when its condition fails. -/
@[simp] theorem refuse_eq_ok {c : Prop} [Decidable c] {e : ε} {u : Unit} :
    refuse c e = .ok u ↔ ¬ c := by
  unfold refuse
  split_ifs with h <;> simp [h]

/-- A conditional check is passed exactly when the check is, where the condition holds. -/
@[simp] theorem onlyIf_eq_ok {c : Prop} [Decidable c] {x : Except ε Unit} {u : Unit} :
    onlyIf c x = .ok u ↔ (c → x = .ok ()) := by
  unfold onlyIf
  split_ifs with h <;> simp [h]

/-- A check whose condition fails succeeds. -/
theorem refuse_of_not {c : Prop} [Decidable c] {e : ε} (h : ¬ c) : refuse c e = .ok () :=
  if_neg h

/-- A returned value is the result. -/
@[simp] theorem pure_eq_ok {a b : α} : (pure a : Except ε α) = .ok b ↔ a = b := by
  simp [pure, Except.pure]

/-- A block goes on with the result of its first line. -/
@[simp] theorem ok_bind {a : α} {f : α → Except ε β} : (Except.ok a >>= f) = f a := rfl

/-- A block stops at its first error. -/
@[simp] theorem error_bind {e : ε} {f : α → Except ε β} : (Except.error e >>= f) = .error e := rfl

/-- A run that is known to succeed has a result, so that the result of a closed term can be named
without printing it. -/
theorem exists_of_isOk {x : Except ε α} (h : x.isOk = true) : ∃ a, x = .ok a := by
  cases x with
  | ok a => exact ⟨a, rfl⟩
  | error e => cases h

/-- The loop succeeds exactly when the check succeeds on every element. -/
@[simp] theorem checkAll_eq_ok {f : α → Except ε Unit} {xs : List α} {u : Unit} :
    checkAll f xs = .ok u ↔ ∀ x ∈ xs, f x = .ok () := by
  induction xs with
  | nil => simp [checkAll]
  | cons x xs ih => simp [checkAll, ih]

/-- The loop that checks every element and refuses a key met before. -/
def checkFresh {κ : Type} [DecidableEq κ] (f : α → Except ε Unit) (key : α → κ) (dup : ε) :
    List κ → List α → Except ε Unit
  | _, [] => .ok ()
  | seen, x :: xs => do
      f x
      refuse (key x ∈ seen) dup
      checkFresh f key dup (key x :: seen) xs

/-- The loop succeeds exactly when every check does and no key comes twice. -/
@[simp] theorem checkFresh_eq_ok {κ : Type} [DecidableEq κ] {f : α → Except ε Unit}
    {key : α → κ} {dup : ε} {seen : List κ} {xs : List α} {u : Unit} :
    checkFresh f key dup seen xs = .ok u ↔
      (∀ x ∈ xs, f x = .ok ()) ∧ (xs.map key).Nodup ∧ ∀ x ∈ xs, key x ∉ seen := by
  induction xs generalizing seen with
  | nil => simp [checkFresh]
  | cons x xs ih =>
      simp only [checkFresh, bind_eq_ok, exists_unit_iff, refuse_eq_ok, ih, List.mem_cons,
        not_or, forall_eq_or_imp, List.map_cons, List.nodup_cons, List.mem_map, not_exists,
        not_and]
      constructor
      · rintro ⟨hx, hseen, hall, hn, hfresh⟩
        exact ⟨⟨hx, hall⟩, ⟨fun y hy => (hfresh y hy).1, hn⟩, hseen, fun y hy => (hfresh y hy).2⟩
      · rintro ⟨⟨hx, hall⟩, ⟨hnew, hn⟩, hseen, hfresh⟩
        exact ⟨hx, hseen, hall, hn, fun y hy => ⟨hnew y hy, hfresh y hy⟩⟩

/-- A loop over images succeeds when the step does on each of them. -/
theorem mapM_map_eq_ok {γ : Type} {f : β → Except ε γ} {h : α → β} {out : α → γ} {l : List α}
    (hf : ∀ a ∈ l, f (h a) = .ok (out a)) : (l.map h).mapM f = .ok (l.map out) := by
  induction l with
  | nil => rfl
  | cons a l ih =>
      rw [List.map_cons, List.mapM_cons, hf a List.mem_cons_self, ok_bind,
        ih fun b hb => hf b (List.mem_cons_of_mem _ hb), ok_bind]
      rfl

/-- A loop that collects results succeeds exactly when every step does. -/
theorem mapM_eq_ok [Inhabited β] {f : α → Except ε β} {l : List α} {out : List β} :
    l.mapM f = .ok out ↔ ∃ g, (∀ a ∈ l, f a = .ok (g a)) ∧ out = l.map g := by
  constructor
  · intro h
    refine ⟨fun a => match f a with
      | .ok b => b
      | .error _ => default, ?_⟩
    induction l generalizing out with
    | nil => exact ⟨nofun, by cases h; rfl⟩
    | cons a l ih =>
        rw [List.mapM_cons] at h
        simp only [bind_eq_ok, pure_eq_ok] at h
        obtain ⟨b, hb, bs, hbs, rfl⟩ := h
        obtain ⟨hall, hout⟩ := ih hbs
        refine ⟨List.forall_mem_cons.2 ⟨by simp only [hb], hall⟩, ?_⟩
        simp only [List.map_cons, ← hout, hb]
  · rintro ⟨g, hg, rfl⟩
    induction l with
    | nil => rfl
    | cons a l ih =>
        rw [List.mapM_cons, hg a List.mem_cons_self, ok_bind,
          ih fun b hb => hg b (List.mem_cons_of_mem _ hb), ok_bind]
        rfl

/-- What one step of a loop keeps holds after the loop, of the elements it has passed. -/
theorem foldlM_invariant {σ : Type} {f : σ → α → Except ε σ} {P : List α → σ → Prop}
    (step : ∀ done a s s', P done s → f s a = .ok s' → P (done ++ [a]) s') {l done : List α}
    {s s' : σ} (h : P done s) (hl : l.foldlM f s = .ok s') : P (done ++ l) s' := by
  induction l generalizing done s with
  | nil =>
      cases hl
      rwa [List.append_nil]
  | cons a l ih =>
      rw [List.foldlM_cons, bind_eq_ok] at hl
      obtain ⟨s₁, hs₁, hl⟩ := hl
      rw [List.append_cons]
      exact ih (step done a s s₁ h hs₁) hl

/-- The same for steps that use where in the list they are. -/
theorem foldlM_invariant_split {σ : Type} {f : σ → α → Except ε σ} {P : List α → σ → Prop}
    {l : List α} {s s' : σ}
    (step : ∀ done a rest s s', l = done ++ a :: rest → P done s → f s a = .ok s' →
      P (done ++ [a]) s') (h : P [] s) (hl : l.foldlM f s = .ok s') : P l s' := by
  have hrun : ∀ rest done s, l = done ++ rest → P done s → rest.foldlM f s = .ok s' → P l s' := by
    intro rest
    induction rest with
    | nil =>
        intro done s hsplit hs hl
        cases hl
        rwa [hsplit, List.append_nil]
    | cons a rest ih =>
        intro done s hsplit hs hl
        rw [List.foldlM_cons, bind_eq_ok] at hl
        obtain ⟨s₁, hs₁, hl⟩ := hl
        exact ih (done ++ [a]) s₁ (by rw [hsplit, List.append_cons])
          (step done a rest s s₁ hsplit hs hs₁) hl
  exact hrun l [] s rfl h hl

/-- A loop succeeds whose steps succeed where an invariant holds, and keep it. -/
theorem foldlM_progress {σ : Type} {f : σ → α → Except ε σ} {P : List α → σ → Prop} {l : List α}
    (step : ∀ done a rest s, l = done ++ a :: rest → P done s →
      ∃ s', f s a = .ok s' ∧ P (done ++ [a]) s') {s : σ} (h : P [] s) :
    ∃ s', l.foldlM f s = .ok s' ∧ P l s' := by
  have hrun : ∀ rest done s, l = done ++ rest → P done s →
      ∃ s', rest.foldlM f s = .ok s' ∧ P l s' := by
    intro rest
    induction rest with
    | nil =>
        intro done s hl hs
        rw [List.append_nil] at hl
        exact ⟨s, rfl, hl ▸ hs⟩
    | cons a rest ih =>
        intro done s hl hs
        obtain ⟨s₁, hs₁, h₁⟩ := step done a rest s hl hs
        obtain ⟨s', hs', h'⟩ := ih (done ++ [a]) s₁ (by rw [hl, List.append_cons]) h₁
        exact ⟨s', by rw [List.foldlM_cons, hs₁, ok_bind, hs'], h'⟩
  exact hrun l [] s rfl h

end CxtHub
