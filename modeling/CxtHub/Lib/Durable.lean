/-
# Procedures on durable state

A procedure reads a durable state, changes it by atomic writes and returns a value
or an error.  `Dur σ ε α` records the state after each write, so a stop of the
process leaves the start state or one of these: `crashes`.

`Settles x c t`: however often a run of `x` from `c` is stopped and started again, the
next run that is not stopped succeeds and ends in `t`.

`Runs x s I Q` says that `x` succeeds from `s`, that `I` holds after each of its
writes and `Q` of its result and last state; the rules follow the structure of a
block (`Runs.bind`, `Runs.write`, `Runs.read`, `Runs.forEach`).
-/

import Mathlib.Data.List.Basic
import Mathlib.Logic.Relation

namespace CxtHub

/-- A procedure: the states after its writes, in order, and its result. -/
def Dur (σ ε α : Type) : Type := σ → List σ × Except ε α

namespace Dur

variable {σ ε α β : Type}

/-- The states after each write. -/
def trace (x : Dur σ ε α) (s : σ) : List σ := (x s).1

/-- The result of a run that is not stopped. -/
def result (x : Dur σ ε α) (s : σ) : Except ε α := (x s).2

/-- The last state of a run that is not stopped. -/
def final (x : Dur σ ε α) (s : σ) : σ := (x.trace s).getLastD s

/-- The states in which a stop can leave the store. -/
def crashes (x : Dur σ ε α) (s : σ) : List σ := s :: x.trace s

/-- Return a value. -/
def ret (a : α) : Dur σ ε α := fun _ => ([], .ok a)

/-- Run one procedure, then the next from the state the first left. -/
def andThen (x : Dur σ ε α) (f : α → Dur σ ε β) : Dur σ ε β := fun s =>
  match x s with
  | (states, .error e) => (states, .error e)
  | (states, .ok a) =>
      match f a (states.getLastD s) with
      | (later, r) => (states ++ later, r)

instance : Monad (Dur σ ε) where
  pure := ret
  bind := andThen

/-- One atomic write. -/
def write (f : σ → σ) : Dur σ ε Unit := fun s => ([f s], .ok ())

/-- A read that may fail. -/
def read (f : σ → Except ε α) : Dur σ ε α := fun s => ([], f s)

/-- Run a procedure for each element of a list. -/
def forEach (f : α → Dur σ ε Unit) : List α → Dur σ ε Unit
  | [] => pure ()
  | a :: l => f a >>= fun _ => forEach f l

@[simp] theorem trace_pure (a : α) (s : σ) : (pure a : Dur σ ε α).trace s = [] := rfl

@[simp] theorem result_pure (a : α) (s : σ) : (pure a : Dur σ ε α).result s = .ok a := rfl

@[simp] theorem final_pure (a : α) (s : σ) : (pure a : Dur σ ε α).final s = s := rfl

@[simp] theorem trace_write (f : σ → σ) (s : σ) : (write f : Dur σ ε Unit).trace s = [f s] := rfl

@[simp] theorem result_write (f : σ → σ) (s : σ) : (write f : Dur σ ε Unit).result s = .ok () := rfl

@[simp] theorem final_write (f : σ → σ) (s : σ) : (write f : Dur σ ε Unit).final s = f s := rfl

@[simp] theorem trace_read (f : σ → Except ε α) (s : σ) : (read f).trace s = [] := rfl

@[simp] theorem result_read (f : σ → Except ε α) (s : σ) : (read f).result s = f s := rfl

@[simp] theorem final_read (f : σ → Except ε α) (s : σ) : (read f).final s = s := rfl

section Bind

variable {x : Dur σ ε α} {f : α → Dur σ ε β} {s : σ}

/-- A program goes on where its first part ended. -/
theorem bind_of_ok {a : α} (h : x.result s = .ok a) :
    (x >>= f) s = (x.trace s ++ (f a).trace (x.final s), (f a).result (x.final s)) := by
  have hx : x s = (x.trace s, .ok a) := Prod.ext rfl h
  change andThen x f s = _
  rw [andThen, hx]
  rfl

/-- And stops at an error, with what was written until then. -/
theorem bind_of_error {e : ε} (h : x.result s = .error e) :
    (x >>= f) s = (x.trace s, .error e) := by
  have hx : x s = (x.trace s, .error e) := Prod.ext rfl h
  change andThen x f s = _
  rw [andThen, hx]

theorem trace_bind_of_ok {a : α} (h : x.result s = .ok a) :
    (x >>= f).trace s = x.trace s ++ (f a).trace (x.final s) := by
  rw [trace, bind_of_ok h]

theorem result_bind_of_ok {a : α} (h : x.result s = .ok a) :
    (x >>= f).result s = (f a).result (x.final s) := by
  rw [result, bind_of_ok h]

theorem final_bind_of_ok {a : α} (h : x.result s = .ok a) :
    (x >>= f).final s = (f a).final (x.final s) := by
  have hlast : ∀ l m : List σ, (l ++ m).getLastD s = m.getLastD (l.getLastD s) := by
    intro l m
    rw [List.getLastD_eq_getLast?, List.getLastD_eq_getLast?, List.getLastD_eq_getLast?,
      List.getLast?_append]
    cases m.getLast? <;> rfl
  rw [final, trace_bind_of_ok h, hlast]
  rfl

theorem result_bind_of_error {e : ε} (h : x.result s = .error e) :
    (x >>= f).result s = .error e := by
  rw [result, bind_of_error h]

end Bind

/-- `x` succeeds from `s`; `I` holds after each write, `Q` of the result and last state. -/
def Runs (x : Dur σ ε α) (s : σ) (I : σ → Prop) (Q : α → σ → Prop) : Prop :=
  (∀ c ∈ x.trace s, I c) ∧ ∃ a, x.result s = .ok a ∧ Q a (x.final s)

section Rules

variable {x : Dur σ ε α} {f : α → Dur σ ε β} {s : σ} {I : σ → Prop} {Q : α → σ → Prop}
  {R : β → σ → Prop}

/-- A weaker invariant and postcondition. -/
theorem Runs.mono {I' : σ → Prop} {Q' : α → σ → Prop} (h : Runs x s I Q)
    (hI : ∀ c, I c → I' c) (hQ : ∀ a t, Q a t → Q' a t) : Runs x s I' Q' :=
  ⟨fun c hc => hI c (h.1 c hc), let ⟨a, ha, hq⟩ := h.2; ⟨a, ha, hQ a _ hq⟩⟩

/-- The rule for a value. -/
theorem Runs.pure {a : α} (h : Q a s) : Runs (Pure.pure a : Dur σ ε α) s I Q :=
  ⟨fun _ hc => (by cases hc), a, rfl, h⟩

/-- The rule for a write: the invariant has to hold after it. -/
theorem Runs.write {g : σ → σ} {Q : Unit → σ → Prop} (hI : I (g s)) (hQ : Q () (g s)) :
    Runs (Dur.write g : Dur σ ε Unit) s I Q :=
  ⟨fun _ hc => List.mem_singleton.1 hc ▸ hI, (), rfl, hQ⟩

/-- The rule for a read that succeeds. -/
theorem Runs.read {g : σ → Except ε α} {a : α} (h : g s = .ok a) (hQ : Q a s) :
    Runs (Dur.read g) s I Q :=
  ⟨fun _ hc => (by cases hc), a, h, hQ⟩

/-- **Sequencing.** -/
theorem Runs.bind (hx : Runs x s I Q) (hf : ∀ a t, Q a t → Runs (f a) t I R) :
    Runs (x >>= f) s I R := by
  obtain ⟨hI, a, ha, hQ⟩ := hx
  obtain ⟨hI', b, hb, hR⟩ := hf a _ hQ
  refine ⟨fun c hc => ?_, b, ?_, ?_⟩
  · rw [trace_bind_of_ok ha, List.mem_append] at hc
    exact hc.elim (hI c) (hI' c)
  · rw [result_bind_of_ok ha, hb]
  · rw [final_bind_of_ok ha]
    exact hR

/-- **Loops**: `J` relates the elements done so far to the state. -/
theorem Runs.forEach {g : α → Dur σ ε Unit} {l : List α} {J : List α → σ → Prop}
    (hstart : J [] s)
    (hstep : ∀ done a rest, l = done ++ a :: rest → ∀ t, J done t →
      Runs (g a) t I fun _ t' => J (done ++ [a]) t') :
    Runs (Dur.forEach g l) s I fun _ t => J l t := by
  induction l generalizing s J with
  | nil => exact Runs.pure hstart
  | cons a l ih =>
      refine Runs.bind (hstep [] a l rfl s hstart) fun _ t ht => ?_
      refine ih (J := fun done => J (a :: done)) ht fun done b rest hl t' ht' => ?_
      exact hstep (a :: done) b rest (by rw [hl, List.cons_append]) t' ht'

end Rules

/-- Any number of stopped runs, and then a run that is not stopped, lead to `t`. -/
def Settles (x : Dur σ ε Unit) (c t : σ) : Prop :=
  ∀ c', Relation.ReflTransGen (fun a b => b ∈ x.crashes a) c c' →
    x.result c' = .ok () ∧ x.final c' = t

/-- **The invariant rule**: every run from a state of `I` ends in `t`, through states of `I`. -/
theorem settles_of_invariant {x : Dur σ ε Unit} {I : σ → Prop} {t : σ}
    (h : ∀ c, I c → Runs x c I fun _ c' => c' = t) {c : σ} (hc : I c) : Settles x c t := by
  intro c' hcc'
  have hI : I c' := by
    induction hcc' with
    | refl => exact hc
    | tail _ hb ih =>
        rcases List.mem_cons.1 hb with rfl | hb
        · exact ih
        · exact (h _ ih).1 _ hb
  obtain ⟨-, _, hresult, hfinal⟩ := h c' hI
  exact ⟨hresult, hfinal⟩

end Dur
end CxtHub
