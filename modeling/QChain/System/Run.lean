import Mathlib

/-!
# Runs of a transition function

A system whose transitions are given by a function `step : σ → ε → σ` on states and
events. A run is the list of its events. The rules below derive what holds after every run
from what one step keeps, for runs whose steps all meet a condition on the state they are
taken in.
-/

namespace Run

variable {σ ε : Type*} (step : σ → ε → σ) (s : σ)

/-- The state after a list of events. -/
def run (events : List ε) : σ := events.foldl step s

@[simp] theorem run_nil : run step s [] = s := rfl

@[simp] theorem run_cons (e : ε) (es : List ε) :
    run step s (e :: es) = run step (step s e) es := rfl

theorem run_append (es fs : List ε) :
    run step s (es ++ fs) = run step (run step s es) fs := List.foldl_append

theorem run_concat (es : List ε) (e : ε) :
    run step s (es ++ [e]) = step (run step s es) e := by
  rw [run_append, run_cons, run_nil]

/-- Every event of a run meets a condition on the state it is taken in. -/
def Meets (C : σ → ε → Prop) (s : σ) : List ε → Prop
  | [] => True
  | e :: es => C s e ∧ Meets C (step s e) es

instance decidableMeets (C : σ → ε → Prop) [∀ s, DecidablePred (C s)] :
    ∀ s events, Decidable (Meets step C s events)
  | _, [] => isTrue trivial
  | s, e :: es =>
    have := decidableMeets C (step s e) es
    inferInstanceAs (Decidable (C s e ∧ Meets step C (step s e) es))

variable {step} {C : σ → ε → Prop} {P : σ → Prop} {s : σ} {events : List ε}

/-- What holds initially and is kept by every event that meets the condition holds after
every run whose events meet it. -/
theorem Meets.induction (hrun : Meets step C s events) (h : P s)
    (hstep : ∀ s, ∀ e ∈ events, C s e → P s → P (step s e)) : P (run step s events) := by
  induction events generalizing s with
  | nil => exact h
  | cons e es ih =>
    apply ih hrun.2
    · exact hstep s e (List.mem_cons_self ..) hrun.1 h
    · intro s' e' he'
      exact hstep s' e' (List.mem_cons_of_mem e he')

theorem meets_of_forall (h : ∀ s, ∀ e ∈ events, C s e) (s : σ) : Meets step C s events := by
  induction events generalizing s with
  | nil => trivial
  | cons e es ih =>
    refine ⟨h s e (List.mem_cons_self ..), ih (fun s' e' he' => ?_) _⟩
    exact h s' e' (List.mem_cons_of_mem e he')

theorem meets_append {es fs : List ε} :
    Meets step C s (es ++ fs) ↔ Meets step C s es ∧ Meets step C (run step s es) fs := by
  induction es generalizing s with
  | nil =>
    show Meets step C s fs ↔ True ∧ Meets step C s fs
    rw [true_and]
  | cons e es ih =>
    show C s e ∧ Meets step C (step s e) (es ++ fs) ↔
      (C s e ∧ Meets step C (step s e) es) ∧ Meets step C (run step (step s e) es) fs
    rw [ih, and_assoc]

theorem meets_and {D : σ → ε → Prop} :
    Meets step (fun s e => C s e ∧ D s e) s events ↔
      Meets step C s events ∧ Meets step D s events := by
  induction events generalizing s with
  | nil => exact ⟨fun _ => ⟨trivial, trivial⟩, fun _ => trivial⟩
  | cons e es ih =>
    show (C s e ∧ D s e) ∧ Meets step (fun s e => C s e ∧ D s e) (step s e) es ↔
      (C s e ∧ Meets step C (step s e) es) ∧ D s e ∧ Meets step D (step s e) es
    rw [ih, and_and_and_comm]

/-- What holds initially and is kept by every event holds after every run. -/
theorem induction (h : P s) (hstep : ∀ s, ∀ e ∈ events, P s → P (step s e)) :
    P (run step s events) := by
  have hall : Meets step (fun _ _ => True) s events := meets_of_forall (fun _ _ _ => trivial) s
  exact hall.induction h fun s e he _ => hstep s e he

end Run
