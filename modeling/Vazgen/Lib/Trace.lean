import Mathlib.Data.List.Basic

/-!
# Runs that leave events behind

A step takes a state and a choice to the next state and the events on the way there, or to none where
the choice does not apply.  What every step preserves, every run preserves (`run_invariant`); a round
that can be repeated gives a run of any length (`run_rounds`).
-/

namespace Trace

variable {State Choice Event : Type} {step : State → Choice → Option (State × List Event)}

/-- A step for each choice, and all events in their order. -/
def run (step : State → Choice → Option (State × List Event)) :
    State → List Choice → Option (State × List Event)
  | s, [] => some (s, [])
  | s, c :: choices =>
    match step s c with
    | none => none
    | some (t, events) =>
      match run step t choices with
      | none => none
      | some (u, later) => some (u, events ++ later)

theorem run_cons_eq_some {s u : State} {c : Choice} {choices : List Choice} {events : List Event} :
    run step s (c :: choices) = some (u, events) ↔
      ∃ t first later, step s c = some (t, first) ∧ run step t choices = some (u, later) ∧
        events = first ++ later := by
  constructor
  · intro h
    rw [run] at h
    split at h
    · cases h
    · rename_i t first hstep
      split at h
      · cases h
      · rename_i v later hrun
        cases h
        exact ⟨t, first, later, hstep, hrun, rfl⟩
  · rintro ⟨t, first, later, hstep, hrun, rfl⟩
    rw [run, hstep]
    dsimp only
    rw [hrun]

/-- What holds of the events so far and the state is kept along a run if every step keeps it. -/
theorem run_invariant {I : List Event → State → Prop}
    (hstep : ∀ {before s c t events}, I before s → step s c = some (t, events) →
      I (before ++ events) t)
    {before events : List Event} {s t : State} {choices : List Choice} (h : I before s)
    (hrun : run step s choices = some (t, events)) : I (before ++ events) t := by
  induction choices generalizing before events s with
  | nil =>
    cases hrun
    rwa [List.append_nil]
  | cons c choices ih =>
    obtain ⟨s', first, later, hfirst, hlater, rfl⟩ := run_cons_eq_some.1 hrun
    rw [← List.append_assoc]
    exact ih (hstep h hfirst) hlater

theorem run_append {s t u : State} {first second : List Choice} {events later : List Event}
    (hfirst : run step s first = some (t, events)) (hsecond : run step t second = some (u, later)) :
    run step s (first ++ second) = some (u, events ++ later) := by
  induction first generalizing s events with
  | nil =>
    cases hfirst
    exact hsecond
  | cons c first ih =>
    obtain ⟨s', before, after, hstep, hrun, rfl⟩ := run_cons_eq_some.1 hfirst
    exact run_cons_eq_some.2 ⟨s', before, _, hstep, ih hrun, List.append_assoc ..⟩

theorem run_rounds {round : List Choice} {events : List Event} {s : Nat → State}
    (hround : ∀ n, run step (s n) round = some (s (n + 1), events)) (n : Nat) :
    run step (s 0) (List.replicate n round).flatten =
      some (s n, (List.replicate n events).flatten) := by
  induction n with
  | zero => rfl
  | succ n ih =>
    have h := run_append ih (hround n)
    rwa [← List.flatten_concat, ← List.flatten_concat, ← List.replicate_succ',
      ← List.replicate_succ'] at h

end Trace
