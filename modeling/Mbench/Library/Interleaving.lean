import Mathlib.Tactic.Common

/-! Interleaved runs. A schedule names, for each step, the actor that takes it; a run is
defined when every actor could take its step. A run of one system simulates a run of
another when every step corresponds to a few steps of the other. -/

namespace Mbench.Library

variable {Actor State : Type} {step : Actor → State → Option State} {state final : State} {schedule later : List Actor}

def run (step : Actor → State → Option State) : List Actor → State → Option State
  | [], state => some state
  | actor :: schedule, state => do
      let state ← step actor state
      run step schedule state

def trace {Other : Type} (step : Actor → State → Option State) (taken : Actor → State → List Other) :
    List Actor → State → List Other
  | [], _ => []
  | actor :: schedule, state =>
      taken actor state ++ match step actor state with
        | none => []
        | some next => trace step taken schedule next

theorem run_append : run step (schedule ++ later) state = (run step schedule state).bind (run step later) := by
  induction schedule generalizing state with
  | nil => rfl
  | cons actor schedule ih =>
    rw [List.cons_append, run, run]
    cases step actor state with
    | none => rfl
    | some next => exact ih

theorem trace_append {Other : Type} {taken : Actor → State → List Other} (ran : run step schedule state = some final) :
    trace step taken (schedule ++ later) state = trace step taken schedule state ++ trace step taken later final := by
  induction schedule generalizing state with
  | nil =>
    rw [Option.some.inj ran]
    rfl
  | cons actor schedule ih =>
    rw [run] at ran
    obtain ⟨next, stepped, rest⟩ := Option.bind_eq_some_iff.mp ran
    rw [List.cons_append, trace, trace, stepped]
    simp only
    rw [ih rest, List.append_assoc]

theorem run_counts {Other : Type} (count : State → Nat) (taken : Actor → State → List Other)
    (counted : ∀ actor state next, step actor state = some next →
      count next = count state + (taken actor state).length)
    (ran : run step schedule state = some final) :
    count final = count state + (trace step taken schedule state).length := by
  induction schedule generalizing state with
  | nil =>
    rw [Option.some.inj ran]
    rfl
  | cons actor schedule ih =>
    rw [run] at ran
    obtain ⟨next, stepped, rest⟩ := Option.bind_eq_some_iff.mp ran
    rw [trace, stepped, List.length_append, ih rest, counted actor state next stepped, Nat.add_assoc]

theorem run_rule (invariant : State → Prop)
    (kept : ∀ actor state next, invariant state → step actor state = some next → invariant next)
    (start : invariant state) (ran : run step schedule state = some final) : invariant final := by
  induction schedule generalizing state with
  | nil => exact Option.some.inj ran ▸ start
  | cons actor schedule ih =>
    rw [run] at ran
    obtain ⟨next, stepped, rest⟩ := Option.bind_eq_some_iff.mp ran
    exact ih (kept actor state next start stepped) rest

theorem run_history (invariant : List Actor → State → Prop)
    (kept : ∀ past actor state next, invariant past state → step actor state = some next →
      invariant (past ++ [actor]) next)
    (start : invariant [] state) (ran : run step schedule state = some final) : invariant schedule final := by
  induction schedule generalizing state invariant with
  | nil => exact Option.some.inj ran ▸ start
  | cons actor schedule ih =>
    rw [run] at ran
    obtain ⟨next, stepped, rest⟩ := Option.bind_eq_some_iff.mp ran
    exact ih (fun past => invariant (actor :: past)) (fun past => kept (actor :: past))
      (kept [] actor state next start stepped) rest

theorem trace_rule {Other : Type} {taken : Actor → State → List Other} (invariant : List Actor → State → Prop)
    (kept : ∀ past actor state next, invariant past state → step actor state = some next →
      invariant (past ++ [actor]) next)
    (property : Other → Prop)
    (each : ∀ past actor state next, invariant past state → step actor state = some next →
      ∀ item ∈ taken actor state, property item)
    (start : invariant [] state) (ran : run step schedule state = some final) :
    ∀ item ∈ trace step taken schedule state, property item := by
  induction schedule generalizing state invariant with
  | nil => simp [trace]
  | cons actor schedule ih =>
    rw [run] at ran
    obtain ⟨next, stepped, rest⟩ := Option.bind_eq_some_iff.mp ran
    intro item member
    rw [trace, stepped] at member
    rcases List.mem_append.mp member with first | later
    · exact each [] actor state next start stepped item first
    · exact ih (fun past => invariant (actor :: past)) (fun past => kept (actor :: past))
        (fun past => each (actor :: past)) (kept [] actor state next start stepped) rest item later

theorem run_simulates {Other Image : Type} {otherStep : Other → Image → Option Image} (image : State → Image)
    (taken : Actor → State → List Other) (invariant : State → Prop)
    (kept : ∀ actor state next, invariant state → step actor state = some next → invariant next)
    (matched : ∀ actor state next, invariant state → step actor state = some next →
      run otherStep (taken actor state) (image state) = some (image next))
    (start : invariant state) (ran : run step schedule state = some final) :
    run otherStep (trace step taken schedule state) (image state) = some (image final) := by
  induction schedule generalizing state with
  | nil =>
    rw [Option.some.inj ran]
    rfl
  | cons actor schedule ih =>
    rw [run] at ran
    obtain ⟨next, stepped, rest⟩ := Option.bind_eq_some_iff.mp ran
    rw [trace, stepped, run_append, matched actor state next start stepped]
    exact ih (kept actor state next start stepped) rest

end Mbench.Library
