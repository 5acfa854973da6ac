import Mbench.Library.Interleaving
import Mathlib.Data.Nat.Basic
import Mathlib.Logic.Function.Basic

/-! `measure` of `core_lat/cas_lock.c`: the threads of the second parallel region pass
`token` round by compare-and-swap. A step of the model is one compare-and-swap of one
thread that is still in its loop; the clock and the printing are left out. -/

namespace Mbench.CoreLat
open Library

/-- Memory and the loop counters of the threads; `swaps`, which the code does not keep,
counts the successful compare-and-swaps. -/
structure CasLock (nThreads : Nat) where
  token : Nat
  i : Fin nThreads → Nat
  swaps : Nat

namespace CasLock

variable {nThreads : Nat}

def next (idx : Fin nThreads) : Nat := (idx + 1) % nThreads

def start (nThreads : Nat) : CasLock nThreads := { token := 0, i := fun _ => 0, swaps := 0 }

/-- One `__sync_bool_compare_and_swap(&token, idx, next)` and, when it succeeds, the end of
the iteration. A thread that has left the loop takes no step. -/
def attempt (loops : Int) (idx : Fin nThreads) (state : CasLock nThreads) : Option (CasLock nThreads) :=
  if state.i idx < loops then
    if state.token = idx then
      some {
        token := next idx
        i := Function.update state.i idx (state.i idx + 1)
        swaps := state.swaps + 1 }
    else some state
  else none

def turns (nThreads swaps idx : Nat) : Nat := (swaps + nThreads - 1 - idx) / nThreads

theorem turns_eq {nThreads idx : Nat} (inside : idx < nThreads) (swaps : Nat) :
    turns nThreads swaps idx = swaps / nThreads + if idx < swaps % nThreads then 1 else 0 := by
  have split := Nat.div_add_mod swaps nThreads
  have bound := Nat.mod_lt swaps (Nat.zero_lt_of_lt inside)
  generalize swaps / nThreads = rounds at *
  generalize swaps % nThreads = rest at *
  have shifted : swaps + nThreads - 1 - idx = nThreads * rounds + (rest + nThreads - 1 - idx) := by omega
  rw [turns, shifted, Nat.mul_add_div (by omega)]
  congr 1
  by_cases before : idx < rest
  · rw [if_pos before]
    exact Nat.div_eq_of_lt_le (by omega) (by omega)
  · rw [if_neg before]
    exact Nat.div_eq_of_lt (by omega)

theorem turns_succ {nThreads idx : Nat} (inside : idx < nThreads) (swaps : Nat) :
    turns nThreads (swaps + 1) idx = turns nThreads swaps idx + if idx = swaps % nThreads then 1 else 0 := by
  rw [turns_eq inside, turns_eq inside]
  have split := Nat.div_add_mod swaps nThreads
  have bound := Nat.mod_lt swaps (Nat.zero_lt_of_lt inside)
  generalize swaps / nThreads = rounds at *
  generalize swaps % nThreads = rest at *
  have advanced : swaps + 1 = nThreads * rounds + (rest + 1) := by omega
  rw [advanced, Nat.mul_add_div (by omega), Nat.mul_add_mod]
  by_cases last : rest + 1 = nThreads
  · rw [last, Nat.div_self (by omega), Nat.mod_self]
    split_ifs <;> omega
  · rw [Nat.div_eq_of_lt (by omega), Nat.mod_eq_of_lt (by omega)]
    split_ifs <;> omega

/-- The invariant: the number of hand-offs determines the token and every counter. -/
structure Passed (loops : Int) (state : CasLock nThreads) : Prop where
  token : state.token = state.swaps % nThreads
  i : ∀ idx, state.i idx = turns nThreads state.swaps idx
  atMost : ∀ idx, (state.i idx : Int) ≤ loops

theorem start_passed {loops : Int} (nonnegative : 0 ≤ loops) : Passed loops (start nThreads) where
  token := (Nat.zero_mod nThreads).symm
  i := by
    intro idx
    rw [turns_eq idx.isLt]
    simp [start]
  atMost := fun _ => nonnegative

theorem attempt_passed {loops : Int} {idx : Fin nThreads} {state next : CasLock nThreads} (passed : Passed loops state)
    (attempted : attempt loops idx state = some next) : Passed loops next := by
  unfold attempt at attempted
  by_cases inLoop : (state.i idx : Int) < loops
  · rw [if_pos inLoop] at attempted
    by_cases mine : state.token = idx
    · rw [if_pos mine] at attempted
      cases attempted
      have turn := mine.symm.trans passed.token
      constructor
      · simp only [CasLock.next]
        rw [turn, Nat.mod_add_mod]
      · intro other
        simp only
        rw [turns_succ other.isLt, ← turn]
        by_cases same : other = idx
        · rw [same, Function.update_self, passed.i, if_pos rfl]
        · rw [Function.update_of_ne same, passed.i, if_neg (fun equal => same (Fin.ext equal)), Nat.add_zero]
      · intro other
        by_cases same : other = idx
        · subst other
          simp only [Function.update_self]
          omega
        · simp only [Function.update_of_ne same]
          exact passed.atMost other
    · rw [if_neg mine] at attempted
      cases attempted
      exact passed
  · rw [if_neg inLoop] at attempted
    cases attempted

theorem Passed.turn_least {loops : Int} {state : CasLock nThreads} (passed : Passed loops state) {named : Fin nThreads}
    (token : state.token = named) (other : Fin nThreads) : state.i named ≤ state.i other := by
  rw [passed.i, passed.i, turns_eq named.isLt, turns_eq other.isLt, ← passed.token, token,
    if_neg (Nat.lt_irrefl _)]
  exact Nat.add_le_add_left (Nat.zero_le _) _

theorem Passed.finished {loops : Int} {state : CasLock nThreads} (passed : Passed loops state) (team : 1 ≤ nThreads)
    (done : ∀ idx, ¬(state.i idx : Int) < loops) : (state.swaps : Int) = loops * nThreads ∧ state.token = 0 := by
  have all (idx : Fin nThreads) : (turns nThreads state.swaps idx : Int) = loops := by
    have atMost := passed.atMost idx
    have left := done idx
    rw [passed.i] at atMost left
    omega
  have first := all ⟨0, team⟩
  have last := all ⟨nThreads - 1, by omega⟩
  have bound := Nat.mod_lt state.swaps team
  rw [turns_eq (by exact team)] at first
  rw [turns_eq (by simp only; omega)] at last
  simp only at first last
  rw [if_neg (by omega)] at last
  have none : state.swaps % nThreads = 0 := by
    by_contra some_
    rw [if_pos (by omega)] at first
    omega
  constructor
  · have split := Nat.div_add_mod state.swaps nThreads
    rw [none, Nat.add_zero] at split
    rw [← split, ← last]
    push_cast
    rw [Int.mul_comm]
    simp
  · rw [passed.token, none]

/-- Over every interleaving of the compare-and-swaps: the count of hand-offs determines
the token and the counters, the thread the token names can always go on while any thread
can, and when all have left there have been exactly `loops * n_threads` hand-offs. -/
theorem measure_passes (nThreads : Nat) (team : 1 ≤ nThreads) (loops : Int) (positive : 1 ≤ loops)
    (schedule : List (Fin nThreads)) (state : CasLock nThreads)
    (reached : run (attempt loops) schedule (start nThreads) = some state) :
    state.token = state.swaps % nThreads ∧
      (∀ idx, state.i idx = (state.swaps + nThreads - 1 - idx) / nThreads) ∧
      ((∃ idx, (state.i idx : Int) < loops) →
        ∃ named : Fin nThreads, state.token = named ∧ (state.i named : Int) < loops ∧
          ∃ after, attempt loops named state = some after ∧ after.swaps = state.swaps + 1) ∧
      ((∀ idx, ¬(state.i idx : Int) < loops) → (state.swaps : Int) = loops * nThreads ∧ state.token = 0) := by
  have passed : Passed loops state := run_rule (Passed loops)
    (fun idx state next passed attempted => attempt_passed passed attempted) (start_passed (by omega)) reached
  refine ⟨passed.token, passed.i, fun waiting => ?_, passed.finished team⟩
  obtain ⟨other, left⟩ := waiting
  have inside : state.token < nThreads := passed.token ▸ Nat.mod_lt _ team
  have least : state.i ⟨state.token, inside⟩ ≤ state.i other := passed.turn_least rfl other
  have goes : (state.i ⟨state.token, inside⟩ : Int) < loops := by omega
  refine ⟨⟨state.token, inside⟩, rfl, goes, ?_⟩
  unfold attempt
  rw [if_pos goes, if_pos rfl]
  exact ⟨_, rfl, rfl⟩

theorem measure_passes_pair :
    ∃ state, run (attempt 2) [0, 0, 1, 0] (start 2) = some state ∧ state.swaps = 3 ∧
      state.token = state.swaps % 2 ∧ (∀ idx : Fin 2, state.i idx = (state.swaps + 2 - 1 - idx) / 2) ∧
      ((∃ idx, (state.i idx : Int) < 2) →
        ∃ named : Fin 2, state.token = named ∧ (state.i named : Int) < 2 ∧
          ∃ after, attempt 2 named state = some after ∧ after.swaps = state.swaps + 1) ∧
      ((∀ idx, ¬(state.i idx : Int) < 2) → (state.swaps : Int) = 2 * (2 : Nat) ∧ state.token = 0) :=
  ⟨_, rfl, rfl, measure_passes 2 (by decide) 2 (by decide) [0, 0, 1, 0] _ rfl⟩

end CasLock

end Mbench.CoreLat
