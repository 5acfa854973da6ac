import Mbench.Library.Interleaving
import Mathlib.Data.Nat.Basic

/-! Runs without end. Along an infinite schedule an actor whose turn it is takes its step, or waits where it has none. A
schedule is fair when every actor has its turn again and again. In every state short of a goal one actor helps: its step
lowers a rank, and the others leave that to it. Then every fair run comes to the goal. -/

namespace Mbench.Library

variable {Actor State : Type}

section
variable (step : Actor → State → Option State)

def turn (actor : Actor) (state : State) : State := (step actor state).getD state

def along (schedule : Nat → Actor) (state : State) : Nat → State
  | 0 => state
  | count + 1 => turn step (schedule count) (along schedule state count)

end

def Fair (schedule : Nat → Actor) : Prop := ∀ actor count, ∃ later, count ≤ later ∧ schedule later = actor

def roundRobin (first : Actor) (rest : List Actor) (count : Nat) : Actor :=
  (first :: rest).getD (count % (rest.length + 1)) first

theorem roundRobin_returns {first actor : Actor} {rest : List Actor} (member : actor ∈ first :: rest) (count : Nat) :
    ∃ later, count ≤ later ∧ roundRobin first rest later = actor := by
  obtain ⟨i, inside, rfl⟩ := List.mem_iff_getElem.mp member
  have inside_ : i < rest.length + 1 := inside
  refine ⟨(rest.length + 1) * count + i, Nat.le_add_right_of_le (Nat.le_mul_of_pos_left count (Nat.succ_pos _)), ?_⟩
  rw [roundRobin, Nat.mul_add_mod, Nat.mod_eq_of_lt inside_, List.getD_eq_getElem?_getD, List.getElem?_eq_getElem inside,
    Option.getD_some]

/-- While the goal is not reached, `helpful` names an actor whose step lowers the rank. -/
structure Helps (step : Actor → State → Option State) (invariant goal : State → Prop) (rank : State → Nat)
    (helpful : State → Actor) : Prop where
  kept : ∀ actor state next, invariant state → step actor state = some next → invariant next
  lowers : ∀ state, invariant state → ¬goal state → ∃ next, step (helpful state) state = some next ∧ rank next < rank state
  waits : ∀ actor state next, invariant state → ¬goal state → step actor state = some next →
    rank next < rank state ∨ rank next = rank state ∧ helpful next = helpful state

section
variable {step : Actor → State → Option State} {invariant goal : State → Prop} {rank : State → Nat}
  {helpful : State → Actor} {schedule : Nat → Actor} {state : State}

theorem along_rule (kept : ∀ actor state next, invariant state → step actor state = some next → invariant next)
    (start : invariant state) (count : Nat) : invariant (along step schedule state count) := by
  induction count with
  | zero => exact start
  | succ count ih =>
    rw [along, turn]
    cases stepped : step (schedule count) (along step schedule state count) with
    | none => exact ih
    | some next => exact kept _ _ _ ih stepped

theorem along_stays (count : Nat) (still : ∀ actor, step actor (along step schedule state count) = none) (more : Nat) :
    along step schedule state (count + more) = along step schedule state count := by
  induction more with
  | zero => rfl
  | succ more ih => rw [Nat.add_succ, along, turn, ih, still, Option.getD_none]

/-- Where no run goes on for ever, and short of the goal one of the actors that have their turns again and again is not
blocked, the goal is reached. -/
theorem fair_reaches {acts : Actor → Prop} (finite : WellFounded fun next state => ∃ actor, step actor state = some next)
    (kept : ∀ actor state next, invariant state → step actor state = some next → invariant next)
    (moves : ∀ state, invariant state → ¬goal state → ∃ actor, acts actor ∧ ∃ next, step actor state = some next)
    (fair : ∀ actor, acts actor → ∀ count, ∃ later, count ≤ later ∧ schedule later = actor) (start : invariant state) :
    ∃ count, goal (along step schedule state count) := by
  have from_ (now : State) (count : Nat) (here : along step schedule state count = now) :
      ∃ later, goal (along step schedule state later) := by
    induction now using finite.induction generalizing count with
    | h now ih =>
      by_cases reached : goal now
      · exact ⟨count, here ▸ reached⟩
      obtain ⟨actor, acts_, ahead, can⟩ := moves now (here ▸ along_rule kept start count) reached
      obtain ⟨turn_, after, named⟩ := fair actor acts_ count
      obtain ⟨more, rfl⟩ := Nat.exists_eq_add_of_le after
      -- until its turn the state is the same, or another one has moved
      induction more generalizing count with
      | zero =>
        refine ih ahead ⟨actor, can⟩ (count + 1) ?_
        rw [along, turn, here, ← Nat.add_zero count, named, can, Option.getD_some]
      | succ more waits =>
        cases stepped : step (schedule count) now with
        | some next =>
          refine ih next ⟨schedule count, stepped⟩ (count + 1) ?_
          rw [along, turn, here, stepped, Option.getD_some]
        | none =>
          refine waits (count + 1) ?_ (Nat.le_add_right _ _) ?_
          · rw [along, turn, here, stepped, Option.getD_none]
          · rw [Nat.succ_add_eq_add_succ, named]
  exact from_ state 0 rfl

theorem Helps.turn (helps : Helps step invariant goal rank helpful) (actor : Actor) (held : invariant state)
    (short : ¬goal state) :
    rank (turn step actor state) < rank state ∨
      rank (turn step actor state) = rank state ∧ helpful (turn step actor state) = helpful state ∧ actor ≠ helpful state := by
  obtain ⟨lower, helped, lowered⟩ := helps.lowers state held short
  by_cases own : actor = helpful state
  · left
    rwa [own, Library.turn, helped]
  · rw [Library.turn]
    cases stepped : step actor state with
    | none => exact Or.inr ⟨rfl, rfl, own⟩
    | some next =>
      rcases helps.waits actor state next held short stepped with less | ⟨same, sameHelp⟩
      · exact Or.inl less
      · exact Or.inr ⟨same, sameHelp, own⟩

theorem Helps.progress (helps : Helps step invariant goal rank helpful) (start : invariant state) (count more : Nat)
    (named : schedule (count + more) = helpful (along step schedule state count)) :
    ∃ later, count ≤ later ∧ (goal (along step schedule state later) ∨
      rank (along step schedule state later) < rank (along step schedule state count)) := by
  induction more generalizing count with
  | zero =>
    by_cases reached : goal (along step schedule state count)
    · exact ⟨count, le_rfl, Or.inl reached⟩
    · rcases helps.turn (schedule count) (along_rule helps.kept start count) reached with less | ⟨_, _, other⟩
      · exact ⟨count + 1, Nat.le_succ count, Or.inr less⟩
      · exact absurd named other
  | succ more ih =>
    by_cases reached : goal (along step schedule state count)
    · exact ⟨count, le_rfl, Or.inl reached⟩
    · rcases helps.turn (schedule count) (along_rule helps.kept start count) reached with less | ⟨same, sameHelp, _⟩
      · exact ⟨count + 1, Nat.le_succ count, Or.inr less⟩
      · obtain ⟨later, after, ended⟩ := ih (count + 1) (by rw [Nat.succ_add_eq_add_succ, named]; exact sameHelp.symm)
        refine ⟨later, Nat.le_trans (Nat.le_succ count) after, ?_⟩
        rcases ended with reached | less
        · exact Or.inl reached
        · exact Or.inr (lt_of_lt_of_eq less same)

theorem Helps.reaches (helps : Helps step invariant goal rank helpful) (fair : Fair schedule) (start : invariant state) :
    ∃ count, goal (along step schedule state count) := by
  have from_ (bound count : Nat) (here : rank (along step schedule state count) = bound) :
      ∃ later, goal (along step schedule state later) := by
    induction bound using Nat.strong_induction_on generalizing count with
    | h bound ih =>
      obtain ⟨turn_, after, named⟩ := fair (helpful (along step schedule state count)) count
      obtain ⟨more, rfl⟩ := Nat.exists_eq_add_of_le after
      obtain ⟨later, _, reached | less⟩ := helps.progress start count more named
      · exact ⟨later, reached⟩
      · exact ih _ (here ▸ less) later rfl
  exact from_ _ 0 rfl

end

end Mbench.Library
