import Mbench.Library.SharedInvariant
import Mathlib.Data.List.Chain
import Mathlib.Logic.Hydra
import Mathlib.Data.Multiset.Range

/-! Programs of parallel stages. A stage forks a team of threads on the shared state; when all of them are through, the next
stage begins. When each stage keeps a contract of its own and its end is a beginning of the next one, every state of every
interleaving keeps the contract of its stage, and the program is never stuck. No run goes on for ever. -/

namespace Mbench.Library

variable {Stage Action Answer Value State : Type}

/-- The stages: how large a team each one has, and what its threads do. `through` tells which results let the program go on. -/
structure Forks (Stage Action Answer Value : Type) where
  team : Stage → Nat
  program : Stage → Nat → Program Action Answer Value
  through : Value → Bool

structure Machine (Stage Action Answer Value State : Type) where
  stage : Stage
  threads : Threads Nat Action Answer Value State
  rest : List Stage

namespace Forks

variable (forks : Forks Stage Action Answer Value) (perform : Action → State → Option (Answer × State))

def forked (stage : Stage) (state : State) : Threads Nat Action Answer Value State where
  remaining := forks.program stage
  state := state

def start (stage : Stage) (rest : List Stage) (state : State) : Machine Stage Action Answer Value State where
  stage := stage
  threads := forks.forked stage state
  rest := rest

def isThrough (forks : Forks Stage Action Answer Value) : Program Action Answer Value → Bool
  | .done value => forks.through value
  | .act _ _ => false

def step : Option Nat → Machine Stage Action Answer Value State → Option (Machine Stage Action Answer Value State)
  | some index, machine =>
      if index < forks.team machine.stage then do
        let threads ← threadStep perform index machine.threads
        some { machine with threads }
      else none
  | none, machine =>
      if ∀ index < forks.team machine.stage, forks.isThrough (machine.threads.remaining index) then
        match machine.rest with
        | [] => none
        | stage :: rest => some (forks.start stage rest machine.threads.state)
      else none

end Forks

/-- What holds before each stage, and what its threads keep, compared with the state at the fork. -/
structure Contract (Stage Action Answer Value State : Type) where
  before : Stage → State → Prop
  holds : Stage → State → Threads Nat Action Answer Value State → Prop

section
variable (forks : Forks Stage Action Answer Value) (perform : Action → State → Option (Answer × State))
  (contract : Contract Stage Action Answer Value State)

structure Contract.Sound (stage : Stage) : Prop where
  start : ∀ state, contract.before stage state → contract.holds stage state (forks.forked stage state)
  lively : ∀ state, contract.before stage state → Lively perform (contract.holds stage state)

def Contract.Follows (stage next : Stage) : Prop :=
  ∀ state now, contract.before stage state → contract.holds stage state now →
    (∀ index < forks.team stage, forks.isThrough (now.remaining index)) → contract.before next now.state

def Contract.Kept (stages : List Stage) (machine : Machine Stage Action Answer Value State) : Prop :=
  (machine.stage :: machine.rest) <:+ stages ∧
    ∃ state, contract.before machine.stage state ∧ contract.holds machine.stage state machine.threads

end

section
variable {forks : Forks Stage Action Answer Value} {perform : Action → State → Option (Answer × State)}
  {contract : Contract Stage Action Answer Value State} {stages : List Stage} {machine next : Machine Stage Action Answer Value State}

theorem Contract.Kept.mem (kept : contract.Kept stages machine) : machine.stage ∈ stages :=
  kept.1.subset List.mem_cons_self

theorem Contract.Kept.step (sound : ∀ stage ∈ stages, contract.Sound forks perform stage)
    (chain : stages.IsChain (contract.Follows forks)) (kept : contract.Kept stages machine) {actor : Option Nat}
    (stepped : forks.step perform actor machine = some next) : contract.Kept stages next := by
  obtain ⟨suffix, state, before, holds⟩ := id kept
  cases actor with
  | some index =>
    rw [Forks.step] at stepped
    split at stepped
    next inside =>
      obtain ⟨threads, moved, same⟩ := Option.bind_eq_some_iff.mp stepped
      cases same
      exact ⟨suffix, state, before, ((sound _ kept.mem).lively state before).kept index _ _ holds moved⟩
    next _ => cases stepped
  | none =>
    rw [Forks.step] at stepped
    split at stepped
    next through =>
      cases later : machine.rest with
      | nil =>
        rw [later] at stepped
        cases stepped
      | cons stage rest =>
        rw [later] at stepped suffix
        cases stepped
        have follows : contract.Follows forks machine.stage stage := (chain.suffix suffix).rel
        have member : stage ∈ stages := suffix.subset (List.mem_cons_of_mem _ List.mem_cons_self)
        have begins := follows state machine.threads before holds through
        exact ⟨(List.suffix_cons _ _).trans suffix, _, begins, (sound stage member).start _ begins⟩
    next _ => cases stepped

theorem Contract.Kept.start (sound : ∀ stage ∈ stages, contract.Sound forks perform stage) {first : Stage} {rest : List Stage}
    (all : stages = first :: rest) {state : State} (before : contract.before first state) :
    contract.Kept stages (forks.start first rest state) := by
  subst all
  exact ⟨List.suffix_rfl, state, before, (sound first List.mem_cons_self).start state before⟩

theorem Contract.run (sound : ∀ stage ∈ stages, contract.Sound forks perform stage)
    (chain : stages.IsChain (contract.Follows forks)) {first : Stage} {rest : List Stage} (all : stages = first :: rest)
    {state : State} (before : contract.before first state) {schedule : List (Option Nat)}
    (ran : Library.run (forks.step perform) schedule (forks.start first rest state) = some machine) :
    contract.Kept stages machine :=
  run_rule (contract.Kept stages) (fun _ _ _ kept stepped => kept.step sound chain stepped)
    (Contract.Kept.start sound all before) ran

theorem Contract.Kept.enabled (sound : ∀ stage ∈ stages, contract.Sound forks perform stage)
    (kept : contract.Kept stages machine) {index : Nat} (inside : index < forks.team machine.stage) :
    (∃ value, machine.threads.remaining index = .done value) ∨ ∃ next, forks.step perform (some index) machine = some next := by
  obtain ⟨_, state, before, holds⟩ := id kept
  rcases ((sound _ kept.mem).lively state before).enabled index _ holds with done | ⟨threads, moved⟩
  · exact Or.inl done
  · refine Or.inr ⟨{ machine with threads }, ?_⟩
    rw [Forks.step, if_pos inside, moved]
    rfl

end

/-! Runs are finite. -/

inductive Program.After : Program Action Answer Value → Program Action Answer Value → Prop
  | act (action : Action) (next : Answer → Program Action Answer Value) (answer : Answer) :
      Program.After (next answer) (.act action next)

theorem Program.after_wellFounded : WellFounded (@Program.After Action Answer Value) := by
  refine ⟨fun program => ?_⟩
  induction program with
  | done value =>
    refine Acc.intro _ fun later after => ?_
    cases after
  | act action next ih =>
    refine Acc.intro _ fun later after => ?_
    cases after with
    | act _ _ answer => exact ih answer

section
variable (forks : Forks Stage Action Answer Value) {perform : Action → State → Option (Answer × State)}
  {machine next : Machine Stage Action Answer Value State} {stages : List Stage}

def Forks.left (machine : Machine Stage Action Answer Value State) : Multiset (Program Action Answer Value) :=
  (Multiset.range (forks.team machine.stage)).map machine.threads.remaining

theorem Forks.left_step {index : Nat} {threads : Threads Nat Action Answer Value State} (inside : index < forks.team machine.stage)
    (moved : threadStep perform index machine.threads = some threads) :
    Relation.CutExpand Program.After (forks.left { machine with threads }) (forks.left machine) := by
  obtain ⟨action, continue_, answer, acts, _, remaining⟩ := threadStep_eq_some moved
  obtain ⟨others, whole⟩ := Multiset.exists_cons_of_mem (Multiset.mem_range.mpr inside)
  have apart : index ∉ others := (Multiset.nodup_cons.mp (whole ▸ Multiset.nodup_range _)).1
  have same : others.map threads.remaining = others.map machine.threads.remaining := by
    refine Multiset.map_congr rfl fun other member => ?_
    rw [remaining, Function.update_of_ne]
    rintro rfl
    exact apart member
  unfold Forks.left
  rw [whole, Multiset.map_cons, Multiset.map_cons, same, ← Multiset.singleton_add, ← Multiset.singleton_add, remaining,
    Function.update_self, acts]
  exact Relation.cutExpand_single_add (Program.After.act action continue_ answer) _

theorem Forks.step_wellFounded :
    WellFounded fun next machine : Machine Stage Action Answer Value State => ∃ actor, forks.step perform actor machine = some next := by
  have order : WellFounded (Prod.Lex (· < · : Nat → Nat → Prop) (Relation.CutExpand (@Program.After Action Answer Value))) :=
    (Prod.lex Nat.lt_wfRel ⟨_, Program.after_wellFounded.cutExpand⟩).wf
  refine Subrelation.wf ?_ (InvImage.wf (fun machine => (machine.rest.length, forks.left machine)) order)
  rintro next machine ⟨actor, stepped⟩
  cases actor with
  | none =>
    apply Prod.Lex.left
    rw [Forks.step] at stepped
    split at stepped
    next _ =>
      split at stepped
      next _ => cases stepped
      next stage rest later =>
        cases stepped
        rw [later]
        exact Nat.lt_succ_self _
    next _ => cases stepped
  | some index =>
    rw [Forks.step] at stepped
    split at stepped
    next inside =>
      obtain ⟨threads, moved, same⟩ := Option.bind_eq_some_iff.mp stepped
      cases same
      exact Prod.Lex.right _ (forks.left_step inside moved)
    next _ => cases stepped

def Forks.Acts (stages : List Stage) : Option Nat → Prop
  | none => True
  | some index => ∃ stage ∈ stages, index < forks.team stage

variable {forks} in
theorem Forks.acts_of_step (member : machine.stage ∈ stages) {actor : Option Nat} (stepped : forks.step perform actor machine = some next) :
    forks.Acts stages actor := by
  cases actor with
  | none => trivial
  | some index =>
    rw [Forks.step] at stepped
    split at stepped
    next inside => exact ⟨machine.stage, member, inside⟩
    next _ => cases stepped

variable {forks} in
theorem Forks.step_none (last : machine.rest = [])
    (done : ∀ index < forks.team machine.stage, ∃ value, machine.threads.remaining index = .done value) (actor : Option Nat) :
    forks.step perform actor machine = none := by
  cases actor with
  | none => rw [Forks.step, last, ite_self]
  | some index =>
    rw [Forks.step]
    split
    next inside =>
      obtain ⟨value, ended⟩ := done index inside
      rw [threadStep, ended]
      rfl
    next _ => rfl

end

end Mbench.Library
