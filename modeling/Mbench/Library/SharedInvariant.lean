import Mbench.Library.Isolation
import Mathlib.Data.Fintype.Basic
import Mathlib.Logic.Function.Basic

/-! Threads that work on the same cells. When each of them, wherever an invariant of the shared state holds, has its next
action and keeps the invariant by it, the invariant holds in every interleaving and no thread is ever stuck. -/

namespace Mbench.Library

variable {Index Action Answer Value Other State : Type}

/-- Whether a program can take each of its actions where the invariant holds, keeps it, and ends as promised. -/
def Maintains (perform : Action → State → Option (Answer × State)) (invariant : State → Prop) (ended : Value → Prop) :
    Program Action Answer Value → Prop
  | .done value => ended value
  | .act action next => ∀ state, invariant state → ∃ answer later, perform action state = some (answer, later) ∧
      invariant later ∧ Maintains perform invariant ended (next answer)

section
variable {perform : Action → State → Option (Answer × State)} {invariant : State → Prop} {ended : Value → Prop}
  {program : Program Action Answer Value}

theorem Maintains.call {action : Action} {next : Answer → Program Action Answer Value}
    (kept : ∀ state, invariant state → ∃ answer later, perform action state = some (answer, later) ∧ invariant later ∧
      Maintains perform invariant ended (next answer)) :
    Maintains perform invariant ended (Program.call action >>= next) := kept

theorem Maintains.mono {promised : Value → Prop} (kept : Maintains perform invariant ended program)
    (weaker : ∀ value, ended value → promised value) : Maintains perform invariant promised program := by
  induction program with
  | done value => exact weaker value kept
  | act action next ih =>
    intro state holds
    obtain ⟨answer, later, performed, still, after⟩ := kept state holds
    exact ⟨answer, later, performed, still, ih answer after⟩

theorem Maintains.bind {promised : Other → Prop} {next : Value → Program Action Answer Other}
    (kept : Maintains perform invariant ended program)
    (rest : ∀ value, ended value → Maintains perform invariant promised (next value)) :
    Maintains perform invariant promised (program >>= next) := by
  induction program with
  | done value => exact rest value kept
  | act action continue_ ih =>
    intro state holds
    obtain ⟨answer, later, performed, still, after⟩ := kept state holds
    exact ⟨answer, later, performed, still, ih answer after⟩

end

section
variable [DecidableEq Index] {perform : Action → State → Option (Answer × State)} {invariant : State → Prop}
  {ended : Index → Value → Prop} {threads now next final : Threads Index Action Answer Value State} {schedule : List Index}

structure AllMaintain (perform : Action → State → Option (Answer × State)) (invariant : State → Prop)
    (ended : Index → Value → Prop) (threads : Threads Index Action Answer Value State) : Prop where
  holds : invariant threads.state
  keeps : ∀ index, Maintains perform invariant (ended index) (threads.remaining index)

theorem AllMaintain.step (all : AllMaintain perform invariant ended now) {actor : Index}
    (stepped : threadStep perform actor now = some next) : AllMaintain perform invariant ended next := by
  obtain ⟨action, continue_, answer, acts, performed, remaining⟩ := threadStep_eq_some stepped
  have own := all.keeps actor
  rw [acts] at own
  obtain ⟨answer', later, performed', still, after⟩ := own now.state all.holds
  rw [performed] at performed'
  cases performed'
  refine ⟨still, fun index => ?_⟩
  rw [remaining]
  by_cases same : index = actor
  · subst same
    rw [Function.update_self]
    exact after
  · rw [Function.update_of_ne same]
    exact all.keeps index

theorem AllMaintain.run (all : AllMaintain perform invariant ended threads)
    (ran : Library.run (threadStep perform) schedule threads = some final) : AllMaintain perform invariant ended final :=
  run_rule (AllMaintain perform invariant ended) (fun _ _ _ all stepped => all.step stepped) all ran

theorem AllMaintain.enabled (all : AllMaintain perform invariant ended now) (index : Index) :
    (∃ value, now.remaining index = .done value) ∨ ∃ next, threadStep perform index now = some next := by
  cases acts : now.remaining index with
  | done value => exact Or.inl ⟨value, rfl⟩
  | act action continue_ =>
    have own := all.keeps index
    rw [acts] at own
    obtain ⟨answer, later, performed, _⟩ := own now.state all.holds
    exact Or.inr ⟨{ remaining := Function.update now.remaining index (continue_ answer), state := later }, by
      simp [threadStep, acts, performed]⟩

omit [DecidableEq Index] in
theorem AllMaintain.result (all : AllMaintain perform invariant ended now) {index : Index} {value : Value}
    (done : now.remaining index = .done value) : ended index value := by
  have own := all.keeps index
  rw [done] at own
  exact own

end

/-! Programs under other names for their actions. -/

def Program.lift {Larger : Type} (name : Action → Larger) : Program Action Answer Value → Program Larger Answer Value
  | .done value => .done value
  | .act action next => .act (name action) fun answer => (next answer).lift name

section
variable {Larger : Type} {name : Action → Larger} {perform : Action → State → Option (Answer × State)}
  {performLarger : Larger → State → Option (Answer × State)} {program : Program Action Answer Value} {state : State}

theorem exec_lift (same : ∀ action state, performLarger (name action) state = perform action state) :
    exec performLarger (program.lift name) state = exec perform program state := by
  induction program generalizing state with
  | done value => rfl
  | act action next ih =>
    rw [Program.lift, exec, exec, same]
    cases perform action state with
    | none => rfl
    | some answered => exact ih answered.1

theorem Confined.lift {own : Action → Prop} {ownLarger : Larger → Prop}
    (same : ∀ action state, performLarger (name action) state = perform action state)
    (owned : ∀ action, own action → ownLarger (name action)) (confined : Confined perform own program state) :
    Confined performLarger ownLarger (program.lift name) state := by
  induction program generalizing state with
  | done value => trivial
  | act action next ih =>
    obtain ⟨mine, answer, later, performed, rest⟩ := confined
    exact ⟨owned action mine, answer, later, (same action state).trans performed, ih answer rest⟩

theorem Maintains.lift {invariant : State → Prop} {ended : Value → Prop}
    (same : ∀ action state, performLarger (name action) state = perform action state)
    (kept : Maintains perform invariant ended program) : Maintains performLarger invariant ended (program.lift name) := by
  induction program with
  | done value => exact kept
  | act action next ih =>
    intro state holds
    obtain ⟨answer, later, performed, still, after⟩ := kept state holds
    exact ⟨answer, later, (same action state).trans performed, still, ih answer after⟩

end

/-! Threads that are never stuck come to their end. -/

section
variable [DecidableEq Index] {perform : Action → State → Option (Answer × State)}
  {now : Threads Index Action Answer Value State} {holds : Threads Index Action Answer Value State → Prop}

structure Lively (perform : Action → State → Option (Answer × State))
    (holds : Threads Index Action Answer Value State → Prop) : Prop where
  kept : ∀ index now next, holds now → threadStep perform index now = some next → holds next
  enabled : ∀ index now, holds now → (∃ value, now.remaining index = .done value) ∨ ∃ next, threadStep perform index now = some next

theorem Lively.finishes (lively : Lively perform holds) (held : holds now) (index : Index) :
    ∃ schedule next value, run (threadStep perform) schedule now = some next ∧ next.remaining index = .done value ∧
      (∀ other, other ≠ index → next.remaining other = now.remaining other) ∧ holds next := by
  generalize left : now.remaining index = program
  induction program generalizing now with
  | done value => exact ⟨[], now, value, rfl, left, fun _ _ => rfl, held⟩
  | act action continue_ ih =>
    rcases lively.enabled index now held with ⟨value, done⟩ | ⟨next, stepped⟩
    · rw [left] at done
      cases done
    · obtain ⟨_, _, answer, acts, _, remaining⟩ := threadStep_eq_some stepped
      rw [left] at acts
      cases acts
      obtain ⟨schedule, last, value, ran, done, kept, ends⟩ := ih answer (lively.kept index now next held stepped)
        (by rw [remaining, Function.update_self])
      refine ⟨index :: schedule, last, value, by rw [run, stepped]; exact ran, done, fun other different => ?_, ends⟩
      rw [kept other different, remaining, Function.update_of_ne different]

theorem Lively.all_finish (lively : Lively perform holds) (held : holds now) (indices : List Index) :
    ∃ schedule next, run (threadStep perform) schedule now = some next ∧ holds next ∧
      (∀ index, index ∈ indices ∨ (∃ value, now.remaining index = .done value) → ∃ value, next.remaining index = .done value) := by
  induction indices generalizing now with
  | nil => exact ⟨[], now, rfl, held, fun index done => done.resolve_left List.not_mem_nil⟩
  | cons first rest ih =>
    obtain ⟨schedule, next, value, ran, done, kept, ends⟩ := lively.finishes held first
    obtain ⟨later, last, ran', ends', all⟩ := ih ends
    refine ⟨schedule ++ later, last, by rw [run_append, ran]; exact ran', ends', fun index either => all index ?_⟩
    by_cases same : index = first
    · exact Or.inr ⟨value, same ▸ done⟩
    · rw [kept index same]
      exact either.imp_left fun member => (List.mem_cons.mp member).resolve_left same

theorem allMaintain_lively (invariant : State → Prop) (ended : Index → Value → Prop) :
    Lively perform (AllMaintain perform invariant ended) where
  kept := fun _ _ _ all stepped => all.step stepped
  enabled := fun index _ all => all.enabled index

theorem alone_lively {View : Type} {own : Index → Action → Prop} {view : Index → State → View}
    (separated : Separated perform own view) (threads : Threads Index Action Answer Value State) :
    Lively perform fun now => ∃ past, ∀ index, Alone perform own view threads past now index where
  kept := fun actor _ _ ⟨past, held⟩ stepped => ⟨past ++ [actor], alone_step separated held stepped⟩
  enabled := fun index _ ⟨_, held⟩ => (held index).enabled separated

end

end Mbench.Library
