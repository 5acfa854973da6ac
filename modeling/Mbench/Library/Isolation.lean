import Mbench.Library.Interleaving

/-! Threads over one shared state. A program is a tree of actions, each with an answer; the
threads take their actions in the order of a schedule. When each thread keeps to its own
part of the state as long as it is alone, each one does in every interleaving what it does
alone. -/

namespace Mbench.Library

inductive Program (Action Answer Value : Type)
  | done (value : Value)
  | act (action : Action) (next : Answer → Program Action Answer Value)

variable {Index Action Answer Value Other State View : Type}

namespace Program

def bind : Program Action Answer Value → (Value → Program Action Answer Other) → Program Action Answer Other
  | .done value, next => next value
  | .act action continue_, next => .act action fun answer => (continue_ answer).bind next

def call (action : Action) : Program Action Answer Answer := .act action .done

instance : Monad (Program Action Answer) where
  pure := .done
  bind := Program.bind

end Program

structure Threads (Index Action Answer Value State : Type) where
  remaining : Index → Program Action Answer Value
  state : State

section
variable (perform : Action → State → Option (Answer × State))

def exec : Program Action Answer Value → State → Option (Value × State)
  | .done value, state => some (value, state)
  | .act action next, state => do
      let (answer, state) ← perform action state
      exec (next answer) state

def soloStep : Program Action Answer Value × State → Option (Program Action Answer Value × State)
  | (.done _, _) => none
  | (.act action next, state) => do
      let (answer, state) ← perform action state
      some (next answer, state)

def solo : Nat → Program Action Answer Value × State → Option (Program Action Answer Value × State)
  | 0, running => some running
  | count + 1, running => do
      let running ← solo count running
      soloStep perform running

/-- Whether a program that runs alone is never stuck and takes only actions of its own. -/
def Confined (own : Action → Prop) : Program Action Answer Value → State → Prop
  | .done _, _ => True
  | .act action next, state => own action ∧ ∃ answer later, perform action state = some (answer, later) ∧
      Confined own (next answer) later

variable [DecidableEq Index]

def threadStep (index : Index) (threads : Threads Index Action Answer Value State) :
    Option (Threads Index Action Answer Value State) :=
  match threads.remaining index with
  | .done _ => none
  | .act action next => do
      let (answer, state) ← perform action threads.state
      some { remaining := Function.update threads.remaining index (next answer), state }

def nextAction (index : Index) (threads : Threads Index Action Answer Value State) : List (Index × Action) :=
  match threads.remaining index with
  | .done _ => []
  | .act action _ => [(index, action)]

/-- Each thread has a view of the state: its own actions depend on it only, and those of others
do not change it. -/
structure Separated (own : Index → Action → Prop) (view : Index → State → View) : Prop where
  local_ : ∀ index action first second answer later, own index action → view index first = view index second →
    perform action first = some (answer, later) →
      ∃ other, perform action second = some (answer, other) ∧ view index later = view index other
  frame : ∀ index other action state answer later, own index action → other ≠ index →
    perform action state = some (answer, later) → view other later = view other state

end

section
variable {perform : Action → State → Option (Answer × State)} {program rest : Program Action Answer Value}
  {state later : State} {value : Value} {count : Nat}

theorem exec_soloStep (stepped : soloStep perform (program, state) = some (rest, later)) :
    exec perform program state = exec perform rest later := by
  cases program with
  | done value => cases stepped
  | act action next =>
    obtain ⟨⟨answer, middle⟩, performed, same⟩ := Option.bind_eq_some_iff.mp stepped
    cases same
    rw [exec, performed]
    rfl

theorem exec_solo (ran : solo perform count (program, state) = some (rest, later)) :
    exec perform program state = exec perform rest later := by
  induction count generalizing rest later with
  | zero =>
    cases ran
    rfl
  | succ count ih =>
    obtain ⟨⟨middle, between⟩, before, last⟩ := Option.bind_eq_some_iff.mp ran
    exact (ih before).trans (exec_soloStep last)

theorem exec_pure : exec perform (pure value) state = some (value, state) := rfl

theorem exec_call {action : Action} :
    exec perform (Program.call action : Program Action Answer Answer) state = perform action state := by
  rw [Program.call, exec]
  cases perform action state <;> rfl

theorem exec_bind {next : Value → Program Action Answer Other} :
    exec perform (program >>= next) state =
      (exec perform program state).bind fun result => exec perform (next result.1) result.2 := by
  induction program generalizing state with
  | done value => rfl
  | act action continue_ ih =>
    change exec perform (.act action fun answer => continue_ answer >>= next) state = _
    rw [exec, exec]
    cases perform action state with
    | none => rfl
    | some answered => exact ih answered.1

theorem Confined.act {own : Action → Prop} {action : Action} {answer : Answer} {next : Answer → Program Action Answer Value}
    (owned : own action) (performed : perform action state = some (answer, later))
    (rest : Confined perform own (next answer) later) :
    Confined perform own (Program.call action >>= next) state :=
  ⟨owned, answer, later, performed, rest⟩

theorem Confined.bind {own : Action → Prop} {next : Value → Program Action Answer Other}
    (confined : Confined perform own program state)
    (rest : ∀ value later, exec perform program state = some (value, later) → Confined perform own (next value) later) :
    Confined perform own (program >>= next) state := by
  induction program generalizing state with
  | done value => exact rest value state rfl
  | act action continue_ ih =>
    obtain ⟨owned, answer, middle, performed, after⟩ := confined
    refine ⟨owned, answer, middle, performed, ih answer after fun value later ran => rest value later ?_⟩
    rw [Library.exec, performed]
    exact ran

theorem Confined.exec {own : Action → Prop} (confined : Confined perform own program state) :
    ∃ value later, exec perform program state = some (value, later) := by
  induction program generalizing state with
  | done value => exact ⟨value, state, rfl⟩
  | act action next ih =>
    obtain ⟨_, answer, middle, performed, rest⟩ := confined
    obtain ⟨value, later, ran⟩ := ih answer rest
    exact ⟨value, later, by rw [Library.exec, performed]; exact ran⟩

variable [DecidableEq Index] {own : Index → Action → Prop} {view : Index → State → View}
  {threads final : Threads Index Action Answer Value State} {schedule : List Index}

/-- What holds of a thread while it runs with the others: it is where it would be alone, and what
it sees is what it would see alone. -/
def Alone (perform : Action → State → Option (Answer × State)) (own : Index → Action → Prop)
    (view : Index → State → View) (threads : Threads Index Action Answer Value State) (past : List Index)
    (now : Threads Index Action Answer Value State) (index : Index) : Prop :=
  ∃ state, solo perform (past.count index) (threads.remaining index, threads.state) = some (now.remaining index, state) ∧
    view index state = view index now.state ∧ Confined perform (own index) (now.remaining index) state

theorem threadStep_eq_some {index : Index} {now next : Threads Index Action Answer Value State}
    (stepped : threadStep perform index now = some next) :
    ∃ action continue_ answer, now.remaining index = .act action continue_ ∧
      perform action now.state = some (answer, next.state) ∧
      next.remaining = Function.update now.remaining index (continue_ answer) := by
  unfold threadStep at stepped
  split at stepped
  next _ => cases stepped
  next action continue_ acts =>
    obtain ⟨⟨answer, state⟩, performed, same⟩ := Option.bind_eq_some_iff.mp stepped
    cases same
    exact ⟨action, continue_, answer, acts, performed, rfl⟩

theorem alone_step (separated : Separated perform own view) {past : List Index} {actor : Index}
    {now next : Threads Index Action Answer Value State} (held : ∀ index, Alone perform own view threads past now index)
    (stepped : threadStep perform actor now = some next) :
    ∀ index, Alone perform own view threads (past ++ [actor]) next index := by
  obtain ⟨action, continue_, answer, acts, performed, remaining⟩ := threadStep_eq_some stepped
  obtain ⟨state, ran, same, confined⟩ := held actor
  rw [acts] at ran confined
  obtain ⟨owned, answer', later, alone, rest⟩ := confined
  obtain ⟨other, performed', seen⟩ := separated.local_ actor action state now.state answer' later owned same alone
  rw [performed] at performed'
  cases performed'
  intro index
  by_cases own_ : index = actor
  · subst own_
    refine ⟨later, ?_, seen, ?_⟩
    · rw [List.count_append, List.count_singleton_self, solo, ran, Option.bind_eq_bind, Option.bind_some, soloStep, alone,
        remaining, Function.update_self]
      rfl
    · rw [remaining, Function.update_self]
      exact rest
  · obtain ⟨state, ran, same, confined⟩ := held index
    refine ⟨state, ?_, ?_, ?_⟩
    · rw [List.count_append, List.count_singleton, if_neg (by simpa using Ne.symm own_), Nat.add_zero, ran, remaining,
        Function.update_of_ne own_]
    · rw [same, separated.frame actor index action now.state answer next.state owned own_ performed]
    · rw [remaining, Function.update_of_ne own_]
      exact confined

theorem alone_start (confined : ∀ index, Confined perform (own index) (threads.remaining index) threads.state)
    (index : Index) : Alone perform own view threads [] threads index :=
  ⟨threads.state, rfl, rfl, confined index⟩

theorem run_alone (separated : Separated perform own view)
    (confined : ∀ index, Confined perform (own index) (threads.remaining index) threads.state)
    (ran : run (threadStep perform) schedule threads = some final) (index : Index) :
    Alone perform own view threads schedule final index :=
  run_history (fun past now => ∀ index, Alone perform own view threads past now index)
    (fun _ _ _ _ held stepped => alone_step separated held stepped) (alone_start confined) ran index

theorem run_owned (separated : Separated perform own view)
    (confined : ∀ index, Confined perform (own index) (threads.remaining index) threads.state)
    (ran : run (threadStep perform) schedule threads = some final) :
    ∀ taken ∈ trace (threadStep perform) nextAction schedule threads, own taken.1 taken.2 := by
  refine trace_rule (fun past now => ∀ index, Alone perform own view threads past now index)
    (fun _ _ _ _ held stepped => alone_step separated held stepped) (fun taken : Index × Action => own taken.1 taken.2) ?_
    (alone_start confined) ran
  intro past actor now next held stepped taken member
  obtain ⟨action, continue_, answer, acts, _⟩ := threadStep_eq_some stepped
  obtain ⟨state, _, _, confined⟩ := held actor
  rw [acts] at confined
  rw [nextAction, acts, List.mem_singleton] at member
  rw [member]
  exact confined.1

theorem Alone.enabled (separated : Separated perform own view) {past : List Index} {now : Threads Index Action Answer Value State}
    {index : Index} (alone : Alone perform own view threads past now index) :
    (∃ value, now.remaining index = .done value) ∨ ∃ next, threadStep perform index now = some next := by
  obtain ⟨state, _, same, confined⟩ := alone
  cases acts : now.remaining index with
  | done value => exact Or.inl ⟨value, rfl⟩
  | act action continue_ =>
    rw [acts] at confined
    obtain ⟨owned, answer, later, performed, _⟩ := confined
    obtain ⟨other, performed', _⟩ := separated.local_ index action state now.state answer later owned same performed
    refine Or.inr ⟨{ remaining := Function.update now.remaining index (continue_ answer), state := other }, ?_⟩
    simp [threadStep, acts, performed']

theorem Alone.result {past : List Index} {now : Threads Index Action Answer Value State} {index : Index}
    (alone : Alone perform own view threads past now index) (done : now.remaining index = .done value) :
    ∃ state, exec perform (threads.remaining index) threads.state = some (value, state) ∧
      view index state = view index now.state := by
  obtain ⟨state, ran, same, _⟩ := alone
  refine ⟨state, (exec_solo ran).trans ?_, same⟩
  rw [done]
  rfl

end

end Mbench.Library
