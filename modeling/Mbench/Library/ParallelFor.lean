import Mbench.Library.SharedInvariant
import Mathlib.Data.List.Nodup
import Mathlib.Data.Fintype.Basic
import Mathlib.Logic.Function.Basic

/-! Loops whose iterations are dealt out to a team of threads. When iteration `index` works on cell `index` only, every deal
and every interleaving leave in each cell what its iteration makes of it alone, and no thread is ever stuck. -/

namespace Mbench.Library

variable {Op Answer Cell Value : Type}

/-- How the iterations are dealt out: each one to one thread, which takes its share in some order. -/
structure Deal (count team : Nat) where
  chunk : Fin team → List Nat
  owner : Nat → Fin team
  nodup : ∀ thread, (chunk thread).Nodup
  mem_chunk : ∀ thread index, index ∈ chunk thread ↔ index < count ∧ owner index = thread

def Program.at (index : Nat) : Program Op Answer Value → Program (Nat × Op) Answer Value
  | .done value => .done value
  | .act op next => .act (index, op) fun answer => (next answer).at index

def Program.isDone : Program Op Answer Value → Bool
  | .done _ => true
  | .act _ _ => false

def iterations (body : Nat → Program Op Answer Unit) : List Nat → Program (Nat × Op) Answer Unit
  | [] => .done ()
  | index :: rest => (body index).at index >>= fun _ => iterations body rest

section
variable (performCell : Op → Cell → Option (Answer × Cell)) (count : Nat)

def performAt (action : Nat × Op) (cells : Nat → Cell) : Option (Answer × (Nat → Cell)) :=
  if action.1 < count then do
    let (answer, cell) ← performCell action.2 (cells action.1)
    some (answer, Function.update cells action.1 cell)
  else none

def team {count size : Nat} (body : Nat → Program Op Answer Unit) (deal : Deal count size) (cells : Nat → Cell) :
    Threads (Fin size) (Nat × Op) Answer Unit (Nat → Cell) where
  remaining thread := iterations body (deal.chunk thread)
  state := cells

def parallelFor {size : Nat} (body : Nat → Program Op Answer Unit) (deal : Deal count size) (schedule : List (Fin size))
    (cells : Nat → Cell) : Option (Nat → Cell) := do
  let threads ← run (threadStep (performAt performCell count)) schedule (team body deal cells)
  if ∀ thread, (threads.remaining thread).isDone then some threads.state else none

def Made (body : Nat → Program Op Answer Unit) (cells made : Nat → Cell) (index : Nat) : Prop :=
  exec performCell (body index) (cells index) = some ((), made index)

end

section
variable {performCell : Op → Cell → Option (Answer × Cell)} {count size index : Nat} {body : Nat → Program Op Answer Unit}
  {program : Program Op Answer Value} {deal : Deal count size} {cells made : Nat → Cell} {cell : Cell} {value : Value}

theorem performAt_of_lt (inside : index < count) (op : Op) (cells : Nat → Cell) :
    performAt performCell count (index, op) cells =
      (performCell op (cells index)).map fun answered => (answered.1, Function.update cells index answered.2) := by
  rw [performAt, if_pos inside]
  cases performCell op (cells index) <;> rfl

theorem exec_at (inside : index < count) (cells : Nat → Cell) :
    exec (performAt performCell count) (program.at index) cells =
      (exec performCell program (cells index)).map fun ended => (ended.1, Function.update cells index ended.2) := by
  induction program generalizing cells with
  | done value => rw [Program.at, exec, exec, Option.map_some, Function.update_eq_self]
  | act op next ih =>
    rw [Program.at, exec, exec, performAt_of_lt inside]
    cases performCell op (cells index) with
    | none => rfl
    | some answered =>
      simp only [Option.map_some, Option.bind_eq_bind, Option.bind_some]
      rw [ih, Function.update_self]
      simp only [Function.update_idem]

theorem Made.exec_at (made_ : Made performCell body cells made index) (inside : index < count) :
    exec (performAt performCell count) ((body index).at index) cells = some ((), Function.update cells index (made index)) := by
  rw [Library.exec_at inside, made_]
  rfl

theorem Made.update {other : Nat} (made_ : Made performCell body cells made other) (different : other ≠ index) :
    Made performCell body (Function.update cells index (made index)) made other := by
  unfold Made
  rw [Function.update_of_ne different]
  exact made_

def Owns (deal : Deal count size) (thread : Fin size) (action : Nat × Op) : Prop :=
  action.1 < count ∧ deal.owner action.1 = thread

theorem confined_at {thread : Fin size} (inside : index < count) (owned : deal.owner index = thread)
    (ran : exec performCell program (cells index) = some (value, cell)) :
    Confined (performAt performCell count) (Owns deal thread) (program.at index) cells := by
  induction program generalizing cells with
  | done value => trivial
  | act op next ih =>
    obtain ⟨⟨answer, between⟩, performed, rest⟩ := Option.bind_eq_some_iff.mp ran
    refine ⟨⟨inside, owned⟩, answer, Function.update cells index between, ?_, ?_⟩
    · rw [performAt_of_lt inside, performed]
      rfl
    · apply ih
      rwa [Function.update_self]

theorem exec_iterations {chunk : List Nat} (nodup : chunk.Nodup) (inside : ∀ index ∈ chunk, index < count)
    (defined : ∀ index ∈ chunk, Made performCell body cells made index) :
    exec (performAt performCell count) (iterations body chunk) cells =
      some ((), fun index => if index ∈ chunk then made index else cells index) := by
  induction chunk generalizing cells with
  | nil => simp [iterations, exec]
  | cons index rest ih =>
    obtain ⟨fresh, nodup⟩ := List.nodup_cons.mp nodup
    have first := (defined index List.mem_cons_self).exec_at (inside index List.mem_cons_self)
    rw [iterations, exec_bind, first, Option.bind_some, ih nodup fun other member => inside other (List.mem_cons_of_mem _ member)]
    · congr 2
      funext other
      by_cases same : other = index
      · subst same
        simp only [if_neg fresh, Function.update_self, if_pos List.mem_cons_self]
      · simp only [List.mem_cons, same, false_or, Function.update_of_ne same]
    · intro other member
      exact (defined other (List.mem_cons_of_mem _ member)).update (ne_of_mem_of_not_mem member fresh)

theorem confined_iterations {thread : Fin size} {chunk : List Nat} (nodup : chunk.Nodup)
    (owned : ∀ index ∈ chunk, index < count ∧ deal.owner index = thread)
    (defined : ∀ index ∈ chunk, Made performCell body cells made index) :
    Confined (performAt performCell count) (Owns deal thread) (iterations body chunk) cells := by
  induction chunk generalizing cells with
  | nil => trivial
  | cons index rest ih =>
    obtain ⟨fresh, nodup⟩ := List.nodup_cons.mp nodup
    obtain ⟨inside, own⟩ := owned index List.mem_cons_self
    have first := defined index List.mem_cons_self
    refine (confined_at inside own first).bind fun _ later ran => ?_
    rw [first.exec_at inside] at ran
    cases ran
    refine ih nodup (fun other member => owned other (List.mem_cons_of_mem _ member)) fun other member => ?_
    exact (defined other (List.mem_cons_of_mem _ member)).update (ne_of_mem_of_not_mem member fresh)

def ownCells (deal : Deal count size) (thread : Fin size) (cells : Nat → Cell) : Nat → Option Cell := fun index =>
  if index < count ∧ deal.owner index = thread then some (cells index) else none

theorem ownCells_of_mem {thread : Fin size} (inside : index < count) (owned : deal.owner index = thread) :
    ownCells deal thread cells index = some (cells index) := if_pos ⟨inside, owned⟩

theorem separated_cells (deal : Deal count size) :
    Separated (performAt performCell count) (Owns deal : Fin size → Nat × Op → Prop)
      (ownCells deal : Fin size → (Nat → Cell) → Nat → Option Cell) where
  local_ := by
    intro thread ⟨index, op⟩ first second answer later ⟨inside, owned⟩ same performed
    have here : first index = second index := by
      have cell := congrFun same index
      rw [ownCells_of_mem inside owned, ownCells_of_mem inside owned] at cell
      exact Option.some.inj cell
    rw [performAt_of_lt inside] at performed ⊢
    obtain ⟨⟨_, cell⟩, made, ended⟩ := Option.map_eq_some_iff.mp performed
    cases ended
    refine ⟨Function.update second index cell, by rw [← here, made]; rfl, ?_⟩
    funext other
    by_cases own : other = index
    · subst own
      rw [ownCells_of_mem inside owned, ownCells_of_mem inside owned, Function.update_self, Function.update_self]
    · have cell := congrFun same other
      unfold ownCells at cell ⊢
      rwa [Function.update_of_ne own, Function.update_of_ne own]
  frame := by
    intro thread other ⟨index, op⟩ state answer later ⟨inside, owned⟩ different performed
    rw [performAt_of_lt inside] at performed
    obtain ⟨⟨_, cell⟩, _, ended⟩ := Option.map_eq_some_iff.mp performed
    cases ended
    funext cell
    unfold ownCells
    by_cases own : cell = index
    · subst own
      rw [if_neg fun both => different (both.2.symm.trans owned), if_neg fun both => different (both.2.symm.trans owned)]
    · rw [Function.update_of_ne own]

def Defined (performCell : Op → Cell → Option (Answer × Cell)) (count : Nat) (body : Nat → Program Op Answer Unit)
    (cells made : Nat → Cell) : Prop := ∀ index < count, Made performCell body cells made index

theorem Defined.confined (defined : Defined performCell count body cells made) (thread : Fin size) :
    Confined (performAt performCell count) (Owns deal thread) ((team body deal cells).remaining thread)
      (team body deal cells).state := by
  have chunk := fun index => (deal.mem_chunk thread index).mp
  exact confined_iterations (deal.nodup thread) chunk fun index member => defined index (chunk index member).1

theorem performAt_beyond {action : Nat × Op} {answer : Answer} {later : Nat → Cell}
    (performed : performAt performCell count action cells = some (answer, later)) {other : Nat} (beyond : count ≤ other) :
    later other = cells other := by
  unfold performAt at performed
  split at performed
  next inside =>
    obtain ⟨_, _, ended⟩ := Option.bind_eq_some_iff.mp performed
    cases ended
    exact Function.update_of_ne (by omega) _ _
  next _ => cases performed

theorem parallelFor_cells (defined : Defined performCell count body cells made) {schedule : List (Fin size)} {final : Nat → Cell}
    (looped : parallelFor performCell count body deal schedule cells = some final) :
    ∀ index, final index = if index < count then made index else cells index := by
  obtain ⟨threads, ran, ended⟩ := Option.bind_eq_some_iff.mp looped
  split at ended
  next done =>
    cases ended
    intro index
    by_cases inside : index < count
    · rw [if_pos inside]
      have alone := run_alone (separated_cells deal) (fun thread => defined.confined thread) ran (deal.owner index)
      have halted : ∃ value, threads.remaining (deal.owner index) = .done value := by
        have its := done (deal.owner index)
        cases here : threads.remaining (deal.owner index) with
        | done value => exact ⟨value, rfl⟩
        | act op next => rw [here] at its; cases its
      obtain ⟨value, halted⟩ := halted
      obtain ⟨state, alone, same⟩ := alone.result halted
      have chunk := fun other => (deal.mem_chunk (deal.owner index) other).mp
      have own : index ∈ deal.chunk (deal.owner index) := (deal.mem_chunk _ index).mpr ⟨inside, rfl⟩
      have exact_ := exec_iterations (deal.nodup (deal.owner index)) (fun other member => (chunk other member).1)
        fun other member => defined other (chunk other member).1
      have ends := exact_.symm.trans alone
      cases ends
      have cell := congrFun same index
      rw [ownCells_of_mem inside rfl, ownCells_of_mem inside rfl, if_pos own] at cell
      exact (Option.some.inj cell).symm
    · rw [if_neg inside]
      refine run_rule (fun threads : Threads (Fin size) (Nat × Op) Answer Unit (Nat → Cell) =>
        threads.state index = cells index) (fun thread now next same stepped => ?_) rfl ran
      obtain ⟨action, continue_, answer, acts, performed, remaining⟩ := threadStep_eq_some stepped
      exact (performAt_beyond performed (Nat.le_of_not_lt inside)).trans same
  next _ => cases ended

theorem parallelFor_enabled (defined : Defined performCell count body cells made) {begun : List (Fin size)}
    {now : Threads (Fin size) (Nat × Op) Answer Unit (Nat → Cell)}
    (ran : run (threadStep (performAt performCell count)) begun (team body deal cells) = some now) (thread : Fin size) :
    now.remaining thread = .done () ∨ ∃ next, threadStep (performAt performCell count) thread now = some next := by
  have held := run_alone (separated_cells deal) (fun thread => defined.confined thread) ran thread
  rcases held.enabled (separated_cells deal) with ⟨value, done⟩ | moves
  · exact Or.inl done
  · exact Or.inr moves

theorem parallelFor_completes (defined : Defined performCell count body cells made) {begun : List (Fin size)}
    {now : Threads (Fin size) (Nat × Op) Answer Unit (Nat → Cell)}
    (ran : run (threadStep (performAt performCell count)) begun (team body deal cells) = some now) :
    ∃ rest, (parallelFor performCell count body deal (begun ++ rest) cells).isSome := by
  have held := run_alone (separated_cells deal) (fun thread => defined.confined thread) ran
  obtain ⟨rest, last, ran', _, all⟩ := (alone_lively (separated_cells deal) (team body deal cells)).all_finish ⟨begun, held⟩
    (List.finRange size)
  refine ⟨rest, ?_⟩
  have done : ∀ thread, (last.remaining thread).isDone := by
    intro thread
    obtain ⟨value, halted⟩ := all thread (Or.inl (List.mem_finRange thread))
    rw [halted]
    rfl
  rw [parallelFor, run_append, ran, Option.bind_some, ran', Option.bind_eq_bind, Option.bind_some, if_pos done]
  rfl

end

end Mbench.Library
