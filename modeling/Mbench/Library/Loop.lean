import Mathlib.Tactic.Common

/-! Loops of imperative code over a fallible state transformer, with the rules that
prove a loop returns: a counted loop by an invariant indexed by the counter, a guarded
loop by an invariant and a measure. A guarded loop takes fuel, and its rule says how
much is enough. -/

namespace Mbench.Library

variable {State : Type}

def forLoop (body : Nat → State → Option State) : Nat → State → Option State
  | 0, state => some state
  | count + 1, state => do
      let state ← forLoop body count state
      body count state

/-- `while (guard) body`, giving up when the guard has been met `fuel` times. -/
def whileLoop (guard : State → Option Bool) (body : State → Option State) :
    Nat → State → Option State
  | 0, _ => none
  | fuel + 1, state => do
      if ← guard state then
        let state ← body state
        whileLoop guard body fuel state
      else some state

theorem forLoop_rule (body : Nat → State → Option State) (invariant : Nat → State → Prop)
    (count : Nat) (state : State) (start : invariant 0 state)
    (step : ∀ index < count, ∀ state, invariant index state →
      ∃ next, body index state = some next ∧ invariant (index + 1) next) :
    ∃ final, forLoop body count state = some final ∧ invariant count final := by
  induction count with
  | zero => exact ⟨state, rfl, start⟩
  | succ count ih =>
    obtain ⟨middle, reached, held⟩ := ih fun index bound => step index (by omega)
    obtain ⟨final, last, finished⟩ := step count (by omega) middle held
    exact ⟨final, by simp [forLoop, reached, last], finished⟩

/-- Partial correctness of a counted loop: what every iteration keeps holds where the loop ended. -/
theorem forLoop_ended {body : Nat → State → Option State} {count : Nat} {state final : State}
    (ran : forLoop body count state = some final) (invariant : Nat → State → Prop) (start : invariant 0 state)
    (step : ∀ index < count, ∀ state next, invariant index state → body index state = some next →
      invariant (index + 1) next) :
    invariant count final := by
  induction count generalizing final with
  | zero => exact Option.some.inj ran ▸ start
  | succ count ih =>
    obtain ⟨middle, reached, last⟩ := Option.bind_eq_some_iff.mp ran
    have held := ih reached fun index bound => step index (by omega)
    exact step count (by omega) middle final held last

theorem forLoop_add (body : State → Option State) (first second : Nat) (state : State) :
    forLoop (fun _ => body) (first + second) state =
      (forLoop (fun _ => body) first state).bind (forLoop (fun _ => body) second) := by
  induction second with
  | zero => exact (Option.bind_fun_some _).symm
  | succ second ih =>
    rw [← Nat.add_assoc, forLoop, ih, Option.bind_eq_bind, Option.bind_assoc]
    rfl

theorem forLoop_mul (body : State → Option State) (outer inner : Nat) (state : State) :
    forLoop (fun _ => forLoop (fun _ => body) inner) outer state = forLoop (fun _ => body) (outer * inner) state := by
  induction outer with
  | zero => rw [Nat.zero_mul]; rfl
  | succ outer ih =>
    rw [Nat.succ_mul, forLoop_add body, ← ih]
    rfl

/-- Total correctness of a guarded loop: the guard is defined wherever the invariant
holds, and each iteration keeps the invariant and decreases the measure. -/
theorem whileLoop_rule (guard : State → Option Bool) (body : State → Option State)
    (invariant : State → Prop) (measure : State → Nat)
    (step : ∀ state, invariant state → guard state = some false ∨
      guard state = some true ∧
        ∃ next, body state = some next ∧ invariant next ∧ measure next < measure state)
    (state : State) (start : invariant state) (fuel : Nat) (enough : measure state < fuel) :
    ∃ final, whileLoop guard body fuel state = some final ∧ invariant final ∧
      guard final = some false := by
  induction fuel generalizing state with
  | zero => omega
  | succ fuel ih =>
    rcases step state start with stop | ⟨continues, next, advanced, held, smaller⟩
    · exact ⟨state, by simp [whileLoop, stop], start, stop⟩
    · obtain ⟨final, rest, finished⟩ := ih next held (by omega)
      exact ⟨final, by simp [whileLoop, continues, advanced, rest], finished⟩

/-- Partial correctness of a guarded loop: what every iteration keeps holds where the loop ended. -/
theorem whileLoop_ended {guard : State → Option Bool} {body : State → Option State} {fuel : Nat}
    {state final : State} (ran : whileLoop guard body fuel state = some final) (invariant : State → Prop)
    (start : invariant state)
    (step : ∀ state next, invariant state → guard state = some true → body state = some next → invariant next) :
    invariant final ∧ guard final = some false := by
  induction fuel generalizing state with
  | zero => cases ran
  | succ fuel ih =>
    obtain ⟨continues, found, rest⟩ := Option.bind_eq_some_iff.mp ran
    cases continues with
    | false =>
      have ended : state = final := Option.some.inj rest
      exact ended ▸ ⟨start, found⟩
    | true =>
      obtain ⟨next, advanced, onward⟩ := Option.bind_eq_some_iff.mp rest
      exact ih onward (step state next start found advanced)

theorem whileLoop_simulated {Other : Type} {guard : State → Option Bool} {body : State → Option State}
    {guard' : Other → Option Bool} {body' : Other → Option Other} (view : State → Other) (invariant : State → Prop)
    {fuel : Nat} {state final : State} (start : invariant state)
    (guards : ∀ state, invariant state → guard' (view state) = guard state)
    (bodies : ∀ state next fuel, invariant state → guard state = some true → body state = some next →
      whileLoop guard body fuel next = some final → body' (view state) = some (view next) ∧ invariant next)
    (ran : whileLoop guard body fuel state = some final) :
    whileLoop guard' body' fuel (view state) = some (view final) := by
  induction fuel generalizing state with
  | zero => cases ran
  | succ fuel ih =>
    have same := guards state start
    obtain ⟨continues, found, rest⟩ := Option.bind_eq_some_iff.mp ran
    rw [found] at same
    cases continues with
    | false =>
      have ended : state = final := Option.some.inj rest
      rw [← ended]
      simp [whileLoop, same]
    | true =>
      obtain ⟨next, advanced, onward⟩ := Option.bind_eq_some_iff.mp rest
      obtain ⟨advanced', held⟩ := bodies state next fuel start found advanced onward
      simp only [whileLoop, same, Option.bind_eq_bind, Option.bind_some, if_true, advanced']
      exact ih held onward

theorem mapM_eq_map {Index Value : Type} (indices : List Index) (get : Index → Option Value)
    (value : Index → Value) (defined : ∀ index ∈ indices, get index = some (value index)) :
    indices.mapM get = some (indices.map value) := by
  induction indices with
  | nil => rfl
  | cons first rest ih =>
    rw [List.mapM_cons, defined first (by simp), ih fun index member => defined index (by simp [member])]
    rfl

theorem isSome_mapM {Index Value : Type} {indices : List Index} {get : Index → Option Value} :
    (indices.mapM get).isSome ↔ ∀ index ∈ indices, (get index).isSome := by
  induction indices with
  | nil => simp
  | cons first rest ih =>
    rw [List.forall_mem_cons, ← ih, List.mapM_cons]
    cases get first with
    | none => simp
    | some value => cases rest.mapM get <;> simp

theorem mapM_mapM {Index Middle Value : Type} (indices : List Index) (first : Index → Option Middle)
    (second : Middle → Option Value) :
    (indices.mapM first).bind (fun middles => middles.mapM second) = indices.mapM fun index => (first index).bind second := by
  induction indices with
  | nil => rfl
  | cons index rest ih =>
    rw [List.mapM_cons, List.mapM_cons, ← ih]
    cases first index with
    | none => rfl
    | some middle =>
      cases rest.mapM first with
      | none => cases later : second middle <;> simp [later]
      | some middles => simp [List.mapM_cons]

end Mbench.Library
