import Mathlib.Tactic.Common

/-! Machines that read a word symbol by symbol and now and then give an output. A step
also knows the position of the symbol. -/

namespace Mbench.Library

variable {State Symbol Output : Type} {step : Nat → Symbol → State → State × Option Output}

def stateAfter (step : Nat → Symbol → State → State × Option Output) : Nat → State → List Symbol → State
  | _, state, [] => state
  | position, state, symbol :: word => stateAfter step (position + 1) (step position symbol state).1 word

def outputs (step : Nat → Symbol → State → State × Option Output) : Nat → State → List Symbol → List Output
  | _, _, [] => []
  | position, state, symbol :: word =>
      (step position symbol state).2.toList ++ outputs step (position + 1) (step position symbol state).1 word

theorem stateAfter_append (position : Nat) (state : State) (front back : List Symbol) :
    stateAfter step position state (front ++ back) =
      stateAfter step (position + front.length) (stateAfter step position state front) back := by
  induction front generalizing position state with
  | nil => rfl
  | cons symbol front ih =>
    rw [List.cons_append, stateAfter, ih, stateAfter, List.length_cons, Nat.add_assoc, Nat.add_comm 1]

theorem outputs_append (position : Nat) (state : State) (front back : List Symbol) :
    outputs step position state (front ++ back) =
      outputs step position state front ++
        outputs step (position + front.length) (stateAfter step position state front) back := by
  induction front generalizing position state with
  | nil => rfl
  | cons symbol front ih =>
    rw [List.cons_append, outputs, ih, outputs, stateAfter, List.append_assoc, List.length_cons, Nat.add_assoc,
      Nat.add_comm 1]

/-! A run on a word, with all that it gives. -/

section
variable {position : Nat} {state mid final : State} {front back : List Symbol} {given others : List Output}

structure Yields (step : Nat → Symbol → State → State × Option Output) (position : Nat) (state : State)
    (word : List Symbol) (given : List Output) (final : State) : Prop where
  last : stateAfter step position state word = final
  output : outputs step position state word = given

theorem Yields.nil : Yields step position state [] [] state := ⟨rfl, rfl⟩

theorem Yields.symbol {symbol : Symbol} {output : Option Output} (turn : step position symbol state = (final, output)) :
    Yields step position state [symbol] output.toList final := by
  refine ⟨?_, ?_⟩
  · rw [stateAfter, turn, stateAfter]
  · rw [outputs, turn, outputs, List.append_nil]

theorem Yields.append (first : Yields step position state front given mid)
    (second : Yields step (position + front.length) mid back others final) :
    Yields step position state (front ++ back) (given ++ others) final where
  last := by rw [stateAfter_append, first.last, second.last]
  output := by rw [outputs_append, first.output, first.last, second.output]

end

/-! Pre- and postconditions of words. -/

section
variable {Report : Type} {view : Output → Report} {pre mid post : State → Prop} {front back : List Symbol}
  {reports others : List Report}

/-- From a state with the precondition the word leads to one with the postcondition, and
the outputs are reports. -/
def Leads (step : Nat → Symbol → State → State × Option Output) (view : Output → Report) (pre : State → Prop)
    (word : List Symbol) (reports : List Report) (post : State → Prop) : Prop :=
  ∀ position state, pre state →
    post (stateAfter step position state word) ∧ (outputs step position state word).map view = reports

theorem Leads.nil : Leads step view pre [] [] pre := fun _ _ here => ⟨here, rfl⟩

theorem Leads.symbol {symbol : Symbol} {report : Option Report}
    (turn : ∀ position state, pre state →
      post (step position symbol state).1 ∧ (step position symbol state).2.map view = report) :
    Leads step view pre [symbol] report.toList post := by
  intro position state here
  obtain ⟨next, given⟩ := turn position state here
  apply And.intro next
  rw [outputs, outputs, List.append_nil, ← given]
  cases (step position symbol state).2 <;> rfl

theorem Leads.append (first : Leads step view pre front reports mid) (second : Leads step view mid back others post) :
    Leads step view pre (front ++ back) (reports ++ others) post := by
  intro position state here
  obtain ⟨there, given⟩ := first position state here
  obtain ⟨done, rest⟩ := second _ _ there
  rw [stateAfter_append, outputs_append, List.map_append, given, rest]
  exact ⟨done, rfl⟩

theorem Leads.idle {word : List Symbol} (kept : ∀ symbol ∈ word, Leads step view pre [symbol] [] pre) :
    Leads step view pre word [] pre := by
  induction word with
  | nil => exact Leads.nil
  | cons symbol word ih =>
    exact (kept symbol List.mem_cons_self).append
      (ih fun other member => kept other (List.mem_cons_of_mem symbol member))

end

end Mbench.Library
