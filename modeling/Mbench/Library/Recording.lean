import Mbench.Library.Loop
import Mathlib.Data.List.Induction

/-! Runs that record what they do. A recorded program carries a log beside its state; it erases to a plain one
when it does the same without the log. A log is sound when each entry is allowed after the entries before it. -/

namespace Mbench.Library

variable {State Item Entry : Type}

def Erases (recorded : State × List Entry → Option (State × List Entry)) (plain : State → Option State) : Prop :=
  ∀ state log, (recorded (state, log)).map Prod.fst = plain state

section
variable {recorded second : State × List Entry → Option (State × List Entry)} {plain next : State → Option State}

theorem Erases.returns (erases : Erases recorded plain) {state final : State} (ran : plain state = some final)
    (log : List Entry) : ∃ later, recorded (state, log) = some (final, later) := by
  have same := erases state log
  rw [ran, Option.map_eq_some_iff] at same
  obtain ⟨⟨_, later⟩, returned, rfl⟩ := same
  exact ⟨later, returned⟩

theorem Erases.bind (erases : Erases recorded plain) (others : Erases second next) :
    Erases (fun state => (recorded state).bind second) (fun state => (plain state).bind next) := by
  intro state log
  simp only [← erases state log]
  cases recorded (state, log) with
  | none => rfl
  | some middle => exact others middle.1 middle.2

theorem Erases.whileLoop (erases : Erases recorded plain) (guard : State → Option Bool) (fuel : Nat) :
    Erases (whileLoop (fun state => guard state.1) recorded fuel) (whileLoop guard plain fuel) := by
  induction fuel with
  | zero => exact fun _ _ => rfl
  | succ fuel ih =>
    intro state log
    rw [Library.whileLoop, Library.whileLoop]
    simp only
    cases guard state with
    | none => rfl
    | some continues =>
      cases continues with
      | false => rfl
      | true => exact erases.bind ih state log

theorem erases_forLoop {recorded : Nat → State × List Entry → Option (State × List Entry)}
    {plain : Nat → State → Option State} (erases : ∀ index, Erases (recorded index) (plain index)) (count : Nat) :
    Erases (forLoop recorded count) (forLoop plain count) := by
  induction count with
  | zero => exact fun _ _ => rfl
  | succ count ih => exact ih.bind (erases count)

theorem erases_foldlM {recorded : State × List Entry → Item → Option (State × List Entry)}
    {plain : State → Item → Option State} (erases : ∀ item, Erases (recorded · item) (plain · item)) (items : List Item) :
    Erases (items.foldlM recorded) (items.foldlM plain) := by
  induction items with
  | nil => exact fun _ _ => rfl
  | cons item items ih =>
    intro state log
    simp only [List.foldlM_cons]
    exact (erases item).bind ih state log

end

def Sound (allowed : List Entry → Entry → Prop) (log : List Entry) : Prop :=
  ∀ before entry after, log = before ++ entry :: after → allowed before entry

def Persistent (allowed : List Entry → Entry → Prop) : Prop :=
  ∀ log more entry, allowed log entry → allowed (log ++ more) entry

section
variable {allowed : List Entry → Entry → Prop} {log : List Entry}

theorem sound_nil : Sound allowed [] := by
  intro before entry after split
  cases before <;> cases split

theorem Sound.concat (sound : Sound allowed log) {entry : Entry} (fits : allowed log entry) :
    Sound allowed (log ++ [entry]) := by
  intro before other after split
  rcases List.eq_nil_or_concat after with rfl | ⟨front, last, rfl⟩
  · obtain ⟨rfl, same⟩ := List.append_inj' split rfl
    cases same
    exact fits
  · rw [List.concat_eq_append, ← List.cons_append, ← List.append_assoc] at split
    exact sound before other front (List.append_inj_left' split rfl)

theorem Sound.append (sound : Sound allowed log) (persistent : Persistent allowed) {entries : List Entry}
    (fits : ∀ entry ∈ entries, allowed log entry) : Sound allowed (log ++ entries) := by
  induction entries using List.reverseRecOn with
  | nil => rwa [List.append_nil]
  | append_singleton front last ih =>
    rw [← List.append_assoc]
    refine (ih fun entry member => fits entry (List.mem_append_left _ member)).concat ?_
    exact persistent _ _ _ (fits last (List.mem_append_right _ (List.mem_singleton.mpr rfl)))

end

end Mbench.Library
