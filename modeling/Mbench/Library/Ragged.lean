import Mathlib.Data.List.Basic
import Mathlib.Tactic.Common

/-! A vector of vectors, each of its own length, as `vector< vector<T> >` has them: an access out of
range is undefined. -/

namespace Mbench.Library

abbrev Ragged (Value : Type) := List (List Value)

def resize {Value : Type} (fill : Value) (values : List Value) (count : Nat) : List Value :=
  values.take count ++ List.replicate (count - values.length) fill

theorem resize_all {Value : Type} {fill : Value} {values : List Value} {count : Nat} (same : values.length = count) :
    resize fill values count = values := by
  rw [resize, List.take_of_length_le (Nat.le_of_eq same), same, Nat.sub_self, List.replicate_zero, List.append_nil]

theorem resize_nil {Value : Type} {fill : Value} {count : Nat} : resize fill [] count = List.replicate count fill := by
  rw [resize, List.take_nil, List.nil_append, List.length_nil, Nat.sub_zero]

namespace Ragged

variable {Value : Type} {mat other : Ragged Value} {j k : Nat} {value : Value}

def entry (mat : Ragged Value) (j k : Nat) : Option Value := mat[j]?.bind fun row => row[k]?

def put (mat : Ragged Value) (j k : Nat) (value : Value) : Ragged Value := mat.modify j fun row => row.set k value

def setEntry (mat : Ragged Value) (j k : Nat) (value : Value) : Option (Ragged Value) :=
  if (mat.entry j k).isSome then some (mat.put j k value) else none

def resizeRows (mat : Ragged Value) (count : Nat) : Ragged Value := resize [] mat count

def resizeRow (mat : Ragged Value) (j count : Nat) (fill : Value) : Option (Ragged Value) :=
  if j < mat.length then some (mat.modify j fun row => resize fill row count) else none

def shape (mat : Ragged Value) : List Nat := mat.map List.length

def width (mat : Ragged Value) (j : Nat) : Nat := (mat.getD j []).length

theorem entry_isSome : (mat.entry j k).isSome ↔ k < mat.width j := by
  unfold entry width
  cases found : mat[j]? with
  | none => simp [List.getD_eq_getElem?_getD, found]
  | some row => simp [List.getD_eq_getElem?_getD, found]

theorem shape_width (mat : Ragged Value) (j : Nat) : mat.shape.getD j 0 = mat.width j := by
  unfold shape width
  rw [List.getD_eq_getElem?_getD, List.getD_eq_getElem?_getD, List.getElem?_map]
  cases mat[j]? <;> rfl

theorem entry_put (inside : (mat.entry j k).isSome) (row column : Nat) :
    (mat.put j k value).entry row column = if row = j ∧ column = k then some value else mat.entry row column := by
  unfold put entry at *
  rw [List.getElem?_modify]
  by_cases same : row = j
  · subst same
    cases found : mat[row]? with
    | none => simp [found] at inside
    | some values =>
      rw [found, Option.bind_some] at inside
      have bound : k < values.length := by simpa using inside
      simp only [true_and, Option.map_eq_map, Option.map_some, if_true, Option.bind_some]
      by_cases here : column = k
      · subst here
        rw [List.getElem?_set_self bound, if_pos rfl]
      · rw [List.getElem?_set_ne (Ne.symm here), if_neg here]
  · rw [if_neg fun both => same both.1]
    cases mat[row]? with
    | none => rfl
    | some values => simp [Ne.symm same]

@[simp] theorem length_put : (mat.put j k value).length = mat.length := List.length_modify ..

theorem ext_entry (rows : mat.length = other.length) (entries : ∀ j k, mat.entry j k = other.entry j k) : mat = other := by
  apply List.ext_getElem rows
  intro j first second
  apply List.ext_getElem?
  intro k
  have same := entries j k
  unfold entry at same
  rwa [List.getElem?_eq_getElem first, List.getElem?_eq_getElem second] at same

theorem put_same (there : mat.entry j k = some value) : mat.put j k value = mat := by
  apply ext_entry length_put
  intro row column
  rw [entry_put (by rw [there]; rfl)]
  by_cases here : row = j ∧ column = k
  · rw [if_pos here, here.1, here.2, there]
  · rw [if_neg here]

theorem width_put (row : Nat) : (mat.put j k value).width row = mat.width row := by
  unfold width put
  rw [List.getD_eq_getElem?_getD, List.getD_eq_getElem?_getD, List.getElem?_modify]
  cases mat[row]? with
  | none => rfl
  | some values => by_cases same : j = row <;> simp [same]

theorem shape_eq (rows : mat.length = other.length) (widths : ∀ j, mat.width j = other.width j) : mat.shape = other.shape := by
  unfold shape
  apply List.ext_getElem (by simpa using rows)
  intro j first second
  have same := widths j
  unfold width at same
  rw [List.length_map] at first second
  rw [List.getD_eq_getElem?_getD, List.getD_eq_getElem?_getD, List.getElem?_eq_getElem first,
    List.getElem?_eq_getElem second, Option.getD_some, Option.getD_some] at same
  rw [List.getElem_map, List.getElem_map, same]

@[simp] theorem shape_put : (mat.put j k value).shape = mat.shape := shape_eq length_put width_put

theorem width_of_length (none : mat.length = 0) (j : Nat) : mat.width j = 0 := by
  rw [List.length_eq_zero_iff.mp none]
  rfl

theorem entry_of_width (short : mat.width j ≤ k) : mat.entry j k = none := by
  rw [← Option.not_isSome_iff_eq_none, entry_isSome]
  omega

theorem resizeRows_same {count : Nat} (rows : mat.length = count ∨ mat.length = 0) :
    (mat.resizeRows count).length = count ∧ (∀ j, (mat.resizeRows count).width j = mat.width j) ∧
      ∀ j k, (mat.resizeRows count).entry j k = mat.entry j k := by
  rcases rows with all | none
  · rw [resizeRows, resize_all all]
    exact ⟨all, fun _ => rfl, fun _ _ => rfl⟩
  · have empty : mat = [] := List.length_eq_zero_iff.mp none
    have width (j : Nat) : (mat.resizeRows count).width j = 0 := by
      rw [resizeRows, empty, resize_nil, Ragged.width, List.getD_eq_getElem?_getD, List.getElem?_replicate]
      split <;> rfl
    refine ⟨?_, fun j => ?_, fun j k => ?_⟩
    · rw [resizeRows, empty, resize_nil, List.length_replicate]
    · rw [width, width_of_length none]
    · rw [entry_of_width (by rw [width]; omega), entry_of_width (by rw [width_of_length none]; omega)]

theorem resizeRow_spec (inside : j < mat.length) (count : Nat) (fill : Value) :
    ∃ next, mat.resizeRow j count fill = some next ∧ next.length = mat.length ∧ next.width j = count ∧
      (∀ row, row ≠ j → next.width row = mat.width row ∧ ∀ k, next.entry row k = mat.entry row k) ∧
      (mat.width j = count → next = mat) := by
  refine ⟨_, if_pos inside, List.length_modify .., ?_, fun row other => ?_, fun same => ?_⟩
  · unfold width
    rw [List.getD_eq_getElem?_getD, List.getElem?_modify, List.getElem?_eq_getElem inside]
    simp only [if_true, Option.map_eq_map, Option.map_some, Option.getD_some, resize, List.length_append,
      List.length_take, List.length_replicate]
    omega
  · have there : (mat.modify j fun values => resize fill values count)[row]? = mat[row]? := by
      rw [List.getElem?_modify]
      cases mat[row]? <;> simp [Ne.symm other]
    unfold width entry
    rw [List.getD_eq_getElem?_getD, List.getD_eq_getElem?_getD, there]
    exact ⟨rfl, fun _ => rfl⟩
  · apply List.ext_getElem?
    intro row
    rw [List.getElem?_modify]
    cases found : mat[row]? with
    | none => rfl
    | some values =>
      by_cases here : j = row
      · subst here
        have length : values.length = count := by
          rw [← same, width, List.getD_eq_getElem?_getD, found]
          rfl
        simp [resize_all length]
      · simp [here]

end Ragged

end Mbench.Library
