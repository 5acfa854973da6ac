import Mbench.CoreLat.ResultCells
import Mathlib.Algebra.Order.BigOperators.Group.List
import Mathlib.Data.List.GetD
import Mathlib.Order.Bounds.Basic

/-! Matrices of one shape: `result_parser.cpp` computes the least, the greatest and the mean entry of
each position; in exact arithmetic the order of the files does not matter. -/

namespace Mbench.CoreLat
open Library

def column (mats : List Mat) (j k : Nat) : List Rat := mats.filterMap fun mat => mat.entry j k

/-- The mean of some values as the loops add it up: each is divided by their number, and every quotient and every sum is
rounded. -/
def roundedMean (round : Rat → Rat) : List Rat → Rat
  | [] => 0
  | value :: values =>
      values.foldl (fun sum next => round (sum + round (next / (values.length + 1 : Nat)))) (round (value / (values.length + 1 : Nat)))

structure Cell.Holds (round : Rat → Rat) (cell : Cell) (values : List Rat) : Prop where
  low : IsLeast {value | value ∈ values} cell.low
  mid : cell.mid = roundedMean round values
  high : IsGreatest {value | value ∈ values} cell.high

/-- A position holds the least, the mean and the greatest of these values. -/
structure Cell.Summarises (cell : Cell) (values : List Rat) : Prop where
  low : IsLeast {value | value ∈ values} cell.low
  mid : cell.mid = values.sum / values.length
  high : IsGreatest {value | value ∈ values} cell.high

section
variable {round : Rat → Rat} {mats : List Mat} {first : Mat} {later : List Mat} {shape : List Nat} {cell other : Cell} {values : List Rat}

theorem foldl_absorb (count : Nat) (mats : List Mat) (j k : Nat) (cell : Cell) :
    mats.foldl (fun cell mat => Cell.absorb round count (mat.entry j k) cell) cell =
      (column mats j k).foldl (Cell.add round count) cell := by
  induction mats generalizing cell with
  | nil => rfl
  | cons mat mats ih =>
    rw [List.foldl_cons, ih, column, column, List.filterMap_cons]
    cases mat.entry j k <;> rfl

theorem foldl_add (count : Nat) (value : Rat) (values : List Rat) :
    IsLeast {v | v ∈ value :: values} (values.foldl (Cell.add round count) (Cell.single round count value)).low ∧
      (values.foldl (Cell.add round count) (Cell.single round count value)).mid =
        values.foldl (fun sum next => round (sum + round (next / count))) (round (value / count)) ∧
      IsGreatest {v | v ∈ value :: values} (values.foldl (Cell.add round count) (Cell.single round count value)).high := by
  induction values using List.reverseRecOn with
  | nil => simp [Cell.single]
  | append_singleton values last ih =>
    obtain ⟨low, mid, high⟩ := ih
    have more : {v | v ∈ value :: (values ++ [last])} = insert last {v | v ∈ value :: values} := by
      ext v
      simp only [Set.mem_ofPred_eq, Set.mem_insert_iff, List.mem_cons, List.mem_append, List.not_mem_nil, or_false]
      tauto
    rw [List.foldl_append, List.foldl_cons, List.foldl_nil, List.foldl_append, List.foldl_cons, List.foldl_nil, ← mid, more]
    exact ⟨low.insert last, rfl, high.insert last⟩

theorem roundedMean_id (some_ : values ≠ []) : roundedMean id values = values.sum / values.length := by
  obtain ⟨value, rest, rfl⟩ := List.exists_cons_of_ne_nil some_
  have added (count : Nat) (sum : Rat) (rest : List Rat) :
      rest.foldl (fun sum next => sum + next / (count : Rat)) sum = sum + rest.sum / count := by
    induction rest generalizing sum with
    | nil => simp
    | cons next rest ih => rw [List.foldl_cons, ih, List.sum_cons, add_div, add_assoc]
  rw [List.sum_cons, add_div, List.length_cons]
  exact added (rest.length + 1) _ rest

theorem Cell.Holds.summarises (holds : cell.Holds id values) : cell.Summarises values where
  low := holds.low
  mid := holds.mid.trans (roundedMean_id (List.ne_nil_of_mem holds.low.1))
  high := holds.high

theorem Cell.Summarises.between (summary : cell.Summarises values) : cell.low ≤ cell.mid ∧ cell.mid ≤ cell.high := by
  have some_ : 0 < (values.length : Rat) := by exact_mod_cast List.length_pos_of_mem summary.low.1
  have least := List.card_nsmul_le_sum values cell.low fun value member => summary.low.2 member
  have greatest := List.sum_le_card_nsmul values cell.high fun value member => summary.high.2 member
  rw [nsmul_eq_mul] at least greatest
  rw [summary.mid, le_div_iff₀ some_, div_le_iff₀ some_, mul_comm cell.low, mul_comm cell.high]
  exact ⟨least, greatest⟩

theorem Cell.Summarises.unique {more : List Rat} (summary : cell.Summarises values) (same : other.Summarises more)
    (permuted : values.Perm more) : cell = other := by
  have members : {value | value ∈ values} = {value | value ∈ more} := by
    ext value
    exact permuted.mem_iff
  have low := summary.low
  have high := summary.high
  rw [members] at low high
  ext1
  · exact low.unique same.low
  · rw [summary.mid, same.mid, permuted.sum_eq, permuted.length_eq]
  · exact high.unique same.high

theorem column_length (common : ∀ mat ∈ mats, mat.shape = shape) {j k : Nat} (inside : k < shape.getD j 0) :
    (column mats j k).length = mats.length := by
  induction mats with
  | nil => rfl
  | cons mat mats ih =>
    have width : k < mat.width j := by
      rw [← Ragged.shape_width, common mat List.mem_cons_self]
      exact inside
    obtain ⟨value, entry⟩ := Option.isSome_iff_exists.mp (Ragged.entry_isSome.mpr width)
    have rest := ih fun other member => common other (List.mem_cons_of_mem mat member)
    rw [column, List.filterMap_cons, entry]
    exact congrArg Nat.succ rest

/-- The three matrices have the common shape, and each position sums up its entries. -/
structure Accumulators.Summarise (round : Rat → Rat) (acc : Accumulators) (mats : List Mat) (shape : List Nat) : Prop where
  shapes : acc.shapes = [shape, shape, shape]
  inside : ∀ j k, k < shape.getD j 0 → ∃ cell, acc.cell j k = some cell ∧ cell.Holds round (column mats j k)
  outside : ∀ j k, shape.getD j 0 ≤ k → acc.cell j k = none

theorem statistics_summarise (common : ∀ mat ∈ first :: later, mat.shape = shape) (some_ : ∃ width ∈ shape, 0 < width) :
    ∃ acc, statistics round (first :: later) = some acc ∧ acc.Summarise round (first :: later) shape := by
  have domain {mat : Mat} (member : mat ∈ first :: later) {j k : Nat} : (mat.entry j k).isSome ↔ k < shape.getD j 0 := by
    rw [Ragged.entry_isSome, ← Ragged.shape_width, common mat member]
  have inRange : (statistics round (first :: later)).isSome := statistics_isSome.mpr fun mat member j k there =>
    (domain List.mem_cons_self).mpr ((domain (List.mem_cons_of_mem first member)).mp there)
  obtain ⟨acc, ran⟩ := Option.isSome_iff_exists.mp inRange
  obtain ⟨width, member, positive⟩ := some_
  obtain ⟨j, row, same⟩ := List.getElem_of_mem member
  have entry : (first.entry j 0).isSome := by
    rw [domain List.mem_cons_self, List.getD_eq_getElem _ _ row, same]
    exact positive
  refine ⟨acc, ran, ⟨?_, fun j k inside => ?_, fun j k outside => ?_⟩⟩
  · rw [statistics_shapes ran entry, common first List.mem_cons_self]
  · obtain ⟨value, found⟩ := Option.isSome_iff_exists.mp ((domain List.mem_cons_self).mpr inside)
    have whole : column (first :: later) j k = value :: column later j k := by
      rw [column, List.filterMap_cons, found]
      rfl
    obtain ⟨low, mid, high⟩ := foldl_add (later.length + 1) value (column later j k)
    refine ⟨_, (statistics_cell ran j k).trans (by rw [found, Option.map_some, foldl_absorb]), ⟨?_, ?_, ?_⟩⟩
    · rw [whole]
      exact low
    · have length : (column later j k).length = later.length :=
        column_length (fun mat member => common mat (List.mem_cons_of_mem first member)) inside
      rw [whole, mid, roundedMean, length]
    · rw [whole]
      exact high
  · have none : first.entry j k = none := by
      rw [← Option.not_isSome_iff_eq_none, domain List.mem_cons_self]
      omega
    rw [statistics_cell ran j k, none]
    rfl

theorem Accumulators.Summarise.unique {acc other : Accumulators} {more : List Mat} (summary : acc.Summarise id mats shape)
    (same : other.Summarise id more shape) (permuted : mats.Perm more) : acc = other := by
  refine Accumulators.ext_cell summary.shapes same.shapes fun j k => ?_
  by_cases inside : k < shape.getD j 0
  · obtain ⟨cell, found, holds⟩ := summary.inside j k inside
    obtain ⟨cell', found', holds'⟩ := same.inside j k inside
    rw [found, found', holds.summarises.unique holds'.summarises (permuted.filterMap _)]
  · rw [summary.outside j k (by omega), same.outside j k (by omega)]

end

/-- In exact arithmetic, for files of one shape with an entry at least, the three matrices have that shape; at each position
they hold the least, the mean and the greatest entry of all files, in that order; and the order of the
files does not matter. -/
theorem statistics_correct (mats : List Mat) (shape : List Nat) (files : mats ≠ []) (common : ∀ mat ∈ mats, mat.shape = shape)
    (entries : ∃ width ∈ shape, 0 < width) :
    ∃ acc, statistics id mats = some acc ∧ acc.shapes = [shape, shape, shape] ∧
      (∀ j k, k < shape.getD j 0 → ∃ cell, acc.cell j k = some cell ∧
        (column mats j k).length = mats.length ∧ cell.Summarises (column mats j k) ∧
        cell.low ≤ cell.mid ∧ cell.mid ≤ cell.high) ∧
      ∀ reordered, mats.Perm reordered → statistics id reordered = some acc := by
  obtain ⟨first, later, rfl⟩ := List.exists_cons_of_ne_nil files
  obtain ⟨acc, ran, summary⟩ := statistics_summarise common entries
  refine ⟨acc, ran, summary.shapes, fun j k inside => ?_, fun reordered permuted => ?_⟩
  · obtain ⟨cell, found, holds⟩ := summary.inside j k inside
    exact ⟨cell, found, column_length common inside, holds.summarises, holds.summarises.between⟩
  · have some_ : reordered ≠ [] := fun none => List.cons_ne_nil first later (none ▸ permuted).eq_nil
    obtain ⟨first', later', rfl⟩ := List.exists_cons_of_ne_nil some_
    obtain ⟨other, ran', summary'⟩ := statistics_summarise
      (fun mat member => common mat (permuted.mem_iff.mpr member)) entries
    rw [ran', summary.unique summary' permuted]

theorem statistics_correct_two :
    ∃ acc, statistics id [[[1, 3], [], [4]], [[2, 0], [], [6]]] = some acc ∧
      acc.shapes = [[2, 0, 1], [2, 0, 1], [2, 0, 1]] ∧
      (∀ j k, k < [2, 0, 1].getD j 0 → ∃ cell, acc.cell j k = some cell ∧
        (column [[[1, 3], [], [4]], [[2, 0], [], [6]]] j k).length = 2 ∧
        cell.Summarises (column [[[1, 3], [], [4]], [[2, 0], [], [6]]] j k) ∧
        cell.low ≤ cell.mid ∧ cell.mid ≤ cell.high) ∧
      ∀ reordered, [[[1, 3], [], [4]], [[2, 0], [], [6]]].Perm reordered → statistics id reordered = some acc :=
  statistics_correct _ [2, 0, 1] (by simp) (by simp [Ragged.shape]) (by simp)

end Mbench.CoreLat
