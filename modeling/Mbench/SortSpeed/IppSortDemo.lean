import Mbench.Library.CInt
import Mbench.SortSpeed.PartitionSlices

/-! `qs_recsv` of `ippSortDemo.cpp`: the partition works on `int` indices, around the element in the middle of the
range. -/

namespace Mbench.SortSpeed
open Library

structure IppSortDemo.Indices where
  heap : Heap Word
  left : Int
  right : Int

/-- `while (array[*left] < pivot) *left += 1`. -/
def IppSortDemo.scanRight (fuel : Nat) (array : Int) (pivot : Word) (heap : Heap Word) : Int → Option Int :=
  whileLoop (fun left => (heap.load (array + left)).map fun value => decide (value < pivot))
    (fun left => addInt left 1) fuel

/-- `while (array[*right] > pivot) *right -= 1`. -/
def IppSortDemo.scanLeft (fuel : Nat) (array : Int) (pivot : Word) (heap : Heap Word) : Int → Option Int :=
  whileLoop (fun right => (heap.load (array + right)).map fun value => decide (pivot < value))
    (fun right => addInt right (-1)) fuel

def IppSortDemo.partitionStep (fuel : Nat) (array : Int) (pivot : Word) (indices : Indices) : Option Indices := do
  let heap := indices.heap
  let left ← IppSortDemo.scanRight fuel array pivot heap indices.left
  let right ← IppSortDemo.scanLeft fuel array pivot heap indices.right
  if left ≤ right then
    let heap ← exchange heap (array + left) (array + right)
    let left ← addInt left 1
    let right ← addInt right (-1)
    some { heap, left, right }
  else some { heap, left, right }

/-- `scalar_partition_epi32`, with fuel for each of its loops. -/
def IppSortDemo.scalarPartitionEpi32 (fuel : Nat) (array : Int) (pivot : Word) : Indices → Option Indices :=
  whileLoop (fun indices => some (indices.left ≤ indices.right)) (IppSortDemo.partitionStep fuel array pivot) fuel

/-- `qs_recsv`, with fuel for the depth of its recursion. -/
def IppSortDemo.qsRecsv : Nat → Heap Word → Int → Int → Int → Option (Heap Word)
  | 0, _, _, _, _ => none
  | fuel + 1, heap, array, left, right => do
      let sum ← addInt left right
      let pivot ← heap.load (array + sum.tdiv 2)
      let indices ← IppSortDemo.scalarPartitionEpi32 (right - left + 3).toNat array pivot { heap, left, right }
      let heap ←
        (if left < indices.right then IppSortDemo.qsRecsv fuel indices.heap array left indices.right
        else some indices.heap)
      if indices.left < right then IppSortDemo.qsRecsv fuel heap array indices.left right else some heap

/-! The partition moves the indices as `scalar_partition_epi32` of `sortSpeed.cpp` moves its bounds. -/

def IppSortDemo.indicesOf (array : Int) (bounds : Bounds) : Indices :=
  { heap := bounds.heap, left := bounds.newRBound - array, right := bounds.newLBound - array }

section
variable {heap : Heap Word} {pivot : Word} {array start bound : Int} {fuel : Nat}

theorem scanRight_le (ran : scanRight fuel pivot heap start = some bound) : start ≤ bound := by
  refine (whileLoop_ended ran (fun bound => start ≤ bound) le_rfl fun bound next from_ _ moved => ?_).1
  rw [← Option.some.inj moved]
  omega

theorem scanLeft_le (ran : scanLeft fuel pivot heap start = some bound) : bound ≤ start := by
  refine (whileLoop_ended ran (fun bound => bound ≤ start) le_rfl fun bound next upto _ moved => ?_).1
  rw [← Option.some.inj moved]
  omega

theorem IppSortDemo.scanRight_of_bound (low : -2 ^ 31 ≤ start - array) (high : bound - array < 2 ^ 31)
    (ran : SortSpeed.scanRight fuel pivot heap start = some bound) :
    IppSortDemo.scanRight fuel array pivot heap (start - array) = some (bound - array) := by
  refine whileLoop_simulated (fun bound => bound - array) (fun bound => start ≤ bound) le_rfl ?_ ?_ ran
  · intro bound _
    rw [show array + (bound - array) = bound by ring]
  · intro bound next fuel from_ _ moved onward
    have after : bound + 1 = next := Option.some.inj moved
    subst after
    have upto := scanRight_le onward
    rw [addInt_eq (by omega) (by omega)]
    exact ⟨congrArg some (by ring), by omega⟩

theorem IppSortDemo.scanLeft_of_bound (low : -2 ^ 31 ≤ bound - array) (high : start - array < 2 ^ 31)
    (ran : SortSpeed.scanLeft fuel pivot heap start = some bound) :
    IppSortDemo.scanLeft fuel array pivot heap (start - array) = some (bound - array) := by
  refine whileLoop_simulated (fun bound => bound - array) (fun bound => bound ≤ start) le_rfl ?_ ?_ ran
  · intro bound _
    rw [show array + (bound - array) = bound by ring]
  · intro bound next fuel upto _ moved onward
    have after : bound - 1 = next := Option.some.inj moved
    subst after
    have from_ := scanLeft_le onward
    rw [addInt_eq (by omega) (by omega)]
    exact ⟨congrArg some (by ring), by omega⟩

end

section
variable {array : Int} {pivot : Word} {fuel : Nat} {bounds next final : Bounds}

theorem partitionStep_cases (step : partitionStep fuel pivot bounds = some next) :
    ∃ right left, scanRight fuel pivot bounds.heap bounds.newRBound = some right ∧
      scanLeft fuel pivot bounds.heap bounds.newLBound = some left ∧
      (right ≤ left ∧ (∃ heap, exchange bounds.heap right left = some heap ∧
          next = { heap, newRBound := right + 1, newLBound := left - 1 }) ∨
        left < right ∧ next = { heap := bounds.heap, newRBound := right, newLBound := left }) := by
  obtain ⟨right, rightRun, rest⟩ := Option.bind_eq_some_iff.mp step
  obtain ⟨left, leftRun, rest⟩ := Option.bind_eq_some_iff.mp rest
  refine ⟨right, left, rightRun, leftRun, ?_⟩
  by_cases open_ : right ≤ left
  · rw [if_pos open_] at rest
    obtain ⟨heap, swapped, moved⟩ := Option.bind_eq_some_iff.mp rest
    exact Or.inl ⟨open_, heap, swapped, (Option.some.inj moved).symm⟩
  · rw [if_neg open_] at rest
    exact Or.inr ⟨Int.not_le.mp open_, (Option.some.inj rest).symm⟩

theorem partitionStep_le (step : partitionStep fuel pivot bounds = some next) :
    bounds.newRBound ≤ next.newRBound ∧ next.newLBound ≤ bounds.newLBound := by
  obtain ⟨right, left, rightRun, leftRun, moved⟩ := partitionStep_cases step
  have upward := scanRight_le rightRun
  have downward := scanLeft_le leftRun
  rcases moved with ⟨_, _, _, rfl⟩ | ⟨_, rfl⟩ <;> simp only <;> omega

theorem partitionLoop_le {scanFuel : Nat} (ran : partitionLoop scanFuel pivot fuel bounds = some final) :
    bounds.newRBound ≤ final.newRBound ∧ final.newLBound ≤ bounds.newLBound := by
  refine (whileLoop_ended ran (fun state => bounds.newRBound ≤ state.newRBound ∧ state.newLBound ≤ bounds.newLBound)
    ⟨le_rfl, le_rfl⟩ fun state next within _ step => ?_).1
  have moved := partitionStep_le step
  omega

theorem IppSortDemo.partitionStep_of_bounds (low : -2 ^ 31 ≤ bounds.newRBound - array)
    (high : bounds.newLBound - array < 2 ^ 31) (fitsRight : next.newRBound - array < 2 ^ 31)
    (fitsLeft : -2 ^ 31 ≤ next.newLBound - array) (step : SortSpeed.partitionStep fuel pivot bounds = some next) :
    IppSortDemo.partitionStep fuel array pivot (indicesOf array bounds) = some (indicesOf array next) := by
  obtain ⟨right, left, rightRun, leftRun, moved⟩ := partitionStep_cases step
  have upward := scanRight_le rightRun
  have downward := scanLeft_le leftRun
  have fits : right - array < 2 ^ 31 ∧ -2 ^ 31 ≤ left - array := by
    rcases moved with ⟨_, _, _, rfl⟩ | ⟨_, rfl⟩ <;> simp only at fitsRight fitsLeft <;> omega
  have right' := scanRight_of_bound low fits.1 rightRun
  have left' := scanLeft_of_bound fits.2 high leftRun
  simp only [IppSortDemo.partitionStep, indicesOf, right', left', Option.bind_eq_bind, Option.bind_some,
    Int.sub_le_sub_right_iff]
  rcases moved with ⟨open_, heap, swapped, rfl⟩ | ⟨crossed, rfl⟩
  · simp only at fitsRight fitsLeft
    rw [if_pos open_, show array + (right - array) = right by ring, show array + (left - array) = left by ring, swapped,
      addInt_eq (by omega) (by omega), addInt_eq (by omega) (by omega)]
    simp only [Option.bind_some, Option.some.injEq, Indices.mk.injEq, true_and]
    constructor <;> ring
  · rw [if_neg (Int.not_le.mpr crossed)]

/-- The partition of the elements between two indices of an array leaves what the one between two pointers leaves, where
an `int` holds what it moves the indices to. -/
theorem IppSortDemo.scalarPartitionEpi32_of_bounds (low : -2 ^ 31 ≤ bounds.newRBound - array)
    (high : bounds.newLBound - array < 2 ^ 31) (fitsRight : final.newRBound - array < 2 ^ 31)
    (fitsLeft : -2 ^ 31 ≤ final.newLBound - array)
    (ran : SortSpeed.scalarPartitionEpi32 fuel pivot bounds = some final) :
    IppSortDemo.scalarPartitionEpi32 fuel array pivot (indicesOf array bounds) = some (indicesOf array final) := by
  refine whileLoop_simulated (indicesOf array)
    (fun state => -2 ^ 31 ≤ state.newRBound - array ∧ state.newLBound - array < 2 ^ 31) ⟨low, high⟩ ?_ ?_ ran
  · intro state _
    simp [indicesOf]
  · intro state next fuel within _ step onward
    have later := partitionLoop_le onward
    have moved := partitionStep_le step
    exact ⟨partitionStep_of_bounds within.1 within.2 (by omega) (by omega) step, by omega, by omega⟩

end

/-! The recursion. -/

abbrev middleValue (values : List Word) : Word := values.getD ((values.length - 1) / 2) 0

theorem middleValue_eq {values : List Word} (nonempty : 0 < values.length) :
    middleValue values = values[(values.length - 1) / 2] := by
  rw [middleValue, List.getD_eq_getElem?_getD, List.getElem?_eq_getElem (by omega), Option.getD_some]

theorem middleValue_mem {values : List Word} (nonempty : 0 < values.length) : middleValue values ∈ values := by
  rw [middleValue_eq nonempty]
  exact List.getElem_mem _

abbrev halves (values : List Word) : List Word × List Word := slices (middleValue values) values

theorem halves_fewer {values : List Word} (some_ : 0 < (halves values).1.length ∨ 0 < (halves values).2.length) :
    (halves values).1.length < values.length ∧ (halves values).2.length < values.length := by
  have lengths : (halves values).1.length + (halves values).2.length ≤ values.length := slices_length _ values
  exact slices_fewer (middleValue_mem (by omega))

/-- In the recursive division of a slice around its middle elements, `left` the index of its first element, the first
and the last index of every slice of two elements or more have a sum that an `int` holds. -/
def sumsFit (left : Int) (values : List Word) : Bool :=
  decide (left + (left + values.length - 1) < 2 ^ 31) &&
    (if 1 < (halves values).1.length then sumsFit left (halves values).1 else true) &&
    if 1 < (halves values).2.length then sumsFit (left + values.length - (halves values).2.length) (halves values).2
    else true
termination_by values.length
decreasing_by
  · exact (halves_fewer (Or.inl (by omega))).1
  · exact (halves_fewer (Or.inr (by omega))).2

theorem sumsFit_iff (left : Int) (values : List Word) :
    sumsFit left values = true ↔ left + (left + values.length - 1) < 2 ^ 31 ∧
      (1 < (halves values).1.length → sumsFit left (halves values).1 = true) ∧
      (1 < (halves values).2.length →
        sumsFit (left + values.length - (halves values).2.length) (halves values).2 = true) := by
  rw [sumsFit, Bool.and_eq_true, Bool.and_eq_true, decide_eq_true_eq, Bool.ite_eq_true_distrib, Bool.ite_eq_true_distrib]
  simp only [if_true_right, and_assoc]

/-- What has become of a slice that was to be sorted: nothing, for want of fuel or of a sum that fits, or it is sorted. -/
def Settles (run : Option (Heap Word)) (heap : Heap Word) (start : Int) (piece : List Word) (fits enough : Prop) : Prop :=
  (run = none ∧ (fits → ¬enough)) ∨
    ∃ final sorted, run = some final ∧ fits ∧ SliceSorted heap final start piece sorted

theorem slice_settles {run : Option (Heap Word)} {heap : Heap Word} {start : Int} {piece : List Word} {fits enough : Prop}
    (call : Prop) [Decidable call] (called : call ↔ 1 < piece.length) (held : heap.Holds start piece)
    (sorts : 0 < piece.length → Settles run heap start piece fits enough) :
    Settles (if call then run else some heap) heap start piece (1 < piece.length → fits) enough := by
  by_cases made : call
  · rw [if_pos made]
    have long := called.mp made
    rcases sorts (by omega) with ⟨nothing, lacks⟩ | ⟨final, sorted, ran, fit, done⟩
    · exact Or.inl ⟨nothing, fun fit => lacks (fit long)⟩
    · exact Or.inr ⟨final, sorted, ran, fun _ => fit, done⟩
  · rw [if_neg made]
    have short : piece.length ≤ 1 := Nat.not_lt.mp fun long => made (called.mpr long)
    exact Or.inr ⟨heap, piece, rfl, fun long => absurd long (by omega), held, List.Perm.refl _,
      short_ascending piece short, fun _ _ => rfl⟩

section
variable {heap : Heap Word} {array left right : Int} {values : List Word}

theorem IppSortDemo.middle_loaded (nonempty : 0 < values.length) (inside : 0 ≤ left)
    (size : left + values.length = right + 1) (held : heap.Holds (array + left) values) :
    heap.load (array + (left + right).tdiv 2) = some (middleValue values) := by
  have middle : array + (left + right).tdiv 2 = array + left + ((values.length - 1) / 2 : Nat) := by
    rw [Int.tdiv_eq_ediv_of_nonneg (by omega)]
    omega
  rw [middle, middleValue_eq nonempty]
  exact held.load _ (by omega)

theorem IppSortDemo.scalarPartitionEpi32_middle (nonempty : 0 < values.length) (inside : 0 ≤ left)
    (size : left + values.length = right + 1) (limit : right < 2 ^ 31 - 1) (held : heap.Holds (array + left) values) :
    ∃ bounds gap, IppSortDemo.scalarPartitionEpi32 (right - left + 3).toNat array (middleValue values) { heap, left, right } =
        some (indicesOf array bounds) ∧
      Partitioned heap (array + left) (middleValue values) values gap bounds := by
  obtain ⟨bounds, gap, run, partitioned⟩ := scalarPartitionEpi32_slices (middleValue_mem nonempty) held
  have total := partitioned.perm.length_eq
  have leftEnd := partitioned.leftEnd
  have rightStart := partitioned.rightStart
  simp only [List.length_append] at total rightStart
  have partition := scalarPartitionEpi32_of_bounds (show -2 ^ 31 ≤ array + left - array by omega)
    (show array + left + values.length - 1 - array < 2 ^ 31 by omega) (by omega) (by omega) run
  rw [indicesOf, show values.length + 2 = (right - left + 3).toNat by omega, show array + left - array = left by ring,
    show array + left + values.length - 1 - array = right by omega] at partition
  exact ⟨bounds, gap, partition, partitioned⟩

end

theorem IppSortDemo.qsRecsv_settles (fuel : Nat) (heap : Heap Word) (array left right : Int) (values : List Word)
    (nonempty : 0 < values.length) (inside : 0 ≤ left) (size : left + values.length = right + 1)
    (limit : right < 2 ^ 31 - 1) (held : heap.Holds (array + left) values) :
    Settles (IppSortDemo.qsRecsv fuel heap array left right) heap (array + left) values (sumsFit left values = true)
      (values.length < fuel) := by
  induction fuel generalizing heap left right values with
  | zero => exact Or.inl ⟨rfl, fun _ => Nat.not_lt_zero _⟩
  | succ fuel ih =>
    rw [sumsFit_iff, halves]
    by_cases fits : left + (left + values.length - 1) < 2 ^ 31
    case neg =>
      have sum : addInt left right = none := if_neg (by omega)
      exact Or.inl ⟨by simp [IppSortDemo.qsRecsv, sum], fun all => absurd all.1 fits⟩
    have sum : addInt left right = some (left + right) := addInt_eq (by omega) (by omega)
    have loaded := middle_loaded nonempty inside size held
    obtain ⟨bounds, gap, partition, partitioned⟩ := scalarPartitionEpi32_middle nonempty inside size limit held
    obtain ⟨pieces, perm, leftEnd, rightStart, low, equal, high, short, leftFewer, rightFewer, frame⟩ := partitioned
    have total := perm.length_eq
    simp only [List.length_append] at total rightStart
    have heldLeft := (Heap.holds_append.mp (Heap.holds_append.mp pieces).1).1
    have rightIndex : left + values.length - (slices (middleValue values) values).2.length = bounds.newRBound - array := by omega
    rw [rightIndex]
    generalize leftSlice : (slices (middleValue values) values).1 = leftPiece at *
    generalize rightSlice : (slices (middleValue values) values).2 = rightPiece at *
    have settlesLeft := slice_settles (left < bounds.newLBound - array) (by omega) heldLeft
      fun some_ => ih bounds.heap left (bounds.newLBound - array) leftPiece some_ inside (by omega) (by omega) heldLeft
    rcases settlesLeft with ⟨nothing, lacks⟩ | ⟨heap1, sortedLeft, run1, fits1, done1⟩
    · refine Or.inl ⟨?_, fun all enough => lacks all.2.1 (by omega)⟩
      simp only [IppSortDemo.qsRecsv, sum, loaded, partition, indicesOf, nothing, Option.bind_eq_bind, Option.bind_some,
        Option.bind_none]
    have heldRight := right_untouched pieces done1.frame
    rw [show array + left + ((leftPiece.length + gap.length : Nat) : Int) = array + (bounds.newRBound - array) by omega]
      at heldRight
    have settlesRight := slice_settles (bounds.newRBound - array < right) (by omega) heldRight
      fun some_ => ih heap1 (bounds.newRBound - array) right rightPiece some_ (by omega) (by omega) limit heldRight
    rcases settlesRight with ⟨nothing, lacks⟩ | ⟨heap2, sortedRight, run2, fits2, done2⟩
    · refine Or.inl ⟨?_, fun all enough => lacks all.2.2 (by omega)⟩
      simp only [IppSortDemo.qsRecsv, sum, loaded, partition, indicesOf, run1, nothing, Option.bind_eq_bind,
        Option.bind_some]
    have place : array + (bounds.newRBound - array) = array + left + ((leftPiece.length + gap.length : Nat) : Int) := by omega
    rw [place] at done2
    refine Or.inr ⟨heap2, sortedLeft ++ gap ++ sortedRight, ?_, ⟨fits, fits1, fits2⟩,
      done1.join pieces perm frame low equal high short done2⟩
    simp only [IppSortDemo.qsRecsv, sum, loaded, partition, indicesOf, run1, run2, Option.bind_eq_bind, Option.bind_some]

/-- `qs_recsv` on indices sorts the elements between them, touches no others and leaves what `qs_recsv` of
`sortSpeed.cpp` leaves, exactly if every sum of two indices that its recursion takes the middle of is an `int`. -/
theorem IppSortDemo.intQsRecsv_sorts_iff (heap : Heap Word) (array left right : Int) (values : List Word) (inside : 0 ≤ left)
    (ordered : left ≤ right) (_sum : left + right ≤ 2 ^ 31 - 1) (limit : right < 2 ^ 31 - 1)
    (size : left + values.length = right + 1) (held : heap.Holds (array + left) values) :
    (∃ final sorted, final.Holds (array + left) sorted ∧ UnsignedAscending sorted ∧ sorted.Perm values ∧
      (∀ cell, Outside cell (array + left) values.length → final cell = heap cell) ∧
      ∀ fuel, values.length < fuel →
        IppSortDemo.qsRecsv fuel heap array left right = some final ∧
          IppSortDemo.qsRecsv fuel (heap.only (array + left) values.length) array left right =
            some (final.only (array + left) values.length) ∧
          SortSpeed.qsRecsv fuel heap (array + left) values.length = some final) ↔
      sumsFit left values = true := by
  have nonempty : 0 < values.length := by omega
  constructor
  · intro ⟨final, sorted, _, _, _, _, runs⟩
    obtain ⟨run, -⟩ := runs (values.length + 1) (Nat.lt_succ_self _)
    rcases qsRecsv_settles (values.length + 1) heap array left right values nonempty inside size limit held with
      ⟨nothing, -⟩ | ⟨-, -, -, fits, -⟩
    · rw [nothing] at run
      cases run
    · exact fits
  · intro fits
    have sorts (fuel : Nat) (heap : Heap Word) (held : heap.Holds (array + left) values) (enough : values.length < fuel) :
        ∃ final sorted, IppSortDemo.qsRecsv fuel heap array left right = some final ∧
          SliceSorted heap final (array + left) values sorted := by
      rcases qsRecsv_settles fuel heap array left right values nonempty inside size limit held with
        ⟨-, lacks⟩ | ⟨final, sorted, run, -, done⟩
      · exact absurd enough (lacks fits)
      · exact ⟨final, sorted, run, done⟩
    obtain ⟨final, sorted, -, done⟩ := sorts (values.length + 1) heap held (Nat.lt_succ_self _)
    refine ⟨final, sorted, done.held, done.ascending, done.perm, done.frame, fun fuel enough => ⟨?_, ?_, ?_⟩⟩
    · obtain ⟨other, sorted', run, done'⟩ := sorts fuel heap held enough
      rw [run, done.unique done']
    · obtain ⟨other, sorted', run, done'⟩ := sorts fuel _ held.only enough
      rw [run, done.only done']
    · obtain ⟨other, sorted', run, done'⟩ := SortSpeed.qsRecsv_spec fuel heap (array + left) values nonempty enough held
      rw [run, done.unique done']

theorem IppSortDemo.intQsRecsv_sorts_iff_three :
    (∃ final sorted, final.Holds (0 + 1) sorted ∧ UnsignedAscending sorted ∧ sorted.Perm [2, 3, 1] ∧
      (∀ cell, Outside cell (0 + 1) 3 → final cell = Heap.splice Heap.empty (0 + 1) [2, 3, 1] cell) ∧
      ∀ fuel, 3 < fuel →
        IppSortDemo.qsRecsv fuel (Heap.splice Heap.empty (0 + 1) [2, 3, 1]) 0 1 3 = some final ∧
          IppSortDemo.qsRecsv fuel ((Heap.splice Heap.empty (0 + 1) [2, 3, 1]).only (0 + 1) 3) 0 1 3 =
            some (final.only (0 + 1) 3) ∧
          SortSpeed.qsRecsv fuel (Heap.splice Heap.empty (0 + 1) [2, 3, 1]) (0 + 1) 3 = some final) ↔
      sumsFit 1 [2, 3, 1] = true :=
  intQsRecsv_sorts_iff (Heap.splice Heap.empty (0 + 1) [2, 3, 1]) 0 1 3 [2, 3, 1] (by decide) (by decide) (by decide)
    (by decide) (by decide) Heap.holds_splice_self

theorem sumsFit_of_small (left : Int) (values : List Word) (long : 1 < values.length)
    (small : left + values.length - 1 ≤ 2 ^ 30) : sumsFit left values = true := by
  have fewer (some_ : 0 < (halves values).1.length ∨ 0 < (halves values).2.length) := halves_fewer some_
  rw [sumsFit_iff]
  refine ⟨by omega, fun long' => ?_, fun long' => ?_⟩
  · have shorter := (fewer (Or.inl (by omega))).1
    exact sumsFit_of_small left (halves values).1 long' (by omega)
  · have shorter := (fewer (Or.inr (by omega))).2
    exact sumsFit_of_small _ (halves values).2 long' (by omega)
termination_by values.length

theorem not_sumsFit_replicate (half : Nat) (value : Word) (long : 1 < half) (large : 2 ^ 31 ≤ 3 * half + 1) :
    ¬sumsFit 0 (List.replicate (2 * half + 1) value) = true := by
  have middle : middleValue (List.replicate (2 * half + 1) value) = value := by
    rw [middleValue_eq (by simp), List.getElem_replicate]
  have divided : halves (List.replicate (2 * half + 1) value) = (List.replicate half value, List.replicate half value) := by
    rw [halves, middle, slices_replicate, show (2 * half + 1) / 2 = half by omega]
  rw [sumsFit_iff, divided, List.length_replicate, List.length_replicate]
  intro ⟨_, _, right⟩
  have above := (sumsFit_iff _ _).mp (right long)
  rw [List.length_replicate] at above
  omega

/-- Of 2^31 - 1 equal elements the right half cannot be sorted: its first and its last index have a sum of
2^30 + 2^31 - 2. -/
theorem IppSortDemo.qsRecsv_overflows :
    (0 : Int) + (2 ^ 31 - 2) ≤ 2 ^ 31 - 1 ∧ (2 ^ 31 - 2 : Int) < 2 ^ 31 - 1 ∧
      ∃ heap : Heap Word, heap.Holds 0 (List.replicate (2 ^ 31 - 1) 0) ∧
        ∀ fuel, IppSortDemo.qsRecsv fuel heap 0 0 (2 ^ 31 - 2) = none := by
  refine ⟨by decide, by decide, Heap.splice Heap.empty 0 (List.replicate (2 ^ 31 - 1) 0), Heap.holds_splice_self,
    fun fuel => ?_⟩
  have unfit := not_sumsFit_replicate (2 ^ 30 - 1) 0 (by decide) (by decide)
  rw [show 2 * (2 ^ 30 - 1) + 1 = 2 ^ 31 - 1 by decide] at unfit
  rcases qsRecsv_settles fuel (Heap.splice Heap.empty 0 (List.replicate (2 ^ 31 - 1) 0)) 0 0 (2 ^ 31 - 2)
    (List.replicate (2 ^ 31 - 1) 0) (by rw [List.length_replicate]; decide) le_rfl
    (by rw [List.length_replicate]; decide) (by decide) Heap.holds_splice_self with ⟨nothing, -⟩ | ⟨-, -, -, fits, -⟩
  · exact nothing
  · exact absurd fits unfit

end Mbench.SortSpeed
