import Mbench.Library.CInt
import Mbench.SortSpeed.PartitionSlices

/-! `qs_recsv` of `sortSpeed.cpp` with DEBUG defined: three counters follow the recursion. -/

namespace Mbench.SortSpeed
open Library

/-- Memory and the counters, each an `int`. `calls` is no variable of the program: it lists how deep each
activation is nested, in the order they begin. -/
structure Debug where
  heap : Heap Word
  depth : Int
  depthMax : Int
  numSplit : Int
  calls : List Nat

def Debug.start (heap : Heap Word) : Debug where
  heap := heap
  depth := 0
  depthMax := 0
  numSplit := 0
  calls := []

def Debug.descend (state : Debug) : Option Debug := do
  let depth ← addInt state.depth 1
  some { state with depth, depthMax := if depth > state.depthMax then depth else state.depthMax }

/-- `scalar_partition_epi32`, which begins with `numSplit++`. -/
def Debug.scalarPartitionEpi32 (fuel : Nat) (pivot : Word) (numSplit : Int) (bounds : Bounds) : Option (Int × Bounds) := do
  let numSplit ← addInt numSplit 1
  let bounds ← SortSpeed.scalarPartitionEpi32 fuel pivot bounds
  some (numSplit, bounds)

/-- `qs_recsv`, with fuel for the depth of its recursion, as an activation nested `level` deep. -/
def Debug.qsRecsv : Nat → Nat → Debug → Int → Nat → Option Debug
  | 0, _, _, _, _ => none
  | fuel + 1, level, state, array, nElems => do
      let lBound := array
      let rBound := array + nElems - 1
      let pivot ← state.heap.load array
      let (numSplit, bounds) ← Debug.scalarPartitionEpi32 (nElems + 2) pivot state.numSplit
        { heap := state.heap, newRBound := lBound, newLBound := rBound }
      let state := { state with heap := bounds.heap, numSplit, calls := state.calls ++ [level] }
      let state ←
        (if lBound < bounds.newLBound then
          state.descend.bind fun state =>
            Debug.qsRecsv fuel (level + 1) state lBound (bounds.newLBound + 1 - lBound).toNat
        else some state)
      let state ←
        (if bounds.newRBound < rBound then
          state.descend.bind fun state =>
            Debug.qsRecsv fuel (level + 1) state bounds.newRBound (rBound + 1 - bounds.newRBound).toNat
        else some state)
      let depth ← addInt state.depth (-1)
      some { state with depth }

/-! The recursion as a division of the list. -/

theorem sides_fewer {values : List Word} (some_ : 0 < (sides values).1.length ∨ 0 < (sides values).2.length) :
    (sides values).1.length < values.length ∧ (sides values).2.length < values.length := by
  have lengths : (sides values).1.length + (sides values).2.length ≤ values.length := slices_length _ values
  have held : (Heap.splice Heap.empty 0 values).Holds 0 values := Heap.holds_splice_self
  exact slices_fewer (load_first held (by omega)).1

/-- The number of slices of two elements or more in the recursive division of a list around its first elements, the
list itself included. -/
def splits (values : List Word) : Nat :=
  1 + (if 1 < (sides values).1.length then splits (sides values).1 else 0) +
    if 1 < (sides values).2.length then splits (sides values).2 else 0
termination_by values.length
decreasing_by
  · exact (sides_fewer (Or.inl (by omega))).1
  · exact (sides_fewer (Or.inr (by omega))).2

/-- How deep these slices are nested, the list itself at `level`, and a left slice with all in it before the right. -/
def nesting (level : Nat) (values : List Word) : List Nat :=
  level :: ((if 1 < (sides values).1.length then nesting (level + 1) (sides values).1 else []) ++
    if 1 < (sides values).2.length then nesting (level + 1) (sides values).2 else [])
termination_by values.length
decreasing_by
  · exact (sides_fewer (Or.inl (by omega))).1
  · exact (sides_fewer (Or.inr (by omega))).2

def inner (level : Nat) (piece : List Word) : List Nat := if 1 < piece.length then nesting (level + 1) piece else []

theorem nesting_eq (level : Nat) (values : List Word) :
    nesting level values = level :: (inner level (sides values).1 ++ inner level (sides values).2) := by
  rw [nesting]
  rfl

theorem nesting_length (level : Nat) (values : List Word) : (nesting level values).length = splits values := by
  induction values using splits.induct generalizing level with
  | case1 values left right =>
    have slice (piece : List Word) (ih : 1 < piece.length → ∀ level, (nesting level piece).length = splits piece) :
        (inner level piece).length = if 1 < piece.length then splits piece else 0 := by
      unfold inner
      split
      next long => exact ih long (level + 1)
      next => rfl
    rw [nesting_eq, splits, List.length_cons, List.length_append, slice _ left, slice _ right]
    omega

theorem splits_le (values : List Word) (long : 1 < values.length) : splits values ≤ values.length - 1 := by
  induction values using splits.induct with
  | case1 values left right =>
    have fewer := @sides_fewer values
    have lengths : (sides values).1.length + (sides values).2.length ≤ values.length := slices_length _ values
    rw [splits]
    split <;> split <;> omega

theorem nesting_le (level : Nat) (values : List Word) (long : 1 < values.length) :
    ∀ deep ∈ nesting level values, deep ≤ level + (values.length - 2) := by
  induction values using splits.induct generalizing level with
  | case1 values left right =>
    have slice (piece : List Word) (fewer : 1 < piece.length → piece.length < values.length)
        (ih : 1 < piece.length → ∀ level, 1 < piece.length →
          ∀ deep ∈ nesting level piece, deep ≤ level + (piece.length - 2)) :
        ∀ deep ∈ inner level piece, deep ≤ level + (values.length - 2) := by
      intro deep member
      unfold inner at member
      split at member
      next some_ =>
        have shallow := ih some_ (level + 1) some_ deep member
        have shorter := fewer some_
        omega
      next => cases member
    rw [nesting_eq]
    intro deep member
    rw [List.mem_cons, List.mem_append] at member
    rcases member with here | inLeft | inRight
    · omega
    · exact slice _ (fun some_ => (sides_fewer (Or.inl (by omega))).1) left deep inLeft
    · exact slice _ (fun some_ => (sides_fewer (Or.inr (by omega))).2) right deep inRight

def deepest (levels : List Nat) : Nat := levels.foldr max 0

theorem deepest_concat (levels : List Nat) (level : Nat) : deepest (levels ++ [level]) = max level (deepest levels) := by
  induction levels with
  | nil => rfl
  | cons first levels ih =>
    change max first (deepest (levels ++ [level])) = max level (max first (deepest levels))
    rw [ih]
    omega

theorem le_deepest {levels : List Nat} {level : Nat} (member : level ∈ levels) : level ≤ deepest levels := by
  induction levels with
  | nil => cases member
  | cons first levels ih =>
    cases List.mem_cons.mp member with
    | inl here => exact here ▸ le_max_left first (deepest levels)
    | inr later => exact (ih later).trans (le_max_right first (deepest levels))

theorem deepest_mem {levels : List Nat} (some_ : levels ≠ []) : deepest levels ∈ levels := by
  induction levels with
  | nil => exact absurd rfl some_
  | cons first levels ih =>
    by_cases last : levels = []
    · subst last
      exact List.mem_singleton.mpr (Nat.max_zero first)
    · change max first (deepest levels) ∈ first :: levels
      rcases max_choice first (deepest levels) with here | later
      · rw [here]
        exact List.mem_cons_self
      · rw [later]
        exact List.mem_cons_of_mem first (ih last)

theorem deepest_le {levels : List Nat} {bound : Nat} (below : ∀ level ∈ levels, level ≤ bound) : deepest levels ≤ bound := by
  induction levels with
  | nil => exact Nat.zero_le bound
  | cons first levels ih =>
    obtain ⟨here, others⟩ := List.forall_mem_cons.mp below
    exact max_le here (ih others)

/-! The counters. -/

structure Entered (state : Debug) (level : Nat) : Prop where
  depth : state.depth = level
  depthMax : state.depthMax = (max level (deepest state.calls) : Nat)
  numSplit : state.numSplit = state.calls.length
  nested : level ≤ state.calls.length

structure Counted (state : Debug) (level : Nat) : Prop where
  depth : state.depth = level
  depthMax : state.depthMax = deepest state.calls
  numSplit : state.numSplit = state.calls.length
  nested : level < state.calls.length
  fits : state.calls.length < 2 ^ 31

structure Ended (state : Debug) (level : Nat) : Prop where
  depth : state.depth = level - 1
  depthMax : state.depthMax = deepest state.calls
  numSplit : state.numSplit = state.calls.length
  fits : state.calls.length < 2 ^ 31

theorem Counted.descend {state : Debug} {level : Nat} (counted : Counted state level) :
    ∃ next, state.descend = some next ∧ next.heap = state.heap ∧ next.calls = state.calls ∧ Entered next (level + 1) := by
  obtain ⟨depth, depthMax, numSplit, nested, fits⟩ := counted
  have deeper : addInt state.depth 1 = some ((level + 1 : Nat) : Int) := by
    rw [addInt_eq (by omega) (by omega), depth]
    rfl
  rw [Debug.descend, deeper]
  refine ⟨_, rfl, rfl, rfl, rfl, ?_, numSplit, nested⟩
  simp only [depthMax]
  split <;> omega

theorem Entered.split {state : Debug} {level : Nat} (entered : Entered state level)
    (fits : state.calls.length + 1 < 2 ^ 31) (heap : Heap Word) :
    ∃ numSplit, addInt state.numSplit 1 = some numSplit ∧
      Counted { state with heap, numSplit, calls := state.calls ++ [level] } level := by
  obtain ⟨depth, depthMax, numSplit, nested⟩ := entered
  refine ⟨state.numSplit + 1, addInt_eq (by omega) (by omega), ?_⟩
  constructor
  · exact depth
  · rw [depthMax, deepest_concat]
  · rw [numSplit, List.length_append]
    rfl
  · rw [List.length_append, List.length_singleton]
    omega
  · rwa [List.length_append, List.length_singleton]

theorem Counted.ends {state : Debug} {level : Nat} (counted : Counted state level) :
    ∃ depth, addInt state.depth (-1) = some depth ∧ Ended { state with depth } level := by
  obtain ⟨depth, depthMax, numSplit, nested, fits⟩ := counted
  refine ⟨level - 1, ?_, rfl, depthMax, numSplit, fits⟩
  rw [depth]
  exact addInt_eq (by omega) (by omega)

/-- What has become of a run that was to add `levels` to the calls and to sort a slice: nothing, for want of fuel or of
an `int` that counts so many calls, or it has ended so. -/
def Counts (run : Option Debug) (before : Debug) (levels : List Nat) (start : Int) (piece : List Word)
    (counters : Debug → Prop) (enough : Prop) : Prop :=
  (run = none ∧ ((before.calls ++ levels).length < 2 ^ 31 → ¬enough)) ∨
    ∃ after sorted, run = some after ∧ after.calls = before.calls ++ levels ∧ counters after ∧
      SliceSorted before.heap after.heap start piece sorted

theorem slice_counts {fuel level : Nat} {state : Debug} {start : Int} {piece : List Word} (call : Prop) [Decidable call]
    (called : call ↔ 1 < piece.length) (counted : Counted state level) (held : state.heap.Holds start piece)
    (ih : 1 < piece.length → ∀ next, Entered next (level + 1) → next.heap.Holds start piece →
      Counts (Debug.qsRecsv fuel (level + 1) next start piece.length) next (nesting (level + 1) piece) start piece
        (Ended · (level + 1)) (piece.length < fuel)) :
    Counts
      (if call then state.descend.bind fun next => Debug.qsRecsv fuel (level + 1) next start piece.length else some state)
      state (inner level piece) start piece (Counted · level) (piece.length < fuel) := by
  by_cases made : call
  · obtain ⟨next, entered, sameHeap, sameCalls, begun⟩ := counted.descend
    rw [if_pos made, entered, Option.bind_some, inner, if_pos (called.mp made)]
    rcases ih (called.mp made) next begun (sameHeap ▸ held) with ⟨nothing, lacks⟩ | ⟨after, sorted, ran, calls, ended, done⟩
    · exact Or.inl ⟨nothing, sameCalls ▸ lacks⟩
    · rw [sameCalls] at calls
      rw [sameHeap] at done
      have nested := counted.nested
      refine Or.inr ⟨after, sorted, ran, calls, ?_, done⟩
      constructor
      · rw [ended.depth]
        omega
      · exact ended.depthMax
      · exact ended.numSplit
      · rw [calls, List.length_append]
        omega
      · exact ended.fits
  · have short : ¬1 < piece.length := fun long => made (called.mpr long)
    rw [if_neg made, inner, if_neg short]
    exact Or.inr ⟨state, piece, rfl, (List.append_nil _).symm, counted, held, List.Perm.refl _,
      short_ascending piece (by omega), fun _ _ => rfl⟩

theorem Debug.qsRecsv_counts (fuel level : Nat) (state : Debug) (array : Int) (values : List Word)
    (nonempty : 0 < values.length) (entered : Entered state level) (held : state.heap.Holds array values) :
    Counts (Debug.qsRecsv fuel level state array values.length) state (nesting level values) array values
      (Ended · level) (values.length < fuel) := by
  induction fuel generalizing level state array values with
  | zero => exact Or.inl ⟨rfl, fun _ => Nat.not_lt_zero _⟩
  | succ fuel ih =>
    obtain ⟨occurs, loaded⟩ := load_first held nonempty
    by_cases fits : state.calls.length + 1 < 2 ^ 31
    case neg =>
      have full : addInt state.numSplit 1 = none := if_neg (by rw [entered.numSplit]; omega)
      refine Or.inl ⟨?_, fun short => ?_⟩
      · simp only [Debug.qsRecsv, loaded, Debug.scalarPartitionEpi32, full, Option.bind_eq_bind, Option.bind_some,
          Option.bind_none]
      · rw [nesting_eq, List.length_append, List.length_cons] at short
        omega
    obtain ⟨bounds, middle, run, partitioned⟩ := scalarPartitionEpi32_slices occurs held
    obtain ⟨pieces, perm, leftEnd, rightStart, low, equal, high, short, leftFewer, rightFewer, frame⟩ := partitioned
    obtain ⟨numSplit, incremented, begun⟩ := entered.split fits bounds.heap
    rw [nesting_eq, sides]
    generalize (slices (values.headD 0) values).1 = left at *
    generalize (slices (values.headD 0) values).2 = right at *
    have total := perm.length_eq
    simp only [List.length_append] at total rightStart
    have heldLeft := (Heap.holds_append.mp (Heap.holds_append.mp pieces).1).1
    have countsLeft := slice_counts (array < bounds.newLBound) (by omega) begun heldLeft
      fun long next ready there => ih (level + 1) next array left (by omega) ready there
    rw [show left.length = (bounds.newLBound + 1 - array).toNat by omega] at countsLeft
    rcases countsLeft with ⟨nothing, lacks⟩ | ⟨state1, sortedLeft, run1, calls1, counted1, done1⟩
    · refine Or.inl ⟨?_, fun short enough => lacks ?_ (by omega)⟩
      · simp only [Debug.qsRecsv, loaded, Debug.scalarPartitionEpi32, incremented, run, nothing, Option.bind_eq_bind,
          Option.bind_some, Option.bind_none]
      · simp only [List.length_append, List.length_cons, List.length_nil] at short ⊢
        omega
    have heldRight := right_untouched pieces done1.frame
    have countsRight := slice_counts (bounds.newRBound < array + values.length - 1) (by omega) counted1 heldRight
      fun long next ready there => ih (level + 1) next _ right (by omega) ready there
    rw [show right.length = (array + values.length - 1 + 1 - bounds.newRBound).toNat by omega, rightStart] at countsRight
    rcases countsRight with ⟨nothing, lacks⟩ | ⟨state2, sortedRight, run2, calls2, counted2, done2⟩
    · refine Or.inl ⟨?_, fun short enough => lacks ?_ (by omega)⟩
      · simp only [Debug.qsRecsv, loaded, Debug.scalarPartitionEpi32, incremented, run, run1, nothing, Option.bind_eq_bind,
          Option.bind_some, Option.bind_none]
      · rw [calls1]
        simp only [List.length_append, List.length_cons, List.length_nil] at short ⊢
        omega
    obtain ⟨depth, last, ended⟩ := counted2.ends
    rw [← rightStart] at done2
    refine Or.inr ⟨_, _, ?_, ?_, ended, done1.join pieces perm frame low equal high short done2⟩
    · simp only [Debug.qsRecsv, loaded, Debug.scalarPartitionEpi32, incremented, run, run1, run2, last, Option.bind_eq_bind,
        Option.bind_some]
    · rw [calls2, calls1, List.append_assoc, List.append_assoc]
      rfl

theorem Ended.ext {first second : Debug} {level : Nat} (done : Ended first level) (done' : Ended second level)
    (heap : first.heap = second.heap) (calls : first.calls = second.calls) : first = second := by
  cases first
  cases second
  obtain ⟨depth, depthMax, numSplit, _⟩ := done
  obtain ⟨depth', depthMax', numSplit', _⟩ := done'
  simp only at *
  subst heap calls
  rw [depth, depthMax, numSplit, depth', depthMax', numSplit']

theorem entered_start (heap : Heap Word) : Entered (Debug.start heap) 0 := ⟨rfl, rfl, rfl, le_rfl⟩

/-- With the counters, `qs_recsv` ends as it does without them, `numSplit` the number of its activations and `depthMax`
how deep they are nested at most, exactly if the array is split less than 2^31 times. -/
theorem Debug.qsRecsv_counts_iff (heap : Heap Word) (array : Int) (values : List Word) (long : 2 ≤ values.length)
    (held : heap.Holds array values) :
    (∃ final, (∀ fuel, values.length < fuel →
        Debug.qsRecsv fuel 0 (Debug.start heap) array values.length = some final ∧
          SortSpeed.qsRecsv fuel heap array values.length = some final.heap) ∧
      final.numSplit = final.calls.length ∧ final.numSplit ≤ values.length - 1 ∧
      (∀ level ∈ final.calls, (level : Int) ≤ final.depthMax) ∧ (∃ level ∈ final.calls, final.depthMax = level) ∧
      final.depthMax ≤ values.length - 2) ↔
      splits values < 2 ^ 31 := by
  have counts (fuel : Nat) := Debug.qsRecsv_counts fuel 0 (Debug.start heap) array values (by omega) (entered_start heap) held
  have whole : (Debug.start heap).calls ++ nesting 0 values = nesting 0 values := List.nil_append _
  simp only [Counts, whole, nesting_length] at counts
  constructor
  · intro ⟨final, runs, _⟩
    obtain ⟨run, -⟩ := runs (values.length + 1) (Nat.lt_succ_self _)
    rcases counts (values.length + 1) with ⟨nothing, -⟩ | ⟨after, sorted, ran, calls, ended, -⟩
    · rw [nothing] at run
      cases run
    · have fits := ended.fits
      rwa [calls, nesting_length] at fits
  · intro fits
    have returns (fuel : Nat) (enough : values.length < fuel) := (counts fuel).resolve_left fun lacks => lacks.2 fits enough
    obtain ⟨final, sorted, -, calls, ended, done⟩ := returns (values.length + 1) (Nat.lt_succ_self _)
    have number := splits_le values long
    have shallow := deepest_le (nesting_le 0 values long)
    have some_ : final.calls ≠ [] := by
      rw [calls, nesting_eq]
      exact List.cons_ne_nil _ _
    refine ⟨final, fun fuel enough => ⟨?_, ?_⟩, ended.numSplit, ?_, fun level member => ?_, ?_, ?_⟩
    · obtain ⟨other, sorted', run, calls', ended', done'⟩ := returns fuel enough
      rw [run, ended'.ext ended (done.unique done') (calls'.trans calls.symm)]
    · obtain ⟨other, sorted', run, done'⟩ := SortSpeed.qsRecsv_spec fuel heap array values (by omega) enough held
      rw [run, done.unique done']
    · rw [ended.numSplit, calls, nesting_length]
      omega
    · rw [ended.depthMax]
      exact Int.ofNat_le.mpr (le_deepest member)
    · exact ⟨_, deepest_mem some_, ended.depthMax⟩
    · rw [ended.depthMax, calls]
      omega

theorem Debug.qsRecsv_counts_iff_three :
    (∃ final, (∀ fuel, 3 < fuel →
        Debug.qsRecsv fuel 0 (Debug.start (Heap.splice Heap.empty 0 [2, 3, 1])) 0 3 = some final ∧
          SortSpeed.qsRecsv fuel (Heap.splice Heap.empty 0 [2, 3, 1]) 0 3 = some final.heap) ∧
      final.numSplit = final.calls.length ∧ final.numSplit ≤ 3 - 1 ∧
      (∀ level ∈ final.calls, (level : Int) ≤ final.depthMax) ∧ (∃ level ∈ final.calls, final.depthMax = level) ∧
      final.depthMax ≤ 3 - 2) ↔
      splits [2, 3, 1] < 2 ^ 31 :=
  Debug.qsRecsv_counts_iff (Heap.splice Heap.empty 0 [2, 3, 1]) 0 [2, 3, 1] (by decide) Heap.holds_splice_self

theorem splits_lt {values : List Word} (long : 2 ≤ values.length) (small : values.length ≤ 2 ^ 31) :
    splits values < 2 ^ 31 := by
  have number := splits_le values long
  omega

theorem splits_replicate (value : Word) (height : Nat) :
    splits (List.replicate (2 ^ (height + 1)) value) = 2 ^ (height + 1) - 1 := by
  have divided (height : Nat) : sides (List.replicate (2 ^ (height + 1)) value) =
      (List.replicate (2 ^ height) value, List.replicate (2 ^ height) value) := by
    have first : (List.replicate (2 ^ (height + 1)) value).headD 0 = value := by
      rw [List.headD_eq_head?_getD, List.head?_replicate, if_neg (Nat.two_pow_pos (height + 1)).ne', Option.getD_some]
    rw [sides, first, slices_replicate, Nat.pow_succ, Nat.mul_div_cancel _ Nat.zero_lt_two]
  induction height with
  | zero =>
    rw [splits, divided]
    rfl
  | succ height ih =>
    have long : 1 < 2 ^ (height + 1) := Nat.one_lt_two_pow (Nat.succ_ne_zero height)
    rw [splits, divided, List.length_replicate, if_pos long, ih, Nat.pow_succ 2 (height + 1)]
    omega

/-- 2^32 equal elements are split 2^32 - 1 times, which `numSplit` cannot count. -/
theorem Debug.numSplit_overflows :
    2 ≤ (List.replicate (2 ^ 32) (0 : Word)).length ∧
      ∃ heap : Heap Word, heap.Holds 0 (List.replicate (2 ^ 32) 0) ∧
        ∀ fuel, Debug.qsRecsv fuel 0 (Debug.start heap) 0 (2 ^ 32) = none := by
  have size : (List.replicate (2 ^ 32) (0 : Word)).length = 2 ^ 32 := List.length_replicate
  have number : splits (List.replicate (2 ^ 32) 0) = 2 ^ 32 - 1 := splits_replicate 0 31
  refine ⟨by rw [size]; decide, Heap.splice Heap.empty 0 (List.replicate (2 ^ 32) 0), Heap.holds_splice_self, fun fuel => ?_⟩
  have counts := Debug.qsRecsv_counts fuel 0 (Debug.start (Heap.splice Heap.empty 0 (List.replicate (2 ^ 32) 0))) 0
    (List.replicate (2 ^ 32) 0) (by rw [size]; decide) (entered_start _) Heap.holds_splice_self
  rw [size] at counts
  rcases counts with ⟨nothing, -⟩ | ⟨after, sorted, -, calls, ended, -⟩
  · exact nothing
  · have fits := ended.fits
    rw [calls, List.length_append, nesting_length, number] at fits
    exact absurd fits (by decide)

end Mbench.SortSpeed
