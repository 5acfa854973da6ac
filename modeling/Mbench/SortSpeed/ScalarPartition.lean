import Mbench.SortSpeed.IppSortDemo

/-! What `scalar_partition_epi32` leaves: in `sortSpeed.cpp` and `sortSpeed_improved_v1.cpp`, which have it in the same
words, and in `ippSortDemo.cpp`, where it moves `int` indices. -/

namespace Mbench.SortSpeed
open Library

/-- The cells `lo` to `hi` partitioned around a pivot, and nothing else changed. -/
structure PartedAround (pivot : Word) (heap final : Heap Word) (lo hi : Int) (values : List Word)
    (newRBound newLBound : Int) : Prop where
  permuted : ∃ result, final.Holds lo result ∧ result.Perm values
  frame : ∀ cell, Outside cell lo values.length → final cell = heap cell
  crossed : newRBound - newLBound = 1 ∨ newRBound - newLBound = 2
  right : lo + 1 ≤ newRBound
  left : newLBound ≤ hi - 1
  low : ∀ cell value, lo ≤ cell → cell ≤ newLBound → final cell = some value → value ≤ pivot
  high : ∀ cell value, newRBound ≤ cell → cell ≤ hi → final cell = some value → pivot ≤ value
  between : newRBound - newLBound = 2 → final (newLBound + 1) = some pivot

section
variable {heap other : Heap Word} {lo hi : Int} {pivot : Word} {values middle middle' : List Word} {final final' : Bounds}

theorem Partitioned.parted (partitioned : Partitioned heap lo pivot values middle final)
    (size : hi + 1 = lo + values.length) :
    PartedAround pivot heap final.heap lo hi values final.newRBound final.newLBound := by
  obtain ⟨held, perm, leftEnd, rightStart, low, equal, high, short, leftFewer, rightFewer, frame⟩ := partitioned
  have total := perm.length_eq
  have pieces := held
  rw [Heap.holds_append, Heap.holds_append] at pieces
  obtain ⟨⟨heldLeft, heldMiddle⟩, heldRight⟩ := pieces
  rw [rightStart] at heldRight
  simp only [List.length_append] at total rightStart
  constructor
  · exact ⟨_, held, perm⟩
  · exact frame
  · omega
  · omega
  · omega
  · intro cell value from_ upto found
    exact low value (heldLeft.mem_of_cell from_ (by omega) found)
  · intro cell value from_ upto found
    exact high value (heldRight.mem_of_cell from_ (by omega) found)
  · intro gap
    match middle, equal with
    | [], _ =>
      simp only [List.length_nil] at rightStart
      omega
    | first :: _, equal =>
      rw [← leftEnd, (Heap.holds_cons.mp heldMiddle).1, equal first List.mem_cons_self]

theorem Partitioned.unique (first : Partitioned heap lo pivot values middle final)
    (second : Partitioned other lo pivot values middle' final') :
    middle' = middle ∧ final'.newRBound = final.newRBound ∧ final'.newLBound = final.newLBound := by
  have total := first.perm.length_eq
  have total' := second.perm.length_eq
  have leftEnd := first.leftEnd
  have leftEnd' := second.leftEnd
  have rightStart := first.rightStart
  have rightStart' := second.rightStart
  simp only [List.length_append] at total total' rightStart rightStart'
  refine ⟨?_, by omega, by omega⟩
  rw [List.eq_replicate_of_mem first.equal, List.eq_replicate_of_mem second.equal]
  congr 1
  omega

theorem Partitioned.eq (first : Partitioned heap lo pivot values middle final)
    (second : Partitioned heap lo pivot values middle' final') : final' = final := by
  obtain ⟨same, right, left⟩ := first.unique second
  have held := second.held
  have length := first.perm.length_eq
  rw [same] at held
  have heaps : final'.heap = final.heap := first.held.eq_of_outside held fun cell outside => by
    rw [length] at outside
    rw [second.frame cell outside, first.frame cell outside]
  cases final
  cases final'
  simp only at heaps right left
  rw [heaps, right, left]

theorem Partitioned.only (first : Partitioned heap lo pivot values middle final)
    (second : Partitioned (heap.only lo values.length) lo pivot values middle' final') :
    final' = { final with heap := final.heap.only lo values.length } := by
  obtain ⟨same, right, left⟩ := first.unique second
  have held := second.held
  have length := first.perm.length_eq
  rw [same] at held
  have heaps : final'.heap = final.heap.only lo values.length := by
    rw [← length]
    exact first.held.only_eq held fun cell outside =>
      (second.frame cell (by rwa [← length])).trans (Heap.only_outside (by rwa [← length]))
  cases final'
  simp only at heaps right left
  rw [heaps, right, left]

theorem scalarPartitionEpi32_parted (size : hi + 1 = lo + values.length) (held : heap.Holds lo values)
    (occurs : pivot ∈ values) :
    ∃ middle final, Partitioned heap lo pivot values middle final ∧ ∀ fuel, values.length < fuel →
      scalarPartitionEpi32 fuel pivot { heap, newRBound := lo, newLBound := hi } = some final ∧
        scalarPartitionEpi32 fuel pivot { heap := heap.only lo values.length, newRBound := lo, newLBound := hi } =
          some { final with heap := final.heap.only lo values.length } := by
  have last : hi = lo + values.length - 1 := by omega
  subst last
  obtain ⟨final, middle, -, partitioned⟩ := scalarPartitionEpi32_slices occurs held
  refine ⟨middle, final, partitioned, fun fuel enough => ⟨?_, ?_⟩⟩
  · obtain ⟨other, _, run, again⟩ := scalarPartitionEpi32_partitioned fuel enough occurs held
    rw [run, partitioned.eq again]
  · obtain ⟨other, _, run, again⟩ := scalarPartitionEpi32_partitioned fuel enough occurs held.only
    rw [run, partitioned.only again]

/-! The indices. -/

/-- The pivot is in its place among the others, at the greatest or at the least `int`. -/
def AtEdge (lo : Int) (pivot : Word) (values : List Word) : Prop :=
  ∃ front back, values = front ++ [pivot] ++ back ∧ (∀ value ∈ front, value < pivot) ∧ (∀ value ∈ back, pivot < value) ∧
    (lo + front.length = 2 ^ 31 - 1 ∨ lo + front.length = -2 ^ 31)

theorem AtEdge.overflows {array : Int} {fuel : Nat} (edge : AtEdge lo pivot values) (low : -2 ^ 31 ≤ lo) (high : hi < 2 ^ 31)
    (size : hi + 1 = lo + values.length) (held : heap.Holds (array + lo) values) (enough : values.length < fuel) :
    IppSortDemo.scalarPartitionEpi32 fuel array pivot { heap, left := lo, right := hi } = none := by
  obtain ⟨front, back, rfl, below, above, last⟩ := edge
  have trimmed : Passed pivot front [pivot] back := by
    constructor
    · exact fun value member => decide_eq_true (below value member)
    · exact fun value member => decide_eq_true (above value member)
    · exact fun value member => apart pivot value (decide_eq_true (above value member))
    · exact fun value first => by simp [← Option.some.inj first]
    · exact fun value last => by simp [← Option.some.inj last]
  have whole : heap.Holds (array + lo) ([] ++ (front ++ [pivot] ++ back) ++ []) := by rwa [List.nil_append, List.append_nil]
  obtain ⟨scannedRight, scannedLeft⟩ := scans_trimmed fuel whole trimmed (Or.inl (by simp)) enough
  simp only [List.length_append, List.length_cons, List.length_nil] at size enough scannedRight scannedLeft
  have right := IppSortDemo.scanRight_of_bound (show -2 ^ 31 ≤ array + lo + (0 : Nat) - array by omega) (by omega) scannedRight
  have left := IppSortDemo.scanLeft_of_bound (show -2 ^ 31 ≤ array + lo + (0 : Nat) + front.length + (0 + 1 : Nat) - 1 - array by
    omega) (by omega) scannedLeft
  rw [show array + lo + ((0 : Nat) : Int) - array = lo by omega,
    show array + lo + ((0 : Nat) : Int) + front.length - array = lo + front.length by omega] at right
  rw [show array + lo + ((0 : Nat) : Int) + ((front.length + (0 + 1) + back.length : Nat) : Int) - 1 - array = hi by omega,
    show array + lo + ((0 : Nat) : Int) + front.length + ((0 + 1 : Nat) : Int) - 1 - array = lo + front.length by omega] at left
  have step : IppSortDemo.partitionStep fuel array pivot { heap, left := lo, right := hi } = none := by
    simp only [IppSortDemo.partitionStep, right, left, Option.bind_eq_bind, Option.bind_some, le_refl, if_true]
    cases last with
    | inl top =>
      have full : addInt (lo + front.length) 1 = none := if_neg (by omega)
      simp only [full, Option.bind_none, Option.bind_fun_none]
    | inr bottom =>
      have full : addInt (lo + front.length) (-1) = none := if_neg (by omega)
      simp only [full, Option.bind_none, Option.bind_fun_none]
  obtain ⟨fuel, rfl⟩ := Nat.exists_eq_succ_of_ne_zero (Nat.ne_zero_of_lt enough)
  have open_ : lo ≤ hi := by omega
  rw [IppSortDemo.scalarPartitionEpi32, whileLoop]
  simp only [open_, decide_true, Option.bind_eq_bind, Option.bind_some, if_true, step, Option.bind_none]

theorem Partitioned.fits {array : Int} (partitioned : Partitioned heap (array + lo) pivot values middle final)
    (occurs : pivot ∈ values) (low : -2 ^ 31 ≤ lo) (high : hi < 2 ^ 31) (size : hi + 1 = lo + values.length)
    (inside : ¬AtEdge lo pivot values) : final.newRBound - array < 2 ^ 31 ∧ -2 ^ 31 ≤ final.newLBound - array := by
  have leftEnd := partitioned.leftEnd
  have rightStart := partitioned.rightStart
  have total := partitioned.perm.length_eq
  simp only [List.length_append] at rightStart total
  by_contra exceeds
  have nothing : (slices pivot values).1 = [] ∨ (slices pivot values).2 = [] := by
    rcases Nat.eq_zero_or_pos (slices pivot values).1.length with none_ | some_
    · exact Or.inl (List.eq_nil_of_length_eq_zero none_)
    · exact Or.inr (List.eq_nil_of_length_eq_zero (by omega))
  obtain ⟨front, core, back, rfl, trimmed, short, sides⟩ := twoScans_nil_cases (apart pivot) values nothing
  have same : slices pivot (front ++ core ++ back) = (front, back) := sides
  have below (value : Word) (member : value ∈ front) : value < pivot := of_decide_eq_true (trimmed.passedFront value member)
  have above (value : Word) (member : value ∈ back) : pivot < value := of_decide_eq_true (trimmed.passedBack value member)
  have alone : core = [pivot] := by
    rw [List.mem_append, List.mem_append] at occurs
    rcases occurs with (early | here) | late
    · exact absurd (below pivot early) (BitVec.lt_irrefl pivot)
    · obtain ⟨value, rfl⟩ := List.length_eq_one_iff.mp (le_antisymm short (List.length_pos_of_mem here))
      rw [List.mem_singleton.mp here]
    · exact absurd (above pivot late) (BitVec.lt_irrefl pivot)
  subst alone
  apply inside
  refine ⟨front, back, rfl, below, above, ?_⟩
  simp only [same, List.length_append, List.length_cons, List.length_nil] at leftEnd rightStart total size
  omega

end

/-- `scalar_partition_epi32` returns, moves its bounds past each other and parts the elements between them around any
pivot that is one of them; it does the same where nothing else is allocated, so that no access is to a cell outside. On
`int` indices it does so exactly if the pivot is not in its place at the greatest or at the least `int`. -/
theorem scalarPartitionEpi32_parts_iff (heap : Heap Word) (array lo hi : Int) (values : List Word) (pivot : Word)
    (size : hi + 1 = lo + values.length) (held : heap.Holds (array + lo) values) (occurs : pivot ∈ values) :
    (∃ final : Bounds,
      PartedAround pivot heap final.heap (array + lo) (array + hi) values final.newRBound final.newLBound ∧
      ∀ fuel, values.length < fuel →
        scalarPartitionEpi32 fuel pivot { heap, newRBound := array + lo, newLBound := array + hi } = some final ∧
          scalarPartitionEpi32 fuel pivot
              { heap := heap.only (array + lo) values.length, newRBound := array + lo, newLBound := array + hi } =
            some { final with heap := final.heap.only (array + lo) values.length }) ∧
    (IsInt lo → IsInt hi →
      ((∃ final : IppSortDemo.Indices,
        PartedAround pivot heap final.heap (array + lo) (array + hi) values (array + final.left) (array + final.right) ∧
        ∀ fuel, values.length < fuel →
          IppSortDemo.scalarPartitionEpi32 fuel array pivot { heap, left := lo, right := hi } = some final ∧
            IppSortDemo.scalarPartitionEpi32 fuel array pivot
                { heap := heap.only (array + lo) values.length, left := lo, right := hi } =
              some { final with heap := final.heap.only (array + lo) values.length }) ↔
        ¬AtEdge lo pivot values)) := by
  have size' : array + hi + 1 = array + lo + values.length := by omega
  obtain ⟨middle, final, partitioned, runs⟩ := scalarPartitionEpi32_parted size' held occurs
  refine ⟨⟨final, partitioned.parted size', runs⟩, fun low high => ⟨?_, fun inside => ?_⟩⟩
  · intro ⟨final, _, runs⟩ edge
    have nothing := edge.overflows low.1 high.2 size held (Nat.lt_succ_self _)
    rw [(runs (values.length + 1) (Nat.lt_succ_self _)).1] at nothing
    cases nothing
  · obtain ⟨fitsRight, fitsLeft⟩ := partitioned.fits occurs low.1 high.2 size inside
    have moves (start other : Heap Word) (fuel : Nat)
        (run : scalarPartitionEpi32 fuel pivot { heap := start, newRBound := array + lo, newLBound := array + hi } =
          some { final with heap := other }) :
        IppSortDemo.scalarPartitionEpi32 fuel array pivot { heap := start, left := lo, right := hi } =
          some { heap := other, left := final.newRBound - array, right := final.newLBound - array } := by
      have moved := IppSortDemo.scalarPartitionEpi32_of_bounds (show -2 ^ 31 ≤ array + lo - array by omega)
        (show array + hi - array < 2 ^ 31 by omega)
        (show ({ final with heap := other } : Bounds).newRBound - array < 2 ^ 31 from fitsRight) fitsLeft run
      rwa [IppSortDemo.indicesOf, show array + lo - array = lo by ring, show array + hi - array = hi by ring] at moved
    refine ⟨IppSortDemo.indicesOf array final, ?_, fun fuel enough => ?_⟩
    · have parted := partitioned.parted size'
      rwa [show final.newRBound = array + (final.newRBound - array) by ring,
        show final.newLBound = array + (final.newLBound - array) by ring] at parted
    · obtain ⟨run, runOnly⟩ := runs fuel enough
      exact ⟨moves heap final.heap fuel run, moves _ _ fuel runOnly⟩

theorem scalarPartitionEpi32_parts_iff_three :
    (∃ final : Bounds,
      PartedAround 2 (Heap.splice Heap.empty (0 + 1) [2, 3, 1]) final.heap (0 + 1) (0 + 3) [2, 3, 1] final.newRBound
        final.newLBound ∧
      ∀ fuel, 3 < fuel →
        scalarPartitionEpi32 fuel 2
            { heap := Heap.splice Heap.empty (0 + 1) [2, 3, 1], newRBound := 0 + 1, newLBound := 0 + 3 } = some final ∧
          scalarPartitionEpi32 fuel 2
              { heap := (Heap.splice Heap.empty (0 + 1) [2, 3, 1]).only (0 + 1) 3, newRBound := 0 + 1, newLBound := 0 + 3 } =
            some { final with heap := final.heap.only (0 + 1) 3 }) ∧
    (IsInt 1 → IsInt 3 →
      ((∃ final : IppSortDemo.Indices,
        PartedAround 2 (Heap.splice Heap.empty (0 + 1) [2, 3, 1]) final.heap (0 + 1) (0 + 3) [2, 3, 1] (0 + final.left)
          (0 + final.right) ∧
        ∀ fuel, 3 < fuel →
          IppSortDemo.scalarPartitionEpi32 fuel 0 2
              { heap := Heap.splice Heap.empty (0 + 1) [2, 3, 1], left := 1, right := 3 } = some final ∧
            IppSortDemo.scalarPartitionEpi32 fuel 0 2
                { heap := (Heap.splice Heap.empty (0 + 1) [2, 3, 1]).only (0 + 1) 3, left := 1, right := 3 } =
              some { final with heap := final.heap.only (0 + 1) 3 }) ↔
        ¬AtEdge 1 2 [2, 3, 1])) :=
  scalarPartitionEpi32_parts_iff (Heap.splice Heap.empty (0 + 1) [2, 3, 1]) 0 1 3 [2, 3, 1] 2 (by decide)
    Heap.holds_splice_self (by decide)

/-- On the one element with the greatest index the partition ends in a sum that is no `int`. -/
theorem IppSortDemo.scalarPartition_overflows :
    IsInt (2 ^ 31 - 1) ∧
      ∃ heap : Heap Word, heap.Holds (0 + (2 ^ 31 - 1)) [7] ∧
        ∀ fuel, 1 < fuel →
          IppSortDemo.scalarPartitionEpi32 fuel 0 7 { heap, left := 2 ^ 31 - 1, right := 2 ^ 31 - 1 } = none := by
  have edge : AtEdge (2 ^ 31 - 1) 7 [7] := ⟨[], [], rfl, by simp, by simp, Or.inl rfl⟩
  refine ⟨by decide, Heap.splice Heap.empty (0 + (2 ^ 31 - 1)) [7], Heap.holds_splice_self, fun fuel enough => ?_⟩
  exact edge.overflows (by decide) (by decide) (by decide) Heap.holds_splice_self enough

end Mbench.SortSpeed
