import Mbench.SortSpeed.PartitionSlices

/-! `qs_recsv` of `sortSpeed_improved_v1.cpp`. It has the partition of `sortSpeed.cpp`, but the sizes of
its recursive calls leave out the last element of either slice. -/

namespace Mbench.SortSpeed
open Library

/-- `qs_recsv`, with fuel for the depth of its recursion. -/
def ImprovedV1.qsRecsv : Nat → Heap Word → Int → Nat → Option (Heap Word)
  | 0, _, _, _ => none
  | fuel + 1, heap, array, nElem => do
      let lBound := array
      let rBound := array + nElem - 1
      let pivot ← heap.load array
      let bounds ← scalarPartitionEpi32 (nElem + 2) pivot { heap, newRBound := lBound, newLBound := rBound }
      let heap ←
        (if lBound < bounds.newLBound then
          ImprovedV1.qsRecsv fuel bounds.heap lBound (bounds.newLBound - lBound).toNat
        else some bounds.heap)
      if bounds.newRBound < rBound then
        ImprovedV1.qsRecsv fuel heap bounds.newRBound (rBound - bounds.newRBound).toNat
      else some heap

def LastGreatest (slice : List Word) : Prop := ∀ value ∈ slice.dropLast, value ≤ slice.getLastD 0

instance (slice : List Word) : Decidable (LastGreatest slice) :=
  List.decidableBAll (fun value => value ≤ slice.getLastD 0) slice.dropLast

/-- In the recursive division of a list around its first elements, every slice of two elements or more ends in its
greatest one, which is left out of the slice's own division. -/
def spared (values : List Word) : Bool :=
  (if 1 < (sides values).1.length then decide (LastGreatest (sides values).1) && spared (sides values).1.dropLast
    else true) &&
    if 1 < (sides values).2.length then decide (LastGreatest (sides values).2) && spared (sides values).2.dropLast
    else true
termination_by values.length
decreasing_by
  all_goals
    have lengths : (sides values).1.length + (sides values).2.length ≤ values.length := slices_length _ values
    rw [List.length_dropLast]
    omega

def Keeps (slice : List Word) : Prop := 1 < slice.length → LastGreatest slice ∧ spared slice.dropLast = true

theorem spared_iff (values : List Word) :
    spared values = true ↔ Keeps (sides values).1 ∧ Keeps (sides values).2 := by
  have slice (piece : List Word) :
      (if 1 < piece.length then decide (LastGreatest piece) && spared piece.dropLast else true) = true ↔ Keeps piece := by
    unfold Keeps
    by_cases long : 1 < piece.length
    · rw [if_pos long, Bool.and_eq_true, decide_eq_true_eq]
      exact ⟨fun both _ => both, fun both => both long⟩
    · rw [if_neg long]
      exact iff_of_true rfl fun impossible => absurd impossible long
  rw [spared, Bool.and_eq_true, slice, slice]

example : spared [3, 2, 1] = true ∧ spared [1, 3, 2] = false := by decide +kernel

/-- The state after a call on `values`, or on a slice without its last element: a permutation, ascending exactly
where `sorts`. -/
structure Rearranged (heap final : Heap Word) (array : Int) (values result : List Word) (sorts : Prop) : Prop where
  held : final.Holds array result
  perm : result.Perm values
  ascending : UnsignedAscending result ↔ sorts
  frame : ∀ cell, Outside cell array values.length → final cell = heap cell

theorem concat_ascending_iff {result front : List Word} {last : Word} (perm : result.Perm front) :
    UnsignedAscending (result ++ [last]) ↔ UnsignedAscending result ∧ ∀ value ∈ front, value ≤ last := by
  rw [UnsignedAscending, List.pairwise_append]
  constructor
  · intro ⟨ascending, _, below⟩
    exact ⟨ascending, fun value member => below value (perm.mem_iff.mpr member) last (List.mem_singleton_self last)⟩
  · intro ⟨ascending, below⟩
    refine ⟨ascending, List.pairwise_singleton _ _, fun value member other only => ?_⟩
    rw [List.mem_singleton.mp only]
    exact below value (perm.mem_iff.mp member)

theorem slice_rearranged (fuel : Nat) {heap : Heap Word} {start : Int} {piece : List Word} (call : Prop) [Decidable call]
    (called : call ↔ 1 < piece.length) (held : heap.Holds start piece)
    (sorts : ∀ front : List Word, 0 < front.length → front.length < piece.length → heap.Holds start front →
      ∃ final result, ImprovedV1.qsRecsv fuel heap start front.length = some final ∧
        Rearranged heap final start front result (spared front = true)) :
    ∃ final kept, (if call then ImprovedV1.qsRecsv fuel heap start (piece.length - 1) else some heap) = some final ∧
      Rearranged heap final start piece kept (Keeps piece) := by
  by_cases made : call
  · rw [if_pos made]
    have long := called.mp made
    rcases List.eq_nil_or_concat piece with rfl | ⟨front, last, same⟩
    · simp at long
    rw [List.concat_eq_append] at same
    subst same
    rw [List.length_append, List.length_singleton] at long ⊢
    obtain ⟨heldFront, heldLast⟩ := Heap.holds_append.mp held
    obtain ⟨final, result, ran, held', perm, ascending, frame⟩ := sorts front (by omega) (by simp) heldFront
    have length := perm.length_eq
    refine ⟨final, result ++ [last], ran, ?_, ?_, ?_, ?_⟩
    · rw [Heap.holds_append, length]
      exact ⟨held', heldLast.frame frame (by omega)⟩
    · exact perm.append_right [last]
    · rw [concat_ascending_iff perm, ascending, Keeps, LastGreatest, List.dropLast_concat, List.getLastD_concat]
      exact ⟨fun both _ => both.symm, fun both => (both (by simpa using long)).symm⟩
    · intro cell outside
      rw [List.length_append] at outside
      exact frame cell (by omega)
  · rw [if_neg made]
    have short : piece.length ≤ 1 := Nat.not_lt.mp fun long => made (called.mpr long)
    exact ⟨heap, piece, rfl, held, List.Perm.refl _, iff_of_true (short_ascending piece short)
      fun long => absurd long (by omega), fun _ _ => rfl⟩

theorem ImprovedV1.qsRecsv_spec (fuel : Nat) (heap : Heap Word) (array : Int) (values : List Word)
    (nonempty : 0 < values.length) (enough : values.length < fuel) (held : heap.Holds array values) :
    ∃ final result, ImprovedV1.qsRecsv fuel heap array values.length = some final ∧
      Rearranged heap final array values result (spared values = true) := by
  induction fuel generalizing heap array values with
  | zero => omega
  | succ fuel ih =>
    obtain ⟨occurs, loaded⟩ := load_first held nonempty
    obtain ⟨bounds, middle, run, partitioned⟩ := scalarPartitionEpi32_slices occurs held
    obtain ⟨pieces, perm, leftEnd, rightStart, low, equal, high, short, leftFewer, rightFewer, frame⟩ := partitioned
    rw [spared_iff, sides]
    generalize (slices (values.headD 0) values).1 = left at *
    generalize (slices (values.headD 0) values).2 = right at *
    have total := perm.length_eq
    simp only [List.length_append] at total rightStart
    have heldLeft := (Heap.holds_append.mp (Heap.holds_append.mp pieces).1).1
    obtain ⟨heap1, kept1, run1, held1, perm1, ascending1, frame1⟩ := slice_rearranged fuel (array < bounds.newLBound)
      (by omega) heldLeft fun front some_ fewer heldFront => ih bounds.heap array front some_ (by omega) heldFront
    have heldRight := right_untouched pieces frame1
    obtain ⟨heap2, kept2, run2, held2, perm2, ascending2, frame2⟩ := slice_rearranged fuel
      (bounds.newRBound < array + values.length - 1) (by omega) heldRight
      fun front some_ fewer heldFront => ih heap1 _ front some_ (by omega) heldFront
    obtain ⟨held', frame'⟩ := slices_recombined pieces held1 perm1.length_eq frame1 held2 frame2
    refine ⟨heap2, kept1 ++ middle ++ kept2, ?_, held', ?_, ?_, ?_⟩
    · rw [show left.length - 1 = (bounds.newLBound - array).toNat by omega] at run1
      rw [show right.length - 1 = (array + values.length - 1 - bounds.newRBound).toNat by omega, rightStart] at run2
      simp only [qsRecsv, loaded, run, run1, run2, Option.bind_eq_bind, Option.bind_some]
    · exact ((perm1.append (List.Perm.refl middle)).append perm2).trans perm
    · rw [← ascending1, ← ascending2]
      constructor
      · intro ascending
        obtain ⟨front, right_, _⟩ := List.pairwise_append.mp ascending
        exact ⟨(List.pairwise_append.mp front).1, right_⟩
      · intro ⟨leftAscending, rightAscending⟩
        exact slices_ascending perm1 leftAscending perm2 rightAscending low equal high short
    · intro cell outside
      exact (frame' cell (by rwa [perm.length_eq])).trans (frame cell outside)

/-- `qs_recsv` of the improved version returns with a permutation of the array. It is in ascending order, and what
`qs_recsv` of `sortSpeed.cpp` computes, exactly if every slice of two elements or more ends in its greatest one. -/
theorem ImprovedV1.qsRecsv_sorts_iff (fuel : Nat) (heap : Heap Word) (array : Int) (values : List Word)
    (nonempty : 1 ≤ values.length) (enough : values.length < fuel) (held : heap.Holds array values) :
    ∃ final result, ImprovedV1.qsRecsv fuel heap array values.length = some final ∧
      final.Holds array result ∧ result.Perm values ∧
      (∀ cell, Outside cell array values.length → final cell = heap cell) ∧
      (UnsignedAscending result ↔ spared values = true) ∧
      (SortSpeed.qsRecsv fuel heap array values.length = some final ↔ spared values = true) := by
  obtain ⟨final, result, run, done⟩ := qsRecsv_spec fuel heap array values nonempty enough held
  obtain ⟨other, sorted, run', done'⟩ := SortSpeed.qsRecsv_spec fuel heap array values nonempty enough held
  have length := done.perm.length_eq
  refine ⟨final, result, run, done.held, done.perm, done.frame, done.ascending, ?_⟩
  rw [← done.ascending, run', Option.some.injEq]
  constructor
  · intro agree
    have same : sorted = result := (agree ▸ done'.held).unique done.held (done'.perm.trans done.perm.symm).length_eq
    exact same ▸ done'.ascending
  · intro ascending
    have same : sorted = result := done'.ascending.unique ascending (done'.perm.trans done.perm.symm)
    refine done.held.eq_of_outside (same ▸ done'.held) fun cell outside => ?_
    rw [length] at outside
    rw [done'.frame cell outside, done.frame cell outside]

theorem ImprovedV1.qsRecsv_sorts_iff_three :
    ∃ final result, ImprovedV1.qsRecsv 4 (Heap.splice Heap.empty 0 [3, 2, 1]) 0 3 = some final ∧
      final.Holds 0 result ∧ result.Perm [3, 2, 1] ∧
      (∀ cell, Outside cell 0 3 → final cell = Heap.splice Heap.empty 0 [3, 2, 1] cell) ∧
      (UnsignedAscending result ↔ spared [3, 2, 1] = true) ∧
      (SortSpeed.qsRecsv 4 (Heap.splice Heap.empty 0 [3, 2, 1]) 0 3 = some final ↔ spared [3, 2, 1] = true) :=
  qsRecsv_sorts_iff 4 (Heap.splice Heap.empty 0 [3, 2, 1]) 0 [3, 2, 1] (by decide) (by decide) Heap.holds_splice_self

/-- Of three elements the right slice leaves out the last one, the least. -/
theorem ImprovedV1.qsRecsv_unsorted :
    (ImprovedV1.qsRecsv 4 (Heap.splice Heap.empty 0 [1, 3, 2]) 0 3).bind (fun final => final.read 0 3) = some [1, 3, 2] ∧
      ¬UnsignedAscending [1, 3, 2] ∧
      (SortSpeed.qsRecsv 4 (Heap.splice Heap.empty 0 [1, 3, 2]) 0 3).bind (fun final => final.read 0 3) =
        some [1, 2, 3] := by
  decide

end Mbench.SortSpeed
