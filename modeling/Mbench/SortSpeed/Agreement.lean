import Mbench.SortSpeed.QsRecsv
import Mbench.SortSpeed.MyQsort
import Mathlib.Data.BitVec

/-! The sorters that `main` runs as case 2 and case 3, on the same array: `qs_recsv`
compares unsigned elements, `my_qsort_AVX2` takes the same bytes as `int`. -/

namespace Mbench.SortSpeed
open Library

/-- Case 3 leaves the array of case 2 with the elements of 2^31 and above moved to the
front, so the two are equal exactly when no element or every element is one of these. -/
theorem myQsortAVX2_agrees_iff (heap : Heap Word) (array tmpArray : Int) (room : Nat) (values : List Word)
    (atLeast : 16 ≤ values.length) (small : values.length < 2 ^ 31)
    (held : heap.Holds array values) (allocated : heap.Allocated tmpArray room)
    (fits : values.length ≤ room)
    (disjoint : array + values.length ≤ tmpArray ∨ tmpArray + room ≤ array)
    (fuel : Nat) (enough : values.length < fuel) :
    ∃ case2 case3 sorted, qsRecsv fuel heap array values.length = some case2 ∧
      myQsortAVX2 fuel heap array tmpArray values.length = some case3 ∧
      case2.Holds array sorted ∧ UnsignedAscending sorted ∧ sorted.Perm values ∧
      case3.Holds array (signedOrder sorted) ∧
      ((∀ index < values.length, case2 (array + index) = case3 (array + index)) ↔
        (∀ value ∈ values, value.toNat < 2 ^ 31) ∨ ∀ value ∈ values, 2 ^ 31 ≤ value.toNat) := by
  obtain ⟨case2, sorted, run2, held2, perm, ascending, _⟩ := qsRecsv_spec fuel heap array values (by omega) enough held
  obtain ⟨case3, signed, run3, held3, perm3, ascending3, _, _⟩ :=
    myQsortAVX2_sortsPiece fuel heap array tmpArray room values small enough fits disjoint held allocated
  have same : signed = signedOrder sorted :=
    ascending3.unique (signedOrder_ascending ascending)
      (perm3.trans (perm.symm.trans (signedOrder_perm sorted).symm))
  subst same
  refine ⟨case2, case3, sorted, run2, run3, held2, ascending, perm, held3, ?_⟩
  have length := perm.length_eq
  have cells : (∀ index < values.length, case2 (array + index) = case3 (array + index)) ↔
      signedOrder sorted = sorted := by
    constructor
    · intro agree
      refine (Heap.Holds.unique (held3.congr fun cell from_ upto => ?_) held2 (signedOrder_perm sorted).length_eq)
      have located := agree (cell - array).toNat (by rw [(signedOrder_perm sorted).length_eq] at upto; omega)
      rwa [show array + ((cell - array).toNat : Int) = cell by omega] at located
    · intro agree index inside
      rw [agree] at held3
      rw [held2 index (by omega), held3 index (by omega)]
  rw [cells, signedOrder_eq_iff ascending]
  simp only [perm.mem_iff]

def mixedValues : List Word := (2 ^ 31 : Word) :: List.replicate 15 0

def mixedHeap : Heap Word := (Heap.splice Heap.empty 0 mixedValues).splice 100 (List.replicate 16 0)

theorem mixedHeap_holds : mixedHeap.Holds 0 mixedValues :=
  Heap.holds_splice_self.splice_disjoint (Or.inl (by decide))

theorem myQsortAVX2_agrees_iff_mixed :
    ∃ case2 case3 sorted, qsRecsv 17 mixedHeap 0 16 = some case2 ∧
      myQsortAVX2 17 mixedHeap 0 100 16 = some case3 ∧
      case2.Holds 0 sorted ∧ UnsignedAscending sorted ∧ sorted.Perm mixedValues ∧
      case3.Holds 0 (signedOrder sorted) ∧
      ((∀ index < 16, case2 (0 + (index : Nat)) = case3 (0 + (index : Nat))) ↔
        (∀ value ∈ mixedValues, value.toNat < 2 ^ 31) ∨ ∀ value ∈ mixedValues, 2 ^ 31 ≤ value.toNat) :=
  myQsortAVX2_agrees_iff mixedHeap 0 100 16 mixedValues (by decide) (by decide) mixedHeap_holds
    Heap.holds_splice_self.allocated (by decide) (Or.inl (by decide)) 17 (by decide)

/-- On that array case 2 leaves 0 in the first cell and case 3 leaves 2^31 there. -/
theorem qsRecsv_myQsortAVX2_disagree :
    ∃ case2 case3, qsRecsv 17 mixedHeap 0 16 = some case2 ∧ myQsortAVX2 17 mixedHeap 0 100 16 = some case3 ∧
      case2 0 = some 0 ∧ case3 0 = some (2 ^ 31) := by
  obtain ⟨case2, sorted2, run2, held2, perm2, ascending2, _⟩ :=
    qsRecsv_spec 17 mixedHeap 0 mixedValues (by decide) (by decide) mixedHeap_holds
  obtain ⟨case3, sorted3, run3, held3, perm3, ascending3, _, _⟩ :=
    myQsortAVX2_sortsPiece 17 mixedHeap 0 100 16 mixedValues (by decide) (by decide) (by decide) (Or.inl (by decide))
      mixedHeap_holds Heap.holds_splice_self.allocated
  have unsigned : sorted2 = List.replicate 15 0 ++ [2 ^ 31] :=
    ascending2.unique (by decide) (perm2.trans (by decide))
  have signed : sorted3 = mixedValues := ascending3.unique (by decide) perm3
  subst unsigned signed
  exact ⟨case2, case3, run2, run3, held2 0 (by decide), held3 0 (by decide)⟩

end Mbench.SortSpeed
