import Mbench.Library.Loop
import Mbench.Library.Memory
import Mbench.SortSpeed.Order

/-! `measure` of `sortSpeed_improved_v1.cpp` and `ippSortDemo.cpp`, which have it in the same form: one pass fills `arrB`
from both ends. It reads the value in the middle of `arrA`, but compares with the index of the middle. -/

namespace Mbench.SortSpeed
open Library

structure Fill where
  heap : Heap Word
  j : UInt64
  k : UInt64

def measureBody (arrA arrB : Int) (mid : UInt64) (i : Nat) (fill : Fill) : Option Fill := do
  let compared ← fill.heap.load (arrA + i)
  if compared.toNat < mid.toNat then
    let value ← fill.heap.load (arrA + i)
    let heap ← fill.heap.store (arrB + fill.j.toNat) value
    some { fill with heap, j := fill.j + 1 }
  else
    let value ← fill.heap.load (arrA + i)
    let heap ← fill.heap.store (arrB + fill.k.toNat) value
    some { fill with heap, k := fill.k - 1 }

def measureMid (n : UInt64) : UInt64 := (n + 1) / 2

def measureTurns (heap : Heap Word) (arrA arrB : Int) (n : UInt64) (i : Nat) : Option Fill :=
  forLoop (measureBody arrA arrB (measureMid n)) i { heap, j := 0, k := n - 1 }

/-- `measure` without its clock, for an `N` of `n`. -/
def measure (heap : Heap Word) (arrA arrB : Int) (n : UInt64) : Option Fill := do
  let _midVal ← heap.load (arrA + (measureMid n).toNat)
  measureTurns heap arrA arrB n n.toNat

def belowMid (n : UInt64) (value : Word) : Bool := value.toNat < (measureMid n).toNat

def fronts (n : UInt64) (values : List Word) : List Word := values.filter (belowMid n)

def backs (n : UInt64) (values : List Word) : List Word := (values.filter fun value => !belowMid n value).reverse

section
variable {n : UInt64} {values : List Word} {value : Word}

theorem lengths (n : UInt64) (values : List Word) : (fronts n values).length + (backs n values).length = values.length := by
  rw [fronts, backs, List.length_reverse, ← List.length_append]
  exact (List.filter_append_perm _ values).length_eq

theorem fronts_concat (small : belowMid n value = true) : fronts n (values ++ [value]) = fronts n values ++ [value] ∧
    backs n (values ++ [value]) = backs n values := by
  simp [fronts, backs, List.filter_append, small]

theorem backs_concat (large : belowMid n value = false) : fronts n (values ++ [value]) = fronts n values ∧
    backs n (values ++ [value]) = value :: backs n values := by
  simp [fronts, backs, List.filter_append, large]

end

/-- After `i` turns: the elements so far are at the two ends, and the indices next to them. -/
structure Filled (heap : Heap Word) (arrB : Int) (n : UInt64) (values : List Word) (i : Nat) (fill : Fill) : Prop where
  gap : ∃ gap, fill.heap = heap.splice arrB (fronts n (values.take i) ++ gap ++ backs n (values.take i)) ∧
    gap.length + i = values.length
  left : fill.j.toNat = (fronts n (values.take i)).length
  right : (fill.k.toNat + (backs n (values.take i)).length + 1) % 2 ^ 64 = n.toNat

section
variable {heap : Heap Word} {arrA arrB : Int} {n : UInt64} {values : List Word} {i : Nat} {fill : Fill}
  (size : values.length = n.toNat) (fits : n.toNat < 2 ^ 62)
include size fits

theorem Filled.right_eq (filled : Filled heap arrB n values i fill) (more : i < values.length) :
    fill.k.toNat + (backs n (values.take i)).length + 1 = n.toNat := by
  have bound := filled.right
  have few := lengths n (values.take i)
  rw [List.length_take] at few
  have small := fill.k.toNat_lt
  omega

omit fits in
theorem Filled.sizes {gap : List Word} (more : i < values.length) (gapSize : gap.length + i = values.length) :
    (fronts n (values.take i)).length + (backs n (values.take i)).length = i ∧
      (fronts n (values.take i) ++ gap ++ backs n (values.take i)).length = values.length := by
  have ends := lengths n (values.take i)
  rw [List.length_take, Nat.min_eq_left more.le] at ends
  refine ⟨ends, ?_⟩
  simp only [List.length_append]
  omega

omit fits in
theorem Filled.loaded (held : heap.Holds arrA values)
    (apart : arrA + values.length ≤ arrB ∨ arrB + values.length ≤ arrA) (more : i < values.length)
    (filled : Filled heap arrB n values i fill) : fill.heap.load (arrA + i) = some values[i] := by
  obtain ⟨gap, written, gapSize⟩ := filled.gap
  have total := (Filled.sizes size more gapSize).2
  rw [written]
  exact (held.splice_disjoint (by rwa [total])).load i more

theorem Filled.stepLeft (more : i < values.length) (small : belowMid n values[i] = true)
    (loaded : fill.heap.load (arrA + i) = some values[i]) (filled : Filled heap arrB n values i fill) :
    ∃ next, measureBody arrA arrB (measureMid n) i fill = some next ∧ Filled heap arrB n values (i + 1) next := by
  obtain ⟨gap, written, gapSize⟩ := filled.gap
  have left := filled.left
  obtain ⟨ends, total⟩ := Filled.sizes size more gapSize
  have compared : values[i].toNat < (measureMid n).toNat := of_decide_eq_true small
  have taken : values.take (i + 1) = values.take i ++ [values[i]] := List.take_succ_eq_append_getElem more
  obtain ⟨front', back'⟩ := @fronts_concat n (values.take i) _ small
  obtain ⟨old, gap, rfl⟩ := List.exists_cons_of_length_pos (show 0 < gap.length by omega)
  have stored := heap.splice_store arrB (fronts n (values.take i)) (gap ++ backs n (values.take i)) old values[i]
  rw [List.append_assoc, List.cons_append] at written
  rw [← left, ← written] at stored
  rw [List.length_cons] at gapSize
  refine ⟨{ heap := heap.splice arrB (fronts n (values.take i) ++ values[i] :: (gap ++ backs n (values.take i))),
            j := fill.j + 1, k := fill.k }, ?_, ⟨gap, ?_, by omega⟩, ?_, ?_⟩
  · simp only [measureBody, loaded, compared, if_true, stored, Option.bind_eq_bind, Option.bind_some]
  · rw [taken, front', back']
    simp
  · rw [taken, front', UInt64.toNat_add, UInt64.toNat_one, List.length_append, List.length_singleton]
    omega
  · rw [taken, back']
    exact filled.right

theorem Filled.stepRight (more : i < values.length) (large : belowMid n values[i] = false)
    (loaded : fill.heap.load (arrA + i) = some values[i]) (filled : Filled heap arrB n values i fill) :
    ∃ next, measureBody arrA arrB (measureMid n) i fill = some next ∧ Filled heap arrB n values (i + 1) next := by
  obtain ⟨gap, written, gapSize⟩ := filled.gap
  have right := filled.right_eq size fits more
  obtain ⟨ends, total⟩ := Filled.sizes size more gapSize
  have compared : ¬values[i].toNat < (measureMid n).toNat := of_decide_eq_false large
  have taken : values.take (i + 1) = values.take i ++ [values[i]] := List.take_succ_eq_append_getElem more
  obtain ⟨front', back'⟩ := @backs_concat n (values.take i) _ large
  obtain ⟨gap, old, rfl⟩ := (List.eq_nil_or_concat gap).resolve_left (by rintro rfl; simp at gapSize; omega)
  rw [List.concat_eq_append] at *
  have stored := heap.splice_store arrB (fronts n (values.take i) ++ gap) (backs n (values.take i)) old values[i]
  have place : (fronts n (values.take i) ++ gap).length = fill.k.toNat := by
    simp only [List.length_append, List.length_singleton] at gapSize ⊢
    omega
  rw [← List.append_assoc, List.append_assoc, List.singleton_append] at written
  rw [place, ← written] at stored
  rw [List.length_append, List.length_singleton] at gapSize
  refine ⟨{ heap := heap.splice arrB (fronts n (values.take i) ++ gap ++ values[i] :: backs n (values.take i)),
            j := fill.j, k := fill.k - 1 }, ?_, ⟨gap, ?_, by omega⟩, ?_, ?_⟩
  · simp only [measureBody, loaded, compared, if_false, stored, Option.bind_eq_bind, Option.bind_some]
  · rw [taken, front', back']
  · rw [taken, front']
    exact filled.left
  · rw [taken, back', UInt64.toNat_sub, UInt64.toNat_one, List.length_cons]
    omega

theorem Filled.step (held : heap.Holds arrA values) (apart : arrA + values.length ≤ arrB ∨ arrB + values.length ≤ arrA)
    (more : i < values.length) (filled : Filled heap arrB n values i fill) :
    ∃ next, measureBody arrA arrB (measureMid n) i fill = some next ∧ Filled heap arrB n values (i + 1) next := by
  have loaded := filled.loaded size held apart more
  by_cases small : belowMid n values[i] = true
  · exact filled.stepLeft size fits more small loaded
  · exact filled.stepRight size fits more (eq_false_of_ne_true small) loaded

theorem measureTurns_filled (held : heap.Holds arrA values) (allocated : heap.Allocated arrB values.length)
    (apart : arrA + values.length ≤ arrB ∨ arrB + values.length ≤ arrA) (upto : i ≤ values.length)
    (some_ : 0 < values.length) :
    ∃ fill, measureTurns heap arrA arrB n i = some fill ∧ Filled heap arrB n values i fill := by
  obtain ⟨written, gapSize, heldB⟩ := allocated.exists_holds
  have start : Filled heap arrB n values 0 { heap, j := 0, k := n - 1 } := by
    refine ⟨⟨written, ?_, gapSize⟩, rfl, ?_⟩
    · simp [fronts, backs, heldB.splice_eq]
    · rw [UInt64.toNat_sub, UInt64.toNat_one]
      simp only [List.take_zero, backs, List.filter_nil, List.reverse_nil, List.length_nil]
      omega
  exact forLoop_rule _ (Filled heap arrB n values) i _ start fun index bound state filled =>
    filled.step size fits held apart (by omega)

end

theorem forall_front_iff {front back : List Word} (holds : Word → Prop) :
    (∀ (t : Nat) value, (front ++ back)[t]? = some value → t < front.length → holds value) ↔
      ∀ value ∈ front, holds value := by
  constructor
  · intro all value member
    obtain ⟨t, inside, rfl⟩ := List.getElem_of_mem member
    exact all t _ (by rw [List.getElem?_append_left inside, List.getElem?_eq_getElem inside]) inside
  · intro all t value found inside
    rw [List.getElem?_append_left inside] at found
    exact all value (List.mem_of_getElem? found)

theorem forall_back_iff {front back : List Word} (holds : Word → Prop) :
    (∀ (t : Nat) value, (front ++ back)[t]? = some value → front.length ≤ t → holds value) ↔
      ∀ value ∈ back, holds value := by
  constructor
  · intro all value member
    obtain ⟨t, inside, rfl⟩ := List.getElem_of_mem member
    refine all (front.length + t) _ ?_ (Nat.le_add_right _ _)
    rw [List.getElem?_append_right (Nat.le_add_right _ _), Nat.add_sub_cancel_left, List.getElem?_eq_getElem inside]
  · intro all t value found behind
    rw [List.getElem?_append_right behind] at found
    exact all value (List.mem_of_getElem? found)

theorem measureMid_toNat {n : UInt64} (fits : n.toNat < 2 ^ 62) : (measureMid n).toNat = (n.toNat + 1) / 2 := by
  rw [measureMid, UInt64.toNat_div, UInt64.toNat_add]
  have whole : (n.toNat + (1 : UInt64).toNat) % 2 ^ 64 = n.toNat + 1 := Nat.mod_eq_of_lt (by rw [UInt64.toNat_one]; omega)
  rw [whole]
  rfl

/-- The two ends are on either side of the value in the middle exactly if the test agrees with it. -/
theorem ends_split_iff (n : UInt64) (values : List Word) (midVal : Word) :
    ((∀ value ∈ fronts n values, value < midVal) ∧ ∀ value ∈ backs n values, midVal ≤ value) ↔
      ∀ value ∈ values, belowMid n value = true ↔ value < midVal := by
  constructor
  · intro ⟨low, high⟩ value member
    constructor
    · exact fun small => low value (List.mem_filter.mpr ⟨member, small⟩)
    · intro less
      by_contra large
      have above := high value (List.mem_reverse.mpr (List.mem_filter.mpr ⟨member, by simpa using large⟩))
      exact absurd less (BitVec.not_lt.mpr above)
  · intro same
    constructor
    · intro value member
      obtain ⟨member, small⟩ := List.mem_filter.mp member
      exact (same value member).mp small
    · intro value member
      obtain ⟨member, large⟩ := List.mem_filter.mp (List.mem_reverse.mp member)
      refine BitVec.not_lt.mp fun less => ?_
      rw [(same value member).mpr less] at large
      cases large

/-- `measure` leaves `arrB` a permutation of `arrA`, and its indices do not cross. It is split by the value in the middle
exactly if the elements below the index of the middle are the ones below the value in the middle. -/
theorem measure_splits_iff (heap : Heap Word) (arrA arrB : Int) (n : UInt64) (values : List Word) (midVal : Word)
    (atLeast : 2 ≤ n.toNat) (fits : n.toNat < 2 ^ 62) (size : values.length = n.toNat) (held : heap.Holds arrA values)
    (allocated : heap.Allocated arrB values.length)
    (apart : arrA + values.length ≤ arrB ∨ arrB + values.length ≤ arrA)
    (middle : values[(n.toNat + 1) / 2]? = some midVal) :
    ∃ final out, measure heap arrA arrB n = some final ∧ final.heap = heap.splice arrB out ∧ out.Perm values ∧
      (∀ i < n.toNat, ∃ fill, measureTurns heap arrA arrB n i = some fill ∧ fill.j ≤ fill.k) ∧
      (((∀ (t : Nat) value, out[t]? = some value → t < final.j.toNat → value < midVal) ∧
          ∀ (t : Nat) value, out[t]? = some value → final.j.toNat ≤ t → midVal ≤ value) ↔
        ∀ value ∈ values, value.toNat < (n.toNat + 1) / 2 ↔ value < midVal) := by
  have mid := measureMid_toNat fits
  obtain ⟨inside, -⟩ := List.getElem?_eq_some_iff.mp middle
  have loaded := held.load _ inside
  obtain ⟨final, ran, ⟨gap, written, gapSize⟩, left, -⟩ := measureTurns_filled size fits held allocated apart le_rfl (by omega)
  obtain rfl : gap = [] := List.eq_nil_of_length_eq_zero (by omega)
  rw [List.take_length] at written left
  rw [List.append_nil] at written
  refine ⟨final, fronts n values ++ backs n values, ?_, written, ?_, fun i more => ?_, ?_⟩
  · rw [size] at ran
    rw [measure, mid, loaded]
    exact ran
  · exact (((List.reverse_perm _).append_left _).trans (List.filter_append_perm (belowMid n) values))
  · obtain ⟨fill, turns, filled⟩ := measureTurns_filled size fits held allocated apart (show i ≤ values.length by omega) (by omega)
    have right := filled.right_eq size fits (by omega)
    have left := filled.left
    have ends := lengths n (values.take i)
    rw [List.length_take] at ends
    exact ⟨fill, turns, UInt64.le_iff_toNat_le.mpr (by omega)⟩
  · rw [left, forall_front_iff, forall_back_iff, ends_split_iff]
    simp only [belowMid, decide_eq_true_eq, mid]

theorem measure_splits_iff_three :
    ∃ final out, measure ((Heap.splice Heap.empty 0 [7, 1, 2]).splice 3 [0, 0, 0]) 0 3 3 = some final ∧
      final.heap = ((Heap.splice Heap.empty 0 [7, 1, 2]).splice 3 [0, 0, 0]).splice 3 out ∧ out.Perm [7, 1, 2] ∧
      (∀ i < 3, ∃ fill, measureTurns ((Heap.splice Heap.empty 0 [7, 1, 2]).splice 3 [0, 0, 0]) 0 3 3 i = some fill ∧
        fill.j ≤ fill.k) ∧
      (((∀ (t : Nat) value, out[t]? = some value → t < final.j.toNat → value < 2) ∧
          ∀ (t : Nat) value, out[t]? = some value → final.j.toNat ≤ t → 2 ≤ value) ↔
        ∀ value ∈ ([7, 1, 2] : List Word), value.toNat < (3 + 1) / 2 ↔ value < 2) :=
  measure_splits_iff ((Heap.splice Heap.empty 0 [7, 1, 2]).splice 3 [0, 0, 0]) 0 3 3 [7, 1, 2] 2 (by decide) (by decide)
    (by decide) (Heap.holds_splice_self.splice_disjoint (Or.inl (by decide))) Heap.holds_splice_self.allocated
    (Or.inl (by decide)) (by decide)

/-- Of the elements 1 and 5 none is less than the index 1 of the middle, so the 1 is not split from the 5. -/
theorem measure_unsplit :
    (measure ((Heap.splice Heap.empty 0 [1, 5]).splice 2 [0, 0]) 0 2 2).bind (fun final => final.heap.read 2 2) = some [5, 1] ∧
      (measure ((Heap.splice Heap.empty 0 [1, 5]).splice 2 [0, 0]) 0 2 2).map (fun final => final.j) = some 0 ∧
      ([1, 5] : List Word)[(2 + 1) / 2]? = some 5 ∧ ¬(5 : Word) ≤ 1 := by
  decide

end Mbench.SortSpeed
