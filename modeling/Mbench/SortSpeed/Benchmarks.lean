import Mbench.SortSpeed.MyQsort
import Mbench.SortSpeed.QsRecsv
import Mbench.SortSpeed.RadixSortArguments

/-! `main` of `sortSpeed.cpp` and of `u32_radix_sort_portable.cpp` behind the allocations: for each test case the array is filled
with draws of 64 bits, and then given to a sorter. The clocks and the printing are left out. -/

namespace Mbench.SortSpeed
open Library

def lowWord (draw : BitVec 64) : Word := draw.extractLsb' 0 32

def highWord (draw : BitVec 64) : Word := draw.extractLsb' 32 32

/-- `*pos = …`, of the eight bytes at `pos`. -/
def storeDraw (ptr : Int) (draws : Nat → BitVec 64) (i : Nat) (heap : Heap Word) : Option (Heap Word) := do
  let heap ← heap.store (ptr + (2 * i : Nat)) (lowWord (draws i))
  heap.store (ptr + (2 * i + 1 : Nat)) (highWord (draws i))

/-- `n_bytes / sizeof(unsigned long long)`. -/
def steps (nElems : Nat) : Nat := 4 * nElems / 8

def fill (ptr : Int) (nElems : Nat) (draws : Nat → BitVec 64) (heap : Heap Word) : Option (Heap Word) :=
  forLoop (storeDraw ptr draws) (steps nElems) heap

structure TestCase where
  number : Int
  sorter : Heap Word → Option (Heap Word)

/-- A test case that has been run, with memory before it, before its sorter and behind it. -/
structure Timed where
  number : Int
  before : Heap Word
  filled : Heap Word
  sorted : Heap Word

/-- `test_case < 0 || test_case == number`. -/
def TestCase.Chosen (testCase : Int) (test : TestCase) : Prop := testCase < 0 ∨ testCase = test.number

instance (testCase : Int) (test : TestCase) : Decidable (test.Chosen testCase) := inferInstanceAs (Decidable (_ ∨ _))

section
variable (testCase ptr : Int) (nElems : Nat) (draws : Int → Nat → BitVec 64)

def runCase (state : Heap Word × List Timed) (test : TestCase) : Option (Heap Word × List Timed) :=
  if test.Chosen testCase then do
    let filled ← fill ptr nElems (draws test.number) state.1
    let sorted ← test.sorter filled
    some (sorted, state.2 ++ [{ number := test.number, before := state.1, filled, sorted }])
  else some state

def runCases (tests : List TestCase) (heap : Heap Word) : Option (Heap Word × List Timed) :=
  tests.foldlM (runCase testCase ptr nElems draws) (heap, [])

end

/-- The test cases of `sortSpeed.cpp`; `qsort` is that of the C library with `cmp`. -/
def sortSpeedTests (qsort : Heap Word → Option (Heap Word)) (fuel : Nat) (ptr ptrd : Int) (nElems : Nat) : List TestCase :=
  [{ number := 0, sorter := some }, { number := 1, sorter := qsort },
    { number := 2, sorter := fun heap => qsRecsv fuel heap ptr nElems },
    { number := 3, sorter := fun heap => myQsortAVX2 fuel heap ptr ptrd nElems }]

/-- The test cases of `u32_radix_sort_portable.cpp`; `idx` is what the variable of `radix_sort` holds before it is assigned. -/
def radixTests (qsort : Heap Word → Option (Heap Word)) (ptr ptrd : Int) (nElems : Nat) (idx : Int) : List TestCase :=
  [{ number := 0, sorter := some }, { number := 1, sorter := qsort },
    { number := 2, sorter := fun heap => do
        let heap ← heap.write ptrd (List.replicate (0x5060 / 4) 0)
        radixSort ptr ptrd heap ptr ptrd nElems idx }]

/-! What the array is filled with. -/

def drawn (draws : Nat → BitVec 64) (count : Nat) : List Word :=
  (List.range count).flatMap fun i => [lowWord (draws i), highWord (draws i)]

def filledWords (nElems : Nat) (draws : Nat → BitVec 64) (old : List Word) : List Word :=
  drawn draws (steps nElems) ++ old.drop (2 * steps nElems)

section
variable {ptr ptrd : Int} {nElems room : Nat} {draws : Nat → BitVec 64} {heap : Heap Word} {old : List Word}

theorem drawn_succ (draws : Nat → BitVec 64) (count : Nat) :
    drawn draws (count + 1) = drawn draws count ++ [lowWord (draws count), highWord (draws count)] := by
  rw [drawn, List.range_succ, List.flatMap_append, List.flatMap_singleton]
  rfl

@[simp] theorem drawn_length (draws : Nat → BitVec 64) (count : Nat) : (drawn draws count).length = 2 * count := by
  induction count with
  | zero => rfl
  | succ count ih =>
    rw [drawn_succ, List.length_append, ih]
    rfl

theorem filledWords_length (same : old.length = nElems) : (filledWords nElems draws old).length = nElems := by
  rw [filledWords, List.length_append, drawn_length, List.length_drop, steps]
  omega

theorem drawn_set {count : Nat} (inside : 2 * count + 1 < old.length) :
    ((drawn draws count ++ old.drop (2 * count)).set (2 * count) (lowWord (draws count))).set (2 * count + 1)
      (highWord (draws count)) = drawn draws (count + 1) ++ old.drop (2 * (count + 1)) := by
  rw [List.drop_eq_getElem_cons (show 2 * count < old.length by omega), List.drop_eq_getElem_cons inside,
    List.set_append_right _ _ (by simp), List.set_append_right _ _ (by simp), drawn_length, Nat.sub_self, Nat.add_sub_cancel_left,
    drawn_succ, List.append_assoc]
  rfl

theorem fill_spec (same : old.length = nElems) (held : heap.Holds ptr old) :
    ∃ final, fill ptr nElems draws heap = some final ∧ final.Holds ptr (filledWords nElems draws old) ∧
      ∀ cell, Outside cell ptr nElems → final cell = heap cell := by
  unfold filledWords
  refine forLoop_rule (storeDraw ptr draws)
    (fun count state => state.Holds ptr (drawn draws count ++ old.drop (2 * count)) ∧
      ∀ cell, Outside cell ptr nElems → state cell = heap cell)
    (steps nElems) heap ⟨by simpa [drawn] using held, fun _ _ => rfl⟩ fun count below state ⟨placed, frame⟩ => ?_
  have inside : 2 * count + 1 < old.length := by
    unfold steps at below
    omega
  have length : (drawn draws count ++ old.drop (2 * count)).length = nElems := by
    rw [List.length_append, drawn_length, List.length_drop]
    omega
  obtain ⟨next, stored, low, others⟩ := placed.store_set (2 * count) (by omega) (lowWord (draws count))
  obtain ⟨final, stored', both, others'⟩ := low.store_set (2 * count + 1) (by rw [List.length_set]; omega) (highWord (draws count))
  rw [drawn_set inside] at both
  rw [length] at others
  rw [List.length_set, length] at others'
  refine ⟨final, ?_, both, fun cell outside => ?_⟩
  · rw [storeDraw, stored, Option.bind_eq_bind, Option.bind_some, stored']
  · rw [others' cell outside, others cell outside, frame cell outside]

end

/-! Runs of test cases. -/

/-- What a sorter does with the arrays that it is given: it rearranges them into its order, and leaves what is neither the array nor
the buffer. -/
def TestCase.Sorts (test : TestCase) (ptr ptrd : Int) (nElems room : Nat) (admits ordered : List Word → Prop) : Prop :=
  ∀ (heap : Heap Word) (values : List Word), values.length = nElems → heap.Holds ptr values → heap.Allocated ptrd room →
    admits values → ∃ final result, test.sorter heap = some final ∧ final.Holds ptr result ∧ result.Perm values ∧ ordered result ∧
      final.Allocated ptrd room ∧ ∀ cell, Outside cell ptr nElems → Outside cell ptrd room → final cell = heap cell

/-- A test case as it was run: what the array was, what it was filled with, and what it was sorted to. -/
def Timed.Ran (timed : Timed) (initial : Heap Word) (ptr ptrd : Int) (nElems room : Nat) (draws : Int → Nat → BitVec 64)
    (ordered : Int → List Word → Prop) : Prop :=
  ∃ old result, old.length = nElems ∧ timed.before.Holds ptr old ∧ timed.filled.Holds ptr (filledWords nElems (draws timed.number) old) ∧
    timed.sorted.Holds ptr result ∧ result.Perm (filledWords nElems (draws timed.number) old) ∧ ordered timed.number result ∧
    ∀ cell, Outside cell ptr nElems → Outside cell ptrd room → timed.sorted cell = initial cell

structure Benched (initial : Heap Word) (ptr ptrd : Int) (nElems room : Nat) (draws : Int → Nat → BitVec 64)
    (ordered : Int → List Word → Prop) (done : List Int) (state : Heap Word × List Timed) : Prop where
  held : ∃ values : List Word, values.length = nElems ∧ state.1.Holds ptr values
  allocated : state.1.Allocated ptrd room
  frame : ∀ cell, Outside cell ptr nElems → Outside cell ptrd room → state.1 cell = initial cell
  numbers : state.2.map Timed.number = done
  chained : state.2.map Timed.before ++ [state.1] = initial :: state.2.map Timed.sorted
  ran : ∀ timed ∈ state.2, timed.Ran initial ptr ptrd nElems room draws ordered

section
variable {testCase ptr ptrd : Int} {nElems room : Nat} {draws : Int → Nat → BitVec 64} {initial : Heap Word}
  {ordered : Int → List Word → Prop} {done : List Int} {state : Heap Word × List Timed} {test : TestCase} {tests : List TestCase}

theorem Benched.step (apart : ptr + nElems ≤ ptrd ∨ ptrd + room ≤ ptr)
    (benched : Benched initial ptr ptrd nElems room draws ordered done state)
    (sorts : test.Chosen testCase → test.Sorts ptr ptrd nElems room
      (fun values => ∃ old, old.length = nElems ∧ values = filledWords nElems (draws test.number) old) (ordered test.number)) :
    ∃ next, runCase testCase ptr nElems draws state test = some next ∧
      Benched initial ptr ptrd nElems room draws ordered (done ++ if test.Chosen testCase then [test.number] else []) next := by
  unfold runCase
  by_cases chosen : test.Chosen testCase
  · rw [if_pos chosen, if_pos chosen]
    obtain ⟨old, length, held⟩ := benched.held
    obtain ⟨filled, drew, placed, others⟩ := fill_spec length held
    have allocated : filled.Allocated ptrd room := by
      intro offset small
      rw [others _ (by simp only [Outside]; omega)]
      exact benched.allocated offset small
    obtain ⟨final, result, sorted, holds, perm, order, room_, kept⟩ := sorts chosen filled
      (filledWords nElems (draws test.number) old) (filledWords_length length) placed allocated ⟨old, length, rfl⟩
    have frame (cell : Int) (out : Outside cell ptr nElems) (outBuffer : Outside cell ptrd room) : final cell = initial cell := by
      rw [kept cell out outBuffer, others cell out, benched.frame cell out outBuffer]
    refine ⟨(final, state.2 ++ [{ number := test.number, before := state.1, filled, sorted := final }]), ?_,
      ⟨result, perm.length_eq.trans (filledWords_length length), holds⟩, room_, frame, ?_, ?_, fun timed member => ?_⟩
    · rw [drew, Option.bind_eq_bind, Option.bind_some, sorted]
      rfl
    · rw [List.map_append, benched.numbers]
      rfl
    · rw [List.map_append, List.map_append, List.map_singleton, List.map_singleton, benched.chained, List.cons_append]
    · rcases List.mem_append.mp member with before | now
      · exact benched.ran timed before
      · rw [List.mem_singleton.mp now]
        exact ⟨old, result, length, held, placed, holds, perm, order, frame⟩
  · rw [if_neg chosen, if_neg chosen, List.append_nil]
    exact ⟨state, rfl, benched⟩

theorem Benched.run (testCase : Int) (apart : ptr + nElems ≤ ptrd ∨ ptrd + room ≤ ptr)
    (benched : Benched initial ptr ptrd nElems room draws ordered done state)
    (sorts : ∀ test ∈ tests, test.Chosen testCase → test.Sorts ptr ptrd nElems room
      (fun values => ∃ old, old.length = nElems ∧ values = filledWords nElems (draws test.number) old) (ordered test.number)) :
    ∃ final, tests.foldlM (runCase testCase ptr nElems draws) state = some final ∧
      Benched initial ptr ptrd nElems room draws ordered
        (done ++ (tests.filter fun test => test.Chosen testCase).map TestCase.number) final := by
  induction tests generalizing state done with
  | nil => exact ⟨state, rfl, by simpa using benched⟩
  | cons test tests ih =>
    obtain ⟨first, others⟩ := List.forall_mem_cons.mp sorts
    obtain ⟨next, ran, after⟩ := benched.step apart first
    obtain ⟨final, rest, ended⟩ := ih after others
    refine ⟨final, by rw [List.foldlM_cons, ran]; exact rest, ?_⟩
    rw [List.append_assoc] at ended
    by_cases chosen : test.Chosen testCase
    · rw [if_pos chosen] at ended
      rwa [List.filter_cons_of_pos (by simpa using chosen), List.map_cons]
    · rw [if_neg chosen] at ended
      rwa [List.filter_cons_of_neg (by simpa using chosen)]

theorem runCases_ran (testCase : Int) (tests : List TestCase) (array : initial.Allocated ptr nElems)
    (buffer : initial.Allocated ptrd room) (apart : ptr + nElems ≤ ptrd ∨ ptrd + room ≤ ptr)
    (sorts : ∀ test ∈ tests, test.Sorts ptr ptrd nElems room
      (fun values => ∃ old, old.length = nElems ∧ values = filledWords nElems (draws test.number) old) (ordered test.number)) :
    ∃ final timings, runCases testCase ptr nElems draws tests initial = some (final, timings) ∧
      timings.map Timed.number = (tests.map TestCase.number).filter (fun number => testCase < 0 ∨ testCase = number) ∧
      timings.map Timed.before ++ [final] = initial :: timings.map Timed.sorted ∧
      (∀ timed ∈ timings, timed.Ran initial ptr ptrd nElems room draws ordered) ∧
      ∀ cell, Outside cell ptr nElems → Outside cell ptrd room → final cell = initial cell := by
  obtain ⟨values, length, held⟩ := array.exists_holds
  have start : Benched initial ptr ptrd nElems room draws ordered [] (initial, []) :=
    ⟨⟨values, length, held⟩, buffer, fun _ _ _ => rfl, rfl, rfl, fun _ member => absurd member List.not_mem_nil⟩
  obtain ⟨final, ran, benched⟩ := start.run testCase apart fun test member _ => sorts test member
  refine ⟨final.1, final.2, ran, ?_, benched.chained, benched.ran, benched.frame⟩
  rw [benched.numbers, List.nil_append, List.filter_map]
  rfl

end

/-! `sortSpeed.cpp`. -/

/-- All that is known of `qsort` with a `cmp` that is never negative, which orders nothing. -/
def Permutes (qsort : Heap Word → Option (Heap Word)) (ptr : Int) (nElems : Nat) : Prop :=
  ∀ (heap : Heap Word) (values : List Word), values.length = nElems → heap.Holds ptr values →
    ∃ final result, qsort heap = some final ∧ final.Holds ptr result ∧ result.Perm values ∧
      ∀ cell, Outside cell ptr nElems → final cell = heap cell

def cmp (a b : Word) : Int := if b < a then 1 else 0

/-- A `qsort` by merging, which takes the left element wherever `cmp` is not positive. -/
def mergingQsort (ptr : Int) (nElems : Nat) (heap : Heap Word) : Option (Heap Word) := do
  let values ← heap.read ptr nElems
  heap.write ptr (values.mergeSort fun first second => cmp first second ≤ 0)

theorem mergingQsort_permutes (ptr : Int) (nElems : Nat) : Permutes (mergingQsort ptr nElems) ptr nElems := by
  intro heap values length held
  subst length
  have perm := values.mergeSort_perm fun first second => cmp first second ≤ 0
  have room : heap.Allocated ptr (values.mergeSort fun first second => cmp first second ≤ 0).length := by
    rw [perm.length_eq]
    exact held.allocated
  refine ⟨_, _, ?_, Heap.holds_splice_self, perm, fun cell outside => Heap.splice_outside (by rwa [perm.length_eq])⟩
  rw [mergingQsort, held.read, Option.bind_eq_bind, Option.bind_some, room.write]

def sortSpeedOrder : Int → List Word → Prop
  | 2, result => UnsignedAscending result
  | 3, result => SignedAscending result
  | _, _ => True

section
variable {ptr ptrd : Int} {nElems room fuel : Nat} {qsort : Heap Word → Option (Heap Word)} {admits : List Word → Prop}

theorem sorts_nothing (number : Int) {ordered : List Word → Prop} (all : ∀ values, ordered values) :
    TestCase.Sorts { number, sorter := some } ptr ptrd nElems room admits ordered :=
  fun heap values _ held allocated _ =>
    ⟨heap, values, rfl, held, List.Perm.refl values, all values, allocated, fun _ _ _ => rfl⟩

theorem sorts_in_place {test : TestCase} {ordered : List Word → Prop} (apart : ptr + nElems ≤ ptrd ∨ ptrd + room ≤ ptr)
    (sorts : ∀ (heap : Heap Word) (values : List Word), values.length = nElems → heap.Holds ptr values →
      ∃ final result, test.sorter heap = some final ∧ final.Holds ptr result ∧ result.Perm values ∧ ordered result ∧
        ∀ cell, Outside cell ptr nElems → final cell = heap cell) : test.Sorts ptr ptrd nElems room admits ordered := by
  intro heap values length held allocated _
  obtain ⟨final, result, ran, holds, perm, order, frame⟩ := sorts heap values length held
  refine ⟨final, result, ran, holds, perm, order, fun offset small => ?_, fun cell out _ => frame cell out⟩
  rw [frame _ (by simp only [Outside]; omega)]
  exact allocated offset small

theorem sortSpeedTests_sort (atLeast : 16 ≤ nElems) (small : nElems < 2 ^ 31) (enough : nElems < fuel) (fits : nElems ≤ room)
    (apart : ptr + nElems ≤ ptrd ∨ ptrd + room ≤ ptr) (permutes : Permutes qsort ptr nElems) :
    ∀ test ∈ sortSpeedTests qsort fuel ptr ptrd nElems,
      test.Sorts ptr ptrd nElems room admits (sortSpeedOrder test.number) := by
  intro test member
  simp only [sortSpeedTests, List.mem_cons, List.not_mem_nil, or_false] at member
  rcases member with rfl | rfl | rfl | rfl
  · exact sorts_nothing 0 fun _ => trivial
  · refine sorts_in_place apart fun heap values length held => ?_
    obtain ⟨final, result, ran, holds, perm, frame⟩ := permutes heap values length held
    exact ⟨final, result, ran, holds, perm, trivial, frame⟩
  · refine sorts_in_place apart fun heap values length held => ?_
    obtain ⟨final, result, ran, slice⟩ := qsRecsv_spec fuel heap ptr values (by omega) (by omega) held
    rw [length] at ran
    have frame := slice.frame
    rw [length] at frame
    exact ⟨final, result, ran, slice.held, slice.perm, slice.ascending, frame⟩
  · intro heap values length held allocated _
    subst length
    obtain ⟨final, result, ran, holds, perm, ascending, room_, frame⟩ :=
      myQsortAVX2_sortsPiece fuel heap ptr ptrd room values small enough fits apart held allocated
    exact ⟨final, result, ran, holds, perm, ascending, room_, frame⟩

end

/-- `main` of `sortSpeed.cpp`: the test cases that are chosen run one after the other on the same array, each on what the one before
it has left. Each is given the draws that were made for it, with an odd last element as it was, and leaves a rearrangement of them,
case 2 in the unsigned order and case 3 in the signed one. Nothing but the array and the buffer is written. -/
theorem sortSpeed_sorts_draws (qsort : Heap Word → Option (Heap Word)) (fuel : Nat) (testCase ptr ptrd : Int) (nElems : Nat)
    (draws : Int → Nat → BitVec 64) (heap : Heap Word) (atLeast : 16 ≤ nElems) (small : nElems < 2 ^ 31) (enough : nElems < fuel)
    (array : heap.Allocated ptr nElems) (buffer : heap.Allocated ptrd (4 * nElems * 11 / 10 / 4))
    (apart : ptr + nElems ≤ ptrd ∨ ptrd + (4 * nElems * 11 / 10 / 4 : Nat) ≤ ptr) (permutes : Permutes qsort ptr nElems) :
    ∃ final timings,
      runCases testCase ptr nElems draws (sortSpeedTests qsort fuel ptr ptrd nElems) heap = some (final, timings) ∧
      timings.map Timed.number = ([0, 1, 2, 3] : List Int).filter (fun number => testCase < 0 ∨ testCase = number) ∧
      timings.map Timed.before ++ [final] = heap :: timings.map Timed.sorted ∧
      (∀ timed ∈ timings, timed.Ran heap ptr ptrd nElems (4 * nElems * 11 / 10 / 4) draws sortSpeedOrder) ∧
      ∀ cell, Outside cell ptr nElems → Outside cell ptrd (4 * nElems * 11 / 10 / 4) → final cell = heap cell :=
  runCases_ran testCase _ array buffer apart fun test member =>
    sortSpeedTests_sort atLeast small enough (by omega) apart permutes test member

def smallArrays : Heap Word := Heap.splice Heap.empty 0 (List.replicate 35 0)

theorem smallArrays_allocated : smallArrays.Allocated 0 35 := by
  have held : smallArrays.Holds 0 (List.replicate 35 0) := Heap.holds_splice_self
  simpa using held.allocated

theorem sortSpeed_sorts_odd_multiples :
    ∃ final timings,
      runCases (-1) 0 17 (fun number i => BitVec.ofInt 64 (0x9E3779B97F4A7C15 * (2 * i + number)))
        (sortSpeedTests (mergingQsort 0 17) 18 0 17 17) smallArrays = some (final, timings) ∧
      timings.map Timed.number = ([0, 1, 2, 3] : List Int).filter (fun number => (-1 : Int) < 0 ∨ -1 = number) ∧
      timings.map Timed.before ++ [final] = smallArrays :: timings.map Timed.sorted ∧
      (∀ timed ∈ timings, timed.Ran smallArrays 0 17 17 (4 * 17 * 11 / 10 / 4)
        (fun number i => BitVec.ofInt 64 (0x9E3779B97F4A7C15 * (2 * i + number))) sortSpeedOrder) ∧
      ∀ cell, Outside cell 0 17 → Outside cell 17 (4 * 17 * 11 / 10 / 4) → final cell = smallArrays cell :=
  sortSpeed_sorts_draws (mergingQsort 0 17) 18 (-1) 0 17 17 _ smallArrays (by decide) (by decide) (by decide)
    (smallArrays_allocated.mono (by decide))
    (fun offset small => by simpa using smallArrays_allocated (17 + offset) (by omega)) (Or.inl (by decide))
    (mergingQsort_permutes 0 17)

/-! `u32_radix_sort_portable.cpp`. Its generator has 32 bits, and each draw is stored in 64. -/

def widened (draws : Int → Nat → Word) (number : Int) (i : Nat) : BitVec 64 := (draws number i).setWidth 64

@[simp] theorem lowWord_setWidth (word : Word) : lowWord (word.setWidth 64) = word := by
  apply BitVec.eq_of_toNat_eq
  rw [lowWord, BitVec.extractLsb'_toNat, BitVec.toNat_setWidth, Nat.shiftRight_zero]
  have bound := word.isLt
  omega

@[simp] theorem highWord_setWidth (word : Word) : highWord (word.setWidth 64) = 0 := by
  apply BitVec.eq_of_toNat_eq
  rw [highWord, BitVec.extractLsb'_toNat, BitVec.toNat_setWidth, Nat.shiftRight_eq_div_pow]
  have bound := word.isLt
  rw [show word.toNat % 2 ^ 64 / 2 ^ 32 = 0 by omega]
  rfl

theorem drawn_perm (words : Nat → Word) (count : Nat) :
    (drawn (fun i => (words i).setWidth 64) count).Perm (List.replicate count 0 ++ (List.range count).map words) := by
  induction count with
  | zero => exact List.Perm.refl _
  | succ count ih =>
    rw [drawn_succ, lowWord_setWidth, highWord_setWidth, List.range_succ, List.map_append, List.map_singleton, List.replicate_succ,
      show [words count, (0 : Word)] = [words count] ++ [0] from rfl, ← List.append_assoc]
    refine (List.perm_append_singleton _ _).trans (List.Perm.cons _ ?_)
    exact (ih.append_right _).trans (by rw [List.append_assoc]; exact List.Perm.refl _)

theorem ascending_zeros {count : Nat} {rest result : List Word} (ascending : UnsignedAscending result)
    (perm : result.Perm (List.replicate count 0 ++ rest)) :
    ∃ sorted, result = List.replicate count 0 ++ sorted ∧ UnsignedAscending sorted ∧ sorted.Perm rest := by
  refine ⟨passesSort rest, ascending.unique ?_ (perm.trans ((passesSort_perm rest).symm.append_left _)), passes_ascending rest,
    passesSort_perm rest⟩
  refine List.pairwise_append.mpr ⟨List.pairwise_replicate.mpr (Or.inr (BitVec.le_refl 0)), passes_ascending rest,
    fun zero member other _ => ?_⟩
  rw [List.eq_of_mem_replicate member]
  exact BitVec.le_def.mpr (Nat.zero_le _)

theorem drawn_last (draws : Nat → BitVec 64) (count : Nat) :
    (drawn draws (count + 1)).getLast? = some (highWord (draws count)) := by
  rw [drawn_succ, List.getLast?_append]
  rfl

/-- The third stray store of `radix_sort` goes by the last element, which is zero where the count is even. -/
theorem filledWords_last {nElems : Nat} (words : Nat → Word) {old : List Word} (length : old.length = nElems)
    (atLeast : 16 ≤ nElems) (harmless : nElems % 2 = 0 ∨ 1016 ≤ nElems) {last : Word}
    (lastEq : (filledWords nElems (fun i => (words i).setWidth 64) old).getLast? = some last) :
    0x4040 / 4 + middleDigit last < mainRoom nElems := by
  rcases harmless with even | many
  · obtain ⟨count, stepsEq⟩ : ∃ count, steps nElems = count + 1 := ⟨steps nElems - 1, by unfold steps; omega⟩
    have all : old.drop (2 * (count + 1)) = [] := List.drop_eq_nil_of_le (by unfold steps at stepsEq; omega)
    rw [filledWords, stepsEq, all, List.append_nil, drawn_last, highWord_setWidth] at lastEq
    cases lastEq
    rw [show middleDigit 0 = 0 from rfl, mainRoom]
    omega
  · have digit := Pass.middle.digit_lt last
    simp only [Pass.digit, Pass.radix] at digit
    rw [mainRoom]
    omega

def radixOrder : Int → List Word → Prop
  | 2, result => UnsignedAscending result
  | _, _ => True

theorem radixTest_sorts {ptr ptrd : Int} {idx : Int} {values : List Word} {heap : Heap Word} (atLeast : 16 ≤ values.length)
    (small : values.length < 2 ^ 31) (apart : ptr + values.length ≤ ptrd ∨ ptrd + mainRoom values.length ≤ ptr)
    (firstStray : 0 ≤ idx ∧ idx < mainRoom values.length)
    (thirdStray : ∀ last, values.getLast? = some last → 0x4040 / 4 + middleDigit last < mainRoom values.length)
    (held : heap.Holds ptr values) (buffer : heap.Allocated ptrd (mainRoom values.length)) :
    ∃ final result, (do
        let heap ← heap.write ptrd (List.replicate (0x5060 / 4) 0)
        radixSort ptr ptrd heap ptr ptrd values.length idx) = some final ∧
      final.Holds ptr result ∧ result.Perm values ∧ UnsignedAscending result ∧ final.Allocated ptrd (mainRoom values.length) ∧
      ∀ cell, Outside cell ptr values.length → Outside cell ptrd (mainRoom values.length) → final cell = heap cell := by
  have tables : heap.Allocated ptrd (List.replicate (0x5060 / 4) (0 : Word)).length := by
    rw [List.length_replicate]
    exact buffer.mono (by rw [mainRoom]; omega)
  have cleared (cell : Int) (outside : Outside cell ptrd (0x5060 / 4)) :
      heap.splice ptrd (List.replicate (0x5060 / 4) 0) cell = heap cell :=
    Heap.splice_outside (by rwa [List.length_replicate])
  have workspace : Workspace (heap.splice ptrd (List.replicate (0x5060 / 4) 0)) ptr ptrd (mainRoom values.length) values := by
    refine ⟨held.splice_disjoint ?_, Heap.holds_splice_self, Heap.splice_allocated buffer, le_rfl, apart⟩
    rw [List.length_replicate]
    rw [mainRoom] at apart
    omega
  obtain ⟨after, ran, passed⟩ := workspace.radixSort ptr ptrd atLeast small firstStray thirdStray
  have length := (passesSort_perm values).length_eq
  refine ⟨after.splice ptr (passesSort values), passesSort values, ?_, Heap.holds_splice_self, passesSort_perm values,
    passes_ascending values, Heap.splice_allocated fun offset inside => ?_, fun cell outArray outBuffer => ?_⟩
  · rw [tables.write, Option.bind_eq_bind, Option.bind_some, ran, passed.copy]
  · by_cases table : offset < 0x5060 / 4
    · obtain ⟨count, _, counted⟩ := passed.counts (ptrd + offset) (by omega) (by omega)
      rw [counted]
      rfl
    · rw [show ptrd + (offset : Int) = ptrd + 0x5060 / 4 + (offset - 0x5060 / 4 : Nat) by omega]
      exact passed.data.allocated _ (by rw [length]; rw [mainRoom] at inside; omega)
  · rw [Heap.splice_outside (by rwa [length]), passed.frame cell outArray outBuffer, cleared]
    simp only [Outside, mainRoom] at outBuffer ⊢
    omega

/-- What case 2 has sorted: as many zeros as there are draws, and then the draws, with an odd last element among them. -/
theorem Timed.Ran.zeros_first {timed : Timed} {initial : Heap Word} {ptr ptrd : Int} {nElems room : Nat} {draws : Int → Nat → Word}
    (ran : timed.Ran initial ptr ptrd nElems room (widened draws) radixOrder) (sorting : timed.number = 2) :
    ∃ old sorted : List Word, old.length = nElems ∧ timed.before.Holds ptr old ∧ timed.sorted.Holds ptr (List.replicate (nElems / 2) 0 ++ sorted) ∧
      UnsignedAscending sorted ∧ sorted.Perm ((List.range (nElems / 2)).map (draws 2) ++ old.drop (nElems / 2 * 2)) := by
  obtain ⟨old, result, length, before, _, holds, perm, order, _⟩ := ran
  rw [sorting] at perm order
  have half : steps nElems = nElems / 2 := by
    unfold steps
    omega
  have parts : (filledWords nElems (widened draws 2) old).Perm
      (List.replicate (nElems / 2) 0 ++ ((List.range (nElems / 2)).map (draws 2) ++ old.drop (nElems / 2 * 2))) := by
    rw [filledWords, half, Nat.mul_comm 2, ← List.append_assoc]
    exact (drawn_perm (draws 2) (nElems / 2)).append_right _
  obtain ⟨sorted, rfl, ascending, rest⟩ := ascending_zeros order (perm.trans parts)
  exact ⟨old, sorted, length, before, holds, ascending, rest⟩

theorem radixTests_sort {qsort : Heap Word → Option (Heap Word)} {ptr ptrd idx : Int} {nElems : Nat} {draws : Int → Nat → Word}
    (atLeast : 16 ≤ nElems) (small : nElems < 2 ^ 31) (harmless : nElems % 2 = 0 ∨ 1016 ≤ nElems)
    (apart : ptr + nElems ≤ ptrd ∨ ptrd + mainRoom nElems ≤ ptr) (firstStray : 0 ≤ idx ∧ idx < mainRoom nElems)
    (permutes : Permutes qsort ptr nElems) :
    ∀ test ∈ radixTests qsort ptr ptrd nElems idx, test.Sorts ptr ptrd nElems (mainRoom nElems)
      (fun values => ∃ old, old.length = nElems ∧ values = filledWords nElems (widened draws test.number) old)
      (radixOrder test.number) := by
  intro test member
  simp only [radixTests, List.mem_cons, List.not_mem_nil, or_false] at member
  rcases member with rfl | rfl | rfl
  · exact sorts_nothing 0 fun _ => trivial
  · refine sorts_in_place apart fun heap values length held => ?_
    obtain ⟨final, result, ran, holds, perm, frame⟩ := permutes heap values length held
    exact ⟨final, result, ran, holds, perm, trivial, frame⟩
  · intro heap values length held room admits
    obtain ⟨old, before, same⟩ := admits
    have third (last : Word) (lastEq : values.getLast? = some last) : 0x4040 / 4 + middleDigit last < mainRoom nElems :=
      filledWords_last (draws 2) before atLeast harmless (by rwa [same] at lastEq)
    subst length
    exact radixTest_sorts atLeast small apart firstStray third held room

/-- `main` of `u32_radix_sort_portable.cpp`. -/
theorem portable_sorts_draws (qsort : Heap Word → Option (Heap Word)) (testCase ptr ptrd idx : Int) (nElems : Nat)
    (draws : Int → Nat → Word) (heap : Heap Word) (atLeast : 16 ≤ nElems) (small : nElems < 2 ^ 31)
    (harmless : nElems % 2 = 0 ∨ 1016 ≤ nElems) (array : heap.Allocated ptr nElems)
    (buffer : heap.Allocated ptrd (mainRoom nElems)) (apart : ptr + nElems ≤ ptrd ∨ ptrd + mainRoom nElems ≤ ptr)
    (firstStray : 0 ≤ idx ∧ idx < mainRoom nElems) (permutes : Permutes qsort ptr nElems) :
    ∃ final timings,
      runCases testCase ptr nElems (widened draws) (radixTests qsort ptr ptrd nElems idx) heap = some (final, timings) ∧
      timings.map Timed.number = ([0, 1, 2] : List Int).filter (fun number => testCase < 0 ∨ testCase = number) ∧
      timings.map Timed.before ++ [final] = heap :: timings.map Timed.sorted ∧
      (∀ timed ∈ timings, timed.Ran heap ptr ptrd nElems (mainRoom nElems) (widened draws) radixOrder ∧
        (timed.number = 2 → ∃ old sorted : List Word, old.length = nElems ∧ timed.before.Holds ptr old ∧
          timed.sorted.Holds ptr (List.replicate (nElems / 2) 0 ++ sorted) ∧ UnsignedAscending sorted ∧
          sorted.Perm ((List.range (nElems / 2)).map (draws 2) ++ old.drop (nElems / 2 * 2)))) ∧
      ∀ cell, Outside cell ptr nElems → Outside cell ptrd (mainRoom nElems) → final cell = heap cell := by
  obtain ⟨final, timings, ran, numbers, chained, each, frame⟩ := runCases_ran testCase (radixTests qsort ptr ptrd nElems idx) array buffer apart
    (radixTests_sort atLeast small harmless apart firstStray permutes)
  exact ⟨final, timings, ran, numbers, chained, fun timed member => ⟨each timed member, (each timed member).zeros_first⟩, frame⟩

def radixArrays : Heap Word := Heap.splice Heap.empty 0 (List.replicate (16 + mainRoom 16) 0)

theorem radixArrays_allocated : radixArrays.Allocated 0 (16 + mainRoom 16) := by
  have held : radixArrays.Holds 0 (List.replicate (16 + mainRoom 16) 0) := Heap.holds_splice_self
  have allocated := held.allocated
  rwa [List.length_replicate] at allocated

theorem portable_sorts_odd_multiples :
    ∃ final timings,
      runCases 2 0 16 (widened fun _ i => BitVec.ofNat 32 (0x9E3779B1 * (2 * i + 1)))
        (radixTests (mergingQsort 0 16) 0 16 16 5) radixArrays = some (final, timings) ∧
      timings.map Timed.number = ([0, 1, 2] : List Int).filter (fun number => (2 : Int) < 0 ∨ 2 = number) ∧
      timings.map Timed.before ++ [final] = radixArrays :: timings.map Timed.sorted ∧
      (∀ timed ∈ timings,
        timed.Ran radixArrays 0 16 16 (mainRoom 16) (widened fun _ i => BitVec.ofNat 32 (0x9E3779B1 * (2 * i + 1))) radixOrder ∧
        (timed.number = 2 → ∃ old sorted : List Word, old.length = 16 ∧ timed.before.Holds 0 old ∧
          timed.sorted.Holds 0 (List.replicate (16 / 2) 0 ++ sorted) ∧ UnsignedAscending sorted ∧
          sorted.Perm ((List.range (16 / 2)).map (fun i => BitVec.ofNat 32 (0x9E3779B1 * (2 * i + 1))) ++ old.drop (16 / 2 * 2)))) ∧
      ∀ cell, Outside cell 0 16 → Outside cell 16 (mainRoom 16) → final cell = radixArrays cell :=
  portable_sorts_draws (mergingQsort 0 16) 2 0 16 5 16 (fun _ i => BitVec.ofNat 32 (0x9E3779B1 * (2 * i + 1))) radixArrays
    (by decide) (by decide) (Or.inl rfl) (radixArrays_allocated.mono (Nat.le_add_right _ _))
    (fun offset small => by simpa using radixArrays_allocated (16 + offset) (Nat.add_lt_add_left small 16)) (Or.inl (by decide))
    (by decide) (mergingQsort_permutes 0 16)

end Mbench.SortSpeed
