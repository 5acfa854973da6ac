import Mbench.SortSpeed.QsortAvx2Spec

/-! `my_qsort_AVX2` sorts: the partition puts the two sides of the pivot in order, the
recursion takes the right side, the loop goes on with the left side, and the insertion
sort finishes what has at most 32 elements. -/

namespace Mbench.SortSpeed
open Library

theorem not_slt {first second : Word} :
    first.slt second = false ↔ second.toInt ≤ first.toInt := by
  rw [← Bool.not_eq_true, BitVec.slt_iff_toInt_lt, Int.not_lt]

/-! The insertion sort. -/

section
variable {heap : Heap Word} {d : Int}

theorem shiftLarger_spec (tmp : Word) (front : List Word) (ascending : SignedAscending front)
    (heap : Heap Word) (hole : Word) (after : List Word)
    (held : heap.Holds d (front ++ hole :: after)) :
    ∃ final before back opened, shiftLarger d tmp front.length heap = some (final, before.length) ∧
      front = before ++ back ∧ final.Holds d (before ++ opened :: (back ++ after)) ∧
      (∀ element ∈ before, element.toInt ≤ tmp.toInt) ∧ (∀ element ∈ back, tmp.toInt < element.toInt) ∧
      ∀ cell, Outside cell d (front ++ hole :: after).length → final cell = heap cell := by
  induction front using List.reverseRecOn generalizing heap hole after with
  | nil => exact ⟨heap, [], [], hole, rfl, rfl, held, by simp, by simp, fun _ _ => rfl⟩
  | append_singleton front last ih =>
    rw [SignedAscending, List.pairwise_append] at ascending
    have loaded : heap.load (d + front.length) = some last := by
      have cell := held.load front.length (by simp)
      simpa using cell
    by_cases smaller : tmp.slt last = true
    · obtain ⟨next, stored, shifted, frame⟩ := held.store_set (front.length + 1) (by simp) last
      have moved : (front ++ [last] ++ hole :: after).set (front.length + 1) last =
          front ++ last :: (last :: after) := by
        rw [List.set_append_right _ _ (by simp)]
        simp
      rw [moved] at shifted
      obtain ⟨final, before, back, opened, run, split, placed, low, high, rest⟩ := ih ascending.1 next last _ shifted
      refine ⟨final, before, back ++ [last], opened, ?_, ?_, ?_, low, ?_, fun cell outside => ?_⟩
      · rw [List.length_append, List.length_singleton]
        simp only [shiftLarger, loaded, Option.bind_eq_bind, Option.bind_some, if_pos smaller, stored, run]
      · rw [split, List.append_assoc]
      · simpa using placed
      · intro element member
        rcases List.mem_append.mp member with early | late
        · exact high element early
        · rw [List.mem_singleton.mp late]
          exact BitVec.slt_iff_toInt_lt.mp smaller
      · have same : (front ++ last :: (last :: after)).length = (front ++ [last] ++ hole :: after).length := by simp
        rw [rest cell (by rw [same]; exact outside), frame cell outside]
    · refine ⟨heap, front ++ [last], [], hole, ?_, by simp, by simpa using held, ?_, by simp, fun _ _ => rfl⟩
      · rw [List.length_append, List.length_singleton]
        simp only [shiftLarger, loaded, Option.bind_eq_bind, Option.bind_some, if_neg smaller]
      · rw [Bool.not_eq_true, not_slt] at smaller
        intro element member
        rcases List.mem_append.mp member with early | late
        · have order := ascending.2.2 element early last (by simp)
          omega
        · rw [List.mem_singleton.mp late]
          exact smaller

theorem insert_ascending {before back : List Word} {tmp : Word} (ascending : SignedAscending (before ++ back))
    (low : ∀ element ∈ before, element.toInt ≤ tmp.toInt)
    (high : ∀ element ∈ back, tmp.toInt < element.toInt) :
    SignedAscending (before ++ tmp :: back) := by
  rw [SignedAscending, List.pairwise_append] at ascending ⊢
  obtain ⟨first, second, across⟩ := ascending
  refine ⟨first, List.pairwise_cons.mpr ⟨fun element member => (high element member).le, second⟩, ?_⟩
  intro element early other late
  rcases List.mem_cons.mp late with same | later
  · rw [same]
    exact low element early
  · exact across element early other later

theorem ascending_short {values : List Word} (short : values.length ≤ 1) : SignedAscending values := by
  match values, short with
  | [], _ => exact List.Pairwise.nil
  | [only], _ => exact List.pairwise_singleton _ _

structure Inserted (initial : Heap Word) (d : Int) (values : List Word) (index : Nat) (state : Heap Word)
    (sorted : List Word) : Prop where
  held : state.Holds d (sorted ++ values.drop (index + 1))
  perm : sorted.Perm (values.take (index + 1))
  ascending : SignedAscending sorted
  frame : ∀ cell, Outside cell d values.length → state cell = initial cell

theorem Inserted.step {initial state : Heap Word} {values sorted : List Word} {index : Nat}
    (inserted : Inserted initial d values index state sorted) (inside : index + 1 < values.length) :
    ∃ next sorted', (do
        let tmp ← state.load (d + (index + 1 : Nat))
        let (heap, j) ← shiftLarger d tmp (index + 1) state
        heap.store (d + j) tmp) = some next ∧ Inserted initial d values (index + 1) next sorted' := by
  obtain ⟨placed, perm, ascending, frame⟩ := inserted
  have size : sorted.length = index + 1 := by
    rw [perm.length_eq, List.length_take]
    omega
  rw [List.drop_eq_getElem_cons inside] at placed
  have loaded : state.load (d + (index + 1 : Nat)) = some values[index + 1] := by
    have cell := (Heap.holds_cons.mp (Heap.holds_append.mp placed).2).1
    rwa [size] at cell
  obtain ⟨shifted, before, back, opened, shift, split, holes, low, high, shiftFrame⟩ :=
    shiftLarger_spec values[index + 1] sorted ascending state _ _ placed
  obtain ⟨next, stored, written, storeFrame⟩ := holes.store_set before.length (by simp) values[index + 1]
  rw [size] at shift
  refine ⟨next, before ++ values[index + 1] :: back, ?_, ?_, ?_, insert_ascending (split ▸ ascending) low high,
    fun cell outside => ?_⟩
  · simp only [loaded, Option.bind_eq_bind, Option.bind_some, shift, stored]
  · simpa using written
  · rw [← List.take_concat_get inside, List.concat_eq_append]
    have moved : (before ++ values[index + 1] :: back).Perm (values[index + 1] :: sorted) :=
      split ▸ List.perm_middle
    exact moved.trans ((perm.cons _).trans (List.perm_append_singleton _ _).symm)
  · have same : (sorted ++ values[index + 1] :: values.drop (index + 1 + 1)).length = values.length := by
      simp [size]
      omega
    have same' : (before ++ opened :: (back ++ values.drop (index + 1 + 1))).length = values.length := by
      have lengths := congrArg List.length split
      simp only [List.length_append] at lengths
      simp
      omega
    rw [storeFrame cell (by rwa [same']), shiftFrame cell (by rwa [same]), frame cell outside]

theorem avx2RemainSorts_spec (values : List Word) (held : heap.Holds d values) :
    ∃ final sorted, avx2RemainSorts heap d values.length = some final ∧ final.Holds d sorted ∧
      sorted.Perm values ∧ SignedAscending sorted ∧
      ∀ cell, Outside cell d values.length → final cell = heap cell := by
  by_cases tiny : values.length ≤ 1
  · exact ⟨heap, values, by rw [avx2RemainSorts, if_pos tiny], held, List.Perm.refl _, ascending_short tiny,
      fun _ _ => rfl⟩
  · have first : Inserted heap d values 0 heap (values.take 1) :=
      ⟨by rwa [List.take_append_drop], List.Perm.refl _, ascending_short (by simp), fun _ _ => rfl⟩
    obtain ⟨final, run, sorted, placed, perm, ascending, frame⟩ := forLoop_rule
      (fun index heap => do
        let i := index + 1
        let tmp ← heap.load (d + i)
        let (heap, j) ← shiftLarger d tmp i heap
        heap.store (d + j) tmp)
      (fun index state => ∃ sorted, Inserted heap d values index state sorted)
      (values.length - 1) heap ⟨_, first⟩
      (by
        intro index bound state ⟨sorted, inserted⟩
        obtain ⟨next, sorted', turn, advanced⟩ := inserted.step (by omega)
        exact ⟨next, turn, sorted', advanced⟩)
    have all : values.length - 1 + 1 = values.length := by omega
    rw [all, List.drop_length, List.append_nil] at placed
    rw [all, List.take_length] at perm
    exact ⟨final, sorted, by rw [avx2RemainSorts, if_neg tiny]; exact run, placed, perm, ascending, frame⟩

end

/-! The quicksort. -/

theorem sizeOfInt_small (result : Nat) (small : result < 2 ^ 31) : sizeOfInt result = result := by
  have size : (BitVec.ofNat 32 result).toNat = result := by
    rw [BitVec.toNat_ofNat]
    omega
  have positive : (BitVec.ofNat 32 result).msb = false := by
    rw [BitVec.msb_eq_false_iff_two_mul_lt, size]
    omega
  rw [sizeOfInt, BitVec.signExtend_eq_setWidth_of_msb_false positive, BitVec.toNat_setWidth, size]
  omega

theorem leftPart_le {pivot element : Word} {values : List Word} (member : element ∈ leftPart pivot values) :
    element.toInt ≤ pivot.toInt := by
  simp only [leftPart, List.mem_append, List.mem_filter, Bool.not_eq_true'] at member
  rcases member with ⟨_, less⟩ | ⟨_, upper⟩
  · exact (BitVec.slt_iff_toInt_lt.mp less).le
  · exact not_slt.mp upper

theorem rightPart_ge {pivot element : Word} {values : List Word} (member : element ∈ rightPart pivot values) :
    pivot.toInt ≤ element.toInt := by
  simp only [rightPart, List.mem_append, List.mem_filter, Bool.not_eq_true'] at member
  rcases member with ⟨_, lower⟩ | ⟨_, greater⟩
  · exact not_slt.mp lower
  · exact (BitVec.slt_iff_toInt_lt.mp greater).le

/-- The part of the array still to be sorted, followed by the part that is done. -/
structure Unsorted (initial : Heap Word) (array temp : Int) (room : Nat) (values : List Word)
    (state : Heap Word × Nat) (pending done : List Word) : Prop where
  size : state.2 = pending.length
  held : state.1.Holds array (pending ++ done)
  perm : (pending ++ done).Perm values
  ascending : SignedAscending done
  below : ∀ low ∈ pending, ∀ high ∈ done, low.toInt ≤ high.toInt
  allocated : state.1.Allocated temp room
  frame : ∀ cell, Outside cell array values.length → Outside cell temp room → state.1 cell = initial cell

theorem allocated_of_frame {initial final : Heap Word} {temp : Int} {room used : Nat}
    (allocated : initial.Allocated temp room) (front : final.Allocated temp used)
    (frame : ∀ cell, temp + used ≤ cell → cell < temp + room → final cell = initial cell) :
    final.Allocated temp room := by
  intro index inside
  by_cases early : index < used
  · exact front index early
  · rw [frame _ (by omega) (by omega)]
    exact allocated index inside

def SortsPiece (fuel : Nat) : Prop :=
  ∀ (heap : Heap Word) (array temp : Int) (room : Nat) (values : List Word),
    values.length < 2 ^ 31 → values.length < fuel → values.length ≤ room →
    (array + values.length ≤ temp ∨ temp + room ≤ array) →
    heap.Holds array values → heap.Allocated temp room →
    ∃ final sorted, myQsortAVX2 fuel heap array temp values.length = some final ∧
      final.Holds array sorted ∧ sorted.Perm values ∧ SignedAscending sorted ∧
      final.Allocated temp room ∧
      ∀ cell, Outside cell array values.length → Outside cell temp room → final cell = heap cell

def SortsPieceTightly (fuel : Nat) : Prop :=
  ∀ (heap : Heap Word) (array temp : Int) (room : Nat) (values : List Word),
    values.length < 2 ^ 31 → values.length < fuel → values.length ≤ room + 1 →
    (array + values.length ≤ temp ∨ temp + room ≤ array) →
    heap.Holds array values → heap.Allocated temp room →
    ∃ final sorted, myQsortAVX2 fuel heap array temp values.length = some final ∧
      final.Holds array sorted ∧ sorted.Perm values ∧ SignedAscending sorted ∧
      final.Allocated temp room ∧
      ∀ cell, Outside cell array values.length → Outside cell temp room → final cell = heap cell

theorem turn_ordered {pivot : Word} {front pending done : List Word} (sorted : List Word)
    (rewritten : (front ++ [pivot]).Perm pending) (ascending : SignedAscending done)
    (low : ∀ first ∈ pending, ∀ second ∈ done, first.toInt ≤ second.toInt)
    (sortedPerm : sorted.Perm (rightPart pivot front)) (sortedAscending : SignedAscending sorted) :
    SignedAscending (pivot :: (sorted ++ done)) ∧
      ∀ first ∈ leftPart pivot front, ∀ second ∈ pivot :: (sorted ++ done), first.toInt ≤ second.toInt := by
  have parts := parts_perm pivot front
  have inPending (element : Word) (member : element ∈ leftPart pivot front ++ rightPart pivot front) :
      element ∈ pending :=
    rewritten.mem_iff.mp (List.mem_append_left _ (parts.mem_iff.mp member))
  have pivotPending : pivot ∈ pending := rewritten.mem_iff.mp (by simp)
  have above (element : Word) (member : element ∈ sorted) : pivot.toInt ≤ element.toInt :=
    rightPart_ge (sortedPerm.mem_iff.mp member)
  constructor
  · refine List.pairwise_cons.mpr ⟨fun element member => ?_,
      List.pairwise_append.mpr ⟨sortedAscending, ascending, fun first early second late => ?_⟩⟩
    · rcases List.mem_append.mp member with here | later
      · exact above element here
      · exact low pivot pivotPending element later
    · exact low first (inPending first (List.mem_append_right _ (sortedPerm.mem_iff.mp early))) second late
  · intro first early second late
    have under := leftPart_le early
    rcases List.mem_cons.mp late with same | member
    · rw [same]
      exact under
    · rcases List.mem_append.mp member with here | later
      · exact under.trans (above second here)
      · exact low first (inPending first (List.mem_append_left _ early)) second later

/-- The elements after a turn: the left side is pending, the pivot and the sorted right side are done. -/
theorem turn_perm {pivot : Word} {front pending done values sorted : List Word}
    (rewritten : (front ++ [pivot]).Perm pending) (sortedPerm : sorted.Perm (rightPart pivot front))
    (perm : (pending ++ done).Perm values) : (leftPart pivot front ++ pivot :: (sorted ++ done)).Perm values := by
  have inner : (leftPart pivot front ++ pivot :: sorted).Perm (front ++ [pivot]) :=
    List.perm_middle.trans ((((sortedPerm.append_left _).trans (parts_perm pivot front)).cons pivot).trans
      (List.perm_append_singleton pivot front).symm)
  have moved : (leftPart pivot front ++ pivot :: (sorted ++ done)).Perm ((front ++ [pivot]) ++ done) := by
    simpa using inner.append_right done
  exact moved.trans ((rewritten.append_right done).trans perm)

theorem turn_joined {heap : Heap Word} {array : Int} {pivot : Word} {left sorted done : List Word}
    (front : heap.Holds array (left ++ [pivot])) (held : heap.Holds (array + (left.length + 1 : Nat)) sorted)
    (finished : heap.Holds (array + (left.length + 1 : Nat) + sorted.length) done) :
    heap.Holds array (left ++ pivot :: (sorted ++ done)) := by
  have joined : heap.Holds array ((left ++ [pivot]) ++ (sorted ++ done)) := by
    refine Heap.holds_append.mpr ⟨front, ?_⟩
    rw [List.length_append, List.length_singleton]
    exact Heap.holds_append.mpr ⟨held, finished⟩
  simpa using joined

/-- The array when a turn has partitioned what is pending. -/
structure Divided (initial : Heap Word) (array temp : Int) (room : Nat) (values : List Word) (heap : Heap Word) (pivot : Word)
    (left right done : List Word) : Prop where
  total : left.length + 1 + right.length + done.length = values.length
  front : heap.Holds array (left ++ [pivot])
  behind : heap.Holds (array + (left.length + 1 : Nat)) right
  finished : heap.Holds (array + (left.length + 1 : Nat) + right.length) done
  allocated : heap.Allocated temp room
  frame : ∀ cell, Outside cell array values.length → Outside cell temp room → heap cell = initial cell

section
variable {initial heap : Heap Word} {array temp : Int} {room fuel : Nat} {values pending done left right : List Word}
  {state : Heap Word × Nat} {pivot : Word}

theorem Unsorted.divide (unsorted : Unsorted initial array temp room values state pending done) (large : 32 < state.2)
    (fits : values.length ≤ room + 1) (apart : array + values.length ≤ temp ∨ temp + room ≤ array) :
    ∃ heap pivot front, qsortAVX2 state.1 array temp state.2 = some (heap, (rightPart pivot front).length) ∧
      (front ++ [pivot]).Perm pending ∧
      Divided initial array temp room values heap pivot (leftPart pivot front) (rightPart pivot front) done := by
  obtain ⟨size, held, perm, -, -, allocated, frame⟩ := unsorted
  rw [size] at large ⊢
  have total := perm.length_eq
  rw [List.length_append] at total
  rw [Heap.holds_append] at held
  obtain ⟨heap, pivot, front, split, ran, held1, _, used1, frame1⟩ :=
    qsortAVX2_spec (by omega) (by omega) held.1 (allocated.mono (by omega))
  have rewritten := medianRewrite_perm pending (by omega)
  rw [split] at rewritten
  have lengths := rewritten.length_eq
  have sides := (parts_perm pivot front).length_eq
  simp only [List.length_append, List.length_singleton] at lengths sides
  have done1 : heap.Holds (array + pending.length) done := held.2.frame_two frame1 (by omega) (by omega)
  rw [Heap.holds_append, List.length_append, List.length_singleton] at held1
  refine ⟨heap, pivot, front, ran, rewritten, by omega, held1.1, held1.2, ?_, ?_, fun cell outArray outTemp => ?_⟩
  · convert done1 using 1
    omega
  · exact allocated_of_frame allocated used1 fun cell from_ upto => frame1 cell (by omega) (by omega)
  · exact (frame1 cell (by omega) (by omega)).trans (frame cell outArray outTemp)

theorem Divided.sort (divided : Divided initial array temp room values heap pivot left right done)
    (recursion : SortsPieceTightly fuel) (small : values.length < 2 ^ 31) (deep : values.length < fuel + 1)
    (fits : values.length ≤ room + 1) (apart : array + values.length ≤ temp ∨ temp + room ≤ array) :
    ∃ final sorted, myQsortAVX2 fuel heap (array + (left.length + 1 : Nat)) temp right.length = some final ∧ sorted.Perm right ∧
      SignedAscending sorted ∧ final.Holds array (left ++ pivot :: (sorted ++ done)) ∧ final.Allocated temp room ∧
      ∀ cell, Outside cell array values.length → Outside cell temp room → final cell = initial cell := by
  have total := divided.total
  obtain ⟨final, sorted, ran, held, perm, ascending, allocated, frame⟩ :=
    recursion heap (array + (left.length + 1 : Nat)) temp room right (by omega) (by omega) (by omega) (by omega) divided.behind
      divided.allocated
  have front : final.Holds array (left ++ [pivot]) := by
    apply divided.front.frame_two frame <;> rw [List.length_append, List.length_singleton] <;> omega
  have finished := divided.finished.frame_two frame (by omega) (by omega)
  rw [← perm.length_eq] at finished
  exact ⟨final, sorted, ran, perm, ascending, turn_joined front held finished, allocated, fun cell outArray outTemp =>
    (frame cell (by omega) outTemp).trans (divided.frame cell outArray outTemp)⟩

theorem loopBody_spec (recursion : SortsPieceTightly fuel) (small : values.length < 2 ^ 31) (deep : values.length < fuel + 1)
    (fits : values.length ≤ room + 1) (apart : array + values.length ≤ temp ∨ temp + room ≤ array)
    (unsorted : Unsorted initial array temp room values state pending done) (large : 32 < state.2) :
    ∃ next pending' done', (do
        let (heap, result) ← qsortAVX2 state.1 array temp state.2
        let newN := sizeOfInt result
        let n := (state.2 + 2 ^ 64 - newN - 1) % 2 ^ 64
        let heap ← myQsortAVX2 fuel heap (array + (n + 1 : Nat)) temp newN
        some (heap, n)) = some next ∧ next.2 < state.2 ∧
      Unsorted initial array temp room values next pending' done' := by
  obtain ⟨heap, pivot, front, ran, rewritten, divided⟩ := unsorted.divide large fits apart
  obtain ⟨final, sorted, sortRun, perm, ascending, held, allocated, frame⟩ := divided.sort recursion small deep fits apart
  have ordered := turn_ordered sorted rewritten unsorted.ascending unsorted.below perm ascending
  have total := divided.total
  have whole := unsorted.perm.length_eq
  rw [List.length_append] at whole
  have size : (state.2 + 2 ^ 64 - (rightPart pivot front).length - 1) % 2 ^ 64 = (leftPart pivot front).length := by
    rw [unsorted.size]
    omega
  refine ⟨(final, (leftPart pivot front).length), leftPart pivot front, pivot :: (sorted ++ done), ?_, ?_, rfl, held,
    turn_perm rewritten perm unsorted.perm, ordered.1, ordered.2, allocated, frame⟩
  · simp only [ran, Option.bind_eq_bind, Option.bind_some, sizeOfInt_small (rightPart pivot front).length (by omega), size, sortRun]
  · rw [unsorted.size]
    show (leftPart pivot front).length < pending.length
    omega

theorem loop_spec (recursion : SortsPieceTightly fuel) (small : values.length < 2 ^ 31) (deep : values.length < fuel + 1)
    (fits : values.length ≤ room + 1) (apart : array + values.length ≤ temp ∨ temp + room ≤ array)
    (held : heap.Holds array values) (allocated : heap.Allocated temp room) :
    ∃ final pending done, whileLoop (fun state : Heap Word × Nat => some (32 < state.2)) (fun state => do
        let (heap, result) ← qsortAVX2 state.1 array temp state.2
        let newN := sizeOfInt result
        let n := (state.2 + 2 ^ 64 - newN - 1) % 2 ^ 64
        let heap ← myQsortAVX2 fuel heap (array + (n + 1 : Nat)) temp newN
        some (heap, n)) (values.length + 1) (heap, values.length) = some final ∧
      Unsorted heap array temp room values final pending done := by
  have step (state : Heap Word × Nat) (kept : ∃ pending done, Unsorted heap array temp room values state pending done) :=
    kept.elim fun _ ⟨_, unsorted⟩ => loopBody_spec recursion small deep fits apart unsorted
  obtain ⟨final, ran, ⟨pending, done, unsorted⟩, _⟩ := whileLoop_rule (fun state : Heap Word × Nat => some (32 < state.2)) _
    (fun state => ∃ pending done, Unsorted heap array temp room values state pending done) Prod.snd
    (fun state kept => by
      by_cases large : 32 < state.2
      · right
        obtain ⟨next, pending', done', turn, shorter, advanced⟩ := step state kept large
        exact ⟨by simp [large], next, turn, ⟨pending', done', advanced⟩, shorter⟩
      · left
        simp [large])
    (heap, values.length)
    ⟨values, [], rfl, by simpa using held, by simp, List.Pairwise.nil, by simp, allocated, fun _ _ _ => rfl⟩
    (values.length + 1) (Nat.lt_succ_self _)
  exact ⟨final, pending, done, ran, unsorted⟩

theorem Unsorted.sortRemaining (unsorted : Unsorted initial array temp room values state pending done)
    (apart : array + values.length ≤ temp ∨ temp + room ≤ array) :
    ∃ final sorted, avx2RemainSorts state.1 array state.2 = some final ∧ final.Holds array sorted ∧ sorted.Perm values ∧
      SignedAscending sorted ∧ final.Allocated temp room ∧
      ∀ cell, Outside cell array values.length → Outside cell temp room → final cell = initial cell := by
  obtain ⟨size, placed, perm, ascending, low, cells, frame⟩ := unsorted
  rw [size]
  have total := perm.length_eq
  rw [List.length_append] at total
  rw [Heap.holds_append] at placed
  obtain ⟨final, sorted, ran, held, sortedPerm, sortedAscending, restFrame⟩ := avx2RemainSorts_spec pending placed.1
  have length := sortedPerm.length_eq
  refine ⟨final, sorted ++ done, ran, Heap.holds_append.mpr ⟨held, ?_⟩, (sortedPerm.append_right done).trans perm, ?_, ?_,
    fun cell outArray outTemp => ?_⟩
  · rw [length]
    exact placed.2.frame restFrame (by omega)
  · exact List.pairwise_append.mpr ⟨sortedAscending, ascending,
      fun first early second late => low first (sortedPerm.mem_iff.mp early) second late⟩
  · intro index inside
    rw [restFrame _ (by omega)]
    exact cells index inside
  · rw [restFrame cell (by omega), frame cell outArray outTemp]

end

theorem myQsortAVX2_sortsPieceTightly (fuel : Nat) : SortsPieceTightly fuel := by
  induction fuel with
  | zero => exact fun _ _ _ _ _ _ deep => absurd deep (Nat.not_lt_zero _)
  | succ fuel ih =>
    intro heap array temp room values small deep fits apart held allocated
    obtain ⟨state, pending, done, loop, unsorted⟩ := loop_spec ih small deep fits apart held allocated
    obtain ⟨final, sorted, rest, sorts⟩ := unsorted.sortRemaining apart
    refine ⟨final, sorted, ?_, sorts⟩
    rw [myQsortAVX2]
    exact (congrArg (Option.bind · _) loop).trans rest

theorem myQsortAVX2_sortsPiece (fuel : Nat) : SortsPiece fuel :=
  fun heap array temp room values small deep fits => myQsortAVX2_sortsPieceTightly fuel heap array temp room values small deep
    (Nat.le_succ_of_le fits)

/-- `my_qsort_AVX2` returns on every array of fewer than 2^31 elements, and leaves it in
ascending signed order and a permutation of what it was. -/
theorem myQsortAVX2_sorts (heap : Heap Word) (unsortedArray tmpArray : Int) (room : Nat)
    (values : List Word) (small : values.length < 2 ^ 31)
    (held : heap.Holds unsortedArray values) (allocated : heap.Allocated tmpArray room)
    (fits : values.length ≤ room)
    (disjoint : unsortedArray + values.length ≤ tmpArray ∨ tmpArray + room ≤ unsortedArray)
    (fuel : Nat) (enough : values.length < fuel) :
    ∃ final sorted, myQsortAVX2 fuel heap unsortedArray tmpArray values.length = some final ∧
      final.Holds unsortedArray sorted ∧ sorted.length = values.length ∧
      SignedAscending sorted ∧ sorted.Perm values := by
  obtain ⟨final, sorted, run, placed, perm, ascending, _, _⟩ := myQsortAVX2_sortsPiece fuel heap
    unsortedArray tmpArray room values small enough fits disjoint held allocated
  exact ⟨final, sorted, run, placed, perm.length_eq, ascending, perm⟩

def descendingValues : List Word := (List.range 40).map fun index : Nat => BitVec.ofInt 32 (20 - index)

def descendingHeap : Heap Word :=
  (Heap.splice Heap.empty 0 descendingValues).splice 100 (List.replicate 40 0)

theorem myQsortAVX2_sorts_descending :
    ∃ final sorted, myQsortAVX2 41 descendingHeap 0 100 40 = some final ∧
      final.Holds 0 sorted ∧ sorted.length = 40 ∧ SignedAscending sorted ∧ sorted.Perm descendingValues :=
  myQsortAVX2_sorts descendingHeap 0 100 40 descendingValues (by decide)
    (Heap.holds_splice_self.splice_disjoint (Or.inl (by decide)))
    Heap.holds_splice_self.allocated (by decide) (Or.inl (by decide)) 41 (by decide)

end Mbench.SortSpeed
