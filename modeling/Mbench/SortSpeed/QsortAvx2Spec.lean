import Mbench.SortSpeed.QsortAvx2Partition

/-! The whole of `qsort_AVX2`: the median-of-three rewrite, the partition and the copy
of the temp buffer behind the pivot. -/

namespace Mbench.SortSpeed
open Library

/-! The copy back. -/

structure Copying (initial : Heap Word) (temp dest : Int) (right : List Word) (regs : CopyRegs)
    (copied : Nat) : Prop where
  source : regs.tempSpace = temp + copied
  target : regs.bottom = dest + copied
  remaining : copied + regs.top = right.length
  inTemp : regs.heap.Holds temp right
  inDest : ∃ gap : List Word, gap.length = regs.top ∧ regs.heap.Holds dest (right.take copied ++ gap)
  frame : ∀ cell, Outside cell dest right.length → regs.heap cell = initial cell

section
variable {initial : Heap Word} {temp dest : Int} {right : List Word} {regs : CopyRegs}
  {copied width : Nat}

theorem copyBlock_spec (width : Nat) (apart : dest + right.length ≤ temp ∨ temp + right.length ≤ dest)
    (copying : Copying initial temp dest right regs copied) (enough : width ≤ regs.top) :
    ∃ next, copyBlock width regs = some next ∧ next.top = regs.top - width ∧
      Copying initial temp dest right next (copied + width) := by
  have remaining := copying.remaining
  obtain ⟨gap, gapLength, inDest⟩ := copying.inDest
  have piece : ((right.drop copied).take width).length = width := by
    rw [List.length_take, List.length_drop]
    omega
  have loaded : regs.heap.read (temp + copied) width = some ((right.drop copied).take width) := by
    have located := (copying.inTemp.window copied width (by omega)).read
    rwa [piece] at located
  have front : (right.take copied).length = copied := by
    rw [List.length_take]
    omega
  rw [← List.append_nil (right.take copied ++ gap)] at inDest
  obtain ⟨stored, held⟩ := inDest.write_front ((right.drop copied).take width) (by omega)
  rw [front] at stored held
  have stepped : copyBlock width regs = some
      { heap := regs.heap.splice (dest + copied) ((right.drop copied).take width),
        tempSpace := temp + copied + width, bottom := dest + copied + width, top := regs.top - width } := by
    simp only [copyBlock, loaded, Option.bind_eq_bind, Option.bind_some, copying.source, copying.target, stored]
  refine ⟨_, stepped, rfl, ?_⟩
  constructor
  · push_cast
    ring
  · push_cast
    ring
  · simp only
    omega
  · exact copying.inTemp.splice_disjoint (by omega)
  · refine ⟨gap.drop width, by rw [List.length_drop, gapLength], ?_⟩
    rw [List.take_add]
    simpa [piece] using held
  · intro cell outside
    exact (Heap.splice_outside (by omega)).trans (copying.frame cell outside)

theorem copyLoop_spec (width : Nat) (positive : 0 < width)
    (apart : dest + right.length ≤ temp ∨ temp + right.length ≤ dest)
    (copying : Copying initial temp dest right regs copied) :
    ∃ next reached, copyLoop width regs = some next ∧ next.top ≤ regs.top ∧
      Copying initial temp dest right next reached := by
  obtain ⟨next, run, ⟨⟨reached, kept⟩, fewer⟩, _⟩ := whileLoop_rule
    (fun regs => some (width ≤ regs.top)) (copyBlock width)
    (fun state => (∃ copied, Copying initial temp dest right state copied) ∧ state.top ≤ regs.top)
    CopyRegs.top
    (by
      intro state ⟨⟨copied, copying⟩, fewer⟩
      by_cases enough : width ≤ state.top
      · right
        obtain ⟨next, block, shorter, advanced⟩ := copyBlock_spec width apart copying enough
        exact ⟨by simp [enough], next, block, ⟨⟨_, advanced⟩, by omega⟩, by omega⟩
      · left
        simp [enough])
    regs ⟨⟨copied, copying⟩, le_rfl⟩ (regs.top + 1) (by omega)
  exact ⟨next, reached, run, fewer, kept⟩

theorem copyBack_spec (apart : dest + right.length ≤ temp ∨ temp + right.length ≤ dest)
    (copying : Copying initial temp dest right regs 0) :
    ∃ final, copyBack regs = some final ∧ final.heap.Holds dest right ∧
      final.heap.Holds temp right ∧
      ∀ cell, Outside cell dest right.length → final.heap cell = initial cell := by
  obtain ⟨wide, _, wideRun, _, wideCopying⟩ := copyLoop_spec 32 (by decide) apart copying
  obtain ⟨single, reached, singleRun, _, singleCopying⟩ := copyLoop_spec 8 (by decide) apart wideCopying
  obtain ⟨final, run, ⟨reached, kept⟩, stop⟩ := whileLoop_rule
    (fun regs => some (regs.top ≠ 0))
    (fun regs => do
      let regs ← copyBlock 1 regs
      copyLoop 8 regs)
    (fun state => ∃ copied, Copying initial temp dest right state copied)
    CopyRegs.top
    (by
      intro state ⟨copied, copying⟩
      by_cases more : state.top ≠ 0
      · right
        obtain ⟨middle, block, shorter, advanced⟩ :=
          copyBlock_spec 1 apart copying (by omega)
        obtain ⟨next, reached, loop, fewer, looped⟩ := copyLoop_spec 8 (by decide) apart advanced
        exact ⟨by simp [more], next, by simp [block, loop], ⟨_, looped⟩, by omega⟩
      · left
        simpa using more)
    single ⟨reached, singleCopying⟩ (single.top + 1) (by omega)
  have finished : final.top = 0 := by simpa using stop
  have remaining := kept.remaining
  obtain ⟨gap, gapLength, inDest⟩ := kept.inDest
  have whole : copyBack regs = some final := by
    simp only [copyBack, wideRun, singleRun, Option.bind_eq_bind, Option.bind_some]
    exact run
  refine ⟨final, whole, ?_, kept.inTemp, kept.frame⟩
  have empty : gap = [] := List.eq_nil_of_length_eq_zero (by omega)
  rwa [empty, List.append_nil, List.take_of_length_le (by omega)] at inDest

end

/-! The median of three. -/

theorem orderThree_perm (el1 el2 el3 : Word) :
    [(orderThree el1 el2 el3).1, (orderThree el1 el2 el3).2.1, (orderThree el1 el2 el3).2.2].Perm
      [el1, el2, el3] := by
  have swapFirst (x y z : Word) : [y, x, z].Perm [x, y, z] := List.Perm.swap ..
  have swapLast (x y z : Word) : [x, z, y].Perm [x, y, z] := (List.Perm.swap ..).cons _
  by_cases ordered : el1 ≤ el2
  · simp only [orderThree, if_pos ordered]
    split_ifs
    · exact List.Perm.refl _
    · exact swapLast ..
    · exact (swapFirst ..).trans (swapLast ..)
  · simp only [orderThree, if_neg ordered]
    split_ifs
    · exact swapFirst ..
    · exact (swapLast ..).trans (swapFirst ..)
    · exact (swapFirst ..).trans ((swapLast ..).trans (swapFirst ..))

def medianRewrite (values : List Word) : List Word :=
  let n := values.length
  let (el1, el2, el3) := orderThree (values.getD 0 0) (values.getD (n - 1) 0) (values.getD (n / 2) 0)
  ((values.set 0 el1).set (n / 2) el3).set (n - 1) el2

@[simp] theorem medianRewrite_length (values : List Word) :
    (medianRewrite values).length = values.length := by simp [medianRewrite]

theorem split_three (values : List Word) (large : 3 ≤ values.length) :
    ∃ (first middle last : Word) (before after : List Word),
      values = first :: (before ++ middle :: (after ++ [last])) ∧
        values.length / 2 = before.length + 1 := by
  obtain ⟨first, rest, rfl⟩ := List.exists_cons_of_length_pos (by omega : 0 < values.length)
  rw [List.length_cons] at large
  rcases List.eq_nil_or_concat rest with rfl | ⟨body, last, rfl⟩
  · simp at large
  · rw [List.concat_eq_append] at large ⊢
    rw [List.length_append, List.length_singleton] at large
    have place : body.length / 2 < body.length := by omega
    have rebuilt : body = body.take (body.length / 2) ++
        body[body.length / 2] :: body.drop (body.length / 2 + 1) := by
      rw [← List.drop_eq_getElem_cons place, List.take_append_drop]
    refine ⟨first, body[body.length / 2], last, body.take (body.length / 2),
      body.drop (body.length / 2 + 1), ?_, ?_⟩
    · exact (congrArg (fun piece => first :: (piece ++ [last])) rebuilt).trans
        (by simp only [List.append_assoc, List.cons_append])
    · simp only [List.length_cons, List.length_append, List.length_take, List.length_nil]
      omega

theorem three_perm (first middle last : Word) (before after : List Word) :
    (first :: (before ++ middle :: (after ++ [last]))).Perm ([first, last, middle] ++ (before ++ after)) := by
  have tail : (before ++ middle :: (after ++ [last])).Perm (last :: middle :: (before ++ after)) := by
    have moved : (before ++ middle :: (after ++ [last])).Perm (middle :: (before ++ (after ++ [last]))) :=
      List.perm_middle
    rw [← List.append_assoc before after] at moved
    exact moved.trans (((List.perm_append_singleton last _).cons middle).trans (List.Perm.swap ..))
  exact tail.cons first

theorem medianRewrite_split (first middle last : Word) (before after : List Word)
    (half : (first :: (before ++ middle :: (after ++ [last]))).length / 2 = before.length + 1) :
    medianRewrite (first :: (before ++ middle :: (after ++ [last]))) =
      (orderThree first last middle).1 ::
        (before ++ (orderThree first last middle).2.2 :: (after ++ [(orderThree first last middle).2.1])) := by
  have final : (first :: (before ++ middle :: (after ++ [last]))).length - 1 =
      before.length + (after.length + 1) + 1 := by
    simp only [List.length_cons, List.length_append, List.length_nil]
    omega
  have atMiddle : (first :: (before ++ middle :: (after ++ [last]))).getD (before.length + 1) 0 = middle := by
    simp
  have atLast : (first :: (before ++ middle :: (after ++ [last]))).getD
      (before.length + (after.length + 1) + 1) 0 = last := by
    simp
  simp only [medianRewrite, half, final, atMiddle, atLast, List.getD_cons_zero]
  simp [List.set_append_right]

theorem medianRewrite_perm (values : List Word) (large : 3 ≤ values.length) :
    (medianRewrite values).Perm values := by
  obtain ⟨first, middle, last, before, after, rfl, half⟩ := split_three values large
  rw [medianRewrite_split _ _ _ _ _ half]
  exact (three_perm ..).trans (((orderThree_perm first last middle).append_right _).trans (three_perm ..).symm)

theorem medianOfThree_spec {heap : Heap Word} {array : Int} {values : List Word}
    (positive : 0 < values.length) (held : heap.Holds array values) :
    ∃ final, medianOfThree heap array values.length = some final ∧
      final.Holds array (medianRewrite values) ∧
      ∀ cell, Outside cell array values.length → final cell = heap cell := by
  have lastPlace : array + values.length - 1 = array + (values.length - 1 : Nat) := by omega
  have loads (index : Nat) (inside : index < values.length) :
      heap.load (array + index) = some (values.getD index 0) := by
    rw [held.load index inside]
    simp [inside]
  have loadFirst : heap.load array = some (values.getD 0 0) := by simpa using loads 0 positive
  generalize ordered : orderThree (values.getD 0 0) (values.getD (values.length - 1) 0)
    (values.getD (values.length / 2) 0) = three
  obtain ⟨el1, el2, el3⟩ := three
  obtain ⟨heap1, store1, held1, frame1⟩ := held.store_set 0 positive el1
  obtain ⟨heap2, store2, held2, frame2⟩ :=
    held1.store_set (values.length / 2) (by rw [List.length_set]; omega) el3
  obtain ⟨heap3, store3, held3, frame3⟩ :=
    held2.store_set (values.length - 1) (by rw [List.length_set, List.length_set]; omega) el2
  simp only [List.length_set] at frame2 frame3
  refine ⟨heap3, ?_, ?_, fun cell outside => ?_⟩
  · simp only [Nat.cast_zero, add_zero] at store1
    simp only [medianOfThree, lastPlace, loadFirst, loads _ (show values.length / 2 < values.length by omega),
      loads _ (show values.length - 1 < values.length by omega), Option.bind_eq_bind, Option.bind_some,
      ordered, store1, store2, store3]
  · simp only [medianRewrite, ordered]
    exact held3
  · rw [frame3 cell outside, frame2 cell outside, frame1 cell outside]

/-! The partition as a whole. -/

/-- The elements that end up before the pivot: the vector part sends equal elements
right, the scalar tail of fewer than eight elements sends them left. -/
def leftPart (pivot : Word) (values : List Word) : List Word :=
  (values.take (8 * (values.length / 8))).filter (belowPivot pivot) ++
    (values.drop (8 * (values.length / 8))).filter fun element => !pivot.slt element

def rightPart (pivot : Word) (values : List Word) : List Word :=
  (values.take (8 * (values.length / 8))).filter (atLeastPivot pivot) ++
    (values.drop (8 * (values.length / 8))).filter fun element => pivot.slt element

theorem parts_perm (pivot : Word) (values : List Word) :
    (leftPart pivot values ++ rightPart pivot values).Perm values := by
  have vector := List.filter_append_perm (belowPivot pivot) (values.take (8 * (values.length / 8)))
  have scalar := List.filter_append_perm (fun element => !pivot.slt element)
    (values.drop (8 * (values.length / 8)))
  simp only [Bool.not_not] at scalar
  have both := vector.append scalar
  rw [List.take_append_drop] at both
  refine List.Perm.trans ?_ both
  unfold leftPart rightPart
  simp only [List.append_assoc]
  apply List.Perm.append_left
  simp only [← List.append_assoc]
  exact List.Perm.append_right _ List.perm_append_comm

theorem progress_start {heap : Heap Word} {array temp : Int} {values spare : List Word} {pivot : Word}
    (inArray : heap.Holds array (values ++ [pivot])) (inTemp : heap.Holds temp spare) (room : spare.length = values.length) :
    Progress heap array temp values pivot { heap, array, bottom := array, top := temp, n := values.length } [] [] 0 := by
  constructor
  · simp
  · simp
  · simp
  · simp
  · simp
  · exact ⟨[], rfl, by simpa using inArray⟩
  · exact ⟨spare, by simpa using room, by simpa using inTemp⟩
  · exact fun cell _ _ => rfl

theorem partitionLoops_spec {heap : Heap Word} {array temp : Int} {values spare : List Word} {pivot : Word}
    (apart : array + (values.length + 1) ≤ temp ∨ temp + values.length ≤ array)
    (inArray : heap.Holds array (values ++ [pivot])) (inTemp : heap.Holds temp spare)
    (room : spare.length = values.length) :
    ∃ regs, partitionLoops pivot { heap, array, bottom := array, top := temp, n := values.length } =
        some regs ∧
      Progress heap array temp values pivot regs (leftPart pivot values) (rightPart pivot values)
        values.length := by
  have start : Progress heap array temp values pivot
      { heap, array, bottom := array, top := temp, n := values.length }
      ((values.take 0).filter (belowPivot pivot)) ((values.take 0).filter (atLeastPivot pivot)) 0 :=
    progress_start inArray inTemp room
  obtain ⟨regs7, done7, run7, _, whole7, progress7⟩ := vectorLoop_spec 7 (by decide) apart (by decide) start
  obtain ⟨regs3, done3, run3, _, whole3, progress3⟩ := vectorLoop_spec 3 (by decide) apart whole7 progress7
  obtain ⟨regs1, done1, run1, few, whole1, progress1⟩ := vectorLoop_spec 1 (by decide) apart whole3 progress3
  obtain ⟨regs, run, progress⟩ := lsLoop_spec apart progress1
  have remaining := progress1.remaining
  have reached : done1 = 8 * (values.length / 8) := by omega
  rw [reached] at progress
  exact ⟨regs, by simp only [partitionLoops, lx7Loop, lx3Loop, lx1Loop, run7, run3, run1, Option.bind_eq_bind,
    Option.bind_some, run], progress⟩

theorem placePivot_spec {initial : Heap Word} {array temp : Int} {values left right : List Word} {pivot : Word}
    {regs : Regs} (apart : array + (values.length + 1) ≤ temp ∨ temp + values.length ≤ array)
    (progress : Progress initial array temp values pivot regs left right values.length) :
    ∃ placed spare rest, regs.heap.store (array + left.length) pivot = some placed ∧
      placed.Holds array (left ++ [pivot]) ∧ spare.length = right.length ∧
      placed.Holds (array + (left.length + 1 : Nat)) spare ∧ right.length + rest.length = values.length ∧
      placed.Holds temp (right ++ rest) ∧
      ∀ cell, Outside cell array (values.length + 1) → placed cell = regs.heap cell := by
  have split := progress.split
  obtain ⟨gap, gapLength, inArray⟩ := progress.inArray
  obtain ⟨rest, restLength, inTemp⟩ := progress.inTemp
  have arranged : left ++ gap ++ (values.drop values.length ++ [pivot]) = left ++ (gap ++ [pivot]) ++ [] := by
    rw [List.drop_length]
    simp
  rw [arranged] at inArray
  obtain ⟨stored, held⟩ := inArray.write_front [pivot] (by simp)
  rw [List.append_nil, ← List.append_assoc, Heap.holds_append] at held
  obtain ⟨heldLeft, heldGap⟩ := held
  rw [List.length_append, List.length_singleton] at heldGap
  have frame : ∀ cell, Outside cell array (values.length + 1) →
      regs.heap.splice (array + left.length) [pivot] cell = regs.heap cell := fun cell outside =>
    Heap.splice_outside (by rw [List.length_singleton]; omega)
  refine ⟨_, (gap ++ [pivot]).drop 1, rest, stored, heldLeft, by simp [gapLength], heldGap, restLength, ?_, frame⟩
  apply inTemp.frame frame
  rw [List.length_append]
  omega

structure Placing (heap : Heap Word) (array temp : Int) (values : List Word) (median : Heap Word) (front : List Word)
    (pivot : Word) (regs : Regs) (placed : Heap Word) : Prop where
  rewritten : medianRewrite values = front ++ [pivot]
  size : values.length - 1 = front.length
  sampled : medianOfThree heap array values.length = some median
  loaded : median.load (array + values.length - 1) = some pivot
  start : Progress median array temp front pivot
    { heap := median, array, bottom := array, top := temp, n := values.length - 1 } [] [] 0
  partitioned : partitionLoops pivot { heap := median, array, bottom := array, top := temp, n := values.length - 1 } = some regs
  progress : Progress median array temp front pivot regs (leftPart pivot front) (rightPart pivot front) front.length
  count : (regs.top - temp).toNat = (rightPart pivot front).length
  stored : regs.heap.store regs.bottom pivot = some placed
  placedLeft : placed.Holds array (leftPart pivot front ++ [pivot])
  waiting : ∃ rest, (rightPart pivot front).length + rest.length = front.length ∧
    placed.Holds temp (rightPart pivot front ++ rest)
  copying : Copying placed temp (array + ((leftPart pivot front).length + 1 : Nat)) (rightPart pivot front)
    { heap := placed, tempSpace := temp, bottom := regs.bottom + 1, top := (rightPart pivot front).length } 0
  frame : ∀ cell, Outside cell array values.length → Outside cell temp (values.length - 1) → placed cell = heap cell

theorem qsortAVX2_placing {heap : Heap Word} {array temp : Int} {values : List Word} (large : 3 ≤ values.length)
    (apart : array + values.length ≤ temp ∨ temp + (values.length - 1 : Nat) ≤ array)
    (held : heap.Holds array values) (allocated : heap.Allocated temp (values.length - 1)) :
    ∃ median front pivot regs placed, Placing heap array temp values median front pivot regs placed := by
  obtain ⟨median, sampled, held1, frame1⟩ := medianOfThree_spec (by omega) held
  have lengths := medianRewrite_length values
  rcases List.eq_nil_or_concat (medianRewrite values) with empty | ⟨front, pivot, split⟩
  · rw [empty, List.length_nil] at lengths
    omega
  rw [List.concat_eq_append] at split
  rw [split] at held1 lengths
  rw [List.length_append, List.length_singleton] at lengths
  have size : values.length - 1 = front.length := by omega
  have apart' : array + (front.length + 1) ≤ temp ∨ temp + front.length ≤ array := by omega
  rw [size] at allocated
  obtain ⟨spare, spareLength, spareHeld⟩ := allocated.exists_holds
  have inTemp : median.Holds temp spare := spareHeld.frame frame1 (by omega)
  have start := progress_start held1 inTemp spareLength
  obtain ⟨regs, partitioned, progress⟩ := partitionLoops_spec apart' held1 inTemp spareLength
  have loaded : median.load (array + values.length - 1) = some pivot := by
    have cell := (Heap.holds_singleton.mp (Heap.holds_append.mp held1).2)
    rw [← cell]
    unfold Heap.load
    congr 1
    omega
  obtain ⟨placed, gap, rest, stored, heldLeft, gapLength, heldGap, restLength, inTemp2, frame2⟩ :=
    placePivot_spec apart' progress
  have split' := progress.split
  rw [← size] at start partitioned
  rw [← progress.bottom] at stored
  refine ⟨median, front, pivot, regs, placed, split, size, sampled, loaded, start, partitioned, progress, ?_, stored, heldLeft,
    ⟨rest, restLength, inTemp2⟩, ?_, fun cell outArray outTemp => ?_⟩
  · rw [progress.top]
    omega
  · constructor
    · simp
    · rw [progress.bottom]
      push_cast
      ring
    · simp
    · exact (Heap.holds_append.mp inTemp2).1
    · exact ⟨gap, gapLength, by simpa using heldGap⟩
    · exact fun cell _ => rfl
  · rw [frame2 cell (by omega), progress.frame cell (by omega) (by omega), frame1 cell outArray]

/-- `qsort_AVX2` on an array of at least three elements: the median-of-three rewrite,
then the stable partition around its last element. -/
theorem qsortAVX2_spec {heap : Heap Word} {array temp : Int} {values : List Word}
    (large : 3 ≤ values.length)
    (apart : array + values.length ≤ temp ∨ temp + (values.length - 1 : Nat) ≤ array)
    (held : heap.Holds array values) (allocated : heap.Allocated temp (values.length - 1)) :
    ∃ final pivot front, medianRewrite values = front ++ [pivot] ∧
      qsortAVX2 heap array temp values.length = some (final, (rightPart pivot front).length) ∧
      final.Holds array (leftPart pivot front ++ [pivot] ++ rightPart pivot front) ∧
      final.Holds temp (rightPart pivot front) ∧ final.Allocated temp (values.length - 1) ∧
      ∀ cell, Outside cell array values.length → Outside cell temp (values.length - 1) →
        final cell = heap cell := by
  obtain ⟨median, front, pivot, regs, placed, placing⟩ := qsortAVX2_placing large apart held allocated
  have size := placing.size
  have split' := placing.progress.split
  obtain ⟨copied, copyRun, heldRight, waiting, frame3⟩ := copyBack_spec (by omega) placing.copying
  obtain ⟨rest, restLength, inTemp⟩ := placing.waiting
  refine ⟨copied.heap, pivot, front, placing.rewritten, ?_, ?_, waiting, ?_, fun cell outArray outTemp => ?_⟩
  · simp only [qsortAVX2, placing.sampled, placing.loaded, Option.bind_eq_bind, Option.bind_some, placing.partitioned,
      placing.stored, placing.count, copyRun]
  · rw [Heap.holds_append]
    refine ⟨placing.placedLeft.congr fun cell low high => frame3 cell ?_, ?_⟩
    · rw [List.length_append, List.length_singleton] at high
      omega
    · rw [List.length_append, List.length_singleton]
      exact heldRight
  · have final : copied.heap.Holds temp (rightPart pivot front ++ rest) :=
      inTemp.congr fun cell low high => frame3 cell (by rw [List.length_append] at high; omega)
    have cells := final.allocated
    rwa [List.length_append, restLength, ← size] at cells
  · rw [frame3 cell (by omega), placing.frame cell outArray outTemp]

/-- With `a` rewritten by the median of three, `p` its last element and the others cut where the last
whole vector ends, `qsort_AVX2` leaves the elements of either piece that are below `p`, then `p`, then
the rest of either piece, each in the order it had; an element equal to `p` goes right in the first
piece and left in the second. -/
theorem qsortAVX2_filters (heap : Heap Word) (array temp : Int) (values : List Word) (large : 3 ≤ values.length)
    (apart : array + values.length ≤ temp ∨ temp + (values.length - 1 : Nat) ≤ array)
    (held : heap.Holds array values) (allocated : heap.Allocated temp (values.length - 1)) :
    ∃ rewritten vectors scalars p median final count,
      medianOfThree heap array values.length = some median ∧ median.Holds array rewritten ∧ rewritten.Perm values ∧
      rewritten = vectors ++ scalars ++ [p] ∧ vectors.length = 8 * ((values.length - 1) / 8) ∧
      qsortAVX2 heap array temp values.length = some (final, count) ∧
      final.Holds array (vectors.filter (fun e => e.slt p) ++ scalars.filter (fun e => e.sle p) ++ [p] ++
        vectors.filter (fun e => p.sle e) ++ scalars.filter fun e => p.slt e) ∧
      count = (vectors.filter (fun e => p.sle e) ++ scalars.filter fun e => p.slt e).length := by
  obtain ⟨median, rewrote, rewrittenHeld, -⟩ := medianOfThree_spec (by omega) held
  obtain ⟨final, p, front, split, run, sorted, -, -, -⟩ := qsortAVX2_spec large apart held allocated
  have lengths := congrArg List.length split
  rw [medianRewrite_length, List.length_append, List.length_singleton] at lengths
  have size : values.length - 1 = front.length := by omega
  have left : leftPart p front = (front.take (8 * (front.length / 8))).filter (fun e => e.slt p) ++
      (front.drop (8 * (front.length / 8))).filter fun e => e.sle p := by
    simp only [leftPart, BitVec.sle_eq_not_slt]
  have right : rightPart p front = (front.take (8 * (front.length / 8))).filter (fun e => p.sle e) ++
      (front.drop (8 * (front.length / 8))).filter fun e => p.slt e := by
    simp only [rightPart, BitVec.sle_eq_not_slt]
  refine ⟨medianRewrite values, front.take (8 * (front.length / 8)), front.drop (8 * (front.length / 8)), p, median, final,
    (rightPart p front).length, rewrote, rewrittenHeld, medianRewrite_perm values large, ?_, ?_, run, ?_, ?_⟩
  · rw [List.take_append_drop, split]
  · rw [List.length_take, size]
    omega
  · rw [left, right] at sorted
    simpa only [List.append_assoc] using sorted
  · rw [right]

theorem qsortAVX2_filters_nine :
    ∃ rewritten vectors scalars p median final count,
      medianOfThree ((Heap.splice Heap.empty 0 [3, 1, 2, 2, 5, 0, 2, 4, 1]).splice 16 (List.replicate 8 0)) 0 9 = some median ∧
      median.Holds 0 rewritten ∧ rewritten.Perm [3, 1, 2, 2, 5, 0, 2, 4, 1] ∧
      rewritten = vectors ++ scalars ++ [p] ∧ vectors.length = 8 * ((9 - 1) / 8) ∧
      qsortAVX2 ((Heap.splice Heap.empty 0 [3, 1, 2, 2, 5, 0, 2, 4, 1]).splice 16 (List.replicate 8 0)) 0 16 9 =
        some (final, count) ∧
      final.Holds 0 (vectors.filter (fun e => e.slt p) ++ scalars.filter (fun e => e.sle p) ++ [p] ++
        vectors.filter (fun e => p.sle e) ++ scalars.filter fun e => p.slt e) ∧
      count = (vectors.filter (fun e => p.sle e) ++ scalars.filter fun e => p.slt e).length :=
  qsortAVX2_filters ((Heap.splice Heap.empty 0 [3, 1, 2, 2, 5, 0, 2, 4, 1]).splice 16 (List.replicate 8 0)) 0 16
    [3, 1, 2, 2, 5, 0, 2, 4, 1] (by decide) (Or.inl (by decide))
    (Heap.holds_splice_self.splice_disjoint (Or.inl (by decide))) Heap.holds_splice_self.allocated

end Mbench.SortSpeed
