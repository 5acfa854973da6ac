import Mbench.SortSpeed.QsortAvx2Lanes

/-! The partition loops of `qsort_AVX2`. One invariant serves the three vector loops
and the scalar loop: the elements read so far have gone, in order, to the left part of
the array or to the temp buffer, and the array still holds every element not yet read. -/

namespace Mbench.SortSpeed
open Library

theorem storePermuted_fold {keep : Word → Bool} {table : List (List Nat)} {advance : Nat → Int}
    {pivot : Word} (compresses : Compresses keep table advance pivot) (blocks : List (List Word))
    (full : ∀ lanes ∈ blocks, lanes.length = 8) (heap : Heap Word) (base : Int)
    (kept gap after : List Word) (room : 8 * blocks.length ≤ gap.length)
    (held : heap.Holds base (kept ++ gap ++ after)) :
    ∃ final rest, blocks.foldlM (storePermuted table advance pivot) (heap, base + kept.length) =
        some (final, base + (kept ++ blocks.flatten.filter keep).length) ∧
      final.Holds base ((kept ++ blocks.flatten.filter keep) ++ rest ++ after) ∧
      (blocks.flatten.filter keep).length + rest.length = gap.length ∧
      ∀ cell, Outside cell base (kept.length + gap.length) → final cell = heap cell := by
  induction blocks generalizing heap kept gap with
  | nil => exact ⟨heap, gap, by simp, by simpa using held, by simp, fun _ _ => rfl⟩
  | cons lanes blocks ih =>
    obtain ⟨extra, stored, wide, moved⟩ := compresses lanes (full lanes (by simp))
    rw [List.length_cons] at room
    obtain ⟨written, after_write⟩ := held.write_front (lanes.filter keep ++ extra) (by omega)
    have regrouped : kept ++ (lanes.filter keep ++ extra ++ gap.drop (lanes.filter keep ++ extra).length) ++ after =
        (kept ++ lanes.filter keep) ++ (extra ++ gap.drop 8) ++ after := by
      rw [wide]
      simp only [List.append_assoc]
    rw [regrouped] at after_write
    rw [List.length_append] at wide
    obtain ⟨final, rest, run, holds, lengths, frame⟩ := ih
      (fun other member => full other (List.mem_cons_of_mem _ member)) _ _ (extra ++ gap.drop 8)
      (by rw [List.length_append, List.length_drop]; omega) after_write
    rw [List.length_append, List.length_drop] at lengths
    refine ⟨final, rest, ?_, ?_, ?_, fun cell outside => ?_⟩
    · simp only [List.foldlM_cons, storePermuted, stored, written, moved, List.flatten_cons,
        List.filter_append]
      simpa [add_assoc] using run
    · simpa only [List.flatten_cons, List.filter_append, List.append_assoc] using holds
    · rw [List.flatten_cons, List.filter_append, List.length_append]
      omega
    · rw [frame cell (by simp only [List.length_append, List.length_drop]; omega),
        Heap.splice_outside (by rw [List.length_append]; omega)]

/-- The state of the partition after `done` of the elements before the pivot: `left` and
`right` are where they went. -/
structure Progress (initial : Heap Word) (array temp : Int) (values : List Word) (pivot : Word)
    (regs : Regs) (left right : List Word) (done : Nat) : Prop where
  reads : regs.array = array + done
  bottom : regs.bottom = array + left.length
  top : regs.top = temp + right.length
  remaining : done + regs.n = values.length
  split : left.length + right.length = done
  inArray : ∃ gap : List Word, gap.length = right.length ∧
    regs.heap.Holds array (left ++ gap ++ (values.drop done ++ [pivot]))
  inTemp : ∃ spare : List Word, right.length + spare.length = values.length ∧
    regs.heap.Holds temp (right ++ spare)
  frame : ∀ cell, Outside cell array (values.length + 1) → Outside cell temp values.length →
    regs.heap cell = initial cell

def vectors (rest : List Word) (unroll : Nat) : List (List Word) :=
  (List.range unroll).map fun index => (rest.drop (8 * index)).take 8

theorem vectors_length (rest : List Word) (unroll : Nat) : (vectors rest unroll).length = unroll := by
  simp [vectors]

theorem vectors_full (rest : List Word) (unroll : Nat) (enough : 8 * unroll ≤ rest.length) :
    ∀ lanes ∈ vectors rest unroll, lanes.length = 8 := by
  intro lanes member
  obtain ⟨index, inside, rfl⟩ := List.mem_map.mp member
  have bound := List.mem_range.mp inside
  rw [List.length_take, List.length_drop]
  omega

theorem vectors_flatten (rest : List Word) (unroll : Nat) :
    (vectors rest unroll).flatten = rest.take (8 * unroll) := by
  induction unroll with
  | zero => simp [vectors]
  | succ unroll ih =>
    rw [vectors, List.range_succ, List.map_append, List.flatten_append, ← vectors, ih, Nat.mul_succ,
      List.take_add]
    simp

section
variable {initial : Heap Word} {array temp : Int} {values : List Word} {pivot : Word}
  {regs : Regs} {left right : List Word} {done unroll : Nat}

theorem Progress.unread (progress : Progress initial array temp values pivot regs left right done) :
    regs.heap.Holds regs.array (values.drop done) := by
  obtain ⟨gap, gapLength, held⟩ := progress.inArray
  have split := progress.split
  have located := (Heap.holds_append.mp (Heap.holds_append.mp held).2).1
  rw [List.length_append, gapLength, split, ← progress.reads] at located
  exact located

theorem Progress.loads (progress : Progress initial array temp values pivot regs left right done)
    (enough : 8 * unroll ≤ regs.n) :
    (List.range unroll).mapM (fun i : Nat => regs.heap.read (regs.array + (8 * i : Nat)) 8) =
      some (vectors (values.drop done) unroll) := by
  have remaining := progress.remaining
  apply mapM_eq_map
  intro index member
  have bound := List.mem_range.mp member
  have located := progress.unread.window (8 * index) 8 (by rw [List.length_drop]; omega)
  have lengths : (((values.drop done).drop (8 * index)).take 8).length = 8 := by
    rw [List.length_take, List.length_drop, List.length_drop]
    omega
  simpa only [lengths] using located.read

/-- The stores of a block: its left parts go into the gap of the array, then its right parts into the temp buffer. -/
theorem storeParts_spec (pivot : Word) (blocks : List (List Word)) (full : ∀ lanes ∈ blocks, lanes.length = 8) {heap : Heap Word}
    {gap after spare : List Word} (room : 8 * blocks.length ≤ gap.length) (spareRoom : 8 * blocks.length ≤ spare.length)
    (apart : array + (left ++ gap ++ after).length ≤ temp ∨ temp + (right ++ spare).length ≤ array)
    (inArray : heap.Holds array (left ++ gap ++ after)) (inTemp : heap.Holds temp (right ++ spare)) :
    ∃ middle final gap' spare',
      blocks.foldlM (storeBottom pivot) (heap, array + left.length) =
        some (middle, array + (left ++ blocks.flatten.filter (belowPivot pivot)).length) ∧
      blocks.foldlM (storeTop pivot) (middle, temp + right.length) =
        some (final, temp + (right ++ blocks.flatten.filter (atLeastPivot pivot)).length) ∧
      final.Holds array (left ++ blocks.flatten.filter (belowPivot pivot) ++ gap' ++ after) ∧
      final.Holds temp (right ++ blocks.flatten.filter (atLeastPivot pivot) ++ spare') ∧
      (blocks.flatten.filter (belowPivot pivot)).length + gap'.length = gap.length ∧
      (blocks.flatten.filter (atLeastPivot pivot)).length + spare'.length = spare.length ∧
      ∀ cell, Outside cell array (left ++ gap).length → Outside cell temp (right ++ spare).length →
        final cell = heap cell := by
  obtain ⟨middle, gap', bottomRun, middleArray, gapLength, middleFrame⟩ :=
    storePermuted_fold (storeBottom_compresses pivot) blocks full heap array left gap after room inArray
  rw [← List.length_append] at middleFrame
  have middleTemp : middle.Holds temp (right ++ spare ++ []) := by
    rw [List.append_nil]
    apply inTemp.frame middleFrame
    rw [List.length_append] at apart
    omega
  obtain ⟨final, spare', topRun, finalTemp, spareLength, finalFrame⟩ :=
    storePermuted_fold (storeTop_compresses pivot) blocks full middle temp right spare [] spareRoom middleTemp
  rw [← List.length_append] at finalFrame
  rw [List.append_nil] at finalTemp
  refine ⟨middle, final, gap', spare', bottomRun, topRun, ?_, finalTemp, gapLength, spareLength,
    fun cell outArray outTemp => (finalFrame cell outTemp).trans (middleFrame cell outArray)⟩
  apply middleArray.frame finalFrame
  simp only [List.length_append] at apart ⊢
  omega

/-- The stores of one turn: the elements read are in their parts, and as much of the array is free again. -/
theorem Progress.stores (apart : array + (values.length + 1) ≤ temp ∨ temp + values.length ≤ array)
    (progress : Progress initial array temp values pivot regs left right done) (enough : 8 * unroll ≤ regs.n) {chunk : List Word}
    (chunkEq : (values.drop done).take (8 * unroll) = chunk) :
    ∃ middle final gap spare,
      (vectors (values.drop done) unroll).foldlM (storeBottom pivot) (regs.heap, regs.bottom) =
        some (middle, array + (left ++ chunk.filter (belowPivot pivot)).length) ∧
      (vectors (values.drop done) unroll).foldlM (storeTop pivot) (middle, regs.top) =
        some (final, temp + (right ++ chunk.filter (atLeastPivot pivot)).length) ∧
      final.Holds array (left ++ chunk.filter (belowPivot pivot) ++ gap ++ (values.drop (done + 8 * unroll) ++ [pivot])) ∧
      final.Holds temp (right ++ chunk.filter (atLeastPivot pivot) ++ spare) ∧
      gap.length = (right ++ chunk.filter (atLeastPivot pivot)).length ∧
      (right ++ chunk.filter (atLeastPivot pivot)).length + spare.length = values.length ∧
      ∀ cell, Outside cell array (values.length + 1) → Outside cell temp values.length → final cell = regs.heap cell := by
  have remaining := progress.remaining
  have split := progress.split
  obtain ⟨gap, gapLength, inArray⟩ := progress.inArray
  obtain ⟨spare, spareLength, inTemp⟩ := progress.inTemp
  have available : 8 * unroll ≤ (values.drop done).length := by
    rw [List.length_drop]
    omega
  have wide := vectors_length (values.drop done) unroll
  have chunkLength : chunk.length = 8 * unroll := by
    rw [← chunkEq, List.length_take]
    omega
  have arranged : left ++ gap ++ (values.drop done ++ [pivot]) =
      left ++ (gap ++ chunk) ++ (values.drop (done + 8 * unroll) ++ [pivot]) := by
    conv_lhs => rw [← List.take_append_drop (8 * unroll) (values.drop done), chunkEq, List.drop_drop]
    simp only [List.append_assoc]
  rw [arranged] at inArray
  obtain ⟨middle, final, gap', spare', bottomRun, topRun, finalArray, finalTemp, gapRest, spareRest, frame⟩ :=
    storeParts_spec pivot (vectors (values.drop done) unroll) (vectors_full _ _ available)
      (by rw [wide, List.length_append]; omega) (by omega)
      (by simp only [List.length_append, List.length_drop, List.length_singleton]; omega) inArray inTemp
  rw [vectors_flatten, chunkEq] at bottomRun topRun finalArray finalTemp gapRest spareRest
  have both : (chunk.filter (belowPivot pivot) ++ chunk.filter (atLeastPivot pivot)).length = chunk.length :=
    (List.filter_append_perm (belowPivot pivot) chunk).length_eq
  rw [List.length_append] at gapRest both
  simp only [List.length_append] at frame
  rw [progress.bottom, progress.top]
  refine ⟨middle, final, gap', spare', bottomRun, topRun, finalArray, finalTemp, ?_, ?_, fun cell outArray outTemp =>
    frame cell (by omega) (by omega)⟩
  · rw [List.length_append]
    omega
  · rw [List.length_append]
    omega

/-- One turn of a vector loop moves the next elements below the pivot to the left part
and the others to the temp buffer. -/
theorem vectorBlock_spec (apart : array + (values.length + 1) ≤ temp ∨ temp + values.length ≤ array)
    (progress : Progress initial array temp values pivot regs left right done)
    (enough : 8 * unroll ≤ regs.n) :
    ∃ next, vectorBlock unroll pivot regs = some next ∧ next.n = regs.n - 8 * unroll ∧
      Progress initial array temp values pivot next
        (left ++ ((values.drop done).take (8 * unroll)).filter (belowPivot pivot))
        (right ++ ((values.drop done).take (8 * unroll)).filter (atLeastPivot pivot))
        (done + 8 * unroll) := by
  have remaining := progress.remaining
  have split := progress.split
  have chunkLength : ((values.drop done).take (8 * unroll)).length = 8 * unroll := by
    rw [List.length_take, List.length_drop]
    omega
  generalize chunkEq : (values.drop done).take (8 * unroll) = chunk at chunkLength ⊢
  obtain ⟨middle, final, gap, spare, bottomRun, topRun, inArray, inTemp, gapLength, spareLength, frame⟩ :=
    progress.stores apart enough chunkEq
  have both : (chunk.filter (belowPivot pivot) ++ chunk.filter (atLeastPivot pivot)).length = chunk.length :=
    (List.filter_append_perm (belowPivot pivot) chunk).length_eq
  rw [List.length_append] at both
  refine ⟨{ heap := final, array := regs.array + (8 * unroll : Nat),
            bottom := array + (left ++ chunk.filter (belowPivot pivot)).length,
            top := temp + (right ++ chunk.filter (atLeastPivot pivot)).length,
            n := regs.n - 8 * unroll }, ?_, rfl, ?_⟩
  · simp only [vectorBlock, progress.loads enough, bottomRun, topRun, Option.bind_eq_bind, Option.bind_some]
  · refine ⟨?_, rfl, rfl, ?_, ?_, ⟨gap, gapLength, inArray⟩, ⟨spare, spareLength, inTemp⟩, fun cell outArray outTemp =>
      (frame cell outArray outTemp).trans (progress.frame cell outArray outTemp)⟩
    · rw [progress.reads]
      push_cast
      ring
    · simp only
      omega
    · rw [List.length_append, List.length_append]
      omega

theorem vectorLoop_spec (unroll : Nat) (positive : 0 < unroll)
    (apart : array + (values.length + 1) ≤ temp ∨ temp + values.length ≤ array)
    (whole : 8 ∣ done)
    (progress : Progress initial array temp values pivot regs
      ((values.take done).filter (belowPivot pivot)) ((values.take done).filter (atLeastPivot pivot)) done) :
    ∃ next reached, vectorLoop unroll pivot regs = some next ∧ next.n < 8 * unroll ∧ 8 ∣ reached ∧
      Progress initial array temp values pivot next
        ((values.take reached).filter (belowPivot pivot)) ((values.take reached).filter (atLeastPivot pivot))
        reached := by
  obtain ⟨next, run, ⟨reached, divides, kept⟩, stop⟩ := whileLoop_rule
    (fun regs => some (8 * unroll ≤ regs.n)) (vectorBlock unroll pivot)
    (fun regs => ∃ done, 8 ∣ done ∧ Progress initial array temp values pivot regs
      ((values.take done).filter (belowPivot pivot)) ((values.take done).filter (atLeastPivot pivot)) done)
    Regs.n
    (by
      intro regs ⟨done, divides, progress⟩
      by_cases enough : 8 * unroll ≤ regs.n
      · right
        obtain ⟨next, block, shorter, advanced⟩ := vectorBlock_spec apart progress enough
        refine ⟨by simp [enough], next, block, ⟨done + 8 * unroll, by omega, ?_⟩, by omega⟩
        rw [List.take_add, List.filter_append, List.filter_append]
        exact advanced
      · left
        simp [enough])
    regs ⟨done, whole, progress⟩ (regs.n + 1) (by omega)
  refine ⟨next, reached, run, ?_, divides, kept⟩
  simpa using stop

theorem Progress.next_load (progress : Progress initial array temp values pivot regs left right done)
    (inside : done < values.length) : regs.heap.load regs.array = some values[done] := by
  have located := progress.unread.load 0 (by rw [List.length_drop]; omega)
  simpa using located

theorem Progress.next_inArray (progress : Progress initial array temp values pivot regs left right done)
    (inside : done < values.length) :
    ∃ gap : List Word, gap.length = right.length ∧
      regs.heap.Holds array (left ++ (gap ++ [values[done]]) ++ (values.drop (done + 1) ++ [pivot])) := by
  obtain ⟨gap, gapLength, inArray⟩ := progress.inArray
  refine ⟨gap, gapLength, ?_⟩
  rw [List.drop_eq_getElem_cons inside] at inArray
  simpa only [List.append_assoc, List.cons_append, List.nil_append] using inArray

theorem scalarStep_greater (apart : array + (values.length + 1) ≤ temp ∨ temp + values.length ≤ array)
    (progress : Progress initial array temp values pivot regs left right done) (more : regs.n ≠ 0)
    (inside : done < values.length) (greater : pivot.slt values[done] = true) :
    ∃ next, scalarStep pivot regs = some next ∧ next.n = regs.n - 1 ∧
      Progress initial array temp values pivot next left (right ++ [values[done]]) (done + 1) := by
  have remaining := progress.remaining
  have split := progress.split
  obtain ⟨gap, gapLength, inArray⟩ := progress.next_inArray inside
  obtain ⟨spare, spareLength, inTemp⟩ := progress.inTemp
  rw [← List.append_nil (right ++ spare)] at inTemp
  obtain ⟨stored, held⟩ := inTemp.write_front [values[done]] (by rw [List.length_singleton]; omega)
  have stepped : scalarStep pivot regs = some
      { heap := regs.heap.splice (temp + right.length) [values[done]], array := regs.array + 1,
        bottom := regs.bottom, top := temp + right.length + 1, n := regs.n - 1 } := by
    simp only [scalarStep, progress.next_load inside, Option.bind_eq_bind, Option.bind_some, if_pos greater,
      Heap.store, progress.top, stored]
  refine ⟨_, stepped, rfl, ?_⟩
  constructor
  · simp only [progress.reads]
    push_cast
    ring
  · exact progress.bottom
  · simp
    ring
  · simp only
    omega
  · rw [List.length_append, List.length_singleton]
    omega
  · refine ⟨gap ++ [values[done]], by simp [gapLength], inArray.splice_disjoint ?_⟩
    simp only [List.length_append, List.length_drop, List.length_singleton]
    omega
  · refine ⟨spare.drop 1, by simp; omega, ?_⟩
    simpa using held
  · intro cell outArray outTemp
    exact (Heap.splice_outside (by simp; omega)).trans (progress.frame cell outArray outTemp)

theorem scalarStep_notGreater (apart : array + (values.length + 1) ≤ temp ∨ temp + values.length ≤ array)
    (progress : Progress initial array temp values pivot regs left right done) (more : regs.n ≠ 0)
    (inside : done < values.length) (notGreater : ¬pivot.slt values[done] = true) :
    ∃ next, scalarStep pivot regs = some next ∧ next.n = regs.n - 1 ∧
      Progress initial array temp values pivot next (left ++ [values[done]]) right (done + 1) := by
  have remaining := progress.remaining
  have split := progress.split
  obtain ⟨gap, gapLength, inArray⟩ := progress.next_inArray inside
  obtain ⟨spare, spareLength, inTemp⟩ := progress.inTemp
  obtain ⟨stored, held⟩ := inArray.write_front [values[done]] (by simp)
  have stepped : scalarStep pivot regs = some
      { heap := regs.heap.splice (array + left.length) [values[done]], array := regs.array + 1,
        bottom := array + left.length + 1, top := regs.top, n := regs.n - 1 } := by
    simp only [scalarStep, progress.next_load inside, Option.bind_eq_bind, Option.bind_some, if_neg notGreater,
      Heap.store, progress.bottom, stored]
  refine ⟨_, stepped, rfl, ?_⟩
  constructor
  · simp only [progress.reads]
    push_cast
    ring
  · simp
    ring
  · exact progress.top
  · simp only
    omega
  · rw [List.length_append, List.length_singleton]
    omega
  · refine ⟨(gap ++ [values[done]]).drop 1, by simp [gapLength], ?_⟩
    simpa using held
  · exact ⟨spare, spareLength, inTemp.splice_disjoint (by simp only [List.length_append, List.length_singleton]; omega)⟩
  · intro cell outArray outTemp
    exact (Heap.splice_outside (by simp; omega)).trans (progress.frame cell outArray outTemp)

theorem scalarStep_spec (apart : array + (values.length + 1) ≤ temp ∨ temp + values.length ≤ array)
    (progress : Progress initial array temp values pivot regs left right done) (more : regs.n ≠ 0)
    (inside : done < values.length) :
    ∃ next, scalarStep pivot regs = some next ∧ next.n = regs.n - 1 ∧
      Progress initial array temp values pivot next
        (left ++ [values[done]].filter fun element => !pivot.slt element)
        (right ++ [values[done]].filter fun element => pivot.slt element) (done + 1) := by
  by_cases greater : pivot.slt values[done] = true
  · simpa [greater] using scalarStep_greater apart progress more inside greater
  · simpa [greater] using scalarStep_notGreater apart progress more inside greater

theorem lsLoop_spec (apart : array + (values.length + 1) ≤ temp ∨ temp + values.length ≤ array)
    (progress : Progress initial array temp values pivot regs left right done) :
    ∃ next, lsLoop pivot regs = some next ∧
      Progress initial array temp values pivot next
        (left ++ (values.drop done).filter fun element => !pivot.slt element)
        (right ++ (values.drop done).filter fun element => pivot.slt element) values.length := by
  obtain ⟨next, run, ⟨taken, kept⟩, stop⟩ := whileLoop_rule
    (fun regs => some (regs.n ≠ 0)) (scalarStep pivot)
    (fun regs => ∃ taken, Progress initial array temp values pivot regs
      (left ++ ((values.drop done).take taken).filter fun element => !pivot.slt element)
      (right ++ ((values.drop done).take taken).filter fun element => pivot.slt element) (done + taken))
    Regs.n
    (by
      intro regs ⟨taken, progress⟩
      have remaining := progress.remaining
      by_cases more : regs.n ≠ 0
      · right
        have inside : done + taken < values.length := by omega
        obtain ⟨next, step, shorter, advanced⟩ := scalarStep_spec apart progress more inside
        refine ⟨by simp [more], next, step, ⟨taken + 1, ?_⟩, by omega⟩
        have available : taken < (values.drop done).length := by
          rw [List.length_drop]
          omega
        rw [← List.take_concat_get available, List.getElem_drop, List.concat_eq_append,
          List.filter_append, List.filter_append, ← List.append_assoc, ← List.append_assoc]
        exact advanced
      · left
        simpa using more)
    regs ⟨0, by simpa using progress⟩ (regs.n + 1) (by omega)
  have finished : next.n = 0 := by simpa using stop
  have remaining := kept.remaining
  refine ⟨next, run, ?_⟩
  have all : (values.drop done).take taken = values.drop done := by
    apply List.take_of_length_le
    rw [List.length_drop]
    omega
  rwa [all, show done + taken = values.length by omega] at kept

end

end Mbench.SortSpeed
