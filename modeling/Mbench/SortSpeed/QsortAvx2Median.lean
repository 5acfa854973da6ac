import Mbench.SortSpeed.MyQsort

/-! The median of three of `qsort_AVX2` compares unsigned, and its partition signed. The median protects the split where the
two orders agree on the three samples. -/

namespace Mbench.SortSpeed
open Library

/-- The pivot is one of three values, and in signed order the others are on either side of it. -/
def SignedMedian (pivot first middle last : Word) : Prop :=
  ∃ low high : Word, [low, pivot, high].Perm [first, middle, last] ∧ low.toInt ≤ pivot.toInt ∧ pivot.toInt ≤ high.toInt

/-- The three values are all negative as `int`, or none of them is. -/
def SameSign (first middle last : Word) : Prop :=
  (∀ value ∈ [first, middle, last], value.toInt < 0) ∨ ∀ value ∈ [first, middle, last], 0 ≤ value.toInt

theorem sameSign_iff {first middle last : Word} : SameSign first middle last ↔
    (first.toInt < 0 ∧ middle.toInt < 0 ∧ last.toInt < 0) ∨ (0 ≤ first.toInt ∧ 0 ≤ middle.toInt ∧ 0 ≤ last.toInt) := by
  simp [SameSign]

theorem toInt_cases (value : Word) :
    (value.toNat < 2 ^ 31 ∧ value.toInt = value.toNat) ∨ (2 ^ 31 ≤ value.toNat ∧ value.toInt = value.toNat - 2 ^ 32) := by
  rcases Nat.lt_or_ge value.toNat (2 ^ 31) with low | high
  · exact Or.inl ⟨low, toInt_low low⟩
  · exact Or.inr ⟨high, toInt_high high⟩

theorem orderThree_sorted (el1 el2 el3 : Word) :
    (orderThree el1 el2 el3).1 ≤ (orderThree el1 el2 el3).2.1 ∧
      (orderThree el1 el2 el3).2.1 ≤ (orderThree el1 el2 el3).2.2 := by
  by_cases ordered : el1 ≤ el2
  · simp only [orderThree, if_pos ordered]
    split_ifs <;> simp only [BitVec.le_def] at * <;> omega
  · simp only [orderThree, if_neg ordered]
    split_ifs <;> simp only [BitVec.le_def] at * <;> omega

section
variable {first middle last : Word}

/-- Three different samples in unsigned order are in signed order as well when they have the same sign. -/
theorem signed_of_sameSign (same : SameSign first middle last) (below : first.toNat < middle.toNat)
    (above : middle.toNat < last.toNat) : first.toInt < middle.toInt ∧ middle.toInt < last.toInt := by
  have firstCases := toInt_cases first
  have middleCases := toInt_cases middle
  have lastCases := toInt_cases last
  have lastBound := last.isLt
  rw [sameSign_iff] at same
  omega

theorem beyond_of_signs (differ : ¬ SameSign first middle last) (below : first.toNat < middle.toNat)
    (above : middle.toNat < last.toNat) :
    (first.toInt < middle.toInt ∧ last.toInt < middle.toInt) ∨ (middle.toInt < first.toInt ∧ middle.toInt < last.toInt) := by
  have firstCases := toInt_cases first
  have middleCases := toInt_cases middle
  have lastCases := toInt_cases last
  have lastBound := last.isLt
  rw [sameSign_iff] at differ
  omega

/-- The second of three different samples in unsigned order is their median in signed order where they have one sign. -/
theorem signedMedian_iff {el1 el2 el3 : Word} (perm : [el1, el2, el3].Perm [first, middle, last])
    (below : el1.toNat < el2.toNat) (above : el2.toNat < el3.toNat) :
    SignedMedian el2 first middle last ↔ SameSign el1 el2 el3 := by
  constructor
  · rintro ⟨low, high, others, lower, upper⟩
    have rest : [low, high].Perm [el1, el3] :=
      (List.perm_cons el2).mp ((List.Perm.swap low el2 [high]).trans (others.trans (perm.symm.trans (List.Perm.swap el2 el1 [el3]))))
    by_contra differ
    have beyond := beyond_of_signs differ below above
    have lowIn : low ∈ [el1, el3] := rest.mem_iff.mp (by simp)
    have highIn : high ∈ [el1, el3] := rest.mem_iff.mp (by simp)
    simp only [List.mem_cons, List.not_mem_nil, or_false] at lowIn highIn
    rcases lowIn with rfl | rfl <;> rcases highIn with rfl | rfl <;> omega
  · intro same
    have signed := signed_of_sameSign same below above
    exact ⟨el1, el3, perm, by omega, by omega⟩

theorem sameSign_perm {el1 el2 el3 : Word} (perm : [el1, el2, el3].Perm [first, middle, last]) :
    SameSign el1 el2 el3 ↔ SameSign first middle last := by
  simp only [SameSign, perm.mem_iff]

end

theorem parts_nonempty {pivot low high : Word} {front : List Word} (lowIn : low ∈ front) (highIn : high ∈ front)
    (below : low.toInt < pivot.toInt) (above : pivot.toInt < high.toInt) :
    1 ≤ (rightPart pivot front).length ∧ (rightPart pivot front).length + 1 ≤ front.length := by
  have parts := parts_perm pivot front
  have lengths := parts.length_eq
  rw [List.length_append] at lengths
  constructor
  · rcases List.mem_append.mp (parts.mem_iff.mpr highIn) with left | right
    · exact absurd (leftPart_le left) (by omega)
    · exact List.length_pos_of_mem right
  · rcases List.mem_append.mp (parts.mem_iff.mpr lowIn) with left | right
    · have some_ := List.length_pos_of_mem left
      omega
    · exact absurd (rightPart_ge right) (by omega)

/-- On an array with three different samples `qsort_AVX2` takes their median, in the signed order of its partition, and leaves
neither side empty, exactly where the samples have one sign. -/
theorem qsortAVX2_median_iff (heap : Heap Word) (array temp : Int) (values : List Word) (large : 32 < values.length)
    (apart : array + values.length ≤ temp ∨ temp + (values.length - 1 : Nat) ≤ array)
    (held : heap.Holds array values) (allocated : heap.Allocated temp (values.length - 1)) (first middle last : Word)
    (firstAt : values[0]? = some first) (middleAt : values[values.length / 2]? = some middle)
    (lastAt : values[values.length - 1]? = some last) (distinct : [first, middle, last].Nodup) :
    ∃ median pivot final count, medianOfThree heap array values.length = some median ∧
      median.load (array + values.length - 1) = some pivot ∧
      qsortAVX2 heap array temp values.length = some (final, count) ∧
      (SignedMedian pivot first middle last ∧ 1 ≤ count ∧ count ≤ values.length - 2 ↔ SameSign first middle last) := by
  obtain ⟨median, front, pivot, regs, placed, placing⟩ := qsortAVX2_placing (by omega) apart held allocated
  obtain ⟨final, pivot', front', rewritten', ran, _⟩ := qsortAVX2_spec (by omega) apart held allocated
  have rewritten := placing.rewritten
  obtain ⟨rfl, same⟩ := List.append_inj' (rewritten.symm.trans rewritten') rfl
  cases same
  refine ⟨median, pivot, final, (rightPart pivot front).length, placing.sampled, placing.loaded, ran, ?_⟩
  have size := placing.size
  obtain ⟨one, two, three, before, after, rfl, half⟩ := split_three values (by omega)
  rw [medianRewrite_split _ _ _ _ _ half] at rewritten
  have order := orderThree_sorted one three two
  have samples := orderThree_perm one three two
  generalize orderThree one three two = ordered at *
  obtain ⟨el1, el2, el3⟩ := ordered
  simp only at rewritten order samples
  have firstEq : one = first := by simpa using firstAt
  have middleEq : two = middle := by
    rw [half] at middleAt
    simpa using middleAt
  have lastEq : three = last := by
    have place : (one :: (before ++ two :: (after ++ [three]))).length - 1 = before.length + (after.length + 1) + 1 := by
      simp only [List.length_cons, List.length_append, List.length_nil]
      omega
    rw [place] at lastAt
    simpa using lastAt
  subst firstEq middleEq lastEq
  have arranged : front ++ [pivot] = (el1 :: (before ++ el3 :: after)) ++ [el2] := by
    rw [← rewritten]
    simp only [List.cons_append, List.append_assoc]
  obtain ⟨rfl, pivotEq⟩ := List.append_inj' arranged rfl
  cases pivotEq
  have perm : [el1, pivot, el3].Perm [one, two, three] := samples.trans ((List.Perm.swap two three []).cons one)
  have different := perm.nodup_iff.mpr distinct
  simp only [List.nodup_cons, List.mem_cons, List.not_mem_nil, or_false, not_or] at different
  have below : el1.toNat < pivot.toNat := Nat.lt_of_le_of_ne order.1 fun same => different.1.1 (BitVec.eq_of_toNat_eq same)
  have above : pivot.toNat < el3.toNat := Nat.lt_of_le_of_ne order.2 fun same => different.2.1 (BitVec.eq_of_toNat_eq same)
  rw [signedMedian_iff perm below above, sameSign_perm perm]
  constructor
  · exact And.left
  · intro same
    have signed := signed_of_sameSign ((sameSign_perm perm).mpr same) below above
    have highIn : el3 ∈ el1 :: (before ++ el3 :: after) := by simp
    obtain ⟨some_, others⟩ := parts_nonempty List.mem_cons_self highIn signed.1 signed.2
    exact ⟨same, some_, by omega⟩

def sampledValues (last : Word) : List Word := 1 :: List.replicate 15 0 ++ 2 :: List.replicate 15 0 ++ [last]

def sampledHeap (last : Word) : Heap Word := (Heap.splice Heap.empty 0 (sampledValues last)).splice 100 (List.replicate 32 0)

theorem sampledHeap_holds (last : Word) : (sampledHeap last).Holds 0 (sampledValues last) :=
  Heap.holds_splice_self.splice_disjoint (Or.inl (by simp [sampledValues]))

theorem sampledHeap_allocated (last : Word) : (sampledHeap last).Allocated 100 32 :=
  Heap.holds_splice_self.allocated

theorem qsortAVX2_median_three :
    ∃ median pivot final count, medianOfThree (sampledHeap 3) 0 33 = some median ∧ median.load (0 + 33 - 1) = some pivot ∧
      qsortAVX2 (sampledHeap 3) 0 100 33 = some (final, count) ∧ SignedMedian pivot 1 2 3 ∧ 1 ≤ count ∧ count ≤ 31 := by
  obtain ⟨median, pivot, final, count, sampled, loaded, ran, protects⟩ := qsortAVX2_median_iff (sampledHeap 3) 0 100
    (sampledValues 3) (by decide) (Or.inl (by decide)) (sampledHeap_holds 3) (sampledHeap_allocated 3) 1 2 3 rfl rfl rfl
    (by decide)
  exact ⟨median, pivot, final, count, sampled, loaded, ran, protects.mpr (sameSign_iff.mpr (by decide))⟩

/-- With -1 as the last sample the pivot is 2, above all others, and nothing is to the right of it. -/
theorem qsortAVX2_median_negative :
    ∃ median final, medianOfThree (sampledHeap (-1)) 0 33 = some median ∧ median.load 32 = some 2 ∧
      qsortAVX2 (sampledHeap (-1)) 0 100 33 = some (final, 0) ∧ ¬ SignedMedian 2 1 2 (-1) := by
  obtain ⟨median, front, pivot, regs, placed, placing⟩ := qsortAVX2_placing (by decide : 3 ≤ (sampledValues (-1)).length)
    (Or.inl (by decide)) (sampledHeap_holds (-1)) (sampledHeap_allocated (-1))
  obtain ⟨final, pivot', front', rewritten', ran, _⟩ := qsortAVX2_spec (by decide : 3 ≤ (sampledValues (-1)).length)
    (Or.inl (by decide)) (sampledHeap_holds (-1)) (sampledHeap_allocated (-1))
  have rewritten : medianRewrite (sampledValues (-1)) = (1 :: List.replicate 15 0 ++ -1 :: List.replicate 15 0) ++ [2] := by
    decide
  obtain ⟨rfl, same⟩ := List.append_inj' (rewritten.symm.trans placing.rewritten) rfl
  obtain ⟨rfl, same'⟩ := List.append_inj' (rewritten.symm.trans rewritten') rfl
  cases same
  cases same'
  refine ⟨median, final, placing.sampled, placing.loaded, ?_, fun median => ?_⟩
  · have none_ : (rightPart 2 (1 :: List.replicate 15 0 ++ -1 :: List.replicate 15 0)).length = 0 := by decide
    rw [none_] at ran
    exact ran
  · have order := (signedMedian_iff (List.Perm.refl [1, 2, -1]) (by decide) (by decide)).mp median
    rw [sameSign_iff] at order
    exact absurd order (by decide)

end Mbench.SortSpeed
