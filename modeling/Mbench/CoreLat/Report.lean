import Mbench.CoreLat.Logs

/-! What `result_parser.cpp` prints behind the names of the files, and what `readMatrix` would make of it. -/

namespace Mbench.CoreLat
open Library

def showMatrix (mat : Mat) : List Char :=
  mat.zipIdx.flatMap fun (row, i) =>
    (row.zipIdx.flatMap fun (value, j) => if i = j then "0\t".toList else showFixed 2 value ++ ['\t']) ++ ['\n']

def report (acc : Accumulators) : List Char :=
  "max:".toList ++ '\n' :: (showMatrix acc.maxjz ++
    ("min:".toList ++ '\n' :: (showMatrix acc.minjz ++ ("avg:".toList ++ '\n' :: showMatrix acc.midjz))))

def shownTable (mat : Mat) : List (List (List Char)) :=
  mat.mapIdx fun i row => row.mapIdx fun j value => if i = j then ['0'] else showFixed 2 value

def shownMatrix (round : Rat → Rat) (mat : Mat) : Mat :=
  mat.mapIdx fun i row => row.mapIdx fun j value => round (if i = j then 0 else shown 2 value)

theorem map_mapIdx {Value Other Another : Type} (f : Nat → Value → Other) (g : Other → Another) (values : List Value) :
    (values.mapIdx f).map g = values.mapIdx fun index value => g (f index value) := by
  rw [List.mapIdx_eq_zipIdx_map, List.mapIdx_eq_zipIdx_map, List.map_map]
  rfl

section
variable {round : Rat → Rat} {atof : List Char → Rat} {mat : Mat}

theorem showFixed_isWord (places : Nat) (value : Rat) : IsWord (showFixed places value) := by
  obtain ⟨some_, plain⟩ := fixedText_isWord places (roundEven (|value| * 10 ^ places)).toNat
  unfold showFixed signed
  split
  · refine ⟨List.cons_ne_nil _ _, fun c member => ?_⟩
    rcases List.mem_cons.mp member with rfl | rest
    · rfl
    · exact plain c rest
  · exact ⟨some_, plain⟩

theorem shownTable_words (mat : Mat) : ∀ row ∈ shownTable mat, ∀ word ∈ row, IsWord word := by
  intro row inside word member
  obtain ⟨i, values, _, rfl⟩ := List.mem_mapIdx.mp inside
  obtain ⟨j, value, _, rfl⟩ := List.mem_mapIdx.mp member
  split
  · exact isWord_of_all (by decide) (by decide)
  · exact showFixed_isWord 2 _

theorem showMatrix_eq (mat : Mat) : showMatrix mat = tableText (shownTable mat) := by
  unfold showMatrix tableText shownTable
  rw [List.mapIdx_eq_zipIdx_map, List.flatMap_map]
  congr 1
  funext numbered
  obtain ⟨row, i⟩ := numbered
  simp only [rowText, List.mapIdx_eq_zipIdx_map, List.flatMap_map]
  congr 2
  funext entry
  obtain ⟨value, j⟩ := entry
  dsimp only
  split <;> rfl

theorem readWord_showFixed (reads : ∀ word, IsDecimal word → atof word = round (decimal word)) (value : Rat) :
    readWord atof (showFixed 2 value) = round (shown 2 value) := by
  have number : showFixed 2 value ≠ ['N', 'A'] := by
    obtain ⟨c, rest, text, digit⟩ := fixedText_cons 2 (roundEven (|value| * 10 ^ 2)).toNat
    unfold showFixed signed
    rw [text]
    split
    · simp
    · rintro same
      rw [(List.cons.inj same).1] at digit
      cases digit
  rw [readWord, if_neg number, reads _ (isDecimal_showFixed 2 value), decimal_showFixed (by decide)]

theorem readWord_zero (reads : ∀ word, IsDecimal word → atof word = round (decimal word)) : readWord atof ['0'] = round 0 := by
  have digit : IsDecimal ['0'] := ⟨by decide, Or.inl (by decide)⟩
  have value : decimal ['0'] = 0 := by simp [decimal, unsigned, Nat.ofDigitChars]
  rw [readWord, if_neg (by decide), reads _ digit, value]

theorem read_shownTable (reads : ∀ word, IsDecimal word → atof word = round (decimal word)) (mat : Mat) :
    ((shownTable mat).map fun row => row.map (readWord atof)) = shownMatrix round mat := by
  unfold shownTable shownMatrix
  rw [map_mapIdx]
  congr 1
  funext i row
  rw [map_mapIdx]
  congr 1
  funext j value
  by_cases diagonal : i = j
  · rw [if_pos diagonal, if_pos diagonal]
    exact readWord_zero reads
  · rw [if_neg diagonal, if_neg diagonal]
    exact readWord_showFixed reads value

/-- A matrix that is shown is read again with two digits behind the point, and zeros in the diagonal. -/
theorem shownMatrix_entry {j k : Nat} {value : Rat} (entry : mat.entry j k = some value) :
    ∃ hundredths : Int, (shownMatrix round mat).entry j k = some (round (hundredths / 100)) ∧
      (j = k → hundredths = 0) ∧ (j ≠ k → |(hundredths : Rat) / 100 - value| ≤ 1 / 200) := by
  obtain ⟨row, found, inRow⟩ := Option.bind_eq_some_iff.mp entry
  have there : (shownMatrix round mat).entry j k = some (round (if j = k then 0 else shown 2 value)) := by
    rw [Ragged.entry, shownMatrix, List.getElem?_mapIdx, found, Option.map_some, Option.bind_some, List.getElem?_mapIdx, inRow,
      Option.map_some]
  obtain ⟨digits, same⟩ := shown_digits 2 value
  rw [show ((10 : Rat) ^ 2) = 100 by norm_num] at same
  by_cases diagonal : j = k
  · refine ⟨0, ?_, fun _ => rfl, fun other => absurd diagonal other⟩
    rw [there, if_pos diagonal, Int.cast_zero, zero_div]
  · refine ⟨digits, ?_, fun same => absurd same diagonal, fun _ => ?_⟩
    · rw [there, if_neg diagonal, same]
    · rw [← same]
      exact (shown_near 2 value).trans (by norm_num)

theorem shape_shownMatrix (round : Rat → Rat) (mat : Mat) : (shownMatrix round mat).shape = mat.shape := by
  unfold shownMatrix Ragged.shape
  rw [map_mapIdx]
  simp only [List.length_mapIdx]
  exact List.ext_getElem? fun index => by simp

theorem contents_section (reads : ∀ word, IsDecimal word → atof word = round (decimal word)) (name : List Char) (word : IsWord name)
    (other : name ≠ ['N', 'A']) (mat : Mat) (text : List Char) :
    contents atof (name ++ '\n' :: (showMatrix mat ++ text)) = [atof name] :: shownMatrix round mat ++ contents atof text := by
  have single : '\n' ∉ name := fun newline => by
    have space := word.2 _ newline
    cases space
  have alone : wordsOf name = [name] := by
    rw [wordsOf, List.splitOnP_eq_singleton word.2, List.filter_cons_of_pos (by simpa using word.1), List.filter_nil]
  have read := words_tableText (shownTable_words mat) text
  change (getlines (name ++ '\n' :: (showMatrix mat ++ text))).map (fun line => (wordsOf line).map (readWord atof)) = _
  rw [getlines_cons _ _ single, List.map_cons, alone, List.map_singleton, readWord, if_neg other, ← read_shownTable reads,
    showMatrix_eq]
  refine congrArg _ ?_
  calc (getlines (tableText (shownTable mat) ++ text)).map (fun line => (wordsOf line).map (readWord atof))
      = ((getlines (tableText (shownTable mat) ++ text)).map wordsOf).map (List.map (readWord atof)) := (List.map_map ..).symm
    _ = (shownTable mat).map (List.map (readWord atof)) ++ ((getlines text).map wordsOf).map (List.map (readWord atof)) := by
      rw [read, List.map_append]
    _ = (shownTable mat).map (List.map (readWord atof)) ++ contents atof text := congrArg _ (List.map_map ..)

end

/-- The report is read again as the three matrices, each of its shape, with zeros in the diagonal, and each other entry as a
number of hundredths, rounded to a double, that is at most half a hundredth away from what was computed. -/
theorem report_read (round : Rat → Rat) (atof : List Char → Rat)
    (reads : ∀ word, IsDecimal word → atof word = round (decimal word)) (acc : Accumulators) :
    ∃ maxjz minjz midjz : Mat,
      contents atof (report acc) = [atof "max:".toList] :: maxjz ++ [atof "min:".toList] :: minjz ++ [atof "avg:".toList] :: midjz ∧
      [minjz.shape, midjz.shape, maxjz.shape] = acc.shapes ∧
      ∀ read ∈ [(maxjz, acc.maxjz), (minjz, acc.minjz), (midjz, acc.midjz)], ∀ j k value, read.2.entry j k = some value →
        ∃ hundredths : Int, read.1.entry j k = some (round (hundredths / 100)) ∧
          (j = k → hundredths = 0) ∧ (j ≠ k → |(hundredths : Rat) / 100 - value| ≤ 1 / 200) := by
  refine ⟨shownMatrix round acc.maxjz, shownMatrix round acc.minjz, shownMatrix round acc.midjz, ?_, ?_, ?_⟩
  · have last := contents_section reads "avg:".toList (isWord_of_all (by decide) (by decide)) (by decide) acc.midjz []
    rw [show contents atof [] = [] from rfl, List.append_nil, List.append_nil] at last
    rw [report, contents_section reads "max:".toList (isWord_of_all (by decide) (by decide)) (by decide),
      contents_section reads "min:".toList (isWord_of_all (by decide) (by decide)) (by decide), last, List.append_assoc]
  · simp only [shape_shownMatrix, Accumulators.shapes]
  · intro read member j k value entry
    simp only [List.mem_cons, List.not_mem_nil, or_false] at member
    rcases member with rfl | rfl | rfl <;> exact shownMatrix_entry entry

theorem report_read_two :
    ∃ maxjz minjz midjz : Mat,
      contents (fun word => double (decimal word))
          (report { minjz := [[0, 1 / 3], [2, 0]], midjz := [[0, 1], [5 / 2, 0]], maxjz := [[0, 2], [3, 0]] }) =
        [double (decimal "max:".toList)] :: maxjz ++ [double (decimal "min:".toList)] :: minjz ++
          [double (decimal "avg:".toList)] :: midjz ∧
      [minjz.shape, midjz.shape, maxjz.shape] = [[2, 2], [2, 2], [2, 2]] ∧
      ∀ read ∈ [(maxjz, [[0, 2], [3, 0]]), (minjz, [[0, 1 / 3], [2, 0]]), (midjz, [[0, 1], [5 / 2, 0]])],
        ∀ j k value, Ragged.entry read.2 j k = some value →
          ∃ hundredths : Int, read.1.entry j k = some (double (hundredths / 100)) ∧
            (j = k → hundredths = 0) ∧ (j ≠ k → |(hundredths : Rat) / 100 - value| ≤ 1 / 200) :=
  report_read double (fun word => double (decimal word)) (fun _ _ => rfl)
    { minjz := [[0, 1 / 3], [2, 0]], midjz := [[0, 1], [5 / 2, 0]], maxjz := [[0, 2], [3, 0]] }

end Mbench.CoreLat
