import Mbench.CoreLat.RaggedFiles
import Mbench.CoreLat.ResultStatistics
import Mbench.Library.Decimals
import Mathlib.Tactic.Linarith

/-! Files that cannot be opened: `_mat` still holds the latest readable file, and is pushed once more. -/

namespace Mbench.CoreLat
open Library

def readable (files : List (Option (List Char))) : List (List Char) := files.filterMap id

/-- The files with the latest readable one in the place of each that is missing, where this one has been read before. -/
def filled (latest : List Char) : List (Option (List Char)) → List (List Char)
  | [] => []
  | none :: files => latest :: filled latest files
  | some text :: files => text :: filled text files

def repeated (latest : List Char) : List (Option (List Char)) → List (List Char)
  | [] => []
  | none :: files => latest :: repeated latest files
  | some text :: files => repeated text files

section
variable {round : Rat → Rat} {atof : List Char → Rat} {files : List (Option (List Char))} {shape : List Nat}

theorem mem_readable {text : List Char} : text ∈ readable files ↔ some text ∈ files := by
  rw [readable, List.mem_filterMap]
  simp only [id_eq, exists_eq_right]

theorem mem_repeated {latest text : List Char} (member : text ∈ repeated latest files) : text = latest ∨ some text ∈ files := by
  induction files generalizing latest with
  | nil => cases member
  | cons file files ih =>
    cases file with
    | none =>
      rcases List.mem_cons.mp member with rfl | later
      · exact Or.inl rfl
      · exact (ih later).imp_right (List.mem_cons_of_mem _)
    | some next =>
      rcases ih member with rfl | later
      · exact Or.inr List.mem_cons_self
      · exact Or.inr (List.mem_cons_of_mem _ later)

theorem readFiles_filled (latest : List Char) (files : List (Option (List Char))) :
    readFiles atof (contents atof latest) files = (filled latest files).map (contents atof) := by
  induction files generalizing latest with
  | nil => rfl
  | cons file files ih =>
    cases file with
    | none => rw [readFiles_none, ih, filled, List.map_cons]
    | some text => rw [readFiles_some, ih, filled, List.map_cons]

theorem filled_perm (latest : List Char) (files : List (Option (List Char))) :
    (filled latest files).Perm (readable files ++ repeated latest files) := by
  induction files generalizing latest with
  | nil => exact List.Perm.nil
  | cons file files ih =>
    cases file with
    | none => exact ((ih latest).cons _).trans List.perm_middle.symm
    | some text => exact (ih text).cons _

theorem mean_append {sum more : Rat} {count extra : Nat} (some_ : 0 < count) :
    (sum + more) / ((count + extra : Nat) : Rat) = sum / count ↔ more * count = extra * sum := by
  have all : ((count + extra : Nat) : Rat) ≠ 0 := by
    rw [Nat.cast_ne_zero]
    omega
  have part : (count : Rat) ≠ 0 := by
    rw [Nat.cast_ne_zero]
    omega
  rw [div_eq_div_iff all part, Nat.cast_add]
  constructor
  · intro same
    linarith
  · intro same
    linarith

theorem Accumulators.Summarise.eq_iff {acc other : Accumulators} {mats more : List Mat}
    (summary : acc.Summarise round mats shape) (same : other.Summarise round more shape)
    (members : ∀ mat, mat ∈ mats ↔ mat ∈ more) :
    acc = other ↔ ∀ j k, k < shape.getD j 0 → roundedMean round (column mats j k) = roundedMean round (column more j k) := by
  constructor
  · rintro rfl j k inside
    obtain ⟨cell, found, holds⟩ := summary.inside j k inside
    obtain ⟨cell', found', holds'⟩ := same.inside j k inside
    rw [found, Option.some.injEq] at found'
    rw [← holds.mid, ← holds'.mid, found']
  · intro means
    refine Accumulators.ext_cell summary.shapes same.shapes fun j k => ?_
    by_cases inside : k < shape.getD j 0
    · obtain ⟨cell, found, holds⟩ := summary.inside j k inside
      obtain ⟨cell', found', holds'⟩ := same.inside j k inside
      have values : {value | value ∈ column mats j k} = {value | value ∈ column more j k} := by
        ext value
        simp only [column, Set.mem_ofPred_eq, List.mem_filterMap, members]
      have low := holds.low
      have high := holds.high
      rw [values] at low high
      rw [found, found']
      congr 1
      ext1
      · exact low.unique holds'.low
      · rw [holds.mid, holds'.mid, means j k inside]
      · exact high.unique holds'.high
    · rw [summary.outside j k (by omega), same.outside j k (by omega)]

theorem statistics_empty {mats : List Mat} (some_ : mats ≠ []) (empty : ∀ mat ∈ mats, ∀ j, mat.width j = 0) :
    statistics round mats = some { minjz := [], midjz := [], maxjz := [] } := by
  obtain ⟨first, later, rfl⟩ := List.exists_cons_of_ne_nil some_
  have initial : initialise round (first :: later) { minjz := [], midjz := [], maxjz := [] } =
      some { minjz := [], midjz := [], maxjz := [] } := by
    obtain ⟨acc, ran, same⟩ := forLoop_rule
      (fun m acc => forLoop (initEntry round (first :: later) first m) (first.width m) acc)
      (fun _ acc => acc = { minjz := [], midjz := [], maxjz := [] }) first.length { minjz := [], midjz := [], maxjz := [] }
      rfl fun m _ acc same => ⟨acc, by rw [empty first List.mem_cons_self]; rfl, same⟩
    exact ran.trans (congrArg some same)
  have unchanged (matjz : List Mat) (acc : Accumulators) : ∀ mats : List Mat, (∀ mat ∈ mats, ∀ j, mat.width j = 0) →
      mats.foldlM (fun acc mat => processMatrix round matjz mat acc) acc = some acc := by
    intro mats none
    induction mats with
    | nil => rfl
    | cons mat mats ih =>
      obtain ⟨same, ran, rfl⟩ := forLoop_rule (fun j acc => forLoop (processEntry round matjz mat j) (mat.width j) acc)
        (fun _ state => state = acc) mat.length acc rfl
        fun j _ state same => ⟨state, by rw [none mat List.mem_cons_self]; rfl, same⟩
      rw [List.foldlM_cons, processMatrix, ran]
      exact ih fun other member => none other (List.mem_cons_of_mem mat member)
  rw [statistics, initial, Option.bind_eq_bind, Option.bind_some, List.tail_cons]
  exact unchanged _ _ later fun mat member => empty mat (List.mem_cons_of_mem first member)

theorem mem_readFiles {mat latest : Mat} (member : mat ∈ readFiles atof latest files) :
    mat = latest ∨ ∃ text, some text ∈ files ∧ mat = contents atof text := by
  induction files generalizing latest with
  | nil => cases member
  | cons file files ih =>
    cases file with
    | none =>
      rw [readFiles_none] at member
      rcases List.mem_cons.mp member with rfl | later
      · exact Or.inl rfl
      · exact (ih later).imp_right fun ⟨text, there, same⟩ => ⟨text, List.mem_cons_of_mem _ there, same⟩
    | some text =>
      rw [readFiles_some] at member
      right
      rcases List.mem_cons.mp member with rfl | later
      · exact ⟨text, List.mem_cons_self, rfl⟩
      · rcases ih later with rfl | ⟨other, there, same⟩
        · exact ⟨text, List.mem_cons_self, rfl⟩
        · exact ⟨other, List.mem_cons_of_mem _ there, same⟩

theorem width_of_common (common : ∀ text, some text ∈ files → (contents atof text).shape = shape) {mat : Mat}
    (member : mat ∈ readFiles atof [] files) (j : Nat) : mat.width j ≤ shape.getD j 0 := by
  rcases mem_readFiles member with rfl | ⟨text, there, rfl⟩
  · rw [Ragged.width_of_length rfl]
    omega
  · rw [← Ragged.shape_width, common text there]

theorem readable_shape (common : ∀ text, some text ∈ files → (contents atof text).shape = shape) :
    ∀ mat ∈ (readable files).map (contents atof), mat.shape = shape := by
  intro mat member
  obtain ⟨text, there, rfl⟩ := List.mem_map.mp member
  exact common text (mem_readable.mp there)

theorem resultParser_empty (common : ∀ text, some text ∈ files → (contents atof text).shape = shape) (some_ : files ≠ [])
    (empty : ∀ width ∈ shape, width = 0) : resultParser round atof files = some { minjz := [], midjz := [], maxjz := [] } := by
  refine statistics_empty (fun none => ?_) fun mat member j => ?_
  · obtain ⟨file, rest, rfl⟩ := List.exists_cons_of_ne_nil some_
    cases none
  · have narrow := width_of_common common member j
    have zero : shape.getD j 0 = 0 := by
      by_cases row : j < shape.length
      · rw [List.getD_eq_getElem _ _ row]
        exact empty _ (List.getElem_mem row)
      · rw [List.getD_eq_default _ _ (not_lt.mp row)]
    omega

theorem resultParser_headless {rest : List (Option (List Char))} {text : List Char} (there : some text ∈ rest) {j : Nat}
    (positive : 0 < (contents atof text).width j) : resultParser round atof (none :: rest) = none := by
  rw [← Option.not_isSome_iff_eq_none, resultParser, readFiles_none, statistics_isSome]
  intro inside
  have pushed : contents atof text ∈ readFiles atof [] rest := by
    clear inside
    generalize ([] : Mat) = latest
    induction rest generalizing latest with
    | nil => cases there
    | cons file rest ih =>
      cases file with
      | none => exact List.mem_cons_of_mem _ (ih (List.mem_of_ne_of_mem (by simp) there) latest)
      | some other =>
        rcases List.mem_cons.mp there with same | later
        · rw [Option.some.inj same]
          exact List.mem_cons_self
        · exact List.mem_cons_of_mem _ (ih later _)
  have entry := inside _ pushed j 0 (Ragged.entry_isSome.mpr positive)
  exact absurd (Ragged.entry_isSome.mp entry) (Nat.not_lt_zero 0)

theorem resultParser_headless_ne {rest : List (Option (List Char))} {text : List Char} (there : some text ∈ none :: rest)
    (common : ∀ text, some text ∈ none :: rest → (contents atof text).shape = shape) (entries : ∃ width ∈ shape, 0 < width) :
    resultParser round atof (none :: rest) ≠ resultParser round atof ((readable (none :: rest)).map some) := by
  have later : some text ∈ rest := List.mem_of_ne_of_mem (by simp) there
  obtain ⟨width, member, positive⟩ := entries
  obtain ⟨j, row, same⟩ := List.getElem_of_mem member
  have wide : 0 < (contents atof text).width j := by
    rw [← Ragged.shape_width, common text there, List.getD_eq_getElem _ _ row, same]
    exact positive
  have pushed : contents atof text ∈ (readable (none :: rest)).map (contents atof) :=
    List.mem_map_of_mem (mem_readable.mpr there)
  obtain ⟨mat, mats, split⟩ := List.exists_cons_of_ne_nil (List.ne_nil_of_mem pushed)
  obtain ⟨acc, ran, -⟩ := statistics_summarise (split ▸ readable_shape common) ⟨width, member, positive⟩
  rw [resultParser_headless later wide, resultParser, readFiles_readable, split, ran]
  exact Option.some_ne_none acc |>.symm

theorem repeated_shape {first : List Char} {rest : List (Option (List Char))}
    (common : ∀ text, some text ∈ some first :: rest → (contents atof text).shape = shape) :
    ∀ mat ∈ (repeated first rest).map (contents atof), mat.shape = shape := by
  intro mat member
  obtain ⟨text, there, rfl⟩ := List.mem_map.mp member
  rcases mem_repeated there with rfl | later
  · exact common _ List.mem_cons_self
  · exact common _ (List.mem_cons_of_mem _ later)

/-- With a readable first file the minima and maxima are those of the readable files, and the means are
where the files with the repetitions have the same mean. -/
theorem resultParser_filled (round : Rat → Rat) {first : List Char} {rest : List (Option (List Char))}
    (common : ∀ text, some text ∈ some first :: rest → (contents atof text).shape = shape)
    (entries : ∃ width ∈ shape, 0 < width) :
    resultParser round atof (some first :: rest) = resultParser round atof ((readable (some first :: rest)).map some) ↔
      ∀ j k, k < shape.getD j 0 →
        roundedMean round (column ((first :: filled first rest).map (contents atof)) j k) =
          roundedMean round (column ((readable (some first :: rest)).map (contents atof)) j k) := by
  have whole : readable (some first :: rest) = first :: readable rest := rfl
  have onlyReadable := readable_shape common
  have members : ∀ mat, mat ∈ (first :: filled first rest).map (contents atof) ↔
      mat ∈ (readable (some first :: rest)).map (contents atof) := by
    intro mat
    have permuted := ((filled_perm first rest).cons first).map (contents atof)
    rw [permuted.mem_iff, whole, ← List.cons_append, List.map_append, List.mem_append]
    refine ⟨fun either => either.elim id fun again => ?_, Or.inl⟩
    obtain ⟨text, there, rfl⟩ := List.mem_map.mp again
    rcases mem_repeated there with rfl | later
    · exact List.mem_cons_self
    · exact List.mem_cons_of_mem _ (List.mem_map_of_mem (mem_readable.mpr later))
  have pushed : ∀ mat ∈ (first :: filled first rest).map (contents atof), Ragged.shape mat = shape :=
    fun mat member => onlyReadable mat ((members mat).mp member)
  rw [resultParser, resultParser, readFiles_readable, readFiles_some, readFiles_filled]
  rw [List.map_cons] at members pushed ⊢
  rw [whole, List.map_cons] at onlyReadable members ⊢
  obtain ⟨acc, ran, summary⟩ := statistics_summarise pushed entries
  obtain ⟨other, ran', summary'⟩ := statistics_summarise onlyReadable entries
  rw [ran, ran', Option.some.injEq, summary.eq_iff summary' members]

/-- In exact arithmetic the means are the same where the repetitions have the mean of the readable files. -/
theorem exact_means_iff {first : List Char} {rest : List (Option (List Char))}
    (common : ∀ text, some text ∈ some first :: rest → (contents atof text).shape = shape) {j k : Nat}
    (inside : k < shape.getD j 0) :
    roundedMean id (column ((first :: filled first rest).map (contents atof)) j k) =
        roundedMean id (column ((readable (some first :: rest)).map (contents atof)) j k) ↔
      (column ((repeated first rest).map (contents atof)) j k).sum * (readable (some first :: rest)).length =
        (repeated first rest).length * (column ((readable (some first :: rest)).map (contents atof)) j k).sum := by
  have permuted : ((first :: filled first rest).map (contents atof)).Perm
      ((readable (some first :: rest)).map (contents atof) ++ (repeated first rest).map (contents atof)) := by
    rw [← List.map_append]
    exact ((filled_perm first rest).cons first).map (contents atof)
  have columns := permuted.filterMap fun mat : Mat => mat.entry j k
  rw [List.filterMap_append] at columns
  have sum : (column ((first :: filled first rest).map (contents atof)) j k).sum =
      (column ((readable (some first :: rest)).map (contents atof)) j k).sum +
        (column ((repeated first rest).map (contents atof)) j k).sum := columns.sum_eq.trans List.sum_append
  have onlyReadable := readable_shape common
  have again : ∀ mat ∈ (repeated first rest).map (contents atof), Ragged.shape mat = shape := repeated_shape common
  have readLength : (column ((readable (some first :: rest)).map (contents atof)) j k).length =
      (readable (some first :: rest)).length := (column_length onlyReadable inside).trans (List.length_map _)
  have length : (column ((first :: filled first rest).map (contents atof)) j k).length =
      (readable (some first :: rest)).length + (repeated first rest).length := by
    have counted := columns.length_eq.trans List.length_append
    have repeatedLength : (column ((repeated first rest).map (contents atof)) j k).length = (repeated first rest).length :=
      (column_length again inside).trans (List.length_map _)
    rw [← readLength, ← repeatedLength]
    exact counted
  have positive : 0 < (readable (some first :: rest)).length := Nat.succ_pos _
  rw [roundedMean_id (List.ne_nil_of_length_pos (by omega)), roundedMean_id (List.ne_nil_of_length_pos (by omega)), length,
    readLength, sum, mean_append positive]

end

/-- The three matrices are those of the readable files alone exactly when there are no entries at all,
or the first file is readable and, at every position, the files with the latest readable one in the place
of each missing one have the rounded mean of the readable ones. In exact arithmetic, it is the same mean
when those that stand in have the mean of the readable ones. -/
theorem resultParser_missing_iff (round : Rat → Rat) (atof : List Char → Rat) (files : List (Option (List Char)))
    (shape : List Nat) (some_ : ∃ text, some text ∈ files)
    (common : ∀ text, some text ∈ files → (contents atof text).shape = shape) :
    (resultParser round atof files = resultParser round atof ((readable files).map some) ↔
      (∀ width ∈ shape, width = 0) ∨ ∃ first rest, files = some first :: rest ∧
        ∀ j k, k < shape.getD j 0 →
          roundedMean round (column ((first :: filled first rest).map (contents atof)) j k) =
            roundedMean round (column ((readable files).map (contents atof)) j k)) ∧
    ∀ first rest, files = some first :: rest → ∀ j k, k < shape.getD j 0 →
      (roundedMean id (column ((first :: filled first rest).map (contents atof)) j k) =
          roundedMean id (column ((readable files).map (contents atof)) j k) ↔
        (column ((repeated first rest).map (contents atof)) j k).sum * (readable files).length =
          (repeated first rest).length * (column ((readable files).map (contents atof)) j k).sum) := by
  refine ⟨?_, fun first rest same j k inside => ?_⟩
  · obtain ⟨text, there⟩ := some_
    by_cases empty : ∀ width ∈ shape, width = 0
    · have commonRead : ∀ other, some other ∈ (readable files).map some → (contents atof other).shape = shape := by
        intro other member
        obtain ⟨same, read, equal⟩ := List.mem_map.mp member
        rw [← Option.some.inj equal]
        exact common same (mem_readable.mp read)
      have someRead : (readable files).map some ≠ [] :=
        List.ne_nil_of_mem (List.mem_map_of_mem (mem_readable.mpr there))
      rw [resultParser_empty common (List.ne_nil_of_mem there) empty, resultParser_empty commonRead someRead empty]
      exact iff_of_true rfl (Or.inl empty)
    · rw [or_iff_right empty]
      push Not at empty
      obtain ⟨width, member, nonzero⟩ := empty
      have entries : ∃ width ∈ shape, 0 < width := ⟨width, member, Nat.pos_of_ne_zero nonzero⟩
      obtain _ | ⟨_ | first, rest⟩ := files
      · cases there
      · refine iff_of_false (resultParser_headless_ne there common entries) ?_
        rintro ⟨first, others, impossible, -⟩
        cases impossible
      · rw [resultParser_filled round common entries]
        constructor
        · intro means
          exact ⟨first, rest, rfl, means⟩
        · rintro ⟨other, others, same, means⟩
          obtain ⟨rfl, rfl⟩ : first = other ∧ rest = others := by simpa using same
          exact means
  · subst same
    exact exact_means_iff common inside

def digit : List Char → Rat
  | [c] => ((c.toNat - '0'.toNat : Nat) : Rat)
  | _ => 0

theorem shape_digits {files : List (Option (List Char))} (digits : ∀ text, some text ∈ files → text ∈ [['1'], ['2'], ['4']]) :
    ∀ text, some text ∈ files → (contents digit text).shape = [1] := by
  intro text there
  have member := digits text there
  simp only [List.mem_cons, List.not_mem_nil, or_false] at member
  rcases member with rfl | rfl | rfl <;> rfl

theorem resultParser_missing_same :
    resultParser double digit [some ['2'], none, some ['2']] =
      resultParser double digit ((readable [some ['2'], none, some ['2']]).map some) := by
  refine (resultParser_missing_iff double digit [some ['2'], none, some ['2']] [1] ⟨['2'], List.mem_cons_self⟩
    (shape_digits (by simp))).1.mpr (Or.inr ⟨['2'], [none, some ['2']], rfl, fun j k inside => ?_⟩)
  obtain ⟨rfl, rfl⟩ : j = 0 ∧ k = 0 := by
    cases j with
    | zero => exact ⟨rfl, Nat.lt_one_iff.mp inside⟩
    | succ j => exact absurd inside (Nat.not_lt_zero k)
  have pushed : column ((['2'] :: filled ['2'] [none, some ['2']]).map (contents digit)) 0 0 = [2, 2, 2] := rfl
  have read : column ((readable [some ['2'], none, some ['2']]).map (contents digit)) 0 0 = [2, 2] := rfl
  rw [pushed, read]
  decide +kernel

/-- The second of three files is missing: the mean of 1 and 4 comes out as the mean of 1, 1 and 4. -/
theorem resultParser_missing_second :
    resultParser double digit [some ['1'], none, some ['4']] ≠
      resultParser double digit ((readable [some ['1'], none, some ['4']]).map some) := by
  intro same
  have means := (resultParser_filled double (shape_digits (by simp)) ⟨1, by simp, by simp⟩).mp same 0 0 (by simp)
  have pushed : column ((['1'] :: filled ['1'] [none, some ['4']]).map (contents digit)) 0 0 = [1, 1, 4] := rfl
  have read : column ((readable [some ['1'], none, some ['4']]).map (contents digit)) 0 0 = [1, 4] := rfl
  rw [pushed, read] at means
  exact absurd means (by decide +kernel)

end Mbench.CoreLat
