import Mbench.CoreLat.ResultCells

/-! Readable files of any shapes: the matrices have the shape of the first file, and the others are
added up by their own. -/

namespace Mbench.CoreLat
open Library

/-- How many words a line has; a line that is missing has none. -/
def wordCount (text : List Char) (j : Nat) : Nat := (wordsOf ((getlines text).getD j [])).length

def contents (atof : List Char → Rat) (text : List Char) : Mat := (readMatrix atof [] (some text)).2

section
variable {round : Rat → Rat} {atof : List Char → Rat}

theorem readFiles_some (mat : Mat) (text : List Char) (files : List (Option (List Char))) :
    readFiles atof mat (some text :: files) = contents atof text :: readFiles atof (contents atof text) files := rfl

theorem readFiles_none (mat : Mat) (files : List (Option (List Char))) :
    readFiles atof mat (none :: files) = mat :: readFiles atof mat files := rfl

theorem readFiles_readable (mat : Mat) (texts : List (List Char)) :
    readFiles atof mat (texts.map some) = texts.map (contents atof) := by
  induction texts generalizing mat with
  | nil => rfl
  | cons text texts ih => rw [List.map_cons, readFiles_some, ih, List.map_cons]

theorem contents_width (text : List Char) (j : Nat) : (contents atof text).width j = wordCount text j := by
  unfold contents readMatrix Ragged.width wordCount
  dsimp only
  rw [List.getD_eq_getElem?_getD, List.getD_eq_getElem?_getD, List.getElem?_map]
  cases (getlines text)[j]? with
  | none => rfl
  | some line => exact List.length_map ..

theorem resultParser_isSome (first : List Char) (later : List (List Char)) :
    (resultParser round atof ((first :: later).map some)).isSome ↔
      ∀ text ∈ later, ∀ j, wordCount text j ≤ wordCount first j := by
  rw [resultParser, readFiles_readable, List.map_cons, statistics_isSome, List.forall_mem_map]
  refine forall₂_congr fun text _ => forall_congr' fun j => ?_
  simp only [Ragged.entry_isSome, contents_width]
  constructor
  · intro inside
    by_contra wider
    exact absurd (inside (wordCount first j) (by omega)) (Nat.lt_irrefl _)
  · intro narrower k inside
    omega

end

/-- All indices are in range exactly when no line of a later file has more words than the same line
of the first. -/
theorem resultParser_inRange (round : Rat → Rat) (atof : List Char → Rat) (texts : List (List Char)) (files : texts ≠ []) :
    (resultParser round atof (texts.map some)).isSome ↔
      ∀ text ∈ texts.tail, ∀ j, wordCount text j ≤ wordCount (texts.head files) j := by
  obtain ⟨first, later, rfl⟩ := List.exists_cons_of_ne_nil files
  exact resultParser_isSome first later

theorem resultParser_inRange_lines :
    (resultParser id (fun _ => 1) (["1 NA\n2 3\n".toList, "1 NA\n2".toList].map some)).isSome ↔
      ∀ text ∈ ["1 NA\n2".toList], ∀ j, wordCount text j ≤ wordCount "1 NA\n2 3\n".toList j :=
  resultParser_inRange id _ ["1 NA\n2 3\n".toList, "1 NA\n2".toList] (by simp)

/-- Where the first file is cut off, the last word of the other one is added to a position that is not there. -/
theorem resultParser_cutOff :
    resultParser id (fun _ => 1) (["1 NA\n2".toList, "1 NA\n2 3\n".toList].map some) = none := by
  rw [← Option.not_isSome_iff_eq_none, resultParser_isSome]
  intro narrower
  exact absurd (narrower "1 NA\n2 3\n".toList (by simp) 1) (by decide)

end Mbench.CoreLat
