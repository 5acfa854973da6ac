import Mbench.CoreLat.RaggedFiles
import Mbench.CoreLat.ResultStatistics
import Mbench.Library.Decimals

/-! From the measurements of `cas_lock` and `no_lock` over the logs that `test_lat.sh` writes to the matrices of
`result_parser.cpp`. The script is read as a shell runs it whose `echo` takes `-n` and `-e`, and `atof` rounds the number that a
word stands for. -/

namespace Mbench.CoreLat
open Library

/-! Tables: a tab behind each word, a newline behind each row. -/

def rowText (row : List (List Char)) : List Char := row.flatMap fun word => word ++ ['\t']

def tableText (table : List (List (List Char))) : List Char := table.flatMap fun row => rowText row ++ ['\n']

def IsWord (word : List Char) : Prop := word ≠ [] ∧ ∀ c ∈ word, isSpace c = false

theorem isWord_of_all {word : List Char} (some_ : word ≠ []) (plain : (word.all fun c => !isSpace c) = true) : IsWord word :=
  ⟨some_, fun c member => by simpa using List.all_eq_true.mp plain c member⟩

section
variable {row : List (List Char)} {table : List (List (List Char))} {line text : List Char}

theorem getlines_cons (line text : List Char) (single : '\n' ∉ line) :
    getlines (line ++ '\n' :: text) = line :: getlines text := by
  have others : ∀ c ∈ line, decide (c ≠ '\n') = true := fun c member => decide_eq_true fun newline => single (newline ▸ member)
  rw [getlines, show line ++ '\n' :: text = (line ++ ['\n']) ++ text by simp, fileLines_append (by simp), fileLines_line single,
    List.map_append, List.map_singleton, List.takeWhile_append_of_pos others]
  simp [getlines]

theorem wordsOf_rowText (words : ∀ word ∈ row, IsWord word) : wordsOf (rowText row) = row := by
  induction row with
  | nil => rfl
  | cons word row ih =>
    obtain ⟨⟨some_, plain⟩, others⟩ := List.forall_mem_cons.mp words
    have rest := ih others
    unfold wordsOf at rest ⊢
    rw [rowText, List.flatMap_cons, List.append_assoc, List.singleton_append,
      List.splitOnP_append_cons_of_forall_mem plain '\t' rfl, List.filter_cons_of_pos (by simpa using some_)]
    exact congrArg _ rest

theorem rowText_single (words : ∀ word ∈ row, IsWord word) : '\n' ∉ rowText row := by
  intro member
  obtain ⟨word, inside, there⟩ := List.mem_flatMap.mp member
  rcases List.mem_append.mp there with newline | tab
  · have space := (words word inside).2 '\n' newline
    cases space
  · cases List.mem_singleton.mp tab

theorem words_tableText (words : ∀ row ∈ table, ∀ word ∈ row, IsWord word) (text : List Char) :
    (getlines (tableText table ++ text)).map wordsOf = table ++ (getlines text).map wordsOf := by
  induction table with
  | nil => rfl
  | cons row table ih =>
    obtain ⟨first, others⟩ := List.forall_mem_cons.mp words
    rw [tableText, List.flatMap_cons, List.append_assoc, List.append_assoc, List.singleton_append,
      getlines_cons _ _ (rowText_single first), List.map_cons, wordsOf_rowText first]
    exact congrArg _ (ih others)

theorem contents_tableText (atof : List Char → Rat) (words : ∀ row ∈ table, ∀ word ∈ row, IsWord word) :
    contents atof (tableText table) = table.map fun row => row.map (readWord atof) := by
  have read := words_tableText words []
  rw [List.append_nil, show (getlines []).map wordsOf = [] from rfl, List.append_nil] at read
  change (getlines (tableText table)).map (fun line => (wordsOf line).map (readWord atof)) = _
  calc (getlines (tableText table)).map (fun line => (wordsOf line).map (readWord atof))
      = ((getlines (tableText table)).map wordsOf).map fun row => row.map (readWord atof) := (List.map_map ..).symm
    _ = table.map fun row => row.map (readWord atof) := congrArg _ read

end

/-! The two programs and the script. -/

/-- What a run of `measure` prints: its threads, in the order in which they come to it, then the time in milliseconds and the
time of a loop for a thread, as `%.06f` and `%.03f` round them. -/
structure Printed where
  loops : Nat
  nThreads : Nat
  order : List Nat
  micros : Nat
  millis : Nat

/-- `printf("#### %04d/%04d\n", omp_get_thread_num(), n_threads)`. -/
def Printed.thread (printed : Printed) (idx : Nat) : List Char :=
  "#### ".toList ++ padded 4 idx ++ '/' :: padded 4 printed.nThreads

def Printed.lines (printed : Printed) : List (List Char) :=
  ("Use loops = ".toList ++ Nat.toDigits 10 printed.loops) :: printed.order.map printed.thread ++
    [fixedText 6 printed.micros, fixedText 3 printed.millis]

def Printed.output (printed : Printed) : List Char := printed.lines.flatMap fun line => line ++ ['\n']

def tailLine (text : List Char) : List Char := (fileLines text).getLast?.getD []

def substituted (text : List Char) : List Char := text.rdropWhile fun c => c = '\n'

/-- What the loops over `i` and `j` append to the log, where `lat` is what the pipe gives for the cores `i` and `j`. -/
def testLat (nrCores : Nat) (lat : Nat → Nat → List Char) : List Char :=
  (List.range nrCores).flatMap fun i =>
    ((List.range nrCores).flatMap fun j => if i = j then "NA\t".toList else lat i j ++ ['\t']) ++ ['\n']

def logText (nrCores : Nat) (runs : Nat → Nat → Printed) : List Char :=
  testLat nrCores fun i j => substituted (tailLine (runs i j).output)

section
variable {nrCores : Nat} {round : Rat → Rat} {atof : List Char → Rat}

theorem digit_plain {c : Char} (digit : c.isDigit = true) : isSpace c = false := by
  unfold isSpace
  rw [Bool.eq_false_iff]
  intro space
  simp only [Bool.or_eq_true, decide_eq_true_eq] at space
  rcases space with ((((rfl | rfl) | rfl) | rfl) | rfl) | rfl <;> cases digit

theorem fixedText_plain (places n : Nat) : ∀ c ∈ fixedText places n, isSpace c = false := by
  intro c member
  rcases List.mem_append.mp member with whole | rest
  · exact digit_plain (toDigits_isDigit _ c whole)
  · rcases List.mem_cons.mp rest with rfl | fraction
    · rfl
    · exact digit_plain (padded_isDigit _ _ c fraction)

theorem fixedText_isWord (places n : Nat) : IsWord (fixedText places n) := by
  refine ⟨?_, fixedText_plain places n⟩
  obtain ⟨c, rest, text, _⟩ := fixedText_cons places n
  rw [text]
  exact List.cons_ne_nil c rest

theorem substituted_line {line : List Char} (plain : ∀ c ∈ line, isSpace c = false) : substituted (line ++ ['\n']) = line := by
  rw [substituted, List.rdropWhile_concat_pos _ _ _ (by rfl), List.rdropWhile_eq_self_iff]
  intro some_ newline
  have last := plain _ (List.getLast_mem some_)
  rw [of_decide_eq_true newline] at last
  cases last

theorem substituted_output (printed : Printed) : substituted (tailLine printed.output) = fixedText 3 printed.millis := by
  have plain := fixedText_plain 3 printed.millis
  have single : '\n' ∉ fixedText 3 printed.millis := fun member => by
    have space := plain _ member
    cases space
  have last : tailLine printed.output = fixedText 3 printed.millis ++ ['\n'] := by
    obtain ⟨front, lines⟩ : ∃ front, printed.lines = front ++ [fixedText 6 printed.micros, fixedText 3 printed.millis] := ⟨_, rfl⟩
    have split : printed.output = (front ++ [fixedText 6 printed.micros]).flatMap (fun line => line ++ ['\n']) ++
        (fixedText 3 printed.millis ++ ['\n']) := by
      rw [Printed.output, lines]
      simp
    rw [tailLine, split, fileLines_append, fileLines_line single, List.getLast?_concat, Option.getD_some]
    intro c member
    rw [List.flatMap_append, List.flatMap_singleton, ← List.append_assoc, List.getLast?_concat] at member
    exact (Option.some.inj member).symm
  rw [last, substituted_line plain]

def logTable (nrCores : Nat) (runs : Nat → Nat → Printed) : List (List (List Char)) :=
  (List.range nrCores).map fun i => (List.range nrCores).map fun j =>
    if i = j then "NA".toList else fixedText 3 (runs i j).millis

theorem logText_eq (runs : Nat → Nat → Printed) : logText nrCores runs = tableText (logTable nrCores runs) := by
  unfold logText testLat tableText logTable
  rw [List.flatMap_map]
  congr 1
  funext i
  rw [rowText, List.flatMap_map]
  congr 2
  funext j
  dsimp only
  rw [substituted_output]
  split <;> rfl

theorem logTable_words (runs : Nat → Nat → Printed) : ∀ row ∈ logTable nrCores runs, ∀ word ∈ row, IsWord word := by
  intro row inside word member
  obtain ⟨i, _, rfl⟩ := List.mem_map.mp inside
  obtain ⟨j, _, rfl⟩ := List.mem_map.mp member
  split
  · exact isWord_of_all (by decide) (by decide)
  · exact fixedText_isWord _ _

def latency (round : Rat → Rat) (runs : Nat → Nat → Printed) (i j : Nat) : Rat :=
  if i = j then 0 else round ((runs i j).millis / 1000)

def latencies (round : Rat → Rat) (nrCores : Nat) (runs : Nat → Nat → Printed) : Mat :=
  (List.range nrCores).map fun i => (List.range nrCores).map (latency round runs i)

theorem contents_logText (reads : ∀ word, IsDecimal word → atof word = round (decimal word)) (runs : Nat → Nat → Printed) :
    contents atof (logText nrCores runs) = latencies round nrCores runs := by
  rw [logText_eq, contents_tableText atof (logTable_words runs), logTable, latencies, List.map_map]
  refine List.map_congr_left fun i _ => ?_
  rw [Function.comp_apply, List.map_map]
  refine List.map_congr_left fun j _ => ?_
  rw [Function.comp_apply, latency]
  split
  next same => rfl
  next other =>
    obtain ⟨c, rest, text, digit⟩ := fixedText_cons 3 (runs i j).millis
    have number : fixedText 3 (runs i j).millis ≠ ['N', 'A'] := by
      rw [text]
      rintro same
      rw [(List.cons.inj same).1] at digit
      cases digit
    rw [readWord, if_neg number, reads _ (isDecimal_fixedText 3 _), decimal_fixedText (by decide)]
    norm_num

theorem shape_latencies (round : Rat → Rat) (nrCores : Nat) (runs : Nat → Nat → Printed) :
    (latencies round nrCores runs).shape = List.replicate nrCores nrCores := by
  rw [latencies, Ragged.shape, List.map_map]
  refine List.eq_replicate_iff.mpr ⟨by simp, fun width row => ?_⟩
  obtain ⟨i, _, rfl⟩ := List.mem_map.mp row
  simp

theorem column_latencies (round : Rat → Rat) (logs : List (Nat → Nat → Printed)) {i j : Nat} (row : i < nrCores) (inRow : j < nrCores) :
    column (logs.map (latencies round nrCores)) i j = logs.map fun runs => latency round runs i j := by
  rw [column, List.filterMap_map]
  refine List.filterMap_eq_map_iff_forall_eq_some.mpr fun runs _ => ?_
  rw [Function.comp_apply, latencies, Ragged.entry, List.getElem?_map, List.getElem?_range row, Option.map_some, Option.bind_some,
    List.getElem?_map, List.getElem?_range inRow, Option.map_some]

end

/-- Over any number of logs of rounds on the same cores, and however doubles are rounded, each position of the three matrices
sums up the latencies of its two cores. -/
theorem logs_summarised (round : Rat → Rat) (atof : List Char → Rat)
    (reads : ∀ word, IsDecimal word → atof word = round (decimal word)) (nrCores : Nat)
    (cores : 0 < nrCores) (logs : List (Nat → Nat → Printed)) (some_ : logs ≠ []) :
    ∃ acc, resultParser round atof (logs.map fun runs => some (logText nrCores runs)) = some acc ∧
      acc.shapes = List.replicate 3 (List.replicate nrCores nrCores) ∧
      ∀ i j, i < nrCores → j < nrCores → ∃ cell, acc.cell i j = some cell ∧
        cell.Holds round (logs.map fun runs => latency round runs i j) := by
  have mats : readFiles atof [] (logs.map fun runs => some (logText nrCores runs)) = logs.map (latencies round nrCores) := by
    rw [show (logs.map fun runs => some (logText nrCores runs)) = (logs.map (logText nrCores)).map some from (List.map_map ..).symm,
      readFiles_readable, List.map_map]
    exact List.map_congr_left fun runs _ => contents_logText reads runs
  have common : ∀ mat ∈ logs.map (latencies round nrCores), Ragged.shape mat = List.replicate nrCores nrCores := by
    intro mat member
    obtain ⟨runs, _, rfl⟩ := List.mem_map.mp member
    exact shape_latencies round nrCores runs
  obtain ⟨first, later, rfl⟩ := List.exists_cons_of_ne_nil some_
  obtain ⟨acc, ran, shapes, inside, _⟩ := statistics_summarise common ⟨nrCores, List.mem_replicate.mpr ⟨cores.ne', rfl⟩, cores⟩
  refine ⟨acc, (congrArg (statistics round) mats).trans ran, shapes, fun i j row inRow => ?_⟩
  have width : (List.replicate nrCores nrCores).getD i 0 = nrCores := by
    rw [List.getD_eq_getElem _ _ (by simpa using row), List.getElem_replicate]
  obtain ⟨cell, found, summary⟩ := inside i j (by rw [width]; exact inRow)
  have values := column_latencies round (first :: later) row inRow
  rw [List.map_cons] at values
  exact ⟨cell, found, values ▸ summary⟩

def pair (millis : Nat) : Printed := { loops := 2000000, nThreads := 2, order := [1, 0], micros := 4000 * millis, millis }

def rounds : List (Nat → Nat → Printed) := [fun i _ => pair (50683 + i), fun i _ => pair (51000 + i)]

theorem logs_summarised_two :
    ∃ acc, resultParser double (fun word => double (decimal word)) (rounds.map fun runs => some (logText 2 runs)) = some acc ∧
      acc.shapes = List.replicate 3 (List.replicate 2 2) ∧
      ∀ i j, i < 2 → j < 2 → ∃ cell, acc.cell i j = some cell ∧ cell.Holds double (rounds.map fun runs => latency double runs i j) :=
  logs_summarised double (fun word => double (decimal word)) (fun _ _ => rfl) 2 (by decide) rounds (List.cons_ne_nil _ _)

end Mbench.CoreLat
