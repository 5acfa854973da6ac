import Mathlib.Algebra.Group.Int.Defs
import Mathlib.Algebra.Group.Nat.Defs
import Mathlib.Data.List.Basic
import Mathlib.Data.List.DropRight
import Mathlib.Data.List.Infix
import Mathlib.Tactic.Common

/-! Text as the C library reads it: `fgets` on a stream of characters, `strstr` and
`sscanf` on strings. A string is the list of its characters before the terminating NUL. -/

namespace Mbench.Library

def isSpace (c : Char) : Bool :=
  c = ' ' || c = '\t' || c = '\n' || c = '\x0b' || c = '\x0c' || c = '\r'

def cString (buffer : List Char) : List Char := buffer.takeWhile fun c => c ≠ '\x00'

/-- The characters up to the end of the line, at most `room` of them, and the others. -/
def upToNewline : Nat → List Char → List Char × List Char
  | 0, stream => ([], stream)
  | _, [] => ([], [])
  | room + 1, c :: stream =>
      if c = '\n' then ([c], stream)
      else (c :: (upToNewline room stream).1, (upToNewline room stream).2)

/-- `fgets(buffer, size, stream)`: the string in the buffer and the rest of the stream, or
`none` at the end of it. -/
def fgets (size : Nat) (stream : List Char) : Option (List Char × List Char) :=
  if stream = [] then none
  else some (cString (upToNewline (size - 1) stream).1, (upToNewline (size - 1) stream).2)

def fileLines : List Char → List (List Char)
  | [] => []
  | c :: stream =>
      if c = '\n' then [c] :: fileLines stream
      else
        match fileLines stream with
        | [] => [[c]]
        | line :: lines => (c :: line) :: lines

theorem fileLines_eq_nil {stream : List Char} : fileLines stream = [] ↔ stream = [] := by
  cases stream with
  | nil => simp [fileLines]
  | cons c stream =>
    rw [fileLines]
    by_cases newline : c = '\n'
    · simp [newline]
    · rw [if_neg newline]
      cases fileLines stream <;> simp

theorem fileLines_append {first second : List Char} (complete : ∀ c ∈ first.getLast?, c = '\n') :
    fileLines (first ++ second) = fileLines first ++ fileLines second := by
  induction first with
  | nil => rfl
  | cons c first ih =>
    by_cases last : first = []
    · subst last
      have newline : c = '\n' := complete c rfl
      simp [fileLines, newline]
    · have ends (other : Char) (member : other ∈ first.getLast?) : other ∈ (c :: first).getLast? := by
        rw [List.getLast?_cons, Option.mem_def.mp member]
        rfl
      have rest := ih fun other member => complete other (ends other member)
      rw [List.cons_append, fileLines, fileLines, rest]
      by_cases newline : c = '\n'
      · simp [newline]
      · rw [if_neg newline, if_neg newline]
        cases split : fileLines first with
        | nil => exact absurd (fileLines_eq_nil.mp split) last
        | cons line lines => rfl

theorem fileLines_flatten {mappings : List (List Char)} (complete : ∀ mapping ∈ mappings, ∀ c ∈ mapping.getLast?, c = '\n') :
    fileLines mappings.flatten = (mappings.map fileLines).flatten := by
  induction mappings with
  | nil => rfl
  | cons mapping mappings ih =>
    obtain ⟨first, others⟩ := List.forall_mem_cons.mp complete
    rw [List.flatten_cons, fileLines_append first, ih others, List.map_cons, List.flatten_cons]

theorem fileLines_line {text : List Char} (single : '\n' ∉ text) : fileLines (text ++ ['\n']) = [text ++ ['\n']] := by
  induction text with
  | nil => rfl
  | cons c text ih =>
    obtain ⟨other, rest⟩ := not_or.mp (mt List.mem_cons.mpr single)
    rw [List.cons_append, fileLines, if_neg (Ne.symm other), ih rest]

theorem upToNewline_line {stream line : List Char} {lines : List (List Char)} (split : fileLines stream = line :: lines)
    (room : Nat) (short : line.length ≤ room) :
    (upToNewline room stream).1 = line ∧ fileLines (upToNewline room stream).2 = lines := by
  induction stream generalizing line lines room with
  | nil => cases split
  | cons c stream ih =>
    rw [fileLines] at split
    cases room with
    | zero =>
      have empty : line = [] := List.length_eq_zero_iff.mp (Nat.le_zero.mp short)
      subst empty
      by_cases newline : c = '\n'
      · simp [newline] at split
      · rw [if_neg newline] at split
        cases rest : fileLines stream with
        | nil => simp [rest] at split
        | cons first others => simp [rest] at split
    | succ room =>
      rw [upToNewline]
      by_cases newline : c = '\n'
      · rw [if_pos newline] at split ⊢
        cases split
        exact ⟨rfl, rfl⟩
      · rw [if_neg newline] at split ⊢
        cases rest : fileLines stream with
        | nil =>
          have nothing := fileLines_eq_nil.mp rest
          subst nothing
          simp only [rest, List.cons.injEq] at split
          obtain ⟨rfl, rfl⟩ := split
          cases room <;> exact ⟨rfl, rfl⟩
        | cons first others =>
          simp only [rest, List.cons.injEq] at split
          obtain ⟨rfl, rfl⟩ := split
          obtain ⟨front, back⟩ := ih rest room (Nat.le_of_succ_le_succ short)
          exact ⟨by rw [front], back⟩

theorem fgets_line {stream line : List Char} {lines : List (List Char)} {size : Nat}
    (split : fileLines stream = line :: lines) (short : line.length < size) :
    ∃ rest, fgets size stream = some (cString line, rest) ∧ fileLines rest = lines := by
  obtain ⟨front, back⟩ := upToNewline_line split (size - 1) (by omega)
  have some_ : stream ≠ [] := fun nothing => by
    rw [nothing] at split
    cases split
  exact ⟨_, by rw [fgets, if_neg some_, front], back⟩

theorem upToNewline_length_lt (room : Nat) {stream : List Char} (some_ : stream ≠ []) :
    (upToNewline (room + 1) stream).2.length < stream.length := by
  induction stream generalizing room with
  | nil => exact absurd rfl some_
  | cons c stream ih =>
    rw [upToNewline]
    by_cases newline : c = '\n'
    · rw [if_pos newline]
      exact Nat.lt_succ_self _
    · rw [if_neg newline]
      cases room with
      | zero => exact Nat.lt_succ_self _
      | succ room =>
        by_cases more : stream = []
        · subst more
          exact Nat.zero_lt_one
        · exact Nat.lt_succ_of_lt (ih room more)

theorem fgets_length_lt {size : Nat} {stream buffer rest : List Char} (read : fgets (size + 2) stream = some (buffer, rest)) :
    rest.length < stream.length := by
  unfold fgets at read
  by_cases some_ : stream = []
  · rw [if_pos some_] at read
    cases read
  · rw [if_neg some_] at read
    cases read
    exact upToNewline_length_lt size some_

/-! Searching. -/

/-- `strstr`: the string from the first place on where it continues with `needle`. -/
def strstr : List Char → List Char → Option (List Char)
  | [], needle => if needle = [] then some [] else none
  | c :: rest, needle => if needle.isPrefixOf (c :: rest) then some (c :: rest) else strstr rest needle

def contains (haystack : List Char) (needle : String) : Bool := (strstr haystack needle.toList).isSome

theorem strstr_prefix {haystack needle : List Char} (here : needle <+: haystack) :
    strstr haystack needle = some haystack := by
  cases haystack with
  | nil =>
    rw [List.prefix_nil.mp here]
    rfl
  | cons c rest => rw [strstr, if_pos (List.isPrefixOf_iff_prefix.mpr here)]

theorem contains_infix {haystack : List Char} {needle : String} (inside : needle.toList <:+: haystack) :
    contains haystack needle = true := by
  obtain ⟨front, back, rfl⟩ := inside
  rw [List.append_assoc]
  unfold contains
  induction front with
  | nil => rw [List.nil_append, strstr_prefix (List.prefix_append _ _), Option.isSome_some]
  | cons c front ih =>
    rw [List.cons_append, strstr]
    split
    · rfl
    · exact ih

theorem strstr_suffix {haystack needle found : List Char} (search : strstr haystack needle = some found) :
    found <:+ haystack := by
  induction haystack with
  | nil =>
    rw [strstr] at search
    split at search
    · cases search
      exact List.suffix_rfl
    · cases search
  | cons c rest ih =>
    rw [strstr] at search
    split at search
    · cases search
      exact List.suffix_rfl
    · exact (ih search).trans (List.suffix_cons c rest)

/-- The number at the front of the input, as `strtoll` reads it but without a bound, and
the input after it. -/
def numeral (input : List Char) : Option (Int × List Char) :=
  let text := input.dropWhile isSpace
  let negative := text.head? = some '-'
  let digits := if negative || text.head? = some '+' then text.tail else text
  let number := digits.takeWhile Char.isDigit
  let value : Int := number.foldl (fun value digit => 10 * value + (digit.toNat - '0'.toNat : Nat)) 0
  if number = [] then none else some (if negative then -value else value, digits.dropWhile Char.isDigit)

/-- The word at the front of the input, as `%s` reads it, and the input after it. -/
def token (input : List Char) : Option (List Char × List Char) :=
  let text := input.dropWhile isSpace
  let front := text.takeWhile fun c => !isSpace c
  if front = [] then none else some (front, text.dropWhile fun c => !isSpace c)

def saturate (value : Int) : Int := max (-2 ^ 63) (min value (2 ^ 63 - 1))

theorem saturate_self {value : Int} (low : -2 ^ 63 ≤ value) (high : value < 2 ^ 63) : saturate value = value := by
  unfold saturate
  omega

inductive Directive
  | blank
  | literal (c : Char)
  | int
  | longLong

def directives : List Char → List Directive
  | [] => []
  | '%' :: 'd' :: format => .int :: directives format
  | '%' :: 'l' :: 'l' :: 'd' :: format => .longLong :: directives format
  | c :: format => (if isSpace c then .blank else .literal c) :: directives format

theorem directives_literal {c : Char} {format : List Char} (plain : isSpace c = false ∧ c ≠ '%') :
    directives (c :: format) = .literal c :: directives format := by
  rw [directives, plain.1]
  · rfl
  · rintro others ⟨⟩
    exact absurd rfl plain.2
  · rintro others ⟨⟩
    exact absurd rfl plain.2

/-- The numbers that are converted, and whether the format has been matched to its end.
A number that does not fit an int loses its high bits. -/
def scan : List Directive → List Char → List Int × Bool
  | [], _ => ([], true)
  | .blank :: format, input => scan format (input.dropWhile isSpace)
  | .literal _ :: _, [] => ([], false)
  | .literal c :: format, first :: input => if first = c then scan format input else ([], false)
  | .int :: format, input =>
      match numeral input with
      | none => ([], false)
      | some (value, rest) => ((saturate value).bmod (2 ^ 32) :: (scan format rest).1, (scan format rest).2)
  | .longLong :: format, input =>
      match numeral input with
      | none => ([], false)
      | some (value, rest) => (saturate value :: (scan format rest).1, (scan format rest).2)

/-- `sscanf(input, format, …)`: the numbers it stores. Their count is what it returns,
where it does not return EOF. -/
def sscanf (input : List Char) (format : String) : List Int := (scan (directives format.toList) input).1

theorem sscanf_other {input : List Char} {format : String} {first : Char} (start : format.toList.head? = some first)
    (plain : isSpace first = false ∧ first ≠ '%') (other : input.head? ≠ some first) : sscanf input format = [] := by
  unfold sscanf
  cases text : format.toList with
  | nil =>
    rw [text] at start
    cases start
  | cons c format =>
    rw [text] at start
    cases start
    rw [directives_literal plain]
    cases input with
    | nil => rfl
    | cons c input =>
      rw [scan, if_neg fun same => other (by rw [same]; rfl)]

theorem scan_literals (front : List Char) (format : List Directive) (input : List Char) :
    scan (front.map Directive.literal ++ format) input =
      if front.isPrefixOf input then scan format (input.drop front.length) else ([], false) := by
  induction front generalizing input with
  | nil => rfl
  | cons c front ih =>
    cases input with
    | nil => rfl
    | cons first input =>
      rw [List.map_cons, List.cons_append, scan, List.isPrefixOf_cons_cons]
      by_cases same : first = c
      · rw [if_pos same, ih, same, beq_self_eq_true, Bool.true_and]
        rfl
      · rw [if_neg same, beq_eq_false_iff_ne.mpr (Ne.symm same), Bool.false_and]
        rfl

def plainText (text : List Char) : Bool := text.all fun c => !isSpace c && c ≠ '%'

theorem directives_plain {front : List Char} (plain : plainText front = true) (format : List Char) :
    directives (front ++ format) = front.map Directive.literal ++ directives format := by
  induction front with
  | nil => rfl
  | cons c front ih =>
    rw [plainText, List.all_cons, Bool.and_eq_true] at plain
    have first : isSpace c = false ∧ c ≠ '%' := by simpa using plain.1
    rw [List.cons_append, directives_literal first, ih plain.2]
    rfl

theorem numeral_dropWhile (input : List Char) : numeral (input.dropWhile isSpace) = numeral input := by
  unfold numeral
  rw [List.dropWhile_idempotent]

def isNumeral (c : Char) : Bool := isSpace c || c = '-' || c = '+' || c.isDigit

theorem numeral_front {input rest : List Char} {value : Int} (number : numeral input = some (value, rest)) :
    ∃ front, input = front ++ rest ∧ ∀ c ∈ front, isNumeral c = true := by
  unfold numeral at number
  extract_lets text negative digits run value_ at number
  split at number
  · cases number
  · cases number
    have blanks : input.takeWhile isSpace ++ text = input := List.takeWhile_append_dropWhile
    have numbers : run ++ digits.dropWhile Char.isDigit = digits := List.takeWhile_append_dropWhile
    obtain ⟨sign, signed, plain⟩ : ∃ sign, text = sign ++ digits ∧ ∀ c ∈ sign, c = '-' ∨ c = '+' := by
      by_cases one : (decide negative || decide (text.head? = some '+')) = true
      · obtain ⟨first, same, kind⟩ : ∃ first, text.head? = some first ∧ (first = '-' ∨ first = '+') := by
          simp only [Bool.or_eq_true, decide_eq_true_eq] at one
          cases one with
          | inl minus => exact ⟨'-', minus, Or.inl rfl⟩
          | inr plus => exact ⟨'+', plus, Or.inr rfl⟩
        refine ⟨[first], ?_, fun c member => by rwa [List.mem_singleton.mp member]⟩
        rw [show digits = text.tail from if_pos one]
        exact (List.cons_head?_tail same).symm
      · refine ⟨[], ?_, fun c member => by cases member⟩
        rw [show digits = text from if_neg one]
        rfl
    refine ⟨input.takeWhile isSpace ++ (sign ++ run), ?_, ?_⟩
    · rw [List.append_assoc, List.append_assoc, numbers, ← signed, blanks]
    · intro c member
      rw [List.mem_append, List.mem_append] at member
      unfold isNumeral
      rcases member with blank | signs | digit
      · rw [List.mem_takeWhile_imp blank]
        rfl
      · cases plain c signs with
        | inl minus => simp [minus]
        | inr plus => simp [plus]
      · rw [List.mem_takeWhile_imp digit, Bool.or_true]

theorem scan_longLong (input : List Char) :
    (scan [.blank, .longLong] input).1 = ((numeral input).map fun number => saturate number.1).toList := by
  rw [scan, scan, numeral_dropWhile]
  cases numeral input <;> rfl

theorem sscanf_named {name : String} (plain : plainText name.toList = true) (input : List Char) :
    sscanf input (name ++ " %lld") =
      if name.toList.isPrefixOf input then
        ((numeral (input.drop name.toList.length)).map fun number => saturate number.1).toList
      else [] := by
  rw [sscanf, String.toList_append, directives_plain plain, scan_literals]
  split
  · exact scan_longLong _
  · rfl

end Mbench.Library
