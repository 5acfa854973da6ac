import Mbench.TlbShootDown.Parse
import Mathlib.Algebra.Order.BigOperators.Group.List
import Mathlib.Algebra.Ring.Int.Defs

/-! What `parse` adds up: the exact sum for each name, as long as no running sum leaves the `int`. -/

namespace Mbench.TlbShootDown
open Library

def linebufs (text : List Char) : List (List Char) := (fileLines text).map cString

def firstToken (line : List Char) : List Char := (line.dropWhile isSpace).takeWhile fun c => !isSpace c

def integerOf (line : List Char) : Option Int :=
  (numeral ((line.dropWhile isSpace).dropWhile fun c => !isSpace c)).map Prod.fst

def exactSum (field : String) (lines : List (List Char)) : Int :=
  (lines.filterMap fun line => if field.toList = firstToken line then integerOf line else none).sum

/-- No running sum leaves the `int`. -/
def TotalsFit (lines : List (List Char)) : Prop := ∀ field ∈ fieldName, ∀ count, IsInt (exactSum field (lines.take count))

def contribution (line : List Char) (field : String) : Int :=
  if field.toList = firstToken line then (integerOf line).getD 0 else 0

theorem exactSum_cons (field : String) (line : List Char) (lines : List (List Char)) :
    exactSum field (line :: lines) = contribution line field + exactSum field lines := by
  unfold exactSum contribution
  by_cases named : field.toList = firstToken line
  · rw [if_pos named]
    cases value : integerOf line with
    | none => simp [named, value]
    | some value => simp [named, value]
  · simp [named]

theorem scanNameValue_eq {line : List Char} (fits : ∀ value ∈ integerOf line, IsInt value) :
    scanNameValue line = (integerOf line).map fun value => (firstToken line, value) := by
  cases text : line.dropWhile isSpace with
  | nil => simp [scanNameValue, token, integerOf, text, numeral]
  | cons c rest =>
    have visible : isSpace c = false := by
      have stopped := List.head?_dropWhile_not isSpace line
      rw [text] at stopped
      simpa using stopped
    have found : token line = some (firstToken line, (c :: rest).dropWhile fun c => !isSpace c) := by
      simp [token, firstToken, text, visible]
    have behind : integerOf line = (numeral ((c :: rest).dropWhile fun c => !isSpace c)).map Prod.fst := by
      rw [integerOf, text]
    rw [behind] at fits ⊢
    simp only [scanNameValue, found, Option.bind_eq_bind, Option.bind_some]
    cases number : numeral ((c :: rest).dropWhile fun c => !isSpace c) with
    | none => rfl
    | some pair =>
      have inRange := fits pair.1 (by rw [number]; rfl)
      have kept : (saturate pair.1).bmod (2 ^ 32) = pair.1 := by
        rw [saturate_self (by omega) (by omega)]
        exact Int.bmod_eq_of_le_mul_two (by omega) (by omega)
      simp only [Option.bind_some, kept, Option.map_some]

theorem addField_eq_some {name : List Char} {value : Int} {names : List String} (distinct : names.Nodup)
    (totals : String → Int) (result : List Int) :
    addField name value names (names.map totals) = some result ↔
      (∀ field ∈ names, field.toList = name → IsInt (totals field + value)) ∧
        result = names.map fun field => totals field + if field.toList = name then value else 0 := by
  induction names generalizing result with
  | nil => simp [addField, eq_comm]
  | cons field names ih =>
    obtain ⟨fresh, distinct⟩ := List.nodup_cons.mp distinct
    rw [List.map_cons, addField]
    by_cases named : name = field.toList
    · have others : ∀ other ∈ names, other.toList ≠ name := fun other member same =>
        fresh (String.toList_inj.mp (same.trans named) ▸ member)
      have rest : (names.map fun other => totals other + if other.toList = name then value else 0) = names.map totals :=
        List.map_congr_left fun other member => by rw [if_neg (others other member), add_zero]
      rw [if_pos named, Option.map_eq_some_iff, List.map_cons, if_pos named.symm, rest, List.forall_mem_cons]
      constructor
      · rintro ⟨sum, added, rfl⟩
        obtain ⟨inRange, rfl⟩ := addInt_eq_some.mp added
        exact ⟨⟨fun _ => inRange, fun other member same => absurd same (others other member)⟩, rfl⟩
      · rintro ⟨⟨inRange, _⟩, rfl⟩
        exact ⟨_, addInt_eq_some.mpr ⟨inRange named.symm, rfl⟩, rfl⟩
    · rw [if_neg named, Option.map_eq_some_iff, List.map_cons, if_neg (Ne.symm named), add_zero, List.forall_mem_cons]
      constructor
      · rintro ⟨fields, added, rfl⟩
        obtain ⟨inRange, rfl⟩ := (ih distinct fields).mp added
        exact ⟨⟨fun same => absurd same.symm named, inRange⟩, rfl⟩
      · rintro ⟨⟨_, inRange⟩, rfl⟩
        exact ⟨_, (ih distinct _).mpr ⟨inRange, rfl⟩, rfl⟩

theorem fieldName_nodup : fieldName.Nodup := by decide

theorem addLine_eq_some {line : List Char} (fits : ∀ value ∈ integerOf line, IsInt value) {totals : String → Int}
    (inRange : ∀ field ∈ fieldName, IsInt (totals field)) (result : List Int) :
    addLine (fieldName.map totals) line = some result ↔
      (∀ field ∈ fieldName, IsInt (totals field + contribution line field)) ∧
        result = fieldName.map fun field => totals field + contribution line field := by
  unfold addLine contribution
  rw [scanNameValue_eq fits]
  cases value : integerOf line with
  | none =>
    simp only [Option.map_none, Option.getD_none, ite_self, add_zero, Option.some.injEq]
    exact ⟨fun same => ⟨inRange, same.symm⟩, fun same => same.2.symm⟩
  | some value =>
    simp only [Option.map_some, Option.getD_some, addField_eq_some fieldName_nodup]
    refine and_congr_left fun _ => ⟨fun named field member => ?_, fun all field member same => ?_⟩
    · by_cases same : field.toList = firstToken line
      · rw [if_pos same]
        exact named field member same
      · rw [if_neg same, add_zero]
        exact inRange field member
    · have here := all field member
      rwa [if_pos same] at here

theorem addLines_eq_some {lines : List (List Char)} (fits : ∀ line ∈ lines, ∀ value ∈ integerOf line, IsInt value)
    {totals : String → Int} (inRange : ∀ field ∈ fieldName, IsInt (totals field)) (result : List Int) :
    lines.foldlM addLine (fieldName.map totals) = some result ↔
      (∀ field ∈ fieldName, ∀ count, IsInt (totals field + exactSum field (lines.take count))) ∧
        result = fieldName.map fun field => totals field + exactSum field lines := by
  induction lines generalizing totals with
  | nil =>
    have nothing (field : String) : exactSum field [] = 0 := rfl
    simp only [List.foldlM_nil, Option.pure_def, Option.some.injEq, List.take_nil, nothing, add_zero]
    exact ⟨fun same => ⟨fun field member _ => inRange field member, same.symm⟩, fun same => same.2.symm⟩
  | cons line lines ih =>
    obtain ⟨fitsLine, fitsLines⟩ := List.forall_mem_cons.mp fits
    rw [List.foldlM_cons, Option.bind_eq_bind, Option.bind_eq_some_iff]
    constructor
    · rintro ⟨fields, first, others⟩
      obtain ⟨stays, rfl⟩ := (addLine_eq_some fitsLine inRange fields).mp first
      obtain ⟨running, same⟩ := (ih fitsLines stays).mp others
      refine ⟨fun field member count => ?_, same.trans (List.map_congr_left fun field _ => ?_)⟩
      · cases count with
        | zero =>
          rw [List.take_zero, show exactSum field [] = 0 from rfl, add_zero]
          exact inRange field member
        | succ count =>
          rw [List.take_succ_cons, exactSum_cons, ← add_assoc]
          exact running field member count
      · rw [exactSum_cons, add_assoc]
    · rintro ⟨running, rfl⟩
      have after (field : String) (member : field ∈ fieldName) (count : Nat) :
          IsInt (totals field + contribution line field + exactSum field (lines.take count)) := by
        have reached := running field member (count + 1)
        rwa [List.take_succ_cons, exactSum_cons, ← add_assoc] at reached
      have stays (field : String) (member : field ∈ fieldName) : IsInt (totals field + contribution line field) := by
        have reached := after field member 0
        rwa [List.take_zero, show exactSum field [] = 0 from rfl, add_zero] at reached
      refine ⟨_, (addLine_eq_some fitsLine inRange _).mpr ⟨stays, rfl⟩, (ih fitsLines stays).mpr ⟨after, ?_⟩⟩
      exact List.map_congr_left fun field _ => by rw [exactSum_cons, add_assoc]

section
variable {ferror : List Char → Bool} (readable : ∀ rest, ferror rest = false)
include readable

theorem parseLoop_eq {stream : List Char} {lines : List (List Char)} (split : fileLines stream = lines)
    (short : ∀ line ∈ lines, line.length < bufsiz) (fields : List Int) :
    parseLoop ferror fields stream = (lines.map cString).foldlM addLine fields := by
  induction lines generalizing stream fields with
  | nil =>
    rw [fileLines_eq_nil.mp split, parseLoop]
    rfl
  | cons line lines ih =>
    obtain ⟨fitsLine, fitsLines⟩ := List.forall_mem_cons.mp short
    obtain ⟨rest, read, behind⟩ := fgets_line split fitsLine
    rw [parseLoop]
    split
    next ended =>
      rw [read] at ended
      cases ended
    next linebuf rest' read' =>
      rw [read] at read'
      cases read'
      rw [if_neg (by simp [readable]), List.map_cons, List.foldlM_cons]
      exact congrArg _ (funext fun fields => ih behind fitsLines fields)

theorem parse_eq_some {text : List Char} (short : ∀ line ∈ fileLines text, line.length < bufsiz)
    (fits : ∀ line ∈ linebufs text, ∀ value ∈ integerOf line, IsInt value) (before result : List Int) :
    parse ferror (some text) before = some result ↔
      TotalsFit (linebufs text) ∧ result = fieldName.map fun field => exactSum field (linebufs text) := by
  have zeros : List.replicate fieldLen 0 = fieldName.map fun _ => (0 : Int) := by decide
  have inRange : ∀ field ∈ fieldName, IsInt 0 := fun _ _ => by decide
  rw [parse, parseLoop_eq readable rfl short, zeros, ← linebufs, addLines_eq_some fits inRange]
  simp only [zero_add, TotalsFit]

end

theorem exactSum_append (field : String) (first second : List (List Char)) :
    exactSum field (first ++ second) = exactSum field first + exactSum field second := by
  rw [exactSum, List.filterMap_append, List.sum_append]
  rfl

theorem linebufs_append {first second : List Char} (complete : ∀ c ∈ first.getLast?, c = '\n') :
    linebufs (first ++ second) = linebufs first ++ linebufs second := by
  rw [linebufs, fileLines_append complete, List.map_append]
  rfl

theorem TotalsFit.front {first second : List (List Char)} (fit : TotalsFit (first ++ second)) : TotalsFit first := by
  intro field member count
  have reached := fit field member (min count first.length)
  rwa [List.take_append_of_le_length (Nat.min_le_right _ _), ← List.take_eq_take_min] at reached

theorem exactSum_nonneg (field : String) {lines : List (List Char)}
    (nonneg : ∀ line ∈ lines, ∀ value ∈ integerOf line, 0 ≤ value) : 0 ≤ exactSum field lines := by
  apply List.sum_nonneg
  intro value member
  obtain ⟨line, here, named⟩ := List.mem_filterMap.mp member
  exact nonneg line here value (Option.ite_none_right_eq_some.mp named).2

theorem totalsFit_iff_of_nonneg {lines : List (List Char)} (nonneg : ∀ line ∈ lines, ∀ value ∈ integerOf line, 0 ≤ value) :
    TotalsFit lines ↔ ∀ field ∈ fieldName, exactSum field lines < 2 ^ 31 := by
  constructor
  · intro fit field member
    have reached := fit field member lines.length
    rw [List.take_length] at reached
    exact reached.2
  · intro small field member count
    have pieces := exactSum_append field (lines.take count) (lines.drop count)
    rw [List.take_append_drop] at pieces
    have front : 0 ≤ exactSum field (lines.take count) :=
      exactSum_nonneg field fun line here => nonneg line (List.mem_of_mem_take here)
    have back : 0 ≤ exactSum field (lines.drop count) :=
      exactSum_nonneg field fun line here => nonneg line (List.mem_of_mem_drop here)
    have total := small field member
    constructor <;> omega

/-- `parse` leaves the exact sum for each name, exactly if no running sum leaves the `int`. Then the sums of two texts add
up for the one behind the other, and the order of the mappings makes no difference. -/
theorem parse_sums_iff {ferror : List Char → Bool} (readable : ∀ rest, ferror rest = false) (before : List Int)
    {text : List Char} (short : ∀ line ∈ fileLines text, line.length < bufsiz)
    (fits : ∀ line ∈ linebufs text, ∀ value ∈ integerOf line, IsInt value) :
    (parse ferror (some text) before = some (fieldName.map fun field => exactSum field (linebufs text)) ↔
      TotalsFit (linebufs text)) ∧
    (∀ first second, text = first ++ second → (∀ c ∈ first.getLast?, c = '\n') →
      TotalsFit (linebufs text) → TotalsFit (linebufs second) →
      ∃ sums others, parse ferror (some first) before = some sums ∧ parse ferror (some second) before = some others ∧
        parse ferror (some text) before = some (List.zipWith (· + ·) sums others)) ∧
    ∀ mappings reordered : List (List Char), text = mappings.flatten → reordered.Perm mappings →
      (∀ mapping ∈ mappings, ∀ c ∈ mapping.getLast?, c = '\n') →
      TotalsFit (linebufs text) → TotalsFit (linebufs reordered.flatten) →
      parse ferror (some reordered.flatten) before = parse ferror (some text) before := by
  refine ⟨?_, ?_, ?_⟩
  · rw [parse_eq_some readable short fits]
    exact and_iff_left rfl
  · rintro first second rfl complete fitWhole fitSecond
    have pieces : linebufs (first ++ second) = linebufs first ++ linebufs second := linebufs_append complete
    have added : (fieldName.map fun field => exactSum field (linebufs (first ++ second))) =
        List.zipWith (· + ·) (fieldName.map fun field => exactSum field (linebufs first))
          (fieldName.map fun field => exactSum field (linebufs second)) := by
      simp only [pieces, exactSum_append, List.zipWith_map, List.zipWith_self]
    have whole := (parse_eq_some readable short fits before _).mpr ⟨fitWhole, rfl⟩
    rw [added] at whole
    rw [fileLines_append complete, List.forall_mem_append] at short
    rw [pieces] at fits fitWhole
    rw [List.forall_mem_append] at fits
    exact ⟨_, _, (parse_eq_some readable short.1 fits.1 before _).mpr ⟨fitWhole.front, rfl⟩,
      (parse_eq_some readable short.2 fits.2 before _).mpr ⟨fitSecond, rfl⟩, whole⟩
  · rintro mappings reordered rfl perm complete fitText fitOther
    have complete' : ∀ mapping ∈ reordered, ∀ c ∈ mapping.getLast?, c = '\n' := fun mapping member =>
      complete mapping (perm.mem_iff.mp member)
    have lines : (fileLines reordered.flatten).Perm (fileLines mappings.flatten) := by
      rw [fileLines_flatten complete, fileLines_flatten complete']
      exact (perm.map fileLines).flatten
    have bufs : (linebufs reordered.flatten).Perm (linebufs mappings.flatten) := lines.map cString
    have sums : (fieldName.map fun field => exactSum field (linebufs reordered.flatten)) =
        fieldName.map fun field => exactSum field (linebufs mappings.flatten) :=
      List.map_congr_left fun field _ => (bufs.filterMap _).sum_eq
    rw [(parse_eq_some readable short fits before _).mpr ⟨fitText, rfl⟩, ← sums]
    exact (parse_eq_some readable (fun line member => short line (lines.mem_iff.mp member))
      (fun line member => fits line (bufs.mem_iff.mp member)) before _).mpr ⟨fitOther, rfl⟩

def smapsOf (size rss : String) : List Char :=
  ("00400000-0048a000 r-xp 00000000 fd:03 960637 /bin/bash\nSize: " ++ size ++ " kB\nRss: " ++ rss ++
    " kB\nVmFlags: rd ex\n").toList

theorem parse_sums_iff_small :
    (parse (fun _ => false) (some (smapsOf "552" "460")) [] =
        some (fieldName.map fun field => exactSum field (linebufs (smapsOf "552" "460"))) ↔
      TotalsFit (linebufs (smapsOf "552" "460"))) ∧
    (∀ first second, smapsOf "552" "460" = first ++ second → (∀ c ∈ first.getLast?, c = '\n') →
      TotalsFit (linebufs (smapsOf "552" "460")) → TotalsFit (linebufs second) →
      ∃ sums others, parse (fun _ => false) (some first) [] = some sums ∧ parse (fun _ => false) (some second) [] = some others ∧
        parse (fun _ => false) (some (smapsOf "552" "460")) [] = some (List.zipWith (· + ·) sums others)) ∧
    ∀ mappings reordered : List (List Char), smapsOf "552" "460" = mappings.flatten → reordered.Perm mappings →
      (∀ mapping ∈ mappings, ∀ c ∈ mapping.getLast?, c = '\n') →
      TotalsFit (linebufs (smapsOf "552" "460")) → TotalsFit (linebufs reordered.flatten) →
      parse (fun _ => false) (some reordered.flatten) [] = parse (fun _ => false) (some (smapsOf "552" "460")) [] :=
  parse_sums_iff (fun _ => rfl) [] (by decide +kernel) (by decide +kernel)

/-- Two mappings of 2^31 - 1 and 1 kB: every number is an `int`, the sum of the sizes is not. -/
theorem parse_overflows :
    (∀ line ∈ fileLines (smapsOf "2147483647" "4" ++ smapsOf "1" "1"), line.length < bufsiz) ∧
      (∀ line ∈ linebufs (smapsOf "2147483647" "4" ++ smapsOf "1" "1"), ∀ value ∈ integerOf line, IsInt value) ∧
      exactSum "Size:" (linebufs (smapsOf "2147483647" "4" ++ smapsOf "1" "1")) = 2 ^ 31 ∧
      parse (fun _ => false) (some (smapsOf "2147483647" "4" ++ smapsOf "1" "1")) (List.replicate fieldLen 0) = none := by
  decide +kernel

end Mbench.TlbShootDown
