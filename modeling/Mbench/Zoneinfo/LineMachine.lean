import Mbench.Library.Transducer
import Mbench.Zoneinfo.CoreProcess

/-! The parser as a machine that takes the lines one by one, and remembers of every
number the line it comes from. `coreProcess` prints what the machine prints. -/

namespace Mbench.Zoneinfo
open Library

structure Reading where
  value : Int
  line : Nat
  deriving DecidableEq

/-- A turn of the outer loop that has met a Normal header, at the position `header`. -/
structure Pass where
  header : Nat
  zoneid : Int
  free : Option Reading
  low : Option Reading
  inactive : Option Reading
  cntGot : Nat
  deriving DecidableEq

inductive Phase
  | outer
  | zone (pass : Pass)
  | low (sub : Nat) (pass : Pass)

namespace Pass

def start (header : Nat) (zoneid : Int) : Pass :=
  { header, zoneid, free := none, low := none, inactive := none, cntGot := 0 }

def fields (pass : Pass) : Fields where
  freePage := (pass.free.map Reading.value).getD 0
  low := (pass.low.map Reading.value).getD 0
  nrInactiveFile := (pass.inactive.map Reading.value).getD (-1)
  cntGot := pass.cntGot

def report (pass : Pass) : Report := pass.fields.report pass.zoneid

def readInactive (name : String) (ptr : List Char) (line : Nat) (pass : Pass) : Pass :=
  if pass.fields.nrInactiveFile < 0 && contains ptr name then
    match sscanf ptr (name ++ " %lld") with
    | [value] => { pass with inactive := some { value, line }, cntGot := pass.cntGot + 1 }
    | _ => pass
  else pass

def readInactives (linebuf : List Char) (line : Nat) (pass : Pass) : Pass :=
  readInactive "nr_inactive_file" (skipBlanks linebuf) line
    (readInactive "nr_zone_inactive_file" (skipBlanks linebuf) line pass)

def settle (pass : Pass) : Phase × Option Pass :=
  if pass.cntGot = 2 then (.outer, some pass)
  else if pass.cntGot < 2 then (.zone pass, none)
  else (.outer, none)

theorem settle_next {pass : Pass} (more : pass.cntGot < 2) : pass.settle = (.zone pass, none) := by
  rw [settle, if_neg more.ne, if_pos more]

theorem settle_last {pass : Pass} (done : pass.cntGot = 2) : pass.settle = (.outer, some pass) := by
  rw [settle, if_pos done]

theorem fields_readInactive (name : String) (ptr : List Char) (line : Nat) (pass : Pass) :
    (pass.readInactive name ptr line).fields = Zoneinfo.readInactive name ptr pass.fields := by
  unfold readInactive Zoneinfo.readInactive
  by_cases test : (pass.fields.nrInactiveFile < 0 && contains ptr name) = true
  · rw [if_pos test, if_pos test]
    cases sscanf ptr (name ++ " %lld") with
    | nil => rfl
    | cons value others => cases others <;> rfl
  · rw [if_neg test, if_neg test]

theorem zoneid_readInactive (name : String) (ptr : List Char) (line : Nat) (pass : Pass) :
    (pass.readInactive name ptr line).zoneid = pass.zoneid := by
  unfold readInactive
  split
  · split <;> rfl
  · rfl

end Pass

def readLine (line : Nat) (linebuf : List Char) : Phase → Phase × Option Pass
  | .outer =>
      match passStart linebuf with
      | none => (.outer, none)
      | some zoneid => (.zone (Pass.start line zoneid), none)
  | .zone pass =>
      if contains (skipBlanks linebuf) "pages free" then
        match sscanf (skipBlanks linebuf) "pages free %lld" with
        | [value] => (.low 0 { pass.readInactives linebuf line with free := some { value, line } }, none)
        | _ => (.outer, none)
      else (pass.readInactives linebuf line).settle
  | .low sub pass =>
      match (strstr linebuf "low".toList).map fun ptr => sscanf ptr "low %lld" with
      | some [value] => { pass with low := some { value, line }, cntGot := pass.cntGot + 1 }.settle
      | _ => if sub + 1 < 3 then (.low (sub + 1) pass, none) else pass.settle

/-! What the nested loops print from each of their reads on. -/

def zoneRun (zoneid : Int) (fields : Fields) (stream : List Char) : List Report :=
  ((zoneLoop fields stream).1.map (Fields.report zoneid)).toList ++ coreProcess (zoneLoop fields stream).2

def lowRun (zoneid : Int) (sub : Nat) (fields : Fields) (stream : List Char) : List Report :=
  if (lowLoop sub fields stream).1.cntGot = 2 then
    (lowLoop sub fields stream).1.report zoneid :: coreProcess (lowLoop sub fields stream).2
  else zoneRun zoneid (lowLoop sub fields stream).1 (lowLoop sub fields stream).2

section
variable {stream rest linebuf : List Char} {fields : Fields} {zoneid : Int} {sub : Nat}

theorem coreProcess_end : coreProcess [] = [] := by
  rw [coreProcess]
  rfl

theorem coreProcess_line (read : fgets 256 stream = some (linebuf, rest)) :
    coreProcess stream = match passStart linebuf with
      | none => coreProcess rest
      | some zoneid => zoneRun zoneid Fields.initial rest := by
  rw [coreProcess]
  split
  · rename_i ended
    rw [read] at ended
    cases ended
  · rename_i buffer others again
    rw [read] at again
    cases again
    rfl

theorem zoneRun_full (full : ¬fields.cntGot < 2) : zoneRun zoneid fields stream = coreProcess stream := by
  rw [zoneRun, zoneLoop, if_neg full]
  rfl

theorem zoneRun_end (more : fields.cntGot < 2) : zoneRun zoneid fields [] = [] := by
  have loop : zoneLoop fields [] = (none, []) := by
    rw [zoneLoop, if_pos more]
    rfl
  rw [zoneRun, loop, coreProcess_end]
  rfl

theorem zoneRun_line (more : fields.cntGot < 2) (read : fgets 256 stream = some (linebuf, rest)) :
    zoneRun zoneid fields stream =
      let ptr := skipBlanks linebuf
      let fields := readInactive "nr_inactive_file" ptr (readInactive "nr_zone_inactive_file" ptr fields)
      if contains ptr "pages free" then
        match sscanf ptr "pages free %lld" with
        | [freePage] => lowRun zoneid 0 { fields with freePage } rest
        | _ => coreProcess rest
      else if fields.cntGot = 2 then fields.report zoneid :: coreProcess rest
      else zoneRun zoneid fields rest := by
  rw [zoneRun, zoneLoop, if_pos more]
  split
  · rename_i ended
    rw [read] at ended
    cases ended
  · rename_i buffer others again
    rw [read] at again
    cases again
    simp only
    split
    · cases sscanf (skipBlanks linebuf) "pages free %lld" with
      | nil => rfl
      | cons freePage others =>
        cases others with
        | nil =>
          simp only [lowRun]
          split <;> rfl
        | cons => rfl
    · split <;> rfl

theorem lowRun_end (more : fields.cntGot < 2) : lowRun zoneid sub fields [] = [] := by
  have loop : lowLoop sub fields [] = (fields, []) := by
    rw [lowLoop]
    split <;> rfl
  rw [lowRun, loop, if_neg (by simp only; omega)]
  exact zoneRun_end more

theorem lowRun_full (full : ¬sub < 3) : lowRun zoneid sub fields stream =
    if fields.cntGot = 2 then fields.report zoneid :: coreProcess stream else zoneRun zoneid fields stream := by
  rw [lowRun, lowLoop, if_neg full]

theorem lowRun_line (more : sub < 3) (read : fgets 256 stream = some (linebuf, rest)) :
    lowRun zoneid sub fields stream =
      match (strstr linebuf "low".toList).map fun ptr => sscanf ptr "low %lld" with
      | some [low] => lowRun zoneid 3 { fields with low, cntGot := fields.cntGot + 1 } rest
      | _ => lowRun zoneid (sub + 1) fields rest := by
  rw [lowRun, lowLoop, if_pos more, read]
  simp only
  cases strstr linebuf "low".toList with
  | none => rfl
  | some ptr =>
    simp only [Option.map_some]
    cases sscanf ptr "low %lld" with
    | nil => rfl
    | cons value others => cases others <;> rfl

end

namespace Phase

def run (stream : List Char) : Phase → List Report
  | .outer => coreProcess stream
  | .zone pass => zoneRun pass.zoneid pass.fields stream
  | .low sub pass => lowRun pass.zoneid sub pass.fields stream

def Open : Phase → Prop
  | .outer => True
  | .zone pass => pass.cntGot < 2
  | .low sub pass => sub < 3 ∧ pass.cntGot < 2

theorem run_end {phase : Phase} (here : phase.Open) : phase.run [] = [] := by
  cases phase with
  | outer => exact coreProcess_end
  | zone pass => exact zoneRun_end here
  | low sub pass => exact lowRun_end here.2

end Phase

namespace Pass

theorem open_settle (pass : Pass) : pass.settle.1.Open := by
  unfold settle
  split
  · trivial
  · split
    · assumption
    · trivial

theorem run_settle (pass : Pass) (stream : List Char) :
    (pass.settle.2.map report).toList ++ pass.settle.1.run stream =
      if pass.cntGot = 2 then pass.report :: coreProcess stream else zoneRun pass.zoneid pass.fields stream := by
  unfold settle
  by_cases done : pass.cntGot = 2
  · rw [if_pos done, if_pos done]
    rfl
  · rw [if_neg done, if_neg done]
    by_cases more : pass.cntGot < 2
    · rw [if_pos more]
      rfl
    · rw [if_neg more]
      exact (zoneRun_full more).symm

theorem fields_readInactives (linebuf : List Char) (line : Nat) (pass : Pass) :
    (pass.readInactives linebuf line).fields =
      Zoneinfo.readInactive "nr_inactive_file" (skipBlanks linebuf)
        (Zoneinfo.readInactive "nr_zone_inactive_file" (skipBlanks linebuf) pass.fields) := by
  rw [readInactives, fields_readInactive, fields_readInactive]

theorem zoneid_readInactives (linebuf : List Char) (line : Nat) (pass : Pass) :
    (pass.readInactives linebuf line).zoneid = pass.zoneid := by
  rw [readInactives, zoneid_readInactive, zoneid_readInactive]

theorem readInactive_other {name : String} {ptr : List Char} {first : Char} (start : name.toList.head? = some first)
    (plain : isSpace first = false ∧ first ≠ '%') (other : ptr.head? ≠ some first) (line : Nat) (pass : Pass) :
    pass.readInactive name ptr line = pass := by
  unfold readInactive
  split
  · rw [sscanf_other (by simp [String.toList_append, start]) plain other]
  · rfl

theorem readInactives_pagesFree {linebuf : List Char} {value : Int}
    (free : sscanf (skipBlanks linebuf) "pages free %lld" = [value]) (line : Nat) (pass : Pass) :
    pass.readInactives linebuf line = pass := by
  have other : (skipBlanks linebuf).head? ≠ some 'n' := by
    intro inactive
    rw [sscanf_other rfl (by decide) (by rw [inactive]; decide)] at free
    cases free
  rw [readInactives, readInactive_other rfl (by decide) other, readInactive_other rfl (by decide) other]

end Pass

theorem run_readLine {stream rest linebuf : List Char} {phase : Phase} (line : Nat) (here : phase.Open)
    (read : fgets 256 stream = some (linebuf, rest)) :
    phase.run stream =
      ((readLine line linebuf phase).2.map Pass.report).toList ++ (readLine line linebuf phase).1.run rest := by
  cases phase with
  | outer =>
    rw [Phase.run, coreProcess_line read, readLine]
    cases passStart linebuf with
    | none => rfl
    | some zoneid => rfl
  | zone pass =>
    have more : pass.fields.cntGot < 2 := here
    rw [Phase.run, zoneRun_line more read, readLine]
    simp only [← Pass.fields_readInactives linebuf line pass]
    by_cases free : contains (skipBlanks linebuf) "pages free" = true
    · rw [if_pos free, if_pos free]
      cases values : sscanf (skipBlanks linebuf) "pages free %lld" with
      | nil => rfl
      | cons value others =>
        cases others with
        | nil =>
          rw [Pass.readInactives_pagesFree values]
          rfl
        | cons => rfl
    · rw [if_neg free, if_neg free, Pass.run_settle, Pass.report, Pass.zoneid_readInactives]
      rfl
  | low sub pass =>
    have pending : pass.fields.cntGot ≠ 2 := here.2.ne
    have skip : lowRun pass.zoneid (sub + 1) pass.fields rest =
        ((if sub + 1 < 3 then (Phase.low (sub + 1) pass, none) else pass.settle).2.map Pass.report).toList ++
          (if sub + 1 < 3 then (Phase.low (sub + 1) pass, none) else pass.settle).1.run rest := by
      by_cases more : sub + 1 < 3
      · rw [if_pos more]
        rfl
      · rw [if_neg more, lowRun_full more, Pass.run_settle]
        rfl
    rw [Phase.run, lowRun_line here.1 read, readLine]
    cases (strstr linebuf "low".toList).map fun ptr => sscanf ptr "low %lld" with
    | none => exact skip
    | some values =>
      cases values with
      | nil => exact skip
      | cons value others =>
        cases others with
        | nil =>
          rw [Pass.run_settle]
          exact lowRun_full (lt_irrefl 3)
        | cons => exact skip

theorem open_readLine {phase : Phase} (line : Nat) (linebuf : List Char) (here : phase.Open) :
    (readLine line linebuf phase).1.Open := by
  cases phase with
  | outer =>
    rw [readLine]
    cases passStart linebuf with
    | none => trivial
    | some zoneid => exact Nat.zero_lt_two
  | zone pass =>
    rw [readLine]
    split
    · cases values : sscanf (skipBlanks linebuf) "pages free %lld" with
      | nil => trivial
      | cons value others =>
        cases others with
        | nil =>
          rw [Pass.readInactives_pagesFree values]
          exact ⟨by decide, here⟩
        | cons => trivial
    · exact Pass.open_settle _
  | low sub pass =>
    rw [readLine]
    split
    · exact Pass.open_settle _
    · split
      · exact ⟨‹_›, here.2⟩
      · exact Pass.open_settle _

def linebufs (file : List Char) : List (List Char) := (fileLines file).map cString

def prints (file : List Char) : List Pass := outputs readLine 0 .outer (linebufs file)

theorem run_lines {lines : List (List Char)} {stream : List Char} {phase : Phase} (line : Nat)
    (split : fileLines stream = lines) (short : ∀ text ∈ lines, text.length < 256) (here : phase.Open) :
    phase.run stream = (outputs readLine line phase (lines.map cString)).map Pass.report := by
  induction lines generalizing stream phase line with
  | nil =>
    rw [fileLines_eq_nil.mp split]
    exact Phase.run_end here
  | cons text lines ih =>
    obtain ⟨rest, read, others⟩ := fgets_line split (short text List.mem_cons_self)
    have later := ih (line + 1) others (fun other member => short other (List.mem_cons_of_mem text member))
      (open_readLine line (cString text) here)
    rw [run_readLine line here read, List.map_cons, outputs, List.map_append, later]
    cases (readLine line (cString text) phase).2 <;> rfl

theorem coreProcess_prints {file : List Char} (short : ∀ text ∈ fileLines file, text.length < 256) :
    coreProcess file = (prints file).map Pass.report := by
  have start : Phase.Open .outer := trivial
  exact run_lines 0 rfl short start

end Mbench.Zoneinfo
