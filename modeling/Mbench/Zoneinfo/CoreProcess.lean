import Mbench.Library.CText

/-! `coreProcess` of `getAvaiFreeMem.c` and `getMemoryInfo.c`, which have it in the same
form: three nested loops read `/proc/zoneinfo` from one stream. -/

namespace Mbench.Zoneinfo
open Library

structure Fields where
  freePage : Int
  low : Int
  nrInactiveFile : Int
  cntGot : Nat

/-- The values they are given when a zone begins. -/
def Fields.initial : Fields where
  freePage := 0
  low := 0
  nrInactiveFile := -1
  cntGot := 0

structure Report where
  zoneid : Int
  free : Int
  low : Int
  inact : Int
  avlb : Int
  deriving DecidableEq

def Report.text (report : Report) : String :=
  "NODE " ++ toString report.zoneid ++ " FREE " ++ toString report.free ++ " LOW " ++ toString report.low ++
    " INACT " ++ toString report.inact ++ " AVLB " ++ toString report.avlb ++ "\n"

def Fields.report (zoneid : Int) (fields : Fields) : Report where
  zoneid := zoneid
  free := fields.freePage
  low := fields.low
  inact := fields.nrInactiveFile
  avlb := (fields.freePage + fields.nrInactiveFile - fields.low).bmod (2 ^ 64)

/-- The id that `sscanf(linebuf, "Node %d, zone", &zoneid)` converts, when it returns 1, on
a line that has "Normal" in it. -/
def passStart (linebuf : List Char) : Option Int :=
  match sscanf linebuf "Node %d, zone" with
  | [zoneid] => if contains linebuf "Normal" then some zoneid else none
  | _ => none

def skipBlanks (linebuf : List Char) : List Char := linebuf.dropWhile fun c => c = ' ' || c = '\t'

def readInactive (name : String) (ptr : List Char) (fields : Fields) : Fields :=
  if fields.nrInactiveFile < 0 && contains ptr name then
    match sscanf ptr (name ++ " %lld") with
    | [value] => { fields with nrInactiveFile := value, cntGot := fields.cntGot + 1 }
    | _ => fields
  else fields

def lowLoop (sub : Nat) (fields : Fields) (stream : List Char) : Fields × List Char :=
  if sub < 3 then
    match fgets 256 stream with
    | none => (fields, stream)
    | some (linebuf, rest) =>
        match strstr linebuf "low".toList with
        | none => lowLoop (sub + 1) fields rest
        | some ptr =>
            match sscanf ptr "low %lld" with
            | [low] => lowLoop 3 { fields with low, cntGot := fields.cntGot + 1 } rest
            | _ => lowLoop (sub + 1) fields rest
  else (fields, stream)
termination_by (3 - sub, stream.length)

theorem lowLoop_length_le (sub : Nat) (fields : Fields) (stream : List Char) :
    (lowLoop sub fields stream).2.length ≤ stream.length := by
  fun_induction lowLoop sub fields stream with
  | case1 => exact le_rfl
  | case2 sub fields stream less linebuf rest read none ih => exact ih.trans (fgets_length_lt read).le
  | case3 sub fields stream less linebuf rest read ptr found low converted ih =>
    exact ih.trans (fgets_length_lt read).le
  | case4 sub fields stream less linebuf rest read ptr found other ih => exact ih.trans (fgets_length_lt read).le
  | case5 => exact le_rfl

/-- The loop over the lines of a zone: the fields it prints, if it prints, and the rest of
the stream. -/
def zoneLoop (fields : Fields) (stream : List Char) : Option Fields × List Char :=
  if fields.cntGot < 2 then
    match _ : fgets 256 stream with
    | none => (none, stream)
    | some (linebuf, rest) =>
        let ptr := skipBlanks linebuf
        let fields := readInactive "nr_zone_inactive_file" ptr fields
        let fields := readInactive "nr_inactive_file" ptr fields
        if contains ptr "pages free" then
          match sscanf ptr "pages free %lld" with
          | [freePage] =>
              let after := lowLoop 0 { fields with freePage } rest
              if after.1.cntGot = 2 then (some after.1, after.2) else zoneLoop after.1 after.2
          | _ => (none, rest)
        else if fields.cntGot = 2 then (some fields, rest)
        else zoneLoop fields rest
  else (none, stream)
termination_by stream.length
decreasing_by
  · exact (lowLoop_length_le _ _ _).trans_lt (fgets_length_lt ‹_›)
  · exact fgets_length_lt ‹_›

theorem zoneLoop_length_le (fields : Fields) (stream : List Char) :
    (zoneLoop fields stream).2.length ≤ stream.length := by
  fun_induction zoneLoop fields stream with
  | case1 => exact le_rfl
  | case2 _ _ _ _ _ read _ _ _ _ _ _ after => exact (lowLoop_length_le _ _ _).trans (fgets_length_lt read).le
  | case3 _ _ _ _ _ read _ _ _ _ _ _ after _ ih =>
    exact ih.trans ((lowLoop_length_le _ _ _).trans (fgets_length_lt read).le)
  | case4 _ _ _ _ _ read => exact (fgets_length_lt read).le
  | case5 _ _ _ _ _ read => exact (fgets_length_lt read).le
  | case6 _ _ _ _ _ read _ _ _ _ _ ih => exact ih.trans (fgets_length_lt read).le
  | case7 => exact le_rfl

def coreProcess (stream : List Char) : List Report :=
  match _ : fgets 256 stream with
  | none => []
  | some (linebuf, rest) =>
      match passStart linebuf with
      | none => coreProcess rest
      | some zoneid =>
          let after := zoneLoop Fields.initial rest
          (after.1.map (Fields.report zoneid)).toList ++ coreProcess after.2
termination_by stream.length
decreasing_by
  · exact fgets_length_lt ‹_›
  · exact (zoneLoop_length_le _ _).trans_lt (fgets_length_lt ‹_›)

end Mbench.Zoneinfo
