import Mbench.Library.CInt
import Mbench.Library.CText

/-! `parse` of `tlbShootDownBench.c`, which adds up the numbers of `/proc/<pid>/smaps` by the names of their lines. -/

namespace Mbench.TlbShootDown
open Library

def fieldLen : Nat := 19

def fieldName : List String :=
  ["Size:", "KernelPageSize:", "MMUPageSize:", "Rss:", "Pss:", "Shared_Clean:", "Shared_Dirty:", "Private_Clean:",
    "Private_Dirty:", "Referenced:", "Anonymous:", "LazyFree:", "AnonHugePages:", "ShmemPmdMapped:", "Shared_Hugetlb:",
    "Private_Hugetlb:", "Swap:", "SwapPss:", "Locked:"]

abbrev bufsiz : Nat := 8192

/-- The name and the value, when `sscanf(linebuf, "%s%d", _name, &_value)` returns 2. -/
def scanNameValue (linebuf : List Char) : Option (List Char × Int) := do
  let (name, rest) ← token linebuf
  let (value, _) ← numeral rest
  some (name, (saturate value).bmod (2 ^ 32))

def addField (name : List Char) (value : Int) : List String → List Int → Option (List Int)
  | field :: names, total :: fields =>
      if name = field.toList then (addInt total value).map fun sum => sum :: fields
      else (addField name value names fields).map fun fields => total :: fields
  | _, fields => some fields

def addLine (fields : List Int) (linebuf : List Char) : Option (List Int) :=
  match scanNameValue linebuf with
  | none => some fields
  | some (name, value) => addField name value fieldName fields

/-- The loop over the lines; `ferror` says whether the stream is in error when this much of it is left. -/
def parseLoop (ferror : List Char → Bool) (fields : List Int) (stream : List Char) : Option (List Int) :=
  match _ : fgets bufsiz stream with
  | none => some fields
  | some (linebuf, rest) =>
      if ferror rest then some fields
      else do
        let fields ← addLine fields linebuf
        parseLoop ferror fields rest
termination_by stream.length
decreasing_by exact fgets_length_lt ‹_›

/-- `parse`: what `fields` holds afterwards. A file that cannot be opened is `none`. -/
def parse (ferror : List Char → Bool) (file : Option (List Char)) (fields : List Int) : Option (List Int) :=
  match file with
  | none => some fields
  | some stream => parseLoop ferror (List.replicate fieldLen 0) stream

end Mbench.TlbShootDown
