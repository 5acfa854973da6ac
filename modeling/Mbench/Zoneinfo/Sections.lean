import Mbench.Library.Blocks
import Mbench.Library.CText
import Mbench.Zoneinfo.CoreProcess

/-! The sections of `/proc/zoneinfo`, and what a complete Normal section says. -/

namespace Mbench.Zoneinfo
open Library

def zoneName (linebuf : List Char) : List Char :=
  ((((strstr linebuf "zone".toList).getD []).drop 4).dropWhile isSpace).takeWhile fun c => !isSpace c

/-- The id and the name of a header `Node <id>, zone <name>`. -/
def zoneHeader (linebuf : List Char) : Option (Int × List Char) :=
  match scan (directives "Node %d, zone".toList) linebuf with
  | ([zoneid], true) => if zoneName linebuf = [] then none else some (zoneid, zoneName linebuf)
  | _ => none

section
variable {linebuf : List Char} {value : Int}

theorem zoneName_infix (linebuf : List Char) : zoneName linebuf <:+: linebuf := by
  unfold zoneName
  apply (List.takeWhile_prefix _).isInfix.trans
  apply (List.dropWhile_suffix _).isInfix.trans
  apply (List.drop_suffix _ _).isInfix.trans
  cases found : strstr linebuf "zone".toList with
  | none => exact List.nil_infix
  | some ptr => exact (strstr_suffix found).isInfix

theorem passStart_normal (header : zoneHeader linebuf = some (value, "Normal".toList)) :
    passStart linebuf = some value := by
  unfold zoneHeader at header
  split at header
  next zoneid scanned =>
    split at header
    · cases header
    · have converted : sscanf linebuf "Node %d, zone" = [zoneid] := congrArg Prod.fst scanned
      simp only [Option.some.injEq, Prod.mk.injEq] at header
      have normal : contains linebuf "Normal" = true := contains_infix (header.2 ▸ zoneName_infix linebuf)
      rw [passStart, converted]
      simp only [normal, if_true, header.1]
  next => cases header

end

def NumberLine (name : String) (linebuf : List Char) (value : Int) : Prop :=
  ∃ blanks rest tail, linebuf = blanks ++ (name.toList ++ rest) ∧ (∀ c ∈ blanks, c = ' ' ∨ c = '\t') ∧
    numeral rest = some (value, tail)

structure Layout where
  before : List (List Char)
  pagesFree : List Char
  gap : List (List Char)
  low : List Char
  after : List (List Char)

def Layout.body (layout : Layout) : List (List Char) :=
  layout.before ++ layout.pagesFree :: (layout.gap ++ layout.low :: layout.after)

/-- In a zoneinfo file only the header of a Normal section begins with "Node" and a number and
has "Normal" in it. -/
def Genuine (lines : List (List Char)) : Prop :=
  ∀ text ∈ lines, ∀ zoneid ∈ passStart text, zoneHeader text = some (zoneid, "Normal".toList)

end Mbench.Zoneinfo
