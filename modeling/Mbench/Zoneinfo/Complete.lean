import Mbench.Zoneinfo.LineMachine
import Mbench.Zoneinfo.Sections

/-! Files whose Normal sections are all complete. -/

namespace Mbench.Zoneinfo
open Library

section
variable {text linebuf : List Char} {value : Int} {name : String} {fields : Fields}

/-! The reads of a line that has the form of one. -/

theorem numberLine_sscanf (plain : plainText name.toList = true)
    (read : sscanf (skipBlanks linebuf) (name ++ " %lld") = [value]) : ∃ number, NumberLine name linebuf number := by
  rw [sscanf_named plain] at read
  split at read
  next here =>
    obtain ⟨rest, ptr⟩ := List.isPrefixOf_iff_prefix.mp here
    rw [← ptr, List.drop_left] at read
    cases found : numeral rest with
    | none =>
      rw [found] at read
      cases read
    | some number =>
      refine ⟨number.1, linebuf.takeWhile fun c => c = ' ' || c = '\t', rest, number.2, ?_, ?_, found⟩
      · rw [ptr]
        exact List.takeWhile_append_dropWhile.symm
      · exact fun c member => by simpa using List.mem_takeWhile_imp member
  next => cases read

theorem readInactive_other (plain : plainText name.toList = true)
    (other : ∀ value, ¬NumberLine name linebuf value) : readInactive name (skipBlanks linebuf) fields = fields := by
  unfold readInactive
  split
  · cases read : sscanf (skipBlanks linebuf) (name ++ " %lld") with
    | nil => rfl
    | cons value others =>
      cases others with
      | nil =>
        obtain ⟨number, line⟩ := numberLine_sscanf plain read
        exact absurd line (other number)
      | cons => rfl
  · rfl

def readInactives (linebuf : List Char) (fields : Fields) : Fields :=
  readInactive "nr_inactive_file" (skipBlanks linebuf)
    (readInactive "nr_zone_inactive_file" (skipBlanks linebuf) fields)

end

/-! The states of the machine, as far as the code has them. -/

section
variable {text : List Char} {value zoneid : Int} {fields next : Fields} {sub : Nat} {post : Phase → Prop}

/-! The turns, in these terms. -/

end

/-! Sections. -/

section
variable {section_ : Block (List Char)} {report : Report} {layout : Layout} {front back : List (List Char)}
  {text : List Char}

end

theorem Genuine.quiet {lines : List (List Char)} {text : List Char} (genuine : Genuine lines) (member : text ∈ lines)
    (other : (zoneHeader text).map Prod.snd ≠ some "Normal".toList) : passStart text = none := by
  cases start : passStart text with
  | none => rfl
  | some zoneid =>
    rw [genuine text member zoneid start] at other
    exact absurd rfl other

end Mbench.Zoneinfo
