import Mbench.Zoneinfo.Sections

/-! The loop of `measure_rdlat_dev_mem` in `simpleMemLatChecker.c`, which collects the first page frames
of the Normal zones from `/proc/zoneinfo`. -/

namespace Mbench.Zoneinfo
open Library

structure PfnState where
  node : Int
  pfn : List UInt64
  deriving DecidableEq

def PfnState.initial : PfnState where
  node := -1
  pfn := List.replicate 16 0

def zoneNames : List String := ["DMA", "DMA32", "Normal", "HighMem", "Movable", "Device"]

/-- The number on a line that begins with "Node" and a number, and the text behind it. -/
def nodeNumber (text : List Char) : Option (Int × List Char) :=
  if "Node".toList.isPrefixOf text then numeral (text.drop "Node".toList.length) else none

structure Header (text : List Char) (node : Int) (zone : String) : Prop where
  int : -2 ^ 31 ≤ node ∧ node < 2 ^ 31
  named : zone ∈ zoneNames
  shape : ∃ blanks, nodeNumber text = some (node, ", zone".toList ++ (blanks ++ zone.toList)) ∧ ∀ c ∈ blanks, c = ' '

section
variable {text rest : List Char} {node : Int} {state : PfnState}

/-! The two formats. -/

namespace Header

variable {zone : String}

theorem converted (header : Header text node zone) : (saturate node).bmod (2 ^ 32) = node := by
  obtain ⟨low, high⟩ := header.int
  rw [saturate_self (by omega) (by omega)]
  exact Int.bmod_eq_of_le (by omega) (by omega)

theorem word (header : Header text node zone) : zone.toList ≠ [] ∧ ∀ c ∈ zone.toList, isSpace c = false := by
  have words : ∀ zone ∈ zoneNames, zone.toList ≠ [] ∧ zone.toList.all (fun c => !isSpace c) = true := by decide
  obtain ⟨some_, word⟩ := words zone header.named
  exact ⟨some_, fun c member => by simpa using List.all_eq_true.mp word c member⟩

theorem parts (header : Header text node zone) : ∃ front blanks, (∀ c ∈ front, isNumeral c = true) ∧
    (∀ c ∈ blanks, c = ' ') ∧ text = "Node".toList ++ (front ++ (", zone".toList ++ (blanks ++ zone.toList))) := by
  obtain ⟨blanks, number, blank⟩ := header.shape
  rw [nodeNumber] at number
  split at number
  next named =>
    obtain ⟨behind, rfl⟩ := List.isPrefixOf_iff_prefix.mp named
    rw [List.drop_left] at number
    obtain ⟨front, rfl, numeric⟩ := numeral_front number
    exact ⟨front, blanks, numeric, blank, rfl⟩
  next unnamed => cases number

end Header

/-! One line. -/

def stored (value : Int) : UInt64 := UInt64.ofInt (saturate value)

end

end Mbench.Zoneinfo
