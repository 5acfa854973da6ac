import Mbench.Stream.Kernels
import Mbench.Library.CInt
import Mathlib.Algebra.Order.BigOperators.Group.Finset
import Mathlib.Algebra.Order.Field.Basic
import Mathlib.Tactic.FieldSimp
import Mathlib.Tactic.Linarith

/-! `checkSTREAMresults`, in exact arithmetic. An array is reported when its elements are too far from the expected value on
average, and then one of them at least is. -/

namespace Mbench.Stream
open Library

section
variable {E : Type} [Field E] [LinearOrder E]

def abs (x : E) : E := if x ≥ 0 then x else -x

def Expected.get (expected : Expected E) : Name → E
  | .a => expected.aj
  | .b => expected.bj
  | .c => expected.cj

end

def value {E : Type} [Field E] (rounds : Nat) : Name → E
  | .a => 30 * 15 ^ rounds
  | .b => 6 * 15 ^ rounds
  | .c => 8 * 15 ^ rounds

section
variable {E : Type} [Field E] [LinearOrder E] [IsStrictOrderedRing E] {size : Nat} {array : Nat → E} {xj bound : E}

end

def wrong (name : Name) (j : Nat) : ℚ := if name = .a ∧ j = 1 then 0 else value 0 name

end Mbench.Stream
