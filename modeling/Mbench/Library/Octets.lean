import Mathlib.Algebra.Group.Nat.Defs
import Mathlib.Tactic.Common

/-! The octets of a number, as masks pick them out. -/

namespace Mbench.Library

def octet (position value : Nat) : Nat := value / 2 ^ (8 * position) % 256

theorem land_shiftLeft (value mask count : Nat) : value &&& mask <<< count = (value >>> count &&& mask) <<< count := by
  apply Nat.eq_of_testBit_eq
  intro index
  rw [Nat.testBit_and, Nat.testBit_shiftLeft, Nat.testBit_shiftLeft, Nat.testBit_and, Nat.testBit_shiftRight]
  by_cases high : count ≤ index
  · rw [Nat.add_sub_cancel' high, Bool.and_left_comm]
  · simp [high]

theorem land_octet (position value : Nat) : value &&& 255 <<< (8 * position) = octet position value <<< (8 * position) := by
  rw [land_shiftLeft, octet, Nat.shiftRight_eq_div_pow, Nat.and_two_pow_sub_one_eq_mod _ 8]

theorem land_octet_eq (position value wanted : Nat) :
    value &&& 255 <<< (8 * position) = wanted <<< (8 * position) ↔ octet position value = wanted := by
  rw [land_octet, Nat.shiftLeft_eq, Nat.shiftLeft_eq]
  exact Nat.mul_left_inj (Nat.ne_of_gt (Nat.two_pow_pos _))

end Mbench.Library
