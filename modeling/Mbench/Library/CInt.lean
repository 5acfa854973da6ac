import Mathlib.Algebra.Group.Int.Defs
import Mathlib.Algebra.Group.Nat.Defs
import Mathlib.Tactic.Common

/-! Arithmetic of C on `int`, `long` and `unsigned long long`, as 32-bit and 64-bit machine
integers. A signed product that does not fit and a division by zero are undefined; a conversion
keeps the value modulo the size of its target. -/

namespace Mbench.Library

def mulInt (first second : Int32) : Option Int32 :=
  if first.toBitVec.smulOverflow second.toBitVec then none else some (first * second)

def mulLong (first second : Int64) : Option Int64 :=
  if first.toBitVec.smulOverflow second.toBitVec then none else some (first * second)

abbrev IsInt (value : Int) : Prop := -2 ^ 31 ≤ value ∧ value < 2 ^ 31

def addInt (first second : Int) : Option Int := if IsInt (first + second) then some (first + second) else none

theorem addInt_eq {first second : Int} (low : -2 ^ 31 ≤ first + second) (high : first + second < 2 ^ 31) :
    addInt first second = some (first + second) :=
  if_pos ⟨low, high⟩

theorem addInt_eq_some {first second sum : Int} :
    addInt first second = some sum ↔ IsInt (first + second) ∧ first + second = sum := by
  rw [addInt, Option.ite_none_right_eq_some, Option.some.injEq]

def addNat (first second : Nat) : Option Nat := (addInt first second).map Int.toNat

theorem addNat_eq (first second : Nat) :
    addNat first second = if first + second < 2 ^ 31 then some (first + second) else none := by
  rw [addNat, addInt]
  by_cases small : first + second < 2 ^ 31
  · rw [if_pos small, if_pos (by omega), Option.map_some]
    rfl
  · rw [if_neg small, if_neg (by omega), Option.map_none]

def divULL (dividend divisor : UInt64) : Option UInt64 :=
  if divisor = 0 then none else some (dividend / divisor)

def intOf (value : UInt64) : Int32 := value.toUInt32.toInt32

def ullOf (value : Int32) : UInt64 := value.toInt64.toUInt64

theorem product_exact {width : Nat} {first second product : BitVec width} :
    ¬first.smulOverflow second = true ∧ first * second = product ↔ product.toInt = first.toInt * second.toInt := by
  constructor
  · intro ⟨fits, same⟩
    rw [← same]
    exact BitVec.toInt_mul_of_not_smulOverflow fits
  · intro value
    have low : -2 ^ width ≤ 2 * product.toInt := BitVec.le_two_mul_toInt
    have high : 2 * product.toInt < 2 ^ width := BitVec.two_mul_toInt_lt
    rw [value] at low high
    constructor
    · rcases width with _ | width
      · simp [BitVec.smulOverflow, BitVec.of_length_zero]
      · rw [BitVec.smulOverflow, Nat.add_sub_cancel]
        rw [Int.pow_succ] at low high
        simp only [Bool.or_eq_true, decide_eq_true_eq, not_or]
        constructor <;> omega
    · apply BitVec.toInt_inj.mp
      rw [BitVec.toInt_mul, value]
      refine Int.bmod_eq_of_le_mul_two ?_ ?_ <;> push_cast <;> omega

theorem mulInt_eq_some {first second product : Int32} :
    mulInt first second = some product ↔ product.toInt = first.toInt * second.toInt := by
  rw [mulInt, Option.ite_none_left_eq_some, Option.some.injEq, ← Int32.toBitVec_inj, Int32.toBitVec_mul]
  exact product_exact

theorem mulLong_eq_some {first second product : Int64} :
    mulLong first second = some product ↔ product.toInt = first.toInt * second.toInt := by
  rw [mulLong, Option.ite_none_left_eq_some, Option.some.injEq, ← Int64.toBitVec_inj, Int64.toBitVec_mul]
  exact product_exact

theorem divULL_eq_some {dividend divisor quotient : UInt64} :
    divULL dividend divisor = some quotient ↔ divisor.toNat ≠ 0 ∧ quotient.toNat = dividend.toNat / divisor.toNat := by
  have zero : divisor = 0 ↔ divisor.toNat = 0 := by rw [← UInt64.toNat_inj, UInt64.toNat_zero]
  unfold divULL
  constructor
  · intro defined
    split at defined
    next _ => cases defined
    next nonzero =>
      have same : dividend / divisor = quotient := Option.some.inj defined
      rw [← same, UInt64.toNat_div]
      exact ⟨fun none => nonzero (zero.mpr none), rfl⟩
  · intro ⟨nonzero, value⟩
    rw [if_neg fun none => nonzero (zero.mp none)]
    congr 1
    apply UInt64.toNat_inj.mp
    rw [UInt64.toNat_div, value]

theorem toNat_toUInt64 (value : Int64) : (value.toUInt64.toNat : Int) = value.toInt % 2 ^ 64 := by
  have bits : value.toInt = Int.bmod value.toUInt64.toNat (2 ^ 64) := BitVec.toInt_eq_toNat_bmod value.toBitVec
  have small := value.toUInt64.toNat_lt
  rw [bits, show ((2 : Int) ^ 64) = ((2 ^ 64 : Nat) : Int) by norm_cast, Int.bmod_emod]
  exact (Int.emod_eq_of_lt (by omega) (by omega)).symm

theorem toNat_ullOf (value : Int32) : ((ullOf value).toNat : Int) = value.toInt % 2 ^ 64 := by
  rw [ullOf, toNat_toUInt64, Int32.toInt_toInt64]

end Mbench.Library
