import Mathlib.Algebra.Order.Field.Rat
import Mathlib.Algebra.Order.Round
import Mathlib.Data.Rat.Floor
import Mathlib.Tactic.FieldSimp
import Mathlib.Tactic.Linarith
import Mathlib.Tactic.Positivity
import Mathlib.Tactic.Ring

/-! Decimal text: what `printf` and the streams of C++ write of a number, and what is read back from it. -/

namespace Mbench.Library

def padded (places n : Nat) : List Char := List.replicate (places - (Nat.toDigits 10 n).length) '0' ++ Nat.toDigits 10 n

def fixedText (places n : Nat) : List Char :=
  Nat.toDigits 10 (n / 10 ^ places) ++ '.' :: padded places (n % 10 ^ places)

def unsigned (word : List Char) : List Char := if word.head? = some '-' then word.tail else word

def IsDecimal (word : List Char) : Prop :=
  (unsigned word).takeWhile Char.isDigit ≠ [] ∧
    ((unsigned word).dropWhile Char.isDigit = [] ∨
      ∃ fraction, (unsigned word).dropWhile Char.isDigit = '.' :: fraction ∧ ∀ c ∈ fraction, c.isDigit = true)

def decimal (word : List Char) : Rat :=
  let whole := (unsigned word).takeWhile Char.isDigit
  let fraction := ((unsigned word).dropWhile Char.isDigit).tail
  let value : Rat := (Nat.ofDigitChars 10 (whole ++ fraction) 0 : Nat) / 10 ^ fraction.length
  if word.head? = some '-' then -value else value

section
variable {places n : Nat} {word : List Char}

theorem toDigits_isDigit (n : Nat) : ∀ c ∈ Nat.toDigits 10 n, c.isDigit = true := fun _ member =>
  Nat.isDigit_of_mem_toDigits (by decide) (by decide) member

theorem padded_isDigit (places n : Nat) : ∀ c ∈ padded places n, c.isDigit = true := by
  intro c member
  rcases List.mem_append.mp member with zero | digit
  · rw [List.eq_of_mem_replicate zero]
    rfl
  · exact toDigits_isDigit n c digit

theorem padded_length (some_ : 0 < places) (small : n < 10 ^ places) : (padded places n).length = places := by
  have fits := (Nat.length_toDigits_le_iff (by decide) some_).mpr small
  rw [padded, List.length_append, List.length_replicate]
  omega

theorem padded_value (places n : Nat) : Nat.ofDigitChars 10 (padded places n) 0 = n := by
  rw [padded, Nat.ofDigitChars_append, Nat.ofDigitChars_replicate_zero, Nat.mul_zero, Nat.ofDigitChars_ten_toDigits]

theorem unsigned_digit {c : Char} {rest : List Char} (digit : c.isDigit = true) : unsigned (c :: rest) = c :: rest := by
  refine if_neg fun sign => ?_
  rw [List.head?_cons, Option.some.injEq] at sign
  rw [sign] at digit
  cases digit

theorem fixedText_cons (places n : Nat) : ∃ c rest, fixedText places n = c :: rest ∧ c.isDigit = true := by
  obtain ⟨c, rest, digits⟩ := List.exists_cons_of_ne_nil (Nat.toDigits_ne_nil (n := n / 10 ^ places) (b := 10))
  exact ⟨c, rest ++ '.' :: padded places (n % 10 ^ places), by rw [fixedText, digits]; rfl,
    toDigits_isDigit (n / 10 ^ places) c (by rw [digits]; exact List.mem_cons_self)⟩

theorem fixedText_whole (places n : Nat) :
    (fixedText places n).takeWhile Char.isDigit = Nat.toDigits 10 (n / 10 ^ places) ∧
      (fixedText places n).dropWhile Char.isDigit = '.' :: padded places (n % 10 ^ places) := by
  have digits := toDigits_isDigit (n / 10 ^ places)
  rw [fixedText, List.takeWhile_append_of_pos digits, List.dropWhile_append_of_pos digits]
  exact ⟨List.append_nil _, rfl⟩

def signed (negative : Bool) (text : List Char) : List Char := if negative then '-' :: text else text

theorem unsigned_signed (negative : Bool) (places n : Nat) :
    unsigned (signed negative (fixedText places n)) = fixedText places n := by
  obtain ⟨c, rest, text, digit⟩ := fixedText_cons places n
  cases negative with
  | true => rfl
  | false =>
    rw [signed, if_neg Bool.false_ne_true, text]
    exact unsigned_digit digit

theorem signed_head (negative : Bool) (places n : Nat) :
    (signed negative (fixedText places n)).head? = some '-' ↔ negative = true := by
  obtain ⟨c, rest, text, digit⟩ := fixedText_cons places n
  cases negative with
  | true => simp [signed]
  | false =>
    rw [signed, if_neg Bool.false_ne_true, text, List.head?_cons, Option.some.injEq]
    refine ⟨fun sign => ?_, fun absurd_ => by cases absurd_⟩
    rw [sign] at digit
    cases digit

theorem isDecimal_signed (negative : Bool) (places n : Nat) : IsDecimal (signed negative (fixedText places n)) := by
  obtain ⟨whole, fraction⟩ := fixedText_whole places n
  rw [IsDecimal, unsigned_signed, whole, fraction]
  exact ⟨Nat.toDigits_ne_nil, Or.inr ⟨_, rfl, padded_isDigit _ _⟩⟩

theorem decimal_signed (some_ : 0 < places) (negative : Bool) (n : Nat) :
    decimal (signed negative (fixedText places n)) = if negative then -((n : Rat) / 10 ^ places) else (n : Rat) / 10 ^ places := by
  obtain ⟨whole, fraction⟩ := fixedText_whole places n
  have length : (padded places (n % 10 ^ places)).length = places := padded_length some_ (Nat.mod_lt n (by positivity))
  have value : Nat.ofDigitChars 10 (Nat.toDigits 10 (n / 10 ^ places) ++ padded places (n % 10 ^ places)) 0 = n := by
    rw [Nat.ofDigitChars_append, Nat.ofDigitChars_ten_toDigits, Nat.ofDigitChars_eq_ofDigitChars_zero, padded_value, length]
    exact Nat.div_add_mod n (10 ^ places)
  unfold decimal
  rw [unsigned_signed, whole, fraction]
  simp only [List.tail_cons, value, length, signed_head]

theorem isDecimal_fixedText (places n : Nat) : IsDecimal (fixedText places n) := isDecimal_signed false places n

theorem decimal_fixedText (some_ : 0 < places) (n : Nat) : decimal (fixedText places n) = (n : Rat) / 10 ^ places :=
  decimal_signed some_ false n

end

/-! Rounding. -/

def roundEven (value : Rat) : Int :=
  if value - value.floor < 1 / 2 ∨ (value - value.floor = 1 / 2 ∧ value.floor % 2 = 0) then value.floor else value.floor + 1

theorem roundEven_near (value : Rat) : |(roundEven value : Rat) - value| ≤ 1 / 2 := by
  have low : (value.floor : Rat) ≤ value := Rat.le_floor_iff.mp le_rfl
  have high : value < ((value.floor + 1 : Int) : Rat) := Rat.lt_floor_add_one value
  push_cast at high
  unfold roundEven
  rw [abs_le]
  split
  next down =>
    rcases down with below | ⟨half, _⟩
    · constructor <;> linarith
    · constructor <;> linarith
  next up =>
    rw [not_or, not_lt] at up
    push_cast
    constructor <;> linarith [up.1]

theorem roundEven_nonneg {value : Rat} (nonneg : 0 ≤ value) : 0 ≤ roundEven value := by
  have floor : 0 ≤ value.floor := Rat.le_floor_iff.mpr (by exact_mod_cast nonneg)
  unfold roundEven
  split <;> omega

/-- The double next to a number, of two the even one, as long as it is neither too large nor too small. -/
def double (value : Rat) : Rat :=
  let guess : Int := Nat.log2 value.num.natAbs - Nat.log2 value.den
  let exponent := if |value| < 2 ^ guess then guess - 1 else guess
  if value = 0 then 0 else (roundEven (value * 2 ^ (52 - exponent)) : Rat) / 2 ^ (52 - exponent)

/-- `std::fixed << std::setprecision(places) << value`. -/
def showFixed (places : Nat) (value : Rat) : List Char :=
  signed (value < 0) (fixedText places (roundEven (|value| * 10 ^ places)).toNat)

def shown (places : Nat) (value : Rat) : Rat :=
  let size : Rat := (roundEven (|value| * 10 ^ places) : Rat) / 10 ^ places
  if value < 0 then -size else size

section
variable {places : Nat}

theorem isDecimal_showFixed (places : Nat) (value : Rat) : IsDecimal (showFixed places value) := isDecimal_signed _ _ _

theorem decimal_showFixed (some_ : 0 < places) (value : Rat) : decimal (showFixed places value) = shown places value := by
  have nonneg : 0 ≤ roundEven (|value| * 10 ^ places) := roundEven_nonneg (by positivity)
  have whole : (((roundEven (|value| * 10 ^ places)).toNat : Nat) : Rat) = (roundEven (|value| * 10 ^ places) : Rat) := by
    exact_mod_cast Int.toNat_of_nonneg nonneg
  rw [showFixed, decimal_signed some_, whole, shown]
  simp only [decide_eq_true_eq]

theorem shown_digits (places : Nat) (value : Rat) : ∃ digits : Int, shown places value = digits / 10 ^ places := by
  unfold shown
  dsimp only
  split
  · exact ⟨-roundEven (|value| * 10 ^ places), by rw [Int.cast_neg, neg_div]⟩
  · exact ⟨roundEven (|value| * 10 ^ places), rfl⟩

theorem shown_near (places : Nat) (value : Rat) : |shown places value - value| ≤ 1 / (2 * 10 ^ places) := by
  have power : (0 : Rat) < 10 ^ places := by positivity
  have near := roundEven_near (|value| * 10 ^ places)
  have scaled : |(roundEven (|value| * 10 ^ places) : Rat) / 10 ^ places - abs value| ≤ 1 / (2 * 10 ^ places) := by
    rw [show (roundEven (|value| * 10 ^ places) : Rat) / 10 ^ places - abs value =
      ((roundEven (|value| * 10 ^ places) : Rat) - |value| * 10 ^ places) / 10 ^ places by field_simp, abs_div,
      abs_of_pos power, div_le_iff₀ power]
    calc |(roundEven (|value| * 10 ^ places) : Rat) - |value| * 10 ^ places| ≤ 1 / 2 := near
      _ = 1 / (2 * 10 ^ places) * 10 ^ places := by field_simp
  unfold shown
  dsimp only
  split
  next negative =>
    rw [abs_of_neg negative] at scaled ⊢
    rw [show -((roundEven (-value * 10 ^ places) : Rat) / 10 ^ places) - value =
      -((roundEven (-value * 10 ^ places) : Rat) / 10 ^ places - -value) by ring, abs_neg]
    exact scaled
  next nonneg => rwa [abs_of_nonneg (not_lt.mp nonneg)] at scaled ⊢

end

example : double (1 / 3) = 6004799503160661 / 2 ^ 54 := by decide +kernel

example : showFixed 2 (-13 / 8) = "-1.62".toList := by decide +kernel

end Mbench.Library
