import Mathlib.Data.List.DropRight
import Mathlib.Data.List.Induction
import Mathlib.Tactic.Common

/-! Two scans of a list from its ends. Each passes what belongs on its side; the pair they stop at is exchanged and
both go on behind it, until they meet. -/

namespace Mbench.Library

variable {Value : Type} {below above : Value → Bool} {front core back values : List Value} {first last : Value}

def twoScans (below above : Value → Bool) (values : List Value) : List Value × List Value :=
  let front := values.takeWhile below
  let rest := values.dropWhile below
  let back := rest.rtakeWhile above
  match _stopped : rest.rdropWhile above with
  | first :: second :: others =>
    let inner := twoScans below above (second :: others).dropLast
    (front ++ (second :: others).getLast (List.cons_ne_nil _ _) :: inner.1, inner.2 ++ first :: back)
  | _ => (front, back)
termination_by values.length
decreasing_by
  have fewer : ((values.dropWhile below).rdropWhile above).length ≤ values.length :=
    (List.rdropWhile_prefix above _).length_le.trans (List.dropWhile_suffix below).length_le
  rw [_stopped] at fewer
  simp only [List.length_cons, List.length_dropLast] at fewer ⊢
  omega

structure Trimmed (below above : Value → Bool) (front core back : List Value) : Prop where
  passedFront : ∀ value ∈ front, below value = true
  passedBack : ∀ value ∈ back, above value = true
  beyond : ∀ value ∈ back, below value = false
  stopFront : ∀ value ∈ core.head?, below value = false
  stopBack : ∀ value ∈ core.getLast?, above value = false

theorem exists_passed (passes : Value → Bool) (values : List Value) :
    ∃ front rest, values = front ++ rest ∧ (∀ value ∈ front, passes value = true) ∧
      ∀ value ∈ rest.head?, passes value = false := by
  refine ⟨values.takeWhile passes, values.dropWhile passes, List.takeWhile_append_dropWhile.symm,
    fun value member => List.mem_takeWhile_imp member, fun value first => ?_⟩
  have stopped := List.head?_dropWhile_not passes values
  rw [Option.mem_def.mp first] at stopped
  simpa using stopped

theorem exists_passed_back (passes : Value → Bool) (values : List Value) :
    ∃ rest back, values = rest ++ back ∧ (∀ value ∈ back, passes value = true) ∧
      ∀ value ∈ rest.getLast?, passes value = false := by
  refine ⟨values.rdropWhile passes, values.rtakeWhile passes, List.rdropWhile_append_rtakeWhile.symm,
    fun value member => List.mem_rtakeWhile_imp member, fun value last => ?_⟩
  have nonempty : values.rdropWhile passes ≠ [] := by
    intro nothing
    rw [nothing] at last
    cases last
  have stopped := List.rdropWhile_last_not passes _ nonempty
  rw [List.getLast?_eq_some_getLast nonempty, Option.mem_some_iff] at last
  rw [last] at stopped
  exact eq_false_of_ne_true stopped

theorem exists_trimmed (apart : ∀ value, above value = true → below value = false) (values : List Value) :
    ∃ front core back, values = front ++ core ++ back ∧ Trimmed below above front core back := by
  obtain ⟨front, rest, rfl, passedFront, stopFront⟩ := exists_passed below values
  obtain ⟨core, back, rfl, passedBack, stopBack⟩ := exists_passed_back above rest
  refine ⟨front, core, back, (List.append_assoc _ _ _).symm, passedFront, passedBack,
    fun value member => apart value (passedBack value member), fun value first => ?_, stopBack⟩
  apply stopFront value
  rw [List.head?_append, Option.mem_def.mp first]
  rfl

theorem Trimmed.scans (trimmed : Trimmed below above front core back) :
    (front ++ core ++ back).takeWhile below = front ∧ (front ++ core ++ back).dropWhile below = core ++ back ∧
      (core ++ back).rdropWhile above = core ∧ (core ++ back).rtakeWhile above = back := by
  have rest : (core ++ back).takeWhile below = [] ∧ (core ++ back).dropWhile below = core ++ back := by
    cases found : core ++ back with
    | nil => exact ⟨rfl, rfl⟩
    | cons value others =>
      have stops : below value = false := by
        cases core with
        | nil => exact trimmed.beyond value (by rw [show back = value :: others from found]; exact List.mem_cons_self)
        | cons other others' =>
          cases found
          exact trimmed.stopFront value rfl
      simp [stops]
  have ends : core.rdropWhile above = core ∧ core.rtakeWhile above = [] := by
    constructor
    · refine List.rdropWhile_eq_self_iff.mpr fun nonempty => ?_
      simp [trimmed.stopBack _ (List.getLast?_eq_some_getLast nonempty)]
    · refine List.rtakeWhile_eq_nil_iff.mpr fun nonempty => ?_
      simp [trimmed.stopBack _ (List.getLast?_eq_some_getLast nonempty)]
  have passed (piece : List Value) (all : ∀ value ∈ piece, above value = true) :
      (core ++ piece).rdropWhile above = core ∧ (core ++ piece).rtakeWhile above = piece := by
    induction piece using List.reverseRecOn with
    | nil =>
      rw [List.append_nil]
      exact ends
    | append_singleton piece value ih =>
      obtain ⟨dropped, taken⟩ := ih fun other member => all other (by simp [member])
      have pass : above value = true := all value (by simp)
      rw [← List.append_assoc, List.rdropWhile_concat_pos _ _ _ pass, List.rtakeWhile_concat_pos _ _ _ pass, taken]
      exact ⟨dropped, rfl⟩
  refine ⟨?_, ?_, passed back trimmed.passedBack⟩
  · rw [List.append_assoc, List.takeWhile_append_of_pos trimmed.passedFront, rest.1, List.append_nil]
  · rw [List.append_assoc, List.dropWhile_append_of_pos trimmed.passedFront, rest.2]

theorem exists_ends (long : ¬values.length ≤ 1) : ∃ first middle last, values = first :: (middle ++ [last]) := by
  match values, long with
  | [], long => exact absurd (Nat.zero_le 1) long
  | first :: rest, long =>
    rcases List.eq_nil_or_concat rest with rfl | ⟨middle, last, same⟩
    · exact absurd le_rfl long
    · exact ⟨first, middle, last, by rw [same, List.concat_eq_append]⟩

theorem twoScans_short (trimmed : Trimmed below above front core back) (short : core.length ≤ 1) :
    twoScans below above (front ++ core ++ back) = (front, back) := by
  obtain ⟨passed, rest, stopped, back_⟩ := trimmed.scans
  rw [twoScans, passed, rest, back_]
  split
  next first second others found =>
    rw [stopped] at found
    rw [found] at short
    simp at short
  next => rfl

theorem twoScans_nil : twoScans below above [] = ([], []) := by
  have trimmed : Trimmed below above [] [] [] := by constructor <;> simp
  exact twoScans_short trimmed (Nat.zero_le _)

theorem twoScans_pair (trimmed : Trimmed below above front (first :: (values ++ [last])) back) :
    twoScans below above (front ++ first :: (values ++ [last]) ++ back) =
      (front ++ last :: (twoScans below above values).1, (twoScans below above values).2 ++ first :: back) := by
  obtain ⟨passed, rest, stopped, back_⟩ := trimmed.scans
  rw [twoScans, passed, rest, back_]
  split
  next first' second others found =>
    rw [stopped, List.cons.injEq] at found
    obtain ⟨rfl, same⟩ := found
    simp only [← same, List.dropLast_concat, List.getLast_append_singleton]
  next apart =>
    rw [stopped] at apart
    cases values with
    | nil => exact absurd rfl (apart first last [])
    | cons second others => exact absurd rfl (apart first second (others ++ [last]))

theorem twoScans_nil_cases (apart : ∀ value, above value = true → below value = false) (values : List Value)
    (nothing : (twoScans below above values).1 = [] ∨ (twoScans below above values).2 = []) :
    ∃ front core back, values = front ++ core ++ back ∧ Trimmed below above front core back ∧ core.length ≤ 1 ∧
      twoScans below above values = (front, back) := by
  obtain ⟨front, core, back, rfl, trimmed⟩ := exists_trimmed apart values
  by_cases short : core.length ≤ 1
  · exact ⟨front, core, back, rfl, trimmed, short, twoScans_short trimmed short⟩
  · obtain ⟨first, middle, last, rfl⟩ := exists_ends short
    rw [twoScans_pair trimmed] at nothing
    simp at nothing

theorem twoScans_length (values : List Value) :
    (twoScans below above values).1.length + (twoScans below above values).2.length ≤ values.length := by
  have total (values : List Value) : (values.takeWhile below).length + ((values.dropWhile below).rdropWhile above).length +
      ((values.dropWhile below).rtakeWhile above).length = values.length := by
    rw [Nat.add_assoc, ← List.length_append, List.rdropWhile_append_rtakeWhile, ← List.length_append,
      List.takeWhile_append_dropWhile]
  fun_induction twoScans below above values with
  | case1 values front rest back first second others stopped inner ih =>
    have pieces : front.length + (rest.rdropWhile above).length + back.length = values.length := total values
    have sides : inner.1.length + inner.2.length ≤ (second :: others).dropLast.length := ih
    rw [stopped] at pieces
    simp only [List.length_append, List.length_cons, List.length_dropLast] at pieces sides ⊢
    omega
  | case2 values front rest back _ =>
    have pieces : front.length + (rest.rdropWhile above).length + back.length = values.length := total values
    simp only
    omega

theorem twoScans_replicate {value : Value} (notBelow : below value = false) (notAbove : above value = false) (count : Nat) :
    twoScans below above (List.replicate count value) =
      (List.replicate (count / 2) value, List.replicate (count / 2) value) := by
  have trimmed (core : List Value) (same : ∀ other ∈ core, other = value) : Trimmed below above [] core [] := by
    constructor
    · simp
    · simp
    · simp
    · exact fun other first => same other (List.mem_of_mem_head? first) ▸ notBelow
    · exact fun other last => same other (List.mem_of_mem_getLast? last) ▸ notAbove
  match count with
  | 0 => exact twoScans_nil
  | 1 => exact twoScans_short (trimmed [value] (by simp)) le_rfl
  | count + 2 =>
    have pieces : [] ++ value :: (List.replicate count value ++ [value]) ++ [] = List.replicate (count + 2) value := by
      rw [← List.replicate_succ', List.nil_append, List.append_nil]
      rfl
    have pair := twoScans_pair (trimmed (value :: (List.replicate count value ++ [value])) fun other member =>
      List.eq_of_mem_replicate (by rwa [← pieces, List.nil_append, List.append_nil]))
    rw [pieces, twoScans_replicate notBelow notAbove count] at pair
    rw [pair, Nat.add_div_right count (Nat.succ_pos 1), List.replicate_succ, ← List.replicate_succ', List.replicate_succ,
      List.nil_append]

end Mbench.Library
