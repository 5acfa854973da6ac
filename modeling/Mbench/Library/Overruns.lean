import Mathlib.Data.List.Infix
import Mbench.Library.TwoScans

/-! Two scans of a list from its ends that leave the list as it is. The pair they stopped at last stands in the way of
the next two scans as it was found: the element on the left belongs to the right, the one on the right to the left. A scan
that nothing between the pair stops goes on through the pair, and overruns, unless the element of the pair stops it. -/

namespace Mbench.Library

variable {Value : Type} {below above : Value → Bool} {values before mid after front core back : List Value}

/-- A pair the scans stop at, the one after as many stops as the other, with only elements between that one scan passes,
and passes on beyond. -/
def Overruns (below above : Value → Bool) (values : List Value) : Prop :=
  ∃ before first middle last after, values = before ++ first :: (middle ++ last :: after) ∧ middle ≠ [] ∧
    below first = false ∧ above last = false ∧
    (before ++ [first]).countP (fun value => !below value) = (last :: after).countP (fun value => !above value) ∧
    ((∀ value ∈ middle ++ [last], below value = true) ∨ ∀ value ∈ first :: middle, above value = true)

theorem eq_nil_of_ends {passes : Value → Bool} {left more init : List Value} {last : Value}
    (same : left ++ more = init ++ [last]) (counted : passes last = true) (uncounted : more.countP passes = 0) :
    more = [] := by
  rcases List.eq_nil_or_concat more with rfl | ⟨others, ending, rfl⟩
  · rfl
  · rw [List.concat_eq_append, ← List.append_assoc] at same
    obtain ⟨-, ends⟩ := List.append_inj' same rfl
    cases ends
    simp [counted] at uncounted

theorem eq_nil_of_begins {passes : Value → Bool} {more right rest : List Value} {first : Value}
    (same : more ++ right = first :: rest) (counted : passes first = true) (uncounted : more.countP passes = 0) :
    more = [] := by
  cases more with
  | nil => rfl
  | cons other others =>
    cases same
    simp [counted] at uncounted

/-- A prefix that ends with an element that is counted is no longer than one with at least its count. -/
theorem prefix_of_countP_le {passes : Value → Bool} {init other : List Value} {last : Value}
    (first : init ++ [last] <+: values) (second : other <+: values) (counted : passes last = true)
    (counts : (init ++ [last]).countP passes ≤ other.countP passes) : init ++ [last] <+: other := by
  rcases List.prefix_or_prefix_of_prefix first second with shorter | ⟨more, same⟩
  · exact shorter
  · rw [← same, List.countP_append] at counts
    have nothing := eq_nil_of_ends same counted (by omega)
    rw [nothing, List.append_nil] at same
    exact same ▸ List.prefix_rfl

theorem suffix_of_countP_le {passes : Value → Bool} {tail other : List Value} {first : Value}
    (shorter : first :: tail <:+ values) (second : other <:+ values) (counted : passes first = true)
    (counts : (first :: tail).countP passes ≤ other.countP passes) : first :: tail <:+ other := by
  rw [← List.reverse_prefix, List.reverse_cons] at *
  refine prefix_of_countP_le shorter second counted ?_
  rwa [← List.reverse_cons, List.countP_reverse, List.countP_reverse]

/-- Where the scans are: they have stopped equally often, at last at the two elements next to what is left. -/
structure Between (below above : Value → Bool) (values before mid after : List Value) : Prop where
  split : values = before ++ mid ++ after
  counts : before.countP (fun value => !below value) = after.countP fun value => !above value
  ends : before = [] ∧ after = [] ∧ (∃ value ∈ mid, below value = false ∧ above value = false) ∨
    (∃ init first, before = init ++ [first] ∧ below first = false) ∧ ∃ last rest, after = last :: rest ∧ above last = false

def RunsOut (below above : Value → Bool) (before mid after : List Value) : Prop :=
  mid ≠ [] ∧ (((∀ value ∈ mid, below value = true) ∧ ∀ last ∈ after.head?, below last = true) ∨
    ((∀ value ∈ mid, above value = true) ∧ ∀ first ∈ before.getLast?, above first = true))

theorem Between.overruns (between : Between below above values before mid after)
    (out : RunsOut below above before mid after) : Overruns below above values := by
  obtain ⟨nonempty, out⟩ := out
  rcases between.ends with ⟨-, -, value, member, notBelow, notAbove⟩ | ⟨⟨init, first, rfl, stopLeft⟩, last, rest, rfl, stopRight⟩
  · rcases out with ⟨passed, -⟩ | ⟨passed, -⟩
    · rw [passed value member] at notBelow
      cases notBelow
    · rw [passed value member] at notAbove
      cases notAbove
  · refine ⟨init, first, mid, last, rest, by rw [between.split]; simp, nonempty, stopLeft, stopRight, between.counts, ?_⟩
    rcases out with ⟨passed, beyond⟩ | ⟨passed, beyond⟩
    · exact Or.inl (List.forall_mem_append.mpr ⟨passed, by simpa using beyond⟩)
    · exact Or.inr (List.forall_mem_cons.mpr ⟨by simpa using beyond, passed⟩)

theorem two_le_core {left middle right : List Value} (split : front ++ core ++ back = left ++ middle ++ right)
    (passedFront : ∀ value ∈ front, below value = true) (passedBack : ∀ value ∈ back, above value = true)
    (stopLeft : ∃ value ∈ left, below value = false) (stopRight : ∃ value ∈ right, above value = false) :
    2 ≤ core.length := by
  have fewer : front.length < left.length := by
    by_contra more
    have whole : left <+: left ++ middle ++ right := ⟨middle ++ right, by rw [List.append_assoc]⟩
    have part : front <+: left ++ middle ++ right := ⟨core ++ back, by rw [← split, List.append_assoc]⟩
    have shorter : left <+: front := List.prefix_of_prefix_length_le whole part (Nat.not_lt.mp more)
    obtain ⟨value, member, stops⟩ := stopLeft
    rw [passedFront value (shorter.subset member)] at stops
    cases stops
  have fewer' : back.length < right.length := by
    by_contra more
    have whole : right <:+ left ++ middle ++ right := ⟨left ++ middle, rfl⟩
    have part : back <:+ left ++ middle ++ right := ⟨front ++ core, split⟩
    have shorter : right <:+ back := List.suffix_of_suffix_length_le whole part (Nat.not_lt.mp more)
    obtain ⟨value, member, stops⟩ := stopRight
    rw [passedBack value (shorter.subset member)] at stops
    cases stops
  have lengths := congrArg List.length split
  simp only [List.length_append] at lengths
  omega

/-- A pair of stops that no more stops are outside of than outside of another split encloses what the other one does. -/
theorem exists_enclosed {init rest left middle right : List Value} {first last : Value}
    (whole : init ++ [first] ++ mid ++ last :: rest = left ++ middle ++ right) (stopLeft : below first = false)
    (stopRight : above last = false)
    (counts : (init ++ [first]).countP (fun value => !below value) ≤ left.countP fun value => !below value)
    (counts' : (last :: rest).countP (fun value => !above value) ≤ right.countP fun value => !above value) :
    ∃ more more', left = init ++ [first] ++ more ∧ right = more' ++ last :: rest ∧ mid = more ++ middle ++ more' := by
  have isPrefix : init ++ [first] <+: left ++ middle ++ right := ⟨mid ++ last :: rest, by rw [← whole, ← List.append_assoc]⟩
  have isPrefix' : left <+: left ++ middle ++ right := ⟨middle ++ right, by rw [List.append_assoc]⟩
  have isSuffix : last :: rest <:+ left ++ middle ++ right := ⟨init ++ [first] ++ mid, whole⟩
  have isSuffix' : right <:+ left ++ middle ++ right := ⟨left ++ middle, rfl⟩
  obtain ⟨more, rfl⟩ := prefix_of_countP_le isPrefix isPrefix' (by simp [stopLeft]) counts
  obtain ⟨more', rfl⟩ := suffix_of_countP_le isSuffix isSuffix' (by simp [stopRight]) counts'
  refine ⟨more, more', rfl, rfl, ?_⟩
  have inside : init ++ [first] ++ (mid ++ last :: rest) = init ++ [first] ++ (more ++ middle ++ more' ++ last :: rest) := by
    simpa using whole
  exact List.append_cancel_right (List.append_cancel_left inside)

/-- A scan that passes what a pair of stops encloses, and one of the two, runs out within any stops in between. -/
theorem runsOut_of_enclosed {init rest left middle right more more' : List Value} {first last first' last' : Value}
    (before_ : init ++ [first'] = left ++ [first] ++ more) (after_ : last' :: rest = more' ++ last :: right)
    (inside : middle = more ++ mid ++ more') (nonempty : middle ≠ []) (stopLeft : below first' = false)
    (stopRight : above last' = false)
    (counts : more.countP (fun value => !below value) = more'.countP fun value => !above value)
    (passed : (∀ value ∈ middle ++ [last], below value = true) ∨ ∀ value ∈ first :: middle, above value = true) :
    RunsOut below above (init ++ [first']) mid (last' :: rest) := by
  have noneLeft : more.countP (fun value => !below value) = 0 → more = [] :=
    eq_nil_of_ends before_.symm (by simpa using stopLeft)
  have noneRight : more'.countP (fun value => !above value) = 0 → more' = [] :=
    eq_nil_of_begins after_.symm (by simpa using stopRight)
  have nothing : more = [] ∧ more' = [] := by
    rcases passed with passed | passed
    · have uncounted : more.countP (fun value => !below value) = 0 := by
        rw [List.countP_eq_zero]
        intro value member
        simp [passed value (by rw [inside]; simp [member])]
      exact ⟨noneLeft uncounted, noneRight (by omega)⟩
    · have uncounted : more'.countP (fun value => !above value) = 0 := by
        rw [List.countP_eq_zero]
        intro value member
        simp [passed value (by rw [inside]; simp [member])]
      exact ⟨noneLeft (by omega), noneRight uncounted⟩
  obtain ⟨rfl, rfl⟩ := nothing
  rw [List.nil_append, List.append_nil] at inside
  rw [List.append_nil] at before_
  rw [List.nil_append] at after_
  subst middle
  refine ⟨nonempty, passed.imp (fun passed => ?_) fun passed => ?_⟩
  · obtain ⟨all, beyond⟩ := List.forall_mem_append.mp passed
    rw [after_]
    exact ⟨all, by simpa using beyond⟩
  · obtain ⟨beyond, all⟩ := List.forall_mem_cons.mp passed
    rw [before_]
    exact ⟨all, by simpa using beyond⟩

theorem Between.runsOut_or_core (between : Between below above values before mid after)
    (overruns : Overruns below above values) (pieces : mid = front ++ core ++ back)
    (passedFront : ∀ value ∈ front, below value = true) (passedBack : ∀ value ∈ back, above value = true) :
    RunsOut below above before mid after ∨ 2 ≤ core.length := by
  obtain ⟨left, first, middle, last, right, split, nonempty, stopLeft, stopRight, counts, passed⟩ := overruns
  have whole : before ++ mid ++ after = left ++ [first] ++ middle ++ last :: right := by
    rw [← between.split, split]
    simp
  have equal := between.counts
  rcases between.ends with ⟨rfl, rfl, -⟩ | ⟨⟨init, first', rfl, stopLeft'⟩, last', rest, rfl, stopRight'⟩
  · rw [List.nil_append, List.append_nil] at whole
    exact Or.inr (two_le_core (pieces.symm.trans whole) passedFront passedBack ⟨first, by simp, stopLeft⟩
      ⟨last, by simp, stopRight⟩)
  by_cases later : (init ++ [first']).countP (fun value => !below value) < (left ++ [first]).countP fun value => !below value
  · right
    obtain ⟨more, more', before_, after_, inside⟩ := exists_enclosed whole stopLeft' stopRight' later.le (by omega)
    have grown := @List.countP_append _ (fun value => !below value) (init ++ [first']) more
    have grown' := @List.countP_append _ (fun value => !above value) more' (last' :: rest)
    rw [← before_] at grown
    rw [← after_] at grown'
    have stops : ∃ value ∈ more, below value = false := by
      simpa using List.countP_pos_iff.mp (show 0 < more.countP fun value => !below value by omega)
    have stops' : ∃ value ∈ more', above value = false := by
      simpa using List.countP_pos_iff.mp (show 0 < more'.countP fun value => !above value by omega)
    exact two_le_core (pieces.symm.trans inside) passedFront passedBack stops stops'
  · left
    obtain ⟨more, more', before_, after_, inside⟩ := exists_enclosed whole.symm stopLeft stopRight (Nat.not_lt.mp later) (by omega)
    have grown := @List.countP_append _ (fun value => !below value) (left ++ [first]) more
    have grown' := @List.countP_append _ (fun value => !above value) more' (last :: right)
    rw [← before_] at grown
    rw [← after_] at grown'
    exact runsOut_of_enclosed before_ after_ inside nonempty stopLeft' stopRight' (by omega) passed

/-! The elements that stop the next two scans. -/

section
variable (trimmed : Trimmed below above front core back)
include trimmed

theorem Trimmed.stopRight (nonempty : front ++ core ++ back ≠ [])
    (still : ¬RunsOut below above before (front ++ core ++ back) after) :
    ∃ stop rest, core ++ back ++ after = stop :: rest ∧ below stop = false := by
  match core, back with
  | stop :: _, _ => exact ⟨stop, _, rfl, trimmed.stopFront stop rfl⟩
  | [], stop :: _ => exact ⟨stop, _, rfl, trimmed.beyond stop List.mem_cons_self⟩
  | [], [] =>
    rw [List.append_nil, List.append_nil] at nonempty still
    by_contra none_
    refine still ⟨nonempty, Or.inl ⟨trimmed.passedFront, fun last first => ?_⟩⟩
    by_contra stops
    obtain ⟨rest, same⟩ := List.head?_eq_some_iff.mp first
    exact none_ ⟨last, rest, same, eq_false_of_ne_true stops⟩

theorem Trimmed.stopLeft (apart : ∀ value, above value = true → below value = false)
    (nonempty : front ++ core ++ back ≠ []) (still : ¬RunsOut below above before (front ++ core ++ back) after) :
    ∃ rest stop, before ++ front ++ core = rest ++ [stop] ∧ above stop = false := by
  rcases List.eq_nil_or_concat core with rfl | ⟨core, stop, rfl⟩
  · rcases List.eq_nil_or_concat front with rfl | ⟨front, stop, rfl⟩
    · rw [List.append_nil, List.nil_append] at nonempty still
      by_contra none_
      refine still ⟨nonempty, Or.inr ⟨trimmed.passedBack, fun first last => ?_⟩⟩
      by_contra stops
      obtain ⟨rest, same⟩ := List.getLast?_eq_some_iff.mp last
      exact none_ ⟨rest, first, by rw [List.append_nil, List.append_nil, same], eq_false_of_ne_true stops⟩
    · have passed : below stop = true := trimmed.passedFront stop (by simp)
      refine ⟨before ++ front, stop, by simp, eq_false_of_ne_true fun crossed => ?_⟩
      rw [apart stop crossed] at passed
      cases passed
  · exact ⟨before ++ front ++ core, stop, by simp, trimmed.stopBack stop (by simp)⟩

end

theorem Between.next {first last : Value} {middle : List Value}
    (between : Between below above values before (front ++ first :: (middle ++ [last]) ++ back) after)
    (trimmed : Trimmed below above front (first :: (middle ++ [last])) back) :
    Between below above values (before ++ front ++ [first]) middle (last :: (back ++ after)) := by
  have stopFirst : below first = false := trimmed.stopFront first rfl
  have stopLast : above last = false := by
    apply trimmed.stopBack last
    rw [← List.cons_append, List.getLast?_concat]
    rfl
  have passed : front.countP (fun value => !below value) = 0 := by
    rw [List.countP_eq_zero]
    intro value member
    simp [trimmed.passedFront value member]
  have passed' : back.countP (fun value => !above value) = 0 := by
    rw [List.countP_eq_zero]
    intro value member
    simp [trimmed.passedBack value member]
  constructor
  · rw [between.split]
    simp
  · have equal := between.counts
    simp only [List.countP_append, List.countP_cons, List.countP_nil, passed, passed', stopFirst, stopLast, Bool.not_false,
      if_true]
    omega
  · exact Or.inr ⟨⟨before ++ front, first, rfl, stopFirst⟩, last, back ++ after, rfl, stopLast⟩

end Mbench.Library
