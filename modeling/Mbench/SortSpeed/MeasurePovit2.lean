import Mbench.Library.Overruns
import Mbench.SortSpeed.PartitionSlices

/-! `measurePovit2` of `sortSpeed.cpp`: the partition by two unguarded scans, which copies to another array what it would
exchange. -/

namespace Mbench.SortSpeed
open Library

structure Cursors where
  heap : Heap Word
  arrSrcL : Int
  arrSrcR : Int
  arrDstL : Int
  arrDstR : Int

/-- `*arrDstL = *arrSrcL; arrDstL++; arrSrcL++`. -/
def copyL (cursors : Cursors) : Option Cursors := do
  let value ← cursors.heap.load cursors.arrSrcL
  let heap ← cursors.heap.store cursors.arrDstL value
  some { cursors with heap, arrDstL := cursors.arrDstL + 1, arrSrcL := cursors.arrSrcL + 1 }

/-- `*arrDstR = *arrSrcR; arrDstR--; arrSrcR--`. -/
def copyR (cursors : Cursors) : Option Cursors := do
  let value ← cursors.heap.load cursors.arrSrcR
  let heap ← cursors.heap.store cursors.arrDstR value
  some { cursors with heap, arrDstR := cursors.arrDstR - 1, arrSrcR := cursors.arrSrcR - 1 }

def copySmall (fuel : Nat) (midVal : Word) : Cursors → Option Cursors :=
  whileLoop (fun cursors => (cursors.heap.load cursors.arrSrcL).map fun value => decide (value < midVal)) copyL fuel

def copyLarge (fuel : Nat) (midVal : Word) : Cursors → Option Cursors :=
  whileLoop (fun cursors => (cursors.heap.load cursors.arrSrcR).map fun value => decide (midVal < value)) copyR fuel

def copyPair (cursors : Cursors) : Option Cursors := do
  let value ← cursors.heap.load cursors.arrSrcR
  let heap ← cursors.heap.store cursors.arrDstL value
  let value ← heap.load cursors.arrSrcL
  let heap ← heap.store cursors.arrDstR value
  some { heap, arrDstL := cursors.arrDstL + 1, arrSrcR := cursors.arrSrcR - 1,
         arrDstR := cursors.arrDstR - 1, arrSrcL := cursors.arrSrcL + 1 }

def povit2Step (fuel : Nat) (midVal : Word) (cursors : Cursors) : Option Cursors := do
  let cursors ← copySmall fuel midVal cursors
  let cursors ← copyLarge fuel midVal cursors
  if cursors.arrSrcL ≤ cursors.arrSrcR then copyPair cursors else some cursors

def povit2Loop (scanFuel : Nat) (midVal : Word) : Nat → Cursors → Option Cursors :=
  whileLoop (fun cursors => some (cursors.arrSrcL ≤ cursors.arrSrcR)) (povit2Step scanFuel midVal)

/-- `measurePovit2` without its clock, with fuel for each of its loops. -/
def measurePovit2 (fuel : Nat) (heap : Heap Word) (arr dst : Int) (nLen : Nat) : Option Cursors := do
  let midVal ← heap.load (arr + (nLen / 2 : Nat))
  povit2Loop fuel midVal fuel
    { heap, arrSrcL := arr, arrSrcR := arr + nLen - 1, arrDstL := dst, arrDstR := dst + nLen - 1 }

/-! The pointers into the two arrays stay at the same indices. -/

def cursorsAt (heap : Heap Word) (arr dst left right : Int) (written : List Word) : Cursors where
  heap := heap.splice dst written
  arrSrcL := arr + left
  arrSrcR := arr + right
  arrDstL := dst + left
  arrDstR := dst + right

section
variable {heap : Heap Word} {arr dst : Int} {values before after written : List Word} {midVal : Word}
  (held : heap.Holds arr values) (apart : arr + values.length ≤ dst ∨ dst + values.length ≤ arr)
include held apart

theorem load_source {value : Word} (split : values = before ++ value :: after) (size : written.length = values.length) :
    (heap.splice dst written).load (arr + before.length) = some value := by
  have kept := held.splice_disjoint (by rwa [size])
  rw [split] at kept
  exact (Heap.holds_cons.mp (Heap.holds_append.mp kept).2).1

theorem copyL_at {left right : List Word} {value old : Word} (last : Int) (split : values = before ++ value :: after)
    (size : (left ++ old :: right).length = values.length) (leftSize : left.length = before.length) :
    copyL (cursorsAt heap arr dst before.length last (left ++ old :: right)) =
      some (cursorsAt heap arr dst (before ++ [value]).length last (left ++ value :: right)) := by
  have loaded := load_source held apart split size
  have stored := heap.splice_store dst left right old value
  rw [leftSize] at stored
  simp only [copyL, cursorsAt, loaded, stored, Option.bind_eq_bind, Option.bind_some, List.length_append,
    List.length_singleton, Nat.cast_add, Nat.cast_one, Int.add_assoc]

theorem copyR_at {left right : List Word} {value old : Word} (first : Int) (split : values = before ++ value :: after)
    (size : (left ++ old :: right).length = values.length) (leftSize : left.length = before.length) :
    copyR (cursorsAt heap arr dst first before.length (left ++ old :: right)) =
      some (cursorsAt heap arr dst first (before.length - 1) (left ++ value :: right)) := by
  have loaded := load_source held apart split size
  have stored := heap.splice_store dst left right old value
  rw [leftSize] at stored
  simp only [copyR, cursorsAt, loaded, stored, Option.bind_eq_bind, Option.bind_some, Int.add_sub_assoc]

theorem copySmall_passes (fuel : Nat) {front gap left right : List Word} (last : Int)
    (split : values = before ++ front ++ after) (size : (left ++ gap ++ right).length = values.length)
    (leftSize : left.length = before.length) (gapSize : gap.length = front.length)
    (passed : ∀ value ∈ front, value < midVal) :
    copySmall (front.length + fuel) midVal (cursorsAt heap arr dst before.length last (left ++ gap ++ right)) =
      copySmall fuel midVal (cursorsAt heap arr dst (before ++ front).length last (left ++ front ++ right)) := by
  induction front generalizing before left gap with
  | nil =>
    obtain rfl : gap = [] := List.eq_nil_of_length_eq_zero gapSize
    simp only [List.length_nil, Nat.zero_add, List.append_nil]
  | cons value front ih =>
    cases gap with
    | nil => cases gapSize
    | cons old gap =>
      obtain ⟨pass, passed⟩ := List.forall_mem_cons.mp passed
      have start : left ++ old :: gap ++ right = left ++ old :: (gap ++ right) := List.append_assoc _ _ _
      have written : left ++ value :: (gap ++ right) = left ++ [value] ++ gap ++ right := by simp
      have ends : before ++ value :: front = before ++ [value] ++ front ∧
          left ++ value :: front ++ right = left ++ [value] ++ front ++ right := by simp
      have here : values = before ++ value :: (front ++ after) := by rw [split, List.append_assoc]; rfl
      have onward := @ih (before ++ [value]) gap (left ++ [value]) (by rw [split, ends.1]) (by simpa using size)
        (by simpa using leftSize) (by simpa using gapSize) passed
      rw [start] at size ⊢
      have loaded := load_source held apart here size
      have moved := copyL_at held apart last here size leftSize
      have guard : (cursorsAt heap arr dst before.length last (left ++ old :: (gap ++ right))).heap.load
          (cursorsAt heap arr dst before.length last (left ++ old :: (gap ++ right))).arrSrcL = some value := loaded
      rw [List.length_cons, Nat.add_right_comm, ends.1, ends.2, ← onward, copySmall, whileLoop, guard, Option.map_some,
        decide_eq_true pass, Option.bind_eq_bind, Option.bind_some, if_pos rfl, moved, written]
      rfl

theorem copySmall_stops (fuel : Nat) {stop : Word} (last : Int) (split : values = before ++ stop :: after)
    (size : written.length = values.length) (stops : ¬stop < midVal) :
    copySmall (fuel + 1) midVal (cursorsAt heap arr dst before.length last written) =
      some (cursorsAt heap arr dst before.length last written) := by
  have loaded := load_source held apart split size
  simp [copySmall, whileLoop, cursorsAt, loaded, stops]

theorem copyLarge_passes (fuel : Nat) {back gap left right : List Word} (first : Int)
    (split : values = before ++ back ++ after) (size : (left ++ gap ++ right).length = values.length)
    (leftSize : left.length = before.length) (gapSize : gap.length = back.length)
    (passed : ∀ value ∈ back, midVal < value) :
    copyLarge (back.length + fuel) midVal
        (cursorsAt heap arr dst first ((before ++ back).length - 1) (left ++ gap ++ right)) =
      copyLarge fuel midVal (cursorsAt heap arr dst first (before.length - 1) (left ++ back ++ right)) := by
  induction back using List.reverseRecOn generalizing after gap right with
  | nil =>
    obtain rfl : gap = [] := List.eq_nil_of_length_eq_zero gapSize
    simp only [List.length_nil, Nat.zero_add, List.append_nil]
  | append_singleton back value ih =>
    rcases List.eq_nil_or_concat gap with rfl | ⟨gap, old, rfl⟩
    · simp at gapSize
    · obtain ⟨passed, pass⟩ := List.forall_mem_append.mp passed
      have pass := pass value (List.mem_singleton_self value)
      rw [List.concat_eq_append] at size gapSize ⊢
      have start : left ++ (gap ++ [old]) ++ right = left ++ gap ++ old :: right := by simp
      have ends : left ++ (back ++ [value]) ++ right = left ++ back ++ value :: right := by simp
      have here : values = before ++ back ++ value :: after := by rw [split]; simp
      have gapSize' : gap.length = back.length := by simpa using gapSize
      have there : ((before ++ (back ++ [value])).length : Int) - 1 = ((before ++ back).length : Int) := by
        simp only [List.length_append, List.length_singleton]
        omega
      have onward := @ih (value :: after) gap (value :: right) here (by simpa using size) gapSize' passed
      rw [start] at size ⊢
      have loaded := load_source held apart here size
      have moved := copyR_at held apart first here size (by rw [List.length_append, List.length_append, leftSize, gapSize'])
      have guard : (cursorsAt heap arr dst first (before ++ back).length (left ++ gap ++ old :: right)).heap.load
          (cursorsAt heap arr dst first (before ++ back).length (left ++ gap ++ old :: right)).arrSrcR = some value := loaded
      rw [List.length_append, List.length_singleton, Nat.add_right_comm, there, ends, ← onward, copyLarge, whileLoop, guard,
        Option.map_some, decide_eq_true pass, Option.bind_eq_bind, Option.bind_some, if_pos rfl, moved]
      rfl

theorem copyLarge_stops (fuel : Nat) {stop : Word} (first : Int) (split : values = before ++ stop :: after)
    (size : written.length = values.length) (stops : ¬midVal < stop) :
    copyLarge (fuel + 1) midVal (cursorsAt heap arr dst first before.length written) =
      some (cursorsAt heap arr dst first before.length written) := by
  have loaded := load_source held apart split size
  simp [copyLarge, whileLoop, cursorsAt, loaded, stops]

theorem copySmall_run {fuel : Nat} {front rest gap left right : List Word} {stop : Word} (last : Int)
    (split : values = before ++ front ++ stop :: rest) (size : (left ++ gap ++ right).length = values.length)
    (leftSize : left.length = before.length) (gapSize : gap.length = front.length)
    (passed : ∀ value ∈ front, value < midVal) (stops : ¬stop < midVal) (enough : values.length < fuel) :
    copySmall fuel midVal (cursorsAt heap arr dst before.length last (left ++ gap ++ right)) =
      some (cursorsAt heap arr dst (before ++ front).length last (left ++ front ++ right)) := by
  have fewer := congrArg List.length split
  simp only [List.length_append] at fewer size
  obtain ⟨more, rfl⟩ : ∃ more, fuel = front.length + (more + 1) := ⟨fuel - front.length - 1, by omega⟩
  rw [copySmall_passes held apart (more + 1) last split (by simp only [List.length_append]; omega) leftSize gapSize
    passed]
  exact copySmall_stops held apart more last split (by simp only [List.length_append]; omega) stops

theorem copyLarge_run {fuel : Nat} {init back gap left right : List Word} {stop : Word} (first : Int)
    (split : values = init ++ stop :: (back ++ after)) (size : (left ++ gap ++ right).length = values.length)
    (leftSize : left.length = (init ++ [stop]).length) (gapSize : gap.length = back.length)
    (passed : ∀ value ∈ back, midVal < value) (stops : ¬midVal < stop) (enough : values.length < fuel) :
    copyLarge fuel midVal (cursorsAt heap arr dst first ((init ++ [stop] ++ back).length - 1) (left ++ gap ++ right)) =
      some (cursorsAt heap arr dst first init.length (left ++ back ++ right)) := by
  have fewer := congrArg List.length split
  simp only [List.length_append, List.length_cons] at fewer size
  obtain ⟨more, rfl⟩ : ∃ more, fuel = back.length + (more + 1) := ⟨fuel - back.length - 1, by omega⟩
  have place : ((init ++ [stop]).length : Int) - 1 = init.length := by
    rw [List.length_append, List.length_singleton]
    omega
  rw [copyLarge_passes held apart (more + 1) first (show values = init ++ [stop] ++ back ++ after by rw [split]; simp)
    (by simp only [List.length_append]; omega) leftSize gapSize passed, place]
  exact copyLarge_stops held apart more first split (by simp only [List.length_append]; omega) stops

theorem copyPair_one {left right : List Word} {value old : Word} (split : values = before ++ value :: after)
    (size : (left ++ old :: right).length = values.length) (leftSize : left.length = before.length) :
    copyPair (cursorsAt heap arr dst before.length before.length (left ++ old :: right)) =
      some (cursorsAt heap arr dst (before ++ [value]).length (before.length - 1) (left ++ value :: right)) := by
  have size' : (left ++ value :: right).length = values.length := by simpa using size
  have loaded := load_source held apart split size
  have loaded' := load_source held apart split size'
  have stored := heap.splice_store dst left right old value
  have stored' := heap.splice_store dst left right value value
  rw [leftSize] at stored stored'
  simp only [copyPair, cursorsAt, loaded, loaded', stored, stored', Option.bind_eq_bind, Option.bind_some, List.length_append,
    List.length_singleton, Nat.cast_add, Nat.cast_one, Int.add_assoc, Int.add_sub_assoc]

theorem copyPair_two {left gap right middle : List Word} {first last old old' : Word}
    (split : values = before ++ first :: (middle ++ last :: after))
    (size : (left ++ old :: (gap ++ old' :: right)).length = values.length) (leftSize : left.length = before.length)
    (gapSize : gap.length = middle.length) :
    copyPair (cursorsAt heap arr dst before.length (before ++ first :: middle).length (left ++ old :: (gap ++ old' :: right))) =
      some (cursorsAt heap arr dst (before ++ [first]).length ((before ++ first :: middle).length - 1)
        (left ++ last :: (gap ++ first :: right))) := by
  have split' : values = (before ++ first :: middle) ++ last :: after := by rw [split]; simp
  have size' : (left ++ last :: (gap ++ old' :: right)).length = values.length := by simpa using size
  have loaded := load_source held apart split' size
  have loaded' := load_source held apart split size'
  have stored := heap.splice_store dst left (gap ++ old' :: right) old last
  have stored' := heap.splice_store dst (left ++ last :: gap) right old' first
  have place : (left ++ last :: gap).length = (before ++ first :: middle).length := by simp [leftSize, gapSize]
  rw [leftSize] at stored
  rw [place, List.append_assoc, List.append_assoc, List.cons_append, List.cons_append] at stored'
  simp only [copyPair, cursorsAt, loaded, loaded', stored, stored', Option.bind_eq_bind, Option.bind_some, Int.add_sub_assoc]
  simp only [List.length_append, List.length_singleton, Nat.cast_add, Nat.cast_one, Int.add_assoc]

/-- Where both loops of a step stop, unless one of them runs out of what is between the pointers. -/
theorem scans_run (fuel : Nat) {front core back left gapFront gapCore gapBack right : List Word}
    (split : values = before ++ (front ++ core ++ back) ++ after)
    (size : (left ++ (gapFront ++ gapCore ++ gapBack) ++ right).length = values.length)
    (leftSize : left.length = before.length) (frontSize : gapFront.length = front.length)
    (backSize : gapBack.length = back.length) (rightSize : right.length = after.length)
    (trimmed : Passed midVal front core back) (nonempty : front ++ core ++ back ≠ [])
    (still : ¬RunsOut (fun value => decide (value < midVal)) (fun value => decide (midVal < value)) before
      (front ++ core ++ back) after) (enough : values.length < fuel) :
    (copySmall fuel midVal (cursorsAt heap arr dst before.length ((before ++ (front ++ core ++ back)).length - 1)
        (left ++ (gapFront ++ gapCore ++ gapBack) ++ right))).bind (copyLarge fuel midVal) =
      some (cursorsAt heap arr dst (before ++ front).length ((before ++ front ++ core).length - 1)
        ((left ++ front) ++ gapCore ++ (back ++ right))) := by
  have lengths := congrArg List.length split
  simp only [List.length_append] at lengths size
  obtain ⟨stop, rest, ends, stops⟩ := trimmed.stopRight nonempty still
  obtain ⟨rest', stop', ends', stops'⟩ := trimmed.stopLeft (SortSpeed.apart midVal) nonempty still
  have small := copySmall_run held apart ((before ++ (front ++ core ++ back)).length - 1)
    (show values = before ++ front ++ stop :: rest by rw [split, ← ends]; simp)
    (show (left ++ gapFront ++ (gapCore ++ gapBack ++ right)).length = values.length by simp only [List.length_append]; omega)
    leftSize frontSize (fun value member => of_decide_eq_true (trimmed.passedFront value member)) (of_decide_eq_false stops)
    enough
  have large := copyLarge_run held apart (before ++ front).length
    (show values = rest' ++ stop' :: (back ++ after) by rw [split, List.append_cons, ← ends']; simp)
    (show (left ++ front ++ gapCore ++ gapBack ++ right).length = values.length by simp only [List.length_append]; omega)
    (show (left ++ front ++ gapCore).length = (rest' ++ [stop']).length by
      rw [← ends']
      simp only [List.length_append]
      omega)
    backSize (fun value member => of_decide_eq_true (trimmed.passedBack value member)) (of_decide_eq_false stops') enough
  have place : (rest'.length : Int) = (before ++ front ++ core).length - 1 := by
    rw [ends', List.length_append, List.length_singleton]
    omega
  rw [← ends', place] at large
  have start : left ++ (gapFront ++ gapCore ++ gapBack) ++ right = left ++ gapFront ++ (gapCore ++ gapBack ++ right) := by simp
  have middle : left ++ front ++ (gapCore ++ gapBack ++ right) = left ++ front ++ gapCore ++ gapBack ++ right := by simp
  have final : left ++ front ++ gapCore ++ back ++ right = left ++ front ++ gapCore ++ (back ++ right) := by simp
  have whole : before ++ (front ++ core ++ back) = before ++ front ++ core ++ back := by simp
  rw [start, small, Option.bind_some, whole, middle, large, final]

end

theorem povit2Step_eq (fuel : Nat) (midVal : Word) (cursors : Cursors) :
    povit2Step fuel midVal cursors = ((copySmall fuel midVal cursors).bind (copyLarge fuel midVal)).bind fun cursors =>
      if cursors.arrSrcL ≤ cursors.arrSrcR then copyPair cursors else some cursors :=
  (Option.bind_assoc _ _ _).symm

section
variable {heap : Heap Word} {arr dst left right : Int} {written : List Word} {midVal : Word}

theorem povit2Loop_crossed (scanFuel fuel : Nat) (crossed : right < left) :
    povit2Loop scanFuel midVal (fuel + 1) (cursorsAt heap arr dst left right written) =
      some (cursorsAt heap arr dst left right written) := by
  have stop : ¬arr + left ≤ arr + right := by omega
  simp [povit2Loop, whileLoop, cursorsAt, stop]

theorem povit2Loop_open (scanFuel fuel : Nat) {next : Cursors} (open_ : left ≤ right)
    (step : povit2Step scanFuel midVal (cursorsAt heap arr dst left right written) = some next) :
    povit2Loop scanFuel midVal (fuel + 1) (cursorsAt heap arr dst left right written) =
      povit2Loop scanFuel midVal fuel next := by
  have continues : (cursorsAt heap arr dst left right written).arrSrcL ≤ (cursorsAt heap arr dst left right written).arrSrcR :=
    Int.add_le_add_left open_ arr
  rw [povit2Loop, whileLoop, decide_eq_true continues]
  simp only [Option.bind_eq_bind, Option.bind_some, if_true, step]

end

/-- The output is a permutation of the input, with no element above the value before `left`, and none below it behind
`right`. -/
structure Parted (values : List Word) (midVal : Word) (out : List Word) (left right : Int) : Prop where
  perm : out.Perm values
  low : ∀ (index : Nat) (value : Word), out[index]? = some value → (index : Int) < left → value ≤ midVal
  high : ∀ (index : Nat) (value : Word), out[index]? = some value → right < (index : Int) → midVal ≤ value

theorem parted_of_pieces {values front middle back : List Word} {midVal : Word} (perm : (front ++ middle ++ back).Perm values)
    (low : ∀ value ∈ front, value ≤ midVal) (equal : ∀ value ∈ middle, value = midVal)
    (high : ∀ value ∈ back, midVal ≤ value) :
    Parted values midVal (front ++ middle ++ back) (front ++ middle).length (front.length - 1) := by
  constructor
  · exact perm
  · intro index value found before
    rw [List.getElem?_append_left (by omega)] at found
    rcases List.mem_append.mp (List.mem_of_getElem? found) with member | member
    · exact low value member
    · exact BitVec.le_of_eq (equal value member)
  · intro index value found behind
    rw [List.append_assoc, List.getElem?_append_right (by omega)] at found
    rcases List.mem_append.mp (List.mem_of_getElem? found) with member | member
    · exact BitVec.le_of_eq (equal value member).symm
    · exact high value member

theorem exists_two_pieces {gap first second : List Word} (size : gap.length = (first ++ second).length) :
    ∃ front back, gap = front ++ back ∧ front.length = first.length ∧ back.length = second.length := by
  rw [List.length_append] at size
  refine ⟨gap.take first.length, gap.drop first.length, (List.take_append_drop _ _).symm, ?_, ?_⟩
  · rw [List.length_take]
    omega
  · rw [List.length_drop]
    omega

theorem exists_pieces {gap first second third : List Word} (size : gap.length = (first ++ second ++ third).length) :
    ∃ front middle back, gap = front ++ middle ++ back ∧ front.length = first.length ∧ middle.length = second.length ∧
      back.length = third.length := by
  obtain ⟨rest, back, rfl, restSize, backSize⟩ := exists_two_pieces size
  obtain ⟨front, middle, rfl, frontSize, middleSize⟩ := exists_two_pieces restSize
  exact ⟨front, middle, back, rfl, frontSize, middleSize, backSize⟩

abbrev cursorsAround (heap : Heap Word) (arr dst : Int) (before mid written : List Word) : Cursors :=
  cursorsAt heap arr dst before.length ((before ++ mid).length - 1) written

/-- From the pointers around `mid` on, wherever the arrays are, the loop ends with `out` in `dst`. -/
def EndsWith (values : List Word) (midVal : Word) (before mid left right out : List Word) (first last : Int) : Prop :=
  ∀ (heap : Heap Word) (arr dst : Int) (gap : List Word) (scanFuel fuel : Nat), heap.Holds arr values →
    (arr + values.length ≤ dst ∨ dst + values.length ≤ arr) → gap.length = mid.length → values.length < scanFuel →
    mid.length < fuel →
    povit2Loop scanFuel midVal fuel (cursorsAround heap arr dst before mid (left ++ gap ++ right)) =
      some (cursorsAt heap arr dst first last out)

abbrev Amid (midVal : Word) : List Word → List Word → List Word → List Word → Prop :=
  Between (fun value => decide (value < midVal)) (fun value => decide (midVal < value))

section
variable {values before mid after left right front core back : List Word} {midVal : Word}
  (leftSize : left.length = before.length)
include leftSize

theorem endsWith_nil : EndsWith values midVal before [] left right (left ++ [] ++ right) (left ++ []).length (left.length - 1) := by
  intro heap arr dst gap scanFuel fuel held apart gapSize enoughScan enough
  obtain ⟨fuel, rfl⟩ := Nat.exists_eq_succ_of_ne_zero (Nat.ne_zero_of_lt enough)
  obtain rfl : gap = [] := List.eq_nil_of_length_eq_zero gapSize
  rw [cursorsAround, List.append_nil, List.append_nil, leftSize]
  exact povit2Loop_crossed scanFuel fuel (by omega)

variable (rightSize : right.length = after.length)
include rightSize

/-- The step that ends the loop: the pointers meet, at an occurrence of the value or between two elements. -/
theorem endsWith_short (between : Amid midVal values before (front ++ core ++ back) after)
    (trimmed : Passed midVal front core back) (nonempty : front ++ core ++ back ≠ [])
    (still : ¬RunsOut (fun value => decide (value < midVal)) (fun value => decide (midVal < value)) before
      (front ++ core ++ back) after) (short : core.length ≤ 1) :
    EndsWith values midVal before (front ++ core ++ back) left right ((left ++ front) ++ core ++ (back ++ right))
      ((left ++ front) ++ core).length ((left ++ front).length - 1) := by
  intro heap arr dst gap scanFuel fuel held apart gapSize enoughScan enough
  have some_ : 0 < (front ++ core ++ back).length := List.length_pos_of_ne_nil nonempty
  obtain ⟨fuel, rfl⟩ : ∃ more, fuel = more + 1 + 1 := ⟨fuel - 2, by omega⟩
  obtain ⟨gapFront, gapCore, gapBack, rfl, frontSize, coreSize, backSize⟩ := exists_pieces gapSize
  have total := congrArg List.length between.split
  have size : (left ++ (gapFront ++ gapCore ++ gapBack) ++ right).length = values.length := by
    simp only [List.length_append] at total ⊢
    omega
  have scans := scans_run held apart scanFuel between.split size leftSize frontSize backSize rightSize trimmed nonempty still
    enoughScan
  have place : (left ++ front).length = (before ++ front).length := by simp [leftSize]
  have open_ : (before.length : Int) ≤ (before ++ (front ++ core ++ back)).length - 1 := by
    rw [List.length_append]
    omega
  match core, short with
  | [], _ =>
    obtain rfl : gapCore = [] := List.eq_nil_of_length_eq_zero coreSize
    have step : povit2Step scanFuel midVal (cursorsAround heap arr dst before (front ++ [] ++ back)
        (left ++ (gapFront ++ [] ++ gapBack) ++ right)) =
        some (cursorsAt heap arr dst (before ++ front).length ((before ++ front ++ []).length - 1)
          ((left ++ front) ++ [] ++ (back ++ right))) := by
      rw [povit2Step_eq, scans, Option.bind_some, if_neg]
      simp [cursorsAt]
    rw [povit2Loop_open scanFuel (fuel + 1) open_ step, povit2Loop_crossed scanFuel fuel (by simp)]
    simp only [List.append_nil, place]
  | [value], _ =>
    obtain ⟨old, rfl⟩ := List.length_eq_one_iff.mp coreSize
    have step : povit2Step scanFuel midVal (cursorsAround heap arr dst before (front ++ [value] ++ back)
        (left ++ (gapFront ++ [old] ++ gapBack) ++ right)) =
        some (cursorsAt heap arr dst (before ++ front ++ [value]).length ((before ++ front).length - 1)
          ((left ++ front) ++ value :: (back ++ right))) := by
      have single : ((before ++ front ++ [value]).length : Int) - 1 = (before ++ front).length := by
        rw [List.length_append, List.length_singleton]
        omega
      rw [povit2Step_eq, scans, Option.bind_some, single, if_pos (by simp [cursorsAt]), List.append_assoc (left ++ front)]
      exact copyPair_one held apart (show values = before ++ front ++ value :: (back ++ after) by rw [between.split]; simp)
        (show ((left ++ front) ++ old :: (back ++ right)).length = values.length by
          simp only [List.length_append, List.length_cons, List.length_nil] at size ⊢
          omega) place
    have crossed : ((before ++ front).length : Int) - 1 < (before ++ front ++ [value]).length := by
      simp only [List.length_append, List.length_singleton]
      omega
    rw [povit2Loop_open scanFuel (fuel + 1) open_ step, povit2Loop_crossed scanFuel fuel crossed]
    simp [leftSize]

theorem povit2Loop_pair {heap : Heap Word} {arr dst : Int} {gap middle : List Word} {first last : Word} (scanFuel fuel : Nat)
    (held : heap.Holds arr values) (apart : arr + values.length ≤ dst ∨ dst + values.length ≤ arr)
    (gapSize : gap.length = (front ++ first :: (middle ++ [last]) ++ back).length) (enoughScan : values.length < scanFuel)
    (between : Amid midVal values before (front ++ first :: (middle ++ [last]) ++ back) after)
    (trimmed : Passed midVal front (first :: (middle ++ [last])) back)
    (still : ¬RunsOut (fun value => decide (value < midVal)) (fun value => decide (midVal < value)) before
      (front ++ first :: (middle ++ [last]) ++ back) after) :
    ∃ gapMiddle : List Word, gapMiddle.length = middle.length ∧
      povit2Loop scanFuel midVal (fuel + 1) (cursorsAround heap arr dst before (front ++ first :: (middle ++ [last]) ++ back)
          (left ++ gap ++ right)) =
        povit2Loop scanFuel midVal fuel (cursorsAround heap arr dst (before ++ front ++ [first]) middle
          ((left ++ front ++ [last]) ++ gapMiddle ++ first :: (back ++ right))) := by
  obtain ⟨gapFront, gapCore, gapBack, rfl, frontSize, coreSize, backSize⟩ := exists_pieces gapSize
  have total := congrArg List.length between.split
  have size : (left ++ (gapFront ++ gapCore ++ gapBack) ++ right).length = values.length := by
    simp only [List.length_append] at total ⊢
    omega
  have scans := scans_run held apart scanFuel between.split size leftSize frontSize backSize rightSize trimmed (by simp) still
    enoughScan
  obtain ⟨old, gapMiddle, old', rfl⟩ := exists_ends (show ¬gapCore.length ≤ 1 by rw [coreSize]; simp)
  have middleSize : gapMiddle.length = middle.length := by simpa using coreSize
  have place : (left ++ front).length = (before ++ front).length := by simp [leftSize]
  have pointer : ((before ++ front ++ first :: (middle ++ [last])).length : Int) - 1 =
      (before ++ front ++ first :: middle).length := by
    simp only [List.length_append, List.length_cons, List.length_nil]
    omega
  have crossing : (cursorsAt heap arr dst (before ++ front).length (before ++ front ++ first :: middle).length
      ((left ++ front) ++ old :: (gapMiddle ++ [old']) ++ (back ++ right))).arrSrcL ≤ (cursorsAt heap arr dst
      (before ++ front).length (before ++ front ++ first :: middle).length
      ((left ++ front) ++ old :: (gapMiddle ++ [old']) ++ (back ++ right))).arrSrcR := by
    simp [cursorsAt]
    omega
  have step : povit2Step scanFuel midVal (cursorsAround heap arr dst before (front ++ first :: (middle ++ [last]) ++ back)
      (left ++ (gapFront ++ old :: (gapMiddle ++ [old']) ++ gapBack) ++ right)) =
      some (cursorsAround heap arr dst (before ++ front ++ [first]) middle
        (left ++ front ++ [last] ++ gapMiddle ++ first :: (back ++ right))) := by
    have copied := copyPair_two held apart
      (show values = before ++ front ++ first :: (middle ++ last :: (back ++ after)) by rw [between.split]; simp)
      (show ((left ++ front) ++ old :: (gapMiddle ++ old' :: (back ++ right))).length = values.length by
        simp only [List.length_append, List.length_cons, List.length_nil] at size ⊢
        omega) place middleSize
    have written : (left ++ front) ++ old :: (gapMiddle ++ [old']) ++ (back ++ right) =
        (left ++ front) ++ old :: (gapMiddle ++ old' :: (back ++ right)) := by simp
    have written' : (left ++ front) ++ last :: (gapMiddle ++ first :: (back ++ right)) =
        left ++ front ++ [last] ++ gapMiddle ++ first :: (back ++ right) := by simp
    have pieces : before ++ front ++ first :: middle = before ++ front ++ [first] ++ middle := by simp
    rw [povit2Step_eq, scans, Option.bind_some, pointer, if_pos crossing, written, copied, written', pieces]
  have open_ : (before.length : Int) ≤ (before ++ (front ++ first :: (middle ++ [last]) ++ back)).length - 1 := by
    simp only [List.length_append, List.length_cons]
    omega
  exact ⟨gapMiddle, middleSize, povit2Loop_open scanFuel fuel open_ step⟩

end

section
variable {values before after left right front core back : List Word} {midVal : Word}
  (trimmed : Passed midVal front core back) (low : ∀ value ∈ left, value ≤ midVal) (high : ∀ value ∈ right, midVal ≤ value)
include trimmed

include low in
theorem low_passed : ∀ value ∈ left ++ front, value ≤ midVal :=
  List.forall_mem_append.mpr
    ⟨low, fun value member => BitVec.le_of_lt (of_decide_eq_true (trimmed.passedFront value member))⟩

include high in
theorem high_passed : ∀ value ∈ back ++ right, midVal ≤ value :=
  List.forall_mem_append.mpr
    ⟨fun value member => BitVec.le_of_lt (of_decide_eq_true (trimmed.passedBack value member)), high⟩

theorem stop_equal (short : core.length ≤ 1) (value : Word) (member : value ∈ core) : value = midVal := by
  obtain ⟨only, rfl⟩ : ∃ only, core = [only] := by
    match core, short, member with
    | [only], _, _ => exact ⟨only, rfl⟩
  rw [List.mem_singleton.mp member]
  exact BitVec.le_antisymm (BitVec.not_lt.mp (of_decide_eq_false (trimmed.stopBack only rfl)))
    (BitVec.not_lt.mp (of_decide_eq_false (trimmed.stopFront only rfl)))

include low high in
theorem parted_short (split : values = before ++ (front ++ core ++ back) ++ after)
    (perm : (left ++ right).Perm (before ++ after)) (short : core.length ≤ 1) :
    Parted values midVal (left ++ front ++ core ++ (back ++ right)) (left ++ front ++ core).length
      ((left ++ front).length - 1) := by
  refine parted_of_pieces ?_ (low_passed trimmed low) (stop_equal trimmed short) (high_passed trimmed high)
  rw [split, List.perm_iff_count]
  intro value
  have same := List.perm_iff_count.mp perm value
  simp only [List.count_append] at same ⊢
  omega

end

theorem exists_endsWith {values before mid after left right : List Word} {midVal : Word}
    (still : ¬Overruns (fun value => decide (value < midVal)) (fun value => decide (midVal < value)) values)
    (between : Amid midVal values before mid after) (leftSize : left.length = before.length)
    (rightSize : right.length = after.length) (perm : (left ++ right).Perm (before ++ after))
    (low : ∀ value ∈ left, value ≤ midVal) (high : ∀ value ∈ right, midVal ≤ value) :
    ∃ out first last, Parted values midVal out first last ∧ EndsWith values midVal before mid left right out first last := by
  induction size : mid.length using Nat.strong_induction_on generalizing before mid after left right with
  | _ count ih =>
  obtain ⟨front, core, back, rfl, trimmed⟩ := exists_trimmed (apart midVal) mid
  by_cases nonempty : front ++ core ++ back = []
  · rw [nonempty] at between ⊢
    refine ⟨_, _, _, parted_of_pieces ?_ low (by simp) high, endsWith_nil leftSize⟩
    rw [between.split]
    simpa using perm
  have still' := fun out => still (between.overruns out)
  by_cases short : core.length ≤ 1
  · exact ⟨_, _, _, parted_short trimmed low high between.split perm short,
      endsWith_short leftSize rightSize between trimmed nonempty still' short⟩
  · obtain ⟨first, middle, last, rfl⟩ := exists_ends short
    have stopFirst : midVal ≤ first := BitVec.not_lt.mp (of_decide_eq_false (trimmed.stopFront first rfl))
    have stopLast : last ≤ midVal := by
      refine BitVec.not_lt.mp (of_decide_eq_false (trimmed.stopBack last ?_))
      rw [← List.cons_append, List.getLast?_concat]
      rfl
    have perm' : ((left ++ front ++ [last]) ++ first :: (back ++ right)).Perm
        ((before ++ front ++ [first]) ++ last :: (back ++ after)) := by
      rw [List.perm_iff_count]
      intro value
      have same := List.perm_iff_count.mp perm value
      simp only [List.count_append, List.count_cons, List.count_nil] at same ⊢
      omega
    have shorter : middle.length < count := by
      simp only [List.length_append, List.length_cons] at size
      omega
    obtain ⟨out, final, final', parted, ends⟩ := ih middle.length shorter (between.next trimmed)
      (show (left ++ front ++ [last]).length = (before ++ front ++ [first]).length by simp [leftSize])
      (show (first :: (back ++ right)).length = (last :: (back ++ after)).length by simp [rightSize]) perm'
      (List.forall_mem_append.mpr ⟨low_passed trimmed low, by simpa using stopLast⟩)
      (List.forall_mem_cons.mpr ⟨stopFirst, high_passed trimmed high⟩) rfl
    refine ⟨out, final, final', parted, fun heap arr dst gap scanFuel fuel held apart gapSize enoughScan enough => ?_⟩
    obtain ⟨fuel, rfl⟩ : ∃ more, fuel = more + 1 := ⟨fuel - 1, by omega⟩
    obtain ⟨gapMiddle, middleSize, onward⟩ := povit2Loop_pair leftSize rightSize scanFuel fuel held apart gapSize enoughScan
      between trimmed still'
    refine onward.trans (ends heap arr dst gapMiddle scanFuel fuel held apart middleSize enoughScan ?_)
    simp only [List.length_append, List.length_cons] at enough
    omega

/-! The runs that overrun. -/

section
variable {heap : Heap Word} {arr dst : Int} {values before after written : List Word} {midVal : Word}

theorem copySmall_ends (fuel : Nat) (last : Int) (nothing : heap (arr + values.length) = none)
    (outside : Outside (arr + values.length) dst values.length) (size : written.length = values.length) :
    copySmall fuel midVal (cursorsAt heap arr dst values.length last written) = none := by
  have loaded : (heap.splice dst written).load (arr + values.length) = none := by
    rw [Heap.load, Heap.splice_outside (by rwa [size]), nothing]
  cases fuel with
  | zero => rfl
  | succ fuel => simp [copySmall, whileLoop, cursorsAt, loaded]

theorem copyLarge_ends (fuel : Nat) (first : Int) (nothing : heap (arr - 1) = none)
    (outside : Outside (arr - 1) dst values.length) (size : written.length = values.length) :
    copyLarge fuel midVal (cursorsAt heap arr dst first (-1) written) = none := by
  have loaded : (heap.splice dst written).load (arr + -1) = none := by
    rw [Heap.load, Heap.splice_outside (by rwa [size]), ← Int.sub_eq_add_neg, nothing]
  cases fuel with
  | zero => rfl
  | succ fuel => simp [copyLarge, whileLoop, cursorsAt, loaded]

theorem copySmall_overruns {fuel : Nat} {front gap left : List Word} (last : Int) (held : heap.Holds arr values)
    (apart : arr + values.length ≤ dst ∨ dst + values.length ≤ arr) (nothing : heap (arr + values.length) = none)
    (outside : Outside (arr + values.length) dst values.length) (split : values = before ++ front)
    (leftSize : left.length = before.length) (gapSize : gap.length = front.length)
    (passed : ∀ value ∈ front, value < midVal) (enough : values.length < fuel) :
    copySmall fuel midVal (cursorsAt heap arr dst before.length last (left ++ gap)) = none := by
  have total := congrArg List.length split
  rw [List.length_append] at total
  obtain ⟨more, rfl⟩ : ∃ more, fuel = front.length + more := ⟨fuel - front.length, by omega⟩
  rw [← List.append_nil (left ++ gap), copySmall_passes held apart more last (by rw [split, List.append_nil])
    (by simp only [List.length_append, List.length_nil]; omega) leftSize gapSize passed, ← split]
  exact copySmall_ends more last nothing outside (by simp only [List.length_append, List.length_nil]; omega)

/-- The loop on the right, with nothing before `arr` and nothing from its start that it stops at. -/
theorem copyLarge_overruns {fuel : Nat} {back gap right : List Word} (first : Int) (held : heap.Holds arr values)
    (apart : arr + values.length ≤ dst ∨ dst + values.length ≤ arr) (nothing : heap (arr - 1) = none)
    (outside : Outside (arr - 1) dst values.length) (split : values = back ++ after) (rightSize : right.length = after.length)
    (gapSize : gap.length = back.length) (passed : ∀ value ∈ back, midVal < value) (enough : values.length < fuel) :
    copyLarge fuel midVal (cursorsAt heap arr dst first (back.length - 1) (gap ++ right)) = none := by
  have total := congrArg List.length split
  rw [List.length_append] at total
  obtain ⟨more, rfl⟩ : ∃ more, fuel = back.length + more := ⟨fuel - back.length, by omega⟩
  have passes := @copyLarge_passes heap arr dst values [] after midVal held apart more back gap [] right first split
    (by simp only [List.length_append, List.length_nil]; omega) rfl gapSize passed
  simp only [List.nil_append] at passes
  rw [passes]
  exact copyLarge_ends more first nothing outside (by simp only [List.length_append]; omega)

end

def Strays (heap : Heap Word) (arr dst : Int) (values : List Word) (midVal : Word) (run : Option Cursors) : Prop :=
  ∀ final, run = some final → ∃ out first last, final = cursorsAt heap arr dst first last out ∧
    out.length = values.length ∧ ¬Parted values midVal out first last

theorem strays_crossed {heap : Heap Word} {arr dst left right : Int} {values written : List Word} {midVal : Word}
    (scanFuel fuel : Nat) (crossed : right < left) (size : written.length = values.length)
    (astray : ¬Parted values midVal written left right) :
    Strays heap arr dst values midVal (povit2Loop scanFuel midVal fuel (cursorsAt heap arr dst left right written)) := by
  intro final ran
  cases fuel with
  | zero => cases ran
  | succ fuel =>
    rw [povit2Loop_crossed scanFuel fuel crossed] at ran
    exact ⟨written, left, right, (Option.some.inj ran).symm, size, astray⟩

theorem strays_step {heap : Heap Word} {arr dst left right : Int} {values written : List Word} {midVal : Word}
    (scanFuel fuel : Nat) (open_ : left ≤ right)
    (step : povit2Step scanFuel midVal (cursorsAt heap arr dst left right written) = none ∨ ∃ out first last,
      povit2Step scanFuel midVal (cursorsAt heap arr dst left right written) = some (cursorsAt heap arr dst first last out) ∧
        last < first ∧ out.length = values.length ∧ ¬Parted values midVal out first last) :
    Strays heap arr dst values midVal (povit2Loop scanFuel midVal fuel (cursorsAt heap arr dst left right written)) := by
  cases fuel with
  | zero =>
    intro final ran
    cases ran
  | succ fuel =>
    rcases step with failed | ⟨out, first, last, ran, crossed, size, astray⟩
    · have continues : (cursorsAt heap arr dst left right written).arrSrcL ≤
          (cursorsAt heap arr dst left right written).arrSrcR := Int.add_le_add_left open_ arr
      have failed' : povit2Loop scanFuel midVal (fuel + 1) (cursorsAt heap arr dst left right written) = none := by
        rw [povit2Loop, whileLoop, decide_eq_true continues]
        simp only [Option.bind_eq_bind, Option.bind_some, if_true, failed, Option.bind_none]
      intro final ran
      rw [failed'] at ran
      cases ran
    · rw [povit2Loop_open scanFuel fuel open_ ran]
      exact strays_crossed scanFuel fuel crossed size astray

theorem Parted.not_high {values out : List Word} {midVal value : Word} {left right : Int} (index : Nat)
    (found : out[index]? = some value) (behind : right < index) (small : value < midVal) :
    ¬Parted values midVal out left right := fun parted =>
  absurd small (BitVec.not_lt.mpr (parted.high index value found behind))

theorem Parted.not_low {values out : List Word} {midVal value : Word} {left right : Int} (index : Nat)
    (found : out[index]? = some value) (before : (index : Int) < left) (large : midVal < value) :
    ¬Parted values midVal out left right := fun parted =>
  absurd large (BitVec.not_lt.mpr (parted.low index value found before))

section
variable {heap : Heap Word} {arr dst : Int} {values before after left gap right : List Word} {midVal : Word}

theorem povit2Step_passed {front more rest : List Word} {final stop : Word} {scanFuel : Nat} (held : heap.Holds arr values)
    (apart : arr + values.length ≤ dst ∨ dst + values.length ≤ arr)
    (split : values = before ++ (front ++ final :: more) ++ stop :: rest)
    (size : (left ++ gap ++ right).length = values.length) (leftSize : left.length = before.length)
    (gapSize : gap.length = (front ++ final :: more).length) (passed : ∀ value ∈ front ++ final :: more, value < midVal)
    (stops : ¬stop < midVal) (enough : values.length < scanFuel) :
    povit2Step scanFuel midVal (cursorsAt heap arr dst before.length (before ++ front).length (left ++ gap ++ right)) =
      some (cursorsAt heap arr dst (before ++ (front ++ final :: more)).length (before ++ front).length
        (left ++ (front ++ final :: more) ++ right)) := by
  have size' : (left ++ (front ++ final :: more) ++ right).length = values.length := by
    rw [← size]
    simp only [List.length_append, gapSize]
  have small := copySmall_run held apart (before ++ front).length split size leftSize gapSize passed stops enough
  have large := copyLarge_stops held apart (scanFuel - 1) (before ++ (front ++ final :: more)).length
    (show values = before ++ front ++ final :: (more ++ stop :: rest) by rw [split]; simp) size'
    (BitVec.not_lt.mpr (BitVec.le_of_lt (passed final (by simp))))
  rw [Nat.sub_add_cancel (by omega)] at large
  rw [povit2Step_eq, small, Option.bind_some, large, Option.bind_some, if_neg]
  simp only [cursorsAt, List.length_append, List.length_cons]
  omega

theorem povit2Step_passed_back {init more rest : List Word} {stop first : Word} {scanFuel : Nat} (held : heap.Holds arr values)
    (apart : arr + values.length ≤ dst ∨ dst + values.length ≤ arr)
    (split : values = init ++ stop :: (more ++ first :: rest ++ after))
    (size : (left ++ gap ++ right).length = values.length) (leftSize : left.length = (init ++ [stop]).length)
    (gapSize : gap.length = (more ++ first :: rest).length) (passed : ∀ value ∈ more ++ first :: rest, midVal < value)
    (stops : ¬midVal < stop) (enough : values.length < scanFuel) :
    povit2Step scanFuel midVal (cursorsAt heap arr dst (init ++ [stop] ++ more).length
        ((init ++ [stop] ++ (more ++ first :: rest)).length - 1) (left ++ gap ++ right)) =
      some (cursorsAt heap arr dst (init ++ [stop] ++ more).length init.length (left ++ (more ++ first :: rest) ++ right)) := by
  have small := copySmall_stops held apart (scanFuel - 1) ((init ++ [stop] ++ (more ++ first :: rest)).length - 1)
    (show values = init ++ [stop] ++ more ++ first :: (rest ++ after) by rw [split]; simp) size
    (BitVec.not_lt.mpr (BitVec.le_of_lt (passed first (by simp))))
  rw [Nat.sub_add_cancel (by omega)] at small
  have large := copyLarge_run held apart (init ++ [stop] ++ more).length split size leftSize gapSize passed stops enough
  rw [povit2Step_eq, small, Option.bind_some, large, Option.bind_some, if_neg]
  simp only [cursorsAt, List.length_append, List.length_singleton]
  omega

theorem povit2Step_overruns_back {more rest : List Word} {first : Word} {scanFuel : Nat} (held : heap.Holds arr values)
    (apart : arr + values.length ≤ dst ∨ dst + values.length ≤ arr) (nothing : heap (arr - 1) = none)
    (outside : Outside (arr - 1) dst values.length) (split : values = more ++ first :: rest ++ after)
    (rightSize : right.length = after.length) (gapSize : gap.length = (more ++ first :: rest).length)
    (passed : ∀ value ∈ more ++ first :: rest, midVal < value) (enough : values.length < scanFuel) :
    povit2Step scanFuel midVal
      (cursorsAt heap arr dst more.length ((more ++ first :: rest).length - 1) (gap ++ right)) = none := by
  have size : (gap ++ right).length = values.length := by
    simp only [split, List.length_append, gapSize, rightSize]
  have small := copySmall_stops held apart (scanFuel - 1) ((more ++ first :: rest).length - 1)
    (show values = more ++ first :: (rest ++ after) by rw [split]; simp) size
    (BitVec.not_lt.mpr (BitVec.le_of_lt (passed first (by simp))))
  rw [Nat.sub_add_cancel (by omega)] at small
  rw [povit2Step_eq, small, Option.bind_some,
    copyLarge_overruns _ held apart nothing outside split rightSize gapSize passed enough]
  rfl

end

theorem strays_right {heap : Heap Word} {arr dst : Int} {values before mid rest left gap right : List Word} {last midVal : Word}
    (scanFuel fuel : Nat) (held : heap.Holds arr values)
    (apart : arr + values.length ≤ dst ∨ dst + values.length ≤ arr) (nothing : heap (arr + values.length) = none)
    (outside : Outside (arr + values.length) dst values.length) (split : values = before ++ mid ++ last :: rest)
    (leftSize : left.length = before.length) (gapSize : gap.length = mid.length)
    (rightSize : right.length = (last :: rest).length) (nonempty : mid ≠ []) (passed : ∀ value ∈ mid, value < midVal)
    (beyond : last < midVal) (enough : values.length < scanFuel) :
    Strays heap arr dst values midVal
      (povit2Loop scanFuel midVal fuel (cursorsAround heap arr dst before mid (left ++ gap ++ right))) := by
  obtain ⟨more, others, rfl, passedMore, stops⟩ := exists_passed (fun value => decide (value < midVal)) rest
  obtain ⟨gapMore, gapOthers, rfl, moreSize, othersSize⟩ :=
    exists_two_pieces (show right.length = (last :: more ++ others).length by simpa using rightSize)
  obtain ⟨front, final, rfl⟩ := (List.eq_nil_or_concat mid).resolve_left nonempty
  rw [List.concat_eq_append] at *
  have all : ∀ value ∈ front ++ final :: (last :: more), value < midVal := by
    rw [List.append_cons front final]
    exact List.forall_mem_append.mpr
      ⟨passed, List.forall_mem_cons.mpr ⟨beyond, fun value member => of_decide_eq_true (passedMore value member)⟩⟩
  have gaps : (gap ++ gapMore).length = (front ++ final :: (last :: more)).length := by
    simp only [List.length_append, List.length_cons, List.length_nil] at gapSize moreSize ⊢
    omega
  have place : ((before ++ (front ++ [final])).length : Int) - 1 = (before ++ front).length := by
    simp only [List.length_append, List.length_singleton]
    omega
  have start : left ++ gap ++ (gapMore ++ gapOthers) = left ++ (gap ++ gapMore) ++ gapOthers := by simp
  unfold cursorsAround
  rw [place, start]
  apply strays_step scanFuel fuel
  · simp only [List.length_append]
    omega
  cases others with
  | nil =>
    left
    obtain rfl : gapOthers = [] := List.eq_nil_of_length_eq_zero othersSize
    rw [povit2Step_eq, List.append_nil,
      copySmall_overruns _ held apart nothing outside (by rw [split]; simp) leftSize gaps all enough]
    rfl
  | cons stop others =>
    right
    have whole : values = before ++ (front ++ final :: (last :: more)) ++ stop :: others := by rw [split]; simp
    have total := congrArg List.length whole
    simp only [List.length_append, List.length_cons] at total othersSize gaps
    refine ⟨_, _, _, povit2Step_passed held apart whole ?_ leftSize (by simp only [List.length_append, List.length_cons, gaps]) all
      (of_decide_eq_false (stops stop rfl)) enough, ?_, ?_, ?_⟩
    · simp only [List.length_append]
      omega
    · simp only [List.length_append, List.length_cons]
      omega
    · simp only [List.length_append, List.length_cons]
      omega
    · exact Parted.not_high (left ++ (front ++ [final])).length (by simp)
        (by simp only [List.length_append, List.length_singleton]; omega) beyond

theorem strays_left {heap : Heap Word} {arr dst : Int} {values init mid after left gap right : List Word} {first midVal : Word}
    (scanFuel fuel : Nat) (held : heap.Holds arr values)
    (apart : arr + values.length ≤ dst ∨ dst + values.length ≤ arr) (nothing : heap (arr - 1) = none)
    (outside : Outside (arr - 1) dst values.length) (split : values = init ++ [first] ++ mid ++ after)
    (leftSize : left.length = (init ++ [first]).length) (gapSize : gap.length = mid.length)
    (rightSize : right.length = after.length) (nonempty : mid ≠ []) (passed : ∀ value ∈ mid, midVal < value)
    (beyond : midVal < first) (enough : values.length < scanFuel) :
    Strays heap arr dst values midVal
      (povit2Loop scanFuel midVal fuel (cursorsAround heap arr dst (init ++ [first]) mid (left ++ gap ++ right))) := by
  obtain ⟨others, more, rfl, passedMore, stops⟩ := exists_passed_back (fun value => decide (midVal < value)) init
  obtain ⟨gapOthers, gapMore, rfl, othersSize, moreSize⟩ :=
    exists_two_pieces (show left.length = (others ++ (more ++ [first])).length by simpa using leftSize)
  obtain ⟨middle, mid, rfl⟩ := List.exists_cons_of_ne_nil nonempty
  have all : ∀ value ∈ (more ++ [first]) ++ middle :: mid, midVal < value := List.forall_mem_append.mpr
    ⟨List.forall_mem_append.mpr ⟨fun value member => of_decide_eq_true (passedMore value member), by simpa using beyond⟩, passed⟩
  have gaps : (gapMore ++ gap).length = ((more ++ [first]) ++ middle :: mid).length := by
    rw [List.length_append, List.length_append, gapSize, moreSize]
  have total := congrArg List.length split
  simp only [List.length_append, List.length_cons, List.length_nil] at total moreSize othersSize gapSize
  have size : (gapOthers ++ (gapMore ++ gap) ++ right).length = values.length := by
    simp only [List.length_append]
    omega
  have start : gapOthers ++ gapMore ++ gap ++ right = gapOthers ++ (gapMore ++ gap) ++ right := by simp
  have pieces : others ++ more ++ [first] ++ middle :: mid = others ++ ((more ++ [first]) ++ middle :: mid) := by simp
  unfold cursorsAround
  rw [start, pieces]
  apply strays_step scanFuel fuel
  · simp only [List.length_append, List.length_cons]
    omega
  rcases List.eq_nil_or_concat others with rfl | ⟨others, stop, rfl⟩
  · left
    obtain rfl : gapOthers = [] := List.eq_nil_of_length_eq_zero othersSize
    simp only [List.nil_append]
    exact povit2Step_overruns_back held apart nothing outside (by rw [split]; simp) rightSize gaps all enough
  · right
    rw [List.concat_eq_append] at *
    have whole : values = others ++ stop :: ((more ++ [first]) ++ middle :: mid ++ after) := by rw [split]; simp
    have step := povit2Step_passed_back held apart whole size (by simpa using othersSize) gaps all
      (of_decide_eq_false (stops stop (by simp))) enough
    rw [← List.append_assoc (others ++ [stop]) more [first]] at step
    refine ⟨_, _, _, step, ?_, ?_, ?_⟩
    · simp only [List.length_append, List.length_singleton]
      omega
    · simp only [List.length_append, List.length_cons] at gaps size ⊢
      omega
    · exact Parted.not_low (gapOthers ++ more).length (by simp)
        (by simp only [List.length_append, List.length_singleton] at othersSize ⊢; omega) beyond

/-- Where a scan overruns and nothing is allocated next to `arr`, the loop fails or does not part the values. -/
theorem povit2Loop_strays {heap : Heap Word} {arr dst : Int} {values before mid after left gap right : List Word} {midVal : Word}
    (scanFuel fuel : Nat)
    (overruns : Overruns (fun value => decide (value < midVal)) (fun value => decide (midVal < value)) values)
    (held : heap.Holds arr values) (apart : arr + values.length ≤ dst ∨ dst + values.length ≤ arr)
    (behind : heap (arr + values.length) = none) (outside : Outside (arr + values.length) dst values.length)
    (ahead : heap (arr - 1) = none) (outside' : Outside (arr - 1) dst values.length)
    (between : Amid midVal values before mid after) (leftSize : left.length = before.length)
    (gapSize : gap.length = mid.length) (rightSize : right.length = after.length) (enough : values.length < scanFuel) :
    Strays heap arr dst values midVal
      (povit2Loop scanFuel midVal fuel (cursorsAround heap arr dst before mid (left ++ gap ++ right))) := by
  induction fuel generalizing before mid after left gap right with
  | zero =>
    intro final ran
    cases ran
  | succ fuel ih =>
    by_cases out : RunsOut (fun value => decide (value < midVal)) (fun value => decide (midVal < value)) before mid after
    · obtain ⟨nonempty, ⟨passed, beyond⟩ | ⟨passed, beyond⟩⟩ := out
      · rcases between.ends with ⟨-, -, value, member, notBelow, -⟩ | ⟨-, last, rest, rfl, -⟩
        · exact absurd (passed value member) (by simp [notBelow])
        · exact strays_right scanFuel (fuel + 1) held apart behind outside between.split leftSize gapSize rightSize nonempty
            (fun value member => of_decide_eq_true (passed value member)) (of_decide_eq_true (beyond last rfl)) enough
      · rcases between.ends with ⟨-, -, value, member, -, notAbove⟩ | ⟨⟨init, first, rfl, -⟩, -⟩
        · exact absurd (passed value member) (by simp [notAbove])
        · exact strays_left scanFuel (fuel + 1) held apart ahead outside' between.split leftSize gapSize rightSize nonempty
            (fun value member => of_decide_eq_true (passed value member))
            (of_decide_eq_true (beyond first (by simp))) enough
    · obtain ⟨front, core, back, rfl, trimmed⟩ := exists_trimmed (SortSpeed.apart midVal) mid
      have long := (between.runsOut_or_core overruns rfl trimmed.passedFront trimmed.passedBack).resolve_left out
      obtain ⟨first, middle, last, rfl⟩ := exists_ends (Nat.not_le.mpr long)
      obtain ⟨gapMiddle, middleSize, onward⟩ := povit2Loop_pair leftSize rightSize scanFuel fuel held apart gapSize enough
        between trimmed out
      rw [onward]
      exact ih (between.next trimmed) (by simp [leftSize]) middleSize (by simp [rightSize])

theorem measurePovit2_eq {heap : Heap Word} {arr dst : Int} {values written : List Word} {midVal : Word} (fuel : Nat)
    (held : heap.Holds arr values) (heldDst : heap.Holds dst written)
    (middle : values[values.length / 2]? = some midVal) :
    measurePovit2 fuel heap arr dst values.length =
      povit2Loop fuel midVal fuel (cursorsAround heap arr dst [] values ([] ++ written ++ [])) := by
  obtain ⟨inside, rfl⟩ := List.getElem?_eq_some_iff.mp middle
  have loaded := held.load (values.length / 2) inside
  have start : cursorsAround heap arr dst [] values ([] ++ written ++ []) =
      { heap, arrSrcL := arr, arrSrcR := arr + values.length - 1, arrDstL := dst, arrDstR := dst + values.length - 1 } := by
    simp [cursorsAround, cursorsAt, heldDst.splice_eq, Int.add_sub_assoc]
  rw [measurePovit2, loaded, start]
  rfl

/-- Wherever the arrays are, and whatever else is allocated or not, `measurePovit2` leaves `dst` the partition of `arr`
around its middle element, and memory as it was elsewhere. -/
def PartsCopy (values : List Word) : Prop :=
  ∃ midVal out first last, values[values.length / 2]? = some midVal ∧ Parted values midVal out first last ∧
    ∀ (heap : Heap Word) (arr dst : Int) (fuel : Nat), heap.Holds arr values → heap.Allocated dst values.length →
      (arr + values.length ≤ dst ∨ dst + values.length ≤ arr) → values.length < fuel →
      measurePovit2 fuel heap arr dst values.length =
        some { heap := heap.splice dst out, arrSrcL := arr + first, arrSrcR := arr + last,
               arrDstL := dst + first, arrDstR := dst + last }

def gapped (values : List Word) : Heap Word :=
  (Heap.splice Heap.empty 0 values).splice (values.length + 1) (List.replicate values.length 0)

theorem gapped_outside {values : List Word} {cell : Int} (outside : Outside cell 0 values.length)
    (outside' : Outside cell (values.length + 1) values.length) : gapped values cell = none := by
  rw [gapped, Heap.splice_outside (by rwa [List.length_replicate]), Heap.splice_outside outside]
  rfl

/-- `measurePovit2` parts the copy exactly of the arrays on which no scan overruns. -/
theorem measurePovit2_parts_iff (values : List Word) (nonempty : 1 ≤ values.length) :
    PartsCopy values ↔ ∀ midVal, values[values.length / 2]? = some midVal →
      ¬Overruns (fun value => decide (value < midVal)) (fun value => decide (midVal < value)) values := by
  have occurs (midVal : Word) (middle : values[values.length / 2]? = some midVal) : Amid midVal values [] values [] := by
    constructor
    · simp
    · rfl
    · exact Or.inl ⟨rfl, rfl, midVal, List.mem_of_getElem? middle, decide_eq_false (BitVec.lt_irrefl _),
        decide_eq_false (BitVec.lt_irrefl _)⟩
  constructor
  · intro ⟨midVal, out, first, last, middle, parted, runs⟩ midVal' middle' overruns
    obtain rfl : midVal = midVal' := Option.some.inj (middle.symm.trans middle')
    have held : (gapped values).Holds 0 values := Heap.holds_splice_self.splice_disjoint (Or.inl (by omega))
    have heldDst : (gapped values).Holds (values.length + 1) (List.replicate values.length 0) := Heap.holds_splice_self
    have ran := runs (gapped values) 0 (values.length + 1) (values.length + 1) held (by simpa using heldDst.allocated)
      (Or.inl (by omega)) (by omega)
    rw [measurePovit2_eq _ held heldDst middle] at ran
    obtain ⟨out', first', last', same, size, astray⟩ := povit2Loop_strays (values.length + 1) (values.length + 1) overruns held
      (Or.inl (by omega)) (gapped_outside (by omega) (by omega)) (Or.inl (by omega)) (gapped_outside (by omega) (by omega))
      (Or.inl (by omega)) (occurs midVal middle) rfl (List.length_replicate) rfl (Nat.lt_succ_self _) _ ran
    rw [cursorsAt, Cursors.mk.injEq] at same
    obtain ⟨sameHeap, sameFirst, sameLast, -, -⟩ := same
    have heldOut : ((gapped values).splice (values.length + 1) out).Holds (values.length + 1) out := Heap.holds_splice_self
    have heldOut' : ((gapped values).splice (values.length + 1) out').Holds (values.length + 1) out' :=
      Heap.holds_splice_self
    rw [sameHeap] at heldOut
    obtain rfl : out = out' := heldOut.unique heldOut' (parted.perm.length_eq.trans size.symm)
    obtain rfl : first = first' := by omega
    obtain rfl : last = last' := by omega
    exact astray parted
  · intro still
    have inside : values.length / 2 < values.length := by omega
    have middle : values[values.length / 2]? = some values[values.length / 2] := List.getElem?_eq_getElem inside
    obtain ⟨out, first, last, parted, ends⟩ := exists_endsWith (still _ middle) (occurs _ middle)
      (show [].length = [].length from rfl) rfl (List.Perm.refl _) (fun _ member => absurd member List.not_mem_nil)
      (fun _ member => absurd member List.not_mem_nil)
    refine ⟨_, out, first, last, middle, parted, fun heap arr dst fuel held allocated apart enough => ?_⟩
    obtain ⟨written, size, heldDst⟩ := allocated.exists_holds
    rw [measurePovit2_eq fuel held heldDst middle]
    exact ends heap arr dst written fuel fuel held apart size enough enough

theorem measurePovit2_parts_iff_three :
    PartsCopy [3, 1, 2] ↔ ∀ midVal, ([3, 1, 2] : List Word)[3 / 2]? = some midVal →
      ¬Overruns (fun value => decide (value < midVal)) (fun value => decide (midVal < value)) [3, 1, 2] :=
  measurePovit2_parts_iff [3, 1, 2] (by decide)

/-- Of five elements the fourth and the fifth are less than the middle one, which has been copied away: the loop on the left
goes on behind the array. -/
theorem measurePovit2_overruns :
    measurePovit2 6 (gapped [1, 1, 5, 1, 1]) 0 6 5 = none ∧ ¬PartsCopy [1, 1, 5, 1, 1] := by
  have failed : (measurePovit2 6 (gapped [1, 1, 5, 1, 1]) 0 6 5).isNone = true := by decide
  rw [Option.isNone_iff_eq_none] at failed
  refine ⟨failed, fun ⟨midVal, out, first, last, middle, parted, runs⟩ => ?_⟩
  have ran := runs (gapped [1, 1, 5, 1, 1]) 0 6 6 (Heap.holds_splice_self.splice_disjoint (Or.inl (by decide)))
    (Heap.holds_splice_self.allocated) (Or.inl (by decide)) (by decide)
  have nothing := failed.symm.trans ran
  cases nothing

end Mbench.SortSpeed
