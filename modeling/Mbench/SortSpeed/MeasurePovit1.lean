import Mbench.Library.Overruns
import Mbench.SortSpeed.PartitionSlices

/-! `measurePovit1` of `sortSpeed.cpp`: one pass over an array that copies what is below its middle element to one end of another
array, and what is above it to the other end. -/

namespace Mbench.SortSpeed
open Library

structure Pointers where
  heap : Heap Word
  arrSrc : Int
  arrDstL : Int
  arrDstR : Int

def povit1Step (midVal : Word) (pointers : Pointers) : Option Pointers := do
  let value ← pointers.heap.load pointers.arrSrc
  if value < midVal then
    let heap ← pointers.heap.store pointers.arrDstL value
    some { pointers with heap, arrDstL := pointers.arrDstL + 1, arrSrc := pointers.arrSrc + 1 }
  else if midVal < value then
    let heap ← pointers.heap.store pointers.arrDstR value
    some { pointers with heap, arrDstR := pointers.arrDstR - 1, arrSrc := pointers.arrSrc + 1 }
  else some { pointers with arrSrc := pointers.arrSrc + 1 }

def povit1Loop (midVal : Word) (stop : Int) : Nat → Pointers → Option Pointers :=
  whileLoop (fun pointers => some (pointers.arrSrc < stop)) (povit1Step midVal)

/-- `measurePovit1` without its clock, with fuel for its loop. -/
def measurePovit1 (fuel : Nat) (heap : Heap Word) (arr dst : Int) (nLen : Nat) : Option Pointers := do
  let midVal ← heap.load (arr + (nLen / 2 : Nat))
  povit1Loop midVal (arr + nLen) fuel { heap, arrSrc := arr, arrDstL := dst, arrDstR := dst + nLen - 1 }

/-! What has been read decides what is where. -/

def smaller (midVal : Word) (values : List Word) : List Word := values.filter fun value => decide (value < midVal)

def larger (midVal : Word) (values : List Word) : List Word := values.filter fun value => decide (midVal < value)

def middleSlots (midVal : Word) (read old : List Word) : List Word :=
  (old.drop (smaller midVal read).length).take (old.length - (smaller midVal read).length - (larger midVal read).length)

def copied (midVal : Word) (read old : List Word) : List Word :=
  smaller midVal read ++ middleSlots midVal read old ++ (larger midVal read).reverse

def pointersAt (heap : Heap Word) (arr dst : Int) (midVal : Word) (read old : List Word) : Pointers where
  heap := heap.splice dst (copied midVal read old)
  arrSrc := arr + read.length
  arrDstL := dst + (smaller midVal read).length
  arrDstR := dst + old.length - 1 - (larger midVal read).length

section
variable {heap : Heap Word} {arr dst : Int} {values read rest old : List Word} {midVal value : Word}

theorem smaller_concat (midVal value : Word) (read : List Word) :
    smaller midVal (read ++ [value]) = smaller midVal read ++ if value < midVal then [value] else [] := by
  rw [smaller, List.filter_append, List.filter_singleton]
  simp [smaller]

theorem larger_concat (midVal value : Word) (read : List Word) :
    larger midVal (read ++ [value]) = larger midVal read ++ if midVal < value then [value] else [] := by
  rw [larger, List.filter_append, List.filter_singleton]
  simp [larger]

theorem smaller_larger_count (midVal : Word) (values : List Word) :
    (smaller midVal values).length + (larger midVal values).length + values.count midVal = values.length := by
  induction values using List.reverseRecOn with
  | nil => simp [smaller, larger]
  | append_singleton read value ih =>
    rw [smaller_concat, larger_concat, List.length_append, List.length_append, List.length_append, List.length_singleton,
      List.count_append, List.count_singleton]
    by_cases low : value < midVal
    · have other : ¬value = midVal := fun same => BitVec.lt_irrefl midVal (same ▸ low)
      simp [low, BitVec.lt_asymm low, other]
      omega
    by_cases high : midVal < value
    · have other : ¬value = midVal := fun same => BitVec.lt_irrefl midVal (same ▸ high)
      simp [low, high, other]
      omega
    · have same : value = midVal := BitVec.le_antisymm (BitVec.not_lt.mp high) (BitVec.not_lt.mp low)
      simp [same]
      omega

theorem middleSlots_length (midVal : Word) (read old : List Word) :
    (middleSlots midVal read old).length = old.length - (smaller midVal read).length - (larger midVal read).length := by
  rw [middleSlots, List.length_take, List.length_drop]
  omega

theorem middleSlots_low (low : value < midVal) (room : read.length < old.length) :
    ∃ slot, middleSlots midVal read old = slot :: middleSlots midVal (read ++ [value]) old := by
  have bound := smaller_larger_count midVal read
  have inside : (smaller midVal read).length < old.length := by omega
  refine ⟨old[(smaller midVal read).length], ?_⟩
  rw [middleSlots, middleSlots, smaller_concat, larger_concat, if_pos low, if_neg (BitVec.lt_asymm low), List.append_nil, List.length_append,
    List.length_singleton, List.drop_eq_getElem_cons inside,
    show old.length - (smaller midVal read).length - (larger midVal read).length =
      old.length - ((smaller midVal read).length + 1) - (larger midVal read).length + 1 by omega, List.take_succ_cons]

theorem middleSlots_high (high : midVal < value) (room : read.length < old.length) :
    ∃ slot, middleSlots midVal read old = middleSlots midVal (read ++ [value]) old ++ [slot] := by
  have bound := smaller_larger_count midVal read
  have inside : old.length - (smaller midVal read).length - ((larger midVal read).length + 1) <
      (old.drop (smaller midVal read).length).length := by
    rw [List.length_drop]
    omega
  refine ⟨(old.drop (smaller midVal read).length)[old.length - (smaller midVal read).length - ((larger midVal read).length + 1)], ?_⟩
  rw [middleSlots, middleSlots, smaller_concat, larger_concat, if_pos high, if_neg (BitVec.lt_asymm high), List.append_nil, List.length_append,
    List.length_singleton,
    show old.length - (smaller midVal read).length - (larger midVal read).length =
      old.length - (smaller midVal read).length - ((larger midVal read).length + 1) + 1 by omega, List.take_add_one,
    List.getElem?_eq_getElem inside, Option.toList_some]

theorem copied_length (midVal : Word) (read old : List Word) (room : read.length ≤ old.length) :
    (copied midVal read old).length = old.length := by
  have bound := smaller_larger_count midVal read
  rw [copied, List.length_append, List.length_append, List.length_reverse, middleSlots_length]
  omega

/-- A smaller element goes to the first of the places between. -/
theorem copied_low (low : value < midVal) (room : read.length < old.length) :
    ∃ slot rest, copied midVal read old = smaller midVal read ++ slot :: rest ∧
      copied midVal (read ++ [value]) old = smaller midVal read ++ value :: rest := by
  obtain ⟨slot, first⟩ := middleSlots_low low room
  refine ⟨slot, middleSlots midVal (read ++ [value]) old ++ (larger midVal read).reverse, ?_, ?_⟩
  · rw [copied, first, List.append_assoc, List.cons_append]
  · rw [copied, smaller_concat, larger_concat, if_pos low, if_neg (BitVec.lt_asymm low), List.append_nil, List.append_assoc,
      List.append_assoc, List.singleton_append]

/-- A larger one goes to the last of them. -/
theorem copied_high (high : midVal < value) (room : read.length < old.length) :
    ∃ front slot, copied midVal read old = front ++ slot :: (larger midVal read).reverse ∧
      copied midVal (read ++ [value]) old = front ++ value :: (larger midVal read).reverse ∧
      front.length + 1 + (larger midVal read).length = old.length := by
  have low : ¬value < midVal := BitVec.lt_asymm high
  obtain ⟨slot, last⟩ := middleSlots_high high room
  have whole := copied_length midVal read old room.le
  have before : copied midVal read old =
      smaller midVal read ++ middleSlots midVal (read ++ [value]) old ++ slot :: (larger midVal read).reverse := by
    rw [copied, last, ← List.append_assoc, List.append_assoc _ [slot], List.singleton_append]
  refine ⟨smaller midVal read ++ middleSlots midVal (read ++ [value]) old, slot, before, ?_, ?_⟩
  · rw [copied, smaller_concat, larger_concat, if_neg low, if_pos high, List.append_nil, List.reverse_append, List.reverse_singleton,
      List.singleton_append]
  · rw [before, List.length_append, List.length_cons, List.length_reverse] at whole
    omega

theorem povit1Step_at (held : heap.Holds arr values) (apart : arr + values.length ≤ dst ∨ dst + values.length ≤ arr)
    (split : values = read ++ value :: rest) (size : old.length = values.length) :
    povit1Step midVal (pointersAt heap arr dst midVal read old) = some (pointersAt heap arr dst midVal (read ++ [value]) old) := by
  have room : read.length < old.length := by
    rw [size, split, List.length_append, List.length_cons]
    omega
  have whole : (copied midVal read old).length = values.length := (copied_length midVal read old room.le).trans size
  have loaded : (heap.splice dst (copied midVal read old)).load (arr + read.length) = some value := by
    have same := held.splice_disjoint (by rwa [whole])
    rw [split] at same
    exact (Heap.holds_cons.mp (Heap.holds_append.mp same).2).1
  unfold povit1Step
  simp only [pointersAt, loaded, Option.bind_eq_bind, Option.bind_some, List.length_append, List.length_singleton, Nat.cast_add,
    Nat.cast_one, ← Int.add_assoc]
  by_cases low : value < midVal
  · obtain ⟨slot, others, before, after⟩ := copied_low low room
    rw [if_pos low, before, heap.splice_store, Option.bind_some, ← after, smaller_concat, larger_concat, if_pos low,
      if_neg (BitVec.lt_asymm low), List.append_nil, List.length_append, List.length_singleton, Nat.cast_add, Nat.cast_one,
      Int.add_assoc, Int.add_assoc dst]
  by_cases high : midVal < value
  · obtain ⟨front, slot, before, after, fits⟩ := copied_high high room
    have at_ : dst + old.length - 1 - (larger midVal read).length = dst + front.length := by omega
    rw [if_neg low, if_pos high, at_, before, heap.splice_store, Option.bind_some, ← after, ← at_, smaller_concat, larger_concat,
      if_neg low, if_pos high, List.append_nil, List.length_append, List.length_singleton, Nat.cast_add, Nat.cast_one, Int.sub_sub]
  · have same : copied midVal (read ++ [value]) old = copied midVal read old := by
      rw [copied, copied, middleSlots, middleSlots, smaller_concat, larger_concat, if_neg low, if_neg high, List.append_nil, List.append_nil]
    rw [if_neg low, if_neg high, same, smaller_concat, larger_concat, if_neg low, if_neg high, List.append_nil, List.append_nil]

theorem povit1Loop_done {stop : Int} {pointers : Pointers} (fuel : Nat) (through : stop ≤ pointers.arrSrc) :
    povit1Loop midVal stop (fuel + 1) pointers = some pointers := by
  simp [povit1Loop, whileLoop, through]

theorem povit1Loop_open {stop : Int} {pointers next : Pointers} (fuel : Nat) (inside : pointers.arrSrc < stop)
    (stepped : povit1Step midVal pointers = some next) :
    povit1Loop midVal stop (fuel + 1) pointers = povit1Loop midVal stop fuel next := by
  simp [povit1Loop, whileLoop, inside, stepped]

theorem povit1Loop_at (midVal : Word) (held : heap.Holds arr values)
    (apart : arr + values.length ≤ dst ∨ dst + values.length ≤ arr) (split : values = read ++ rest)
    (size : old.length = values.length) (more : Nat) :
    povit1Loop midVal (arr + values.length) (rest.length + more + 1) (pointersAt heap arr dst midVal read old) =
      some (pointersAt heap arr dst midVal values old) := by
  induction rest generalizing read with
  | nil =>
    rw [List.append_nil] at split
    subst split
    exact povit1Loop_done _ (Int.le_refl (arr + values.length))
  | cons value rest ih =>
    have inside : arr + (read.length : Int) < arr + values.length := by
      rw [split, List.length_append, List.length_cons]
      omega
    rw [List.length_cons, Nat.add_right_comm rest.length 1, povit1Loop_open _ inside (povit1Step_at held apart split size)]
    exact ih (by rw [split, List.append_assoc, List.singleton_append])

theorem pointersAt_nil (heap : Heap Word) (arr dst : Int) (midVal : Word) {old : List Word} (there : heap.Holds dst old) :
    pointersAt heap arr dst midVal [] old = { heap, arrSrc := arr, arrDstL := dst, arrDstR := dst + old.length - 1 } := by
  have nothing : copied midVal [] old = old := by simp [copied, middleSlots, smaller, larger]
  rw [pointersAt, nothing, there.splice_eq]
  simp [smaller, larger]

end

/-- The pass ends with what is below the middle element at the one end, in its order, what is above it at the other end, in the
reverse order, and as many slots between them as there are elements equal to it, with what they held. -/
theorem measurePovit1_filters (heap : Heap Word) (arr dst : Int) (values old : List Word) (midVal : Word)
    (middle : values[values.length / 2]? = some midVal) (held : heap.Holds arr values) (there : heap.Holds dst old)
    (size : old.length = values.length) (apart : arr + values.length ≤ dst ∨ dst + values.length ≤ arr) (fuel : Nat)
    (enough : values.length < fuel) :
    ∃ final, measurePovit1 fuel heap arr dst values.length = some final ∧
      final.heap.Holds dst (smaller midVal values ++ middleSlots midVal values old ++ (larger midVal values).reverse) ∧
      (middleSlots midVal values old).length = values.count midVal ∧
      final.arrDstL = dst + (smaller midVal values).length ∧ final.arrDstR = dst + values.length - 1 - (larger midVal values).length ∧
      ∀ cell, Outside cell dst values.length → final.heap cell = heap cell := by
  obtain ⟨inside, value⟩ := List.getElem?_eq_some_iff.mp middle
  have loaded : heap.load (arr + (values.length / 2 : Nat)) = some midVal := (held.load _ inside).trans (congrArg some value)
  obtain ⟨more, rfl⟩ := Nat.exists_eq_add_of_lt enough
  have looped := povit1Loop_at midVal held apart (List.nil_append values).symm size more
  have counted := smaller_larger_count midVal values
  have keeps : (middleSlots midVal values old).length = values.count midVal := by
    rw [middleSlots_length]
    omega
  have whole : (copied midVal values old).length = values.length := by
    rw [copied, List.length_append, List.length_append, List.length_reverse, keeps]
    omega
  refine ⟨pointersAt heap arr dst midVal values old, ?_, Heap.holds_splice_self, keeps, rfl, by rw [pointersAt, size],
    fun cell outside => Heap.splice_outside (whole ▸ outside)⟩
  rw [measurePovit1, loaded, Option.bind_eq_bind, Option.bind_some, ← size, ← pointersAt_nil heap arr dst midVal there, size]
  exact looped

theorem measurePovit1_filters_three :
    ∃ final, measurePovit1 4 (Heap.splice (Heap.splice Heap.empty 0 [9, 5, 1]) 8 [7, 7, 7]) 0 8 3 = some final ∧
      final.heap.Holds 8 (smaller 5 [9, 5, 1] ++ middleSlots 5 [9, 5, 1] [7, 7, 7] ++ (larger 5 [9, 5, 1]).reverse) ∧
      (middleSlots 5 [9, 5, 1] [7, 7, 7]).length = [9, 5, 1].count (5 : Word) ∧
      final.arrDstL = 8 + (smaller 5 [9, 5, 1]).length ∧ final.arrDstR = 8 + (3 : Nat) - 1 - (larger 5 [9, 5, 1]).length ∧
      ∀ cell, Outside cell 8 3 →
        final.heap cell = Heap.splice (Heap.splice Heap.empty 0 [9, 5, 1]) 8 [7, 7, 7] cell := by
  have array : (Heap.splice Heap.empty 0 [(9 : Word), 5, 1]).Holds 0 [9, 5, 1] := Heap.holds_splice_self
  exact measurePovit1_filters _ 0 8 [9, 5, 1] [7, 7, 7] 5 rfl (array.splice_disjoint (Or.inl (by decide))) Heap.holds_splice_self rfl
    (Or.inl (by decide)) 4 (by decide)

end Mbench.SortSpeed
