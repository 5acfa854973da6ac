import Mbench.Library.Recording
import Mbench.SortSpeed.RadixSortSpec
import Mathlib.Data.List.Nodup
import Mathlib.Data.List.Perm.Subperm

/-! One pass of `radix_sort`: a table that is counted and summed for the values in any order serves a scatter loop over
them, which writes each slot of its destination once. -/

namespace Mbench.SortSpeed
open Library

def recordScatterValue (digit : Word → Nat) (seqTbl source dist : Int) (i : Nat) (state : Heap Word × List Int) :
    Option (Heap Word × List Int) := do
  let value ← state.1.load (source + i)
  let idx := digit value
  let dataIdx ← state.1.load (seqTbl + idx)
  let heap ← state.1.store (dist + dataIdx.toInt) value
  let heap ← heap.store (seqTbl + idx) (dataIdx + 1)
  some (heap, state.2 ++ [dataIdx.toInt])

def recordScatter (digit : Word → Nat) (seqTbl source dist : Int) (n : Nat) (state : Heap Word × List Int) :
    Option (Heap Word × List Int) :=
  forLoop (recordScatterValue digit seqTbl source dist) n state

section
variable {digit : Word → Nat} {radix : Nat} {heap initial : Heap Word} {seqTbl source dist : Int} {values : List Word}

theorem recordScatterValue_erases (digit : Word → Nat) (seqTbl source dist : Int) (i : Nat) :
    Erases (recordScatterValue digit seqTbl source dist i) (scatterValue digit seqTbl source dist i) := by
  intro heap log
  rw [recordScatterValue, scatterValue]
  cases heap.load (source + i) with
  | none => rfl
  | some value =>
    simp only [Option.bind_eq_bind, Option.bind_some]
    cases heap.load (seqTbl + digit value) with
    | none => rfl
    | some dataIdx =>
      simp only [Option.bind_some]
      cases heap.store (dist + dataIdx.toInt) value with
      | none => rfl
      | some next =>
        simp only [Option.bind_some]
        cases next.store (seqTbl + digit value) (dataIdx + 1) <;> rfl

theorem recordScatter_erases (digit : Word → Nat) (seqTbl source dist : Int) (n : Nat) :
    Erases (recordScatter digit seqTbl source dist n) (scatter digit seqTbl source dist n) :=
  erases_forLoop (recordScatterValue_erases digit seqTbl source dist) n

/-! The slots. -/

def destination (digit : Word → Nat) (values : List Word) (index : Nat) : Nat :=
  cursor digit values (values.take index) (digit (values.getD index 0))

theorem destination_eq {index : Nat} (inside : index < values.length) :
    destination digit values index = cursor digit values (values.take index) (digit values[index]) := by
  rw [destination, List.getD_eq_getElem?_getD, List.getElem?_eq_getElem inside, Option.getD_some]

theorem destination_lt {index : Nat} (inside : index < values.length) : destination digit values index < values.length := by
  rw [destination_eq inside]
  exact lt_of_lt_of_le (cursor_inside inside) below_le_length

/-- Later values of one digit go to later slots, and values of different digits to different buckets. -/
theorem destination_ne {first second : Nat} (earlier : first < second) (inside : second < values.length) :
    destination digit values first ≠ destination digit values second := by
  have before : first < values.length := earlier.trans inside
  rw [destination_eq before, destination_eq inside]
  have firstWithin : cursor digit values (values.take first) (digit values[first]) < _ := cursor_inside before
  have secondWithin : cursor digit values (values.take second) (digit values[second]) < _ := cursor_inside inside
  rcases Nat.lt_trichotomy (digit values[first]) (digit values[second]) with less | same | greater
  · have apart : below digit (digit values[first] + 1) values ≤ below digit (digit values[second]) values := below_mono less
    unfold cursor at *
    omega
  · have grown : (bucket digit (digit values[first]) ((values.take second).take (first + 1))).length ≤
        (bucket digit (digit values[first]) (values.take second)).length := bucket_take_length_le _
    rw [List.take_take, Nat.min_eq_left earlier, take_concat before, bucket_concat, if_pos rfl, List.length_append,
      List.length_singleton] at grown
    rw [← same]
    unfold cursor
    omega
  · have apart : below digit (digit values[second] + 1) values ≤ below digit (digit values[first]) values := below_mono greater
    unfold cursor at *
    omega

theorem destinations_perm (digit : Word → Nat) (values : List Word) :
    ((List.range values.length).map (destination digit values)).Perm (List.range values.length) := by
  have once : ((List.range values.length).map (destination digit values)).Nodup := by
    apply List.Nodup.map_on _ List.nodup_range
    intro first firstIn second secondIn same
    rcases Nat.lt_trichotomy first second with less | equal | greater
    · exact absurd same (destination_ne less (List.mem_range.mp secondIn))
    · exact equal
    · exact absurd same.symm (destination_ne greater (List.mem_range.mp firstIn))
  apply (once.subperm _).perm_of_length_le
  · rw [List.length_map]
  · intro slot member
    obtain ⟨index, inside, rfl⟩ := List.mem_map.mp member
    exact List.mem_range.mpr (destination_lt (List.mem_range.mp inside))

theorem recordScatterValue_eq {index : Nat} {value dataIdx : Word} (loaded : heap.load (source + index) = some value)
    (found : heap.load (seqTbl + digit value) = some dataIdx) (log : List Int) :
    recordScatterValue digit seqTbl source dist index (heap, log) =
      (scatterValue digit seqTbl source dist index heap).map fun next => (next, log ++ [dataIdx.toInt]) := by
  simp only [recordScatterValue, scatterValue, loaded, found, Option.bind_eq_bind, Option.bind_some]
  cases heap.store (dist + dataIdx.toInt) value with
  | none => rfl
  | some next =>
    simp only [Option.bind_some]
    cases next.store (seqTbl + digit value) (dataIdx + 1) <;> rfl

/-- The table, the values and the destination of a scatter loop do not meet. -/
structure ScatterAreas (seqTbl source dist : Int) (radix n : Nat) : Prop where
  sourceTable : source + n ≤ seqTbl ∨ seqTbl + radix ≤ source
  sourceDist : source + n ≤ dist ∨ dist + n ≤ source
  tableDist : seqTbl + radix ≤ dist ∨ dist + n ≤ seqTbl

def writtenSlots (digit : Word → Nat) (values : List Word) (index : Nat) : List Int :=
  (List.range index).map fun earlier => (destination digit values earlier : Int)

theorem writtenSlots_succ (digit : Word → Nat) (values : List Word) (index : Nat) :
    writtenSlots digit values (index + 1) = writtenSlots digit values index ++ [(destination digit values index : Int)] := by
  rw [writtenSlots, List.range_succ, List.map_append]
  rfl

theorem recordScatterValue_spec (bounded : ∀ value, digit value < radix) (small : values.length < 2 ^ 31)
    (held : initial.Holds source values) (areas : ScatterAreas seqTbl source dist radix values.length)
    {index : Nat} (inside : index < values.length)
    (scattered : Scattered digit radix initial seqTbl dist values (values.take index) heap) :
    ∃ next, recordScatterValue digit seqTbl source dist index (heap, writtenSlots digit values index) =
        some (next, writtenSlots digit values (index + 1)) ∧
      Scattered digit radix initial seqTbl dist values (values.take (index + 1)) next := by
  obtain ⟨next, stepped, advanced⟩ := scatterValue_spec bounded small held areas.sourceTable areas.sourceDist
    areas.tableDist inside scattered
  have loaded := scattered.load_source held areas.sourceTable areas.sourceDist inside
  have found := counters_load scattered.table (digit values[index]) (bounded _)
  have slot : (BitVec.ofNat 32 (cursor digit values (values.take index) (digit values[index]))).toInt =
      destination digit values index := by
    have within : destination digit values index < values.length := destination_lt inside
    rw [← destination_eq inside]
    exact toInt_count (by omega)
  refine ⟨next, ?_, advanced⟩
  rw [recordScatterValue_eq loaded found, stepped, Option.map_some, slot, writtenSlots_succ]

theorem recordScatter_spec (bounded : ∀ value, digit value < radix) (small : values.length < 2 ^ 31)
    (held : initial.Holds source values) (room : initial.Allocated dist values.length)
    (table : initial.Holds seqTbl (counters radix fun key => below digit key values))
    (areas : ScatterAreas seqTbl source dist radix values.length) :
    ∃ final, recordScatter digit seqTbl source dist values.length (initial, []) =
        some (final, writtenSlots digit values values.length) ∧
      Scattered digit radix initial seqTbl dist values values final := by
  obtain ⟨⟨final, _⟩, run, scattered, rfl⟩ := forLoop_rule (recordScatterValue digit seqTbl source dist)
    (fun index state => Scattered digit radix initial seqTbl dist values (values.take index) state.1 ∧
      state.2 = writtenSlots digit values index)
    values.length (initial, []) ⟨⟨table, fun _ _ => Heap.holds_nil, room, fun _ _ _ => rfl⟩, rfl⟩
    (by
      rintro index inside ⟨current, _⟩ ⟨scattered, rfl⟩
      obtain ⟨next, stepped, advanced⟩ := recordScatterValue_spec bounded small held areas inside scattered
      exact ⟨_, stepped, advanced, rfl⟩)
  rw [List.take_length] at scattered
  exact ⟨final, run, scattered⟩

end

/-! A pass. -/

structure ScatterResult (pass : Pass) (seqTbl dist : Int) (values : List Word) (heap final : Heap Word)
    (slots : List Int) : Prop where
  once : slots.Perm ((List.range values.length).map fun slot : Nat => (slot : Int))
  output : ∃ sorted, final.Holds dist sorted ∧ StableSort pass.digit values sorted
  table : ∀ key < pass.radix, (final.load (seqTbl + key)).map BitVec.toInt =
    some ((values.countP fun value => pass.digit value ≤ key : Nat) : Int)
  frame : ∀ cell, Outside cell seqTbl pass.radix → Outside cell dist values.length → final cell = heap cell

theorem cursor_done (digit : Word → Nat) (values : List Word) (key : Nat) :
    cursor digit values values key = values.countP fun value => digit value ≤ key := by
  rw [cursor, ← below_succ]
  exact List.countP_congr fun value _ => by rw [decide_eq_true_eq, decide_eq_true_eq, Nat.lt_succ_iff]

section
variable {pass : Pass} {heap final : Heap Word} {seqTbl source dist : Int} {values : List Word}

theorem Scattered.result (scattered : Scattered pass.digit pass.radix heap seqTbl dist values values final)
    (small : values.length < 2 ^ 31) :
    ScatterResult pass seqTbl dist values heap final (writtenSlots pass.digit values values.length) := by
  constructor
  · have slots := (destinations_perm pass.digit values).map fun slot : Nat => (slot : Int)
    rwa [List.map_map] at slots
  · exact ⟨_, holds_bucketSort scattered.placed, stableSort_bucketSort fun value _ => pass.digit_lt value⟩
  · intro key below
    have upto := cursor_le pass.digit values key
    rw [counters_load scattered.table key below, Option.map_some, toInt_count (by omega), cursor_done]
  · exact scattered.frame

theorem Pass.recordScatter_result (small : values.length < 2 ^ 31) (held : heap.Holds source values)
    (room : heap.Allocated dist values.length) (table : heap.Holds seqTbl (pass.starts values))
    (areas : ScatterAreas seqTbl source dist pass.radix values.length) :
    ∃ final slots, recordScatter pass.digit seqTbl source dist values.length (heap, []) = some (final, slots) ∧
      scatter pass.digit seqTbl source dist values.length heap = some final ∧
      ScatterResult pass seqTbl dist values heap final slots := by
  obtain ⟨final, recorded, scattered⟩ := recordScatter_spec pass.digit_lt small held room table areas
  have erased := recordScatter_erases pass.digit seqTbl source dist values.length heap []
  rw [recorded] at erased
  exact ⟨final, _, recorded, erased.symm, scattered.result small⟩

end

/-- A zeroed table in which the digits of `counted` are counted and summed serves the scatter loop over the same values in
any order, wherever they are by then: the loop writes each slot of its destination once, sorts the values by their digit
and keeps the order of those with one digit, and leaves in each entry how many values have that digit or a smaller one. -/
theorem Pass.scatters (pass : Pass) (heap : Heap Word) (seqTbl loc idx : Int) (counted values : List Word)
    (perm : counted.Perm values) (small : values.length < 2 ^ 31 - 1) (held : heap.Holds loc counted)
    (zeroed : heap.Holds seqTbl (List.replicate (pass.radix + 1) 0))
    (apart : loc + values.length ≤ seqTbl ∨ seqTbl + (pass.radix + 1 : Nat) ≤ loc) :
    ∃ tallied last filled, forLoop (countDigit pass.digit seqTbl loc) values.length (heap, idx) = some (tallied, last) ∧
      prefixSums seqTbl pass.radix tallied = some filled ∧
      (∀ cell, Outside cell seqTbl (pass.radix + 1) → filled cell = heap cell) ∧
      ∀ (later : Heap Word) (source dist : Int),
        (∀ slot : Nat, slot < pass.radix → later (seqTbl + slot) = filled (seqTbl + slot)) →
        later.Holds source values → later.Allocated dist values.length →
        ScatterAreas seqTbl source dist pass.radix values.length →
        ∃ final slots, recordScatter pass.digit seqTbl source dist values.length (later, []) = some (final, slots) ∧
          scatter pass.digit seqTbl source dist values.length later = some final ∧
          ScatterResult pass seqTbl dist values later final slots := by
  rw [← perm.length_eq] at apart
  obtain ⟨tallied, last, counts, _, tally, countFrame⟩ := countDigits_spec pass.digit_lt idx held zeroed apart
  obtain ⟨filled, sums, table, sumFrame⟩ := prefixSums_spec tally
  rw [perm.length_eq] at counts
  refine ⟨tallied, last, filled, counts, sums, fun cell outside => ?_, fun later source dist same source_ room areas => ?_⟩
  · exact (sumFrame cell outside).trans (countFrame cell outside)
  · have starts : filled.Holds seqTbl (pass.starts counted) := counters_summed table
    rw [pass.starts_perm perm] at starts
    have kept : later.Holds seqTbl (pass.starts values) := by
      intro slot inside
      rw [same slot (by rwa [Pass.starts_length] at inside)]
      exact starts slot inside
    exact Pass.recordScatter_result (by omega) source_ room kept areas

theorem Pass.scatters_reversed :
    ∃ tallied last filled, forLoop (countDigit lowDigit 100 0) 16 (bufferHeap, 5) = some (tallied, last) ∧
      prefixSums 100 2048 tallied = some filled ∧
      ∃ final slots, recordScatter lowDigit 100 20000 5244 16 (filled.splice 20000 digitValues.reverse, []) =
          some (final, slots) ∧
        ScatterResult .low 100 5244 digitValues.reverse (filled.splice 20000 digitValues.reverse) final slots := by
  have zeroed := bufferHeap_holds.window 0 2049 (by rw [List.length_replicate]; decide)
  rw [List.drop_zero, List.take_replicate, Nat.min_eq_left (by decide), Nat.cast_zero, Int.add_zero] at zeroed
  have values : bufferHeap.Holds 0 digitValues := Heap.holds_splice_self.splice_disjoint (Or.inl (by decide))
  have length : digitValues.reverse.length = 16 := by decide
  obtain ⟨tallied, last, filled, counts, sums, frame, serves⟩ := Pass.low.scatters bufferHeap 100 0 5 digitValues
    digitValues.reverse (List.reverse_perm _).symm (by decide) values zeroed (Or.inl (by decide))
  have room : filled.Allocated 5244 16 := by
    intro index inside
    have zero := bufferHeap_holds.cell (5144 + index) (by rw [List.length_replicate]; omega)
    rw [show (100 : Int) + ((5144 + index : Nat) : Int) = 5244 + index by omega] at zero
    rw [frame _ (by simp only [Outside, Pass.radix]; omega), zero]
    rfl
  obtain ⟨final, slots, recorded, _, result⟩ := serves (filled.splice 20000 digitValues.reverse) 20000 5244
    (fun slot inside => Heap.splice_outside (by simp only [Outside, Pass.radix] at *; omega)) Heap.holds_splice_self
    (Heap.splice_allocated room) ⟨Or.inr (by decide), Or.inr (by decide), Or.inl (by decide)⟩
  rw [length] at counts recorded
  exact ⟨tallied, last, filled, counts, sums, final, slots, recorded, result⟩

end Mbench.SortSpeed
