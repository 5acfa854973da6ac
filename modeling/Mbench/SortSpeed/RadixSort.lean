import Mbench.Library.Buckets
import Mbench.Library.Loop
import Mbench.SortSpeed.Order

/-! `radix_sort` of `u32_radix_sort_portable.cpp` and `u32_radix_sort_demo.cpp`. Memory
is addressed in words of four bytes, so the byte offsets into `buf` are divided by four. -/

namespace Mbench.SortSpeed
open Library

def lowDigit (value : Word) : Nat := (value &&& 0x7FF).toNat

def middleDigit (value : Word) : Nat := (value >>> 11 &&& 0x7FF).toNat

def highDigit (value : Word) : Nat := (value >>> 22 &&& 0x3FF).toNat

def countDigit (digit : Word → Nat) (seqTbl loc : Int) (i : Nat) (state : Heap Word × Int) :
    Option (Heap Word × Int) := do
  let value ← state.1.load (loc + i)
  let idx := digit value
  let count ← state.1.load (seqTbl + (idx + 1 : Nat))
  let heap ← state.1.store (seqTbl + (idx + 1 : Nat)) (count + 1)
  some (heap, idx)

/-- `seqTbl[idx] = 0`, with the `idx` the code has at that point, and a counting loop. -/
def countDigits (digit : Word → Nat) (seqTbl loc : Int) (n : Nat) (heap : Heap Word) (idx : Int) :
    Option (Heap Word × Int) := do
  let heap ← heap.store (seqTbl + idx) 0
  forLoop (countDigit digit seqTbl loc) n (heap, idx)

/-- `seqTbl[idx] = seqTbl[idx - 1] + seqTbl[idx]`, for `idx` from 1. -/
def prefixSum (seqTbl : Int) (index : Nat) (heap : Heap Word) : Option (Heap Word) := do
  let valA ← heap.load (seqTbl + index)
  let valB ← heap.load (seqTbl + (index + 1 : Nat))
  heap.store (seqTbl + (index + 1 : Nat)) (valA + valB)

def prefixSums (seqTbl : Int) (size : Nat) (heap : Heap Word) : Option (Heap Word) :=
  forLoop (prefixSum seqTbl) (size - 1) heap

def scatterValue (digit : Word → Nat) (seqTbl source dist : Int) (i : Nat) (heap : Heap Word) :
    Option (Heap Word) := do
  let value ← heap.load (source + i)
  let idx := digit value
  let dataIdx ← heap.load (seqTbl + idx)
  let heap ← heap.store (dist + dataIdx.toInt) value
  heap.store (seqTbl + idx) (dataIdx + 1)

def scatter (digit : Word → Nat) (seqTbl source dist : Int) (n : Nat) (heap : Heap Word) : Option (Heap Word) :=
  forLoop (scatterValue digit seqTbl source dist) n heap

def countTables (loc buf : Int) (n : Nat) (heap : Heap Word) (idx : Int) : Option (Heap Word × Int) := do
  let (heap, idx) ← countDigits lowDigit buf loc n heap idx
  let (heap, idx) ← countDigits middleDigit (buf + 0x2020 / 4) loc n heap idx
  countDigits highDigit (buf + 0x4040 / 4) loc n heap idx

def sumTables (buf : Int) (heap : Heap Word) : Option (Heap Word) := do
  let heap ← prefixSums buf 2048 heap
  let heap ← prefixSums (buf + 0x2020 / 4) 2048 heap
  prefixSums (buf + 0x4040 / 4) 1024 heap

/-- The three scatter loops: from `loc` into the data area, back to `loc`, and into the
data area again. -/
def scatterPasses (loc buf : Int) (n : Nat) (heap : Heap Word) : Option (Heap Word) := do
  let heap ← scatter lowDigit buf loc (buf + 0x5060 / 4) n heap
  let heap ← scatter middleDigit (buf + 0x2020 / 4) (buf + 0x5060 / 4) loc n heap
  scatter highDigit (buf + 0x4040 / 4) loc (buf + 0x5060 / 4) n heap

/-- `radix_sort`, with the globals `ptr` and `ptrd` and the value `idx` has before it is
first assigned. -/
def radixSort (ptr ptrd : Int) (heap : Heap Word) (loc buf : Int) (n : Nat) (idx : Int) : Option (Heap Word) := do
  let (heap, _) ← countTables loc buf n heap idx
  let heap ← sumTables buf heap
  let heap ← scatterPasses loc buf n heap
  let values ← heap.read (ptrd + 0x5060 / 4) n
  heap.write ptr values

/-! A table as a function of the slot. -/

def counters (size : Nat) (count : Nat → Nat) : List Word :=
  (List.range size).map fun slot => BitVec.ofNat 32 (count slot)

@[simp] theorem counters_length (size : Nat) (count : Nat → Nat) : (counters size count).length = size := by
  simp [counters]

@[simp] theorem counters_getElem (size : Nat) (count : Nat → Nat) (slot : Nat)
    (inside : slot < (counters size count).length) : (counters size count)[slot] = BitVec.ofNat 32 (count slot) := by
  simp [counters]

theorem counters_set (size : Nat) (count : Nat → Nat) (slot value : Nat) :
    (counters size count).set slot (BitVec.ofNat 32 value) = counters size (Function.update count slot value) := by
  apply List.ext_getElem (by simp) fun index inside other => ?_
  rw [List.getElem_set, counters_getElem, counters_getElem]
  by_cases same : slot = index
  · rw [if_pos same, same, Function.update_self]
  · rw [if_neg same, Function.update_of_ne (Ne.symm same)]

theorem counters_zero (size : Nat) : counters size (fun _ => 0) = List.replicate size 0 := by
  simp [counters, List.map_const']

theorem counters_take {size fewer : Nat} (count : Nat → Nat) (less : fewer ≤ size) :
    (counters size count).take fewer = counters fewer count := by
  rw [counters, ← List.map_take, List.take_range, Nat.min_eq_left less, counters]

theorem ofNat_succ (count : Nat) : BitVec.ofNat 32 (count + 1) = BitVec.ofNat 32 count + 1 :=
  BitVec.ofNat_add count 1

section
variable {heap : Heap Word} {seqTbl : Int} {size : Nat} {count : Nat → Nat}

theorem counters_load (held : heap.Holds seqTbl (counters size count)) (slot : Nat) (inside : slot < size) :
    heap.load (seqTbl + slot) = some (BitVec.ofNat 32 (count slot)) := by
  rw [held.load slot (by rwa [counters_length]), counters_getElem]

theorem counters_store (held : heap.Holds seqTbl (counters size count)) (slot : Nat) (inside : slot < size)
    (value : Nat) :
    ∃ next, heap.store (seqTbl + slot) (BitVec.ofNat 32 value) = some next ∧
      next.Holds seqTbl (counters size (Function.update count slot value)) ∧
      ∀ cell, Outside cell seqTbl size → next cell = heap cell := by
  obtain ⟨next, stored, written, frame⟩ := held.store_set slot (by simpa using inside) (BitVec.ofNat 32 value)
  rw [counters_set] at written
  rw [counters_length] at frame
  exact ⟨next, stored, written, frame⟩

end

/-! The counting loops. -/

/-- What a counting loop leaves in slot `key + 1`: how many values have the digit `key`. -/
def tally (digit : Word → Nat) (values : List Word) : Nat → Nat
  | 0 => 0
  | key + 1 => (bucket digit key values).length

theorem tally_nil (digit : Word → Nat) : tally digit [] = fun _ => 0 := by
  funext slot
  cases slot <;> rfl

theorem tally_concat (digit : Word → Nat) (values : List Word) (last : Word) :
    tally digit (values ++ [last]) =
      Function.update (tally digit values) (digit last + 1) (tally digit values (digit last + 1) + 1) := by
  funext slot
  cases slot with
  | zero => simp [tally]
  | succ key =>
    simp only [tally, bucket_concat]
    by_cases here : digit last = key
    · simp [here]
    · rw [Function.update_of_ne (by omega)]
      simp [here, tally]

theorem take_concat {values : List Word} {index : Nat} (inside : index < values.length) :
    values.take (index + 1) = values.take index ++ [values[index]] :=
  (List.take_append_getElem inside).symm

/-- Which digit the variable `idx` has after a counting loop, for the stray store of the
next one. -/
abbrev LastDigit (digit : Word → Nat) (values : List Word) (idx : Int) : Prop :=
  ∀ last, values.getLast? = some last → idx = digit last

theorem countDigits_spec {digit : Word → Nat} {radix : Nat} (bounded : ∀ value, digit value < radix)
    {heap : Heap Word} {seqTbl loc : Int} (idx : Int) {values : List Word} (held : heap.Holds loc values)
    (zeroed : heap.Holds seqTbl (List.replicate (radix + 1) 0))
    (apart : loc + values.length ≤ seqTbl ∨ seqTbl + (radix + 1 : Nat) ≤ loc) :
    ∃ final last, forLoop (countDigit digit seqTbl loc) values.length (heap, idx) = some (final, last) ∧
      (0 < values.length → LastDigit digit values last) ∧
      final.Holds seqTbl (counters (radix + 1) (tally digit values)) ∧
      ∀ cell, Outside cell seqTbl (radix + 1) → final cell = heap cell := by
  obtain ⟨⟨final, last⟩, run, digits, counted, frame⟩ := forLoop_rule (countDigit digit seqTbl loc)
    (fun index state => (0 < index → LastDigit digit (values.take index) state.2) ∧
      state.1.Holds seqTbl (counters (radix + 1) (tally digit (values.take index))) ∧
      ∀ cell, Outside cell seqTbl (radix + 1) → state.1 cell = heap cell)
    values.length (heap, idx)
    ⟨fun positive => absurd positive (Nat.lt_irrefl 0), by
      rw [List.take_zero, tally_nil, counters_zero]
      exact zeroed, fun _ _ => rfl⟩
    (by
      intro index inside ⟨current, previous⟩ ⟨_, counted, frame⟩
      simp only at counted frame
      have source : current.load (loc + index) = some values[index] :=
        (frame _ (by simp only [Outside]; omega)).trans (held.cell index inside)
      have bound := bounded values[index]
      have found := counters_load counted (digit values[index] + 1) (by omega)
      obtain ⟨next, stored, written, same⟩ := counters_store counted (digit values[index] + 1) (by omega)
        (tally digit (values.take index) (digit values[index] + 1) + 1)
      refine ⟨(next, digit values[index]), ?_, ?_, ?_, fun cell outside => (same cell outside).trans (frame cell outside)⟩
      · rw [ofNat_succ] at stored
        simp only [countDigit, source, found, Option.bind_eq_bind, Option.bind_some, stored]
      · intro _ last
        rw [take_concat inside, List.getLast?_concat]
        rintro ⟨⟩
        rfl
      · rw [take_concat inside, tally_concat]
        exact written)
  rw [List.take_length] at digits counted
  exact ⟨final, last, run, digits, counted, frame⟩

/-! The sums. -/

def summed (digit : Word → Nat) (values : List Word) (index slot : Nat) : Nat :=
  if slot ≤ index then below digit slot values else tally digit values slot

theorem summed_zero (digit : Word → Nat) (values : List Word) : summed digit values 0 = tally digit values := by
  funext slot
  cases slot with
  | zero => simp [summed, tally, below_zero]
  | succ key => simp [summed]

theorem summed_succ (digit : Word → Nat) (values : List Word) (index : Nat) :
    summed digit values (index + 1) = Function.update (summed digit values index) (index + 1)
      (summed digit values index index + summed digit values index (index + 1)) := by
  funext slot
  by_cases here : slot = index + 1
  · subst slot
    simp [summed, tally, below_succ]
  · rw [Function.update_of_ne here]
    simp only [summed]
    split_ifs <;> first | rfl | omega

theorem counters_summed {digit : Word → Nat} {radix : Nat} {heap : Heap Word} {seqTbl : Int} {values : List Word}
    (sums : heap.Holds seqTbl (counters (radix + 1) (summed digit values (radix - 1)))) :
    heap.Holds seqTbl (counters radix fun key => below digit key values) := by
  have starts : counters radix (summed digit values (radix - 1)) = counters radix fun key => below digit key values := by
    apply List.map_congr_left fun key member => ?_
    rw [summed, if_pos (by have := List.mem_range.mp member; omega)]
  have window := sums.window 0 radix (by rw [counters_length]; omega)
  rw [List.drop_zero, counters_take _ (by omega), starts] at window
  simpa using window

theorem prefixSums_spec {digit : Word → Nat} {radix : Nat} {heap : Heap Word} {seqTbl : Int}
    {values : List Word} (counted : heap.Holds seqTbl (counters (radix + 1) (tally digit values))) :
    ∃ final, prefixSums seqTbl radix heap = some final ∧
      final.Holds seqTbl (counters (radix + 1) (summed digit values (radix - 1))) ∧
      ∀ cell, Outside cell seqTbl (radix + 1) → final cell = heap cell := by
  apply forLoop_rule (prefixSum seqTbl)
    (fun index state => state.Holds seqTbl (counters (radix + 1) (summed digit values index)) ∧
      ∀ cell, Outside cell seqTbl (radix + 1) → state cell = heap cell)
    (radix - 1) heap ⟨by rwa [summed_zero], fun _ _ => rfl⟩
  intro index inside current ⟨sums, frame⟩
  have valA := counters_load sums index (by omega)
  have valB := counters_load sums (index + 1) (by omega)
  obtain ⟨next, stored, written, same⟩ := counters_store sums (index + 1) (by omega)
    (summed digit values index index + summed digit values index (index + 1))
  refine ⟨next, ?_, ?_, fun cell outside => (same cell outside).trans (frame cell outside)⟩
  · rw [BitVec.ofNat_add] at stored
    simp only [prefixSum, valA, valB, Option.bind_eq_bind, Option.bind_some, stored]
  · rw [summed_succ]
    exact written

/-! The scatter loops. -/

def cursor (digit : Word → Nat) (values done : List Word) (key : Nat) : Nat :=
  below digit key values + (bucket digit key done).length

theorem cursor_concat (digit : Word → Nat) (values done : List Word) (last : Word) :
    cursor digit values (done ++ [last]) =
      Function.update (cursor digit values done) (digit last) (cursor digit values done (digit last) + 1) := by
  funext key
  simp only [cursor, bucket_concat]
  by_cases here : digit last = key
  · subst here
    simp [Nat.add_assoc]
  · rw [Function.update_of_ne (Ne.symm here), if_neg here, List.append_nil, cursor]

/-- The invariant of a scatter loop when `done` has been placed: each bucket of it is at
its place, and the table holds where each goes on. -/
structure Scattered (digit : Word → Nat) (radix : Nat) (initial : Heap Word) (seqTbl dist : Int)
    (values done : List Word) (heap : Heap Word) : Prop where
  table : heap.Holds seqTbl (counters radix (cursor digit values done))
  placed : ∀ key < radix, heap.Holds (dist + below digit key values) (bucket digit key done)
  room : heap.Allocated dist values.length
  frame : ∀ cell, Outside cell seqTbl radix → Outside cell dist values.length → heap cell = initial cell

section
variable {digit : Word → Nat} {radix : Nat} {initial heap : Heap Word} {seqTbl source dist : Int} {values : List Word}

theorem cursor_inside {index : Nat} (inside : index < values.length) :
    cursor digit values (values.take index) (digit values[index]) <
      below digit (digit values[index] + 1) values := by
  have fewer : (bucket digit (digit values[index]) (values.take (index + 1))).length ≤
      (bucket digit (digit values[index]) values).length := bucket_take_length_le _
  rw [take_concat inside, bucket_concat, if_pos rfl, List.length_append, List.length_singleton] at fewer
  rw [below_succ, cursor]
  omega

theorem Scattered.placed_store (bounded : ∀ value, digit value < radix) {index : Nat} (inside : index < values.length)
    (scattered : Scattered digit radix initial seqTbl dist values (values.take index) heap) {key : Nat} (small : key < radix) :
    (heap.splice (dist + cursor digit values (values.take index) (digit values[index])) [values[index]]).Holds
      (dist + below digit key values) (bucket digit key (values.take (index + 1))) := by
  rw [take_concat inside, bucket_concat]
  by_cases here : digit values[index] = key
  · subst here
    rw [if_pos rfl, Heap.holds_append, Heap.holds_singleton]
    have place : dist + (cursor digit values (values.take index) (digit values[index]) : Int) =
        dist + below digit (digit values[index]) values +
          (bucket digit (digit values[index]) (values.take index)).length := by
      rw [cursor]
      push_cast
      ring
    rw [place]
    exact ⟨(scattered.placed _ (bounded _)).splice_disjoint (Or.inl le_rfl), by rw [Heap.splice_singleton, if_pos rfl]⟩
  · rw [if_neg here, List.append_nil]
    have within : cursor digit values (values.take index) (digit values[index]) < _ := cursor_inside inside
    have filled : (bucket digit key (values.take index)).length ≤ (bucket digit key values).length :=
      bucket_take_length_le _
    apply (scattered.placed key small).splice_disjoint
    rw [List.length_singleton]
    rcases Nat.lt_or_gt_of_ne here with after | before
    · have apart : below digit (digit values[index] + 1) values ≤ below digit key values := below_mono after
      right
      omega
    · have apart : below digit key values + (bucket digit key values).length ≤
          below digit (digit values[index]) values := below_apart before
      rw [cursor]
      left
      omega

theorem Scattered.load_source (held : initial.Holds source values)
    (sourceTable : source + values.length ≤ seqTbl ∨ seqTbl + radix ≤ source)
    (sourceDist : source + values.length ≤ dist ∨ dist + values.length ≤ source)
    {done : List Word} (scattered : Scattered digit radix initial seqTbl dist values done heap)
    {index : Nat} (inside : index < values.length) : heap.load (source + index) = some values[index] :=
  (scattered.frame _ (by simp only [Outside]; omega) (by simp only [Outside]; omega)).trans (held.cell index inside)

theorem toInt_count {count : Nat} (small : count < 2 ^ 31) : (BitVec.ofNat 32 count).toInt = count := by
  rw [toInt_low (by rw [BitVec.toNat_ofNat]; omega), BitVec.toNat_ofNat]
  omega

theorem scatterValue_spec (bounded : ∀ value, digit value < radix) (small : values.length < 2 ^ 31)
    (held : initial.Holds source values)
    (sourceTable : source + values.length ≤ seqTbl ∨ seqTbl + radix ≤ source)
    (sourceDist : source + values.length ≤ dist ∨ dist + values.length ≤ source)
    (tableDist : seqTbl + radix ≤ dist ∨ dist + values.length ≤ seqTbl)
    {index : Nat} (inside : index < values.length)
    (scattered : Scattered digit radix initial seqTbl dist values (values.take index) heap) :
    ∃ next, scatterValue digit seqTbl source dist index heap = some next ∧
      Scattered digit radix initial seqTbl dist values (values.take (index + 1)) next := by
  have bound := bounded values[index]
  have loaded := scattered.load_source held sourceTable sourceDist inside
  have found := counters_load scattered.table (digit values[index]) bound
  have within : cursor digit values (values.take index) (digit values[index]) < _ := cursor_inside inside
  have fits : below digit (digit values[index] + 1) values ≤ values.length := below_le_length
  generalize slotEq : cursor digit values (values.take index) (digit values[index]) = slot at *
  have address : (BitVec.ofNat 32 slot).toInt = slot := toInt_count (by omega)
  have stored : heap.store (dist + slot) values[index] = some (heap.splice (dist + slot) [values[index]]) :=
    scattered.room.store (by omega)
  have tableKept : (heap.splice (dist + slot) [values[index]]).Holds seqTbl _ :=
    scattered.table.splice_disjoint (by rw [counters_length, List.length_singleton]; omega)
  obtain ⟨next, advanced, table, same⟩ := counters_store tableKept (digit values[index]) bound (slot + 1)
  refine ⟨next, ?_, ?_, fun key small => ?_, ?_, fun cell outTable outDist => ?_⟩
  · rw [ofNat_succ] at advanced
    simp only [scatterValue, loaded, found, Option.bind_eq_bind, Option.bind_some, address, stored, advanced]
  · rw [take_concat inside, cursor_concat, slotEq]
    exact table
  · have total : below digit (key + 1) values ≤ values.length := below_le_length
    have fewer : (bucket digit key (values.take (index + 1))).length ≤ (bucket digit key values).length :=
      bucket_take_length_le _
    rw [below_succ] at total
    have written := scattered.placed_store bounded inside small
    rw [slotEq] at written
    exact written.frame same (by omega)
  · intro place within
    rw [same _ (by simp only [Outside]; omega)]
    exact Heap.splice_allocated scattered.room place within
  · rw [same cell outTable, Heap.splice_outside (by simp only [List.length_singleton]; omega)]
    exact scattered.frame cell outTable outDist

theorem scatter_spec (bounded : ∀ value, digit value < radix) (small : values.length < 2 ^ 31)
    (held : heap.Holds source values) (room : heap.Allocated dist values.length)
    (table : heap.Holds seqTbl (counters radix fun key => below digit key values))
    (sourceTable : source + values.length ≤ seqTbl ∨ seqTbl + radix ≤ source)
    (sourceDist : source + values.length ≤ dist ∨ dist + values.length ≤ source)
    (tableDist : seqTbl + radix ≤ dist ∨ dist + values.length ≤ seqTbl) :
    ∃ final, scatter digit seqTbl source dist values.length heap = some final ∧
      final.Holds dist (bucketSort digit radix values) ∧
      final.Holds seqTbl (counters radix (cursor digit values values)) ∧
      ∀ cell, Outside cell seqTbl radix → Outside cell dist values.length → final cell = heap cell := by
  obtain ⟨final, run, scattered⟩ := forLoop_rule (scatterValue digit seqTbl source dist)
    (fun index state => Scattered digit radix heap seqTbl dist values (values.take index) state)
    values.length heap ⟨table, fun _ _ => Heap.holds_nil, room, fun _ _ _ => rfl⟩
    (fun index inside state scattered =>
      scatterValue_spec bounded small held sourceTable sourceDist tableDist inside scattered)
  rw [List.take_length] at scattered
  exact ⟨final, run, holds_bucketSort scattered.placed, scattered.table, scattered.frame⟩

end

end Mbench.SortSpeed
