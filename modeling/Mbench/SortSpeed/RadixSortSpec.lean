import Mbench.SortSpeed.RadixSort

/-! `radix_sort` sorts: the three tables and the data area of `buf` stay apart, the
stray stores find a zero or land where nothing is kept, and three stable passes over the
digits order the whole words. -/

namespace Mbench.SortSpeed
open Library

/-- The three passes of the sort, each with its digit, its table and its radix. -/
inductive Pass
  | low | middle | high
  deriving DecidableEq

namespace Pass

def digit : Pass → Word → Nat
  | low => lowDigit
  | middle => middleDigit
  | high => highDigit

def radix : Pass → Nat
  | low => 2048
  | middle => 2048
  | high => 1024

def seqTbl (buf : Int) : Pass → Int
  | low => buf
  | middle => buf + 0x2020 / 4
  | high => buf + 0x4040 / 4

theorem lowDigit_eq (value : Word) : lowDigit value = value.toNat % 2 ^ 11 := by
  rw [lowDigit, BitVec.toNat_and]
  exact Nat.and_two_pow_sub_one_eq_mod value.toNat 11

theorem middleDigit_eq (value : Word) : middleDigit value = value.toNat / 2 ^ 11 % 2 ^ 11 := by
  rw [middleDigit, BitVec.toNat_and, BitVec.toNat_ushiftRight, Nat.shiftRight_eq_div_pow]
  exact Nat.and_two_pow_sub_one_eq_mod _ 11

theorem highDigit_eq (value : Word) : highDigit value = value.toNat / 2 ^ 22 % 2 ^ 10 := by
  rw [highDigit, BitVec.toNat_and, BitVec.toNat_ushiftRight, Nat.shiftRight_eq_div_pow]
  exact Nat.and_two_pow_sub_one_eq_mod _ 10

theorem digit_lt (pass : Pass) (value : Word) : pass.digit value < pass.radix := by
  cases pass with
  | low => rw [digit, lowDigit_eq]; exact Nat.mod_lt _ (by decide)
  | middle => rw [digit, middleDigit_eq]; exact Nat.mod_lt _ (by decide)
  | high => rw [digit, highDigit_eq]; exact Nat.mod_lt _ (by decide)

theorem seqTbl_apart (buf : Int) {pass other : Pass} (different : pass ≠ other) :
    pass.seqTbl buf + (pass.radix + 1 : Nat) ≤ other.seqTbl buf ∨
      other.seqTbl buf + (other.radix + 1 : Nat) ≤ pass.seqTbl buf := by
  cases pass <;> cases other <;> simp only [seqTbl, radix] <;> first | omega | exact absurd rfl different

theorem seqTbl_bounds (buf : Int) (pass : Pass) :
    buf ≤ pass.seqTbl buf ∧ pass.seqTbl buf + (pass.radix + 1 : Nat) ≤ buf + 0x5060 / 4 := by
  cases pass <;> simp only [seqTbl, radix] <;> omega

end Pass

theorem le_of_digits {first second : Word}
    (ordered : highDigit first < highDigit second ∨ highDigit first = highDigit second ∧
      (middleDigit first < middleDigit second ∨ middleDigit first = middleDigit second ∧
        (lowDigit first < lowDigit second ∨ lowDigit first = lowDigit second ∧ True))) : first ≤ second := by
  rw [BitVec.le_def]
  simp only [Pass.lowDigit_eq, Pass.middleDigit_eq, Pass.highDigit_eq] at ordered
  have := first.isLt
  have := second.isLt
  omega

def Pass.sort (pass : Pass) (values : List Word) : List Word := bucketSort pass.digit pass.radix values

def Pass.starts (pass : Pass) (values : List Word) : List Word :=
  counters pass.radix fun key => below pass.digit key values

theorem Pass.sort_perm (pass : Pass) (values : List Word) : (pass.sort values).Perm values :=
  bucketSort_perm fun value _ => pass.digit_lt value

@[simp] theorem Pass.starts_length (pass : Pass) (values : List Word) : (pass.starts values).length = pass.radix :=
  counters_length _ _

theorem Pass.starts_perm {values other : List Word} (perm : values.Perm other) (pass : Pass) :
    pass.starts values = pass.starts other := by
  have same : (fun key => below pass.digit key values) = fun key => below pass.digit key other := by
    funext key
    exact below_perm perm
  unfold Pass.starts
  rw [same]

/-- What the counting and summing loops keep: the values, the room of `buf`, and each
table at its place. -/
structure Layout (loc buf : Int) (room : Nat) (values : List Word) (tables : Pass → List Word) (heap : Heap Word) :
    Prop where
  source : heap.Holds loc values
  table : ∀ pass, heap.Holds (pass.seqTbl buf) (tables pass)
  sized : ∀ pass, (tables pass).length = pass.radix + 1
  allocated : heap.Allocated buf room

/-- What the counting and summing loops leave of the cells that no table has: they are as they were, or a stray zero of
`buf`. -/
def Kept (buf : Int) (room : Nat) (heap next : Heap Word) : Prop :=
  ∀ cell, (∀ pass : Pass, Outside cell (pass.seqTbl buf) (pass.radix + 1)) →
    next cell = heap cell ∨ ¬ Outside cell buf room ∧ next cell = some 0

theorem Kept.trans {buf : Int} {room : Nat} {heap next final : Heap Word} (first : Kept buf room heap next)
    (second : Kept buf room next final) : Kept buf room heap final := by
  intro cell outside
  rcases second cell outside with same | stray
  · rw [same]
    exact first cell outside
  · exact Or.inr stray

theorem Kept.outside {buf : Int} {room : Nat} {heap next : Heap Word} (kept : Kept buf room heap next)
    (fits : 0x5060 / 4 ≤ room) (cell : Int) (outside : Outside cell buf room) : next cell = heap cell := by
  have apart (pass : Pass) : Outside cell (pass.seqTbl buf) (pass.radix + 1) := by
    have bounds := pass.seqTbl_bounds buf
    simp only [Outside] at outside ⊢
    omega
  rcases kept cell apart with same | ⟨inside, _⟩
  · exact same
  · exact absurd outside inside

theorem Pass.kept (pass : Pass) {buf : Int} (room : Nat) {heap next : Heap Word}
    (frame : ∀ cell, Outside cell (pass.seqTbl buf) (pass.radix + 1) → next cell = heap cell) :
    Kept buf room heap next := fun cell outside => Or.inl (frame cell (outside pass))

section
variable {loc buf : Int} {room : Nat} {values : List Word} {tables : Pass → List Word} {heap : Heap Word}

theorem Layout.replace (layout : Layout loc buf room values tables heap) (fits : 0x5060 / 4 + values.length ≤ room)
    (disjoint : loc + values.length ≤ buf ∨ buf + room ≤ loc) (pass : Pass) {next : Heap Word} {contents : List Word}
    (written : next.Holds (pass.seqTbl buf) contents) (size : contents.length = pass.radix + 1)
    (frame : ∀ cell, Outside cell (pass.seqTbl buf) (pass.radix + 1) → next cell = heap cell) :
    Layout loc buf room values (Function.update tables pass contents) next := by
  have bounds := pass.seqTbl_bounds buf
  constructor
  · exact layout.source.frame frame (by omega)
  · intro other
    by_cases same : other = pass
    · subst other
      rwa [Function.update_self]
    · rw [Function.update_of_ne same]
      have apart := Pass.seqTbl_apart buf same
      have sized := layout.sized other
      exact (layout.table other).frame frame (by omega)
  · intro other
    by_cases same : other = pass
    · subst other
      rwa [Function.update_self]
    · rw [Function.update_of_ne same]
      exact layout.sized other
  · intro index inside
    by_cases outside : Outside (buf + index) (pass.seqTbl buf) (pass.radix + 1)
    · rw [frame _ outside]
      exact layout.allocated index inside
    · have located := written.cell (buf + index - pass.seqTbl buf).toNat (by omega)
      rw [show pass.seqTbl buf + ((buf + index - pass.seqTbl buf).toNat : Int) = buf + index by omega] at located
      rw [located]
      rfl

theorem Layout.stray (layout : Layout loc buf room values tables heap)
    (disjoint : loc + values.length ≤ buf ∨ buf + room ≤ loc) {address : Int}
    (inside : buf ≤ address ∧ address < buf + room)
    (harmless : ∀ (pass : Pass) (slot : Nat), pass.seqTbl buf + slot = address →
      (tables pass)[slot]? = some 0 ∨ (tables pass).length ≤ slot) :
    ∃ next, heap.store address 0 = some next ∧ Layout loc buf room values tables next ∧ Kept buf room heap next := by
  have stored : heap.store (buf + ((address - buf).toNat : Nat)) 0 = some _ := layout.allocated.store (by omega)
  rw [show buf + ((address - buf).toNat : Int) = address by omega] at stored
  refine ⟨_, stored, ⟨?_, fun pass => (layout.table pass).splice_same (harmless pass), layout.sized,
    Heap.splice_allocated layout.allocated⟩, fun cell _ => ?_⟩
  · exact layout.source.splice_disjoint (by rw [List.length_singleton]; omega)
  · rw [Heap.splice_singleton]
    by_cases here : cell = address
    · exact Or.inr ⟨by simp only [Outside]; omega, if_pos here⟩
    · exact Or.inl (if_neg here)

theorem Layout.countDigits (layout : Layout loc buf room values tables heap)
    (fits : 0x5060 / 4 + values.length ≤ room) (disjoint : loc + values.length ≤ buf ∨ buf + room ≤ loc)
    (nonempty : 0 < values.length) (pass : Pass) (idx : Int)
    (inside : buf ≤ pass.seqTbl buf + idx ∧ pass.seqTbl buf + idx < buf + room)
    (harmless : ∀ (other : Pass) (slot : Nat), other.seqTbl buf + slot = pass.seqTbl buf + idx →
      (tables other)[slot]? = some 0 ∨ (tables other).length ≤ slot)
    (zeroed : tables pass = List.replicate (pass.radix + 1) 0) :
    ∃ final last, countDigits pass.digit (pass.seqTbl buf) loc values.length heap idx = some (final, last) ∧
      LastDigit pass.digit values last ∧
      Layout loc buf room values
        (Function.update tables pass (counters (pass.radix + 1) (tally pass.digit values))) final ∧
      Kept buf room heap final := by
  obtain ⟨start, stored, kept, stray⟩ := layout.stray disjoint inside harmless
  have bounds := pass.seqTbl_bounds buf
  obtain ⟨final, last, run, digit, counted, frame⟩ := countDigits_spec pass.digit_lt idx kept.source
    (zeroed ▸ kept.table pass) (by omega)
  refine ⟨final, last, ?_, digit nonempty, kept.replace fits disjoint pass counted (counters_length _ _) frame,
    stray.trans (pass.kept room frame)⟩
  rw [SortSpeed.countDigits, stored]
  exact run

theorem Layout.prefixSums (layout : Layout loc buf room values tables heap)
    (fits : 0x5060 / 4 + values.length ≤ room) (disjoint : loc + values.length ≤ buf ∨ buf + room ≤ loc)
    (pass : Pass) (counted : tables pass = counters (pass.radix + 1) (tally pass.digit values)) :
    ∃ final, prefixSums (pass.seqTbl buf) pass.radix heap = some final ∧
      Layout loc buf room values (Function.update tables pass
        (counters (pass.radix + 1) (summed pass.digit values (pass.radix - 1)))) final ∧ Kept buf room heap final := by
  obtain ⟨final, run, sums, frame⟩ := prefixSums_spec (counted ▸ layout.table pass)
  exact ⟨final, run, layout.replace fits disjoint pass sums (counters_length _ _) frame, pass.kept room frame⟩

theorem fresh_slot (count slot : Nat) :
    (List.replicate count (0 : Word))[slot]? = some 0 ∨ (List.replicate count (0 : Word)).length ≤ slot := by
  rw [List.getElem?_replicate, List.length_replicate]
  by_cases inside : slot < count
  · exact Or.inl (if_pos inside)
  · exact Or.inr (Nat.le_of_not_lt inside)

/-- The first two counting loops. The second stray store hits the second table before its counts are taken. -/
theorem countTables_upto (layout : Layout loc buf room values (fun pass => List.replicate (pass.radix + 1) 0) heap)
    (fits : 0x5060 / 4 + values.length ≤ room) (disjoint : loc + values.length ≤ buf ∨ buf + room ≤ loc)
    (nonempty : 0 < values.length) {idx : Int} (firstStray : 0 ≤ idx ∧ idx < room) {last : Word}
    (lastEq : values.getLast? = some last) :
    ∃ middle, countTables loc buf values.length heap idx =
        countDigits highDigit (buf + 0x4040 / 4) loc values.length middle (middleDigit last) ∧
      Layout loc buf room values (Function.update (Function.update (fun pass : Pass => List.replicate (pass.radix + 1) 0)
        .low (counters (Pass.low.radix + 1) (tally Pass.low.digit values)))
        .middle (counters (Pass.middle.radix + 1) (tally Pass.middle.digit values))) middle ∧
      Kept buf room heap middle := by
  have lowBound := Pass.low.digit_lt last
  simp only [Pass.digit, Pass.radix] at lowBound
  obtain ⟨heap1, idx1, run1, digit1, layout1, kept1⟩ := layout.countDigits fits disjoint nonempty .low idx
    (by simp only [Pass.seqTbl]; omega) (fun pass slot _ => fresh_slot (pass.radix + 1) slot) rfl
  have idx1Eq := digit1 last lastEq
  subst idx1Eq
  obtain ⟨heap2, idx2, run2, digit2, layout2, kept2⟩ := layout1.countDigits fits disjoint nonempty .middle
    (lowDigit last) (by simp only [Pass.seqTbl]; omega)
    (fun pass slot place => by
      cases pass with
      | low =>
        right
        rw [layout1.sized]
        simp only [Pass.seqTbl] at place
        simp only [Pass.radix]
        omega
      | middle =>
        left
        simp only [Pass.seqTbl] at place
        rw [Function.update_of_ne (by decide), List.getElem?_replicate, if_pos (by simp only [Pass.radix]; omega)]
      | high =>
        simp only [Pass.seqTbl] at place
        omega) rfl
  have idx2Eq := digit2 last lastEq
  subst idx2Eq
  refine ⟨heap2, ?_, layout2, kept1.trans kept2⟩
  simp only [Pass.digit, Pass.seqTbl] at run1 run2
  simp only [countTables, run1, run2, Option.bind_eq_bind, Option.bind_some]

theorem countTables_spec (layout : Layout loc buf room values (fun pass => List.replicate (pass.radix + 1) 0) heap)
    (fits : 0x5060 / 4 + values.length ≤ room) (disjoint : loc + values.length ≤ buf ∨ buf + room ≤ loc)
    (nonempty : 0 < values.length) {idx : Int} (firstStray : 0 ≤ idx ∧ idx < room)
    (thirdStray : ∀ last, values.getLast? = some last → 0x4040 / 4 + middleDigit last < room) :
    ∃ final last, countTables loc buf values.length heap idx = some (final, last) ∧
      Layout loc buf room values (fun pass => counters (pass.radix + 1) (tally pass.digit values)) final ∧
      Kept buf room heap final := by
  obtain ⟨last, lastEq⟩ : ∃ last, values.getLast? = some last :=
    ⟨_, List.getLast?_eq_getLast_of_ne_nil (List.ne_nil_of_length_pos nonempty)⟩
  have third := thirdStray last lastEq
  obtain ⟨heap2, upto, layout2, kept2⟩ := countTables_upto layout fits disjoint nonempty firstStray lastEq
  obtain ⟨heap3, idx3, run3, _, layout3, kept3⟩ := layout2.countDigits fits disjoint nonempty .high
    (middleDigit last) (by simp only [Pass.seqTbl]; omega)
    (fun pass slot place => by
      cases pass with
      | low =>
        right
        rw [layout2.sized]
        simp only [Pass.seqTbl] at place
        simp only [Pass.radix]
        omega
      | middle =>
        right
        rw [layout2.sized]
        simp only [Pass.seqTbl] at place
        simp only [Pass.radix]
        omega
      | high =>
        rw [Function.update_of_ne (by decide), Function.update_of_ne (by decide)]
        exact fresh_slot (Pass.high.radix + 1) slot) rfl
  refine ⟨heap3, idx3, upto.trans run3, ?_, kept2.trans kept3⟩
  have tables : Function.update (Function.update (Function.update (fun pass : Pass => List.replicate (pass.radix + 1) 0)
      .low (counters (Pass.low.radix + 1) (tally Pass.low.digit values)))
      .middle (counters (Pass.middle.radix + 1) (tally Pass.middle.digit values)))
      .high (counters (Pass.high.radix + 1) (tally Pass.high.digit values)) =
      fun pass => counters (pass.radix + 1) (tally pass.digit values) := by
    funext pass
    cases pass <;> rfl
  rwa [tables] at layout3

theorem sumTables_spec
    (layout : Layout loc buf room values (fun pass => counters (pass.radix + 1) (tally pass.digit values)) heap)
    (fits : 0x5060 / 4 + values.length ≤ room) (disjoint : loc + values.length ≤ buf ∨ buf + room ≤ loc) :
    ∃ final, sumTables buf heap = some final ∧
      Layout loc buf room values (fun pass => counters (pass.radix + 1) (summed pass.digit values (pass.radix - 1))) final ∧
      Kept buf room heap final := by
  obtain ⟨heap1, run1, layout1, kept1⟩ := layout.prefixSums fits disjoint .low rfl
  obtain ⟨heap2, run2, layout2, kept2⟩ := layout1.prefixSums fits disjoint .middle rfl
  obtain ⟨heap3, run3, layout3, kept3⟩ := layout2.prefixSums fits disjoint .high rfl
  refine ⟨heap3, ?_, ?_, (kept1.trans kept2).trans kept3⟩
  · simp only [Pass.seqTbl, Pass.radix] at run1 run2 run3
    simp only [sumTables, run1, run2, run3, Option.bind_eq_bind, Option.bind_some]
  · have tables : Function.update (Function.update (Function.update
        (fun pass : Pass => counters (pass.radix + 1) (tally pass.digit values))
        .low (counters (Pass.low.radix + 1) (summed Pass.low.digit values (Pass.low.radix - 1))))
        .middle (counters (Pass.middle.radix + 1) (summed Pass.middle.digit values (Pass.middle.radix - 1))))
        .high (counters (Pass.high.radix + 1) (summed Pass.high.digit values (Pass.high.radix - 1))) =
        fun pass => counters (pass.radix + 1) (summed pass.digit values (pass.radix - 1)) := by
      funext pass
      cases pass <;> rfl
    rwa [tables] at layout3

end

theorem passes_ascending (values : List Word) :
    UnsignedAscending (Pass.high.sort (Pass.middle.sort (Pass.low.sort values))) := by
  have unordered : values.Pairwise fun _ _ => True := List.pairwise_of_forall fun _ _ => trivial
  refine List.Pairwise.imp ?_ (bucketSort_pairwise (bucketSort_pairwise (bucketSort_pairwise unordered)))
  intro first second ordered
  exact le_of_digits ordered

theorem Pass.scatter_spec (pass : Pass) {buf source dist : Int} {values : List Word} {heap : Heap Word} {n : Nat}
    (length : values.length = n) (small : n < 2 ^ 31) (held : heap.Holds source values) (room : heap.Allocated dist n)
    (table : heap.Holds (pass.seqTbl buf) (pass.starts values))
    (sourceTable : source + n ≤ buf ∨ buf + 0x5060 / 4 ≤ source) (distTable : dist + n ≤ buf ∨ buf + 0x5060 / 4 ≤ dist)
    (apart : source + n ≤ dist ∨ dist + n ≤ source) :
    ∃ final, scatter pass.digit (pass.seqTbl buf) source dist n heap = some final ∧
      final.Holds dist (pass.sort values) ∧
      final.Holds (pass.seqTbl buf) (counters pass.radix (cursor pass.digit values values)) ∧
      ∀ cell, Outside cell (pass.seqTbl buf) pass.radix → Outside cell dist n → final cell = heap cell := by
  subst length
  have bounds := pass.seqTbl_bounds buf
  exact SortSpeed.scatter_spec pass.digit_lt small held room table (by omega) apart (by omega)

def CountsOnly (buf : Int) (n : Nat) (heap : Heap Word) : Prop :=
  ∀ cell, buf ≤ cell → cell < buf + 0x5060 / 4 → ∃ count ≤ n, heap cell = some (BitVec.ofNat 32 count)

theorem cursor_le (digit : Word → Nat) (values : List Word) (key : Nat) : cursor digit values values key ≤ values.length := by
  rw [cursor, ← below_succ]
  exact below_le_length

theorem tally_le (digit : Word → Nat) (values : List Word) (slot : Nat) : tally digit values slot ≤ values.length := by
  cases slot with
  | zero => exact Nat.zero_le _
  | succ key => exact List.length_filter_le _ _

theorem summed_le (digit : Word → Nat) (values : List Word) (index slot : Nat) : summed digit values index slot ≤ values.length := by
  rw [summed]
  split
  · exact below_le_length
  · exact tally_le digit values slot

theorem Layout.countsOnly {loc buf : Int} {room : Nat} {values : List Word} {initial heap : Heap Word}
    (layout : Layout loc buf room values (fun pass => counters (pass.radix + 1) (summed pass.digit values (pass.radix - 1))) heap)
    (zeroed : initial.Holds buf (List.replicate (0x5060 / 4) 0)) (kept : Kept buf room initial heap) :
    CountsOnly buf values.length heap := by
  intro cell from_ upto
  by_cases outside : ∀ pass : Pass, Outside cell (pass.seqTbl buf) (pass.radix + 1)
  · refine ⟨0, Nat.zero_le _, ?_⟩
    rcases kept cell outside with same | stray
    · have zero := zeroed.cell (cell - buf).toNat (by rw [List.length_replicate]; omega)
      rw [show buf + ((cell - buf).toNat : Int) = cell by omega, List.getElem_replicate] at zero
      rw [same, zero]
      rfl
    · exact stray.2
  · obtain ⟨pass, inside⟩ := not_forall.mp outside
    have located := (layout.table pass).cell (cell - pass.seqTbl buf).toNat (by rw [counters_length]; omega)
    rw [show pass.seqTbl buf + ((cell - pass.seqTbl buf).toNat : Int) = cell by omega, counters_getElem] at located
    exact ⟨_, summed_le _ _ _ _, located⟩

theorem Pass.countsOnly (pass : Pass) {buf dist : Int} {values : List Word} {heap final : Heap Word} {n : Nat}
    (length : values.length = n) (counts : CountsOnly buf n heap)
    (table : final.Holds (pass.seqTbl buf) (counters pass.radix (cursor pass.digit values values)))
    (distTable : dist + n ≤ buf ∨ buf + 0x5060 / 4 ≤ dist)
    (frame : ∀ cell, Outside cell (pass.seqTbl buf) pass.radix → Outside cell dist n → final cell = heap cell) :
    CountsOnly buf n final := by
  intro cell from_ upto
  by_cases outside : Outside cell (pass.seqTbl buf) pass.radix
  · rw [frame cell outside (by simp only [Outside]; omega)]
    exact counts cell from_ upto
  · have located := table.cell (cell - pass.seqTbl buf).toNat (by rw [counters_length]; omega)
    rw [show pass.seqTbl buf + ((cell - pass.seqTbl buf).toNat : Int) = cell by omega, counters_getElem] at located
    exact ⟨_, length ▸ cursor_le _ _ _, located⟩

theorem scatterPasses_spec {loc buf : Int} {room : Nat} {values : List Word} {heap : Heap Word}
    (fits : 0x5060 / 4 + values.length ≤ room) (disjoint : loc + values.length ≤ buf ∨ buf + room ≤ loc)
    (small : values.length < 2 ^ 31) (held : heap.Holds loc values) (allocated : heap.Allocated buf room)
    (tables : ∀ pass : Pass, heap.Holds (pass.seqTbl buf) (pass.starts values)) :
    ∃ final, scatterPasses loc buf values.length heap = some final ∧
      final.Holds (buf + 0x5060 / 4) (Pass.high.sort (Pass.middle.sort (Pass.low.sort values))) ∧
      final.Holds loc (Pass.middle.sort (Pass.low.sort values)) ∧
      (CountsOnly buf values.length heap → CountsOnly buf values.length final) ∧
      ∀ cell, Outside cell loc values.length → Outside cell buf room → final cell = heap cell := by
  generalize size : values.length = n at *
  have lowBounds := Pass.low.seqTbl_bounds buf
  have middleBounds := Pass.middle.seqTbl_bounds buf
  have highBounds := Pass.high.seqTbl_bounds buf
  have lowMiddle : Pass.low.seqTbl buf + Pass.low.radix ≤ Pass.middle.seqTbl buf := by simp [Pass.seqTbl, Pass.radix]
  have middleHigh : Pass.middle.seqTbl buf + Pass.middle.radix ≤ Pass.high.seqTbl buf := by
    simp only [Pass.seqTbl, Pass.radix]
    omega
  have room1 : heap.Allocated (buf + 0x5060 / 4) n := by
    intro index inside
    have cell := allocated (0x5060 / 4 + index) (by omega)
    rwa [show buf + ((0x5060 / 4 + index : Nat) : Int) = buf + 0x5060 / 4 + index by omega] at cell
  obtain ⟨heap1, run1, data1, cursors1, frame1⟩ := Pass.low.scatter_spec size small held room1 (tables .low)
    (by omega) (by omega) (by omega)
  have perm1 := Pass.low.sort_perm values
  have length1 := perm1.length_eq.trans size
  have held1 := held.frame_two frame1 (by omega) (by omega)
  have middle1 := (tables .middle).frame_two frame1 (by rw [Pass.starts_length]; omega) (by rw [Pass.starts_length]; omega)
  rw [Pass.starts_perm perm1.symm] at middle1
  have high1 := (tables .high).frame_two frame1 (by rw [Pass.starts_length]; omega) (by rw [Pass.starts_length]; omega)
  obtain ⟨heap2, run2, data2, cursors2, frame2⟩ := Pass.middle.scatter_spec length1 small data1 (size ▸ held1.allocated) middle1
    (by omega) (by omega) (by omega)
  have perm2 := (Pass.middle.sort_perm (Pass.low.sort values)).trans perm1
  have length2 := perm2.length_eq.trans size
  have kept2 := data1.frame_two frame2 (by omega) (by omega)
  have high2 := high1.frame_two frame2 (by rw [Pass.starts_length]; omega) (by rw [Pass.starts_length]; omega)
  rw [Pass.starts_perm perm2.symm] at high2
  obtain ⟨heap3, run3, data3, cursors3, frame3⟩ := Pass.high.scatter_spec length2 small data2 (length1 ▸ kept2.allocated) high2
    (by omega) (by omega) (by omega)
  have held3 := data2.frame_two frame3 (by omega) (by omega)
  refine ⟨heap3, ?_, data3, held3, fun counts => ?_, fun cell outLoc outBuf => ?_⟩
  · simp only [Pass.digit, Pass.seqTbl] at run1 run2 run3
    simp only [scatterPasses, run1, run2, run3, Option.bind_eq_bind, Option.bind_some]
  · have counts1 : CountsOnly buf n heap1 := Pass.low.countsOnly size counts cursors1 (by omega) frame1
    have counts2 : CountsOnly buf n heap2 := Pass.middle.countsOnly length1 counts1 cursors2 (by omega) frame2
    exact Pass.high.countsOnly length2 counts2 cursors3 (by omega) frame3
  · calc heap3 cell = heap2 cell := frame3 cell (by simp only [Outside] at *; omega) (by simp only [Outside] at *; omega)
      _ = heap1 cell := frame2 cell (by simp only [Outside] at *; omega) outLoc
      _ = heap cell := frame1 cell (by simp only [Outside] at *; omega) (by simp only [Outside] at *; omega)

/-- `loc` holds the values, and `buf` has room for the tables, which are zero, and for the data. -/
structure Workspace (heap : Heap Word) (loc buf : Int) (room : Nat) (values : List Word) : Prop where
  held : heap.Holds loc values
  zeroed : heap.Holds buf (List.replicate (0x5060 / 4) 0)
  allocated : heap.Allocated buf room
  fits : 0x5060 / 4 + values.length ≤ room
  apart : loc + values.length ≤ buf ∨ buf + room ≤ loc

def passesSort (values : List Word) : List Word := Pass.high.sort (Pass.middle.sort (Pass.low.sort values))

theorem passesSort_perm (values : List Word) : (passesSort values).Perm values :=
  (Pass.high.sort_perm _).trans ((Pass.middle.sort_perm _).trans (Pass.low.sort_perm values))

structure AfterPasses (heap : Heap Word) (loc buf : Int) (room : Nat) (values : List Word) (after : Heap Word) : Prop where
  data : after.Holds (buf + 0x5060 / 4) (passesSort values)
  source : after.Holds loc (Pass.middle.sort (Pass.low.sort values))
  counts : CountsOnly buf values.length after
  frame : ∀ cell, Outside cell loc values.length → Outside cell buf room → after cell = heap cell

section
variable {heap : Heap Word} {loc buf : Int} {room : Nat} {values : List Word}

theorem Workspace.layout (workspace : Workspace heap loc buf room values) :
    Layout loc buf room values (fun pass => List.replicate (pass.radix + 1) 0) heap := by
  refine ⟨workspace.held, fun pass => ?_, fun _ => List.length_replicate, workspace.allocated⟩
  have bounds := pass.seqTbl_bounds buf
  have window := workspace.zeroed.window (pass.seqTbl buf - buf).toNat (pass.radix + 1) (by rw [List.length_replicate]; omega)
  rw [show buf + ((pass.seqTbl buf - buf).toNat : Int) = pass.seqTbl buf by omega, List.drop_replicate,
    List.take_replicate, Nat.min_eq_left (by omega)] at window
  exact window

theorem Workspace.radixSort (workspace : Workspace heap loc buf room values) (ptr ptrd : Int)
    (atLeast : 16 ≤ values.length) (small : values.length < 2 ^ 31) {idx : Int} (firstStray : 0 ≤ idx ∧ idx < room)
    (thirdStray : ∀ last, values.getLast? = some last → 0x4040 / 4 + middleDigit last < room) :
    ∃ after, SortSpeed.radixSort ptr ptrd heap loc buf values.length idx =
        (after.read (ptrd + 0x5060 / 4) values.length).bind (after.write ptr) ∧
      AfterPasses heap loc buf room values after := by
  have fits := workspace.fits
  have apart := workspace.apart
  obtain ⟨counted, last, run1, layout1, kept1⟩ := countTables_spec workspace.layout fits apart (by omega) firstStray thirdStray
  obtain ⟨summed, run2, layout2, kept2⟩ := sumTables_spec layout1 fits apart
  obtain ⟨after, run3, data, source, counts, frame⟩ := scatterPasses_spec fits apart small layout2.source layout2.allocated
    fun pass => counters_summed (layout2.table pass)
  have kept := kept1.trans kept2
  refine ⟨after, ?_, data, source, counts (layout2.countsOnly workspace.zeroed kept), fun cell outLoc outBuf => ?_⟩
  · simp only [SortSpeed.radixSort, run1, run2, run3, Option.bind_eq_bind, Option.bind_some]
  · calc after cell = summed cell := frame cell outLoc outBuf
      _ = heap cell := kept.outside (by omega) cell outBuf

theorem AfterPasses.copy {after : Heap Word} (passed : AfterPasses heap loc buf room values after) :
    (after.read (buf + 0x5060 / 4) values.length).bind (after.write loc) = some (after.splice loc (passesSort values)) := by
  have length := (passesSort_perm values).length_eq
  have copied := passed.data.read
  have allocated := passed.source.allocated
  rw [length] at copied
  rw [((Pass.middle.sort_perm _).trans (Pass.low.sort_perm values)).length_eq, ← length] at allocated
  rw [copied, Option.bind_some, allocated.write]

end

/-- `radix_sort` called as `main` calls it, on `ptr` with the zeroed buffer `ptrd`. -/
theorem radixSort_sorts (heap : Heap Word) (ptr ptrd : Int) (room : Nat) (values : List Word)
    (atLeast : 16 ≤ values.length) (small : values.length < 2 ^ 31 - 1)
    (held : heap.Holds ptr values) (zeroed : heap.Holds ptrd (List.replicate (0x5060 / 4) 0))
    (allocated : heap.Allocated ptrd room) (fits : 0x5060 / 4 + values.length ≤ room)
    (disjoint : ptr + values.length ≤ ptrd ∨ ptrd + room ≤ ptr)
    (idx : Int) (firstStray : 0 ≤ idx ∧ idx < room)
    (thirdStray : ∀ last, values.getLast? = some last → 0x4040 / 4 + middleDigit last < room) :
    ∃ final sorted, radixSort ptr ptrd heap ptr ptrd values.length idx = some final ∧
      final.Holds ptr sorted ∧ UnsignedAscending sorted ∧ sorted.Perm values := by
  have workspace : Workspace heap ptr ptrd room values := ⟨held, zeroed, allocated, fits, disjoint⟩
  obtain ⟨after, ran, passed⟩ := workspace.radixSort ptr ptrd atLeast (by omega) firstStray thirdStray
  exact ⟨_, _, ran.trans passed.copy, Heap.holds_splice_self, passes_ascending values, passesSort_perm values⟩

def digitValues : List Word := (List.range 16).map fun index => BitVec.ofNat 32 (2 ^ 32 - 0x00401001 * index - 1)

def bufferHeap : Heap Word := (Heap.splice Heap.empty 0 digitValues).splice 100 (List.replicate 7000 0)

theorem bufferHeap_holds : bufferHeap.Holds 100 (List.replicate 7000 0) := Heap.holds_splice_self

theorem radixSort_sorts_digits :
    ∃ final sorted, radixSort 0 100 bufferHeap 0 100 16 5 = some final ∧
      final.Holds 0 sorted ∧ UnsignedAscending sorted ∧ sorted.Perm digitValues := by
  have allocated := bufferHeap_holds.allocated
  have zeroed := bufferHeap_holds.window 0 (0x5060 / 4) (by rw [List.length_replicate]; decide)
  rw [List.length_replicate] at allocated
  rw [List.drop_zero, List.take_replicate, Nat.min_eq_left (by decide), Nat.cast_zero, Int.add_zero] at zeroed
  refine radixSort_sorts bufferHeap 0 100 7000 digitValues (by decide) (by decide)
    (Heap.holds_splice_self.splice_disjoint (Or.inl (by decide))) zeroed allocated (by decide)
    (Or.inl (by decide)) 5 (by decide) fun last _ => ?_
  have bound := Pass.middle.digit_lt last
  simp only [Pass.digit, Pass.radix] at bound
  omega

end Mbench.SortSpeed
