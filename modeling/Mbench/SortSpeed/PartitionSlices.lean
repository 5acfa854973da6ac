import Mbench.Library.TwoScans
import Mbench.SortSpeed.QsRecsv

/-! `scalar_partition_epi32` leaves the two sides of two scans: its unguarded loops stop where scans of the list
between the bounds would. -/

namespace Mbench.SortSpeed
open Library

def slices (pivot : Word) (values : List Word) : List Word × List Word :=
  twoScans (fun value => decide (value < pivot)) (fun value => decide (pivot < value)) values

theorem slices_length (pivot : Word) (values : List Word) :
    (slices pivot values).1.length + (slices pivot values).2.length ≤ values.length :=
  twoScans_length values

theorem apart (pivot value : Word) (above : decide (pivot < value) = true) : decide (value < pivot) = false :=
  decide_eq_false (BitVec.not_lt.mpr (BitVec.le_of_lt (of_decide_eq_true above)))

abbrev Passed (pivot : Word) (front core back : List Word) : Prop :=
  Trimmed (fun value => decide (value < pivot)) (fun value => decide (pivot < value)) front core back

section
variable {heap : Heap Word} {pivot : Word}

theorem scan_run (passes : Word → Bool) (next : Int → Int) (position : Nat → Int)
    (advances : ∀ moved, next (position moved) = position (moved + 1)) (distance fuel : Nat)
    (run : ∀ moved < distance, ∃ value, heap (position moved) = some value ∧ passes value = true)
    (stop : ∃ value, heap (position distance) = some value ∧ passes value = false) (enough : distance < fuel) :
    whileLoop (fun bound => (heap.load bound).map passes) (fun bound => some (next bound)) fuel (position 0) =
      some (position distance) := by
  induction distance generalizing position fuel with
  | zero =>
    obtain ⟨fuel, rfl⟩ := Nat.exists_eq_succ_of_ne_zero (Nat.ne_zero_of_lt enough)
    obtain ⟨value, found, blocked⟩ := stop
    simp [whileLoop, Heap.load, found, blocked]
  | succ distance ih =>
    obtain ⟨fuel, rfl⟩ := Nat.exists_eq_succ_of_ne_zero (Nat.ne_zero_of_lt enough)
    obtain ⟨value, found, passed⟩ := run 0 (Nat.succ_pos _)
    have rest := ih (fun moved => position (moved + 1)) (fun moved => advances (moved + 1)) fuel
      (fun moved near => run (moved + 1) (by omega)) stop (by omega)
    simp only [whileLoop, Heap.load, found, Option.map_some, passed, Option.bind_eq_bind, Option.bind_some, if_true,
      advances]
    exact rest

theorem scanRight_run {start : Int} {front rest : List Word} {stop : Word} (fuel : Nat)
    (held : heap.Holds start (front ++ stop :: rest)) (passed : ∀ value ∈ front, value < pivot) (stops : ¬stop < pivot)
    (enough : front.length < fuel) : scanRight fuel pivot heap start = some (start + front.length) := by
  obtain ⟨heldFront, heldRest⟩ := Heap.holds_append.mp held
  have ran := scan_run (fun value => decide (value < pivot)) (fun bound => bound + 1)
    (fun moved => start + (moved : Int)) (fun moved => by push_cast; ring) front.length fuel
    (fun moved near => ⟨_, heldFront.cell moved near, decide_eq_true (passed _ (List.getElem_mem near))⟩)
    ⟨stop, (Heap.holds_cons.mp heldRest).1, decide_eq_false stops⟩ enough
  simpa [scanRight] using ran

theorem scanLeft_run {start : Int} {rest back : List Word} {stop : Word} (fuel : Nat)
    (held : heap.Holds start (rest ++ stop :: back)) (passed : ∀ value ∈ back, pivot < value) (stops : ¬pivot < stop)
    (enough : back.length < fuel) :
    scanLeft fuel pivot heap (start + rest.length + back.length) = some (start + rest.length) := by
  obtain ⟨found, heldBack⟩ := Heap.holds_cons.mp (Heap.holds_append.mp held).2
  have last : start + rest.length + back.length - (back.length : Int) = start + rest.length := by ring
  have ran := scan_run (fun value => decide (pivot < value)) (fun bound => bound - 1)
    (fun moved => start + rest.length + back.length - (moved : Int)) (fun moved => by push_cast; ring) back.length fuel
    (fun moved near => ?_) ⟨stop, last ▸ found, decide_eq_false stops⟩ enough
  · simpa [scanLeft] using ran
  · have mirrored : back.length - 1 - moved < back.length := by omega
    have place : start + rest.length + 1 + ((back.length - 1 - moved : Nat) : Int) =
        start + rest.length + back.length - (moved : Int) := by omega
    exact ⟨_, place ▸ heldBack.cell _ mirrored, decide_eq_true (passed _ (List.getElem_mem mirrored))⟩

theorem exchange_pieces {lo : Int} {before middle after : List Word} {first last : Word}
    (held : heap.Holds lo (before ++ first :: (middle ++ last :: after))) :
    ∃ final, exchange heap (lo + before.length) (lo + before.length + 1 + middle.length) = some final ∧
      final.Holds lo (before ++ last :: (middle ++ first :: after)) := by
  obtain ⟨final, ran, -, atFirst, atLast, others⟩ :=
    exchange_spec held before.length (before.length + 1 + middle.length) (by simp) (by simp; omega)
  have place : lo + ((before.length + 1 + middle.length : Nat) : Int) = lo + before.length + 1 + middle.length := by
    push_cast
    ring
  rw [place] at ran atFirst atLast others
  rw [Heap.holds_append, Heap.holds_cons, Heap.holds_append, Heap.holds_cons] at held
  obtain ⟨heldBefore, foundFirst, heldMiddle, foundLast, heldAfter⟩ := held
  refine ⟨final, ran, ?_⟩
  rw [Heap.holds_append, Heap.holds_cons, Heap.holds_append, Heap.holds_cons]
  refine ⟨?_, atFirst.trans foundLast, ?_, atLast.trans foundFirst, ?_⟩
  · exact heldBefore.congr fun cell from_ upto => others cell (by omega) (by omega)
  · exact heldMiddle.congr fun cell from_ upto => others cell (by omega) (by omega)
  · exact heldAfter.congr fun cell from_ upto => others cell (by omega) (by omega)

theorem exchange_self {lo : Int} {values : List Word} (held : heap.Holds lo values) (index : Nat)
    (inside : index < values.length) :
    ∃ final, exchange heap (lo + index) (lo + index) = some final ∧ final.Holds lo values := by
  obtain ⟨final, ran, -, same, -, others⟩ := exchange_spec held index index inside inside
  refine ⟨final, ran, held.congr fun cell from_ upto => ?_⟩
  by_cases here : cell = lo + index
  · rw [here, same]
  · exact others cell here here

/-- Both scans of the elements between the bounds are stopped: by an occurrence of the pivot, or by what is beyond
the other bound. -/
def Guarded (pivot : Word) (before values after : List Word) : Prop :=
  pivot ∈ values ∨
    (∃ front last, before = front ++ [last] ∧ ¬pivot < last) ∧ ∃ first back, after = first :: back ∧ ¬first < pivot

theorem Guarded.stopRight {before front core back after : List Word}
    (guarded : Guarded pivot before (front ++ core ++ back) after) (trimmed : Passed pivot front core back) :
    ∃ stop rest, core ++ back ++ after = stop :: rest ∧ ¬stop < pivot := by
  match core, back with
  | stop :: _, _ => exact ⟨stop, _, rfl, of_decide_eq_false (trimmed.stopFront stop rfl)⟩
  | [], stop :: _ => exact ⟨stop, _, rfl, of_decide_eq_false (trimmed.beyond stop List.mem_cons_self)⟩
  | [], [] =>
    rcases guarded with occurs | ⟨-, stop, rest, same, stops⟩
    · rw [List.append_nil, List.append_nil] at occurs
      exact absurd (of_decide_eq_true (trimmed.passedFront pivot occurs)) (BitVec.lt_irrefl _)
    · exact ⟨stop, rest, same, stops⟩

theorem Guarded.stopLeft {before front core back after : List Word}
    (guarded : Guarded pivot before (front ++ core ++ back) after) (trimmed : Passed pivot front core back) :
    ∃ rest stop, before ++ front ++ core = rest ++ [stop] ∧ ¬pivot < stop := by
  rcases List.eq_nil_or_concat core with rfl | ⟨core, stop, rfl⟩
  · rcases List.eq_nil_or_concat front with rfl | ⟨front, stop, rfl⟩
    · rcases guarded with occurs | ⟨⟨rest, stop, same, stops⟩, -⟩
      · exact absurd (of_decide_eq_true (trimmed.passedBack pivot occurs)) (BitVec.lt_irrefl _)
      · exact ⟨rest, stop, by rw [List.append_nil, List.append_nil, same], stops⟩
    · have below : stop < pivot := of_decide_eq_true (trimmed.passedFront stop (by simp))
      exact ⟨before ++ front, stop, by simp, BitVec.not_lt.mpr (BitVec.le_of_lt below)⟩
  · exact ⟨before ++ front ++ core, stop, by simp, of_decide_eq_false (trimmed.stopBack stop (by simp))⟩

theorem scans_trimmed {lo : Int} {before front core back after : List Word} (fuel : Nat)
    (held : heap.Holds lo (before ++ (front ++ core ++ back) ++ after)) (trimmed : Passed pivot front core back)
    (guarded : Guarded pivot before (front ++ core ++ back) after) (enough : (front ++ core ++ back).length < fuel) :
    scanRight fuel pivot heap (lo + before.length) = some (lo + before.length + front.length) ∧
      scanLeft fuel pivot heap (lo + before.length + (front ++ core ++ back).length - 1) =
        some (lo + before.length + front.length + core.length - 1) := by
  simp only [List.length_append] at enough ⊢
  constructor
  · obtain ⟨stop, rest, same, stops⟩ := guarded.stopRight trimmed
    have pieces : before ++ (front ++ core ++ back) ++ after = before ++ (front ++ stop :: rest) := by
      rw [← same]
      simp only [List.append_assoc]
    rw [pieces] at held
    exact scanRight_run fuel (Heap.holds_append.mp held).2
      (fun value member => of_decide_eq_true (trimmed.passedFront value member)) stops (by omega)
  · obtain ⟨rest, stop, same, stops⟩ := guarded.stopLeft trimmed
    have pieces : before ++ (front ++ core ++ back) ++ after = rest ++ stop :: back ++ after := by
      rw [← List.append_assoc before, ← List.append_assoc before, same]
      simp only [List.append_assoc, List.cons_append, List.nil_append]
    have size := congrArg List.length same
    simp only [List.length_append, List.length_singleton] at size
    rw [pieces] at held
    have ran := scanLeft_run fuel (Heap.holds_append.mp held).1
      (fun value member => of_decide_eq_true (trimmed.passedBack value member)) stops (by omega)
    have from_ : lo + before.length + ((front.length + core.length + back.length : Nat) : Int) - 1 =
        lo + rest.length + back.length := by omega
    have upto : lo + before.length + front.length + core.length - 1 = lo + rest.length := by omega
    rw [from_, upto]
    exact ran

structure Sliced (pivot : Word) (lo : Int) (before values after middle : List Word) (final : Bounds) : Prop where
  held : final.heap.Holds lo (before ++ (slices pivot values).1 ++ middle ++ ((slices pivot values).2 ++ after))
  left : final.newLBound + 1 = lo + before.length + (slices pivot values).1.length
  right : final.newRBound = lo + before.length + (slices pivot values).1.length + middle.length
  size : (slices pivot values).1.length + middle.length + (slices pivot values).2.length = values.length

theorem Sliced.of_sides {lo : Int} {before values after left middle right : List Word} {final : Bounds}
    (sides : slices pivot values = (left, right))
    (held : final.heap.Holds lo (before ++ left ++ middle ++ (right ++ after)))
    (newLBound : final.newLBound + 1 = lo + before.length + left.length)
    (newRBound : final.newRBound = lo + before.length + left.length + middle.length)
    (size : left.length + middle.length + right.length = values.length) :
    Sliced pivot lo before values after middle final := by
  constructor
  · rwa [sides]
  · rwa [sides]
  · rwa [sides]
  · rwa [sides]

abbrev partitionLoop (scanFuel : Nat) (pivot : Word) : Nat → Bounds → Option Bounds :=
  whileLoop (fun bounds => some (decide (bounds.newRBound ≤ bounds.newLBound))) (partitionStep scanFuel pivot)

theorem partitionLoop_crossed (scanFuel : Nat) {fuel : Nat} {bounds : Bounds} (enough : 0 < fuel)
    (crossed : bounds.newLBound < bounds.newRBound) : partitionLoop scanFuel pivot fuel bounds = some bounds := by
  obtain ⟨fuel, rfl⟩ := Nat.exists_eq_succ_of_ne_zero enough.ne'
  simp [partitionLoop, whileLoop, Int.not_le.mpr crossed]

theorem partitionLoop_open (scanFuel fuel : Nat) {bounds next : Bounds} (open_ : bounds.newRBound ≤ bounds.newLBound)
    (step : partitionStep scanFuel pivot bounds = some next) :
    partitionLoop scanFuel pivot (fuel + 1) bounds = partitionLoop scanFuel pivot fuel next := by
  simp [partitionLoop, whileLoop, open_, step]

theorem partitionStep_crossed {fuel : Nat} {newRBound newLBound right left : Int}
    (scannedRight : scanRight fuel pivot heap newRBound = some right)
    (scannedLeft : scanLeft fuel pivot heap newLBound = some left) (crossed : left < right) :
    partitionStep fuel pivot { heap, newRBound, newLBound } = some { heap, newRBound := right, newLBound := left } := by
  simp [partitionStep, scannedRight, scannedLeft, Int.not_le.mpr crossed]

theorem partitionStep_exchanged {fuel : Nat} {newRBound newLBound right left : Int} {final : Heap Word}
    (scannedRight : scanRight fuel pivot heap newRBound = some right)
    (scannedLeft : scanLeft fuel pivot heap newLBound = some left) (open_ : right ≤ left)
    (exchanged : exchange heap right left = some final) :
    partitionStep fuel pivot { heap, newRBound, newLBound } =
      some { heap := final, newRBound := right + 1, newLBound := left - 1 } := by
  simp [partitionStep, scannedRight, scannedLeft, open_, exchanged]

abbrev around (heap : Heap Word) (lo : Int) (before values : List Word) : Bounds :=
  { heap, newRBound := lo + before.length, newLBound := lo + before.length + values.length - 1 }

/-- The step that ends the partition: the scans meet, at an occurrence of the pivot or between two elements. -/
theorem partitionStep_short (fuel : Nat) {lo : Int} {before front core back after : List Word}
    (held : heap.Holds lo (before ++ (front ++ core ++ back) ++ after)) (trimmed : Passed pivot front core back)
    (guarded : Guarded pivot before (front ++ core ++ back) after) (enough : (front ++ core ++ back).length < fuel)
    (short : core.length ≤ 1) :
    ∃ next, partitionStep fuel pivot (around heap lo before (front ++ core ++ back)) = some next ∧
      next.newLBound < next.newRBound ∧ Sliced pivot lo before (front ++ core ++ back) after core next := by
  obtain ⟨scannedRight, scannedLeft⟩ := scans_trimmed fuel held trimmed guarded enough
  have sides : slices pivot (front ++ core ++ back) = (front, back) := twoScans_short trimmed short
  match core, short with
  | [], _ =>
    exact ⟨_, partitionStep_crossed scannedRight scannedLeft (by simp), by simp,
      Sliced.of_sides sides (by simpa using held) (by simp) (by simp) (by simp)⟩
  | [pivot'], _ =>
    obtain ⟨heap', swapped, held'⟩ := exchange_self held (before.length + front.length) (by simp)
    have there : lo + before.length + front.length = lo + ((before.length + front.length : Nat) : Int) := by
      push_cast
      ring
    rw [there, List.length_singleton, Nat.cast_one, Int.add_sub_cancel] at scannedLeft
    rw [there] at scannedRight
    exact ⟨_, partitionStep_exchanged scannedRight scannedLeft le_rfl swapped, by simp only; omega,
      Sliced.of_sides sides (by simpa using held') (by simp [there]) (by simp [there]) (by simp; omega)⟩

/-- A step that goes on: the pair the scans stop at is exchanged, and guards the elements between. -/
theorem partitionStep_pair (fuel : Nat) {lo : Int} {before front middle back after : List Word} {first last : Word}
    (held : heap.Holds lo (before ++ (front ++ first :: (middle ++ [last]) ++ back) ++ after))
    (trimmed : Passed pivot front (first :: (middle ++ [last])) back)
    (guarded : Guarded pivot before (front ++ first :: (middle ++ [last]) ++ back) after)
    (enough : (front ++ first :: (middle ++ [last]) ++ back).length < fuel) :
    ∃ next, partitionStep fuel pivot (around heap lo before (front ++ first :: (middle ++ [last]) ++ back)) =
        some (around next lo (before ++ front ++ [last]) middle) ∧
      next.Holds lo (before ++ front ++ [last] ++ middle ++ first :: (back ++ after)) ∧
      Guarded pivot (before ++ front ++ [last]) middle (first :: (back ++ after)) := by
  obtain ⟨scannedRight, scannedLeft⟩ := scans_trimmed fuel held trimmed guarded enough
  have pieces : before ++ (front ++ first :: (middle ++ [last]) ++ back) ++ after =
      before ++ front ++ first :: (middle ++ last :: (back ++ after)) := by
    simp
  rw [pieces] at held
  obtain ⟨next, swapped, held'⟩ := exchange_pieces held
  have upper : lo + before.length + front.length = lo + ((before ++ front).length : Int) := by simp [Int.add_assoc]
  have lower : lo + before.length + front.length + (first :: (middle ++ [last])).length - 1 =
      lo + ((before ++ front).length : Int) + 1 + middle.length := by
    simp
    ring
  rw [lower] at scannedLeft
  rw [upper] at scannedRight
  have step := partitionStep_exchanged scannedRight scannedLeft (by omega) swapped
  have shifted : lo + ((before ++ front).length : Int) + 1 = lo + ((before ++ front ++ [last]).length : Int) := by
    simp [Int.add_assoc]
  rw [shifted] at step
  have lastAt : last ∈ (first :: (middle ++ [last])).getLast? := by
    rw [← List.cons_append, List.getLast?_concat]
    rfl
  refine ⟨next, step, by simpa using held', Or.inr ⟨⟨before ++ front, last, rfl, ?_⟩, first, back ++ after, rfl, ?_⟩⟩
  · exact of_decide_eq_false (trimmed.stopBack last lastAt)
  · exact of_decide_eq_false (trimmed.stopFront first rfl)

theorem Sliced.widen {lo : Int} {before front middle back after gap : List Word} {first last : Word} {final : Bounds}
    (trimmed : Passed pivot front (first :: (middle ++ [last])) back)
    (sliced : Sliced pivot lo (before ++ front ++ [last]) middle (first :: (back ++ after)) gap final) :
    Sliced pivot lo before (front ++ first :: (middle ++ [last]) ++ back) after gap final := by
  have sides : slices pivot (front ++ first :: (middle ++ [last]) ++ back) =
      (front ++ last :: (slices pivot middle).1, (slices pivot middle).2 ++ first :: back) := twoScans_pair trimmed
  refine Sliced.of_sides sides (by simpa using sliced.held) ?_ ?_ ?_
  · rw [sliced.left]
    simp
    ring
  · rw [sliced.right]
    simp
    ring
  · have size := sliced.size
    simp only [List.length_append, List.length_cons, List.length_nil]
    omega

theorem partition_run (scanFuel fuel : Nat) {lo : Int} {before values after : List Word}
    (held : heap.Holds lo (before ++ values ++ after)) (guarded : Guarded pivot before values after)
    (enoughScan : values.length < scanFuel) (enough : values.length < fuel) :
    ∃ final gap, partitionLoop scanFuel pivot fuel (around heap lo before values) = some final ∧
      Sliced pivot lo before values after gap final := by
  induction fuel generalizing heap before values after with
  | zero => omega
  | succ fuel ih =>
    by_cases nonempty : values.length = 0
    · rw [List.eq_nil_of_length_eq_zero nonempty] at held ⊢
      have sides : slices pivot [] = ([], []) := twoScans_nil
      exact ⟨_, [], partitionLoop_crossed scanFuel (Nat.succ_pos _) (by simp),
        Sliced.of_sides sides (by simpa using held) (by simp) (by simp) rfl⟩
    have started : lo + before.length ≤ lo + before.length + values.length - 1 := by omega
    obtain ⟨front, core, back, rfl, trimmed⟩ := exists_trimmed (apart pivot) values
    by_cases short : core.length ≤ 1
    · obtain ⟨next, step, crossed, sliced⟩ := partitionStep_short scanFuel held trimmed guarded enoughScan short
      exact ⟨next, core, (partitionLoop_open scanFuel fuel started step).trans
        (partitionLoop_crossed scanFuel (by omega) crossed), sliced⟩
    · obtain ⟨first, middle, last, rfl⟩ := exists_ends short
      obtain ⟨next, step, held', guarded'⟩ := partitionStep_pair scanFuel held trimmed guarded enoughScan
      simp only [List.length_append, List.length_cons] at enough enoughScan
      obtain ⟨final, gap, ran, sliced⟩ := ih held' guarded' (by omega) (by omega)
      exact ⟨final, gap, (partitionLoop_open scanFuel fuel started step).trans ran, sliced.widen trimmed⟩

/-- The partition of an array around its first element, as the recursion uses it. -/
structure Partitioned (heap : Heap Word) (lo : Int) (pivot : Word) (values middle : List Word) (final : Bounds) : Prop where
  held : final.heap.Holds lo ((slices pivot values).1 ++ middle ++ (slices pivot values).2)
  perm : ((slices pivot values).1 ++ middle ++ (slices pivot values).2).Perm values
  leftEnd : lo + (slices pivot values).1.length = final.newLBound + 1
  rightStart : lo + ((slices pivot values).1 ++ middle).length = final.newRBound
  low : ∀ value ∈ (slices pivot values).1, value ≤ pivot
  equal : ∀ value ∈ middle, value = pivot
  high : ∀ value ∈ (slices pivot values).2, pivot ≤ value
  short : middle.length ≤ 1
  leftFewer : (slices pivot values).1.length < values.length
  rightFewer : (slices pivot values).2.length < values.length
  frame : ∀ cell, Outside cell lo values.length → final.heap cell = heap cell

theorem scalarPartitionEpi32_partitioned {lo : Int} {values : List Word} (fuel : Nat) (enough : values.length < fuel)
    (occurs : pivot ∈ values) (held : heap.Holds lo values) :
    ∃ final middle, scalarPartitionEpi32 fuel pivot { heap, newRBound := lo, newLBound := lo + values.length - 1 } =
        some final ∧
      Partitioned heap lo pivot values middle final := by
  obtain ⟨final, ran, scanning, crossed, rightMoved, leftMoved⟩ := scalarPartitionEpi32_spec fuel
    (show lo + values.length - 1 + 1 = lo + values.length by omega) held occurs enough
  obtain ⟨left, middle, right, pieces, perm, leftEnd, rightStart, low, equal, high, short, leftFewer, rightFewer⟩ :=
    partition_slices scanning crossed rightMoved leftMoved
  have whole : heap.Holds lo ([] ++ values ++ []) := by simpa using held
  obtain ⟨other, gap, ran', ⟨held', left', right', size⟩⟩ := partition_run fuel fuel whole
    (Or.inl occurs) enough enough
  rw [around, List.length_nil, Nat.cast_zero, Int.add_zero] at ran'
  rw [List.length_nil, Nat.cast_zero, Int.add_zero] at left' right'
  obtain rfl : other = final := Option.some.inj (ran'.symm.trans ran)
  rw [List.nil_append, List.append_nil] at held'
  rw [List.length_append] at rightStart
  have leftSize : (slices pivot values).1.length = left.length := by omega
  have gapSize : gap.length = middle.length := by omega
  have total := perm.length_eq
  rw [List.length_append, List.length_append] at total
  have same : (slices pivot values).1 ++ gap ++ (slices pivot values).2 = left ++ middle ++ right := by
    apply held'.unique pieces
    simp only [List.length_append]
    omega
  obtain ⟨front, rightSame⟩ := List.append_inj same (by rw [List.length_append, List.length_append, leftSize, gapSize])
  obtain ⟨leftSame, gapSame⟩ := List.append_inj front leftSize
  subst gapSame
  refine ⟨other, gap, ran, ?_⟩
  constructor
  · exact held'
  · rwa [same]
  · omega
  · rw [List.length_append]
    omega
  · rwa [leftSame]
  · exact equal
  · rwa [rightSame]
  · exact short
  · omega
  · rwa [rightSame]
  · exact scanning.frame

theorem scalarPartitionEpi32_slices {lo : Int} {values : List Word} (occurs : pivot ∈ values) (held : heap.Holds lo values) :
    ∃ final middle, scalarPartitionEpi32 (values.length + 2) pivot
        { heap, newRBound := lo, newLBound := lo + values.length - 1 } = some final ∧
      Partitioned heap lo pivot values middle final :=
  scalarPartitionEpi32_partitioned (values.length + 2) (by omega) occurs held

end

theorem slices_fewer {pivot : Word} {values : List Word} (occurs : pivot ∈ values) :
    (slices pivot values).1.length < values.length ∧ (slices pivot values).2.length < values.length := by
  have held : (Heap.splice Heap.empty 0 values).Holds 0 values := Heap.holds_splice_self
  obtain ⟨final, middle, -, partitioned⟩ := scalarPartitionEpi32_slices occurs held
  exact ⟨partitioned.leftFewer, partitioned.rightFewer⟩

theorem slices_replicate (value : Word) (count : Nat) :
    slices value (List.replicate count value) = (List.replicate (count / 2) value, List.replicate (count / 2) value) := by
  have same : decide (value < value) = false := decide_eq_false (BitVec.lt_irrefl value)
  apply twoScans_replicate
  · exact same
  · exact same

abbrev sides (values : List Word) : List Word × List Word := slices (values.headD 0) values

theorem load_first {heap : Heap Word} {array : Int} {values : List Word} (held : heap.Holds array values)
    (nonempty : 0 < values.length) : values.headD 0 ∈ values ∧ heap.load array = some (values.headD 0) := by
  cases values with
  | nil => simp at nonempty
  | cons value others => exact ⟨List.mem_cons_self, (Heap.holds_cons.mp held).1⟩

end Mbench.SortSpeed
