import Mbench.Library.Memory
import Mbench.Library.Loop
import Mbench.SortSpeed.Order
import Mathlib.Data.List.Perm.Basic

/-! The scalar quicksort of `sortSpeed.cpp`: a Hoare partition by two unguarded scans,
and the recursion on the two slices it leaves. -/

namespace Mbench.SortSpeed
open Library

structure Bounds where
  heap : Heap Word
  newRBound : Int
  newLBound : Int

/-- `while (**newRBound < pivot) (*newRBound)++`. -/
def scanRight (fuel : Nat) (pivot : Word) (heap : Heap Word) : Int → Option Int :=
  whileLoop (fun bound => (heap.load bound).map fun value => decide (value < pivot))
    (fun bound => some (bound + 1)) fuel

/-- `while (**newLBound > pivot) (*newLBound)--`. -/
def scanLeft (fuel : Nat) (pivot : Word) (heap : Heap Word) : Int → Option Int :=
  whileLoop (fun bound => (heap.load bound).map fun value => decide (pivot < value))
    (fun bound => some (bound - 1)) fuel

def exchange (heap : Heap Word) (newRBound newLBound : Int) : Option (Heap Word) := do
  let t ← heap.load newRBound
  let other ← heap.load newLBound
  let heap ← heap.store newRBound other
  heap.store newLBound t

def partitionStep (fuel : Nat) (pivot : Word) (bounds : Bounds) : Option Bounds := do
  let heap := bounds.heap
  let newRBound ← scanRight fuel pivot heap bounds.newRBound
  let newLBound ← scanLeft fuel pivot heap bounds.newLBound
  if newRBound ≤ newLBound then
    let heap ← exchange heap newRBound newLBound
    some { heap, newRBound := newRBound + 1, newLBound := newLBound - 1 }
  else some { heap, newRBound, newLBound }

/-- `scalar_partition_epi32`, with fuel for each of its loops. -/
def scalarPartitionEpi32 (fuel : Nat) (pivot : Word) (bounds : Bounds) : Option Bounds :=
  whileLoop (fun bounds => some (bounds.newRBound ≤ bounds.newLBound)) (partitionStep fuel pivot) fuel bounds

/-- `qs_recsv`, with fuel for the depth of its recursion. -/
def qsRecsv : Nat → Heap Word → Int → Nat → Option (Heap Word)
  | 0, _, _, _ => none
  | fuel + 1, heap, array, nElems => do
      let lBound := array
      let rBound := array + nElems - 1
      let pivot ← heap.load array
      let bounds ← scalarPartitionEpi32 (nElems + 2) pivot { heap, newRBound := lBound, newLBound := rBound }
      let heap ←
        (if lBound < bounds.newLBound then
          qsRecsv fuel bounds.heap lBound (bounds.newLBound + 1 - lBound).toNat
        else some bounds.heap)
      if bounds.newRBound < rBound then
        qsRecsv fuel heap bounds.newRBound (rBound + 1 - bounds.newRBound).toNat
      else some heap

/-! The scans. -/

section
variable {heap : Heap Word} {pivot : Word}

theorem scan_spec (passes : Word → Prop) [DecidablePred passes] (next : Int → Int) (position : Nat → Int)
    (advances : ∀ moved, next (position moved) = position (moved + 1)) (distance fuel : Nat)
    (cells : ∀ moved ≤ distance, (heap (position moved)).isSome)
    {sentinel : Word} (sentinelAt : heap (position distance) = some sentinel) (blocks : ¬passes sentinel)
    (enough : distance < fuel) :
    ∃ moved ≤ distance,
      whileLoop (fun bound => (heap.load bound).map fun value => decide (passes value))
        (fun bound => some (next bound)) fuel (position 0) = some (position moved) ∧
      (∀ earlier < moved, ∀ value, heap (position earlier) = some value → passes value) ∧
      ∃ value, heap (position moved) = some value ∧ ¬passes value := by
  induction distance generalizing position fuel with
  | zero =>
    obtain ⟨fuel, rfl⟩ := Nat.exists_eq_add_of_lt enough
    exact ⟨0, le_rfl, by simp [whileLoop, Heap.load, sentinelAt, blocks], fun _ early => absurd early (Nat.not_lt_zero _),
      sentinel, sentinelAt, blocks⟩
  | succ distance ih =>
    obtain ⟨value, found⟩ := Option.isSome_iff_exists.mp (cells 0 (Nat.zero_le _))
    obtain ⟨fuel, rfl⟩ := Nat.exists_eq_succ_of_ne_zero (Nat.ne_zero_of_lt enough)
    by_cases pass : passes value
    · obtain ⟨moved, near, run, passed, stopped⟩ := ih (fun moved => position (moved + 1))
        (fun moved => advances (moved + 1)) fuel (fun moved near => cells (moved + 1) (by omega)) sentinelAt (by omega)
      refine ⟨moved + 1, by omega, ?_, fun earlier before other here => ?_, stopped⟩
      · simp only [whileLoop, Heap.load, found, Option.map_some, pass, decide_true, Option.bind_eq_bind,
          Option.bind_some, if_true, advances]
        exact run
      · cases earlier with
        | zero =>
          rw [found] at here
          exact Option.some.inj here ▸ pass
        | succ earlier => exact passed earlier (by omega) other here
    · exact ⟨0, Nat.zero_le _, by simp [whileLoop, Heap.load, found, pass],
        fun _ early => absurd early (Nat.not_lt_zero _), value, found, pass⟩

theorem scanRight_spec (fuel : Nat) {start stop : Int} (ordered : start ≤ stop)
    (cells : ∀ cell, start ≤ cell → cell ≤ stop → (heap cell).isSome)
    {sentinel : Word} (sentinelAt : heap stop = some sentinel) (blocks : ¬sentinel < pivot)
    (enough : (stop - start).toNat < fuel) :
    ∃ bound, scanRight fuel pivot heap start = some bound ∧ start ≤ bound ∧ bound ≤ stop ∧
      (∀ cell value, start ≤ cell → cell < bound → heap cell = some value → value < pivot) ∧
      ∃ value, heap bound = some value ∧ ¬value < pivot := by
  have last : start + ((stop - start).toNat : Int) = stop := by omega
  obtain ⟨moved, near, run, passed, stopped⟩ := scan_spec (fun value => value < pivot) (fun bound => bound + 1)
    (fun moved => start + (moved : Int)) (fun moved => by push_cast; omega) (stop - start).toNat fuel
    (fun moved near => cells _ (by omega) (by omega)) (by rwa [last]) blocks enough
  refine ⟨start + (moved : Int), ?_, by omega, by omega, fun cell value from_ upto here => ?_, stopped⟩
  · simpa [scanRight] using run
  · have there : start + ((cell - start).toNat : Int) = cell := by omega
    exact passed (cell - start).toNat (by omega) value (by rwa [there])

theorem scanLeft_spec (fuel : Nat) {start stop : Int} (ordered : stop ≤ start)
    (cells : ∀ cell, stop ≤ cell → cell ≤ start → (heap cell).isSome)
    {sentinel : Word} (sentinelAt : heap stop = some sentinel) (blocks : ¬pivot < sentinel)
    (enough : (start - stop).toNat < fuel) :
    ∃ bound, scanLeft fuel pivot heap start = some bound ∧ stop ≤ bound ∧ bound ≤ start ∧
      (∀ cell value, bound < cell → cell ≤ start → heap cell = some value → pivot < value) ∧
      ∃ value, heap bound = some value ∧ ¬pivot < value := by
  have last : start - ((start - stop).toNat : Int) = stop := by omega
  obtain ⟨moved, near, run, passed, stopped⟩ := scan_spec (fun value => pivot < value) (fun bound => bound - 1)
    (fun moved => start - (moved : Int)) (fun moved => by push_cast; omega) (start - stop).toNat fuel
    (fun moved near => cells _ (by omega) (by omega)) (by rwa [last]) blocks enough
  refine ⟨start - (moved : Int), ?_, by omega, by omega, fun cell value from_ upto here => ?_, stopped⟩
  · simpa [scanLeft] using run
  · have there : start - ((start - cell).toNat : Int) = cell := by omega
    exact passed (start - cell).toNat (by omega) value (by rwa [there])

end

theorem exchange_spec {heap : Heap Word} {base : Int} {values : List Word} (held : heap.Holds base values)
    (first second : Nat) (firstInside : first < values.length) (secondInside : second < values.length) :
    ∃ final, exchange heap (base + first) (base + second) = some final ∧
      (∃ current, final.Holds base current ∧ current.Perm values) ∧
      final (base + first) = heap (base + second) ∧ final (base + second) = heap (base + first) ∧
      ∀ cell, cell ≠ base + first → cell ≠ base + second → final cell = heap cell := by
  have stored : heap.store (base + first) values[second] =
      some (heap.splice (base + first) [values[second]]) := held.store firstInside
  have held1 := held.splice_set firstInside values[second]
  have stored1 : (heap.splice (base + first) [values[second]]).store (base + second) values[first] =
      some ((heap.splice (base + first) [values[second]]).splice (base + second) [values[first]]) :=
    held1.store (by rwa [List.length_set])
  have held2 := held1.splice_set (by rwa [List.length_set]) values[first]
  refine ⟨_, ?_, ⟨_, held2, List.set_set_perm firstInside secondInside⟩, ?_, ?_, fun cell other same => ?_⟩
  · simp only [exchange, held.load first firstInside, held.load second secondInside, Option.bind_eq_bind,
      Option.bind_some, stored, stored1]
  · rw [Heap.splice_singleton, Heap.splice_singleton, held.cell second secondInside]
    by_cases same : first = second
    · subst second
      simp
    · simp [same]
  · rw [Heap.splice_singleton, if_pos rfl, held.cell first firstInside]
  · rw [Heap.splice_singleton, Heap.splice_singleton, if_neg same, if_neg other]

/-- The invariant of the partition of the cells `lo` to `hi` around `pivot`: what the
bounds have passed is on its side, and once they have moved, each has left an element
behind that stops the scan of the other. -/
structure Scanning (initial : Heap Word) (lo hi : Int) (values : List Word) (pivot : Word) (bounds : Bounds) :
    Prop where
  held : ∃ current, bounds.heap.Holds lo current ∧ current.Perm values
  low : ∀ cell value, lo ≤ cell → cell < bounds.newRBound → bounds.heap cell = some value → ¬pivot < value
  high : ∀ cell value, bounds.newLBound < cell → cell ≤ hi → bounds.heap cell = some value → ¬value < pivot
  moved : bounds.newRBound = lo ∧ bounds.newLBound = hi ∨ lo + 1 ≤ bounds.newRBound ∧ bounds.newLBound ≤ hi - 1
  crossed : bounds.newRBound ≤ bounds.newLBound + 2
  frame : ∀ cell, Outside cell lo values.length → bounds.heap cell = initial cell

section
variable {initial : Heap Word} {lo hi : Int} {values : List Word} {pivot : Word} {bounds : Bounds}

theorem Scanning.cell (scanning : Scanning initial lo hi values pivot bounds)
    (size : hi + 1 = lo + values.length) (cell : Int) (from_ : lo ≤ cell) (upto : cell ≤ hi) :
    ∃ value, bounds.heap cell = some value := by
  obtain ⟨current, held, perm⟩ := scanning.held
  have length := perm.length_eq
  have located := held.cell (cell - lo).toNat (by omega)
  have place : lo + ((cell - lo).toNat : Int) = cell := by omega
  rw [place] at located
  exact ⟨_, located⟩

/-- While the bounds have not crossed, both scans have an element that stops them; before
the first exchange it is the same one, an occurrence of the pivot. -/
theorem Scanning.sentinels (scanning : Scanning initial lo hi values pivot bounds)
    (size : hi + 1 = lo + values.length) (occurs : pivot ∈ values)
    (open_ : bounds.newRBound ≤ bounds.newLBound) :
    ∃ up down upValue downValue, bounds.newRBound ≤ up ∧ up ≤ hi ∧ lo ≤ down ∧ down ≤ bounds.newLBound ∧
      up ≤ bounds.newLBound + 1 ∧ bounds.newRBound ≤ down + 1 ∧
      bounds.heap up = some upValue ∧ ¬upValue < pivot ∧
      bounds.heap down = some downValue ∧ ¬pivot < downValue ∧
      (bounds.newRBound = lo ∧ bounds.newLBound = hi → up = down) := by
  rcases scanning.moved with ⟨atLo, atHi⟩ | ⟨pastLo, pastHi⟩
  · obtain ⟨current, held, perm⟩ := scanning.held
    obtain ⟨place, inside, here⟩ := List.getElem_of_mem (perm.mem_iff.mpr occurs)
    have length := perm.length_eq
    have located := held.cell place inside
    rw [here] at located
    exact ⟨lo + place, lo + place, pivot, pivot, by omega, by omega, by omega, by omega, by omega, by omega,
      located, BitVec.lt_irrefl _, located, BitVec.lt_irrefl _, fun _ => rfl⟩
  · obtain ⟨upValue, upFound⟩ := scanning.cell size (bounds.newLBound + 1) (by omega) (by omega)
    obtain ⟨downValue, downFound⟩ := scanning.cell size (bounds.newRBound - 1) (by omega) (by omega)
    exact ⟨bounds.newLBound + 1, bounds.newRBound - 1, upValue, downValue, by omega, by omega, by omega, by omega,
      by omega, by omega, upFound, scanning.high _ _ (by omega) (by omega) upFound,
      downFound, scanning.low _ _ (by omega) (by omega) downFound, by omega⟩

structure Scanned (lo hi : Int) (pivot : Word) (bounds : Bounds) (right left : Int) : Prop where
  upward : bounds.newRBound ≤ right ∧ right ≤ hi ∧ right ≤ bounds.newLBound + 1
  downward : lo ≤ left ∧ left ≤ bounds.newLBound ∧ bounds.newRBound ≤ left + 1
  low : ∀ cell value, lo ≤ cell → cell < right → bounds.heap cell = some value → ¬pivot < value
  high : ∀ cell value, left < cell → cell ≤ hi → bounds.heap cell = some value → ¬value < pivot
  stopRight : ∃ value, bounds.heap right = some value ∧ ¬value < pivot
  stopLeft : ∃ value, bounds.heap left = some value ∧ ¬pivot < value
  first : bounds.newRBound = lo → bounds.newLBound = hi → right ≤ left
  adjacent : left < right → right = left + 1

theorem Scanning.scans (fuel : Nat) (size : hi + 1 = lo + values.length) (occurs : pivot ∈ values)
    (enough : values.length < fuel) (scanning : Scanning initial lo hi values pivot bounds)
    (open_ : bounds.newRBound ≤ bounds.newLBound) :
    ∃ right left, scanRight fuel pivot bounds.heap bounds.newRBound = some right ∧
      scanLeft fuel pivot bounds.heap bounds.newLBound = some left ∧ Scanned lo hi pivot bounds right left := by
  obtain ⟨up, down, upValue, downValue, upLow, upHigh, downLow, downHigh, upNear, downNear, upFound, upStops,
    downFound, downStops, together⟩ := scanning.sentinels size occurs open_
  have bounded := scanning.moved
  obtain ⟨right, rightRun, rightLow, rightHigh, rightPassed, rightStops⟩ :=
    scanRight_spec fuel upLow
      (fun cell from_ upto => Option.isSome_iff_exists.mpr (scanning.cell size cell (by omega) (by omega)))
      upFound upStops (by omega)
  obtain ⟨left, leftRun, leftLow, leftHigh, leftPassed, leftStops⟩ :=
    scanLeft_spec fuel downHigh
      (fun cell from_ upto => Option.isSome_iff_exists.mpr (scanning.cell size cell (by omega) (by omega)))
      downFound downStops (by omega)
  refine ⟨right, left, rightRun, leftRun, ?_⟩
  constructor
  · omega
  · omega
  · intro cell value from_ upto found
    by_cases passed : cell < bounds.newRBound
    · exact scanning.low cell value from_ passed found
    · exact BitVec.not_lt.mpr (BitVec.le_of_lt (rightPassed cell value (by omega) upto found))
  · intro cell value from_ upto found
    by_cases passed : bounds.newLBound < cell
    · exact scanning.high cell value passed upto found
    · exact BitVec.not_lt.mpr (BitVec.le_of_lt (leftPassed cell value from_ (by omega) found))
  · exact rightStops
  · exact leftStops
  · omega
  · -- a cell strictly between would be both below and above the pivot
    intro apart
    by_contra distant
    obtain ⟨value, found⟩ := scanning.cell size (left + 1) (by omega) (by omega)
    exact BitVec.lt_irrefl value (BitVec.lt_trans
      (rightPassed (left + 1) value (by omega) (by omega) found)
      (leftPassed (left + 1) value (by omega) (by omega) found))

theorem Scanned.exchange {right left : Int} (scanned : Scanned lo hi pivot bounds right left)
    (size : hi + 1 = lo + values.length) (scanning : Scanning initial lo hi values pivot bounds)
    (crossing : right ≤ left) :
    ∃ final, SortSpeed.exchange bounds.heap right left = some final ∧
      Scanning initial lo hi values pivot { heap := final, newRBound := right + 1, newLBound := left - 1 } := by
  obtain ⟨upward, downward, low, high, ⟨rightValue, rightFound, rightStops⟩, ⟨leftValue, leftFound, leftStops⟩, -, -⟩ :=
    scanned
  have bounded := scanning.moved
  obtain ⟨current, held, perm⟩ := scanning.held
  have length := perm.length_eq
  obtain ⟨final, swapped, ⟨current', held', perm'⟩, atRight, atLeft, others⟩ :=
    exchange_spec held (right - lo).toNat (left - lo).toNat (by omega) (by omega)
  rw [show lo + ((right - lo).toNat : Int) = right by omega,
    show lo + ((left - lo).toNat : Int) = left by omega] at swapped atRight atLeft others
  refine ⟨final, swapped, ?_⟩
  constructor
  · exact ⟨current', held', perm'.trans perm⟩
  · intro cell value from_ upto found
    simp only at upto found
    by_cases exchanged : cell = right
    · rw [exchanged, atRight, leftFound] at found
      exact Option.some.inj found ▸ leftStops
    · rw [others cell exchanged (by omega)] at found
      exact low cell value from_ (by omega) found
  · intro cell value from_ upto found
    simp only at from_ found
    by_cases exchanged : cell = left
    · rw [exchanged, atLeft, rightFound] at found
      exact Option.some.inj found ▸ rightStops
    · rw [others cell (by omega) exchanged] at found
      exact high cell value (by omega) upto found
  · right
    simp only
    omega
  · simp only
    omega
  · intro cell outside
    exact (others cell (by omega) (by omega)).trans (scanning.frame cell outside)

theorem Scanned.crossed {right left : Int} (scanned : Scanned lo hi pivot bounds right left)
    (scanning : Scanning initial lo hi values pivot bounds) (crossing : ¬right ≤ left) :
    Scanning initial lo hi values pivot { heap := bounds.heap, newRBound := right, newLBound := left } := by
  obtain ⟨upward, downward, low, high, -, -, first, adjacent⟩ := scanned
  have bounded := scanning.moved
  constructor
  · exact scanning.held
  · exact low
  · exact high
  · right
    simp only
    omega
  · simp only
    omega
  · exact scanning.frame

theorem partitionStep_spec (fuel : Nat) (size : hi + 1 = lo + values.length) (occurs : pivot ∈ values)
    (enough : values.length < fuel) (scanning : Scanning initial lo hi values pivot bounds)
    (open_ : bounds.newRBound ≤ bounds.newLBound) :
    ∃ next, partitionStep fuel pivot bounds = some next ∧ Scanning initial lo hi values pivot next ∧
      (next.newLBound + 1 - next.newRBound).toNat < (bounds.newLBound + 1 - bounds.newRBound).toNat ∧
      lo + 1 ≤ next.newRBound := by
  obtain ⟨right, left, rightRun, leftRun, scanned⟩ := scanning.scans fuel size occurs enough open_
  have bounded := scanning.moved
  have upward := scanned.upward
  have downward := scanned.downward
  by_cases crossing : right ≤ left
  · obtain ⟨final, swapped, next⟩ := scanned.exchange size scanning crossing
    refine ⟨{ heap := final, newRBound := right + 1, newLBound := left - 1 }, ?_, next, by simp only; omega,
      by simp only; omega⟩
    simp only [partitionStep, rightRun, leftRun, Option.bind_eq_bind, Option.bind_some, if_pos crossing, swapped]
  · have first := scanned.first
    have adjacent := scanned.adjacent
    refine ⟨{ heap := bounds.heap, newRBound := right, newLBound := left }, ?_, scanned.crossed scanning crossing,
      by simp only; omega, by simp only; omega⟩
    simp only [partitionStep, rightRun, leftRun, Option.bind_eq_bind, Option.bind_some, if_neg crossing]

theorem Scanning.start {heap : Heap Word} (size : hi + 1 = lo + values.length) (held : heap.Holds lo values) :
    Scanning heap lo hi values pivot { heap, newRBound := lo, newLBound := hi } := by
  constructor
  · exact ⟨values, held, List.Perm.refl _⟩
  · exact fun cell value from_ upto => absurd upto (by simp only; omega)
  · exact fun cell value from_ upto => absurd from_ (by simp only; omega)
  · exact Or.inl ⟨rfl, rfl⟩
  · simp only
    omega
  · exact fun cell _ => rfl

theorem scalarPartitionEpi32_spec (fuel : Nat) {heap : Heap Word} (size : hi + 1 = lo + values.length)
    (held : heap.Holds lo values) (occurs : pivot ∈ values) (enough : values.length < fuel) :
    ∃ final, scalarPartitionEpi32 fuel pivot { heap, newRBound := lo, newLBound := hi } = some final ∧
      Scanning heap lo hi values pivot final ∧ final.newLBound < final.newRBound ∧
      lo + 1 ≤ final.newRBound ∧ final.newLBound ≤ hi - 1 := by
  obtain ⟨final, run, scanning, stop⟩ := whileLoop_rule
    (fun bounds => some (bounds.newRBound ≤ bounds.newLBound)) (partitionStep fuel pivot)
    (Scanning heap lo hi values pivot) (fun bounds => (bounds.newLBound + 1 - bounds.newRBound).toNat)
    (by
      intro bounds scanning
      by_cases open_ : bounds.newRBound ≤ bounds.newLBound
      · right
        obtain ⟨next, step, kept, closer, _⟩ := partitionStep_spec fuel size occurs enough scanning open_
        exact ⟨by simp [open_], next, step, kept, closer⟩
      · left
        simp [open_])
    { heap, newRBound := lo, newLBound := hi } (Scanning.start size held) fuel (by simp only; omega)
  have crossed : final.newLBound < final.newRBound := by simpa using stop
  have nonempty := List.length_pos_of_mem occurs
  rcases scanning.moved with untouched | moved
  · omega
  · exact ⟨final, run, scanning, crossed, moved.1, moved.2⟩

end

/-! The recursion. -/

structure SliceSorted (heap final : Heap Word) (array : Int) (values sorted : List Word) : Prop where
  held : final.Holds array sorted
  perm : sorted.Perm values
  ascending : UnsignedAscending sorted
  frame : ∀ cell, Outside cell array values.length → final cell = heap cell

/-- What the partition leaves: two slices and at most one element between them, which
equals the pivot. -/
theorem partition_slices {heap : Heap Word} {lo : Int} {values : List Word} {pivot : Word} {final : Bounds}
    (scanning : Scanning heap lo (lo + values.length - 1) values pivot final)
    (crossed : final.newLBound < final.newRBound) (rightMoved : lo + 1 ≤ final.newRBound)
    (leftMoved : final.newLBound ≤ lo + values.length - 1 - 1) :
    ∃ left middle right : List Word,
      final.heap.Holds lo (left ++ middle ++ right) ∧ (left ++ middle ++ right).Perm values ∧
      lo + left.length = final.newLBound + 1 ∧ lo + (left ++ middle).length = final.newRBound ∧
      (∀ value ∈ left, value ≤ pivot) ∧ (∀ value ∈ middle, value = pivot) ∧ (∀ value ∈ right, pivot ≤ value) ∧
      middle.length ≤ 1 ∧ left.length < values.length ∧ right.length < values.length := by
  obtain ⟨current, held, perm⟩ := scanning.held
  have length := perm.length_eq
  have near := scanning.crossed
  generalize leftSize : (final.newLBound + 1 - lo).toNat = size
  generalize gapSize : (final.newRBound - final.newLBound - 1).toNat = gap
  have pieces : current.take size ++ (current.drop size).take gap ++ current.drop (size + gap) = current := by
    rw [List.append_assoc, ← List.drop_drop, List.take_append_drop, List.take_append_drop]
  have leftLength : (current.take size).length = size := by
    rw [List.length_take]
    omega
  have middleLength : ((current.drop size).take gap).length = gap := by
    rw [List.length_take, List.length_drop]
    omega
  have heldPieces := held
  rw [← pieces] at heldPieces
  obtain ⟨heldFront, heldRight⟩ := Heap.holds_append.mp heldPieces
  obtain ⟨heldLeft, heldMiddle⟩ := Heap.holds_append.mp heldFront
  rw [List.length_append, leftLength, middleLength] at heldRight
  rw [leftLength] at heldMiddle
  refine ⟨current.take size, (current.drop size).take gap, current.drop (size + gap), pieces.symm ▸ held,
    pieces.symm ▸ perm, by omega, by rw [List.length_append]; omega, ?_, ?_, ?_, by omega, by omega,
    by rw [List.length_drop]; omega⟩
  · intro value member
    obtain ⟨cell, from_, upto, found⟩ := heldLeft.cell_of_mem member
    exact BitVec.not_lt.mp (scanning.low cell value from_ (by omega) found)
  · intro value member
    obtain ⟨cell, from_, upto, found⟩ := heldMiddle.cell_of_mem member
    exact BitVec.le_antisymm (BitVec.not_lt.mp (scanning.low cell value (by omega) (by omega) found))
      (BitVec.not_lt.mp (scanning.high cell value (by omega) (by omega) found))
  · intro value member
    obtain ⟨cell, from_, upto, found⟩ := heldRight.cell_of_mem member
    rw [List.length_drop] at upto
    exact BitVec.not_lt.mp (scanning.high cell value (by omega) (by omega) found)

/-- The two slices sorted in place, whatever is between them equal to the pivot, leave
the whole ascending. -/
theorem slices_ascending {pivot : Word} {left middle right sortedLeft sortedRight : List Word}
    (leftPerm : sortedLeft.Perm left) (leftAscending : UnsignedAscending sortedLeft)
    (rightPerm : sortedRight.Perm right) (rightAscending : UnsignedAscending sortedRight)
    (low : ∀ value ∈ left, value ≤ pivot) (equal : ∀ value ∈ middle, value = pivot)
    (high : ∀ value ∈ right, pivot ≤ value) (short : middle.length ≤ 1) :
    UnsignedAscending (sortedLeft ++ middle ++ sortedRight) := by
  have above (value : Word) (member : value ∈ sortedRight) : pivot ≤ value :=
    high value (rightPerm.mem_iff.mp member)
  have under (value : Word) (member : value ∈ sortedLeft) : value ≤ pivot :=
    low value (leftPerm.mem_iff.mp member)
  refine List.pairwise_append.mpr ⟨List.pairwise_append.mpr ⟨leftAscending, short_ascending middle short, ?_⟩,
    rightAscending, ?_⟩
  · intro first early second late
    rw [equal second late]
    exact under first early
  · intro first early second late
    rcases List.mem_append.mp early with here | later
    · exact BitVec.le_trans (under first here) (above second late)
    · rw [equal first later]
      exact above second late

section
variable {before after final : Heap Word} {array : Int} {left middle right leftAfter rightAfter : List Word}

theorem right_untouched (held : before.Holds array (left ++ middle ++ right))
    (frame : ∀ cell, Outside cell array left.length → after cell = before cell) :
    after.Holds (array + (left.length + middle.length : Nat)) right := by
  have there := (Heap.holds_append.mp held).2
  rw [List.length_append] at there
  exact there.frame frame (by omega)

theorem slices_recombined (held : before.Holds array (left ++ middle ++ right))
    (heldLeft : after.Holds array leftAfter) (leftSize : leftAfter.length = left.length)
    (frameLeft : ∀ cell, Outside cell array left.length → after cell = before cell)
    (heldRight : final.Holds (array + (left.length + middle.length : Nat)) rightAfter)
    (frameRight : ∀ cell, Outside cell (array + (left.length + middle.length : Nat)) right.length → final cell = after cell) :
    final.Holds array (leftAfter ++ middle ++ rightAfter) ∧
      ∀ cell, Outside cell array (left ++ middle ++ right).length → final cell = before cell := by
  have heldMiddle := (Heap.holds_append.mp (Heap.holds_append.mp held).1).2
  constructor
  · rw [Heap.holds_append, Heap.holds_append, List.length_append, leftSize]
    refine ⟨⟨?_, ?_⟩, heldRight⟩
    · exact heldLeft.frame frameRight (by omega)
    · have untouched := heldMiddle.frame frameLeft (by omega)
      exact untouched.frame frameRight (by omega)
  · intro cell outside
    simp only [List.length_append] at outside
    calc final cell = after cell := frameRight cell (by simp only [Outside] at *; omega)
      _ = before cell := frameLeft cell (by simp only [Outside] at *; omega)

end

theorem SliceSorted.join {heap parted middleHeap final : Heap Word} {array : Int} {pivot : Word}
    {values left middle right sortedLeft sortedRight : List Word} (held : parted.Holds array (left ++ middle ++ right))
    (perm : (left ++ middle ++ right).Perm values)
    (frame : ∀ cell, Outside cell array values.length → parted cell = heap cell)
    (low : ∀ value ∈ left, value ≤ pivot) (equal : ∀ value ∈ middle, value = pivot)
    (high : ∀ value ∈ right, pivot ≤ value) (short : middle.length ≤ 1)
    (doneLeft : SliceSorted parted middleHeap array left sortedLeft)
    (doneRight : SliceSorted middleHeap final (array + (left.length + middle.length : Nat)) right sortedRight) :
    SliceSorted heap final array values (sortedLeft ++ middle ++ sortedRight) := by
  obtain ⟨held', frame'⟩ := slices_recombined held doneLeft.held doneLeft.perm.length_eq doneLeft.frame doneRight.held
    doneRight.frame
  constructor
  · exact held'
  · exact ((doneLeft.perm.append (List.Perm.refl middle)).append doneRight.perm).trans perm
  · exact slices_ascending doneLeft.perm doneLeft.ascending doneRight.perm doneRight.ascending low equal high short
  · intro cell outside
    calc final cell = parted cell := frame' cell (by rwa [perm.length_eq])
      _ = heap cell := frame cell outside

theorem slice_sorted (fuel : Nat) {heap : Heap Word} {start : Int} {piece : List Word} (call : Prop) [Decidable call]
    (sorts : call → ∃ final sorted, qsRecsv fuel heap start piece.length = some final ∧
      SliceSorted heap final start piece sorted)
    (held : heap.Holds start piece) (skipped : ¬call → piece.length ≤ 1) :
    ∃ final sorted, (if call then qsRecsv fuel heap start piece.length else some heap) = some final ∧
      SliceSorted heap final start piece sorted := by
  by_cases made : call
  · rw [if_pos made]
    exact sorts made
  · rw [if_neg made]
    exact ⟨heap, piece, rfl, held, List.Perm.refl _, short_ascending piece (skipped made), fun _ _ => rfl⟩

theorem qsRecsv_spec (fuel : Nat) (heap : Heap Word) (array : Int) (values : List Word)
    (nonempty : 0 < values.length) (enough : values.length < fuel) (held : heap.Holds array values) :
    ∃ final sorted, qsRecsv fuel heap array values.length = some final ∧
      SliceSorted heap final array values sorted := by
  induction fuel generalizing heap array values with
  | zero => omega
  | succ fuel ih =>
    have loaded : heap.load array = some values[0] := by simpa using held.load 0 nonempty
    obtain ⟨bounds, run, scanning, crossed, rightMoved, leftMoved⟩ :=
      scalarPartitionEpi32_spec (values.length + 2)
        (show array + values.length - 1 + 1 = array + values.length by omega) held
        (List.getElem_mem nonempty) (by omega)
    obtain ⟨left, middle, right, slices, perm, leftEnd, rightStart, low, equal, high, short, leftFewer, rightFewer⟩ :=
      partition_slices scanning crossed rightMoved leftMoved
    have total := perm.length_eq
    simp only [List.length_append] at total rightStart
    have heldLeft := (Heap.holds_append.mp (Heap.holds_append.mp slices).1).1
    obtain ⟨heap1, sortedLeft, run1, done1⟩ := slice_sorted fuel (array < bounds.newLBound)
      (fun call => ih bounds.heap array left (by omega) (by omega) heldLeft) heldLeft (by omega)
    have heldRight := right_untouched slices done1.frame
    obtain ⟨heap2, sortedRight, run2, done2⟩ := slice_sorted fuel (bounds.newRBound < array + values.length - 1)
      (fun call => ih heap1 _ right (by omega) (by omega) heldRight) heldRight (by omega)
    refine ⟨heap2, sortedLeft ++ middle ++ sortedRight, ?_, done1.join slices perm scanning.frame low equal high short done2⟩
    · rw [show left.length = (bounds.newLBound + 1 - array).toNat by omega] at run1
      rw [show right.length = (array + values.length - 1 + 1 - bounds.newRBound).toNat by omega,
        rightStart] at run2
      simp only [qsRecsv, loaded, run, run1, run2, Option.bind_eq_bind, Option.bind_some]

theorem SliceSorted.unique {heap final other : Heap Word} {array : Int} {values sorted sorted' : List Word}
    (done : SliceSorted heap final array values sorted) (done' : SliceSorted heap other array values sorted') :
    other = final := by
  have length := done.perm.length_eq
  have same : sorted' = sorted := done'.ascending.unique done.ascending (done'.perm.trans done.perm.symm)
  refine done.held.eq_of_outside (same ▸ done'.held) fun cell outside => ?_
  rw [length] at outside
  rw [done'.frame cell outside, done.frame cell outside]

theorem SliceSorted.only {heap final other : Heap Word} {array : Int} {values sorted sorted' : List Word}
    (done : SliceSorted heap final array values sorted)
    (done' : SliceSorted (heap.only array values.length) other array values sorted') :
    other = final.only array values.length := by
  have length := done.perm.length_eq
  have same : sorted' = sorted := done'.ascending.unique done.ascending (done'.perm.trans done.perm.symm)
  rw [← length]
  exact done.held.only_eq (same ▸ done'.held)
    fun cell outside => (done'.frame cell (by rwa [← length])).trans (Heap.only_outside (by rwa [← length]))

/-- `qs_recsv` returns, with the array in ascending order and a permutation of what it was. It does the
same where nothing but the array is allocated, so that no access is to a cell outside. -/
theorem qsRecsv_sorts (heap : Heap Word) (array : Int) (values : List Word) (nonempty : 1 ≤ values.length)
    (held : heap.Holds array values) :
    ∃ final sorted, final.Holds array sorted ∧ UnsignedAscending sorted ∧ sorted.Perm values ∧
      (∀ cell, Outside cell array values.length → final cell = heap cell) ∧
      ∀ fuel, values.length < fuel →
        qsRecsv fuel heap array values.length = some final ∧
          qsRecsv fuel (heap.only array values.length) array values.length = some (final.only array values.length) := by
  obtain ⟨final, sorted, -, done⟩ := qsRecsv_spec (values.length + 1) heap array values nonempty (by omega) held
  refine ⟨final, sorted, done.held, done.ascending, done.perm, done.frame, fun fuel enough => ⟨?_, ?_⟩⟩
  · obtain ⟨other, sorted', run, done'⟩ := qsRecsv_spec fuel heap array values nonempty enough held
    rw [run, done.unique done']
  · obtain ⟨other, sorted', run, done'⟩ := qsRecsv_spec fuel _ array values nonempty enough held.only
    rw [run, done.only done']

theorem qsRecsv_sorts_three :
    ∃ final sorted, final.Holds 0 sorted ∧ UnsignedAscending sorted ∧ sorted.Perm [2, 3, 1] ∧
      (∀ cell, Outside cell 0 3 → final cell = Heap.splice Heap.empty 0 [2, 3, 1] cell) ∧
      ∀ fuel, 3 < fuel → qsRecsv fuel (Heap.splice Heap.empty 0 [2, 3, 1]) 0 3 = some final ∧
        qsRecsv fuel ((Heap.splice Heap.empty 0 [2, 3, 1]).only 0 3) 0 3 = some (final.only 0 3) :=
  qsRecsv_sorts (Heap.splice Heap.empty 0 [2, 3, 1]) 0 [2, 3, 1] (by decide) Heap.holds_splice_self

end Mbench.SortSpeed
