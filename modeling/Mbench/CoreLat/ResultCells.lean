import Mbench.CoreLat.ResultParser
import Mathlib.Algebra.Order.Field.Rat
import Mathlib.Algebra.Order.Ring.Rat

/-! What the loops of `result_parser.cpp` do to a position: the initialisation puts the entry of the
first matrix there, and each later matrix that has an entry at the position adds its own. -/

namespace Mbench.CoreLat
open Library

@[ext]
structure Cell where
  low : Rat
  mid : Rat
  high : Rat

def Cell.single (round : Rat → Rat) (count : Nat) (value : Rat) : Cell :=
  { low := value, mid := round (value / count), high := value }

def Cell.add (round : Rat → Rat) (count : Nat) (cell : Cell) (value : Rat) : Cell :=
  { low := min value cell.low, mid := round (cell.mid + round (value / count)), high := max value cell.high }

def Cell.absorb (round : Rat → Rat) (count : Nat) : Option Rat → Cell → Cell
  | none, cell => cell
  | some value, cell => cell.add round count value

namespace Accumulators

def cell (acc : Accumulators) (j k : Nat) : Option Cell := do
  let low ← acc.minjz.entry j k
  let high ← acc.maxjz.entry j k
  let mid ← acc.midjz.entry j k
  some { low, mid, high }

def put (acc : Accumulators) (j k : Nat) (cell : Cell) : Accumulators where
  minjz := acc.minjz.put j k cell.low
  midjz := acc.midjz.put j k cell.mid
  maxjz := acc.maxjz.put j k cell.high

def shapes (acc : Accumulators) : List (List Nat) := [acc.minjz.shape, acc.midjz.shape, acc.maxjz.shape]

variable {acc other : Accumulators} {j k : Nat} {cell : Cell}

theorem cell_eq_some : acc.cell j k = some cell ↔
    acc.minjz.entry j k = some cell.low ∧ acc.midjz.entry j k = some cell.mid ∧ acc.maxjz.entry j k = some cell.high := by
  unfold Accumulators.cell
  cases acc.minjz.entry j k with
  | none => simp
  | some low =>
    cases acc.maxjz.entry j k with
    | none => simp
    | some high =>
      cases acc.midjz.entry j k with
      | none => simp
      | some mid =>
        simp only [Option.bind_eq_bind, Option.bind_some, Option.some.injEq]
        constructor
        · rintro rfl
          exact ⟨rfl, rfl, rfl⟩
        · intro ⟨first, second, third⟩
          rw [first, second, third]

theorem cell_put (there : (acc.cell j k).isSome) (row column : Nat) :
    (acc.put j k cell).cell row column = if row = j ∧ column = k then some cell else acc.cell row column := by
  obtain ⟨old, found⟩ := Option.isSome_iff_exists.mp there
  obtain ⟨low, mid, high⟩ := cell_eq_some.mp found
  unfold Accumulators.cell put
  rw [Ragged.entry_put (by rw [low]; rfl), Ragged.entry_put (by rw [high]; rfl), Ragged.entry_put (by rw [mid]; rfl)]
  by_cases here : row = j ∧ column = k
  · simp only [if_pos here]
    rfl
  · simp only [if_neg here]

@[simp] theorem shapes_put : (acc.put j k cell).shapes = acc.shapes := by
  simp only [shapes, put, Ragged.shape_put]

theorem ext_cell {shape : List Nat} (first : acc.shapes = [shape, shape, shape]) (second : other.shapes = [shape, shape, shape])
    (cells : ∀ j k, acc.cell j k = other.cell j k) : acc = other := by
  simp only [shapes, List.cons.injEq, and_true] at first second
  obtain ⟨minFirst, midFirst, maxFirst⟩ := first
  obtain ⟨minSecond, midSecond, maxSecond⟩ := second
  have entries (j k : Nat) : acc.minjz.entry j k = other.minjz.entry j k ∧ acc.midjz.entry j k = other.midjz.entry j k ∧
      acc.maxjz.entry j k = other.maxjz.entry j k := by
    have same := cells j k
    by_cases inside : k < shape.getD j 0
    · have there {mat : Mat} (shaped : mat.shape = shape) : ∃ value, mat.entry j k = some value :=
        Option.isSome_iff_exists.mp (Ragged.entry_isSome.mpr (by rwa [← Ragged.shape_width, shaped]))
      obtain ⟨low, lowFound⟩ := there minFirst
      obtain ⟨mid, midFound⟩ := there midFirst
      obtain ⟨high, highFound⟩ := there maxFirst
      have found : acc.cell j k = some { low, mid, high } := cell_eq_some.mpr ⟨lowFound, midFound, highFound⟩
      rw [found, eq_comm, cell_eq_some] at same
      rw [lowFound, midFound, highFound, same.1, same.2.1, same.2.2]
      exact ⟨rfl, rfl, rfl⟩
    · have outside {mat : Mat} (shaped : mat.shape = shape) : mat.entry j k = none :=
        Ragged.entry_of_width (by rw [← Ragged.shape_width, shaped]; omega)
      rw [outside minFirst, outside midFirst, outside maxFirst, outside minSecond, outside midSecond, outside maxSecond]
      exact ⟨rfl, rfl, rfl⟩
  have equal {one two : Mat} (shapes : one.shape = two.shape) (same : ∀ j k, one.entry j k = two.entry j k) : one = two :=
    Ragged.ext_entry (by simpa [Ragged.shape] using congrArg List.length shapes) same
  ext1
  · exact equal (minFirst.trans minSecond.symm) fun j k => (entries j k).1
  · exact equal (midFirst.trans midSecond.symm) fun j k => (entries j k).2.1
  · exact equal (maxFirst.trans maxSecond.symm) fun j k => (entries j k).2.2

end Accumulators

section
variable {mat : Mat} {value old : Rat} {j k : Nat}

theorem setEntry_of (there : mat.entry j k = some old) : mat.setEntry j k value = some (mat.put j k value) :=
  if_pos (by rw [there]; rfl)

theorem lowerTo_eq : lowerTo value mat j k = (mat.entry j k).map fun low => mat.put j k (min value low) := by
  unfold lowerTo
  cases there : mat.entry j k with
  | none => rfl
  | some low =>
    rw [Option.bind_eq_bind, Option.bind_some, Option.map_some]
    by_cases less : value < low
    · rw [if_pos less, min_eq_left less.le, setEntry_of there]
    · rw [if_neg less, min_eq_right (not_lt.mp less), Ragged.put_same there]

theorem raiseTo_eq : raiseTo value mat j k = (mat.entry j k).map fun high => mat.put j k (max value high) := by
  unfold raiseTo
  cases there : mat.entry j k with
  | none => rfl
  | some high =>
    rw [Option.bind_eq_bind, Option.bind_some, Option.map_some]
    by_cases more : high < value
    · rw [if_pos more, max_eq_left more.le, setEntry_of there]
    · rw [if_neg more, max_eq_right (not_lt.mp more), Ragged.put_same there]

theorem addTo_eq (round : Rat → Rat) :
    addTo round value mat j k = (mat.entry j k).map fun mid => mat.put j k (round (mid + value)) := by
  unfold addTo
  cases there : mat.entry j k with
  | none => rfl
  | some mid => rw [Option.bind_eq_bind, Option.bind_some, Option.map_some, setEntry_of there]

end

section
variable {round : Rat → Rat} {matjz : List Mat} {mat first : Mat} {acc next : Accumulators} {j k : Nat}

theorem processEntry_eq : processEntry round matjz mat j k acc =
    (mat.entry j k).bind fun value => (acc.cell j k).map fun cell => acc.put j k (cell.add round matjz.length value) := by
  unfold processEntry
  simp only [lowerTo_eq, raiseTo_eq, addTo_eq]
  cases mat.entry j k with
  | none => rfl
  | some value =>
    rw [Accumulators.cell]
    cases acc.minjz.entry j k with
    | none => rfl
    | some low =>
      cases acc.maxjz.entry j k with
      | none => rfl
      | some high => cases acc.midjz.entry j k <;> rfl

def before (mat : Mat) (j k row column : Nat) : Option Rat :=
  if row < j ∨ row = j ∧ column < k then mat.entry row column else none

structure Absorbed (round : Rat → Rat) (count : Nat) (values : Nat → Nat → Option Rat) (acc next : Accumulators) : Prop where
  shapes : next.shapes = acc.shapes
  cell : ∀ j k, next.cell j k = (acc.cell j k).map (Cell.absorb round count (values j k))

theorem Absorbed.start (round : Rat → Rat) (acc : Accumulators) (count : Nat) (mat : Mat) : Absorbed round count (before mat 0 0) acc acc where
  shapes := rfl
  cell := by
    intro j k
    rw [before, if_neg (by omega)]
    exact Option.map_id'.symm

theorem Absorbed.isSome {count : Nat} {values : Nat → Nat → Option Rat} (absorbed : Absorbed round count values acc next) (j k : Nat) :
    (next.cell j k).isSome ↔ (acc.cell j k).isSome := by
  rw [absorbed.cell, Option.isSome_map]

theorem Absorbed.step {middle : Accumulators} (absorbed : Absorbed round matjz.length (before mat j k) acc middle)
    (processed : processEntry round matjz mat j k middle = some next) :
    (acc.cell j k).isSome ∧ Absorbed round matjz.length (before mat j (k + 1)) acc next := by
  rw [processEntry_eq] at processed
  obtain ⟨value, entry, added⟩ := Option.bind_eq_some_iff.mp processed
  obtain ⟨cell, there, rfl⟩ := Option.map_eq_some_iff.mp added
  have some_ : (middle.cell j k).isSome := by rw [there]; rfl
  have inside := (absorbed.isSome j k).mp some_
  refine ⟨inside, by rw [Accumulators.shapes_put, absorbed.shapes], fun row column => ?_⟩
  rw [Accumulators.cell_put some_]
  by_cases here : row = j ∧ column = k
  · obtain ⟨rfl, rfl⟩ := here
    have same := absorbed.cell row column
    rw [there, before, if_neg (by omega)] at same
    obtain ⟨old, found⟩ := Option.isSome_iff_exists.mp inside
    rw [if_pos ⟨rfl, rfl⟩, before, if_pos (by omega), entry, found]
    rw [found] at same
    rw [Option.some.inj same]
    rfl
  · rw [if_neg here, absorbed.cell, before, before]
    by_cases earlier : row < j ∨ row = j ∧ column < k
    · rw [if_pos earlier, if_pos (by omega)]
    · rw [if_neg earlier, if_neg (by omega)]

theorem before_row (mat : Mat) (j : Nat) : before mat j (mat.width j) = before mat (j + 1) 0 := by
  funext row column
  unfold before
  by_cases earlier : row < j ∨ row = j ∧ column < mat.width j
  · rw [if_pos earlier, if_pos (by omega)]
  · rw [if_neg earlier]
    by_cases same : row = j
    · rw [if_pos (by omega), Ragged.entry_of_width (by rw [same]; omega)]
    · rw [if_neg (by omega)]

theorem before_all (mat : Mat) : before mat mat.length 0 = mat.entry := by
  funext row column
  unfold before
  by_cases earlier : row < mat.length
  · rw [if_pos (Or.inl earlier)]
  · rw [if_neg (by omega), Ragged.entry, List.getElem?_eq_none (not_lt.mp earlier)]
    rfl

theorem Absorbed.row_ended {middle : Accumulators} (absorbed : Absorbed round matjz.length (before mat j 0) acc middle)
    (ran : forLoop (processEntry round matjz mat j) (mat.width j) middle = some next) :
    (∀ k < mat.width j, (acc.cell j k).isSome) ∧ Absorbed round matjz.length (before mat (j + 1) 0) acc next := by
  rw [← before_row]
  refine forLoop_ended ran (fun n state => (∀ k < n, (acc.cell j k).isSome) ∧ Absorbed round matjz.length (before mat j n) acc state)
    ⟨fun k below => absurd below (Nat.not_lt_zero k), absorbed⟩ fun n _ state next held processed => ?_
  obtain ⟨inside, grown⟩ := held.2.step processed
  refine ⟨fun k below => ?_, grown⟩
  rcases Nat.lt_succ_iff_lt_or_eq.mp below with earlier | rfl
  · exact held.1 k earlier
  · exact inside

theorem Absorbed.row_defined {middle : Accumulators} (absorbed : Absorbed round matjz.length (before mat j 0) acc middle)
    (inside : ∀ k < mat.width j, (acc.cell j k).isSome) :
    ∃ next, forLoop (processEntry round matjz mat j) (mat.width j) middle = some next ∧
      Absorbed round matjz.length (before mat (j + 1) 0) acc next := by
  rw [← before_row]
  refine forLoop_rule _ (fun n state => Absorbed round matjz.length (before mat j n) acc state) _ _ absorbed
    fun n below state held => ?_
  obtain ⟨value, entry⟩ := Option.isSome_iff_exists.mp (Ragged.entry_isSome.mpr below)
  obtain ⟨cell, there⟩ := Option.isSome_iff_exists.mp ((held.isSome j n).mpr (inside n below))
  have processed : processEntry round matjz mat j n state = some (state.put j n (cell.add round matjz.length value)) := by
    rw [processEntry_eq, entry, there]
    rfl
  exact ⟨_, processed, (held.step processed).2⟩

theorem processMatrix_absorbed (ran : processMatrix round matjz mat acc = some next) :
    (∀ j k, (mat.entry j k).isSome → (acc.cell j k).isSome) ∧ Absorbed round matjz.length mat.entry acc next := by
  have ended := forLoop_ended ran
    (fun j state => (∀ row < j, ∀ k < mat.width row, (acc.cell row k).isSome) ∧
      Absorbed round matjz.length (before mat j 0) acc state)
    ⟨fun row below => absurd below (Nat.not_lt_zero row), Absorbed.start round acc _ mat⟩ fun j _ state next held rowRan => by
      obtain ⟨inside, grown⟩ := held.2.row_ended rowRan
      refine ⟨fun row below => ?_, grown⟩
      rcases Nat.lt_succ_iff_lt_or_eq.mp below with earlier | rfl
      · exact held.1 row earlier
      · exact inside
  rw [before_all] at ended
  refine ⟨fun j k entry => ?_, ended.2⟩
  have column := Ragged.entry_isSome.mp entry
  by_cases row : j < mat.length
  · exact ended.1 j row k column
  · rw [Ragged.width, List.getD_eq_getElem?_getD, List.getElem?_eq_none (not_lt.mp row)] at column
    exact absurd column (Nat.not_lt_zero k)

/-- A later matrix is processed without an index out of range exactly when its positions are those of
the accumulators. -/
theorem processMatrix_isSome :
    (processMatrix round matjz mat acc).isSome ↔ ∀ j k, (mat.entry j k).isSome → (acc.cell j k).isSome := by
  constructor
  · intro defined
    obtain ⟨next, ran⟩ := Option.isSome_iff_exists.mp defined
    exact (processMatrix_absorbed ran).1
  · intro inside
    obtain ⟨next, ran, _⟩ := forLoop_rule (fun j acc => forLoop (processEntry round matjz mat j) (mat.width j) acc)
      (fun j state => Absorbed round matjz.length (before mat j 0) acc state) mat.length acc (Absorbed.start round acc _ mat)
      fun j _ state held => held.row_defined fun k below => inside j k (Ragged.entry_isSome.mpr below)
    exact Option.isSome_iff_exists.mpr ⟨next, ran⟩

theorem processAll_absorbed {mats : List Mat}
    (ran : mats.foldlM (fun acc mat => processMatrix round matjz mat acc) acc = some next) :
    (∀ mat ∈ mats, ∀ j k, (mat.entry j k).isSome → (acc.cell j k).isSome) ∧ next.shapes = acc.shapes ∧
      ∀ j k, next.cell j k = (acc.cell j k).map fun cell =>
        mats.foldl (fun cell mat => Cell.absorb round matjz.length (mat.entry j k) cell) cell := by
  induction mats generalizing acc with
  | nil =>
    cases ran
    exact ⟨by simp, rfl, fun j k => Option.map_id'.symm⟩
  | cons mat mats ih =>
    obtain ⟨middle, processed, rest⟩ := Option.bind_eq_some_iff.mp ran
    obtain ⟨inside, absorbed⟩ := processMatrix_absorbed processed
    obtain ⟨others, shapes, cells⟩ := ih rest
    refine ⟨fun other member j k entry => ?_, shapes.trans absorbed.shapes, fun j k => ?_⟩
    · rcases List.mem_cons.mp member with rfl | later
      · exact inside j k entry
      · exact (absorbed.isSome j k).mp (others other later j k entry)
    · rw [cells, absorbed.cell, Option.map_map]
      rfl

theorem processAll_isSome {mats : List Mat} :
    (mats.foldlM (fun acc mat => processMatrix round matjz mat acc) acc).isSome ↔
      ∀ mat ∈ mats, ∀ j k, (mat.entry j k).isSome → (acc.cell j k).isSome := by
  constructor
  · intro defined
    obtain ⟨next, ran⟩ := Option.isSome_iff_exists.mp defined
    exact (processAll_absorbed ran).1
  · intro inside
    induction mats generalizing acc with
    | nil => rfl
    | cons mat mats ih =>
      obtain ⟨middle, processed⟩ := Option.isSome_iff_exists.mp (processMatrix_isSome.mpr (inside mat (by simp)))
      have absorbed := (processMatrix_absorbed processed).2
      rw [List.foldlM_cons, processed]
      exact ih fun other member j k entry =>
        (absorbed.isSome j k).mpr (inside other (by simp [member]) j k entry)

end

/-! The initialisation, for each of the three matrices: an entry `value` of the first matrix becomes
`f value`. -/

section
variable {f round : Rat → Rat} {matjz : List Mat} {mat first : Mat} {m n : Nat} {value : Rat}

structure Filled (f : Rat → Rat) (first : Mat) (m n : Nat) (mat : Mat) : Prop where
  rows : mat.length = first.length ∨ mat.length = 0
  width : ∀ j, mat.width j = if j < m ∨ j = m ∧ 0 < n then first.width j else 0
  entry : ∀ j k, j < m ∨ j = m ∧ k < n → mat.entry j k = (first.entry j k).map f

theorem Filled.start (f : Rat → Rat) (first : Mat) : Filled f first 0 0 [] where
  rows := Or.inr rfl
  width := by
    intro j
    rw [if_neg (by omega)]
    rfl
  entry := by
    intro j k earlier
    omega

theorem Filled.step (filled : Filled f first m n mat) (row : m < first.length) (entry : first.entry m n = some value) :
    ∃ opened, (mat.resizeRows first.length).resizeRow m (first.width m) 0 = some opened ∧
      (opened.entry m n).isSome ∧ Filled f first m (n + 1) (opened.put m n (f value)) := by
  have column : n < first.width m := Ragged.entry_isSome.mp (by rw [entry]; rfl)
  obtain ⟨length, widths, entries⟩ := Ragged.resizeRows_same filled.rows
  obtain ⟨opened, resized, rows, width, others, same⟩ := Ragged.resizeRow_spec (by rw [length]; exact row)
    (first.width m) (0 : Rat)
  have there : (opened.entry m n).isSome := Ragged.entry_isSome.mpr (by rw [width]; exact column)
  have earlier (k : Nat) (left : k < n) : opened.entry m k = mat.entry m k := by
    have wide : (mat.resizeRows first.length).width m = first.width m := by
      rw [widths, filled.width, if_pos (Or.inr ⟨rfl, by omega⟩)]
    rw [same wide, entries]
  refine ⟨opened, resized, there, Or.inl (Ragged.length_put.trans (rows.trans length)), fun j => ?_, fun j k covered => ?_⟩
  · rw [Ragged.width_put]
    by_cases here : j = m
    · rw [here, width, if_pos (Or.inr ⟨rfl, Nat.succ_pos n⟩)]
    · rw [(others j here).1, widths, filled.width]
      simp only [here, false_and]
  · rw [Ragged.entry_put there]
    by_cases here : j = m ∧ k = n
    · rw [if_pos here, here.1, here.2, entry]
      rfl
    · rw [if_neg here]
      by_cases inRow : j = m
      · rw [inRow, earlier k (by omega)]
        exact filled.entry m k (Or.inr ⟨rfl, by omega⟩)
      · rw [(others j inRow).2, entries]
        exact filled.entry j k (Or.inl (by omega))

theorem Filled.rowEnd (filled : Filled f first m (first.width m) mat) : Filled f first (m + 1) 0 mat where
  rows := filled.rows
  width := by
    intro j
    rw [filled.width]
    by_cases earlier : j < m ∨ j = m ∧ 0 < first.width m
    · rw [if_pos earlier, if_pos (by omega)]
    · rw [if_neg earlier]
      by_cases here : j = m
      · rw [if_pos (by omega), here]
        omega
      · rw [if_neg (by omega)]
  entry := by
    intro j k earlier
    by_cases inside : j < m ∨ j = m ∧ k < first.width m
    · exact filled.entry j k inside
    · have here : j = m := by omega
      have width : mat.width m ≤ first.width m := by
        rw [filled.width]
        split <;> omega
      rw [here, Ragged.entry_of_width (by omega), Ragged.entry_of_width (by omega)]
      rfl

structure Initialised (round : Rat → Rat) (count : Nat) (first : Mat) (m n : Nat) (acc : Accumulators) : Prop where
  minjz : Filled id first m n acc.minjz
  midjz : Filled (fun value => round (value / count)) first m n acc.midjz
  maxjz : Filled id first m n acc.maxjz

theorem Initialised.step {acc : Accumulators} (held : Initialised round matjz.length first m n acc) (row : m < first.length)
    (column : n < first.width m) :
    ∃ next, initEntry round matjz first m n acc = some next ∧ Initialised round matjz.length first m (n + 1) next := by
  obtain ⟨value, entry⟩ := Option.isSome_iff_exists.mp (Ragged.entry_isSome.mpr column)
  obtain ⟨minjz, minOpened, minThere, minFilled⟩ := held.minjz.step row entry
  obtain ⟨midjz, midOpened, midThere, midFilled⟩ := held.midjz.step row entry
  obtain ⟨maxjz, maxOpened, maxThere, maxFilled⟩ := held.maxjz.step row entry
  have wide : first.width m = first[m].length := by
    rw [Ragged.width, List.getD_eq_getElem?_getD, List.getElem?_eq_getElem row]
    rfl
  have found : first[m][n]? = some value := by
    rw [Ragged.entry, List.getElem?_eq_getElem row] at entry
    exact entry
  rw [wide] at minOpened midOpened maxOpened
  refine ⟨{ minjz := minjz.put m n value, midjz := midjz.put m n (round (value / matjz.length)), maxjz := maxjz.put m n value },
    ?_, ⟨minFilled, midFilled, maxFilled⟩⟩
  simp only [initEntry, List.getElem?_eq_getElem row, minOpened, midOpened, maxOpened, found, Ragged.setEntry,
    if_pos minThere, if_pos midThere, if_pos maxThere, Option.bind_eq_bind, Option.bind_some]

theorem initialise_spec (head : matjz[0]? = some first) :
    ∃ acc, initialise round matjz { minjz := [], midjz := [], maxjz := [] } = some acc ∧
      Initialised round matjz.length first first.length 0 acc := by
  unfold initialise
  rw [head, Option.bind_eq_bind, Option.bind_some]
  refine forLoop_rule _ (fun m acc => Initialised round matjz.length first m 0 acc) _ _
    ⟨Filled.start _ _, Filled.start _ _, Filled.start _ _⟩ fun m row acc held => ?_
  obtain ⟨next, ran, filled⟩ := forLoop_rule (initEntry round matjz first m)
    (fun n acc => Initialised round matjz.length first m n acc) (first.width m) acc held
    fun n column state held => held.step row column
  exact ⟨next, ran, filled.minjz.rowEnd, filled.midjz.rowEnd, filled.maxjz.rowEnd⟩

theorem Filled.all_entries (filled : Filled f first first.length 0 mat) (j k : Nat) :
    mat.entry j k = (first.entry j k).map f := by
  by_cases row : j < first.length
  · exact filled.entry j k (Or.inl row)
  · have none : first.width j = 0 := by
      rw [Ragged.width, List.getD_eq_getElem?_getD, List.getElem?_eq_none (not_lt.mp row)]
      rfl
    have width : mat.width j = 0 := by
      rw [filled.width, if_neg (by omega)]
    rw [Ragged.entry_of_width (by omega), Ragged.entry_of_width (by omega)]
    rfl

theorem Filled.all_shape (filled : Filled f first first.length 0 mat) {j k : Nat} (some_ : (first.entry j k).isSome) :
    mat.shape = first.shape := by
  have rows : mat.length = first.length := by
    refine filled.rows.resolve_right fun none => ?_
    have entry := filled.all_entries j k
    rw [Ragged.entry_of_width (by rw [Ragged.width_of_length none]; omega), eq_comm, Option.map_eq_none_iff] at entry
    rw [entry] at some_
    cases some_
  refine Ragged.shape_eq rows fun row => ?_
  rw [filled.width]
  by_cases inside : row < first.length
  · rw [if_pos (Or.inl inside)]
  · rw [if_neg (by omega), Ragged.width, List.getD_eq_getElem?_getD, List.getElem?_eq_none (not_lt.mp inside)]
    rfl

theorem Initialised.cell {acc : Accumulators} {count : Nat} (held : Initialised round count first first.length 0 acc) (j k : Nat) :
    acc.cell j k = (first.entry j k).map (Cell.single round count) := by
  unfold Accumulators.cell
  rw [held.minjz.all_entries, held.midjz.all_entries, held.maxjz.all_entries]
  cases first.entry j k <;> rfl

end

/-! The whole computation. -/

section
variable {round : Rat → Rat} {first : Mat} {later : List Mat}

/-- Every index is in range exactly when every later matrix has its positions among those of the first. -/
theorem statistics_isSome :
    (statistics round (first :: later)).isSome ↔ ∀ mat ∈ later, ∀ j k, (mat.entry j k).isSome → (first.entry j k).isSome := by
  obtain ⟨acc, initial, held⟩ := initialise_spec (show (first :: later)[0]? = some first from rfl)
  rw [statistics, initial, Option.bind_eq_bind, Option.bind_some, List.tail_cons, processAll_isSome]
  simp only [held.cell, Option.isSome_map]

theorem statistics_cell {acc : Accumulators} (ran : statistics round (first :: later) = some acc) (j k : Nat) :
    acc.cell j k = (first.entry j k).map fun value =>
      later.foldl (fun cell mat => Cell.absorb round (later.length + 1) (mat.entry j k) cell)
        (Cell.single round (later.length + 1) value) := by
  obtain ⟨initial, started, held⟩ := initialise_spec (show (first :: later)[0]? = some first from rfl)
  rw [statistics, started, Option.bind_eq_bind, Option.bind_some, List.tail_cons] at ran
  rw [(processAll_absorbed ran).2.2, held.cell, Option.map_map]
  rfl

theorem statistics_shapes {acc : Accumulators} (ran : statistics round (first :: later) = some acc) {j k : Nat}
    (some_ : (first.entry j k).isSome) : acc.shapes = [first.shape, first.shape, first.shape] := by
  obtain ⟨initial, started, held⟩ := initialise_spec (show (first :: later)[0]? = some first from rfl)
  rw [statistics, started, Option.bind_eq_bind, Option.bind_some, List.tail_cons] at ran
  rw [(processAll_absorbed ran).2.1, Accumulators.shapes, held.minjz.all_shape some_, held.midjz.all_shape some_,
    held.maxjz.all_shape some_]

end

end Mbench.CoreLat
