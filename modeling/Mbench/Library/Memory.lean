import Mathlib.Data.List.Induction
import Mathlib.Tactic.Ring

/-! Memory as a partial map from addresses to cells. An address that belongs to no
object has no cell, and an access to it makes the whole program undefined, so a run
that returns a result has touched allocated cells only. -/

namespace Mbench.Library

abbrev Heap (Cell : Type) := Int → Option Cell

abbrev Outside (address base : Int) (count : Nat) : Prop :=
  address < base ∨ base + count ≤ address

namespace Heap

variable {Cell : Type} {heap : Heap Cell} {address base : Int} {count index : Nat}
  {value : Cell} {values before old after : List Cell}

def empty : Heap Cell := fun _ => none

def load (heap : Heap Cell) (address : Int) : Option Cell := heap address

def read (heap : Heap Cell) (address : Int) (count : Nat) : Option (List Cell) :=
  (List.range count).mapM fun index : Nat => heap.load (address + index)

def splice (heap : Heap Cell) (address : Int) (values : List Cell) : Heap Cell := fun cell =>
  if address ≤ cell ∧ cell < address + values.length then values[(cell - address).toNat]?
  else heap cell

def write (heap : Heap Cell) (address : Int) (values : List Cell) : Option (Heap Cell) :=
  if ∀ index < values.length, (heap (address + index)).isSome then
    some (heap.splice address values)
  else none

def store (heap : Heap Cell) (address : Int) (value : Cell) : Option (Heap Cell) :=
  heap.write address [value]

/-- The cells from `base` on hold exactly `values`. -/
def Holds (heap : Heap Cell) (base : Int) (values : List Cell) : Prop :=
  ∀ index < values.length, heap (base + index) = values[index]?

def Allocated (heap : Heap Cell) (base : Int) (count : Nat) : Prop :=
  ∀ index < count, (heap (base + index)).isSome

def only (heap : Heap Cell) (base : Int) (count : Nat) : Heap Cell := fun cell =>
  if base ≤ cell ∧ cell < base + count then heap cell else none

@[simp] theorem holds_nil : heap.Holds base [] := by
  intro index inside
  simp at inside

theorem holds_singleton : heap.Holds base [value] ↔ heap base = some value := by
  constructor
  · intro held
    simpa using held 0 (by simp)
  · intro held index inside
    have zero : index = 0 := by simpa using inside
    subst index
    simpa using held

theorem holds_append : heap.Holds base (before ++ after) ↔
    heap.Holds base before ∧ heap.Holds (base + before.length) after := by
  constructor
  · intro held
    refine ⟨fun index inside => ?_, fun index inside => ?_⟩
    · rw [held index (by rw [List.length_append]; omega), List.getElem?_append_left inside]
    · have located := held (before.length + index) (by rw [List.length_append]; omega)
      rw [List.getElem?_append_right (by omega), Nat.add_sub_cancel_left] at located
      rw [← located]
      congr 1
      push_cast
      ring
  · intro ⟨first, second⟩ index inside
    rw [List.length_append] at inside
    by_cases early : index < before.length
    · rw [first index early, List.getElem?_append_left early]
    · have located := second (index - before.length) (by omega)
      rw [List.getElem?_append_right (by omega), ← located]
      congr 1
      omega

theorem holds_cons : heap.Holds base (value :: values) ↔
    heap base = some value ∧ heap.Holds (base + 1) values := by
  rw [← List.singleton_append, holds_append, holds_singleton, List.length_singleton, Nat.cast_one]

theorem Holds.cell (held : heap.Holds base values) (index : Nat) (inside : index < values.length) :
    heap (base + index) = some values[index] := by
  rw [held index inside, List.getElem?_eq_getElem inside]

theorem Holds.load (held : heap.Holds base values) (index : Nat) (inside : index < values.length) :
    heap.load (base + index) = some values[index] := held.cell index inside

theorem Holds.cell_of_mem (held : heap.Holds base values) (member : value ∈ values) :
    ∃ cell, base ≤ cell ∧ cell < base + values.length ∧ heap cell = some value := by
  obtain ⟨index, inside, same⟩ := List.getElem_of_mem member
  exact ⟨base + index, by omega, by omega, same ▸ held.cell index inside⟩

theorem Holds.mem_of_cell (held : heap.Holds base values) {cell : Int} (from_ : base ≤ cell)
    (upto : cell < base + values.length) (found : heap cell = some value) : value ∈ values := by
  have here := held.cell (cell - base).toNat (by omega)
  rw [show base + ((cell - base).toNat : Int) = cell by omega, found] at here
  exact Option.some.inj here ▸ List.getElem_mem _

theorem Holds.allocated (held : heap.Holds base values) : heap.Allocated base values.length := by
  intro index inside
  simp [held.cell index inside]

theorem Allocated.exists_holds (allocated : heap.Allocated base count) :
    ∃ values : List Cell, values.length = count ∧ heap.Holds base values := by
  refine ⟨List.ofFn fun index : Fin count => (heap (base + index)).get (allocated index index.isLt),
    by simp, ?_⟩
  intro index inside
  have bound : index < count := by simpa using inside
  simp [bound]

theorem Allocated.mono (allocated : heap.Allocated base count) {length : Nat}
    (fewer : length ≤ count) : heap.Allocated base length :=
  fun index inside => allocated index (by omega)

theorem Holds.unique {first second : List Cell} (held : heap.Holds base first)
    (other : heap.Holds base second) (lengths : first.length = second.length) :
    first = second := by
  apply List.ext_getElem? fun index => ?_
  by_cases inside : index < first.length
  · rw [← held index inside, other index (by omega)]
  · rw [List.getElem?_eq_none (by omega), List.getElem?_eq_none (by omega)]

theorem Holds.read (held : heap.Holds base values) :
    heap.read base values.length = some values := by
  unfold Heap.read
  induction values using List.reverseRecOn with
  | nil => rfl
  | append_singleton front last ih =>
    rw [holds_append, holds_singleton] at held
    rw [List.length_append, List.length_singleton, List.range_succ, List.mapM_append, ih held.1]
    simp [Heap.load, held.2]

theorem splice_inside (inside : index < values.length) :
    heap.splice address values (address + index) = some values[index] := by
  have range : address ≤ address + index ∧ address + (index : Int) < address + values.length := by
    omega
  rw [splice, if_pos range, ← List.getElem?_eq_getElem inside]
  congr 1
  omega

theorem splice_outside {cell : Int} (outside : Outside cell address values.length) :
    heap.splice address values cell = heap cell := by
  rw [splice, if_neg (by omega)]

theorem splice_congr {other : Heap Cell} {cell : Int} (same : heap cell = other cell) :
    heap.splice address values cell = other.splice address values cell := by
  unfold splice
  rw [same]

theorem splice_singleton (cell : Int) :
    heap.splice address [value] cell = if cell = address then some value else heap cell := by
  by_cases same : cell = address
  · subst cell
    simp [splice]
  · rw [if_neg same]
    exact splice_outside (by rw [List.length_singleton]; omega)

theorem holds_splice_self : (heap.splice address values).Holds address values := by
  intro index inside
  rw [splice_inside inside, List.getElem?_eq_getElem inside]

theorem Holds.splice_eq (held : heap.Holds address values) : heap.splice address values = heap := by
  funext cell
  by_cases inside : address ≤ cell ∧ cell < address + values.length
  · rw [splice, if_pos inside, ← held (cell - address).toNat (by omega)]
    congr 1
    omega
  · rw [splice, if_neg inside]

theorem Holds.splice_disjoint (held : heap.Holds base old)
    (apart : base + old.length ≤ address ∨ address + values.length ≤ base) :
    (heap.splice address values).Holds base old := by
  intro index inside
  rw [splice_outside (by omega), held index inside]

theorem Holds.splice_within (held : heap.Holds base (before ++ old ++ after))
    (same : values.length = old.length) :
    (heap.splice (base + before.length) values).Holds base (before ++ values ++ after) := by
  rw [holds_append, holds_append] at held ⊢
  obtain ⟨⟨front, _⟩, back⟩ := held
  refine ⟨⟨front.splice_disjoint (Or.inl le_rfl), holds_splice_self⟩, ?_⟩
  rw [List.length_append] at back ⊢
  rw [same]
  exact back.splice_disjoint (Or.inr (by omega))

theorem Holds.splice_set (held : heap.Holds base values) (inside : index < values.length)
    (value : Cell) :
    (heap.splice (base + index) [value]).Holds base (values.set index value) := by
  intro place within
  rw [List.length_set] at within
  by_cases same : place = index
  · subst place
    rw [List.getElem?_set_self inside]
    have written : heap.splice (base + index) [value] (base + index + (0 : Nat)) = some value :=
      splice_inside (by simp)
    simpa using written
  · rw [List.getElem?_set_ne (Ne.symm same), splice_outside, held place within]
    simp only [List.length_singleton]
    omega

theorem Holds.splice_same (held : heap.Holds base values)
    (same : ∀ index, base + (index : Nat) = address → values[index]? = some value ∨ values.length ≤ index) :
    (heap.splice address [value]).Holds base values := by
  intro index inside
  rw [splice_singleton]
  by_cases here : base + (index : Int) = address
  · rw [if_pos here]
    cases same index here with
    | inl there => exact there.symm
    | inr past => exact absurd inside (by omega)
  · rw [if_neg here, held index inside]

theorem Holds.window (held : heap.Holds base values) (start length : Nat)
    (room : start + length ≤ values.length) :
    heap.Holds (base + start) ((values.drop start).take length) := by
  intro index inside
  rw [List.length_take, List.length_drop] at inside
  rw [List.getElem?_take_of_lt (by omega), List.getElem?_drop, ← held (start + index) (by omega)]
  congr 1
  push_cast
  ring

theorem Holds.congr {other : Heap Cell} (held : heap.Holds base values)
    (same : ∀ cell, base ≤ cell → cell < base + values.length → other cell = heap cell) :
    other.Holds base values := by
  intro index inside
  rw [same _ (by omega) (by omega), held index inside]

theorem Holds.frame {other : Heap Cell} {area : Int} {size : Nat} (held : heap.Holds base values)
    (same : ∀ cell, Outside cell area size → other cell = heap cell)
    (apart : base + values.length ≤ area ∨ area + size ≤ base) : other.Holds base values :=
  held.congr fun cell from_ upto => same cell (by simp only [Outside]; omega)

theorem Holds.frame_two {other : Heap Cell} {area next : Int} {size room : Nat} (held : heap.Holds base values)
    (same : ∀ cell, Outside cell area size → Outside cell next room → other cell = heap cell)
    (apart : base + values.length ≤ area ∨ area + size ≤ base) (apartNext : base + values.length ≤ next ∨ next + room ≤ base) :
    other.Holds base values :=
  held.congr fun cell from_ upto => same cell (by simp only [Outside]; omega) (by simp only [Outside]; omega)

theorem Holds.only (held : heap.Holds base values) : (heap.only base values.length).Holds base values :=
  held.congr fun _ from_ upto => if_pos ⟨from_, upto⟩

theorem only_outside {cell : Int} (outside : Outside cell base count) : heap.only base count cell = none :=
  if_neg (by omega)

theorem Holds.eq_of_outside {other : Heap Cell} (held : heap.Holds base values) (same : other.Holds base values)
    (outside : ∀ cell, Outside cell base values.length → other cell = heap cell) : other = heap := by
  funext cell
  by_cases inside : base ≤ cell ∧ cell < base + values.length
  · have place : base + ((cell - base).toNat : Int) = cell := by omega
    have first := held (cell - base).toNat (by omega)
    have second := same (cell - base).toNat (by omega)
    rw [place] at first second
    rw [first, second]
  · exact outside cell (by omega)

theorem Holds.only_eq {other : Heap Cell} (held : heap.Holds base values) (same : other.Holds base values)
    (nothing : ∀ cell, Outside cell base values.length → other cell = none) : other = heap.only base values.length :=
  held.only.eq_of_outside same fun cell outside => (nothing cell outside).trans (only_outside outside).symm

theorem splice_allocated (allocated : heap.Allocated base count) :
    (heap.splice address values).Allocated base count := by
  intro index inside
  by_cases outside : Outside (base + index) address values.length
  · rw [splice_outside outside]
    exact allocated index inside
  · have within : (base + index - address).toNat < values.length := by omega
    have place : base + (index : Int) = address + ((base + index - address).toNat : Nat) := by omega
    rw [place, splice_inside within]
    rfl

theorem Allocated.write (allocated : heap.Allocated address values.length) :
    heap.write address values = some (heap.splice address values) := if_pos allocated

theorem splice_store (heap : Heap Cell) (base : Int) (before after : List Cell) (old value : Cell) :
    (heap.splice base (before ++ old :: after)).store (base + before.length) value =
      some (heap.splice base (before ++ value :: after)) := by
  have split (cell : Cell) : before ++ cell :: after = before ++ [cell] ++ after := by simp
  have held : (heap.splice base (before ++ [old] ++ after)).Holds base (before ++ [old] ++ after) := holds_splice_self
  have allocated : (heap.splice base (before ++ [old] ++ after)).Allocated (base + before.length) [value].length :=
    (holds_append.mp (holds_append.mp held).1).2.allocated
  rw [split, split, store, allocated.write]
  refine congrArg some (holds_splice_self.eq_of_outside (held.splice_within rfl) fun cell outside => ?_)
  rw [splice_outside, splice_outside, splice_outside outside]
  · simp only [List.length_append, List.length_singleton] at outside ⊢
    omega
  · simp only [List.length_append, List.length_singleton] at outside ⊢
    omega

theorem write_eq_some {next : Heap Cell} (written : heap.write address values = some next) :
    heap.Allocated address values.length ∧ next = heap.splice address values := by
  unfold Heap.write at written
  split at written
  next allocated => exact ⟨allocated, (Option.some.inj written).symm⟩
  next _ => cases written

theorem read_eq_some {found : List Cell} (result : heap.read base count = some found) :
    found.length = count ∧ heap.Holds base found := by
  unfold Heap.read at result
  induction count generalizing found with
  | zero =>
    cases result
    exact ⟨rfl, holds_nil⟩
  | succ count ih =>
    rw [List.range_succ, List.mapM_append, Option.bind_eq_bind, Option.bind_eq_some_iff] at result
    obtain ⟨front, earlier, result⟩ := result
    obtain ⟨length, held⟩ := ih earlier
    rw [List.mapM_cons, List.mapM_nil] at result
    cases last : heap.load (base + count) with
    | none => simp [last] at result
    | some value =>
      have same : front ++ [value] = found := by simpa [last] using result
      rw [← same, List.length_append, List.length_singleton, holds_append, holds_singleton, length]
      exact ⟨rfl, held, last⟩

theorem read_congr {other : Heap Cell}
    (same : ∀ cell, base ≤ cell → cell < base + count → other cell = heap cell) :
    other.read base count = heap.read base count := by
  unfold Heap.read
  induction count with
  | zero => rfl
  | succ count ih =>
    have last : other.load (base + count) = heap.load (base + count) := same _ (by omega) (by omega)
    have front := ih fun cell from_ upto => same cell from_ (by omega)
    rw [List.range_succ, List.mapM_append, List.mapM_append, front, List.mapM_cons, List.mapM_cons, last]
    rfl

theorem Holds.write_front {gap : List Cell} (held : heap.Holds base (before ++ gap ++ after))
    (values : List Cell) (room : values.length ≤ gap.length) :
    heap.write (base + before.length) values = some (heap.splice (base + before.length) values) ∧
      (heap.splice (base + before.length) values).Holds base
        (before ++ (values ++ gap.drop values.length) ++ after) := by
  have split : before ++ gap ++ after =
      before ++ gap.take values.length ++ (gap.drop values.length ++ after) := by
    rw [List.append_assoc before, List.append_assoc before, ← List.append_assoc (gap.take _),
      List.take_append_drop]
  have same : values.length = (gap.take values.length).length := by
    rw [List.length_take]
    omega
  rw [split] at held
  constructor
  · apply Allocated.write
    have inner := (holds_append.mp (holds_append.mp held).1).2.allocated
    rwa [← same] at inner
  · have written := held.splice_within same
    simpa only [List.append_assoc] using written

theorem Allocated.store (allocated : heap.Allocated base count) (inside : index < count) :
    heap.store (base + index) value = some (heap.splice (base + index) [value]) := by
  apply Allocated.write
  intro offset small
  have zero : offset = 0 := by simpa using small
  subst offset
  simpa using allocated index inside

theorem store_none (unallocated : heap address = none) : heap.store address value = none := by
  rw [Heap.store, Heap.write, if_neg]
  intro allocated
  have cell := allocated 0 (Nat.succ_pos 0)
  rw [Nat.cast_zero, Int.add_zero, unallocated] at cell
  cases cell

theorem Holds.store (held : heap.Holds base values) (inside : index < values.length) :
    heap.store (base + index) value = some (heap.splice (base + index) [value]) :=
  held.allocated.store inside

theorem Holds.store_set (held : heap.Holds base values) (index : Nat) (inside : index < values.length)
    (value : Cell) :
    ∃ next, heap.store (base + index) value = some next ∧ next.Holds base (values.set index value) ∧
      ∀ cell, Outside cell base values.length → next cell = heap cell := by
  refine ⟨_, held.store inside, held.splice_set inside value, fun cell outside => splice_outside ?_⟩
  simp only [List.length_singleton]
  omega

end Heap

end Mbench.Library
