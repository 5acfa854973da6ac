import Mbench.Library.Memory

/-! Little-endian words of 64 bits in a memory of bytes, and rows of such words at equal
distances. -/

namespace Mbench.Library

def bytes : Nat → Nat → List UInt8
  | 0, _ => []
  | count + 1, value => UInt8.ofNat value :: bytes count (value / 256)

def ofBytes : List UInt8 → Nat
  | [] => 0
  | first :: rest => first.toNat + 256 * ofBytes rest

@[simp] theorem bytes_length (count value : Nat) : (bytes count value).length = count := by
  induction count generalizing value with
  | zero => rfl
  | succ count ih => rw [bytes, List.length_cons, ih]

theorem ofBytes_bytes (count value : Nat) : ofBytes (bytes count value) = value % 256 ^ count := by
  induction count generalizing value with
  | zero => rw [bytes, ofBytes, pow_zero, Nat.mod_one]
  | succ count ih =>
    rw [bytes, ofBytes, ih, pow_succ', Nat.mod_mul]
    rfl

theorem ofBytes_zeros (count : Nat) : ofBytes (List.replicate count 0) = 0 := by
  induction count with
  | zero => rfl
  | succ count ih => rw [List.replicate_succ, ofBytes, ih]; rfl

theorem ofBytes_append (front back : List UInt8) :
    ofBytes (front ++ back) = ofBytes front + 256 ^ front.length * ofBytes back := by
  induction front with
  | nil => simp [ofBytes]
  | cons first front ih =>
    rw [List.cons_append, ofBytes, ih, ofBytes, List.length_cons, pow_succ]
    ring

theorem ofBytes_lt (values : List UInt8) : ofBytes values < 256 ^ values.length := by
  induction values with
  | nil => exact Nat.one_pos
  | cons first rest ih =>
    have small := first.toNat_lt
    rw [ofBytes, List.length_cons, pow_succ]
    omega

theorem ofBytes_drop (values : List UInt8) (count : Nat) : ofBytes (values.drop count) = ofBytes values / 256 ^ count := by
  by_cases short : values.length ≤ count
  · have small : ofBytes values < 256 ^ count :=
      (ofBytes_lt values).trans_le (Nat.pow_le_pow_right (by decide) short)
    rw [List.drop_eq_nil_of_le short, Nat.div_eq_of_lt small]
    rfl
  · have split := ofBytes_append (values.take count) (values.drop count)
    have front := ofBytes_lt (values.take count)
    rw [List.take_append_drop] at split
    rw [List.length_take, Nat.min_eq_left (by omega)] at split front
    rw [split, Nat.add_mul_div_left _ _ (Nat.pow_pos (by decide)), Nat.div_eq_of_lt front, Nat.zero_add]

def overwriteLow (gap value word : Nat) : Nat := value / 256 ^ gap + 256 ^ (8 - gap) * (word / 256 ^ (8 - gap))

theorem high_lt {gap value : Nat} (bound : value < 2 ^ 64) (within : gap ≤ 8) : value / 256 ^ gap < 256 ^ (8 - gap) := by
  rw [Nat.div_lt_iff_lt_mul (Nat.pow_pos (by decide)), ← pow_add, Nat.sub_add_cancel within]
  simpa using bound

theorem overwriteLow_eq_iff {gap value word : Nat} :
    overwriteLow gap value word = word ↔ word % 256 ^ (8 - gap) = value / 256 ^ gap := by
  have parts := Nat.mod_add_div word (256 ^ (8 - gap))
  unfold overwriteLow
  omega

theorem overwriteLow_idem {gap value : Nat} (bound : value < 2 ^ 64) (within : gap ≤ 8) (word : Nat) :
    overwriteLow gap value (overwriteLow gap value word) = overwriteLow gap value word := by
  rw [overwriteLow_eq_iff, overwriteLow, Nat.add_mul_mod_self_left, Nat.mod_eq_of_lt (high_lt bound within)]

namespace Heap

variable {heap : Heap UInt8} {address base : Int} {count : Nat}

def load64 (heap : Heap UInt8) (address : Int) : Option Nat := (heap.read address 8).map ofBytes

def store64 (heap : Heap UInt8) (address : Int) (value : Nat) : Option (Heap UInt8) :=
  heap.write address (bytes 8 value)

theorem Holds.load64 {values : List UInt8} (held : heap.Holds address values) (eight : values.length = 8) :
    heap.load64 address = some (ofBytes values) := by
  rw [Heap.load64, ← eight, held.read]
  rfl

theorem load64_eq_some {word : Nat} (loaded : heap.load64 address = some word) :
    ∃ values, values.length = 8 ∧ heap.Holds address values ∧ word = ofBytes values := by
  obtain ⟨values, found, same⟩ := Option.map_eq_some_iff.mp loaded
  obtain ⟨eight, held⟩ := read_eq_some found
  exact ⟨values, eight, held, same.symm⟩

theorem load64_small {word : Nat} (loaded : heap.load64 address = some word) (top : heap (address + 7) = some 0) :
    word < 256 ^ 7 := by
  obtain ⟨values, eight, held, rfl⟩ := load64_eq_some loaded
  have last : values[7] = 0 := by
    have cell := held.cell 7 (by omega)
    rw [show address + ((7 : Nat) : Int) = address + 7 by rfl, top] at cell
    exact (Option.some.inj cell).symm
  have split : values = values.take 7 ++ [0] := by
    rw [← last, List.take_append_getElem (by omega), List.take_of_length_le (by omega)]
  have front := ofBytes_lt (values.take 7)
  rw [List.length_take, Nat.min_eq_left (by omega)] at front
  rw [split, ofBytes_append]
  simpa [ofBytes] using front

theorem load64_congr {other : Heap UInt8}
    (same : ∀ cell, address ≤ cell → cell < address + 8 → other cell = heap cell) :
    other.load64 address = heap.load64 address := by
  rw [load64, load64, read_congr same]

theorem store64_eq_some {next : Heap UInt8} {value : Nat} (stored : heap.store64 address value = some next) :
    heap.Allocated address 8 ∧ next = heap.splice address (bytes 8 value) := by
  obtain ⟨allocated, same⟩ := write_eq_some stored
  rw [bytes_length] at allocated
  exact ⟨allocated, same⟩

theorem store64_spec (allocated : heap.Allocated address 8) {value : Nat} (bound : value < 2 ^ 64) :
    ∃ next, heap.store64 address value = some next ∧ next.load64 address = some value ∧
      (∀ cell, Outside cell address 8 → next cell = heap cell) ∧
      ∀ base count, heap.Allocated base count → next.Allocated base count := by
  have eight := bytes_length 8 value
  refine ⟨heap.splice address (bytes 8 value), ?_, ?_, fun cell outside => ?_, fun _ _ => splice_allocated⟩
  · exact Allocated.write (by rwa [eight])
  · rw [Holds.load64 holds_splice_self eight, ofBytes_bytes, Nat.mod_eq_of_lt (by simpa using bound)]
  · exact splice_outside (by rwa [eight])

theorem store64_overlap {next : Heap UInt8} {word value gap : Nat} (loaded : heap.load64 (address + gap) = some word)
    (stored : heap.store64 address value = some next) (bound : value < 2 ^ 64) (within : gap ≤ 8) :
    next.load64 (address + gap) = some (overwriteLow gap value word) := by
  obtain ⟨values, eight, held, rfl⟩ := load64_eq_some loaded
  obtain ⟨_, rfl⟩ := store64_eq_some stored
  have written : (heap.splice address (bytes 8 value)).Holds address (bytes 8 value) := holds_splice_self
  have low := written.window gap (8 - gap) (by rw [bytes_length]; omega)
  have high := held.window (8 - gap) gap (by omega)
  rw [List.take_of_length_le (by rw [List.length_drop, bytes_length])] at low
  rw [List.take_of_length_le (by rw [List.length_drop]; omega)] at high
  have both : (heap.splice address (bytes 8 value)).Holds (address + gap) ((bytes 8 value).drop gap ++ values.drop (8 - gap)) := by
    rw [holds_append, List.length_drop, bytes_length]
    exact ⟨low, high.splice_disjoint (Or.inr (by rw [bytes_length]; omega))⟩
  rw [both.load64 (by simp; omega), ofBytes_append, ofBytes_drop, ofBytes_drop, ofBytes_bytes, List.length_drop,
    bytes_length, Nat.mod_eq_of_lt (by simpa using bound), overwriteLow]

structure Row (heap : Heap UInt8) (base stride count : Nat) (words : Nat → Nat) : Prop where
  allocated : heap.Allocated base (count * stride)
  word : ∀ index < count, heap.load64 ↑(base + index * stride) = some (words index)

section
variable {start stride : Nat} {words : Nat → Nat}

theorem slot_bounds {index : Nat} (inside : index < count) : index * stride + stride ≤ count * stride := by
  calc index * stride + stride = (index + 1) * stride := (Nat.succ_mul index stride).symm
    _ ≤ count * stride := Nat.mul_le_mul_right stride inside

theorem slot_allocated (allocated : heap.Allocated start (count * stride)) (wide : 8 ≤ stride) {index : Nat}
    (inside : index < count) : heap.Allocated ↑(start + index * stride) 8 := by
  intro offset small
  have bound : index * stride + stride ≤ count * stride := slot_bounds inside
  have cell := allocated (index * stride + offset) (by omega)
  rwa [show (start : Int) + ((index * stride + offset : Nat) : Int) = ((start + index * stride : Nat) : Int) + offset by
    push_cast; ring] at cell

theorem slot_apart {first second : Nat} (different : first ≠ second) :
    first * stride + stride ≤ second * stride ∨ second * stride + stride ≤ first * stride := by
  rcases Nat.lt_or_gt_of_ne different with before | after
  · exact Or.inl (slot_bounds before)
  · exact Or.inr (slot_bounds after)

theorem Row.congr {other : Nat → Nat} (row : heap.Row start stride count words)
    (same : ∀ index < count, other index = words index) : heap.Row start stride count other :=
  ⟨row.allocated, fun index inside => by rw [row.word index inside, same index inside]⟩

theorem Row.store64 (row : heap.Row start stride count words) (wide : 8 ≤ stride) {index : Nat}
    (inside : index < count) {value : Nat} (bound : value < 2 ^ 64) :
    ∃ next, heap.store64 ↑(start + index * stride) value = some next ∧
      next.Row start stride count (Function.update words index value) ∧
      ∀ cell, Outside cell start (count * stride) → next cell = heap cell := by
  obtain ⟨next, stored, written, frame, kept⟩ := store64_spec (slot_allocated row.allocated wide inside) bound
  have room : index * stride + stride ≤ count * stride := slot_bounds inside
  refine ⟨next, stored, ⟨kept _ _ row.allocated, fun other within => ?_⟩, fun cell outside => ?_⟩
  · by_cases same : other = index
    · rw [same, Function.update_self, written]
    · rw [Function.update_of_ne same, ← row.word other within]
      have apart : other * stride + stride ≤ index * stride ∨ index * stride + stride ≤ other * stride := slot_apart same
      exact load64_congr fun cell from_ upto =>
        frame cell (by simp only [Outside]; omega)
  · exact frame cell (by simp only [Outside]; omega)

theorem Row.store64_beside (row : heap.Row start stride count words) (wide : 16 ≤ stride) {index : Nat}
    (inside : index < count) {value : Nat} (bound : value < 2 ^ 64) :
    ∃ next, heap.store64 ↑(start + index * stride + 8) value = some next ∧ next.Row start stride count words := by
  have room : index * stride + stride ≤ count * stride := slot_bounds inside
  have second : heap.Allocated ↑(start + index * stride + 8) 8 := by
    intro offset small
    have cell := row.allocated (index * stride + 8 + offset) (by omega)
    rwa [show (start : Int) + ((index * stride + 8 + offset : Nat) : Int) =
      ((start + index * stride + 8 : Nat) : Int) + offset by push_cast; ring] at cell
  obtain ⟨next, stored, -, frame, kept⟩ := store64_spec second bound
  refine ⟨next, stored, kept _ _ row.allocated, fun other within => ?_⟩
  rw [← row.word other within]
  refine load64_congr fun cell from_ upto => frame cell ?_
  simp only [Outside]
  by_cases same : other = index
  · subst same
    omega
  · have apart : other * stride + stride ≤ index * stride ∨ index * stride + stride ≤ other * stride := slot_apart same
    omega

/-- The second word of a slot that is too narrow for two: the store ends inside the word of the next slot. -/
theorem Row.store64_across (row : heap.Row start stride count words) (wide : 8 ≤ stride) (narrow : stride < 16) {index : Nat}
    (inside : index + 1 < count) {value : Nat} (bound : value < 2 ^ 64) :
    ∃ next, heap.store64 ↑(start + index * stride + 8) value = some next ∧
      next.Row start stride count
        (Function.update words (index + 1) (overwriteLow (stride - 8) value (words (index + 1)))) := by
  have room : (index + 1) * stride + stride ≤ count * stride := slot_bounds inside
  have successor : (index + 1) * stride = index * stride + stride := Nat.succ_mul index stride
  have second : heap.Allocated ↑(start + index * stride + 8) 8 := by
    intro offset small
    have cell := row.allocated (index * stride + 8 + offset) (by omega)
    rwa [show (start : Int) + ((index * stride + 8 + offset : Nat) : Int) =
      ((start + index * stride + 8 : Nat) : Int) + offset by push_cast; ring] at cell
  obtain ⟨next, stored, -, frame, kept⟩ := store64_spec second bound
  refine ⟨next, stored, kept _ _ row.allocated, fun other within => ?_⟩
  by_cases same : other = index + 1
  · subst same
    have place : ((start + (index + 1) * stride : Nat) : Int) =
        ((start + index * stride + 8 : Nat) : Int) + ((stride - 8 : Nat) : Int) := by omega
    have loaded := row.word (index + 1) inside
    rw [place] at loaded
    rw [Function.update_self, place]
    exact store64_overlap loaded stored bound (by omega)
  · rw [Function.update_of_ne same, ← row.word other within]
    refine load64_congr fun cell from_ upto => frame cell ?_
    simp only [Outside]
    by_cases here : other = index
    · subst here
      omega
    · have apart : other * stride + stride ≤ index * stride ∨ index * stride + stride ≤ other * stride := slot_apart here
      have beyond : other * stride + stride ≤ (index + 1) * stride ∨ (index + 1) * stride + stride ≤ other * stride :=
        slot_apart same
      omega

theorem row_of_zeros (wide : 8 ≤ stride) (zeroed : heap.Holds start (List.replicate (count * stride) 0)) :
    heap.Row start stride count fun _ => 0 := by
  constructor
  · have allocated := zeroed.allocated
    rwa [List.length_replicate] at allocated
  · intro index inside
    have bound : index * stride + stride ≤ count * stride := slot_bounds inside
    have window := zeroed.window (index * stride) 8 (by rw [List.length_replicate]; omega)
    rw [List.drop_replicate, List.take_replicate, Nat.min_eq_left (by omega), ← Nat.cast_add] at window
    rw [window.load64 List.length_replicate, ofBytes_zeros]

theorem Allocated.row (allocated : heap.Allocated start (count * stride)) (wide : 8 ≤ stride) :
    ∃ words, heap.Row start stride count words := by
  have value (index : Nat) (inside : index < count) : ∃ value, heap.load64 ↑(start + index * stride) = some value := by
    obtain ⟨values, eight, held⟩ := (slot_allocated allocated wide inside).exists_holds
    exact ⟨_, held.load64 eight⟩
  refine ⟨fun index => (heap.load64 ↑(start + index * stride)).getD 0, allocated, fun index inside => ?_⟩
  obtain ⟨value, found⟩ := value index inside
  rw [found]
  rfl

end

end Heap

end Mbench.Library
