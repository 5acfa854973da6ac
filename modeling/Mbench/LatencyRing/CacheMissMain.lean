import Mbench.LatencyRing.ParallelChase
import Mbench.Library.CInt
import Mathlib.Tactic.IntervalCases

/-! `ParallelCacheMiss.c` from its command line on: the sizes that `main` accepts, the divisions of
`measure_rdlat_user` and `setup_rnd`, and the whole of `measure_rnd_read`. What `alloc_memory` returns is
any buffer of the size asked for, if it returns; the check of `rand_ratio`, made in floating point, is a
parameter. -/

namespace Mbench.LatencyRing
open Library

namespace ParallelCacheMiss

inductive Switch
  | s (optarg : UInt64)
  | m
  | l
  | d (optarg : UInt64)
  | q (optarg : UInt64)
  | unknown

/-- The variables that the options set; of `rand_ratio`, the percentage given. -/
structure Settings where
  memSizePerThreadInKb : UInt64 := 4
  scale : UInt32 := 1
  stride : UInt64 := 64
  hugepageForced : Bool := false
  randRatio : Option UInt64 := none

def takeSwitch (settings : Settings) : Switch → Option Settings
  | .s optarg => some { settings with memSizePerThreadInKb := optarg }
  | .m => some { settings with scale := 1024 }
  | .l => some { settings with hugepageForced := true }
  | .d optarg => some { settings with stride := optarg }
  | .q optarg => some { settings with randRatio := some optarg }
  | .unknown => none

def accept (ratioOk : Option UInt64 → Bool) (switches : List Switch) : Option Settings := do
  let read ← switches.foldlM takeSwitch {}
  let settings := { read with memSizePerThreadInKb := read.memSizePerThreadInKb * read.scale.toUInt64 }
  if settings.memSizePerThreadInKb < 4 then none
  else if ¬ratioOk settings.randRatio then none
  else some settings

def Settings.nBytes (settings : Settings) : UInt64 := settings.memSizePerThreadInKb * 1024

/-- The stride as `setup_rnd` computes with it, once converted to `int`. -/
def segBytes (stride : UInt64) : Nat := (ullOf (intOf stride)).toNat

/-- `setup_rnd` as `measure_rdlat_user` calls it: the division by `seg_size` and, where there is no
segment, the first `rnd % n_segs` are undefined. -/
def setupInt (aboveRatio : Nat → Nat → Bool) (heap : Heap UInt8) (addr : Nat) (size : UInt64) (segSize : Int32)
    (draws : List UInt64) : Option Outcome := do
  let nSegs ← divULL size (ullOf segSize)
  if nSegs = 0 ∧ draws ≠ [] then none
  else setupRnd aboveRatio heap addr size.toNat (ullOf segSize).toNat draws

def moving (prl : Nat) : Nat := if prl ∈ [16, 12, 8, 6, 4, 2] then prl else 1

def rdOnes (heap : Heap UInt8) : Nat → List Nat → Option (List Nat)
  | 0, pointers => some pointers
  | hops + 1, pointers => do
      let pointers ← rdOne heap pointers
      rdOnes heap hops pointers

def starts (paddr : Nat) (stride : UInt64) : List Nat :=
  (List.range 16).map fun k => (paddr + k * stride.toNat) % 2 ^ 64

/-- The whole of `measure_rnd_read`: the first pointers are moved, and all are dereferenced for the
sum that goes to `*paddr`. -/
def measureWhole (heap : Heap UInt8) (paddr : Nat) (stride : UInt64) (prl itr1 itr2 : Nat) : Option (List Nat) := do
  let moved ← rdOnes heap (itr1 * itr2 * 100) ((starts paddr stride).take (moving prl))
  rdOne heap (moved ++ (starts paddr stride).drop (moving prl))

/-- The end of `measure_rdlat_user`: the program has exited for want of memory, it waits for another
draw, or it has summed up these words. -/
inductive Reading
  | exited
  | waiting
  | summed (words : List Nat)

/-- `measure_rdlat_user`; `pptr` is the buffer of `alloc_memory`, which exits where there is none. The
division by `stride` stands before the allocation. -/
def measureRdlatUser (aboveRatio : Nat → Nat → Bool) (pptr : Option (Heap UInt8 × Nat)) (nBytes stride : UInt64)
    (prl : Nat) (draws : List UInt64) : Option Reading := do
  let _ ← divULL nBytes stride
  match pptr with
  | none => some .exited
  | some (heap, addr) => do
      let outcome ← setupInt aboveRatio heap addr nBytes (intOf stride) draws
      match outcome with
      | .waiting _ => some .waiting
      | .left setup _ _ => do
          let words ← measureWhole setup.heap addr stride prl 100 10000
          some (.summed words)

end ParallelCacheMiss

/-- The block of an allocation of `nBytes`, no larger than `PTRDIFF_MAX`, and no other memory than its
own. -/
structure Buffer (heap : Heap UInt8) (addr nBytes : Nat) : Prop where
  positive : 0 < addr
  limit : nBytes < 2 ^ 63
  fits : addr + nBytes ≤ 2 ^ 64
  cells : ∀ cell : Int, (heap cell).isSome ↔ ↑addr ≤ cell ∧ cell < addr + nBytes

/-- What an allocation of `nBytes` can turn out to be: it fails, or it is a block of the size. -/
def Allocation (nBytes : Nat) : Option (Heap UInt8 × Nat) → Prop
  | none => True
  | some (heap, addr) => Buffer heap addr nBytes

/-- No undefined division, no access outside the buffer and no two link words that overlap, whatever
the allocation, the draws and `PRL`. -/
structure ParallelCacheMiss.InBounds (aboveRatio : Nat → Nat → Bool) (nBytes stride : UInt64) : Prop where
  defined : ∀ pptr prl draws, Allocation nBytes.toNat pptr →
    (ParallelCacheMiss.measureRdlatUser aboveRatio pptr nBytes stride prl draws).isSome
  apart : ∀ heap addr, Buffer heap addr nBytes.toNat → ∀ nSegs, divULL nBytes (ullOf (intOf stride)) = some nSegs →
    ∀ first < nSegs.toNat, ∀ second < nSegs.toNat, first < second →
      first * ParallelCacheMiss.segBytes stride + 8 ≤ second * ParallelCacheMiss.segBytes stride

namespace ParallelCacheMiss

section
variable {heap : Heap UInt8} {addr prl itr1 itr2 : Nat} {nBytes stride : UInt64}

theorem rdOnes_eq (hops : Nat) (pointers : List Nat) : rdOnes heap hops pointers = pointers.mapM (chase heap hops) := by
  induction hops generalizing pointers with
  | zero =>
    rw [rdOnes, mapM_eq_map pointers (chase heap 0) id fun _ _ => rfl, List.map_id]
  | succ hops ih =>
    calc rdOnes heap (hops + 1) pointers
        = (rdOne heap pointers).bind fun moved => moved.mapM (chase heap hops) := by
          rw [rdOnes, Option.bind_eq_bind]
          simp only [ih]
      _ = pointers.mapM fun p : Nat => (heap.load64 p).bind (chase heap hops) := mapM_mapM _ _ _
      _ = pointers.mapM (chase heap (hops + 1)) := rfl

theorem chase_one (p : Nat) : chase heap 1 p = heap.load64 p := by
  rw [chase]
  cases heap.load64 p <;> rfl

theorem measureWhole_isSome :
    (measureWhole heap addr stride prl itr1 itr2).isSome ↔
      (∀ p ∈ (starts addr stride).take (moving prl), (chase heap (itr1 * itr2 * 100 + 1) p).isSome) ∧
        ∀ p ∈ (starts addr stride).drop (moving prl), (heap.load64 (p : Nat)).isSome := by
  have moved : ((rdOnes heap (itr1 * itr2 * 100) ((starts addr stride).take (moving prl))).bind (rdOne heap)) =
      ((starts addr stride).take (moving prl)).mapM (chase heap (itr1 * itr2 * 100 + 1)) := by
    rw [rdOnes_eq]
    refine (mapM_mapM _ _ _).trans ?_
    congr 1
    funext p
    rw [chase_add]
    congr 1
    funext last
    exact (chase_one last).symm
  have still : (rdOne heap ((starts addr stride).drop (moving prl))).isSome ↔
      ∀ p ∈ (starts addr stride).drop (moving prl), (heap.load64 (p : Nat)).isSome := isSome_mapM
  rw [← isSome_mapM, ← moved, ← still, measureWhole]
  cases rdOnes heap (itr1 * itr2 * 100) ((starts addr stride).take (moving prl)) with
  | none => simp
  | some pointers =>
    rw [Option.bind_eq_bind, Option.bind_some, Option.bind_some, rdOne, List.mapM_append]
    simp only [rdOne]
    cases pointers.mapM fun p : Nat => heap.load64 p with
    | none => simp
    | some first => cases ((starts addr stride).drop (moving prl)).mapM fun p : Nat => heap.load64 p <;> simp

theorem Buffer.allocated {size count : Nat} (buffer : Buffer heap addr size) (fewer : count ≤ size) :
    heap.Allocated addr count := by
  intro index inside
  rw [buffer.cells]
  omega

theorem nonzero_of_segBytes (wide : 8 ≤ segBytes stride) : stride.toNat ≠ 0 := by
  intro zero
  have none : stride = 0 := UInt64.toNat_inj.mp zero
  rw [none] at wide
  exact absurd wide (by decide)

theorem mem_starts {p : Nat} (wide : 8 ≤ segBytes stride) (divides : segBytes stride ∣ stride.toNat)
    (room : 15 * stride.toNat + segBytes stride ≤ nBytes.toNat) (fits : addr + nBytes.toNat ≤ 2 ^ 64)
    (member : p ∈ starts addr stride) :
    ∃ index < nBytes.toNat / segBytes stride, p = place addr (segBytes stride) index := by
  obtain ⟨k, small, rfl⟩ := List.mem_map.mp member
  obtain ⟨times, multiple⟩ := divides
  have few : k ≤ 15 := by
    have below := List.mem_range.mp small
    omega
  have before : k * stride.toNat ≤ 15 * stride.toNat := Nat.mul_le_mul_right _ few
  have slot : k * times * segBytes stride = k * stride.toNat := by rw [multiple]; ring
  refine ⟨k * times, ?_, ?_⟩
  · rw [← Nat.succ_le_iff, Nat.le_div_iff_mul_le (by omega), Nat.succ_mul, slot]
    omega
  · rw [Nat.mod_eq_of_lt (by omega), place, slot]

theorem measureRdlatUser_eq {aboveRatio : Nat → Nat → Bool} {draws : List UInt64} (nonzero : stride.toNat ≠ 0)
    (segments : 1 ≤ nBytes.toNat / segBytes stride) :
    measureRdlatUser aboveRatio (some (heap, addr)) nBytes stride prl draws =
      (setupRnd aboveRatio heap addr nBytes.toNat (segBytes stride) draws).bind fun outcome =>
        match outcome with
        | .waiting _ => some .waiting
        | .left setup _ _ => (measureWhole setup.heap addr stride prl 100 10000).bind fun words => some (.summed words) := by
  have positive : (ullOf (intOf stride)).toNat ≠ 0 := by
    intro zero
    rw [segBytes, zero, Nat.div_zero] at segments
    omega
  have some_ : nBytes / ullOf (intOf stride) ≠ 0 := by
    intro zero
    have quotient := congrArg UInt64.toNat zero
    rw [UInt64.toNat_div] at quotient
    rw [segBytes, quotient] at segments
    exact absurd segments (by decide)
  unfold measureRdlatUser setupInt
  rw [divULL_eq_some.mpr ⟨nonzero, UInt64.toNat_div _ _⟩, divULL_eq_some.mpr ⟨positive, UInt64.toNat_div _ _⟩]
  simp only [Option.bind_eq_bind, Option.bind_some, if_neg fun none : _ ∧ draws ≠ [] => some_ none.1, segBytes]

theorem measureRdlatUser_exits {aboveRatio : Nat → Nat → Bool} {draws : List UInt64} (nonzero : stride.toNat ≠ 0) :
    (measureRdlatUser aboveRatio none nBytes stride prl draws).isSome := by
  rw [measureRdlatUser, divULL_eq_some.mpr ⟨nonzero, UInt64.toNat_div _ _⟩]
  rfl

theorem measureWhole_defined (aboveRatio : Nat → Nat → Bool) (draws : List UInt64) (prl itr1 itr2 : Nat) {size segSize : Nat}
    (area : Area addr segSize (size / segSize) addr) (allocated : heap.Allocated addr (size / segSize * segSize))
    (onSegments : ∀ p ∈ starts addr stride, ∃ index < size / segSize, p = place addr segSize index) :
    ∃ outcome, setupRnd aboveRatio heap addr size segSize draws = some outcome ∧
      ∀ final early unread, outcome = .left final early unread →
        (measureWhole final.heap addr stride prl itr1 itr2).isSome := by
  obtain ⟨cleared, marked, run⟩ := setupRnd_cleared area allocated
  obtain ⟨outcome, ran, ended⟩ := ring_spec area (giveUp aboveRatio (size / segSize)) marked draws
  refine ⟨outcome, (run aboveRatio draws).trans ran, fun final early unread same => ?_⟩
  obtain ⟨used, ring, -, made, -⟩ := ended final early unread same
  have followed (hops : Nat) {p : Nat} (member : p ∈ starts addr stride) : (chase final.heap hops p).isSome := by
    obtain ⟨index, inside, rfl⟩ := onSegments p member
    rw [made.chased hops inside]
    rfl
  rw [measureWhole_isSome]
  constructor
  · intro p member
    exact followed _ (List.mem_of_mem_take member)
  · intro p member
    rw [← chase_one]
    exact followed 1 (List.mem_of_mem_drop member)

theorem inBounds_of (aboveRatio : Nat → Nat → Bool) (wide : 8 ≤ segBytes stride) (divides : segBytes stride ∣ stride.toNat)
    (room : 15 * stride.toNat + segBytes stride ≤ nBytes.toNat) : InBounds aboveRatio nBytes stride where
  defined := by
    intro pptr prl draws allocated
    obtain _ | ⟨heap, addr⟩ := pptr
    · exact measureRdlatUser_exits (nonzero_of_segBytes wide)
    have buffer : Buffer heap addr nBytes.toNat := allocated
    have fits := buffer.fits
    have segments : 1 ≤ nBytes.toNat / segBytes stride := (Nat.le_div_iff_mul_le (by omega)).mpr (by omega)
    have inside : nBytes.toNat / segBytes stride * segBytes stride ≤ nBytes.toNat := Nat.div_mul_le_self _ _
    have area : Area addr (segBytes stride) (nBytes.toNat / segBytes stride) addr := area_base wide segments (by omega)
    obtain ⟨outcome, ran, measured⟩ := measureWhole_defined aboveRatio draws prl 100 10000 area
      (Buffer.allocated buffer inside) fun p member => mem_starts wide divides room fits member
    rw [measureRdlatUser_eq (nonzero_of_segBytes wide) segments, ran, Option.bind_some]
    cases outcome with
    | waiting setup => rfl
    | left setup early unread =>
      obtain ⟨words, summed⟩ := Option.isSome_iff_exists.mp (measured setup early unread rfl)
      dsimp only
      rw [summed]
      rfl
  apart := by
    intro _ _ _ nSegs _ first _ second _ before
    calc first * segBytes stride + 8 ≤ first * segBytes stride + segBytes stride := Nat.add_le_add_left wide _
      _ = (first + 1) * segBytes stride := (Nat.succ_mul _ _).symm
      _ ≤ second * segBytes stride := Nat.mul_le_mul_right _ before

/-! A buffer in which every link word holds the address of the buffer before `setup_rnd` starts. -/

theorem idle_store {address value : Nat} (held : heap.Holds address (bytes 8 value)) :
    heap.store64 address value = some heap := by
  have allocated := held.allocated
  rw [Heap.store64, Heap.Allocated.write allocated, held.splice_eq]

theorem idle_clear {segSize nSegs : Nat}
    (linked : ∀ index < nSegs, heap.Holds (place addr segSize index : Nat) (bytes 8 addr)) :
    clearSegments heap addr segSize nSegs = some heap := by
  obtain ⟨final, run, same⟩ := forLoop_rule (fun i heap => heap.store64 (place addr segSize i) addr)
    (fun _ state => state = heap) nSegs heap rfl fun index inside state same => by
      subst same
      exact ⟨state, idle_store (linked index inside), rfl⟩
  rw [clearSegments, run, same]

theorem idle_drawLoop {segSize nSegs : Nat} {giveUp : Nat → Bool} (small : addr < 2 ^ 64)
    (held : heap.Holds addr (bytes 8 addr)) (left nDone : Nat) (sum : nDone + (left + 1) = nSegs) :
    drawLoop addr segSize nSegs addr giveUp { heap, pos := addr, nDone, nConflict := 0 } (List.replicate (left + 1) 0) =
      some (.left { heap, pos := addr, nDone := nSegs, nConflict := 0 } false []) := by
  have word : heap.load64 addr = some addr := by
    rw [held.load64 (bytes_length 8 addr), ofBytes_bytes, Nat.mod_eq_of_lt (by simpa using small)]
  have first : segment nSegs 0 = 0 := Nat.zero_mod _
  have turn (done : Nat) : takeDraw addr segSize nSegs addr giveUp { heap, pos := addr, nDone := done, nConflict := 0 } 0 =
      some ({ heap, pos := addr, nDone := done + 1, nConflict := 0 }, false) := by
    simp only [takeDraw, first, place_zero, word, idle_store held, Option.bind_eq_bind, Option.bind_some, ne_eq,
      not_true_eq_false, if_false]
  induction left generalizing nDone with
  | zero =>
    have total : nDone + 1 = nSegs := by omega
    rw [List.replicate_succ, List.replicate_zero, drawLoop, turn, Option.bind_eq_bind, Option.bind_some]
    simp only [Bool.false_eq_true, if_false, total, lt_irrefl]
  | succ left ih =>
    have more : nDone + 1 < nSegs := by omega
    rw [List.replicate_succ, drawLoop, turn, Option.bind_eq_bind, Option.bind_some]
    simp only [Bool.false_eq_true, if_false, if_pos more]
    exact ih (nDone + 1) (by omega)

theorem idle_setupRnd (aboveRatio : Nat → Nat → Bool) {size segSize : Nat} (small : addr < 2 ^ 64)
    (segments : 1 ≤ size / segSize)
    (linked : ∀ index < size / segSize, heap.Holds (place addr segSize index : Nat) (bytes 8 addr)) :
    setupRnd aboveRatio heap addr size segSize (List.replicate (size / segSize) 0) =
      some (.left { heap, pos := addr, nDone := size / segSize, nConflict := 0 } false []) := by
  have held : heap.Holds addr (bytes 8 addr) := by
    have first := linked 0 segments
    rwa [place_zero] at first
  obtain ⟨left, count⟩ := Nat.exists_eq_add_of_le' segments
  have drawn : drawLoop addr segSize (size / segSize) addr (giveUp aboveRatio (size / segSize)) (startSetup heap addr)
      (List.replicate (left + 1) 0) = some (.left { heap, pos := addr, nDone := size / segSize, nConflict := 0 } false []) :=
    idle_drawLoop small held left 0 (by omega)
  rw [← count] at drawn
  simp only [setupRnd, idle_clear linked, drawn, makeRing, idle_store held, Option.bind_eq_bind, Option.bind_some]

/-- A buffer at `2 ^ 62` whose segments link to it. Besides the link words it has zeros, so that a word read anywhere else is
below its address. -/
def selfLinked (size segSize : Nat) : Heap UInt8 := fun cell =>
  if 2 ^ 62 ≤ cell ∧ cell < 2 ^ 62 + size then
    some (if (cell - 2 ^ 62).toNat % segSize = 7 ∧ (cell - 2 ^ 62).toNat < size / segSize * segSize then 64 else 0)
  else none

theorem selfLinked_buffer {size : Nat} (limit : size < 2 ^ 63) (segSize : Nat) :
    Buffer (selfLinked size segSize) (2 ^ 62) size where
  positive := by decide
  limit := limit
  fits := by omega
  cells := by
    intro cell
    unfold selfLinked
    split
    next inside => simpa using inside
    next outside => simpa using outside

theorem selfLinked_linked {size segSize index : Nat} (wide : 8 ≤ segSize) (inside : index < size / segSize) :
    (selfLinked size segSize).Holds (place (2 ^ 62) segSize index : Nat) (bytes 8 (2 ^ 62)) := by
  intro offset small
  rw [bytes_length] at small
  have slot : index * segSize + segSize ≤ size / segSize * segSize := Heap.slot_bounds inside
  have whole : size / segSize * segSize ≤ size := Nat.div_mul_le_self _ _
  have position : ((place (2 ^ 62) segSize index : Nat) + (offset : Int) - 2 ^ 62).toNat = index * segSize + offset := by
    unfold place
    omega
  have remainder : (index * segSize + offset) % segSize = offset := by
    rw [Nat.mul_add_mod', Nat.mod_eq_of_lt (by omega)]
  have range : 2 ^ 62 ≤ ((place (2 ^ 62) segSize index : Nat) : Int) + offset ∧
      ((place (2 ^ 62) segSize index : Nat) : Int) + offset < 2 ^ 62 + size := by
    unfold place
    omega
  have below : index * segSize + offset < size / segSize * segSize := by omega
  rw [selfLinked, if_pos range, position, remainder]
  simp only [below, and_true]
  interval_cases offset <;> rfl

theorem selfLinked_twice {size segSize p : Nat} (twice : (chase (selfLinked size segSize) 2 p).isSome) :
    ∃ offset, p = 2 ^ 62 + offset ∧ (offset + 7) % segSize = 7 ∧ offset + 7 < size / segSize * segSize := by
  rw [chase] at twice
  obtain ⟨next, twice⟩ := Option.isSome_iff_exists.mp twice
  obtain ⟨word, first, second⟩ := Option.bind_eq_some_iff.mp twice
  rw [chase_one] at second
  have cell {address : Nat} {value : Nat} (loaded : (selfLinked size segSize).load64 address = some value)
      (offset : Nat) (small : offset < 8) : 2 ^ 62 ≤ (address : Int) + offset := by
    obtain ⟨values, eight, held, -⟩ := Heap.load64_eq_some loaded
    have here := held.cell offset (by omega)
    unfold selfLinked at here
    split at here
    next inside => exact inside.1
    next _ => cases here
  have high := cell second 0 (by decide)
  have low := cell first 0 (by decide)
  by_cases linked : ((p : Int) + 7 - 2 ^ 62).toNat % segSize = 7 ∧ ((p : Int) + 7 - 2 ^ 62).toNat < size / segSize * segSize
  · have position : ((p : Int) + 7 - 2 ^ 62).toNat = p - 2 ^ 62 + 7 := by omega
    rw [position] at linked
    exact ⟨p - 2 ^ 62, by omega, linked⟩
  · have zero : selfLinked size segSize ((p : Int) + 7) = some 0 := by
      obtain ⟨values, eight, held, -⟩ := Heap.load64_eq_some first
      have last : selfLinked size segSize ((p : Int) + 7) = some values[7] := held.cell 7 (by omega)
      unfold selfLinked at last ⊢
      split at last
      next inside => rw [if_pos inside, if_neg linked]
      next _ => cases last
    have small := Heap.load64_small first zero
    omega

theorem InBounds.nonzero {aboveRatio : Nat → Nat → Bool} (safe : InBounds aboveRatio nBytes stride) : stride.toNat ≠ 0 := by
  obtain ⟨reading, run⟩ := Option.isSome_iff_exists.mp (safe.defined none 0 [] trivial)
  obtain ⟨quotient, divided, -⟩ := Option.bind_eq_some_iff.mp run
  exact (divULL_eq_some.mp divided).1

theorem InBounds.divides {aboveRatio : Nat → Nat → Bool} (safe : InBounds aboveRatio nBytes stride)
    (limit : nBytes.toNat < 2 ^ 63) : 1 ≤ nBytes.toNat / segBytes stride := by
  have defined := safe.defined (some (_, _)) 0 [0] (selfLinked_buffer limit 8)
  obtain ⟨reading, run⟩ := Option.isSome_iff_exists.mp defined
  unfold measureRdlatUser setupInt at run
  obtain ⟨quotient, -, run⟩ := Option.bind_eq_some_iff.mp run
  obtain ⟨outcome, set, -⟩ := Option.bind_eq_some_iff.mp run
  obtain ⟨nSegs, segments, drawn⟩ := Option.bind_eq_some_iff.mp set
  rw [segBytes, ← (divULL_eq_some.mp segments).2]
  by_contra none
  have zero : nSegs = 0 := UInt64.toNat_inj.mp (by rw [UInt64.toNat_zero]; omega)
  rw [if_pos ⟨zero, by simp⟩] at drawn
  cases drawn

theorem InBounds.starts_linked {aboveRatio : Nat → Nat → Bool} (safe : InBounds aboveRatio nBytes stride)
    (limit : nBytes.toNat < 2 ^ 63) (wide : 8 ≤ segBytes stride) {k : Nat} (few : k < 16) :
    ∃ offset, (2 ^ 62 + k * stride.toNat) % 2 ^ 64 = 2 ^ 62 + offset ∧ (offset + 7) % segBytes stride = 7 ∧
      offset + 7 < nBytes.toNat / segBytes stride * segBytes stride := by
  have nonzero := safe.nonzero
  have segments := safe.divides limit
  have defined := safe.defined (some (_, _)) 16 (List.replicate (nBytes.toNat / segBytes stride) 0)
    (selfLinked_buffer limit (segBytes stride))
  rw [measureRdlatUser_eq nonzero segments, idle_setupRnd aboveRatio (by decide) segments
    fun index inside => selfLinked_linked wide inside, Option.bind_some] at defined
  obtain ⟨reading, run⟩ := Option.isSome_iff_exists.mp defined
  obtain ⟨words, summed, -⟩ := Option.bind_eq_some_iff.mp run
  have followed := (measureWhole_isSome.mp (Option.isSome_iff_exists.mpr ⟨words, summed⟩)).1
  have every : (starts (2 ^ 62) stride).take (moving 16) = starts (2 ^ 62) stride :=
    List.take_of_length_le (by rw [starts, List.length_map, List.length_range]; decide)
  rw [every] at followed
  apply selfLinked_twice
  have all := followed ((2 ^ 62 + k * stride.toNat) % 2 ^ 64)
    (List.mem_map.mpr ⟨k, List.mem_range.mpr few, rfl⟩)
  rw [show 100 * 10000 * 100 + 1 = 2 + (100 * 10000 * 100 - 1) by norm_num, chase_add] at all
  cases two : chase (selfLinked nBytes.toNat (segBytes stride)) 2 ((2 ^ 62 + k * stride.toNat) % 2 ^ 64) with
  | none => rw [two] at all; cases all
  | some last => rfl

theorem of_inBounds {aboveRatio : Nat → Nat → Bool} (safe : InBounds aboveRatio nBytes stride)
    (limit : nBytes.toNat < 2 ^ 63) (kilobytes : 1024 ∣ nBytes.toNat) :
    8 ≤ segBytes stride ∧ segBytes stride ∣ stride.toNat ∧ 15 * stride.toNat + segBytes stride ≤ nBytes.toNat := by
  have segments := safe.divides limit
  have whole : nBytes.toNat / segBytes stride * segBytes stride ≤ nBytes.toNat := Nat.div_mul_le_self _ _
  have positive : 0 < segBytes stride := by
    by_contra none
    rw [Nat.eq_zero_of_not_pos none, Nat.div_zero] at segments
    omega
  have wide : 8 ≤ segBytes stride := by
    by_cases two : 2 ≤ nBytes.toNat / segBytes stride
    · have quotient : divULL nBytes (ullOf (intOf stride)) = some (nBytes / ullOf (intOf stride)) :=
        divULL_eq_some.mpr ⟨positive.ne', UInt64.toNat_div _ _⟩
      have count : (nBytes / ullOf (intOf stride)).toNat = nBytes.toNat / segBytes stride := UInt64.toNat_div _ _
      have next := safe.apart _ _ (selfLinked_buffer limit 8) _ quotient 0 (by omega) 1 (by omega) Nat.zero_lt_one
      omega
    · have short : nBytes.toNat < 2 * segBytes stride := (Nat.div_lt_iff_lt_mul positive).mp (by omega)
      obtain ⟨size, same⟩ := kilobytes
      have some_ : 0 < size := by
        by_contra none
        rw [same, Nat.eq_zero_of_not_pos none, Nat.mul_zero, Nat.zero_div] at segments
        omega
      omega
  obtain ⟨first, one, aligned, _⟩ := safe.starts_linked limit wide (show 1 < 16 by decide)
  obtain ⟨second, two, _, _⟩ := safe.starts_linked limit wide (show 2 < 16 by decide)
  obtain ⟨fourth, four, _, _⟩ := safe.starts_linked limit wide (show 4 < 16 by decide)
  obtain ⟨eighth, eight, _, _⟩ := safe.starts_linked limit wide (show 8 < 16 by decide)
  obtain ⟨last, fifteen, _, inside⟩ := safe.starts_linked limit wide (show 15 < 16 by decide)
  -- No start wraps around: the second is in the buffer, so the third does not wrap, and so on.
  have bound := stride.toNat_lt
  have firstAt : first = stride.toNat := by omega
  have secondAt : second = 2 * stride.toNat := by omega
  have fourthAt : fourth = 4 * stride.toNat := by omega
  have eighthAt : eighth = 8 * stride.toNat := by omega
  have lastAt : last = 15 * stride.toNat := by omega
  have divides : segBytes stride ∣ stride.toNat := by
    rw [firstAt] at aligned
    have same : stride.toNat + 7 ≡ 0 + 7 [MOD segBytes stride] := by
      rw [Nat.ModEq, aligned, Nat.mod_eq_of_lt (by omega)]
    exact (Nat.modEq_zero_iff_dvd.mp (Nat.ModEq.add_right_cancel' 7 same))
  refine ⟨wide, divides, ?_⟩
  obtain ⟨times, multiple⟩ := divides
  have slot : last = 15 * times * segBytes stride := by rw [lastAt, multiple]; ring
  have before : 15 * times < nBytes.toNat / segBytes stride := (Nat.mul_lt_mul_right positive).mp (by omega)
  have room : 15 * times * segBytes stride + segBytes stride ≤ nBytes.toNat / segBytes stride * segBytes stride :=
    Heap.slot_bounds before
  omega

end

theorem Settings.kilobytes (settings : Settings) : 1024 ∣ settings.nBytes.toNat := by
  rw [nBytes, UInt64.toNat_mul]
  change 1024 ∣ settings.memSizePerThreadInKb.toNat * 1024 % 2 ^ 64
  omega

/-- With the sizes that `main` accepts, the set-up and the measurement stay in bounds exactly when the
stride is not zero and, unless there cannot be a buffer of that size, the stride, as an `int`, gives
segments of a word at least, the starts are at segments, and the last of them is in the buffer. -/
theorem inBounds_iff (aboveRatio : Nat → Nat → Bool) (ratioOk : Option UInt64 → Bool) (switches : List Switch) :
    ∀ settings ∈ accept ratioOk switches,
      (InBounds aboveRatio settings.nBytes settings.stride ↔
        settings.stride ≠ 0 ∧ (settings.nBytes.toNat < 2 ^ 63 →
          8 ≤ segBytes settings.stride ∧ segBytes settings.stride ∣ settings.stride.toNat ∧
            15 * settings.stride.toNat + segBytes settings.stride ≤ settings.nBytes.toNat)) := by
  intro settings _
  constructor
  · intro safe
    refine ⟨fun zero => safe.nonzero (by rw [zero]; rfl), fun limit => of_inBounds safe limit settings.kilobytes⟩
  · intro ⟨nonzero, room⟩
    by_cases limit : settings.nBytes.toNat < 2 ^ 63
    · obtain ⟨wide, divides, last⟩ := room limit
      exact inBounds_of aboveRatio wide divides last
    · have some_ : settings.stride.toNat ≠ 0 := fun zero => nonzero (UInt64.toNat_inj.mp zero)
      constructor
      · intro pptr prl draws allocated
        cases pptr with
        | none => exact measureRdlatUser_exits some_
        | some buffer => exact absurd (Buffer.limit allocated) limit
      · exact fun _ _ buffer => absurd buffer.limit limit

theorem inBounds_plain : InBounds (fun _ _ => false) 4096 64 :=
  (inBounds_iff (fun _ _ => false) (fun _ => true) [] {} rfl).mpr ⟨by decide, fun _ => by decide⟩

theorem inBounds_wideStride :
    accept (fun _ => true) [.d 512] = some { stride := 512 } ∧ ¬InBounds (fun _ _ => false) 4096 512 := by
  refine ⟨rfl, fun safe => ?_⟩
  have room := (of_inBounds safe (by decide) (by decide)).2.2
  exact absurd room (by decide)

end ParallelCacheMiss

end Mbench.LatencyRing
