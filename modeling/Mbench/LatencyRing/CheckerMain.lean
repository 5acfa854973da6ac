import Mbench.LatencyRing.CacheMissMain
import Mbench.LatencyRing.Progress
import Mbench.LatencyRing.ReadWalk

/-! `simpleMemLatChecker.c` from its command line on: the sizes that `main` accepts, the clearing of the buffer, `setup_rnd`
with its divisions, and the whole of `measure_rnd_read`. What `posix_memalign` returns is any buffer of the size asked for; the
check of `rand_ratio`, made in floating point, is a parameter. -/

namespace Mbench.LatencyRing.SimpleMemLatChecker
open Library

inductive Switch
  | s (optarg : UInt64)
  | m
  | d (optarg : UInt64)
  | q (optarg : UInt64)
  | unknown

/-- The variables that the options set; of `rand_ratio`, the percentage given. -/
structure Settings where
  memSizePerThreadInKb : UInt64 := 4
  scale : UInt32 := 1
  stride : UInt64 := 64
  randRatio : Option UInt64 := none

def takeSwitch (settings : Settings) : Switch → Option Settings
  | .s optarg => some { settings with memSizePerThreadInKb := optarg }
  | .m => some { settings with scale := 1024 }
  | .d optarg => some { settings with stride := optarg }
  | .q optarg => some { settings with randRatio := some optarg }
  | .unknown => none

def accept (ratioOk : Option UInt64 → Bool) (switches : List Switch) : Option Settings := do
  let read ← switches.foldlM takeSwitch {}
  let settings := { read with memSizePerThreadInKb := read.memSizePerThreadInKb * read.scale.toUInt64 }
  if settings.memSizePerThreadInKb < 4 then none
  else if ¬ratioOk settings.randRatio then none
  else some settings

def Settings.nBytes (settings : Settings) : UInt64 := settings.memSizePerThreadInKb * 1024

/-- `setup_rnd` as `measure_rdlat_user` calls it: the division by `seg_size` and, where there is no segment, the first
`rnd % n_segs` are undefined. -/
def setupInt (aboveRatio : Nat → Nat → Bool) (heap : Heap UInt8) (addr : Nat) (size : UInt64) (segSize : Int32)
    (draws : List UInt64) : Option Outcome := do
  let nSegs ← divULL size (ullOf segSize)
  if nSegs = 0 ∧ draws ≠ [] then none
  else setupRnd aboveRatio heap addr size.toNat (ullOf segSize).toNat draws

def measureRndRead (heap : Heap UInt8) (paddr itr1 itr2 : Nat) : Option Nat := do
  let p ← measureLoops (fun p : Nat => heap.load64 p) itr1 itr2 paddr
  heap.load64 p

/-- The end of `measure_rdlat_user`: the program has exited for want of memory, it waits for another draw, or it has measured,
with this memory and `pos`. -/
inductive Ending
  | exited
  | waiting
  | measured (heap : Heap UInt8) (pos : Nat)

/-- `measure_rdlat_user`; `pptr` is the buffer of `posix_memalign`, and the program exits where there is none. The division
by `stride` stands before the allocation. -/
def measureRdlatUser (aboveRatio : Nat → Nat → Bool) (pptr : Option (Heap UInt8 × Nat)) (nBytes stride : UInt64)
    (draws : List UInt64) : Option Ending := do
  let _ ← divULL nBytes stride
  match pptr with
  | none => some .exited
  | some (heap, addr) => do
      let cleared ← heap.write addr (List.replicate nBytes.toNat 0)
      let outcome ← setupInt aboveRatio cleared addr nBytes (intOf stride) draws
      match outcome with
      | .waiting _ => some .waiting
      | .left setup _ _ => do
          let pos ← measureRndRead setup.heap addr 100 100
          some (.measured setup.heap pos)

/-- The stride as `setup_rnd` computes with it, once converted to `int`. -/
abbrev segBytes (stride : UInt64) : Nat := ParallelCacheMiss.segBytes stride

/-- No undefined division, no access outside the buffer and no two link words that overlap, whatever the allocation and
the draws. -/
structure InBounds (aboveRatio : Nat → Nat → Bool) (nBytes stride : UInt64) : Prop where
  defined : ∀ pptr draws, Allocation nBytes.toNat pptr → (measureRdlatUser aboveRatio pptr nBytes stride draws).isSome
  apart : ∀ heap addr, Buffer heap addr nBytes.toNat → ∀ nSegs, divULL nBytes (ullOf (intOf stride)) = some nSegs →
    ∀ first < nSegs.toNat, ∀ second < nSegs.toNat, first < second →
      first * segBytes stride + 8 ≤ second * segBytes stride

/-- Once each segment has been drawn twice, a million hops have been made on a ring, and `pos` is the segment after the last. -/
def Measures (aboveRatio : Nat → Nat → Bool) (nBytes stride : UInt64) : Prop :=
  ∀ heap addr draws, Buffer heap addr nBytes.toNat → DrawnTwice (nBytes.toNat / segBytes stride) draws →
    ∃ final ring, measureRdlatUser aboveRatio (some (heap, addr)) nBytes stride draws =
        some (.measured final (onRing addr (segBytes stride) ring (1000000 + 1))) ∧
      RingAt final addr (segBytes stride) ring ∧ ∀ index ∈ ring, index < nBytes.toNat / segBytes stride

section
variable {aboveRatio : Nat → Nat → Bool} {heap : Heap UInt8} {addr : Nat} {nBytes stride : UInt64} {draws : List UInt64}
  {segSize : Nat} {ring : List Nat}

theorem forLoop_chase (heap : Heap UInt8) (hops p : Nat) :
    forLoop (fun _ (p : Nat) => heap.load64 p) hops p = chase heap hops p := by
  induction hops with
  | zero => rfl
  | succ hops ih =>
    rw [forLoop, ih, chase_add]
    congr 1
    funext last
    exact (ParallelCacheMiss.chase_one last).symm

theorem measureRndRead_eq (round : RingAt heap addr segSize ring) (itr1 itr2 : Nat) :
    measureRndRead heap addr itr1 itr2 = some (onRing addr segSize ring (wrOnes itr1 itr2 + 1)) := by
  rw [measureRndRead, measureLoops_eq, forLoop_chase, round.chase_onRing, Option.bind_eq_bind, Option.bind_some, round.load]

theorem measureRdlatUser_eq (buffer : Buffer heap addr nBytes.toNat) (nonzero : stride.toNat ≠ 0)
    (segments : 1 ≤ nBytes.toNat / segBytes stride) :
    measureRdlatUser aboveRatio (some (heap, addr)) nBytes stride draws =
      (setupRnd aboveRatio (heap.splice addr (List.replicate nBytes.toNat 0)) addr nBytes.toNat (segBytes stride) draws).bind
        fun outcome => match outcome with
          | .waiting _ => some .waiting
          | .left setup _ _ => (measureRndRead setup.heap addr 100 100).bind fun pos => some (.measured setup.heap pos) := by
  have positive : (ullOf (intOf stride)).toNat ≠ 0 := by
    intro zero
    rw [segBytes, ParallelCacheMiss.segBytes, zero, Nat.div_zero] at segments
    omega
  have some_ : nBytes / ullOf (intOf stride) ≠ 0 := by
    intro zero
    have quotient := congrArg UInt64.toNat zero
    rw [UInt64.toNat_div] at quotient
    rw [segBytes, ParallelCacheMiss.segBytes, quotient] at segments
    exact absurd segments (by decide)
  have allocated : heap.Allocated addr (List.replicate nBytes.toNat (0 : UInt8)).length := by
    rw [List.length_replicate]
    exact ParallelCacheMiss.Buffer.allocated buffer le_rfl
  unfold measureRdlatUser setupInt
  rw [divULL_eq_some.mpr ⟨nonzero, UInt64.toNat_div _ _⟩, divULL_eq_some.mpr ⟨positive, UInt64.toNat_div _ _⟩]
  simp only [allocated.write, Option.bind_eq_bind, Option.bind_some, if_neg fun none : _ ∧ draws ≠ [] => some_ none.1, segBytes,
    ParallelCacheMiss.segBytes]

theorem setupRnd_cases (aboveRatio : Nat → Nat → Bool) (draws : List UInt64) {size : Nat}
    (area : Area addr segSize (size / segSize) 0) (nonnull : 0 < addr)
    (zeroed : heap.Holds addr (List.replicate (size / segSize * segSize) 0)) :
    ∃ outcome, setupRnd aboveRatio heap addr size segSize draws = some outcome ∧
      (∀ setup, outcome = .waiting setup → ¬DrawnTwice (size / segSize) draws) ∧
      ∀ setup early unread, outcome = .left setup early unread →
        ∃ ring, RingAt setup.heap addr segSize ring ∧ ∀ index ∈ ring, index < size / segSize := by
  have marked := Heap.row_of_zeros area.wide zeroed
  obtain ⟨outcome, ran, made⟩ := ring_spec area (giveUp aboveRatio (size / segSize)) marked draws
  refine ⟨outcome, ran, fun setup waits twice => ?_, fun setup early unread left => ?_⟩
  · obtain ⟨middle, drawn, closed⟩ := Option.bind_eq_some_iff.mp ran
    rw [waits] at closed
    rw [makeRing_waiting closed] at drawn
    exact drawLoop_leaves area marked (by rw [place_zero]; omega) twice drawn
  · obtain ⟨used, ring, _, round, _⟩ := made setup early unread left
    exact ⟨ring, round.round, round.inside⟩

theorem measureRdlatUser_cases (aboveRatio : Nat → Nat → Bool) (draws : List UInt64) (wide : 8 ≤ segBytes stride)
    (room : segBytes stride ≤ nBytes.toNat) (buffer : Buffer heap addr nBytes.toNat) :
    ∃ ending, measureRdlatUser aboveRatio (some (heap, addr)) nBytes stride draws = some ending ∧
      (ending = .waiting ∧ ¬DrawnTwice (nBytes.toNat / segBytes stride) draws ∨
        ∃ final ring, ending = .measured final (onRing addr (segBytes stride) ring (1000000 + 1)) ∧
          RingAt final addr (segBytes stride) ring ∧ ∀ index ∈ ring, index < nBytes.toNat / segBytes stride) := by
  have fits := buffer.fits
  have segments : 1 ≤ nBytes.toNat / segBytes stride := (Nat.one_le_div_iff (by omega)).mpr room
  have inside : nBytes.toNat / segBytes stride * segBytes stride ≤ nBytes.toNat := Nat.div_mul_le_self _ _
  have area : Area addr (segBytes stride) (nBytes.toNat / segBytes stride) 0 := area_zero wide segments (by omega)
  have cleared : (heap.splice addr (List.replicate nBytes.toNat 0)).Holds addr (List.replicate nBytes.toNat 0) :=
    Heap.holds_splice_self
  have zeroed := cleared.window 0 (nBytes.toNat / segBytes stride * segBytes stride) (by rw [List.length_replicate]; omega)
  rw [List.drop_zero, List.take_replicate, Nat.min_eq_left inside, Nat.cast_zero, Int.add_zero] at zeroed
  obtain ⟨outcome, ran, waits, left⟩ := setupRnd_cases aboveRatio draws area buffer.positive zeroed
  rw [measureRdlatUser_eq buffer (ParallelCacheMiss.nonzero_of_segBytes wide) segments, ran, Option.bind_some]
  cases outcome with
  | waiting setup => exact ⟨.waiting, rfl, Or.inl ⟨rfl, waits setup rfl⟩⟩
  | left setup early unread =>
    obtain ⟨ring, round, within⟩ := left setup early unread rfl
    dsimp only
    rw [measureRndRead_eq round, Option.bind_some]
    exact ⟨_, rfl, Or.inr ⟨setup.heap, ring, rfl, round, within⟩⟩

theorem measureRdlatUser_exits (nonzero : stride.toNat ≠ 0) :
    (measureRdlatUser aboveRatio none nBytes stride draws).isSome := by
  rw [measureRdlatUser, divULL_eq_some.mpr ⟨nonzero, UInt64.toNat_div _ _⟩]
  rfl

theorem inBounds_of (wide : 8 ≤ segBytes stride) (room : segBytes stride ≤ nBytes.toNat) : InBounds aboveRatio nBytes stride where
  defined := by
    intro pptr draws allocated
    obtain _ | ⟨heap, addr⟩ := pptr
    · exact measureRdlatUser_exits (ParallelCacheMiss.nonzero_of_segBytes wide)
    · obtain ⟨ending, ran, _⟩ := measureRdlatUser_cases aboveRatio draws wide room allocated
      rw [ran]
      rfl
  apart := by
    intro _ _ _ _ _ first _ second _ before
    calc first * segBytes stride + 8 ≤ first * segBytes stride + segBytes stride := Nat.add_le_add_left wide _
      _ = (first + 1) * segBytes stride := (Nat.succ_mul _ _).symm
      _ ≤ second * segBytes stride := Nat.mul_le_mul_right _ before

theorem measures_of (wide : 8 ≤ segBytes stride) (room : segBytes stride ≤ nBytes.toNat) : Measures aboveRatio nBytes stride := by
  intro heap addr draws buffer twice
  obtain ⟨ending, ran, ⟨_, seldom⟩ | ⟨final, ring, rfl, round, within⟩⟩ :=
    measureRdlatUser_cases aboveRatio draws wide room buffer
  · exact absurd twice seldom
  · exact ⟨final, ring, ran, round, within⟩

theorem InBounds.nonzero (safe : InBounds aboveRatio nBytes stride) : stride.toNat ≠ 0 := by
  obtain ⟨ending, run⟩ := Option.isSome_iff_exists.mp (safe.defined none [] trivial)
  obtain ⟨quotient, divided, -⟩ := Option.bind_eq_some_iff.mp run
  exact (divULL_eq_some.mp divided).1

theorem InBounds.segments (safe : InBounds aboveRatio nBytes stride) (limit : nBytes.toNat < 2 ^ 63) :
    1 ≤ nBytes.toNat / segBytes stride := by
  have defined := safe.defined (some (_, _)) [0] (ParallelCacheMiss.selfLinked_buffer limit 8)
  obtain ⟨ending, run⟩ := Option.isSome_iff_exists.mp defined
  unfold measureRdlatUser setupInt at run
  obtain ⟨quotient, divided, run⟩ := Option.bind_eq_some_iff.mp run
  obtain ⟨cleared, written, run⟩ := Option.bind_eq_some_iff.mp run
  obtain ⟨outcome, set, -⟩ := Option.bind_eq_some_iff.mp run
  obtain ⟨nSegs, segments, drawn⟩ := Option.bind_eq_some_iff.mp set
  rw [segBytes, ParallelCacheMiss.segBytes, ← (divULL_eq_some.mp segments).2]
  by_contra none
  have zero : nSegs = 0 := UInt64.toNat_inj.mp (by rw [UInt64.toNat_zero]; omega)
  rw [if_pos ⟨zero, by simp⟩] at drawn
  cases drawn

theorem of_inBounds (safe : InBounds aboveRatio nBytes stride) (limit : nBytes.toNat < 2 ^ 63) (kilobytes : 1024 ∣ nBytes.toNat) :
    8 ≤ segBytes stride ∧ segBytes stride ≤ nBytes.toNat := by
  have segments := safe.segments limit
  have whole : nBytes.toNat / segBytes stride * segBytes stride ≤ nBytes.toNat := Nat.div_mul_le_self _ _
  have room : segBytes stride ≤ nBytes.toNat := (Nat.le_mul_of_pos_left _ segments).trans whole
  have positive : 0 < segBytes stride := by
    by_contra none
    rw [Nat.eq_zero_of_not_pos none, Nat.div_zero] at segments
    omega
  refine ⟨?_, room⟩
  by_cases two : 2 ≤ nBytes.toNat / segBytes stride
  · have quotient : divULL nBytes (ullOf (intOf stride)) = some (nBytes / ullOf (intOf stride)) :=
      divULL_eq_some.mpr ⟨positive.ne', UInt64.toNat_div _ _⟩
    have count : (nBytes / ullOf (intOf stride)).toNat = nBytes.toNat / segBytes stride := UInt64.toNat_div _ _
    have next := safe.apart _ _ (ParallelCacheMiss.selfLinked_buffer limit 8) _ quotient 0 (by omega) 1 (by omega) Nat.zero_lt_one
    omega
  · have short : nBytes.toNat < 2 * segBytes stride := (Nat.div_lt_iff_lt_mul positive).mp (by omega)
    obtain ⟨size, same⟩ := kilobytes
    omega

end

theorem Settings.kilobytes (settings : Settings) : 1024 ∣ settings.nBytes.toNat := by
  rw [nBytes, UInt64.toNat_mul]
  change 1024 ∣ settings.memSizePerThreadInKb.toNat * 1024 % 2 ^ 64
  omega

/-- With the sizes that `main` accepts, the set-up and the measurement stay in bounds exactly when the stride is not zero and,
unless there cannot be a buffer of that size, the stride, as an `int`, is a word at least and in the buffer. In bounds, the run
ends when the draws have been enough. -/
theorem accepted_measures (aboveRatio : Nat → Nat → Bool) (ratioOk : Option UInt64 → Bool) (switches : List Switch) :
    ∀ settings ∈ accept ratioOk switches,
      (InBounds aboveRatio settings.nBytes settings.stride ↔
        settings.stride ≠ 0 ∧ (settings.nBytes.toNat < 2 ^ 63 →
          8 ≤ segBytes settings.stride ∧ segBytes settings.stride ≤ settings.nBytes.toNat)) ∧
      (InBounds aboveRatio settings.nBytes settings.stride → Measures aboveRatio settings.nBytes settings.stride) := by
  intro settings _
  refine ⟨⟨fun safe => ?_, fun ⟨nonzero, room⟩ => ?_⟩, fun safe => ?_⟩
  · exact ⟨fun zero => safe.nonzero (by rw [zero]; rfl), fun limit => of_inBounds safe limit settings.kilobytes⟩
  · by_cases limit : settings.nBytes.toNat < 2 ^ 63
    · exact inBounds_of (room limit).1 (room limit).2
    · have some_ : settings.stride.toNat ≠ 0 := fun zero => nonzero (UInt64.toNat_inj.mp zero)
      constructor
      · intro pptr draws allocated
        cases pptr with
        | none => exact measureRdlatUser_exits some_
        | some buffer => exact absurd (Buffer.limit allocated) limit
      · exact fun _ _ buffer => absurd buffer.limit limit
  · by_cases limit : settings.nBytes.toNat < 2 ^ 63
    · obtain ⟨wide, room⟩ := of_inBounds safe limit settings.kilobytes
      exact measures_of wide room
    · exact fun _ _ _ buffer => absurd buffer.limit limit

theorem accepted_measures_plain : InBounds (fun _ _ => false) 4096 64 ∧ Measures (fun _ _ => false) 4096 64 := by
  obtain ⟨bounds, measures⟩ := accepted_measures (fun _ _ => false) (fun _ => true) [] {} rfl
  have safe : InBounds (fun _ _ => false) 4096 64 := bounds.mpr ⟨by decide, fun _ => by decide⟩
  exact ⟨safe, measures safe⟩

end Mbench.LatencyRing.SimpleMemLatChecker
