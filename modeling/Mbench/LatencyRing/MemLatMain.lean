import Mbench.LatencyRing.ParallelTest
import Mbench.Library.CInt
import Mbench.Library.Windows

/-! The command line of `mem_lat.c` and the sizes that `main` and `parallel_test` derive from it.
The team that OpenMP forms, the address that the allocation returns and the check of `rand_ratio`,
made in floating point, are parameters. -/

namespace Mbench.LatencyRing
open Library

inductive MemLat.Switch
  | n (optarg : UInt64)
  | s (optarg : UInt64)
  | m
  | l
  | d (optarg : UInt64)
  | c (optarg : UInt64)
  | b
  | q (optarg : UInt64)
  | unknown

/-- The variables that the options set; of `rand_ratio`, the percentage given. -/
structure MemLat.Settings where
  numThreads : Int32 := 1
  memSizePerThreadInKb : Int32 := 16
  noDefaultSize : Bool := false
  mega : Int32 := 1
  defaultLoop : Int32 := 1000
  hugepageForced : Bool := false
  stride : Int32 := 256
  testCase : Int32 := 0
  cpubind : Bool := false
  randRatio : Option UInt64 := none

def MemLat.takeSwitch (settings : MemLat.Settings) : MemLat.Switch → Option MemLat.Settings
  | .n optarg => some { settings with numThreads := intOf optarg }
  | .s optarg => some { settings with memSizePerThreadInKb := intOf optarg, noDefaultSize := true }
  | .m => some { settings with mega := 1024, defaultLoop := settings.defaultLoop / 100 }
  | .l => some { settings with hugepageForced := true }
  | .d optarg => some { settings with stride := intOf optarg }
  | .c optarg => some { settings with testCase := intOf optarg }
  | .b => some { settings with cpubind := true }
  | .q optarg => some { settings with randRatio := some optarg }
  | .unknown => none

/-- `mem_size_per_thread_in_kb *= 1024L`: a product of type `long`, converted back to `int`. -/
def MemLat.scaleSize (settings : MemLat.Settings) : MemLat.Settings :=
  if settings.noDefaultSize ∧ 1 < settings.mega then
    { settings with memSizePerThreadInKb := (settings.memSizePerThreadInKb.toInt64 * 1024).toInt32 }
  else settings

def MemLat.accept (ratioOk : Option UInt64 → Bool) (switches : List MemLat.Switch) (ompNumThreads : Nat) :
    Option MemLat.Settings := do
  let read ← switches.foldlM MemLat.takeSwitch {}
  let settings := MemLat.scaleSize read
  if settings.memSizePerThreadInKb < 4 then none
  else if 256 < settings.numThreads ∨ settings.numThreads < 1 then none
  else if ¬ratioOk settings.randRatio then none
  else if 256 < ompNumThreads then none
  else some settings

structure MemLat.Layout where
  nBytes : UInt64
  nSegs : UInt64
  ptrs : List Int
  myBytes : UInt64
  mySegs : UInt64

def MemLat.threadOffset (settings : MemLat.Settings) (i : Nat) : Option Int64 := do
  let kb ← mulInt (Int32.ofNat i) settings.memSizePerThreadInKb
  mulLong kb.toInt64 1024

/-- `n_bytes`, `n_segs` and `ptrs` of `main`, then `my_bytes` of `parallel_test` and the `n_segs` of
its calls of `setup_rnd`. -/
def MemLat.layout (settings : MemLat.Settings) (ompNumThreads : Nat) (ptr : Int) : Option MemLat.Layout := do
  let size ← mulLong settings.memSizePerThreadInKb.toInt64 1024
  let total ← mulLong size (Int64.ofNat ompNumThreads)
  let nBytes := total.toUInt64
  let nSegs ← divULL nBytes (ullOf settings.stride)
  let offsets ← (List.range ompNumThreads).mapM (MemLat.threadOffset settings)
  let myBytes ← divULL nBytes (UInt64.ofNat ompNumThreads)
  let mySegs ← divULL myBytes (ullOf settings.stride)
  some { nBytes, nSegs, ptrs := offsets.map fun offset => ptr + offset.toInt, myBytes, mySegs }

def MemLat.Layout.windows (layout : MemLat.Layout) : List (Set Int) :=
  layout.ptrs.map fun start => Set.Ico start (start + layout.myBytes.toNat)

/-- Divisors that are at least 1, and one window for each thread, which part the buffer. -/
structure MemLat.Layout.Sound (layout : MemLat.Layout) (stride : Int32) (ompNumThreads : Nat) (ptr : Int) : Prop where
  stride : stride ≠ 0
  whole : 1 ≤ layout.nSegs.toNat
  each : 1 ≤ layout.mySegs.toNat
  count : layout.ptrs.length = ompNumThreads
  apart : layout.windows.Pairwise Disjoint
  cover : ∀ cell, (∃ part ∈ layout.windows, cell ∈ part) ↔ cell ∈ Set.Ico ptr (ptr + layout.nBytes.toNat)

section
variable {settings : MemLat.Settings} {ompNumThreads : Nat} {ptr : Int}

theorem MemLat.accept_bounds {ratioOk : Option UInt64 → Bool} {switches : List MemLat.Switch}
    (accepted : MemLat.accept ratioOk switches ompNumThreads = some settings) :
    4 ≤ settings.memSizePerThreadInKb.toInt ∧ ompNumThreads ≤ 256 := by
  unfold MemLat.accept at accepted
  cases reading : switches.foldlM MemLat.takeSwitch {} with
  | none => simp [reading] at accepted
  | some read =>
    simp only [reading, Option.bind_eq_bind, Option.bind_some, Option.ite_none_left_eq_some, Option.some.injEq] at accepted
    obtain ⟨size, -, -, team, rfl⟩ := accepted
    rw [Int32.lt_iff_toInt_lt] at size
    exact ⟨Int.not_lt.mp size, Nat.not_lt.mp team⟩

theorem MemLat.threadOffset_eq_some {i : Nat} {offset : Int64} (small : i < 256) :
    MemLat.threadOffset settings i = some offset ↔
      (-2 ^ 31 ≤ i * settings.memSizePerThreadInKb.toInt ∧ i * settings.memSizePerThreadInKb.toInt < 2 ^ 31) ∧
        offset.toInt = i * settings.memSizePerThreadInKb.toInt * 1024 := by
  have index : (Int32.ofNat i).toInt = i := Int32.toInt_ofNat_of_lt (by omega)
  have thousand : (1024 : Int64).toInt = 1024 := rfl
  unfold MemLat.threadOffset
  rw [Option.bind_eq_bind, Option.bind_eq_some_iff]
  constructor
  · intro ⟨kb, product, scaled⟩
    rw [mulInt_eq_some, index] at product
    rw [mulLong_eq_some, Int32.toInt_toInt64, thousand, product] at scaled
    rw [← product]
    exact ⟨⟨kb.le_toInt, kb.toInt_lt⟩, product ▸ scaled⟩
  · intro ⟨⟨low, high⟩, value⟩
    have kb : (Int32.ofInt (i * settings.memSizePerThreadInKb.toInt)).toInt = i * settings.memSizePerThreadInKb.toInt :=
      Int32.toInt_ofInt_of_le low high
    refine ⟨Int32.ofInt (i * settings.memSizePerThreadInKb.toInt), ?_, ?_⟩
    · rw [mulInt_eq_some, index, kb]
    · rw [mulLong_eq_some, Int32.toInt_toInt64, thousand, kb, value]

theorem MemLat.offset_fits {size : Int} (some_ : 0 ≤ size) {i : Nat} (below : i < ompNumThreads)
    (fits : (ompNumThreads - 1) * size < 2 ^ 31) : 0 ≤ i * size ∧ i * size < 2 ^ 31 := by
  have last : (i : Int) * size < 2 ^ 31 :=
    calc (i : Int) * size ≤ (ompNumThreads - 1) * size := mul_le_mul_of_nonneg_right (by omega) some_
      _ < 2 ^ 31 := fits
  exact ⟨by positivity, last⟩

theorem MemLat.offsets_defined (some_ : 0 ≤ settings.memSizePerThreadInKb.toInt) (team : ompNumThreads ≤ 256)
    (fits : (ompNumThreads - 1) * settings.memSizePerThreadInKb.toInt < 2 ^ 31) :
    (List.range ompNumThreads).mapM (MemLat.threadOffset settings) =
      some ((List.range ompNumThreads).map fun i : Nat => Int64.ofInt (i * settings.memSizePerThreadInKb.toInt * 1024)) := by
  apply mapM_eq_map
  intro i member
  have below : i < ompNumThreads := List.mem_range.mp member
  obtain ⟨first, last⟩ := MemLat.offset_fits some_ below fits
  rw [MemLat.threadOffset_eq_some (by omega)]
  exact ⟨⟨by omega, last⟩, Int64.toInt_ofInt_of_le (by omega) (by omega)⟩

theorem MemLat.offsets_fit {offsets : List Int64} (team : ompNumThreads ≤ 256)
    (defined : (List.range ompNumThreads).mapM (MemLat.threadOffset settings) = some offsets) :
    (ompNumThreads - 1) * settings.memSizePerThreadInKb.toInt < 2 ^ 31 ∨ ompNumThreads = 0 := by
  rcases ompNumThreads with _ | earlier
  · exact Or.inr rfl
  · left
    rw [List.range_succ, List.mapM_append, Option.bind_eq_bind, Option.bind_eq_some_iff] at defined
    obtain ⟨front, -, rest⟩ := defined
    rw [List.mapM_cons, List.mapM_nil] at rest
    cases offset : MemLat.threadOffset settings earlier with
    | none => simp [offset] at rest
    | some last =>
      rw [MemLat.threadOffset_eq_some (by omega)] at offset
      have high := offset.1.2
      push_cast
      rwa [add_sub_cancel_right]

structure MemLat.Layout.Values (layout : MemLat.Layout) (settings : MemLat.Settings) (ompNumThreads : Nat)
    (ptr : Int) : Prop where
  nBytes : (layout.nBytes.toNat : Int) = settings.memSizePerThreadInKb.toInt * 1024 * ompNumThreads
  myBytes : (layout.myBytes.toNat : Int) = settings.memSizePerThreadInKb.toInt * 1024
  nSegs : layout.nSegs.toNat = layout.nBytes.toNat / (ullOf settings.stride).toNat
  mySegs : layout.mySegs.toNat = layout.myBytes.toNat / (ullOf settings.stride).toNat
  ptrs : layout.ptrs = (List.range ompNumThreads).map fun i : Nat =>
    ptr + i * (settings.memSizePerThreadInKb.toInt * 1024)

theorem MemLat.ullOf_zero {stride : Int32} : (ullOf stride).toNat = 0 ↔ stride = 0 := by
  have value := toNat_ullOf stride
  have low := stride.le_toInt
  have high := stride.toInt_lt
  rw [← Int32.toInt_inj, show (0 : Int32).toInt = 0 from rfl]
  omega

theorem MemLat.layout_values {layout : MemLat.Layout} (some_ : 0 < settings.memSizePerThreadInKb.toInt)
    (team : 0 < ompNumThreads) (teamBound : ompNumThreads ≤ 256)
    (defined : MemLat.layout settings ompNumThreads ptr = some layout) :
    settings.stride ≠ 0 ∧ (ompNumThreads - 1) * settings.memSizePerThreadInKb.toInt < 2 ^ 31 ∧
      layout.Values settings ompNumThreads ptr := by
  have thousand : (1024 : Int64).toInt = 1024 := rfl
  have threads : (Int64.ofNat ompNumThreads).toInt = ompNumThreads := Int64.toInt_ofNat_of_lt (by omega)
  have high := settings.memSizePerThreadInKb.toInt_lt
  simp only [MemLat.layout, Option.bind_eq_bind, Option.bind_eq_some_iff, mulLong_eq_some, divULL_eq_some,
    Int32.toInt_toInt64, thousand, threads, Option.some.injEq] at defined
  obtain ⟨size, sized, total, whole, nSegs, ⟨nonzero, divided⟩, offsets, mapped, myBytes, ⟨-, shared⟩, mySegs,
    ⟨-, parted⟩, rfl⟩ := defined
  have fits := (MemLat.offsets_fit teamBound mapped).resolve_right (by omega)
  rw [MemLat.offsets_defined (by omega) teamBound fits] at mapped
  have nBytes : (total.toUInt64.toNat : Int) = settings.memSizePerThreadInKb.toInt * 1024 * ompNumThreads := by
    have small : settings.memSizePerThreadInKb.toInt * 1024 * ompNumThreads ≤ 2 ^ 41 * 256 :=
      mul_le_mul (by omega) (by omega) (by omega) (by omega)
    have positive : 0 ≤ settings.memSizePerThreadInKb.toInt * 1024 * ompNumThreads := by positivity
    rw [toNat_toUInt64, whole, sized]
    exact Int.emod_eq_of_lt positive (by omega)
  refine ⟨fun zero => nonzero (MemLat.ullOf_zero.mpr zero), fits, nBytes, ?_, divided, parted, ?_⟩
  · have count : (UInt64.ofNat ompNumThreads).toNat = ompNumThreads := UInt64.toNat_ofNat_of_lt' (by
      change ompNumThreads < 2 ^ 64
      omega)
    rw [shared, count, Int.natCast_ediv, nBytes]
    exact Int.mul_ediv_cancel _ (by omega)
  · rw [← Option.some.inj mapped, List.map_map]
    apply List.map_congr_left
    intro i member
    have below : i < ompNumThreads := List.mem_range.mp member
    obtain ⟨first, last⟩ := MemLat.offset_fits some_.le below fits
    rw [Function.comp_apply, Int64.toInt_ofInt_of_le (by omega) (by omega), mul_assoc]

theorem MemLat.layout_defined (some_ : 0 < settings.memSizePerThreadInKb.toInt) (team : 0 < ompNumThreads)
    (teamBound : ompNumThreads ≤ 256) (nonzero : settings.stride ≠ 0)
    (fits : (ompNumThreads - 1) * settings.memSizePerThreadInKb.toInt < 2 ^ 31) :
    ∃ layout, MemLat.layout settings ompNumThreads ptr = some layout := by
  have thousand : (1024 : Int64).toInt = 1024 := rfl
  have threads : (Int64.ofNat ompNumThreads).toInt = ompNumThreads := Int64.toInt_ofNat_of_lt (by omega)
  have high := settings.memSizePerThreadInKb.toInt_lt
  have sized : (Int64.ofInt (settings.memSizePerThreadInKb.toInt * 1024)).toInt =
      settings.memSizePerThreadInKb.toInt * 1024 := Int64.toInt_ofInt_of_le (by omega) (by omega)
  have small : settings.memSizePerThreadInKb.toInt * 1024 * ompNumThreads ≤ 2 ^ 41 * 256 :=
    mul_le_mul (by omega) (by omega) (by omega) (by omega)
  have positive : 0 ≤ settings.memSizePerThreadInKb.toInt * 1024 * ompNumThreads := by positivity
  have whole : (Int64.ofInt (settings.memSizePerThreadInKb.toInt * 1024 * ompNumThreads)).toInt =
      settings.memSizePerThreadInKb.toInt * 1024 * ompNumThreads := Int64.toInt_ofInt_of_le (by omega) (by omega)
  have count : (UInt64.ofNat ompNumThreads).toNat = ompNumThreads := UInt64.toNat_ofNat_of_lt' (by
    change ompNumThreads < 2 ^ 64
    omega)
  have divisor (dividend : UInt64) : divULL dividend (ullOf settings.stride) = some (dividend / ullOf settings.stride) :=
    divULL_eq_some.mpr ⟨fun zero => nonzero (MemLat.ullOf_zero.mp zero), UInt64.toNat_div _ _⟩
  have threadParts (dividend : UInt64) :
      divULL dividend (UInt64.ofNat ompNumThreads) = some (dividend / UInt64.ofNat ompNumThreads) :=
    divULL_eq_some.mpr ⟨by omega, UInt64.toNat_div _ _⟩
  have sizes := mulLong_eq_some.mpr (sized.trans (by rw [Int32.toInt_toInt64, thousand]) :
    _ = settings.memSizePerThreadInKb.toInt64.toInt * (1024 : Int64).toInt)
  have totals := mulLong_eq_some.mpr (whole.trans (by rw [sized, threads]) :
    _ = (Int64.ofInt (settings.memSizePerThreadInKb.toInt * 1024)).toInt * (Int64.ofNat ompNumThreads).toInt)
  simp only [MemLat.layout, Option.bind_eq_bind, sizes, totals, divisor, threadParts,
    MemLat.offsets_defined some_.le teamBound fits, Option.bind_some]
  exact ⟨_, rfl⟩

theorem MemLat.Layout.Values.windows {layout : MemLat.Layout} (values : layout.Values settings ompNumThreads ptr) :
    layout.windows = (List.range ompNumThreads).map (window ptr (settings.memSizePerThreadInKb.toInt * 1024)) := by
  rw [MemLat.Layout.windows, values.ptrs, List.map_map, values.myBytes]
  rfl

theorem MemLat.Layout.Values.mainTest {layout : MemLat.Layout} {base : Nat}
    (values : layout.Values settings ompNumThreads base) (idx : Fin ompNumThreads) :
    layout.ptrs[idx.val]? = some ((base + idx * layout.myBytes.toNat : Nat) : Int) := by
  rw [values.ptrs, List.getElem?_map, List.getElem?_range idx.isLt, Option.map_some]
  push_cast
  rw [values.myBytes]

theorem MemLat.quotient_positive {size : Nat} {stride : Int32} (small : size < 2 ^ 50) (nonzero : stride ≠ 0) :
    1 ≤ size / (ullOf stride).toNat ↔ 1 ≤ stride.toInt ∧ stride.toInt ≤ size := by
  have value := toNat_ullOf stride
  have low := stride.le_toInt
  have high := stride.toInt_lt
  have positive : 0 < (ullOf stride).toNat := Nat.pos_of_ne_zero fun zero => nonzero (MemLat.ullOf_zero.mp zero)
  rw [Nat.le_div_iff_mul_le positive, one_mul]
  omega

/-- The divisors are positive and the threads part the buffer exactly when `stride` is between 1 and
the bytes of a thread and the offset of the last thread fits in an `int`. -/
theorem MemLat.layout_sound {ratioOk : Option UInt64 → Bool} {switches : List MemLat.Switch} (team : 0 < ompNumThreads)
    (accepted : MemLat.accept ratioOk switches ompNumThreads = some settings) :
    (∃ layout, MemLat.layout settings ompNumThreads ptr = some layout ∧
        layout.Sound settings.stride ompNumThreads ptr) ↔
      1 ≤ settings.stride.toInt ∧ settings.stride.toInt ≤ settings.memSizePerThreadInKb.toInt * 1024 ∧
        (ompNumThreads - 1) * settings.memSizePerThreadInKb.toInt < 2 ^ 31 := by
  obtain ⟨size, teamBound⟩ := MemLat.accept_bounds accepted
  have high := settings.memSizePerThreadInKb.toInt_lt
  constructor
  · intro ⟨layout, defined, sound⟩
    obtain ⟨nonzero, fits, values⟩ := MemLat.layout_values (by omega) team teamBound defined
    have each := sound.each
    have mine := values.myBytes
    rw [values.mySegs, MemLat.quotient_positive (by omega) nonzero] at each
    exact ⟨each.1, mine ▸ each.2, fits⟩
  · intro ⟨positive, inside, fits⟩
    have nonzero : settings.stride ≠ 0 := by
      intro zero
      rw [zero] at positive
      exact absurd positive (by decide)
    obtain ⟨layout, defined⟩ : ∃ layout, MemLat.layout settings ompNumThreads ptr = some layout :=
      MemLat.layout_defined (by omega) team teamBound nonzero fits
    obtain ⟨-, -, values⟩ := MemLat.layout_values (by omega) team teamBound defined
    have mine := values.myBytes
    have total : (layout.nBytes.toNat : Int) = layout.myBytes.toNat * ompNumThreads := by rw [values.nBytes, mine]
    have more : layout.myBytes.toNat ≤ layout.nBytes.toNat := by
      have product : layout.nBytes.toNat = layout.myBytes.toNat * ompNumThreads := by exact_mod_cast total
      rw [product]
      exact Nat.le_mul_of_pos_right _ team
    have fewer : (layout.nBytes.toNat : Int) ≤ 2 ^ 41 * 256 := by
      rw [total]
      exact mul_le_mul (by omega) (by omega) (by omega) (by omega)
    refine ⟨layout, defined, ⟨nonzero, ?_, ?_, ?_, ?_, fun cell => ?_⟩⟩
    · rw [values.nSegs, MemLat.quotient_positive (by omega) nonzero]
      omega
    · rw [values.mySegs, MemLat.quotient_positive (by omega) nonzero]
      omega
    · rw [values.ptrs, List.length_map, List.length_range]
    · rw [values.windows]
      exact windows_disjoint (by omega) ompNumThreads
    · rw [values.windows, windows_cover (by omega), values.nBytes, mul_comm (ompNumThreads : Int)]

end

theorem MemLat.layout_sound_plain :
    ∃ layout, MemLat.layout {} 4 (2 ^ 21) = some layout ∧ layout.Sound 256 4 (2 ^ 21) :=
  (MemLat.layout_sound (by decide) (show MemLat.accept (fun _ => true) [] 4 = some {} from rfl)).mpr (by decide)

/-- With `-s 4 -d 8192` a thread has 4096 bytes, and no segment of 8192 in them. -/
theorem MemLat.layout_wideStride :
    MemLat.accept (fun _ => true) [.s 4, .d 8192] 1 =
        some { memSizePerThreadInKb := 4, noDefaultSize := true, stride := 8192 } ∧
      ¬∃ layout, MemLat.layout { memSizePerThreadInKb := 4, noDefaultSize := true, stride := 8192 } 1 (2 ^ 21) = some layout ∧
        layout.Sound 8192 1 (2 ^ 21) := by
  refine ⟨rfl, fun ⟨layout, defined, sound⟩ => ?_⟩
  obtain ⟨nonzero, -, values⟩ := MemLat.layout_values (by decide) (by decide) (by decide) defined
  have mine : (layout.myBytes.toNat : Int) = 4096 := values.myBytes
  have each := sound.each
  rw [values.mySegs, MemLat.quotient_positive (by omega) nonzero] at each
  have wide : (8192 : Int32).toInt ≤ layout.myBytes.toNat := each.2
  rw [mine] at wide
  exact absurd wide (by decide)

end Mbench.LatencyRing
