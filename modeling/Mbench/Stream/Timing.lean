import Mathlib.Algebra.Order.BigOperators.Group.Finset
import Mathlib.Algebra.Order.Field.Basic
import Mathlib.Algebra.Order.Floor.Ring
import Mathlib.Order.Bounds.Basic
import Mathlib.Order.Interval.Finset.Nat
import Mathlib.Algebra.BigOperators.Intervals
import Mathlib.Algebra.BigOperators.Ring.Finset
import Mathlib.Data.Rat.Floor
import Mathlib.Tactic.Linarith
import Mathlib.Tactic.Ring

/-! The times of `stream_dynamic.c` and `mbm_stream_dynamic.c`, in exact arithmetic: what the clock gives for each kernel and
iteration, and the summary of them that `main` prints. -/

namespace Mbench.Stream

section
variable {E : Type} [LinearOrder E]

def MIN (x y : E) : E := if x < y then x else y

def MAX (x y : E) : E := if x > y then x else y

theorem MIN_eq (x y : E) : MIN x y = min x y := by
  unfold MIN
  split
  next less => exact (min_eq_left less.le).symm
  next notLess => exact (min_eq_right (not_lt.mp notLess)).symm

theorem MAX_eq (x y : E) : MAX x y = max x y := by
  unfold MAX
  split
  next more => exact (max_eq_left more.le).symm
  next notMore => exact (max_eq_right (not_lt.mp notMore)).symm

end

section
variable {E : Type} [Field E] [LinearOrder E]

/-- `times[j][k]`, with the readings of `mysecond` from the first kernel of the first iteration on: each kernel is between two. -/
def times (readings : Nat → E) (j k : Nat) : E := readings (2 * (4 * k + j) + 1) - readings (2 * (4 * k + j))

def fltMax : E := ((2 ^ 24 - 1) * 2 ^ 104 : Nat)

structure Summary (E : Type) where
  avgtime : E
  mintime : E
  maxtime : E

def Summary.add (summary : Summary E) (time : E) : Summary E where
  avgtime := summary.avgtime + time
  mintime := MIN summary.mintime time
  maxtime := MAX summary.maxtime time

/-- The summary over the iterations from `first` on, which is 0 in `stream_dynamic.c` and 1 in `mbm_stream_dynamic.c`. -/
def summarize (first nTimes : Nat) (times : Nat → E) : Summary E :=
  let summary := (List.range' first (nTimes - first)).foldl (fun (summary : Summary E) k => summary.add (times k))
    { avgtime := 0, mintime := fltMax, maxtime := 0 }
  { summary with avgtime := summary.avgtime / (nTimes - first : Nat) }

structure Summary.Of (summary : Summary E) (first nTimes : Nat) (times : Nat → E) : Prop where
  mintime : IsLeast (times '' Set.Ico first nTimes) summary.mintime
  maxtime : IsGreatest (times '' Set.Ico first nTimes) summary.maxtime
  avgtime : (nTimes - first : Nat) * summary.avgtime = ∑ k ∈ Finset.Ico first nTimes, times k

end

section
variable {E : Type} [Field E] [LinearOrder E] [IsStrictOrderedRing E] {first nTimes : Nat} {times_ : Nat → E}
  {readings : Nat → E}

omit [IsStrictOrderedRing E] in
theorem foldl_add_times (some_ : first < nTimes)
    (bounded : ∀ k, first ≤ k → k < nTimes → 0 ≤ times_ k ∧ times_ k ≤ fltMax) :
    ∃ summary : Summary E, (List.range' first (nTimes - first)).foldl (fun (summary : Summary E) k => summary.add (times_ k))
        { avgtime := 0, mintime := fltMax, maxtime := 0 } = summary ∧
      IsLeast (times_ '' Set.Ico first nTimes) summary.mintime ∧ IsGreatest (times_ '' Set.Ico first nTimes) summary.maxtime ∧
      summary.avgtime = ∑ k ∈ Finset.Ico first nTimes, times_ k := by
  induction nTimes, some_ using Nat.le_induction with
  | base =>
    obtain ⟨nonneg, atMost⟩ := bounded first le_rfl (Nat.lt_succ_self first)
    have single : Set.Ico first (first + 1) = {first} := by
      ext k
      simp only [Set.mem_Ico, Set.mem_singleton_iff]
      omega
    rw [Nat.succ_eq_add_one, Nat.add_sub_cancel_left]
    refine ⟨_, rfl, ?_⟩
    simp only [single, Set.image_singleton, List.range'_one, List.foldl_cons, List.foldl_nil, Summary.add, MIN_eq, MAX_eq, zero_add,
      min_eq_right atMost, max_eq_right nonneg, Nat.Ico_succ_singleton, Finset.sum_singleton]
    exact ⟨isLeast_singleton, isGreatest_singleton, trivial⟩
  | succ nTimes some_ ih =>
    obtain ⟨summary, folded, least, greatest, total⟩ := ih fun k low high => bounded k low (by omega)
    have more : times_ '' Set.Ico first (nTimes + 1) = insert (times_ nTimes) (times_ '' Set.Ico first nTimes) := by
      rw [← Set.image_insert_eq]
      congr 1
      ext k
      simp only [Set.mem_Ico, Set.mem_insert_iff]
      omega
    refine ⟨summary.add (times_ nTimes), ?_, ?_⟩
    · rw [show nTimes + 1 - first = nTimes - first + 1 by omega, List.range'_concat, List.foldl_concat, folded]
      rw [Nat.one_mul, show first + (nTimes - first) = nTimes by omega]
    · rw [more, Summary.add, MIN_eq, MAX_eq, min_comm, max_comm, total, Finset.sum_Ico_succ_top (by omega)]
      exact ⟨least.insert _, greatest.insert _, rfl⟩

theorem summarize_of (some_ : first < nTimes)
    (bounded : ∀ k, first ≤ k → k < nTimes → 0 ≤ times_ k ∧ times_ k ≤ fltMax) :
    (summarize first nTimes times_).Of first nTimes times_ := by
  obtain ⟨summary, folded, least, greatest, total⟩ := foldl_add_times some_ bounded
  have count : ((nTimes - first : Nat) : E) ≠ 0 := Nat.cast_ne_zero.mpr (by omega)
  rw [summarize, folded]
  exact ⟨least, greatest, by rw [total, mul_div_cancel₀ _ count]⟩

theorem Summary.Of.between {summary : Summary E} (of : summary.Of first nTimes times_) (some_ : first < nTimes) :
    summary.mintime ≤ summary.avgtime ∧ summary.avgtime ≤ summary.maxtime := by
  have count : (0 : E) < (nTimes - first : Nat) := Nat.cast_pos.mpr (by omega)
  have least := Finset.card_nsmul_le_sum (Finset.Ico first nTimes) times_ summary.mintime fun k member =>
    of.mintime.2 ⟨k, Finset.mem_Ico.mp member, rfl⟩
  have greatest := Finset.sum_le_card_nsmul (Finset.Ico first nTimes) times_ summary.maxtime fun k member =>
    of.maxtime.2 ⟨k, Finset.mem_Ico.mp member, rfl⟩
  rw [Nat.card_Ico, nsmul_eq_mul, ← of.avgtime] at least greatest
  exact ⟨le_of_mul_le_mul_left least count, le_of_mul_le_mul_left greatest count⟩

theorem sum_times_le (forward : Monotone readings) (some_ : first < nTimes) :
    ∑ k ∈ Finset.Ico first nTimes, ∑ j ∈ Finset.range 4, times readings j k ≤
      readings (8 * nTimes - 1) - readings (8 * first) := by
  have round (k : Nat) : ∑ j ∈ Finset.range 4, times readings j k ≤ readings (8 * k + 7) - readings (8 * k) := by
    have one := forward (show 8 * k + 1 ≤ 8 * k + 2 by omega)
    have two := forward (show 8 * k + 3 ≤ 8 * k + 4 by omega)
    have three := forward (show 8 * k + 5 ≤ 8 * k + 6 by omega)
    simp only [Finset.sum_range_succ, Finset.sum_range_zero, times, Nat.mul_add, ← Nat.mul_assoc, Nat.reduceMul, Nat.mul_zero,
      Nat.add_zero, Nat.mul_one, Nat.add_assoc, Nat.reduceAdd]
    linarith
  induction nTimes, some_ using Nat.le_induction with
  | base =>
    rw [Nat.succ_eq_add_one, Nat.Ico_succ_singleton, Finset.sum_singleton]
    exact round first
  | succ nTimes some_ ih =>
    rw [Finset.sum_Ico_succ_top (by omega)]
    have next := round nTimes
    have gap := forward (show 8 * nTimes - 1 ≤ 8 * nTimes by omega)
    rw [show 8 * (nTimes + 1) - 1 = 8 * nTimes + 7 by omega]
    linarith

theorem times_bounded (forward : Monotone readings) (short : readings (8 * nTimes - 1) - readings (8 * first) ≤ fltMax) {j k : Nat}
    (kernel : j < 4) (low : first ≤ k) (high : k < nTimes) : 0 ≤ times readings j k ∧ times readings j k ≤ fltMax := by
  have began := forward (show 8 * first ≤ 2 * (4 * k + j) by omega)
  have passed := forward (show 2 * (4 * k + j) ≤ 2 * (4 * k + j) + 1 by omega)
  have ended := forward (show 2 * (4 * k + j) + 1 ≤ 8 * nTimes - 1 by omega)
  unfold times
  constructor <;> linarith

/-- With a clock that does not go back, the table that `main` prints has for each kernel the least, the greatest and the mean of
its times, and the four means together account for no more than the time that has passed. -/
theorem summary_of_run (readings : Nat → E) (first nTimes : Nat) (forward : Monotone readings) (some_ : first < nTimes)
    (short : readings (8 * nTimes - 1) - readings (8 * first) ≤ fltMax) :
    (∀ j < 4, (summarize first nTimes (times readings j)).Of first nTimes (times readings j) ∧
      (summarize first nTimes (times readings j)).mintime ≤ (summarize first nTimes (times readings j)).avgtime ∧
      (summarize first nTimes (times readings j)).avgtime ≤ (summarize first nTimes (times readings j)).maxtime) ∧
    (nTimes - first : Nat) * ∑ j ∈ Finset.range 4, (summarize first nTimes (times readings j)).avgtime ≤
      readings (8 * nTimes - 1) - readings (8 * first) := by
  have each (j : Nat) (kernel : j < 4) : (summarize first nTimes (times readings j)).Of first nTimes (times readings j) :=
    summarize_of some_ fun k low high => times_bounded forward short kernel low high
  refine ⟨fun j kernel => ⟨each j kernel, (each j kernel).between some_⟩, ?_⟩
  calc (nTimes - first : Nat) * ∑ j ∈ Finset.range 4, (summarize first nTimes (times readings j)).avgtime
      = ∑ j ∈ Finset.range 4, ∑ k ∈ Finset.Ico first nTimes, times readings j k := by
        rw [Finset.mul_sum]
        exact Finset.sum_congr rfl fun j kernel => (each j (Finset.mem_range.mp kernel)).avgtime
    _ = ∑ k ∈ Finset.Ico first nTimes, ∑ j ∈ Finset.range 4, times readings j k := Finset.sum_comm
    _ ≤ readings (8 * nTimes - 1) - readings (8 * first) := sum_times_le forward some_

end

def quickening (i : Nat) : ℚ := (i * i : Nat)

theorem quickening_monotone : Monotone quickening := fun _ _ later => Nat.cast_le.mpr (Nat.mul_le_mul later later)

theorem summary_of_run_ten :
    (∀ j < 4, (summarize 1 10 (times quickening j)).Of 1 10 (times quickening j) ∧
      (summarize 1 10 (times quickening j)).mintime ≤ (summarize 1 10 (times quickening j)).avgtime ∧
      (summarize 1 10 (times quickening j)).avgtime ≤ (summarize 1 10 (times quickening j)).maxtime) ∧
    (10 - 1 : Nat) * ∑ j ∈ Finset.range 4, (summarize 1 10 (times quickening j)).avgtime ≤
      quickening (8 * 10 - 1) - quickening (8 * 1) :=
  summary_of_run quickening 1 10 quickening_monotone (by decide) (by norm_num [fltMax, quickening])

/-! `checktick`. -/

section
variable {E : Type} [Field E] [LinearOrder E] [FloorRing E]

def ticks : Nat := 20

/-- The loop that waits for a microsecond from `t1` on; its result is the number of the reading that ends it. -/
def waitTick (readings : Nat → E) (t1 : E) : Nat → Nat → Option Nat
  | 0, _ => none
  | fuel + 1, next => if readings next - t1 < 1 / (10 ^ 6 : Nat) then waitTick readings t1 fuel (next + 1) else some next

def timesFound (fuel : Nat) (readings : Nat → E) : Nat → Option (List E × Nat)
  | 0 => some ([], 0)
  | i + 1 => do
      let (timesfound, next) ← timesFound fuel readings i
      let last ← waitTick readings (readings next) fuel (next + 1)
      some (timesfound ++ [readings last], last + 1)

def toInt (x : E) : Option Int :=
  let whole := if 0 ≤ x then ⌊x⌋ else ⌈x⌉
  if -2 ^ 31 ≤ whole ∧ whole < 2 ^ 31 then some whole else none

def minDelta (timesfound : List E) (minDelta : Int) (i : Nat) : Option Int := do
  let later ← timesfound[i]?
  let earlier ← timesfound[i - 1]?
  let delta ← toInt ((10 ^ 6 : Nat) * (later - earlier))
  some (MIN minDelta (MAX delta 0))

def checktick (fuel : Nat) (readings : Nat → E) : Option Int := do
  let (timesfound, _) ← timesFound fuel readings ticks
  (List.range' 1 (ticks - 1)).foldlM (minDelta timesfound) 1000000

end

section
variable {E : Type} [Field E] [LinearOrder E] {readings : Nat → E} {t1 : E} {fuel next last : Nat}

theorem waitTick_eq_some (waited : waitTick readings t1 fuel next = some last) :
    next ≤ last ∧ 1 / 10 ^ 6 ≤ readings last - t1 ∧ ∀ j, next ≤ j → j < last → readings j - t1 < 1 / 10 ^ 6 := by
  induction fuel generalizing next with
  | zero => cases waited
  | succ fuel ih =>
    unfold waitTick at waited
    rw [Nat.cast_pow, Nat.cast_ofNat] at waited
    split at waited
    next early =>
      obtain ⟨later, enough, before⟩ := ih waited
      refine ⟨by omega, enough, fun j low high => ?_⟩
      rcases Nat.eq_or_lt_of_le low with here | after
      · rwa [← here]
      · exact before j after high
    next enough =>
      cases waited
      exact ⟨le_rfl, not_lt.mp enough, fun j low high => absurd low (not_le.mpr high)⟩

theorem waitTick_defined (late : 1 / 10 ^ 6 ≤ readings last - t1) (from_ : next ≤ last) (below : last < next + fuel) :
    ∃ found, waitTick readings t1 fuel next = some found := by
  induction fuel generalizing next with
  | zero => omega
  | succ fuel ih =>
    unfold waitTick
    rw [Nat.cast_pow, Nat.cast_ofNat]
    split
    next early =>
      have other : next ≠ last := by
        rintro rfl
        exact absurd early (not_lt.mpr late)
      exact ih (by omega) (by omega)
    next => exact ⟨next, rfl⟩

end

/-- A clock that does not go back, advances by a microsecond in so many readings, and by no more than 1000 seconds in one. -/
structure Runs {E : Type} [Field E] [LinearOrder E] (readings : Nat → E) (pause : Nat) : Prop where
  forward : Monotone readings
  advances : ∀ i, 1 / 10 ^ 6 ≤ readings (i + pause) - readings i
  steady : ∀ i, readings (i + 1) - readings i ≤ 1000

/-- The times that have been found, each of them a microsecond and more behind the one before. -/
structure Ticks {E : Type} [Field E] [LinearOrder E] (readings : Nat → E) (count : Nat) (timesfound : List E) (next : Nat) :
    Prop where
  length : timesfound.length = count
  gap : ∀ i earlier later, timesfound[i]? = some earlier → timesfound[i + 1]? = some later →
    1 / 10 ^ 6 ≤ later - earlier ∧ later - earlier ≤ 2001
  last : ∀ time, timesfound.getLast? = some time → ∃ i, i + 1 = next ∧ time = readings i

section
variable {E : Type} [Field E] [LinearOrder E] [IsStrictOrderedRing E] {readings : Nat → E} {fuel next pause count : Nat}
  {timesfound : List E}

theorem Runs.waits (runs : Runs readings pause) (enough : pause ≤ fuel) (next : Nat) :
    ∃ last, waitTick readings (readings next) fuel (next + 1) = some last ∧ 1 / 10 ^ 6 ≤ readings last - readings next ∧
      readings last - readings next ≤ 1001 := by
  have some_ : pause ≠ 0 := by
    rintro rfl
    have advances := runs.advances next
    rw [Nat.add_zero, sub_self] at advances
    exact absurd advances (by norm_num)
  obtain ⟨last, waited⟩ : ∃ found, waitTick readings (readings next) fuel (next + 1) = some found :=
    waitTick_defined (runs.advances next) (by omega) (by omega)
  obtain ⟨from_, late, early⟩ := waitTick_eq_some waited
  refine ⟨last, waited, late, ?_⟩
  obtain ⟨before, rfl⟩ : ∃ before, last = before + 1 := ⟨last - 1, by omega⟩
  have steady := runs.steady before
  rcases Nat.eq_or_lt_of_le from_ with here | after
  · rw [← Nat.succ.inj here] at steady ⊢
    linarith
  · have short := early before (by omega) (Nat.lt_succ_self before)
    have small : (1 : E) / 10 ^ 6 ≤ 1 := by norm_num
    linarith

theorem Ticks.step (ticks_ : Ticks readings count timesfound next) (runs : Runs readings pause) {last : Nat}
    (late : 1 / 10 ^ 6 ≤ readings last - readings next) (soon : readings last - readings next ≤ 1001) :
    Ticks readings (count + 1) (timesfound ++ [readings last]) (last + 1) where
  length := by rw [List.length_append, ticks_.length, List.length_singleton]
  gap := by
    intro i earlier later first second
    by_cases inside : i + 1 < timesfound.length
    · rw [List.getElem?_append_left (by omega)] at first second
      exact ticks_.gap i earlier later first second
    · have size : i + 1 = timesfound.length := by
        have bound := (List.getElem?_eq_some_iff.mp second).1
        rw [List.length_append, List.length_singleton] at bound
        omega
      rw [List.getElem?_append_left (by omega)] at first
      rw [size, List.getElem?_concat_length] at second
      cases second
      obtain ⟨before, rfl, rfl⟩ := ticks_.last earlier (by rw [List.getLast?_eq_getElem?, ← size]; exact first)
      have forward := runs.forward (Nat.le_succ before)
      have steady := runs.steady before
      constructor <;> linarith
  last := by
    intro time found
    rw [List.getLast?_concat] at found
    exact ⟨last, rfl, (Option.some.inj found).symm⟩

theorem timesFound_ticks (runs : Runs readings pause) (enough : pause ≤ fuel) (count : Nat) :
    ∃ timesfound next, timesFound fuel readings count = some (timesfound, next) ∧ Ticks readings count timesfound next := by
  induction count with
  | zero =>
    refine ⟨[], 0, rfl, rfl, fun i earlier later first _ => ?_, fun time found => ?_⟩
    · cases first
    · cases found
  | succ count ih =>
    obtain ⟨timesfound, next, found, ticks_⟩ := ih
    obtain ⟨last, waited, late, soon⟩ := runs.waits enough next
    refine ⟨timesfound ++ [readings last], last + 1, ?_, ticks_.step runs late soon⟩
    rw [timesFound, found, Option.bind_eq_bind, Option.bind_some]
    simp only [waited, Option.bind_eq_bind, Option.bind_some]

end

section
variable {E : Type} [Field E] [LinearOrder E] [IsStrictOrderedRing E] [FloorRing E] {readings : Nat → E} {next count : Nat}
  {timesfound : List E}

theorem toInt_gap {gap : E} (late : 1 / 10 ^ 6 ≤ gap) (soon : gap ≤ 2001) :
    toInt (10 ^ 6 * gap) = some ⌊10 ^ 6 * gap⌋ ∧ 1 ≤ ⌊10 ^ 6 * gap⌋ := by
  have micro : (1 : E) ≤ 10 ^ 6 * gap := by
    rw [div_le_iff₀ (by norm_num)] at late
    linarith
  have one : 1 ≤ ⌊10 ^ 6 * gap⌋ := Int.le_floor.mpr (by exact_mod_cast micro)
  have most : ⌊10 ^ 6 * gap⌋ < 2 ^ 31 := Int.floor_lt.mpr (by push_cast; linarith)
  refine ⟨?_, one⟩
  have small : -2 ^ 31 ≤ ⌊10 ^ 6 * gap⌋ ∧ ⌊10 ^ 6 * gap⌋ < 2 ^ 31 := ⟨by omega, most⟩
  simp only [toInt, if_pos (show 0 ≤ 10 ^ 6 * gap by linarith), if_pos small]

structure Least (timesfound : List E) (count : Nat) (delta : Int) : Prop where
  positive : 1 ≤ delta
  atMost : delta ≤ 1000000
  below : ∀ i < count, ∀ earlier later, timesfound[i]? = some earlier → timesfound[i + 1]? = some later →
    delta ≤ ⌊10 ^ 6 * (later - earlier)⌋
  found : delta = 1000000 ∨ ∃ i < count, ∃ earlier later, timesfound[i]? = some earlier ∧ timesfound[i + 1]? = some later ∧
    delta = ⌊10 ^ 6 * (later - earlier)⌋

theorem Least.step {delta : Int} (least : Least timesfound count delta) (ticks_ : Ticks readings timesfound.length timesfound next)
    (inside : count + 1 < timesfound.length) :
    ∃ less, minDelta timesfound delta (count + 1) = some less ∧ Least timesfound (count + 1) less := by
  have first : timesfound[count]? = some timesfound[count] := List.getElem?_eq_getElem (by omega)
  have second : timesfound[count + 1]? = some timesfound[count + 1] := List.getElem?_eq_getElem inside
  obtain ⟨late, soon⟩ := ticks_.gap count _ _ first second
  obtain ⟨converted, one⟩ := toInt_gap late soon
  refine ⟨min delta ⌊10 ^ 6 * (timesfound[count + 1] - timesfound[count])⌋, ?_, ?_, ?_,
    fun i low earlier later here there => ?_, ?_⟩
  · simp only [minDelta, second, first, Nat.add_sub_cancel, Nat.cast_pow, Nat.cast_ofNat, converted, Option.bind_eq_bind, Option.bind_some, MIN_eq, MAX_eq,
      max_eq_left (show 0 ≤ ⌊10 ^ 6 * (timesfound[count + 1] - timesfound[count])⌋ by omega)]
  · exact le_min least.positive one
  · exact (min_le_left _ _).trans least.atMost
  · rcases Nat.lt_succ_iff_lt_or_eq.mp low with before | rfl
    · exact (min_le_left _ _).trans (least.below i before earlier later here there)
    · rw [first] at here
      rw [second] at there
      cases here
      cases there
      exact min_le_right _ _
  · rcases min_choice delta ⌊10 ^ 6 * (timesfound[count + 1] - timesfound[count])⌋ with old | new
    · rw [old]
      rcases least.found with all | ⟨i, before, rest⟩
      · exact Or.inl all
      · exact Or.inr ⟨i, Nat.lt_succ_of_lt before, rest⟩
    · exact Or.inr ⟨count, Nat.lt_succ_self count, _, _, first, second, new⟩

theorem foldlM_minDelta (ticks_ : Ticks readings timesfound.length timesfound next) (inside : count < timesfound.length) :
    ∃ delta, (List.range' 1 count).foldlM (minDelta timesfound) 1000000 = some delta ∧ Least timesfound count delta := by
  induction count with
  | zero => exact ⟨1000000, rfl, by decide, le_rfl, fun i low => absurd low (Nat.not_lt_zero i), Or.inl rfl⟩
  | succ count ih =>
    obtain ⟨delta, folded, least⟩ := ih (by omega)
    obtain ⟨less, stepped, after⟩ := least.step ticks_ inside
    refine ⟨less, ?_, after⟩
    rw [List.range'_concat, List.foldlM_append, folded, Nat.one_mul, Nat.add_comm 1 count]
    simp only [Option.bind_eq_bind, Option.bind_some, List.foldlM_cons, List.foldlM_nil, stepped]
    rfl

/-- `checktick` returns, with at least one microsecond and at most a second: in exact arithmetic it never finds the clock to be finer,
and no two times that it has found in a row are closer than what it returns. -/
theorem checktick_returns (readings : Nat → E) (pause fuel : Nat) (runs : Runs readings pause) (enough : pause ≤ fuel) :
    ∃ timesfound next quantum, timesFound fuel readings ticks = some (timesfound, next) ∧ timesfound.length = ticks ∧
      checktick fuel readings = some quantum ∧ 1 ≤ quantum ∧ quantum ≤ 1000000 ∧
      (∀ i < ticks - 1, ∀ earlier later, timesfound[i]? = some earlier → timesfound[i + 1]? = some later →
        (quantum : E) / 10 ^ 6 ≤ later - earlier) ∧
      (quantum = 1000000 ∨ ∃ i < ticks - 1, ∃ earlier later, timesfound[i]? = some earlier ∧
        timesfound[i + 1]? = some later ∧ later - earlier < (quantum + 1 : E) / 10 ^ 6) := by
  obtain ⟨timesfound, next, found, ticks_⟩ := timesFound_ticks runs enough ticks
  have length := ticks_.length
  have all : Ticks readings timesfound.length timesfound next := length ▸ ticks_
  obtain ⟨quantum, folded, least⟩ := foldlM_minDelta all (show ticks - 1 < timesfound.length by rw [length]; decide)
  refine ⟨timesfound, next, quantum, found, length, ?_, least.positive, least.atMost,
    fun i low earlier later here there => ?_, ?_⟩
  · rw [checktick, found, Option.bind_eq_bind, Option.bind_some]
    exact folded
  · have below := Int.le_floor.mp (least.below i low earlier later here there)
    rw [div_le_iff₀ (by norm_num)]
    linarith
  · rcases least.found with cap | ⟨i, low, earlier, later, here, there, same⟩
    · exact Or.inl cap
    · refine Or.inr ⟨i, low, earlier, later, here, there, ?_⟩
      have above := Int.lt_floor_add_one (10 ^ 6 * (later - earlier))
      rw [← same] at above
      rw [lt_div_iff₀ (by norm_num)]
      linarith

end

theorem tenths_runs : Runs (fun i => (i : ℚ) / 10 ^ 7) 10 where
  forward := fun i j later => by
    have order : (i : ℚ) ≤ j := Nat.cast_le.mpr later
    exact div_le_div_of_nonneg_right order (by norm_num)
  advances := fun i => by
    have gap : ((i + 10 : Nat) : ℚ) / 10 ^ 7 - i / 10 ^ 7 = 1 / 10 ^ 6 := by
      push_cast
      ring
    exact gap.ge
  steady := fun i => by
    have gap : ((i + 1 : Nat) : ℚ) / 10 ^ 7 - i / 10 ^ 7 = 1 / 10 ^ 7 := by
      push_cast
      ring
    rw [gap]
    norm_num

theorem checktick_returns_tenths :
    ∃ timesfound next quantum, timesFound 10 (fun i => (i : ℚ) / 10 ^ 7) ticks = some (timesfound, next) ∧
      timesfound.length = ticks ∧ checktick 10 (fun i => (i : ℚ) / 10 ^ 7) = some quantum ∧
      1 ≤ quantum ∧ quantum ≤ 1000000 ∧
      (∀ i < ticks - 1, ∀ earlier later, timesfound[i]? = some earlier → timesfound[i + 1]? = some later →
        (quantum : ℚ) / 10 ^ 6 ≤ later - earlier) ∧
      (quantum = 1000000 ∨ ∃ i < ticks - 1, ∃ earlier later, timesfound[i]? = some earlier ∧
        timesfound[i + 1]? = some later ∧ later - earlier < (quantum + 1 : ℚ) / 10 ^ 6) :=
  checktick_returns (fun i => (i : ℚ) / 10 ^ 7) 10 10 tenths_runs (by decide)

end Mbench.Stream
