import Mbench.LatencyRing.MemLatRun
import Mbench.LatencyRing.Progress
import Mbench.Library.Fairness

/-! How `main` of `mem_lat.c` comes to its end. A setup is over once each segment has been drawn twice, so draws that go on to
select each of them are enough. -/

namespace Mbench.LatencyRing
open Library

theorem exec_setupThread_none {aboveRatio : Nat → Nat → Bool} {addr size segSize myidx : Nat} {draws : List UInt64}
    {shared later : Shared}
    (ran : exec Access.perform (setupThread aboveRatio addr size segSize myidx draws) shared = some (none, later)) :
    ∃ setup, drawLoop addr segSize (size / segSize) 0 (MemLat.giveUp aboveRatio size (size / segSize))
      (startSetup shared.heap addr) draws = some (.waiting setup) := by
  unfold setupThread at ran
  dsimp only at ran
  rw [exec_bind, exec_drawThread] at ran
  change Option.bind (Option.map _ (drawLoop addr segSize (size / segSize) 0 _ (startSetup shared.heap addr) draws)) _ = _ at ran
  cases outcome : drawLoop addr segSize (size / segSize) 0 (MemLat.giveUp aboveRatio size (size / segSize))
      (startSetup shared.heap addr) draws with
  | none =>
    rw [outcome] at ran
    cases ran
  | some outcome_ =>
    rw [outcome] at ran
    cases outcome_ with
    | waiting setup => exact ⟨setup, rfl⟩
    | left setup early unread =>
      simp only [Option.map_some, Option.bind_some, Outcome.halt, Outcome.setup] at ran
      rw [exec_bind] at ran
      obtain ⟨closed, _, ended⟩ := Option.bind_eq_some_iff.mp ran
      cases ended

namespace MemLat.Sizes

variable {sizes : MemLat.Sizes} {aboveRatio : Nat → Nat → Bool} {initial : Heap UInt8}
  {machine : Machine MemLat.Stage MainAccess Nat (Option Nat) Shared} {all : List MemLat.Stage}

def Drawn (sizes : MemLat.Sizes) : MemLat.Stage → Prop
  | .setup team part draws => ∀ idx < team, DrawnTwice (part / sizes.stride) (draws idx)
  | _ => True

/-- A run that stands still has come to its end. -/
def Ended (sizes : MemLat.Sizes) (aboveRatio : Nat → Nat → Bool)
    (machine : Machine MemLat.Stage MainAccess Nat (Option Nat) Shared) : Prop :=
  machine.rest = [] ∧ ∀ idx < (sizes.forks aboveRatio).team machine.stage, ∃ value, machine.threads.remaining idx = .done (some value)

theorem kept_draws (wide : 16 ≤ sizes.stride) (nonnull : 0 < sizes.ptr) (fits : sizes.ptr + sizes.nBytes ≤ 2 ^ 64)
    (kept : (sizes.contract aboveRatio initial).Kept all machine) (fitting : ∀ stage ∈ all, sizes.Fitting stage)
    (drawn : ∀ stage ∈ all, sizes.Drawn stage) {team part : Nat} {draws : Nat → List UInt64} {idx : Nat}
    (setting : machine.stage = .setup team part draws) (inside : idx < team) : machine.threads.remaining idx ≠ .done none := by
  intro done
  have fits_ := fitting _ kept.mem
  have twice := drawn _ kept.mem
  obtain ⟨_, state, before, holds⟩ := kept
  rw [setting] at fits_ twice before holds
  obtain ⟨rows, fitsOne, room⟩ := fits_
  obtain ⟨_, past, held⟩ := id holds
  obtain ⟨alone, ran, _⟩ := (held idx).result done
  have program : ((sizes.forks aboveRatio).forked (.setup team part draws) state).remaining idx =
      (setupThread aboveRatio (sizes.ptr + idx * part) part sizes.stride idx (draws idx)).lift .word := if_pos inside
  rw [program, exec_lift perform_word] at ran
  obtain ⟨setup, waits⟩ := exec_setupThread_none ran
  have bound : idx * part + part ≤ team * part := Heap.slot_bounds inside
  have whole : part / sizes.stride * sizes.stride ≤ part := Nat.div_mul_le_self part sizes.stride
  have area : Area (sizes.ptr + idx * part) sizes.stride (part / sizes.stride) 0 :=
    area_zero (by omega) ((Nat.one_le_div_iff (by omega)).mpr fitsOne) (by omega)
  have zeroed := holds_part room before.2 inside whole
  exact drawLoop_leaves area (Heap.row_of_zeros area.wide zeroed) (by rw [place_zero]; omega) (twice idx inside) waits

theorem stages_drawn (simple parallel modify : Nat → List UInt64) (simple_ : DrawnTwice (sizes.nBytes / sizes.stride) (simple 0))
    (parallel_ : ∀ idx < sizes.ompNumThreads, DrawnTwice (sizes.size / sizes.stride) (parallel idx))
    (modify_ : DrawnTwice (sizes.nBytes / sizes.stride) (modify 0)) :
    ∀ stage ∈ sizes.stages simple parallel modify, sizes.Drawn stage := by
  intro stage member
  cases stage with
  | clear => trivial
  | measure walk team own count part => trivial
  | setup team part draws =>
    simp only [stages, later, simpleTest, parallelTest, modifyRead, List.cons_append, List.nil_append, List.mem_cons,
      List.not_mem_nil, or_false, false_or, reduceCtorEq, MemLat.Stage.setup.injEq] at member
    rcases member with ⟨rfl, rfl, rfl⟩ | ⟨rfl, rfl, rfl⟩ | ⟨rfl, rfl, rfl⟩
    · exact fun idx one => Nat.lt_one_iff.mp one ▸ simple_
    · exact parallel_
    · exact fun idx one => Nat.lt_one_iff.mp one ▸ modify_

theorem last_stage {simple parallel modify : Nat → List UInt64} {stage : MemLat.Stage}
    (last : [stage] <:+ sizes.stages simple parallel modify) : stage = .measure .fill 1 false 1 sizes.nBytes := by
  obtain ⟨before, whole⟩ := last
  have ends := congrArg List.getLast? whole
  simp only [stages, later, simpleTest, parallelTest, modifyRead, List.cons_append, List.nil_append, List.getLast?_append,
    List.getLast?_cons_cons, List.getLast?_singleton, Option.some_or, Option.some.injEq] at ends
  exact ends

/-- Under every schedule in which the joins and the threads have their turns again and again, `main` comes to the end of its last
measurement, and stays there. -/
theorem main_ends (aboveRatio : Nat → Nat → Bool) (sizes : MemLat.Sizes) (wide : 16 ≤ sizes.stride)
    (fitsOne : sizes.stride ≤ sizes.size) (some_ : 1 ≤ sizes.ompNumThreads) (threads : sizes.ompNumThreads ≤ 256)
    (nonnull : 0 < sizes.ptr) (fits : sizes.ptr + sizes.nBytes ≤ 2 ^ 64) (shared : Shared)
    (allocated : shared.heap.Allocated sizes.ptr sizes.nBytes) (simple parallel modify : Nat → List UInt64)
    (simple_ : DrawnTwice (sizes.nBytes / sizes.stride) (simple 0))
    (parallel_ : ∀ idx < sizes.ompNumThreads, DrawnTwice (sizes.size / sizes.stride) (parallel idx))
    (modify_ : DrawnTwice (sizes.nBytes / sizes.stride) (modify 0)) (schedule : Nat → Option Nat)
    (fair : ∀ actor, (sizes.forks aboveRatio).Acts (sizes.stages simple parallel modify) actor →
      ∀ count, ∃ later, count ≤ later ∧ schedule later = actor) :
    ∃ count machine, along ((sizes.forks aboveRatio).step MainAccess.perform) schedule
        ((sizes.forks aboveRatio).start .clear (sizes.later simple parallel modify) shared) count = machine ∧
      machine.stage = .measure .fill 1 false 1 sizes.nBytes ∧ sizes.Ended aboveRatio machine ∧
      sizes.Measured aboveRatio shared.heap machine ∧
      ∀ more, along ((sizes.forks aboveRatio).step MainAccess.perform) schedule
        ((sizes.forks aboveRatio).start .clear (sizes.later simple parallel modify) shared) (count + more) = machine := by
  have fitting := sizes.stages_fitting fitsOne some_ threads simple parallel modify
  have drawn := stages_drawn simple parallel modify simple_ parallel_ modify_
  have sounds : ∀ stage ∈ sizes.stages simple parallel modify, (sizes.contract aboveRatio shared.heap).Sound
      (sizes.forks aboveRatio) MainAccess.perform stage := stages_sound wide fits fitting
  have kept : ∀ actor machine next, (sizes.contract aboveRatio shared.heap).Kept (sizes.stages simple parallel modify) machine →
      (sizes.forks aboveRatio).step MainAccess.perform actor machine = some next →
      (sizes.contract aboveRatio shared.heap).Kept (sizes.stages simple parallel modify) next := fun _ _ _ kept stepped =>
    kept.step sounds (stages_follow wide fits fitting (sizes.stages_chain simple parallel modify)) stepped
  have start : (sizes.contract aboveRatio shared.heap).Kept (sizes.stages simple parallel modify)
      ((sizes.forks aboveRatio).start .clear (sizes.later simple parallel modify) shared) :=
    Contract.Kept.start sounds rfl ⟨⟨fun _ _ => rfl, allocated⟩, trivial⟩
  obtain ⟨count, ended⟩ := fair_reaches (Forks.step_wellFounded _) kept (fun machine kept short => by
    rcases kept_advances fitting sounds kept with ⟨actor, next, stepped⟩ | ended | ⟨team, part, draws, idx, setting, inside, waits⟩
    · exact ⟨actor, Forks.acts_of_step kept.mem stepped, next, stepped⟩
    · exact absurd ended short
    · exact absurd waits (kept_draws wide nonnull fits kept fitting drawn setting inside)) fair start
  have here : (sizes.contract aboveRatio shared.heap).Kept (sizes.stages simple parallel modify)
      (along ((sizes.forks aboveRatio).step MainAccess.perform) schedule _ count) := along_rule kept start count
  have suffix := here.1
  rw [ended.1] at suffix
  refine ⟨count, _, rfl, last_stage suffix, ended, kept_measured wide fits fitting here, along_stays count ?_⟩
  refine Forks.step_none ended.1 fun idx inside => ?_
  obtain ⟨value, done⟩ := ended.2 idx inside
  exact ⟨some value, done⟩

def fourTwice : Nat → List UInt64 := fun _ => [0, 2, 3, 1, 0, 2, 3, 1]

def twoTwice : Nat → List UInt64 := fun _ => [1, 0, 1, 0]

def inTurn : Nat → Option Nat := roundRobin none [some 0, some 1]

theorem inTurn_returns (actor : Option Nat)
    (acts : (twoSegments.forks fun _ _ => false).Acts (twoSegments.stages fourTwice twoTwice fourTwice) actor) :
    ∀ count, ∃ later, count ≤ later ∧ inTurn later = actor := by
  cases actor with
  | none => exact roundRobin_returns List.mem_cons_self
  | some idx =>
    obtain ⟨stage, member, inside⟩ := acts
    have two : ∀ stage ∈ twoSegments.stages fourTwice twoTwice fourTwice, (twoSegments.forks fun _ _ => false).team stage ≤ 2 := by
      simp [stages, later, simpleTest, parallelTest, modifyRead, forks, twoSegments]
    have bound := two stage member
    apply roundRobin_returns
    simp only [List.mem_cons, Option.some.injEq, reduceCtorEq, List.not_mem_nil, or_false, false_or]
    omega

theorem main_ends_four :
    ∃ count machine, along ((twoSegments.forks fun _ _ => false).step MainAccess.perform) inTurn
        ((twoSegments.forks fun _ _ => false).start .clear (twoSegments.later fourTwice twoTwice fourTwice) uncleared) count =
          machine ∧
      machine.stage = .measure .fill 1 false 1 twoSegments.nBytes ∧ twoSegments.Ended (fun _ _ => false) machine ∧
      twoSegments.Measured (fun _ _ => false) uncleared.heap machine ∧
      ∀ more, along ((twoSegments.forks fun _ _ => false).step MainAccess.perform) inTurn
        ((twoSegments.forks fun _ _ => false).start .clear (twoSegments.later fourTwice twoTwice fourTwice) uncleared)
        (count + more) = machine :=
  main_ends (fun _ _ => false) twoSegments (by decide) (by decide) (by decide) (by decide) (by decide) (by decide) uncleared
    Heap.holds_splice_self.allocated fourTwice twoTwice fourTwice (by unfold DrawnTwice; decide)
    (by unfold DrawnTwice; decide) (by unfold DrawnTwice; decide) inTurn inTurn_returns

end MemLat.Sizes

end Mbench.LatencyRing
