import Mbench.Library.Buckets
import Mbench.Library.Interleaving
import Mathlib.Data.List.Flatten
import Mathlib.Data.List.Nodup

/-! `pagefault_test.cpp`: `main` divides a mapping into shares of whole pages, starts a thread for each of them, and joins the
threads; each thread writes one byte to every page of its share. A step of the model is one step of `main` or one iteration of
`trigger`. The clocks, the resource usage and the printing are left out. -/

namespace Mbench.PageFault
open Library

/-- `run` of `main`, in bytes; `size_t` divides by zero where there are no threads. -/
def shareOf (sz nproc : Nat) : Option Nat := if nproc = 0 then none else some ((sz / nproc) >>> 12 <<< 12)

inductive Place
  | affinity
  | touching (i : Nat)
  | returned
  deriving DecidableEq

structure Trigger where
  ptr : Nat
  place : Place

/-- Where `main` is. A failed assertion of a thread ends it too. -/
inductive Main
  | create (i : Nat)
  | join (i : Nat)
  | returned
  | aborted
  deriving DecidableEq

/-- `touched` has the stores of the threads in their order. -/
structure Process (nproc : Nat) where
  main : Main
  cptr : Nat
  triggers : Fin nproc → Option Trigger
  touched : List (Fin nproc × Nat)

inductive Actor (nproc : Nat)
  | main
  | trigger (cpu : Fin nproc)
  deriving DecidableEq

section
variable {nproc : Nat}

namespace Process

def start (nproc cptr : Nat) : Process nproc where
  main := .create 0
  cptr := cptr
  triggers := fun _ => none
  touched := []

def put (process : Process nproc) (cpu : Fin nproc) (trigger : Trigger) : Process nproc :=
  { process with triggers := Function.update process.triggers cpu (some trigger) }

/-- One step of `main`. It waits in `join` for a thread that has not returned. -/
def mainStep (share : Nat) (process : Process nproc) : Option (Process nproc) :=
  match process.main with
  | .create i =>
      if inside : i < nproc then
        some { process.put ⟨i, inside⟩ { ptr := process.cptr, place := .affinity } with
          cptr := (process.cptr + share) % 2 ^ 64, main := .create (i + 1) }
      else some { process with main := .join 0 }
  | .join i =>
      if inside : i < nproc then do
        let trigger ← process.triggers ⟨i, inside⟩
        if trigger.place = .returned then some { process with main := .join (i + 1) } else none
      else some { process with main := .returned }
  | .returned => none
  | .aborted => none

def triggerStep (pins : Nat → Bool) (share : Nat) (cpu : Fin nproc) (process : Process nproc) : Option (Process nproc) := do
  let trigger ← process.triggers cpu
  match trigger.place with
  | .affinity =>
      if pins cpu then some (process.put cpu { trigger with place := .touching 0 })
      else some { process with main := .aborted }
  | .touching i =>
      if i < share then
        some { process.put cpu { ptr := (trigger.ptr + 4096) % 2 ^ 64, place := .touching ((i + 4096) % 2 ^ 64) } with
          touched := process.touched ++ [(cpu, trigger.ptr)] }
      else some (process.put cpu { trigger with place := .returned })
  | .returned => none

def step (pins : Nat → Bool) (share : Nat) (actor : Actor nproc) (process : Process nproc) : Option (Process nproc) :=
  if process.main = .aborted then none
  else match actor with
    | .main => process.mainStep share
    | .trigger cpu => process.triggerStep pins share cpu

end Process

end

/-! The invariant. -/

def pagesFrom (first count : Nat) : List Nat := (List.range count).map fun page => first + 4096 * page

def Place.At (pages count : Nat) : Place → Prop
  | .affinity => count = 0
  | .touching i => i = 4096 * count
  | .returned => count = pages

def Progress (first pages : Nat) (touched : List Nat) : Option Trigger → Prop
  | none => touched = []
  | some trigger => ∃ count ≤ pages,
      trigger.ptr = (first + 4096 * count) % 2 ^ 64 ∧ touched = pagesFrom first count ∧ trigger.place.At pages count

section
variable {nproc base pages : Nat} {pins : Nat → Bool} {process next : Process nproc} {cpu other : Fin nproc}
  {trigger : Trigger}

def Process.touchedBy (process : Process nproc) (cpu : Nat) : List Nat :=
  (bucket (fun touch : Fin nproc × Nat => (touch.1 : Nat)) cpu process.touched).map Prod.snd

def Returned (process : Process nproc) (cpu : Fin nproc) : Prop :=
  ∃ trigger, process.triggers cpu = some trigger ∧ trigger.place = .returned

def Reached (base pages : Nat) (process : Process nproc) : Prop :=
  match process.main with
  | .create i => process.cptr = (base + i * (4096 * pages)) % 2 ^ 64 ∧ i ≤ nproc ∧
      ∀ cpu, (process.triggers cpu).isSome ↔ cpu < i
  | .join i => (∀ cpu, (process.triggers cpu).isSome) ∧ ∀ cpu : Fin nproc, cpu < i → Returned process cpu
  | .returned => ∀ cpu, Returned process cpu
  | .aborted => True

structure Touching (base pages : Nat) (process : Process nproc) : Prop where
  progress : ∀ cpu : Fin nproc, Progress (base + cpu * (4096 * pages)) pages (process.touchedBy cpu) (process.triggers cpu)
  reached : Reached base pages process

theorem pagesFrom_succ (first count : Nat) : pagesFrom first (count + 1) = pagesFrom first count ++ [first + 4096 * count] := by
  rw [pagesFrom, List.range_succ, List.map_append]
  rfl

theorem touchedBy_concat (process : Process nproc) (addr : Nat) :
    Process.touchedBy { process with touched := process.touched ++ [(cpu, addr)] } other =
      process.touchedBy other ++ if (other : Nat) = cpu then [addr] else [] := by
  unfold Process.touchedBy
  rw [bucket_concat, List.map_append]
  by_cases same : (cpu : Nat) = other
  · rw [if_pos same, if_pos same.symm]
    rfl
  · rw [if_neg same, if_neg (Ne.symm same)]
    rfl

theorem start_touching (nproc pages : Nat) (mapped : base < 2 ^ 64) : Touching base pages (Process.start nproc base) where
  progress := fun _ => rfl
  reached := by
    refine ⟨?_, Nat.zero_le _, fun cpu => ?_⟩
    · rw [Nat.zero_mul, Nat.add_zero, Nat.mod_eq_of_lt mapped]
      rfl
    · simp [Process.start]

namespace Process

@[simp] theorem put_triggers_self : (process.put cpu trigger).triggers cpu = some trigger := Function.update_self _ _ _

theorem put_triggers_of_ne (different : other ≠ cpu) : (process.put cpu trigger).triggers other = process.triggers other :=
  Function.update_of_ne different _ _

end Process

theorem Reached.kept (reached : Reached base pages process) (main : next.main = process.main) (cptr : next.cptr = process.cptr)
    (started : ∀ cpu, (next.triggers cpu).isSome = (process.triggers cpu).isSome)
    (returned : ∀ cpu, Returned process cpu → Returned next cpu) : Reached base pages next := by
  unfold Reached at reached ⊢
  rw [main, cptr]
  cases here : process.main with
  | create i =>
    simp only [here] at reached ⊢
    simpa only [started] using reached
  | join i =>
    simp only [here] at reached ⊢
    refine ⟨fun cpu => ?_, fun cpu before => returned cpu (reached.2 cpu before)⟩
    rw [started]
    exact reached.1 cpu
  | returned =>
    simp only [here] at reached ⊢
    exact fun cpu => returned cpu (reached cpu)
  | aborted => trivial

theorem Touching.put {further : Trigger} {touched : List (Fin nproc × Nat)} (touching : Touching base pages process)
    (here : process.triggers cpu = some trigger) (running : trigger.place ≠ .returned)
    (own : Progress (base + cpu * (4096 * pages)) pages (Process.touchedBy { process with touched } cpu) (some further))
    (others : ∀ other : Fin nproc, other ≠ cpu → Process.touchedBy { process with touched } other = process.touchedBy other) :
    Touching base pages { process.put cpu further with touched } where
  progress := by
    intro other
    by_cases same : other = cpu
    · subst same
      show Progress _ _ (Process.touchedBy { process with touched } other) ((process.put other further).triggers other)
      rw [Process.put_triggers_self]
      exact own
    · show Progress _ _ (Process.touchedBy { process with touched } other) ((process.put cpu further).triggers other)
      rw [Process.put_triggers_of_ne same, others other same]
      exact touching.progress other
  reached := by
    refine touching.reached.kept rfl rfl (fun other => ?_) fun other ⟨its, found, place⟩ => ⟨its, ?_, place⟩
    · by_cases same : other = cpu
      · subst same
        show ((process.put other further).triggers other).isSome = _
        rw [Process.put_triggers_self, here, Option.isSome_some, Option.isSome_some]
      · show ((process.put cpu further).triggers other).isSome = _
        rw [Process.put_triggers_of_ne same]
    · show (process.put cpu further).triggers other = some its
      rw [Process.put_triggers_of_ne, found]
      rintro rfl
      rw [here] at found
      cases found
      exact running place

theorem triggerStep_touching (touching : Touching base pages process) (sized : 4096 * pages < 2 ^ 64)
    (mapped : base + nproc * (4096 * pages) ≤ 2 ^ 64)
    (stepped : process.triggerStep pins (4096 * pages) cpu = some next) : Touching base pages next := by
  obtain ⟨trigger, here, moved⟩ := Option.bind_eq_some_iff.mp stepped
  have progress := touching.progress cpu
  rw [here] at progress
  obtain ⟨count, atMost, pointer, touched, at_⟩ := progress
  have share : cpu * (4096 * pages) + 4096 * pages ≤ nproc * (4096 * pages) := by
    rw [← Nat.succ_mul]
    exact Nat.mul_le_mul_right _ cpu.isLt
  cases place : trigger.place with
  | affinity =>
    simp only [place] at moved at_
    split at moved
    · cases moved
      exact touching.put here (by rw [place]; exact Place.noConfusion) ⟨count, atMost, pointer, touched, by rw [Place.At, at_]⟩
        fun _ _ => rfl
    · cases moved
      exact ⟨touching.progress, trivial⟩
  | touching i =>
    simp only [place, Place.At] at moved at_
    split at moved
    next more =>
      cases moved
      have addr : trigger.ptr = base + cpu * (4096 * pages) + 4096 * count := by
        rw [pointer, Nat.mod_eq_of_lt (by omega)]
      refine touching.put here (by rw [place]; exact Place.noConfusion) ⟨count + 1, by omega, ?_, ?_, ?_⟩
        fun other different => ?_
      · rw [addr, Nat.mul_succ, Nat.add_assoc]
      · rw [touchedBy_concat, if_pos rfl, touched, pagesFrom_succ, addr]
      · rw [Place.At, at_, Nat.mod_eq_of_lt (by omega)]
        omega
      · rw [touchedBy_concat, if_neg fun same => different (Fin.ext same), List.append_nil]
    next beyond =>
      cases moved
      exact touching.put here (by rw [place]; exact Place.noConfusion)
        ⟨count, atMost, pointer, touched, by rw [Place.At]; omega⟩ fun _ _ => rfl
  | returned =>
    simp only [place] at moved
    cases moved

theorem Touching.create {i : Nat} (touching : Touching base pages process) (here : process.main = .create i)
    (inside : i < nproc) :
    Touching base pages { process.put ⟨i, inside⟩ { ptr := process.cptr, place := .affinity } with
      cptr := (process.cptr + 4096 * pages) % 2 ^ 64, main := .create (i + 1) } := by
  have reached := touching.reached
  simp only [Reached, here] at reached
  obtain ⟨pointer, _, started⟩ := reached
  have unborn : process.triggers ⟨i, inside⟩ = none := by
    rw [← Option.not_isSome_iff_eq_none, started]
    exact Nat.lt_irrefl i
  refine ⟨fun cpu => ?_, ?_, inside, fun cpu => ?_⟩
  · show Progress _ _ (process.touchedBy cpu) ((process.put ⟨i, inside⟩ _).triggers cpu)
    have before := touching.progress cpu
    by_cases same : cpu = ⟨i, inside⟩
    · subst same
      rw [unborn] at before
      rw [Process.put_triggers_self]
      exact ⟨0, Nat.zero_le _, pointer, before, rfl⟩
    · rw [Process.put_triggers_of_ne same]
      exact before
  · rw [pointer, Nat.mod_add_mod, Nat.add_assoc, ← Nat.succ_mul]
  · show ((process.put ⟨i, inside⟩ _).triggers cpu).isSome ↔ cpu < i + 1
    by_cases same : cpu = ⟨i, inside⟩
    · subst same
      simp
    · rw [Process.put_triggers_of_ne same, started]
      have different : (cpu : Nat) ≠ i := fun equal => same (Fin.ext equal)
      omega

theorem Touching.join {i : Nat} (touching : Touching base pages process) (here : process.main = .join i) (inside : i < nproc)
    (returned : Returned process ⟨i, inside⟩) : Touching base pages { process with main := .join (i + 1) } := by
  have reached := touching.reached
  simp only [Reached, here] at reached
  refine ⟨touching.progress, reached.1, fun cpu before => ?_⟩
  rcases Nat.lt_succ_iff_lt_or_eq.mp before with less | same
  · exact reached.2 cpu less
  · rwa [show cpu = ⟨i, inside⟩ from Fin.ext same]

/-- What a step of `main` can have done. -/
inductive MainMoves (pages : Nat) (process : Process nproc) : Process nproc → Prop
  | created {i : Nat} (here : process.main = .create i) (inside : i < nproc) :
      MainMoves pages process { process.put ⟨i, inside⟩ { ptr := process.cptr, place := .affinity } with
        cptr := (process.cptr + 4096 * pages) % 2 ^ 64, main := .create (i + 1) }
  | createdAll {i : Nat} (here : process.main = .create i) (outside : nproc ≤ i) :
      MainMoves pages process { process with main := .join 0 }
  | joined {i : Nat} (here : process.main = .join i) (inside : i < nproc) (returned : Returned process ⟨i, inside⟩) :
      MainMoves pages process { process with main := .join (i + 1) }
  | joinedAll {i : Nat} (here : process.main = .join i) (outside : nproc ≤ i) :
      MainMoves pages process { process with main := .returned }

theorem mainStep_moves (stepped : process.mainStep (4096 * pages) = some next) : MainMoves pages process next := by
  unfold Process.mainStep at stepped
  cases here : process.main with
  | create i =>
    simp only [here] at stepped
    split at stepped
    next inside =>
      cases stepped
      exact .created here inside
    next outside =>
      cases stepped
      exact .createdAll here (Nat.not_lt.mp outside)
  | join i =>
    simp only [here] at stepped
    split at stepped
    next inside =>
      obtain ⟨trigger, found, rest⟩ := Option.bind_eq_some_iff.mp stepped
      split at rest
      next returned =>
        cases rest
        exact .joined here inside ⟨trigger, found, returned⟩
      next _ => cases rest
    next outside =>
      cases stepped
      exact .joinedAll here (Nat.not_lt.mp outside)
  | returned =>
    simp only [here] at stepped
    cases stepped
  | aborted =>
    simp only [here] at stepped
    cases stepped

theorem mainStep_touching (touching : Touching base pages process) (stepped : process.mainStep (4096 * pages) = some next) :
    Touching base pages next := by
  have reached := touching.reached
  unfold Reached at reached
  cases mainStep_moves stepped with
  | created here inside => exact touching.create here inside
  | createdAll here outside =>
    simp only [here] at reached
    exact ⟨touching.progress, fun cpu => (reached.2.2 cpu).mpr (by omega), fun cpu before => absurd before (Nat.not_lt_zero _)⟩
  | joined here inside returned => exact touching.join here inside returned
  | joinedAll here outside =>
    simp only [here] at reached
    exact ⟨touching.progress, fun cpu => reached.2 cpu (by omega)⟩

theorem step_touching {actor : Actor nproc} (touching : Touching base pages process) (sized : 4096 * pages < 2 ^ 64)
    (mapped : base + nproc * (4096 * pages) ≤ 2 ^ 64)
    (stepped : Process.step pins (4096 * pages) actor process = some next) : Touching base pages next := by
  unfold Process.step at stepped
  split at stepped
  · cases stepped
  · cases actor with
    | main => exact mainStep_touching touching stepped
    | trigger cpu => exact triggerStep_touching touching sized mapped stepped

theorem pagesFrom_shares (base nproc pages : Nat) :
    ((List.range nproc).flatMap fun cpu => pagesFrom (base + cpu * (4096 * pages)) pages) = pagesFrom base (nproc * pages) := by
  induction nproc with
  | zero => simp [pagesFrom]
  | succ nproc ih =>
    rw [List.range_succ, List.flatMap_append, ih, List.flatMap_singleton, pagesFrom, pagesFrom, pagesFrom,
      Nat.succ_mul nproc, List.range_add, List.map_append, List.map_map]
    congr 1
    apply List.map_congr_left fun page _ => ?_
    show base + nproc * (4096 * pages) + 4096 * page = base + 4096 * (nproc * pages + page)
    ring

theorem pagesFrom_nodup (first count : Nat) : (pagesFrom first count).Nodup :=
  List.Nodup.map (fun page other same => by simpa using same) List.nodup_range

theorem mem_touchedBy {addr : Nat} : addr ∈ process.touchedBy cpu ↔ (cpu, addr) ∈ process.touched := by
  rw [Process.touchedBy, List.mem_map]
  constructor
  · rintro ⟨⟨its, _⟩, member, rfl⟩
    obtain ⟨member, same⟩ := List.mem_filter.mp member
    rwa [← Fin.ext (of_decide_eq_true same)]
  · intro member
    exact ⟨(cpu, addr), List.mem_filter.mpr ⟨member, decide_eq_true rfl⟩, rfl⟩

theorem touched_perm (process : Process nproc) :
    (process.touched.map Prod.snd).Perm ((List.range nproc).flatMap process.touchedBy) := by
  have shares := (bucketSort_perm fun touch (_ : touch ∈ process.touched) => touch.1.isLt).map Prod.snd
  rw [bucketSort, List.map_flatMap] at shares
  exact shares.symm

theorem Progress.sublist {first : Nat} {touched : List Nat} {trigger : Option Trigger}
    (progress : Progress first pages touched trigger) : touched.Sublist (pagesFrom first pages) := by
  cases trigger with
  | none =>
    rw [show touched = [] from progress]
    exact List.nil_sublist _
  | some trigger =>
    obtain ⟨count, atMost, _, same, _⟩ := progress
    rw [same]
    exact (List.range_sublist.mpr atMost).map _

theorem Touching.mem_share {addr : Nat} (touching : Touching base pages process) (member : (cpu, addr) ∈ process.touched) :
    ∃ page < pages, addr = base + cpu * (4096 * pages) + 4096 * page := by
  have own := (touching.progress cpu).sublist.mem (mem_touchedBy.mpr member)
  obtain ⟨page, inside, same⟩ := List.mem_map.mp own
  exact ⟨page, List.mem_range.mp inside, same.symm⟩

theorem Touching.sublist (touching : Touching base pages process) :
    ((List.range nproc).flatMap process.touchedBy).Sublist (pagesFrom base (nproc * pages)) := by
  rw [← pagesFrom_shares]
  exact List.Sublist.flatMap_right _ fun cpu member =>
    (touching.progress ⟨cpu, List.mem_range.mp member⟩).sublist

theorem Touching.touched_all (touching : Touching base pages process) (returned : process.main = .returned) :
    (process.touched.map Prod.snd).Perm (pagesFrom base (nproc * pages)) := by
  have reached := touching.reached
  simp only [Reached, returned] at reached
  refine (touched_perm process).trans (List.Perm.of_eq ?_)
  rw [← pagesFrom_shares]
  refine List.flatMap_congr fun cpu member => ?_
  obtain ⟨trigger, found, place⟩ := reached ⟨cpu, List.mem_range.mp member⟩
  have progress := touching.progress ⟨cpu, List.mem_range.mp member⟩
  rw [found] at progress
  obtain ⟨count, _, _, touched, at_⟩ := progress
  rw [place, Place.At] at at_
  rw [touched, at_]

end

theorem shareOf_eq_some {sz nproc share : Nat} (shared : shareOf sz nproc = some share) :
    ∃ pages, share = 4096 * pages ∧ share / 4096 = pages ∧ share ≤ sz ∧ nproc * share ≤ sz ∧
      sz < nproc * (share + 4096) := by
  unfold shareOf at shared
  split at shared
  next _ => cases shared
  next some_ =>
    cases shared
    have whole : (sz / nproc) >>> 12 <<< 12 = 4096 * (sz / nproc / 4096) := by
      rw [Nat.shiftLeft_eq, Nat.shiftRight_eq_div_pow, Nat.mul_comm]
    have atMost : 4096 * (sz / nproc / 4096) ≤ sz / nproc := Nat.mul_div_le _ _
    rw [whole]
    refine ⟨sz / nproc / 4096, rfl, Nat.mul_div_cancel_left _ (by decide), atMost.trans (Nat.div_le_self _ _), ?_, ?_⟩
    · calc nproc * (4096 * (sz / nproc / 4096)) ≤ nproc * (sz / nproc) := Nat.mul_le_mul_left _ atMost
        _ ≤ sz := Nat.mul_div_le _ _
    · calc sz < nproc * (sz / nproc + 1) := Nat.lt_mul_div_succ _ (Nat.pos_of_ne_zero some_)
        _ ≤ nproc * (4096 * (sz / nproc / 4096) + 4096) := Nat.mul_le_mul_left _ (by omega)

/-- `main`, with any interleaving of the threads, and whichever CPUs they can be bound to: at every moment each page of the first
`nproc * run` bytes has been touched at most once, by the thread of its share, and nothing else; when `main` returns, all of them have
been touched. -/
theorem pages_touched_once (base sz nproc share : Nat) (pins : Nat → Bool) (schedule : List (Actor nproc))
    (process : Process nproc) (sized : sz < 2 ^ 64) (based : base < 2 ^ 64) (mapped : base + sz ≤ 2 ^ 64)
    (shared : shareOf sz nproc = some share)
    (ran : run (Process.step pins share) schedule (Process.start nproc base) = some process) :
    (process.touched.map Prod.snd).Nodup ∧
      (∀ cpu addr, (cpu, addr) ∈ process.touched → ∃ page < share / 4096, addr = base + cpu * share + 4096 * page) ∧
      (∀ addr ∈ process.touched.map Prod.snd, ∃ page < nproc * (share / 4096), addr = base + 4096 * page) ∧
      (process.main = .returned → (process.touched.map Prod.snd).Perm (pagesFrom base (nproc * (share / 4096)))) ∧
      base + nproc * share ≤ base + sz ∧ sz < nproc * (share + 4096) := by
  obtain ⟨pages, rfl, count, small, fits, left⟩ := shareOf_eq_some shared
  rw [count]
  have touching := run_rule (Touching base pages)
    (fun _ _ _ touching stepped => step_touching touching (small.trans_lt sized) (by omega) stepped)
    (start_touching nproc pages based) ran
  have perm := touched_perm process
  refine ⟨perm.nodup_iff.mpr (touching.sublist.nodup (pagesFrom_nodup _ _)), fun cpu addr => touching.mem_share,
    fun addr member => ?_, touching.touched_all, Nat.add_le_add_left fits _, left⟩
  obtain ⟨page, inside, same⟩ := List.mem_map.mp (touching.sublist.mem (perm.mem_iff.mp member))
  exact ⟨page, List.mem_range.mp inside, same.symm⟩

theorem pages_touched_once_four :
    ∃ process : Process 2,
      run (Process.step (fun _ => true) 8192)
        [.main, .trigger 0, .main, .trigger 1, .trigger 0, .trigger 1, .main, .trigger 1, .trigger 0, .trigger 1, .trigger 0, .main,
          .main, .main] (Process.start 2 0x10000) = some process ∧ process.main = .returned ∧
      (process.touched.map Prod.snd).Nodup ∧
      (∀ cpu addr, (cpu, addr) ∈ process.touched → ∃ page < 8192 / 4096, addr = 0x10000 + cpu * 8192 + 4096 * page) ∧
      (∀ addr ∈ process.touched.map Prod.snd, ∃ page < 2 * (8192 / 4096), addr = 0x10000 + 4096 * page) ∧
      (process.main = .returned → (process.touched.map Prod.snd).Perm (pagesFrom 0x10000 (2 * (8192 / 4096)))) ∧
      0x10000 + 2 * 8192 ≤ 0x10000 + 20000 ∧ 20000 < 2 * (8192 + 4096) := by
  have ended : (run (Process.step (fun _ => true) 8192)
      [.main, .trigger 0, .main, .trigger 1, .trigger 0, .trigger 1, .main, .trigger 1, .trigger 0, .trigger 1, .trigger 0, .main,
        .main, .main] (Process.start 2 0x10000)).map Process.main = some .returned := by decide +kernel
  obtain ⟨process, ran, returned⟩ := Option.map_eq_some_iff.mp ended
  exact ⟨process, ran, returned, pages_touched_once 0x10000 20000 2 8192 (fun _ => true) _ process (by decide) (by decide)
    (by decide) (by decide) ran⟩

end Mbench.PageFault
