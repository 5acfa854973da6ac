import Mbench.PageFault.Touching
import Mbench.Library.Fairness
import Mathlib.Algebra.Order.BigOperators.Group.Finset

/-! The end of a run: under a fair schedule every thread touches its last page and `main` comes to the end of its joins. -/

namespace Mbench.PageFault
open Library

def Trigger.left (pages : Nat) (trigger : Trigger) : Nat :=
  match trigger.place with
  | .affinity => pages + 2
  | .touching i => pages - i / 4096 + 1
  | .returned => 0

def Main.left (nproc : Nat) : Main → Nat
  | .create i => nproc - i + nproc + 2
  | .join i => nproc - i + 1
  | .returned => 0
  | .aborted => 0

section
variable {nproc base pages : Nat} {pins : Nat → Bool} {process next : Process nproc} {cpu : Fin nproc} {trigger : Trigger}

def Process.triggerLeft (pages : Nat) (process : Process nproc) (cpu : Fin nproc) : Nat :=
  match process.triggers cpu with
  | none => pages + 3
  | some trigger => trigger.left pages

def Process.rank (pages : Nat) (process : Process nproc) : Nat :=
  process.main.left nproc + ∑ cpu, process.triggerLeft pages cpu

/-- While `main` waits for a thread, it is this thread that must go on. -/
def Process.helpful (process : Process nproc) : Actor nproc :=
  match process.main with
  | .join i =>
      if inside : i < nproc then
        if (process.triggers ⟨i, inside⟩).map Trigger.place = some .returned then .main else .trigger ⟨i, inside⟩
      else .main
  | _ => .main

theorem put_left (process : Process nproc) (cpu : Fin nproc) (further : Trigger)
    (less : further.left pages < process.triggerLeft pages cpu) :
    ∑ other, (process.put cpu further).triggerLeft pages other < ∑ other, process.triggerLeft pages other := by
  have own : (process.put cpu further).triggerLeft pages cpu < process.triggerLeft pages cpu := by
    rw [Process.triggerLeft, Process.put_triggers_self]
    exact less
  refine Finset.sum_lt_sum (fun other _ => ?_) ⟨cpu, Finset.mem_univ _, own⟩
  by_cases same : other = cpu
  · rw [same]
    exact own.le
  · rw [Process.triggerLeft, Process.put_triggers_of_ne same, ← Process.triggerLeft]

theorem mainStep_rank (touching : Touching base pages process) (stepped : process.mainStep (4096 * pages) = some next) :
    next.rank pages < process.rank pages := by
  have reached := touching.reached
  unfold Reached at reached
  cases mainStep_moves stepped with
  | @created i here inside =>
    simp only [here] at reached
    have unborn : process.triggers ⟨i, inside⟩ = none := by
      rw [← Option.not_isSome_iff_eq_none, reached.2.2]
      exact Nat.lt_irrefl i
    have less : ∑ cpu, (process.put ⟨i, inside⟩ { ptr := process.cptr, place := .affinity }).triggerLeft pages cpu <
        ∑ cpu, process.triggerLeft pages cpu :=
      put_left process ⟨i, inside⟩ _ (by simp [Process.triggerLeft, unborn, Trigger.left])
    simp only [Process.rank, here, Main.left, Process.triggerLeft] at less ⊢
    omega
  | createdAll here outside =>
    simp only [Process.rank, here, Main.left, Process.triggerLeft]
    omega
  | joined here inside returned =>
    simp only [Process.rank, here, Main.left, Process.triggerLeft]
    omega
  | joinedAll here outside =>
    simp only [Process.rank, here, Main.left, Process.triggerLeft]
    omega

theorem triggerStep_rank (touching : Touching base pages process) (sized : 4096 * pages < 2 ^ 64)
    (here : process.triggers cpu = some trigger) (running : trigger.place ≠ .returned) (pinned : pins cpu = true) :
    ∃ next, process.triggerStep pins (4096 * pages) cpu = some next ∧ next.rank pages < process.rank pages ∧
      next.main = process.main := by
  have progress := touching.progress cpu
  rw [here] at progress
  obtain ⟨count, atMost, _, _, at_⟩ := progress
  have stands : process.triggerLeft pages cpu = trigger.left pages := by rw [Process.triggerLeft, here]
  have lowers (further : Trigger) (touched : List (Fin nproc × Nat)) (less : further.left pages < trigger.left pages) :
      Process.rank pages { process.put cpu further with touched } < process.rank pages :=
    Nat.add_lt_add_left (put_left process cpu further (by rwa [stands])) _
  rw [Process.triggerStep, here, Option.bind_eq_bind, Option.bind_some]
  cases place : trigger.place with
  | affinity =>
    simp only [pinned, if_true]
    exact ⟨_, rfl, lowers _ _ (by simp [Trigger.left, place]), rfl⟩
  | touching i =>
    rw [place, Place.At] at at_
    simp only
    split
    next more =>
      refine ⟨_, rfl, lowers _ _ ?_, rfl⟩
      simp only [Trigger.left, place]
      rw [Nat.mod_eq_of_lt (by omega)]
      omega
    next beyond => exact ⟨_, rfl, lowers _ _ (by simp [Trigger.left, place]), rfl⟩
  | returned => exact absurd place running

theorem helpful_steps (touching : Touching base pages process) (sized : 4096 * pages < 2 ^ 64)
    (pinned : ∀ cpu : Fin nproc, pins cpu) (alive : process.main ≠ .aborted) (short : process.main ≠ .returned) :
    ∃ next, Process.step pins (4096 * pages) process.helpful process = some next ∧ next.rank pages < process.rank pages := by
  have goes (own : process.helpful = .main) (steps : ∃ next, process.mainStep (4096 * pages) = some next) :
      ∃ next, Process.step pins (4096 * pages) process.helpful process = some next ∧ next.rank pages < process.rank pages := by
    obtain ⟨next, stepped⟩ := steps
    exact ⟨next, by rw [own, Process.step, if_neg alive]; exact stepped, mainStep_rank touching stepped⟩
  have reached := touching.reached
  unfold Reached at reached
  cases here : process.main with
  | create i =>
    refine goes (by simp only [Process.helpful, here]) ?_
    simp only [Process.mainStep, here]
    split <;> exact ⟨_, rfl⟩
  | join i =>
    simp only [here] at reached
    by_cases inside : i < nproc
    · obtain ⟨trigger, found⟩ := Option.isSome_iff_exists.mp (reached.1 ⟨i, inside⟩)
      by_cases returned : trigger.place = .returned
      · exact goes (by simp only [Process.helpful, here, dif_pos inside, found, Option.map_some, returned, if_pos])
          ⟨{ process with main := .join (i + 1) }, by
            simp only [Process.mainStep, here, dif_pos inside, found, Option.bind_eq_bind, Option.bind_some, if_pos returned]⟩
      · obtain ⟨next, stepped, lower, _⟩ := triggerStep_rank touching sized found returned (pinned ⟨i, inside⟩)
        have own : process.helpful = .trigger ⟨i, inside⟩ := by
          simp only [Process.helpful, here, dif_pos inside, found, Option.map_some, Option.some.injEq, returned, if_neg,
            not_false_eq_true]
        exact ⟨next, by rw [own, Process.step, if_neg alive]; exact stepped, lower⟩
    · exact goes (by simp only [Process.helpful, here, dif_neg inside])
        ⟨{ process with main := .returned }, by simp only [Process.mainStep, here, dif_neg inside]⟩
  | returned => exact absurd here short
  | aborted => exact absurd here alive

theorem mainStep_alive (stepped : process.mainStep (4096 * pages) = some next) : next.main ≠ .aborted := by
  cases mainStep_moves stepped with
  | created => exact Main.noConfusion
  | createdAll => exact Main.noConfusion
  | joined => exact Main.noConfusion
  | joinedAll => exact Main.noConfusion

theorem step_helps (base : Nat) (sized : 4096 * pages < 2 ^ 64) (mapped : base + nproc * (4096 * pages) ≤ 2 ^ 64)
    (pinned : ∀ cpu : Fin nproc, pins cpu) :
    Helps (Process.step pins (4096 * pages))
      (fun process : Process nproc => Touching base pages process ∧ process.main ≠ .aborted)
      (fun process => process.main = .returned) (Process.rank pages) Process.helpful := by
  have every {actor : Actor nproc} {process next : Process nproc} (touching : Touching base pages process)
      (alive : process.main ≠ .aborted) (stepped : Process.step pins (4096 * pages) actor process = some next) :
      next.rank pages < process.rank pages ∧ next.main ≠ .aborted := by
    unfold Process.step at stepped
    rw [if_neg alive] at stepped
    cases actor with
    | main => exact ⟨mainStep_rank touching stepped, mainStep_alive stepped⟩
    | trigger cpu =>
      obtain ⟨trigger, found, moved⟩ := Option.bind_eq_some_iff.mp stepped
      have running : trigger.place ≠ .returned := by
        intro returned
        simp only [returned] at moved
        cases moved
      change process.triggerStep pins (4096 * pages) cpu = some next at stepped
      obtain ⟨other, taken, lower, same⟩ := triggerStep_rank touching sized found running (pinned cpu)
      rw [stepped] at taken
      cases taken
      exact ⟨lower, same ▸ alive⟩
  exact {
    kept := fun _ _ _ ⟨touching, alive⟩ stepped =>
      ⟨step_touching touching sized mapped stepped, (every touching alive stepped).2⟩
    lowers := fun _ ⟨touching, alive⟩ short => helpful_steps touching sized pinned alive short
    waits := fun _ _ _ ⟨touching, alive⟩ _ stepped => Or.inl (every touching alive stepped).1 }

end

/-- Where every thread can be bound to its CPU, `main` returns under every fair schedule, after all pages of the shares have been
touched once. -/
theorem joins_after_touching (base sz nproc share : Nat) (pins : Nat → Bool) (schedule : Nat → Actor nproc)
    (sized : sz < 2 ^ 64) (based : base < 2 ^ 64) (mapped : base + sz ≤ 2 ^ 64) (shared : shareOf sz nproc = some share)
    (pinned : ∀ cpu : Fin nproc, pins cpu) (fair : Fair schedule) :
    ∃ count process, along (Process.step pins share) schedule (Process.start nproc base) count = process ∧
      process.main = .returned ∧ (process.touched.map Prod.snd).Perm (pagesFrom base (nproc * (share / 4096))) := by
  obtain ⟨pages, rfl, whole, small, fits, _⟩ := shareOf_eq_some shared
  have helps : Helps (Process.step pins (4096 * pages)) _ _ (Process.rank pages) Process.helpful :=
    step_helps base (small.trans_lt sized) (by omega) pinned
  have start : Touching base pages (Process.start nproc base) ∧ (Process.start nproc base).main ≠ .aborted :=
    ⟨start_touching nproc pages based, Main.noConfusion⟩
  obtain ⟨count, returned⟩ := helps.reaches fair start
  rw [whole]
  exact ⟨count, _, rfl, returned, (along_rule helps.kept start count).1.touched_all returned⟩

def turns (nproc : Nat) : Nat → Actor nproc := roundRobin .main ((List.finRange nproc).map .trigger)

theorem turns_fair (nproc : Nat) : Fair (turns nproc) := by
  refine fun actor => roundRobin_returns ?_
  cases actor with
  | main => exact List.mem_cons_self
  | trigger cpu => exact List.mem_cons_of_mem _ (List.mem_map_of_mem (List.mem_finRange cpu))

theorem joins_after_touching_four :
    ∃ count process, along (Process.step (fun _ => true) 8192) (turns 2) (Process.start 2 0x10000) count = process ∧
      process.main = .returned ∧ (process.touched.map Prod.snd).Perm (pagesFrom 0x10000 (2 * (8192 / 4096))) :=
  joins_after_touching 0x10000 20000 2 8192 (fun _ => true) (turns 2) (by decide) (by decide) (by decide) (by decide) (fun _ => rfl)
    (turns_fair 2)

end Mbench.PageFault
