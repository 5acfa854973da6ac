import Mbench.CycleCounting.Counting
import Mbench.Library.Fairness
import Mathlib.Algebra.Order.BigOperators.Group.Finset

/-! The end of a run: once `timeout` is set, a thread finishes the iteration that it is in and no other, and `main` comes to
the end of its joins. -/

namespace Mbench.CycleCounting
open Library

variable {numThreads data : Nat} {testCase : Int} {initial : Heap UInt8} {words : Nat → Nat} {process next : Process numThreads}
  {index : Fin numThreads} {worker further : Worker}

def Place.pending : Place → Nat
  | .add | .store _ => 1
  | .test | .print | .exited => 0

def Place.left : Place → Nat
  | .add => 4
  | .store _ => 3
  | .test => 2
  | .print => 1
  | .exited => 0

def Main.left : Main numThreads → Nat
  | .zero i => 2 * (numThreads - i) + numThreads + 3
  | .create i => 2 * (numThreads - i) + numThreads + 2
  | .sleep => numThreads + 2
  | .join i => numThreads - i + 1
  | .done => 0

namespace Process

def workerLeft (process : Process numThreads) (index : Fin numThreads) : Nat :=
  match process.workers index with
  | none => 0
  | some worker => worker.place.left

def rank (process : Process numThreads) : Nat :=
  process.main.left + if process.timeout then ∑ index, process.workerLeft index else 4 * numThreads

/-- While `main` waits for a thread, it is this thread that must go on. -/
def helpful (process : Process numThreads) : Actor numThreads :=
  match process.main with
  | .join i =>
      if inside : i < numThreads then
        if process.workerLeft ⟨i, inside⟩ = 0 then .main else .counting ⟨i, inside⟩
      else .main
  | _ => .main

end Process

theorem Moves.left (moves : Moves true worker further) : further.place.left < worker.place.left := by
  cases moves with
  | tested here => simp [here, Place.left]
  | loaded value here => simp [here, Place.left]
  | added here => rcases here with add | ⟨value, store⟩ <;> simp [*, Place.left]
  | printed here => simp [here, Place.left]

theorem Moves.pending (moves : Moves true worker further) :
    further.rounds + further.place.pending = worker.rounds + worker.place.pending := by
  cases moves with
  | tested here => simp [here, Place.pending]
  | loaded value here => simp [here, Place.pending]
  | added here => rcases here with add | ⟨value, store⟩ <;> simp [*, Place.pending]
  | printed here => simp [here, Place.pending]

theorem Place.left_le (place : Place) : place.left ≤ 4 := by
  cases place <;> simp [Place.left]

theorem Place.left_eq_zero {place : Place} : place.left = 0 ↔ place = .exited := by
  cases place <;> simp [Place.left]

theorem workersLeft_le (process : Process numThreads) : ∑ index, process.workerLeft index ≤ 4 * numThreads := by
  calc ∑ index, process.workerLeft index ≤ ∑ _index : Fin numThreads, 4 := by
        apply Finset.sum_le_sum
        intro index _
        unfold Process.workerLeft
        split
        next _ => exact Nat.zero_le 4
        next worker _ => exact worker.place.left_le
    _ = 4 * numThreads := by
      rw [Finset.sum_const_nat fun _ _ => rfl, Finset.card_univ, Fintype.card_fin, Nat.mul_comm]

theorem Stepped.workersLeft (stepped : Stepped data initial process index worker next)
    (here : process.workers index = some worker) (expired : process.timeout = true) :
    ∑ index, next.workerLeft index < ∑ index, process.workerLeft index := by
  obtain ⟨further, moves, workers⟩ := stepped.moves
  rw [expired] at moves
  have own : next.workerLeft index < process.workerLeft index := by
    unfold Process.workerLeft
    rw [workers, Function.update_self, here]
    exact moves.left
  apply Finset.sum_lt_sum
  · intro other _
    by_cases same : other = index
    · rw [same]
      exact own.le
    · unfold Process.workerLeft
      rw [workers, Function.update_of_ne same]
  · exact ⟨index, Finset.mem_univ _, own⟩

theorem Stepped.rank (stepped : Stepped data initial process index worker next) (here : process.workers index = some worker)
    (expired : process.timeout = true) : next.rank < process.rank := by
  have fewer := stepped.workersLeft here expired
  unfold Process.rank
  rw [stepped.main, stepped.timeout, expired, if_pos rfl, if_pos rfl]
  omega

theorem mainStep_rank (counted : Counted data initial words process) (stepped : process.mainStep = some next) :
    next.rank < process.rank := by
  have reached := counted.reached
  unfold Reached at reached
  unfold Process.rank
  cases mainStep_moves stepped with
  | zeroed here inside stored =>
    simp only [here, Process.workerLeft, Main.left]
    omega
  | zeroedAll here outside =>
    simp only [here, Process.workerLeft, Main.left]
    omega
  | created here =>
    simp only [here] at reached
    simp only [Process.put, here, reached.1, Main.left, Bool.false_eq_true, if_false]
    omega
  | slept here =>
    simp only [here] at reached
    have most := workersLeft_le process
    simp only [here, reached.1, Main.left, Bool.false_eq_true, if_false, if_true, Process.workerLeft] at most ⊢
    omega
  | joined here inside found exited =>
    simp only [here, Process.workerLeft, Main.left]
    omega
  | joinedAll here outside =>
    simp only [here, Process.workerLeft, Main.left]
    omega

theorem workerLeft_eq_zero (here : process.workers index = some worker) :
    process.workerLeft index = 0 ↔ worker.place = .exited := by
  unfold Process.workerLeft
  rw [here]
  exact Place.left_eq_zero

theorem helpful_steps (counted : Counted data initial words process) (testCase : Int) (short : process.main ≠ .done) :
    ∃ next, Process.step testCase data process.helpful process = some next ∧ next.rank < process.rank := by
  have goes {next : Process numThreads} (own : process.helpful = .main) (stepped : process.mainStep = some next) :
      ∃ next, Process.step testCase data process.helpful process = some next ∧ next.rank < process.rank := by
    rw [own]
    exact ⟨next, stepped, mainStep_rank counted stepped⟩
  have reached := counted.reached
  cases here : process.main with
  | zero i =>
    have own : process.helpful = .main := by simp only [Process.helpful, here]
    by_cases inside : i < numThreads
    · obtain ⟨heap, stored, _⟩ := counted.zero here inside
      exact goes own (by simp only [Process.mainStep, here, dif_pos inside, stored]; rfl)
    · exact goes own (by simp only [Process.mainStep, here, dif_neg inside]; rfl)
  | create i => exact goes (by simp only [Process.helpful, here]) (by simp only [Process.mainStep, here]; rfl)
  | sleep => exact goes (by simp only [Process.helpful, here]) (by simp only [Process.mainStep, here]; rfl)
  | join i =>
    rw [Reached, here] at reached
    obtain ⟨expired, started, _⟩ := reached
    by_cases inside : i < numThreads
    · obtain ⟨worker, found⟩ := Option.isSome_iff_exists.mp (started ⟨i, inside⟩)
      by_cases exited : worker.place = .exited
      · have none_ := (workerLeft_eq_zero found).mpr exited
        exact goes (by simp only [Process.helpful, here, dif_pos inside, if_pos none_])
          (by simp only [Process.mainStep, here, dif_pos inside, found, Option.bind_eq_bind, Option.bind_some, if_pos exited]; rfl)
      · have some_ := mt (workerLeft_eq_zero found).mp exited
        obtain ⟨next, stepped, kept⟩ := counted.countingStep testCase found exited
        have own : process.helpful = .counting ⟨i, inside⟩ := by
          simp only [Process.helpful, here, dif_pos inside, if_neg some_]
        rw [own]
        exact ⟨next, stepped, kept.rank found expired⟩
    · exact goes (by simp only [Process.helpful, here, dif_neg inside])
        (by simp only [Process.mainStep, here, dif_neg inside]; rfl)
  | done => exact absurd here short

theorem step_helps (testCase : Int) (data : Nat) (initial : Heap UInt8) :
    Helps (Process.step testCase data) (fun process : Process numThreads => ∃ words, Counted data initial words process)
      (fun process => process.main = .done) Process.rank Process.helpful where
  kept := fun _ _ _ counted stepped => step_counted counted stepped
  lowers := fun _ ⟨_, counted⟩ short => helpful_steps counted testCase short
  waits := by
    intro actor process next ⟨words, counted⟩ short stepped
    cases actor with
    | main => exact Or.inl (mainStep_rank counted stepped)
    | counting index =>
      obtain ⟨worker, found, _, kept⟩ := counted.countingStep_some stepped
      cases expired : process.timeout with
      | true => exact Or.inl (kept.rank found expired)
      | false =>
        right
        constructor
        · simp only [Process.rank, kept.main, kept.timeout, expired, Bool.false_eq_true, if_false]
        · have reached := counted.reached
          unfold Reached at reached
          unfold Process.helpful
          rw [kept.main]
          cases here : process.main with
          | join i => simp [here, expired] at reached
          | _ => rfl

theorem step_none (counted : Counted data initial words process) (done : process.main = .done) (actor : Actor numThreads) :
    Process.step testCase data actor process = none := by
  have reached := counted.reached
  rw [Reached, done] at reached
  cases actor with
  | main => simp only [Process.step, Process.mainStep, done]
  | counting index =>
    obtain ⟨worker, found, exited⟩ := reached.2 index
    simp only [Process.step, Process.countingStep, found, Option.bind_eq_bind, Option.bind_some, exited]

/-- Under every fair schedule `main` joins all threads and returns; each has then printed its line, and nothing happens any
more. -/
theorem joins_complete (numThreads data : Nat) (atMost : numThreads ≤ maxThreads) (heap : Heap UInt8)
    (declared : Declared heap data) (testCase : Int) (schedule : Nat → Actor numThreads) (fair : Fair schedule) :
    ∃ final : Process numThreads, final.main = .done ∧ (∀ index, Exited final index) ∧
      (final.printed.map Line.id).Perm (List.range numThreads) ∧
      ∃ count, ∀ more, along (Process.step testCase data) schedule (Process.start numThreads data heap) (count + more) = final := by
  have start := start_counted atMost declared
  obtain ⟨count, done⟩ := (step_helps testCase data heap).reaches fair start
  obtain ⟨words, counted⟩ :
      ∃ words, Counted data heap words (along (Process.step testCase data) schedule (Process.start numThreads data heap) count) :=
    along_rule (fun _ _ _ counted stepped => step_counted counted stepped) start count
  have reached := counted.reached
  rw [Reached, done] at reached
  exact ⟨_, done, reached.2, counted.printed_perm done, count, along_stays count (step_none counted done)⟩

def turns (numThreads : Nat) : Nat → Actor numThreads := roundRobin .main ((List.finRange numThreads).map .counting)

theorem turns_fair (numThreads : Nat) : Fair (turns numThreads) := by
  refine fun actor => roundRobin_returns ?_
  cases actor with
  | main => exact List.mem_cons_self
  | counting index => exact List.mem_cons_of_mem _ (List.mem_map_of_mem (List.mem_finRange index))

theorem joins_complete_two :
    ∃ final : Process 2, final.main = .done ∧ (∀ index, Exited final index) ∧
      (final.printed.map Line.id).Perm (List.range 2) ∧
      ∃ count, ∀ more, along (Process.step 1 4096) (turns 2) (Process.start 2 4096 (zeros 4096)) (count + more) = final :=
  joins_complete 2 4096 (by decide) (zeros 4096) (zeros_declared 4096) 1 (turns 2) (turns_fair 2)

theorem countingStep_owed (counted : Counted data initial words process) (expired : process.timeout = true)
    (stepped : Process.countingStep testCase data index process = some next) (other : Fin numThreads)
    (found : process.workers other = some worker) :
    ∃ further, next.workers other = some further ∧
      further.rounds + further.place.pending = worker.rounds + worker.place.pending := by
  obtain ⟨own, here, _, kept⟩ := counted.countingStep_some stepped
  obtain ⟨further, moves, workers⟩ := kept.moves
  rw [expired] at moves
  rw [workers]
  by_cases same : other = index
  · subst same
    rw [here] at found
    cases found
    exact ⟨further, Function.update_self _ _ _, moves.pending⟩
  · exact ⟨worker, by rw [Function.update_of_ne same, found], rfl⟩

theorem mainStep_workers (expired : process.timeout = true) (counted : Counted data initial words process)
    (stepped : process.mainStep = some next) : next.workers = process.workers ∧ next.timeout = true := by
  have reached := counted.reached
  unfold Reached at reached
  cases mainStep_moves stepped with
  | zeroed here => simp [here, expired] at reached
  | zeroedAll here => simp [here, expired] at reached
  | created here => simp [here, expired] at reached
  | slept here => simp [here, expired] at reached
  | joined => exact ⟨rfl, expired⟩
  | joinedAll => exact ⟨rfl, expired⟩

/-- What each thread has added and what it owes, compared with an earlier state. -/
structure Owed (data : Nat) (initial : Heap UInt8) (mid process : Process numThreads) : Prop where
  counted : ∃ words, Counted data initial words process
  expired : process.timeout = true
  worker : ∀ index worker, mid.workers index = some worker → ∃ further, process.workers index = some further ∧
    further.rounds + further.place.pending = worker.rounds + worker.place.pending

theorem step_owed {mid : Process numThreads} {actor : Actor numThreads} (owed : Owed data initial mid process)
    (stepped : Process.step testCase data actor process = some next) : Owed data initial mid next := by
  obtain ⟨words, counted⟩ := owed.counted
  refine ⟨step_counted ⟨words, counted⟩ stepped, ?_, fun index worker found => ?_⟩
  · cases actor with
    | main => exact (mainStep_workers owed.expired counted stepped).2
    | counting index =>
      obtain ⟨_, _, _, kept⟩ := counted.countingStep_some stepped
      exact kept.timeout.trans owed.expired
  · obtain ⟨between, there, same⟩ := owed.worker index worker found
    cases actor with
    | main =>
      rw [(mainStep_workers owed.expired counted stepped).1]
      exact ⟨between, there, same⟩
    | counting other =>
      obtain ⟨further, here, still⟩ := countingStep_owed counted owed.expired stepped index there
      exact ⟨further, here, still.trans same⟩

theorem expired_born (counted : Counted data initial words process) (expired : process.timeout = true)
    (index : Fin numThreads) : (process.workers index).isSome := by
  have reached := counted.reached
  unfold Reached at reached
  cases here : process.main with
  | join i =>
    simp only [here] at reached
    exact reached.2.1 index
  | done =>
    simp only [here] at reached
    obtain ⟨worker, found, _⟩ := reached.2 index
    rw [found]
    rfl
  | _ => simp [here, expired] at reached

def overrun (data : Nat) (index : Fin numThreads) (worker : Worker) : Line :=
  { id := index, cnt := (worker.rounds + worker.place.pending) % 2 ^ 64, p := data + index * l1dClSize }

theorem Owed.lineAt_eq {mid : Process numThreads} (owed : Owed data initial mid process)
    (born : (mid.workers index).isSome) (here : process.workers index = some further) (exited : further.place = .exited) :
    ∃ worker, mid.workers index = some worker ∧ lineAt data index further = overrun data index worker := by
  obtain ⟨worker, found⟩ := Option.isSome_iff_exists.mp born
  obtain ⟨its, there, same⟩ := owed.worker index worker found
  cases here.symm.trans there
  refine ⟨worker, found, ?_⟩
  rw [overrun, ← same, exited]
  rfl

/-- Each line that is printed tells how often its thread had added when `timeout` was set, and one more when it was then
between its test and its store; when `main` returns there is such a line from every thread. -/
theorem printed_after_timeout (numThreads data : Nat) (atMost : numThreads ≤ maxThreads) (heap : Heap UInt8)
    (declared : Declared heap data) (testCase : Int) (before after : List (Actor numThreads)) (mid final : Process numThreads)
    (ran : run (Process.step testCase data) before (Process.start numThreads data heap) = some mid)
    (expired : mid.timeout = true) (ended : run (Process.step testCase data) after mid = some final) :
    (∀ line ∈ final.printed, ∃ index worker, mid.workers index = some worker ∧ line = overrun data index worker) ∧
    (final.main = .done → ∀ index, ∃ worker, mid.workers index = some worker ∧ overrun data index worker ∈ final.printed) := by
  have counted := run_rule (fun process : Process numThreads => ∃ words, Counted data heap words process)
    (fun _ _ _ counted stepped => step_counted counted stepped) (start_counted atMost declared) ran
  have owed : Owed data heap mid final := run_rule (Owed data heap mid) (fun _ _ _ owed stepped => step_owed owed stepped)
    ⟨counted, expired, fun _ worker found => ⟨worker, found, rfl⟩⟩ ended
  obtain ⟨_, first⟩ := counted
  have born := expired_born first expired
  obtain ⟨words, last⟩ := owed.counted
  constructor
  · intro line member
    obtain ⟨index, further, there, exited, rfl⟩ := (last.printed line).mp member
    obtain ⟨worker, found, same⟩ := owed.lineAt_eq (born index) there exited
    exact ⟨index, worker, found, same⟩
  · intro done index
    have reached := last.reached
    rw [Reached, done] at reached
    obtain ⟨further, there, exited⟩ := reached.2 index
    obtain ⟨worker, found, same⟩ := owed.lineAt_eq (born index) there exited
    exact ⟨worker, found, (last.printed _).mpr ⟨index, further, there, exited, same.symm⟩⟩

theorem printed_after_timeout_two :
    ∃ mid final : Process 2,
      run (Process.step 0 4096)
        [.main, .main, .counting 0, .counting 0, .main, .main, .counting 1, .counting 0, .counting 0, .main, .counting 1, .main]
        (Process.start 2 4096 (zeros 4096)) = some mid ∧
      run (Process.step 0 4096) [.counting 0, .counting 1, .counting 0, .counting 0, .counting 0] mid = some final ∧
      final.printed.length = 1 ∧ (∀ line ∈ final.printed, ∃ index worker, mid.workers index = some worker ∧ line = overrun 4096 index worker) ∧
      (final.main = .done → ∀ index, ∃ worker, mid.workers index = some worker ∧ overrun 4096 index worker ∈ final.printed) := by
  have timed : (run (Process.step 0 4096)
      [.main, .main, .counting 0, .counting 0, .main, .main, .counting 1, .counting 0, .counting 0, .main, .counting 1, .main]
      (Process.start 2 4096 (zeros 4096))).map Process.timeout = some true := by decide +kernel
  have printed : (run (Process.step 0 4096)
      ([.main, .main, .counting 0, .counting 0, .main, .main, .counting 1, .counting 0, .counting 0, .main, .counting 1, .main] ++
        [.counting 0, .counting 1, .counting 0, .counting 0, .counting 0])
      (Process.start 2 4096 (zeros 4096))).map (fun final => final.printed.length) = some 1 := by decide +kernel
  obtain ⟨mid, ran, expired⟩ := Option.map_eq_some_iff.mp timed
  rw [run_append, ran, Option.bind_some] at printed
  obtain ⟨final, ended, one⟩ := Option.map_eq_some_iff.mp printed
  exact ⟨mid, final, ran, ended, one,
    printed_after_timeout 2 4096 (by decide) (zeros 4096) (zeros_declared 4096) 0 _ _ mid final ran expired ended⟩

end Mbench.CycleCounting
