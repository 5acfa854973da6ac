import Mbench.Library.Words
import Mbench.Library.Interleaving
import Mathlib.Data.List.Nodup

/-! `cycleCountingLSU.c`: `main` zeroes a counter for each thread and starts it, sleeps, sets `timeout` and joins the threads;
each thread adds to its own counter until it sees `timeout`. A step of the model is one access of `main` or of one thread.
The clock, the binding to cores and the thread identifiers of the system are left out. -/

namespace Mbench.CycleCounting
open Library

def maxThreads : Nat := 1024

def l1dClBitShift : Nat := 7

def l1dClSize : Nat := 2 ^ l1dClBitShift

inductive Place
  | test
  | add
  | store (value : Nat)
  | print
  | exited
  deriving DecidableEq

/-- A thread with its `param`; `rounds`, which the code does not keep, counts its additions. -/
structure Worker where
  param : Nat
  place : Place
  rounds : Nat

structure Line where
  id : Nat
  cnt : Nat
  p : Nat

inductive Main (numThreads : Nat)
  | zero (i : Nat)
  | create (i : Fin numThreads)
  | sleep
  | join (i : Nat)
  | done
  deriving DecidableEq

structure Process (numThreads : Nat) where
  heap : Heap UInt8
  timeout : Bool
  main : Main numThreads
  p : Nat
  workers : Fin numThreads → Option Worker
  printed : List Line

inductive Actor (numThreads : Nat)
  | main
  | counting (index : Fin numThreads)
  deriving DecidableEq

variable {numThreads data : Nat} {testCase : Int} {heap : Heap UInt8} {process next : Process numThreads}

namespace Process

def start (numThreads data : Nat) (heap : Heap UInt8) : Process numThreads where
  heap := heap
  timeout := false
  main := .zero 0
  p := data
  workers := fun _ => none
  printed := []

def put (process : Process numThreads) (index : Fin numThreads) (worker : Worker) : Process numThreads :=
  { process with workers := Function.update process.workers index (some worker) }

/-- One step of `main`. It waits in `pthread_join` for a thread that has not exited. -/
def mainStep (process : Process numThreads) : Option (Process numThreads) :=
  match process.main with
  | .zero i =>
      if inside : i < numThreads then do
        let heap ← process.heap.store64 process.p 0
        some { process with heap, main := .create ⟨i, inside⟩ }
      else some { process with main := .sleep }
  | .create i =>
      let started := process.put i { param := process.p, place := .test, rounds := 0 }
      some { started with p := process.p + l1dClSize, main := .zero (i + 1) }
  | .sleep => some { process with timeout := true, main := .join 0 }
  | .join i =>
      if inside : i < numThreads then do
        let worker ← process.workers ⟨i, inside⟩
        if worker.place = .exited then some { process with main := .join (i + 1) } else none
      else some { process with main := .done }
  | .done => none

def bump (process : Process numThreads) (index : Fin numThreads) (worker : Worker) (value : Nat) :
    Option (Process numThreads) := do
  let heap ← process.heap.store64 worker.param ((value + 1) % 2 ^ 64)
  some { process.put index { worker with place := .test, rounds := worker.rounds + 1 } with heap }

def id (data param : Nat) : Nat := (param - data) / 2 ^ l1dClBitShift

/-- One step of a thread. The additions of the test cases 1 to 3 are atomic, `(*p)++` is a load and a store. -/
def countingStep (testCase : Int) (data : Nat) (index : Fin numThreads) (process : Process numThreads) :
    Option (Process numThreads) := do
  let worker ← process.workers index
  match worker.place with
  | .test => some (process.put index { worker with place := if process.timeout then .print else .add })
  | .add =>
      let value ← process.heap.load64 worker.param
      if testCase = 1 ∨ testCase = 2 ∨ testCase = 3 then process.bump index worker value
      else some (process.put index { worker with place := .store value })
  | .store value => process.bump index worker value
  | .print =>
      let value ← process.heap.load64 worker.param
      let line : Line := { id := id data worker.param, cnt := value, p := worker.param }
      some { process.put index { worker with place := .exited } with printed := process.printed ++ [line] }
  | .exited => none

def step (testCase : Int) (data : Nat) : Actor numThreads → Process numThreads → Option (Process numThreads)
  | .main, process => process.mainStep
  | .counting index, process => process.countingStep testCase data index

end Process

/-- What a step of `main` can have done. -/
inductive MainMoves (process : Process numThreads) : Process numThreads → Prop
  | zeroed {i : Nat} {heap : Heap UInt8} (here : process.main = .zero i) (inside : i < numThreads)
      (stored : process.heap.store64 process.p 0 = some heap) :
      MainMoves process { process with heap, main := .create ⟨i, inside⟩ }
  | zeroedAll {i : Nat} (here : process.main = .zero i) (outside : numThreads ≤ i) :
      MainMoves process { process with main := .sleep }
  | created {i : Fin numThreads} (here : process.main = .create i) :
      MainMoves process { process.put i { param := process.p, place := .test, rounds := 0 } with
        p := process.p + l1dClSize, main := .zero (i + 1) }
  | slept (here : process.main = .sleep) : MainMoves process { process with timeout := true, main := .join 0 }
  | joined {i : Nat} {worker : Worker} (here : process.main = .join i) (inside : i < numThreads)
      (found : process.workers ⟨i, inside⟩ = some worker) (exited : worker.place = .exited) :
      MainMoves process { process with main := .join (i + 1) }
  | joinedAll {i : Nat} (here : process.main = .join i) (outside : numThreads ≤ i) :
      MainMoves process { process with main := .done }

theorem mainStep_moves (stepped : process.mainStep = some next) : MainMoves process next := by
  unfold Process.mainStep at stepped
  cases here : process.main with
  | zero i =>
    simp only [here] at stepped
    split at stepped
    next inside =>
      obtain ⟨heap, stored, moved⟩ := Option.bind_eq_some_iff.mp stepped
      cases moved
      exact .zeroed here inside stored
    next outside =>
      cases stepped
      exact .zeroedAll here (Nat.not_lt.mp outside)
  | create i =>
    simp only [here] at stepped
    cases stepped
    exact .created here
  | sleep =>
    simp only [here] at stepped
    cases stepped
    exact .slept here
  | join i =>
    simp only [here] at stepped
    split at stepped
    next inside =>
      obtain ⟨worker, found, rest⟩ := Option.bind_eq_some_iff.mp stepped
      split at rest
      next exited =>
        cases rest
        exact .joined here inside found exited
      next _ => cases rest
    next outside =>
      cases stepped
      exact .joinedAll here (Nat.not_lt.mp outside)
  | done =>
    simp only [here] at stepped
    cases stepped

def lineAt (data index : Nat) (worker : Worker) : Line :=
  { id := index, cnt := worker.rounds % 2 ^ 64, p := data + index * l1dClSize }

structure Slot (data : Nat) (words : Nat → Nat) (index : Nat) (worker : Worker) : Prop where
  param : worker.param = data + index * l1dClSize
  rounds : words index = worker.rounds % 2 ^ 64
  loaded : ∀ value, worker.place = .store value → value = words index

def Exited (process : Process numThreads) (index : Fin numThreads) : Prop :=
  ∃ worker, process.workers index = some worker ∧ worker.place = .exited

def Reached (data : Nat) (words : Nat → Nat) (process : Process numThreads) : Prop :=
  match process.main with
  | .zero i => process.timeout = false ∧ process.p = data + i * l1dClSize ∧ i ≤ numThreads ∧
      ∀ index, (process.workers index).isSome ↔ index < i
  | .create i => process.timeout = false ∧ process.p = data + i * l1dClSize ∧ words i = 0 ∧
      ∀ index, (process.workers index).isSome ↔ index < i
  | .sleep => process.timeout = false ∧ ∀ index, (process.workers index).isSome
  | .join i => process.timeout = true ∧ (∀ index, (process.workers index).isSome) ∧
      ∀ index : Fin numThreads, index < i → Exited process index
  | .done => process.timeout = true ∧ ∀ index, Exited process index

structure Counted (data : Nat) (initial : Heap UInt8) (words : Nat → Nat) (process : Process numThreads) : Prop where
  row : process.heap.Row data l1dClSize numThreads words
  frame : ∀ cell, Outside cell data (numThreads * l1dClSize) → process.heap cell = initial cell
  slot : ∀ index worker, process.workers index = some worker → Slot data words index worker
  printed : ∀ line, line ∈ process.printed ↔
    ∃ index worker, process.workers index = some worker ∧ worker.place = .exited ∧ line = lineAt data index worker
  once : (process.printed.map Line.id).Nodup
  reached : Reached data words process

variable {initial : Heap UInt8} {words later : Nat → Nat} {index other : Fin numThreads} {worker further : Worker}

namespace Process

@[simp] theorem put_workers_self : (process.put index further).workers index = some further := Function.update_self _ _ _

theorem put_workers_of_ne (different : other ≠ index) : (process.put index further).workers other = process.workers other :=
  Function.update_of_ne different _ _

theorem put_isSome (here : process.workers index = some worker) (other : Fin numThreads) :
    ((process.put index further).workers other).isSome = (process.workers other).isSome := by
  by_cases same : other = index
  · rw [same, put_workers_self, here, Option.isSome_some, Option.isSome_some]
  · rw [put_workers_of_ne same]

end Process

theorem exited_put (here : process.workers index = some worker) (running : worker.place ≠ .exited) :
    Exited (process.put index further) other ↔ Exited process other ∨ other = index ∧ further.place = .exited := by
  by_cases same : other = index
  · subst same
    simp [Exited, here, running]
  · simp [Exited, Process.put_workers_of_ne same, same]

theorem id_slot (data index : Nat) : Process.id data (data + index * l1dClSize) = index := by
  rw [Process.id, Nat.add_sub_cancel_left]
  exact Nat.mul_div_cancel index (by decide)

theorem Reached.kept (reached : Reached data words process) (main : next.main = process.main)
    (timeout : next.timeout = process.timeout) (p : next.p = process.p)
    (same : ∀ index : Fin numThreads, process.workers index = none → later index = words index)
    (started : ∀ index, (next.workers index).isSome = (process.workers index).isSome)
    (exited : ∀ index, Exited process index → Exited next index) : Reached data later next := by
  unfold Reached at reached ⊢
  rw [main, timeout, p]
  cases here : process.main with
  | zero i =>
    simp only [here] at reached ⊢
    simpa only [started] using reached
  | create i =>
    simp only [here] at reached ⊢
    obtain ⟨running, pointer, zero, workers⟩ := reached
    have unborn : process.workers i = none := by
      rw [← Option.not_isSome_iff_eq_none, workers i]
      exact lt_irrefl (i : Nat)
    refine ⟨running, pointer, (same i unborn).trans zero, fun index => ?_⟩
    rw [started]
    exact workers index
  | sleep =>
    simp only [here] at reached ⊢
    simpa only [started] using reached
  | join i =>
    simp only [here] at reached ⊢
    refine ⟨reached.1, fun index => ?_, fun index before => exited index (reached.2.2 index before)⟩
    rw [started]
    exact reached.2.1 index
  | done =>
    simp only [here] at reached ⊢
    exact ⟨reached.1, fun index => exited index (reached.2 index)⟩

theorem Slot.congr {index : Nat} (slot : Slot data words index worker) (same : later index = words index) :
    Slot data later index worker :=
  ⟨slot.param, same.trans slot.rounds, fun value stored => (slot.loaded value stored).trans same.symm⟩

theorem Counted.moved {heap : Heap UInt8} (counted : Counted data initial words process)
    (here : process.workers index = some worker) (running : worker.place ≠ .exited)
    (row : heap.Row data l1dClSize numThreads later)
    (frame : ∀ cell, Outside cell data (numThreads * l1dClSize) → heap cell = process.heap cell)
    (same : ∀ other : Fin numThreads, other ≠ index → later other = words other)
    (slot : Slot data later index further) (on : further.place ≠ .exited) :
    Counted data initial later { process.put index further with heap } where
  row := row
  frame := fun cell outside => (frame cell outside).trans (counted.frame cell outside)
  slot := by
    intro other its found
    by_cases own : other = index
    · subst own
      rw [Process.put_workers_self] at found
      cases found
      exact slot
    · rw [Process.put_workers_of_ne own] at found
      exact (counted.slot other its found).congr (same other own)
  printed := by
    intro line
    rw [show (process.put index further).printed = process.printed from rfl, counted.printed line]
    apply exists_congr
    intro other
    by_cases own : other = index
    · subst own
      simp [here, running, on]
    · rw [Process.put_workers_of_ne own]
  once := counted.once
  reached := by
    refine counted.reached.kept rfl rfl rfl (fun other unborn => same other ?_) (Process.put_isSome here) fun _ exited =>
      (exited_put here running).mpr (Or.inl exited)
    rintro rfl
    rw [here] at unborn
    cases unborn

theorem Counted.put (counted : Counted data initial words process) (here : process.workers index = some worker)
    (running : worker.place ≠ .exited) (slot : Slot data words index further) (on : further.place ≠ .exited) :
    Counted data initial words (process.put index further) :=
  counted.moved here running counted.row (fun _ _ => rfl) (fun _ _ => rfl) slot on

theorem Counted.bump (counted : Counted data initial words process) (here : process.workers index = some worker)
    (running : worker.place ≠ .exited) :
    ∃ next, process.bump index worker (words index) = some next ∧
      Counted data initial (Function.update words index ((words index + 1) % 2 ^ 64)) next := by
  have slot := counted.slot index worker here
  obtain ⟨heap, stored, row, frame⟩ := counted.row.store64 (by decide) index.isLt
    (show (words index + 1) % 2 ^ 64 < 2 ^ 64 from Nat.mod_lt _ (by decide))
  rw [← slot.param] at stored
  refine ⟨_, by rw [Process.bump, stored]; rfl, ?_⟩
  apply counted.moved here running row frame
  · intro other different
    exact Function.update_of_ne (Fin.val_ne_of_ne different) _ _
  · refine ⟨slot.param, ?_, fun value stored => by cases stored⟩
    rw [Function.update_self, slot.rounds, Nat.mod_add_mod]
  · exact Place.noConfusion

theorem Counted.load (counted : Counted data initial words process) (here : process.workers index = some worker) :
    process.heap.load64 worker.param = some (words index) := by
  rw [(counted.slot index worker here).param]
  exact counted.row.word index index.isLt

theorem Counted.print (counted : Counted data initial words process) (here : process.workers index = some worker)
    (last : worker.place = .print) :
    Counted data initial words { process.put index { worker with place := .exited } with
      printed := process.printed ++ [lineAt data index worker] } where
  row := counted.row
  frame := counted.frame
  slot := by
    intro other its found
    have slot := counted.slot index worker here
    by_cases own : other = index
    · subst own
      rw [Process.put_workers_self] at found
      cases found
      exact ⟨slot.param, slot.rounds, fun value stored => by cases stored⟩
    · rw [Process.put_workers_of_ne own] at found
      exact counted.slot other its found
  printed := by
    intro line
    rw [List.mem_append, List.mem_singleton, counted.printed line]
    constructor
    · rintro (⟨other, its, found, exited, rfl⟩ | rfl)
      · refine ⟨other, its, ?_, exited, rfl⟩
        rw [Process.put_workers_of_ne, found]
        rintro rfl
        rw [here] at found
        cases found
        rw [last] at exited
        cases exited
      · exact ⟨index, _, Process.put_workers_self, rfl, rfl⟩
    · rintro ⟨other, its, found, exited, rfl⟩
      by_cases own : other = index
      · subst own
        rw [Process.put_workers_self] at found
        cases found
        exact Or.inr rfl
      · rw [Process.put_workers_of_ne own] at found
        exact Or.inl ⟨other, its, found, exited, rfl⟩
  once := by
    rw [List.map_append, List.map_singleton, List.nodup_append]
    refine ⟨counted.once, List.nodup_singleton _, ?_⟩
    intro id member _ own same
    obtain ⟨line, printed, rfl⟩ := List.mem_map.mp member
    obtain ⟨other, its, found, exited, rfl⟩ := (counted.printed line).mp printed
    rw [List.mem_singleton.mp own] at same
    have equal : other = index := Fin.ext same
    rw [equal, here] at found
    cases found
    rw [last] at exited
    cases exited
  reached := counted.reached.kept rfl rfl rfl (fun _ _ => rfl) (Process.put_isSome here) fun _ exited =>
    (exited_put here (by rw [last]; exact Place.noConfusion)).mpr (Or.inl exited)

inductive Moves (timeout : Bool) (worker : Worker) : Worker → Prop
  | tested (here : worker.place = .test) : Moves timeout worker { worker with place := if timeout then .print else .add }
  | loaded (value : Nat) (here : worker.place = .add) : Moves timeout worker { worker with place := .store value }
  | added (here : worker.place = .add ∨ ∃ value, worker.place = .store value) :
      Moves timeout worker { worker with place := .test, rounds := worker.rounds + 1 }
  | printed (here : worker.place = .print) : Moves timeout worker { worker with place := .exited }

structure Stepped (data : Nat) (initial : Heap UInt8) (process : Process numThreads) (index : Fin numThreads)
    (worker : Worker) (next : Process numThreads) : Prop where
  counted : ∃ words, Counted data initial words next
  main : next.main = process.main
  timeout : next.timeout = process.timeout
  moves : ∃ further, Moves process.timeout worker further ∧ next.workers = Function.update process.workers index (some further)

theorem Counted.bump_stepped (counted : Counted data initial words process) (here : process.workers index = some worker)
    (ready : worker.place = .add ∨ ∃ value, worker.place = .store value) :
    ∃ next, process.bump index worker (words index) = some next ∧ Stepped data initial process index worker next := by
  have running : worker.place ≠ .exited := by
    rcases ready with add | ⟨value, store⟩
    · rw [add]; exact Place.noConfusion
    · rw [store]; exact Place.noConfusion
  obtain ⟨next, bumped, kept⟩ := counted.bump here running
  have result := bumped
  obtain ⟨heap, _, same⟩ := Option.bind_eq_some_iff.mp bumped
  cases same
  exact ⟨_, result, ⟨_, kept⟩, rfl, rfl, _, Moves.added ready, rfl⟩

theorem Counted.countingStep (counted : Counted data initial words process) (testCase : Int)
    (here : process.workers index = some worker) (running : worker.place ≠ .exited) :
    ∃ next, process.countingStep testCase data index = some next ∧ Stepped data initial process index worker next := by
  have slot := counted.slot index worker here
  rw [Process.countingStep, here, Option.bind_eq_bind, Option.bind_some]
  cases place : worker.place with
  | test =>
    refine ⟨_, rfl, ⟨words, counted.put here running ⟨slot.param, slot.rounds, fun value stored => ?_⟩ ?_⟩, rfl, rfl, _,
      Moves.tested place, rfl⟩
    · simp only at stored
      split at stored <;> cases stored
    · simp only
      split <;> exact Place.noConfusion
  | add =>
    simp only [counted.load here, Option.bind_eq_bind, Option.bind_some]
    split
    · exact counted.bump_stepped here (Or.inl place)
    · refine ⟨_, rfl, ⟨words, counted.put here running ⟨slot.param, slot.rounds, fun value stored => ?_⟩ Place.noConfusion⟩,
        rfl, rfl, _, Moves.loaded _ place, rfl⟩
      cases stored
      rfl
  | store value =>
    simp only
    rw [slot.loaded value place]
    exact counted.bump_stepped here (Or.inr ⟨value, place⟩)
  | print =>
    simp only [counted.load here, Option.bind_eq_bind, Option.bind_some]
    refine ⟨_, rfl, ⟨words, ?_⟩, rfl, rfl, _, Moves.printed place, rfl⟩
    have printed := counted.print here place
    rw [lineAt, ← slot.rounds, ← slot.param] at printed
    rw [slot.param, id_slot, ← slot.param]
    exact printed
  | exited => exact absurd place running

theorem Counted.unborn (counted : Counted data initial words process) {i : Nat} (here : process.main = .zero i) :
    ∀ index : Fin numThreads, (process.workers index).isSome ↔ index < i := by
  have reached := counted.reached
  rw [Reached, here] at reached
  exact reached.2.2.2

theorem Counted.zero (counted : Counted data initial words process) {i : Nat} (here : process.main = .zero i)
    (inside : i < numThreads) :
    ∃ heap, process.heap.store64 process.p 0 = some heap ∧
      Counted data initial (Function.update words i 0) { process with heap, main := .create ⟨i, inside⟩ } := by
  have reached := counted.reached
  rw [Reached, here] at reached
  obtain ⟨running, pointer, _, workers⟩ := reached
  obtain ⟨heap, stored, row, frame⟩ := counted.row.store64 (by decide) inside (show 0 < 2 ^ 64 by decide)
  rw [← pointer] at stored
  refine ⟨heap, stored, row, fun cell outside => (frame cell outside).trans (counted.frame cell outside), ?_, counted.printed,
    counted.once, ?_⟩
  · intro index worker found
    have before : (index : Nat) < i := (workers index).mp (Option.isSome_iff_exists.mpr ⟨worker, found⟩)
    exact (counted.slot index worker found).congr (Function.update_of_ne (Nat.ne_of_lt before) _ _)
  · exact ⟨running, pointer, Function.update_self _ _ _, workers⟩

theorem Counted.create (counted : Counted data initial words process) {i : Fin numThreads} (here : process.main = .create i) :
    Counted data initial words { process.put i { param := process.p, place := .test, rounds := 0 } with
      p := process.p + l1dClSize, main := .zero (i + 1) } := by
  have reached := counted.reached
  rw [Reached, here] at reached
  obtain ⟨running, pointer, zero, workers⟩ := reached
  have unborn : process.workers i = none := by
    rw [← Option.not_isSome_iff_eq_none, workers i]
    exact lt_irrefl (i : Nat)
  refine ⟨counted.row, counted.frame, ?_, ?_, counted.once, ?_⟩
  · intro index worker found
    by_cases own : index = i
    · subst own
      rw [Process.put_workers_self] at found
      cases found
      exact ⟨pointer, zero, fun value stored => by cases stored⟩
    · rw [Process.put_workers_of_ne own] at found
      exact counted.slot index worker found
  · intro line
    rw [show (process.put i _).printed = process.printed from rfl, counted.printed line]
    apply exists_congr
    intro index
    by_cases own : index = i
    · subst own
      simp [unborn]
    · rw [Process.put_workers_of_ne own]
  · refine ⟨running, ?_, i.isLt, fun index => ?_⟩
    · simp only
      rw [pointer, Nat.add_mul, Nat.one_mul, Nat.add_assoc]
    · by_cases own : index = i
      · subst own
        simp
      · rw [Process.put_workers_of_ne own, workers index]
        have different : (index : Nat) ≠ i := Fin.val_ne_of_ne own
        omega

theorem Counted.mainStep (counted : Counted data initial words process) (stepped : process.mainStep = some next) :
    ∃ words, Counted data initial words next := by
  have reached := counted.reached
  unfold Reached at reached
  cases mainStep_moves stepped with
  | zeroed here inside stored =>
    obtain ⟨heap, stored', kept⟩ := counted.zero here inside
    cases stored.symm.trans stored'
    exact ⟨_, kept⟩
  | zeroedAll here outside =>
    simp only [here] at reached
    refine ⟨words, counted.row, counted.frame, counted.slot, counted.printed, counted.once, reached.1, fun index => ?_⟩
    exact (reached.2.2.2 index).mpr (by omega)
  | created here => exact ⟨words, counted.create here⟩
  | slept here =>
    simp only [here] at reached
    exact ⟨words, counted.row, counted.frame, counted.slot, counted.printed, counted.once, rfl, reached.2,
      fun index before => absurd before (Nat.not_lt_zero _)⟩
  | joined here inside found exited =>
    simp only [here] at reached
    obtain ⟨expired, started, joined⟩ := reached
    refine ⟨words, counted.row, counted.frame, counted.slot, counted.printed, counted.once, expired, started,
      fun index before => ?_⟩
    rcases Nat.lt_succ_iff_lt_or_eq.mp before with earlier | rfl
    · exact joined index earlier
    · exact ⟨_, found, exited⟩
  | joinedAll here outside =>
    simp only [here] at reached
    exact ⟨words, counted.row, counted.frame, counted.slot, counted.printed, counted.once, reached.1,
      fun index => reached.2.2 index (by omega)⟩

theorem Counted.countingStep_some (counted : Counted data initial words process)
    (stepped : process.countingStep testCase data index = some next) :
    ∃ worker, process.workers index = some worker ∧ worker.place ≠ .exited ∧ Stepped data initial process index worker next := by
  obtain ⟨worker, found, rest⟩ := Option.bind_eq_some_iff.mp stepped
  have running : worker.place ≠ .exited := by
    intro exited
    simp only [exited] at rest
    cases rest
  obtain ⟨other, stepped', kept⟩ := counted.countingStep testCase found running
  rw [stepped] at stepped'
  cases stepped'
  exact ⟨worker, found, running, kept⟩

theorem step_counted {actor : Actor numThreads} (counted : ∃ words, Counted data initial words process)
    (stepped : Process.step testCase data actor process = some next) : ∃ words, Counted data initial words next := by
  obtain ⟨words, counted⟩ := counted
  cases actor with
  | main => exact counted.mainStep stepped
  | counting index =>
    obtain ⟨_, _, _, kept⟩ := counted.countingStep_some stepped
    exact kept.counted

def Declared (heap : Heap UInt8) (data : Nat) : Prop := heap.Allocated data ((maxThreads + 1) * l1dClSize)

theorem start_counted (atMost : numThreads ≤ maxThreads) (declared : Declared heap data) :
    ∃ words, Counted data heap words (Process.start numThreads data heap) := by
  have room : heap.Allocated data (numThreads * l1dClSize) := fun offset small =>
    declared offset (lt_of_lt_of_le small (Nat.mul_le_mul_right _ (Nat.le_succ_of_le atMost)))
  obtain ⟨words, row⟩ := room.row (by decide)
  refine ⟨words, row, fun _ _ => rfl, (fun _ _ found => by cases found), fun line => ?_, List.nodup_nil, rfl, ?_, Nat.zero_le _, ?_⟩
  · simp [Process.start]
  · simp [Process.start]
  · simp [Process.start]

theorem Counted.printed_perm (counted : Counted data initial words process) (done : process.main = .done) :
    (process.printed.map Line.id).Perm (List.range numThreads) := by
  have reached := counted.reached
  rw [Reached, done] at reached
  rw [List.perm_ext_iff_of_nodup counted.once List.nodup_range]
  intro id
  rw [List.mem_map, List.mem_range]
  constructor
  · rintro ⟨line, printed, rfl⟩
    obtain ⟨index, _, _, _, rfl⟩ := (counted.printed line).mp printed
    exact index.isLt
  · intro inside
    obtain ⟨worker, found, exited⟩ := reached.2 ⟨id, inside⟩
    exact ⟨_, (counted.printed _).mpr ⟨⟨id, inside⟩, worker, found, exited, rfl⟩, rfl⟩

def zeros (data : Nat) : Heap UInt8 := fun cell =>
  if (data : Int) ≤ cell ∧ cell < data + ((maxThreads + 1) * l1dClSize : Nat) then some 0 else none

theorem zeros_declared (data : Nat) : Declared (zeros data) data := by
  intro offset small
  unfold zeros
  rw [if_pos ⟨by omega, by omega⟩]
  rfl

end Mbench.CycleCounting
