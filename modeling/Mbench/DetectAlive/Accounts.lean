import Mbench.DetectAlive.Worker

/-! What a run of `worker` has done so far, told from the outcomes of its system calls. -/

namespace Mbench.DetectAlive
open Library

def Worker.InPhase (worker : Worker) : Phase → Prop
  | .starting i => worker.nconn ≤ i ∧ i ≤ maxConnOne ∧ worker.nclose = 0
  | .closing fds => fds.Nodup ∧ ∀ fd ∈ fds, fd ∈ worker.registered
  | _ => True

/-- The invariant of `worker`: its counters and its calls of `connect` are those of its calls
of `do_connect`, and the watched descriptors are the successful ones not closed yet. -/
structure Accounts (events : List Event) (worker : Worker) : Prop where
  ipv4addr : worker.ipv4addr = firstIpAddr + (attempts events).length
  nconn : worker.nconn = (attempts events).countP fun attempt => Succeeds attempt
  connects : worker.connects = (attempts events).filterMap contacted
  watched : worker.registered ⊆ worker.opened
  leaked : worker.opened.card = worker.registered.card + (attempts events).countP fun attempt => Leaks attempt
  settled : worker.registered.card + worker.nclose = worker.nconn
  window : worker.nconn ≤ worker.nclose + maxConnOne
  atMost : worker.nconn ≤ totalN
  inPhase : worker.InPhase worker.phase

variable {events : List Event} {event : Event} {worker next : Worker} {calls : Calls} {phase : Phase}

theorem attempts_silent (silent : event.calls = []) : attempts (events ++ [event]) = attempts events := by
  simp [attempts, silent]

theorem attempts_connect (events : List Event) (calls : Calls) :
    attempts (events ++ [.connect calls]) = attempts events ++ [(calls, firstIpAddr + (attempts events).length)] := by
  unfold attempts
  rw [List.flatMap_append, List.zipIdx_append, List.length_zipIdx]
  rfl

theorem countP_attempts (events : List Event) (calls : Calls) (property : Calls × Nat → Prop) [DecidablePred property] :
    ((attempts (events ++ [.connect calls])).countP fun attempt => property attempt) =
      ((attempts events).countP fun attempt => property attempt) +
        if property (calls, firstIpAddr + (attempts events).length) then 1 else 0 := by
  rw [attempts_connect, List.countP_append, List.countP_singleton]
  simp only [decide_eq_true_eq]

theorem Accounts.start : Accounts [] start where
  ipv4addr := rfl
  nconn := rfl
  connects := rfl
  watched := Finset.Subset.refl _
  leaked := rfl
  settled := rfl
  window := Nat.zero_le _
  atMost := Nat.zero_le _
  inPhase := ⟨Nat.le_refl _, Nat.zero_le _, rfl⟩

theorem Accounts.length (accounts : Accounts events worker) (calls : Calls) :
    worker.ipv4addr + 1 = firstIpAddr + (attempts (events ++ [.connect calls])).length := by
  rw [attempts_connect, List.length_append, List.length_singleton, accounts.ipv4addr, Nat.add_assoc]

theorem Accounts.attemptSilent (accounts : Accounts events worker) (silent : contacted (calls, worker.ipv4addr) = none)
    (inPhase : ({ worker with ipv4addr := worker.ipv4addr + 1, phase } : Worker).InPhase phase) :
    Accounts (events ++ [.connect calls]) { worker with ipv4addr := worker.ipv4addr + 1, phase } := by
  have succeeds := countP_attempts events calls Succeeds
  have leaks := countP_attempts events calls Leaks
  have noSocket : ¬GetsSocket (calls, worker.ipv4addr) := by simp [GetsSocket, silent]
  rw [← accounts.ipv4addr, if_neg fun both => noSocket both.1, Nat.add_zero] at succeeds leaks
  constructor
  · exact accounts.length calls
  · exact accounts.nconn.trans succeeds.symm
  · rw [attempts_connect, ← accounts.ipv4addr, List.filterMap_append, ← accounts.connects]
    simp [silent]
  · exact accounts.watched
  · rw [leaks]
    exact accounts.leaked
  · exact accounts.settled
  · exact accounts.window
  · exact accounts.atMost
  · exact inPhase

section
variable {descriptors : Descriptors} {fd addr : Nat}

theorem Accounts.contact (accounts : Accounts events worker)
    (contact : contacted (calls, worker.ipv4addr) = some (worker.ipv4addr, addr))
    (log : descriptors.connects = worker.connects ++ [(worker.ipv4addr, addr)]) :
    descriptors.connects = (attempts (events ++ [.connect calls])).filterMap contacted := by
  rw [attempts_connect, ← accounts.ipv4addr, List.filterMap_append, ← accounts.connects, log]
  simp [contact]

theorem Accounts.attemptWatched (accounts : Accounts events worker)
    (contact : contacted (calls, worker.ipv4addr) = some (worker.ipv4addr, addr)) (fresh : fd ∉ worker.opened)
    (opened : descriptors.opened = insert fd worker.opened)
    (log : descriptors.connects = worker.connects ++ [(worker.ipv4addr, addr)]) (registers : calls.registers = true)
    (registered : descriptors.registered = insert fd worker.registered) (room : worker.nconn < worker.nclose + maxConnOne)
    (more : worker.nconn < totalN)
    (inPhase : ({ worker with
      toDescriptors := descriptors, ipv4addr := worker.ipv4addr + 1, nconn := worker.nconn + 1, phase } : Worker).InPhase
        phase) :
    Accounts (events ++ [.connect calls])
      { worker with toDescriptors := descriptors, ipv4addr := worker.ipv4addr + 1, nconn := worker.nconn + 1, phase } := by
  have succeeds := countP_attempts events calls Succeeds
  have leaks := countP_attempts events calls Leaks
  have gets : GetsSocket (calls, worker.ipv4addr) := by simp [GetsSocket, contact]
  have kept : ¬Leaks (calls, worker.ipv4addr) := by simp [Leaks, registers]
  have unwatched : fd ∉ worker.registered := fun member => fresh (accounts.watched member)
  rw [← accounts.ipv4addr, if_pos ⟨gets, registers⟩, ← accounts.nconn] at succeeds
  rw [← accounts.ipv4addr, if_neg kept] at leaks
  have leaked := accounts.leaked
  have settled := accounts.settled
  constructor
  · exact accounts.length calls
  · exact succeeds.symm
  · exact accounts.contact contact log
  · rw [registered, opened]
    exact Finset.insert_subset_insert fd accounts.watched
  · rw [registered, opened, Finset.card_insert_of_notMem fresh, Finset.card_insert_of_notMem unwatched, leaks]
    omega
  · rw [registered, Finset.card_insert_of_notMem unwatched]
    simp only
    omega
  · exact room
  · exact more
  · exact inPhase

theorem Accounts.attemptLeaked (accounts : Accounts events worker)
    (contact : contacted (calls, worker.ipv4addr) = some (worker.ipv4addr, addr)) (fresh : fd ∉ worker.opened)
    (opened : descriptors.opened = insert fd worker.opened)
    (log : descriptors.connects = worker.connects ++ [(worker.ipv4addr, addr)]) (registers : calls.registers = false)
    (registered : descriptors.registered = worker.registered)
    (inPhase : ({ worker with toDescriptors := descriptors, ipv4addr := worker.ipv4addr + 1, phase } : Worker).InPhase phase) :
    Accounts (events ++ [.connect calls])
      { worker with toDescriptors := descriptors, ipv4addr := worker.ipv4addr + 1, phase } := by
  have succeeds := countP_attempts events calls Succeeds
  have leaks := countP_attempts events calls Leaks
  have gets : GetsSocket (calls, worker.ipv4addr) := by simp [GetsSocket, contact]
  have uncounted : ¬Succeeds (calls, worker.ipv4addr) := by simp [Succeeds, registers]
  rw [← accounts.ipv4addr, if_neg uncounted, Nat.add_zero] at succeeds
  rw [← accounts.ipv4addr, if_pos ⟨gets, registers⟩] at leaks
  constructor
  · exact accounts.length calls
  · exact accounts.nconn.trans succeeds.symm
  · exact accounts.contact contact log
  · rw [registered, opened]
    exact accounts.watched.trans (Finset.subset_insert fd _)
  · rw [registered, opened, Finset.card_insert_of_notMem fresh, accounts.leaked, leaks, Nat.add_assoc]
  · rw [registered]
    exact accounts.settled
  · exact accounts.window
  · exact accounts.atMost
  · exact inPhase

end

theorem Accounts.attempt (accounts : Accounts events worker) (made : worker.attempt calls phase = some next)
    (room : worker.nconn < worker.nclose + maxConnOne) (more : worker.nconn < totalN)
    (inPhase : next.InPhase next.phase) : Accounts (events ++ [.connect calls]) next := by
  obtain ⟨ok, descriptors, called, rfl⟩ := attempt_eq_some made
  rcases doConnect_cases called with
    ⟨silent, rfl, rfl⟩ | ⟨fd, addr, contact, fresh, opened, log, ⟨registers, rfl, registered⟩ | ⟨registers, rfl, registered⟩⟩
  · exact accounts.attemptSilent silent inPhase
  · exact accounts.attemptWatched contact fresh opened log registers registered room more inPhase
  · exact accounts.attemptLeaked contact fresh opened log registers registered inPhase

theorem Accounts.close {fd : Nat} {fds : List Nat} (accounts : Accounts events worker)
    (closes : worker.phase = .closing (fd :: fds)) : Accounts (events ++ [.go]) (worker.close fd fds) := by
  obtain ⟨ipv4addr, nconn, connects, watched, leaked, settled, window, atMost, inPhase⟩ := accounts
  rw [closes] at inPhase
  obtain ⟨nodup, every⟩ := inPhase
  have inside : fd ∈ worker.registered := every fd List.mem_cons_self
  have fewer := Finset.card_erase_add_one inside
  have fewerOpen := Finset.card_erase_add_one (watched inside)
  have same : attempts (events ++ [.go]) = attempts events := attempts_silent rfl
  constructor
  · rw [same]
    exact ipv4addr
  · rw [same]
    exact nconn
  · rw [same]
    exact connects
  · exact Finset.erase_subset_erase fd watched
  · rw [same, Worker.close]
    simp only
    omega
  · rw [Worker.close]
    simp only
    omega
  · exact window.trans (Nat.add_le_add_right (Nat.le_succ _) _)
  · exact atMost
  · refine ⟨(List.nodup_cons.mp nodup).2, fun other member => Finset.mem_erase.mpr ⟨?_, ?_⟩⟩
    · rintro rfl
      exact (List.nodup_cons.mp nodup).1 member
    · exact every other (List.mem_cons_of_mem _ member)

theorem Accounts.move (accounts : Accounts events worker) (silent : event.calls = [])
    (notStarting : ∀ i, phase ≠ .starting i) (reports : ∀ fds, phase = .closing fds → worker.Reports fds) :
    Accounts (events ++ [event]) { worker with phase } := by
  have same : attempts (events ++ [event]) = attempts events := attempts_silent silent
  obtain ⟨ipv4addr, nconn, connects, watched, leaked, settled, window, atMost, _⟩ := accounts
  rw [← same] at ipv4addr nconn connects leaked
  refine ⟨ipv4addr, nconn, connects, watched, leaked, settled, window, atMost, ?_⟩
  cases phase with
  | starting i => exact absurd rfl (notStarting i)
  | closing fds =>
    obtain ⟨nodup, _, every⟩ := reports fds rfl
    exact ⟨nodup, every⟩
  | top => trivial
  | waiting => trivial
  | refill => trivial
  | returned => trivial

theorem Accounts.step (accounts : Accounts events worker) (stepped : step event worker = some next) :
    Accounts (events ++ [event]) next := by
  rcases step_cases stepped with
    ⟨calls, phase, rfl, made, ⟨i, at_, rfl, inside, _⟩ | ⟨at_, rfl, room, more⟩⟩ | ⟨fd, fds, rfl, at_, rfl⟩ |
      ⟨silent, phase, rfl, notStarting, reports⟩
  · have inPhase := accounts.inPhase
    rw [at_] at inPhase
    obtain ⟨few, _, none⟩ := inPhase
    have small : maxConnOne ≤ totalN := by decide
    refine accounts.attempt made (by omega) (by omega) ?_
    obtain ⟨ok, descriptors, _, rfl⟩ := attempt_eq_some made
    refine ⟨?_, inside, none⟩
    cases ok
    · exact few.trans (Nat.le_succ i)
    · exact Nat.succ_le_succ few
  · refine accounts.attempt made (by omega) (by omega) ?_
    obtain ⟨ok, descriptors, _, rfl⟩ := attempt_eq_some made
    trivial
  · exact accounts.close at_
  · exact accounts.move silent notStarting reports

theorem run_accounts (ran : run step events start = some worker) : Accounts events worker :=
  run_history Accounts (fun _ _ _ _ accounts stepped => accounts.step stepped) Accounts.start ran

end Mbench.DetectAlive
