import Mbench.DetectAlive.Bursts

/-! How many connections are outstanding, and where the outer loop has nothing left to do. -/

namespace Mbench.DetectAlive
open Library

variable {events : List Event} {worker next : Worker}

/-- Between the connections made and those closed there are never less than none and never
more than the window, and never more than the total are made. -/
theorem worker_window (events : List Event) (worker : Worker) (ran : run step events start = some worker) :
    0 ≤ (worker.nconn : Int) - worker.nclose ∧ (worker.nconn : Int) - worker.nclose ≤ maxConnOne ∧
      worker.nconn ≤ totalN := by
  obtain ⟨_, _, _, _, _, settled, window, atMost, _⟩ := run_accounts ran
  exact ⟨by omega, by omega, atMost⟩

def twoAttempts : List Event := [.connect (.socket 5 .inProgress true), .connect .noSocket]

theorem worker_window_two :
    ∃ worker, run step twoAttempts start = some worker ∧
      0 ≤ (worker.nconn : Int) - worker.nclose ∧ (worker.nconn : Int) - worker.nclose ≤ maxConnOne ∧
      worker.nconn ≤ totalN :=
  ⟨_, rfl, worker_window twoAttempts _ rfl⟩

/-! The outer loop. -/

/-- Whether the body of the outer loop can be gone through, from this state of the counters
back to the condition, without a call of `do_connect`. -/
def BodyIdle (worker : Worker) : Prop :=
  ∃ events next, (∀ event ∈ events, event.calls = []) ∧
    run step events { worker with phase := .waiting } = some next ∧ next.phase = .top

/-- The phases of a body that waits for its next call of `do_connect`, or has returned. -/
def Phase.Busy : Phase → Prop
  | .waiting | .refill | .returned | .closing [] => True
  | _ => False

/-- With nothing outstanding and neither limit reached, only a call of `do_connect` or the end
of `worker` leads on. -/
theorem busy_step {event : Event} {phase : Phase} (none : worker.registered = ∅)
    (settled : worker.nclose = worker.nconn) (low : worker.ipv4addr ≤ maxIpAddr) (more : worker.nconn < totalN)
    (busy : phase.Busy) (silent : event.calls = []) (stepped : step event { worker with phase } = some next) :
    ∃ phase : Phase, phase.Busy ∧ next = { worker with phase } := by
  cases phase with
  | starting i => cases busy
  | top => cases busy
  | returned => simp [step] at stepped
  | waiting =>
    cases event with
    | connect calls => cases silent
    | go => simp [step] at stepped
    | wait reported =>
      cases reported with
      | none =>
        cases stepped
        exact ⟨.returned, trivial, rfl⟩
      | some fds =>
        simp only [step] at stepped
        split at stepped
        next reports =>
          have empty : fds = [] := List.eq_nil_iff_forall_not_mem.mpr fun fd member => by
            have watched := reports.2.2 fd member
            rw [none] at watched
            exact absurd watched (Finset.notMem_empty fd)
          cases stepped
          exact ⟨.closing [], trivial, by rw [empty]⟩
        next _ => cases stepped
  | closing fds =>
    cases fds with
    | cons fd fds => cases busy
    | nil =>
      cases event with
      | connect calls => cases silent
      | wait reported => simp [step] at stepped
      | go =>
        simp only [step, gt_iff_lt, if_neg (Nat.not_lt_of_le low), Option.some.injEq] at stepped
        exact ⟨.refill, trivial, stepped.symm⟩
  | refill =>
    cases event with
    | connect calls => cases silent
    | wait reported => simp [step] at stepped
    | go =>
      have refills : Worker.Refills { worker with phase := .refill } := by
        unfold Worker.Refills maxConnOne
        simp only
        omega
      simp [step, refills] at stepped

/-- With nothing outstanding, the body makes no call exactly when the address limit has been
passed or the total has been reached. -/
theorem bodyIdle_iff (none : worker.registered = ∅) (settled : worker.nclose = worker.nconn) :
    BodyIdle worker ↔ maxIpAddr < worker.ipv4addr ∨ totalN ≤ worker.nconn := by
  constructor
  · intro ⟨events, next, silent, ran, top⟩
    by_contra neither
    rw [not_or, not_lt, not_le] at neither
    have stays := run_history
      (fun past state => (∀ event ∈ past, event.calls = []) → ∃ phase : Phase, phase.Busy ∧ state = { worker with phase })
      (by
        intro past event state next held stepped quiet
        obtain ⟨phase, busy, rfl⟩ := held fun event member => quiet event (List.mem_append_left _ member)
        exact busy_step none settled neither.1 neither.2 busy (quiet event (by simp)) stepped)
      (fun _ => ⟨.waiting, trivial, rfl⟩) ran
    obtain ⟨phase, busy, rfl⟩ := stays silent
    change phase = .top at top
    subst top
    cases busy
  · intro either
    have waits : step (.wait (some [])) { worker with phase := .waiting } = some { worker with phase := .closing [] } := by
      simp [step, Worker.Reports]
    by_cases past : worker.ipv4addr > maxIpAddr
    · refine ⟨[.wait (some []), .go], { worker with phase := .top }, by simp [Event.calls], ?_, rfl⟩
      rw [run, waits, Option.bind_eq_bind, Option.bind_some]
      simp [run, step, past]
    · have full : totalN ≤ worker.nconn := either.resolve_left past
      refine ⟨[.wait (some []), .go, .go], { worker with phase := .top }, by simp [Event.calls], ?_, rfl⟩
      rw [run, waits, Option.bind_eq_bind, Option.bind_some]
      simp [run, step, past, Worker.Refills, full]

theorem Accounts.registered_empty (accounts : Accounts events worker) (settled : worker.nclose = worker.nconn) :
    worker.registered = ∅ := by
  have counted := accounts.settled
  exact Finset.card_eq_zero.mp (by omega)

/-- With nothing outstanding and nothing to connect, the outer loop ends exactly when the run has
neither left the address range before the total was reached nor reached the total before
the range was used up. -/
theorem worker_ends_iff (events : List Event) (worker : Worker) (ran : run step events start = some worker)
    (settled : worker.nclose = worker.nconn) :
    (BodyIdle worker → ¬worker.Guard) ↔
      (maxIpAddr - firstIpAddr < (attempts events).length →
        ((attempts events).countP fun attempt => Succeeds attempt) = totalN) ∧
      (((attempts events).countP fun attempt => Succeeds attempt) = totalN →
        maxIpAddr - firstIpAddr ≤ (attempts events).length) := by
  have accounts := run_accounts ran
  have ipv4addr := accounts.ipv4addr
  have atMost := accounts.atMost
  have range : firstIpAddr + (maxIpAddr - firstIpAddr) = maxIpAddr := by decide
  rw [bodyIdle_iff (accounts.registered_empty settled) settled, ← accounts.nconn]
  unfold Worker.Guard
  omega

/-- The run that leaves the address range with few connections, and then has all of them
reported. -/
def spin : List Event := overrun ++ [.go] ++ round (List.range maxConnOne)

theorem run_spin : ∃ worker, run step spin start = some worker ∧ worker.phase = .top ∧ worker.nclose = worker.nconn ∧
    worker.nconn = maxConnOne + 1 ∧ BodyIdle worker := by
  obtain ⟨first, opening, refill, ipv4addr, nconn, nclose, registered, _⟩ := run_overrun
  have full : ¬first.Refills := by
    unfold Worker.Refills
    rw [nclose, nconn]
    decide
  have leaves : step .go first = some { first with phase := .top } := by simp [step, refill, full]
  have guard : Worker.Guard { first with phase := .top } := Or.inl (by change first.nconn < totalN; rw [nconn]; decide)
  have reports : Worker.Reports { first with phase := .top } (List.range maxConnOne) := by
    refine ⟨List.nodup_range, List.length_range.le, fun fd member => ?_⟩
    change fd ∈ first.registered
    by_cases zero : fd = 0
    · simp [registered, zero]
    · simp [registered, zero, List.mem_range.mp member]
  have rounds := run_round rfl guard reports
  have past : first.ipv4addr > maxIpAddr := by rw [ipv4addr]; decide
  have ran : run step spin start =
      some { Worker.closed { first with phase := .top } (List.range maxConnOne) with phase := .top } := by
    rw [spin, run_append, run_append, opening, Option.bind_some, run, leaves, Option.bind_eq_bind, Option.bind_some, run,
      Option.bind_some, rounds, if_pos past]
  have settled : (Worker.closed { first with phase := .top } (List.range maxConnOne)).nclose = first.nconn := by
    change first.nclose + (List.range maxConnOne).length = first.nconn
    rw [nclose, nconn, List.length_range]
    rfl
  refine ⟨_, ran, rfl, settled, nconn, ?_⟩
  exact (bodyIdle_iff ((run_accounts ran).registered_empty settled) settled).mpr (Or.inl past)

/-- At the condition of the outer loop, behind connections that have all been closed and with nothing left to connect. -/
theorem worker_ends_iff_spin : ∃ worker, run step spin start = some worker ∧ worker.phase = .top ∧
    0 < worker.nconn ∧ worker.nclose = worker.nconn ∧ BodyIdle worker ∧
    ((BodyIdle worker → ¬worker.Guard) ↔
      (maxIpAddr - firstIpAddr < (attempts spin).length →
        ((attempts spin).countP fun attempt => Succeeds attempt) = totalN) ∧
      (((attempts spin).countP fun attempt => Succeeds attempt) = totalN →
        maxIpAddr - firstIpAddr ≤ (attempts spin).length)) := by
  obtain ⟨worker, ran, top, settled, nconn, idle⟩ := run_spin
  exact ⟨worker, ran, top, by rw [nconn]; exact Nat.succ_pos _, settled, idle, worker_ends_iff spin worker ran settled⟩

theorem worker_spins : ∃ worker, run step spin start = some worker ∧ worker.phase = .top ∧
    worker.nclose = worker.nconn ∧ BodyIdle worker ∧ worker.Guard := by
  obtain ⟨worker, ran, top, settled, nconn, idle⟩ := run_spin
  exact ⟨worker, ran, top, settled, idle, Or.inl (by rw [nconn]; decide)⟩

end Mbench.DetectAlive
