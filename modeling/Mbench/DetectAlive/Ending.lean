import Mbench.DetectAlive.Bursts

/-! How a run of `worker` can end. -/

namespace Mbench.DetectAlive
open Library

variable {events : List Event} {event : Event} {worker next : Worker} {calls : Calls}

/-- What a run says of its end: when all connections are made the latest `do_connect` has made the last of them, and `worker`
returns behind a failed `epoll_wait` or where the condition of the outer loop is false. -/
structure Endings (events : List Event) (worker : Worker) : Prop where
  full : worker.nconn = totalN → ∃ last, (attempts events).getLast? = some last ∧ Succeeds last ∧ last.2 + 1 = worker.ipv4addr
  returned : worker.phase = .returned → events.getLast? = some (.wait none) ∨ ¬worker.Guard

theorem Endings.start : Endings [] start where
  full := fun all => absurd all (by decide)
  returned := by
    intro ended
    cases ended

theorem attempt_succeeds {phase : Phase} (made : worker.attempt calls phase = some next) (more : next.nconn ≠ worker.nconn) :
    Succeeds (calls, worker.ipv4addr) := by
  obtain ⟨ok, descriptors, called, rfl⟩ := attempt_eq_some made
  rcases doConnect_cases called with ⟨_, rfl, _⟩ | ⟨fd, addr, contact, _, _, _, ⟨registers, rfl, _⟩ | ⟨_, rfl, _⟩⟩
  · exact absurd rfl more
  · exact ⟨by simp [GetsSocket, contact], registers⟩
  · exact absurd rfl more

theorem attempt_phase {phase : Phase} (made : worker.attempt calls phase = some next) : next.phase = phase := by
  obtain ⟨ok, descriptors, _, rfl⟩ := attempt_eq_some made
  rfl

theorem returned_cases (stepped : step event worker = some next) (returned : next.phase = .returned) :
    event = .wait none ∨ ¬next.Guard := by
  unfold step at stepped
  split at stepped
  next i calls _ =>
    split at stepped
    next _ => cases (attempt_phase stepped).symm.trans returned
    next _ => cases stepped
  next i _ =>
    split at stepped
    next _ => cases stepped
    next _ =>
      cases stepped
      cases returned
  next _ =>
    cases stepped
    refine Or.inr fun guard => ?_
    change worker.Guard at guard
    rw [if_pos guard] at returned
    cases returned
  next _ => exact Or.inl rfl
  next fds _ =>
    split at stepped
    next _ =>
      cases stepped
      cases returned
    next _ => cases stepped
  next fd fds _ =>
    cases stepped
    cases returned
  next _ =>
    cases stepped
    change (if worker.ipv4addr > maxIpAddr then Phase.top else .refill) = .returned at returned
    split at returned <;> cases returned
  next calls _ =>
    split at stepped
    next _ => cases (attempt_phase stepped).symm.trans returned
    next _ => cases stepped
  next _ =>
    split at stepped
    next _ => cases stepped
    next _ =>
      cases stepped
      cases returned
  next => cases stepped

theorem Endings.step (endings : Endings events worker) (accounts : Accounts events worker)
    (stepped : step event worker = some next) : Endings (events ++ [event]) next := by
  refine ⟨fun full => ?_, fun returned => ?_⟩
  · rcases step_cases stepped with ⟨calls, phase, rfl, made, place⟩ | ⟨fd, fds, rfl, at_, rfl⟩ | ⟨silent, phase, rfl, _, _⟩
    · have fewer : worker.nconn < totalN := by
        rcases place with ⟨i, at_, _, inside, _⟩ | ⟨_, _, _, more⟩
        · have inPhase := accounts.inPhase
          rw [at_] at inPhase
          have small : maxConnOne ≤ totalN := by decide
          have few := inPhase.1
          omega
        · omega
      have succeeds := attempt_succeeds made (by omega)
      obtain ⟨ok, descriptors, _, rfl⟩ := attempt_eq_some made
      refine ⟨(calls, worker.ipv4addr), ?_, succeeds, rfl⟩
      rw [attempts_connect, List.getLast?_concat, accounts.ipv4addr]
    · rw [attempts_silent rfl]
      exact endings.full full
    · rw [attempts_silent silent]
      exact endings.full full
  · rw [List.getLast?_concat, Option.some.injEq]
    exact returned_cases stepped returned

theorem run_endings (ran : run step events start = some worker) : Accounts events worker ∧ Endings events worker :=
  run_history (fun past state => Accounts past state ∧ Endings past state)
    (fun _ _ _ _ both stepped => ⟨both.1.step stepped, both.2.step both.1 stepped⟩) ⟨Accounts.start, Endings.start⟩ ran

/-- From the last address of the range on, a `connect` that is made goes behind the rejected addresses. -/
theorem adjusted_past {ipv4addr : Nat} (last : maxIpAddr ≤ ipv4addr + 1) (free : ¬Rejected (adjusted ipv4addr)) :
    firstPast ≤ ipv4addr ∧ 0x0a180000 ≤ adjusted ipv4addr := by
  rw [rejected_iff] at free
  unfold maxIpAddr at last
  unfold firstPast
  have cases_ := adjusted_cases ipv4addr
  omega

/-- Whatever the outcomes, `worker` returns after an `epoll_wait` that fails, or with all connections made and closed; and then the
last of them was to an address out of the range. -/
theorem worker_returns (events : List Event) (worker : Worker) (ran : run step events start = some worker)
    (returned : worker.phase = .returned) :
    events.getLast? = some (.wait none) ∨
      (worker.nconn = totalN ∧ worker.nclose = totalN ∧ worker.registered = ∅) ∧
        ∃ ipv4addr addr, worker.connects.getLast? = some (ipv4addr, addr) ∧ firstPast ≤ ipv4addr ∧ 0x0a180000 ≤ addr := by
  obtain ⟨accounts, endings⟩ := run_endings ran
  refine (endings.returned returned).imp_right fun guard => ?_
  have atMost := accounts.atMost
  have settled := accounts.settled
  unfold Worker.Guard at guard
  have all : worker.nconn = totalN := by omega
  have none : worker.registered = ∅ := Finset.card_eq_zero.mp (by omega)
  refine ⟨⟨all, by omega, none⟩, ?_⟩
  obtain ⟨⟨calls, ipv4addr⟩, last, ⟨gets, _⟩, counted⟩ := endings.full all
  obtain ⟨contact, made⟩ := Option.isSome_iff_exists.mp gets
  obtain ⟨rfl, free⟩ := contacted_eq_some made
  refine ⟨ipv4addr, adjusted ipv4addr, ?_, adjusted_past (by change ipv4addr + 1 = worker.ipv4addr at counted; omega) free⟩
  obtain ⟨front, same⟩ := List.getLast?_eq_some_iff.mp last
  rw [accounts.connects, same, List.filterMap_append, List.filterMap_cons_some made, List.filterMap_nil]
  exact List.getLast?_concat

def failing : List Event := connectAll maxConnOne ++ [.go] ++ [.go, .wait none]

theorem worker_returns_failed :
    ∃ worker, run step failing start = some worker ∧ worker.phase = .returned ∧
      (failing.getLast? = some (.wait none) ∨
        (worker.nconn = totalN ∧ worker.nclose = totalN ∧ worker.registered = ∅) ∧
          ∃ ipv4addr addr, worker.connects.getLast? = some (ipv4addr, addr) ∧ firstPast ≤ ipv4addr ∧ 0x0a180000 ≤ addr) := by
  obtain ⟨first, opening, top, _, nconn, _⟩ := run_opening
  have guard : first.Guard := Or.inl (by rw [nconn]; decide)
  have ran : run step failing start = some { first with phase := .returned } := by
    rw [failing, run_append, opening, Option.bind_some]
    simp [run, Mbench.DetectAlive.step, top, guard]
  exact ⟨_, ran, rfl, worker_returns failing _ ran rfl⟩

end Mbench.DetectAlive
