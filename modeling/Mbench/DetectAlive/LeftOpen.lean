import Mbench.DetectAlive.Accounts

/-! The probe sockets that a run of `worker` has open. -/

namespace Mbench.DetectAlive
open Library

variable {events : List Event} {worker : Worker}

theorem doConnect_opened_iff {ipv4addr : Nat} {calls : Calls} {descriptors next : Descriptors}
    (failed : doConnect ipv4addr calls descriptors = some (false, next)) :
    next.opened = descriptors.opened ↔ ¬Leaks (calls, ipv4addr) := by
  rcases doConnect_cases failed with
    ⟨silent, _, rfl⟩ | ⟨fd, addr, contact, fresh, opened, _, ⟨_, success, _⟩ | ⟨registers, _, _⟩⟩
  · exact iff_of_true rfl (by simp [Leaks, GetsSocket, silent])
  · cases success
  · refine iff_of_false (fun same => fresh ?_) (not_not.mpr ⟨by simp [GetsSocket, contact], registers⟩)
    rw [← same, opened]
    exact Finset.mem_insert_self fd _

/-- The open sockets are as many as the outstanding connections exactly when no `do_connect` so
far has failed once it had its socket. -/
theorem opened_card_iff (ran : run step events start = some worker) :
    (worker.opened.card : Int) = (worker.nconn : Int) - worker.nclose ↔ ∀ attempt ∈ attempts events, ¬Leaks attempt := by
  have accounts := run_accounts ran
  have leaked := accounts.leaked
  have settled := accounts.settled
  have none : ((attempts events).countP fun attempt => Leaks attempt) = 0 ↔ ∀ attempt ∈ attempts events, ¬Leaks attempt := by
    simp [List.countP_eq_zero]
  rw [← none]
  omega

theorem worker_descriptors_iff (events : List Event) (worker : Worker) (ran : run step events start = some worker) :
    ((worker.opened.card : Int) = (worker.nconn : Int) - worker.nclose ↔ ∀ attempt ∈ attempts events, ¬Leaks attempt) ∧
      ∀ calls next, doConnect worker.ipv4addr calls worker.toDescriptors = some (false, next) →
        (next.opened = worker.opened ↔ ¬Leaks (calls, worker.ipv4addr)) :=
  ⟨opened_card_iff ran, fun _ _ failed => doConnect_opened_iff failed⟩

def refusedOnce : List Event := [.connect (.socket 5 .refused false)]

theorem worker_descriptors_iff_refused :
    ∃ worker, run step refusedOnce start = some worker ∧
      ((worker.opened.card : Int) = (worker.nconn : Int) - worker.nclose ↔
        ∀ attempt ∈ attempts refusedOnce, ¬Leaks attempt) ∧
      ∀ calls next, doConnect worker.ipv4addr calls worker.toDescriptors = some (false, next) →
        (next.opened = worker.opened ↔ ¬Leaks (calls, worker.ipv4addr)) :=
  ⟨_, rfl, worker_descriptors_iff refusedOnce _ rfl⟩

theorem worker_leavesOpen :
    (∃ worker, run step refusedOnce start = some worker ∧
      (worker.opened.card : Int) ≠ (worker.nconn : Int) - worker.nclose) ∧
    ∃ next, doConnect firstIpAddr (.socket 5 .refused false) start.toDescriptors = some (false, next) ∧
      next.opened ≠ start.opened :=
  ⟨⟨_, rfl, by decide⟩, _, rfl, by decide⟩

end Mbench.DetectAlive
