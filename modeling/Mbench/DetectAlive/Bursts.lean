import Mbench.DetectAlive.Accounts
import Mbench.DetectAlive.OctetCarry

/-! Runs of turns that turn out alike. -/

namespace Mbench.DetectAlive
open Library

variable {worker : Worker}

def connectAll (count : Nat) : List Event := (List.range count).map fun fd => .connect (.socket fd .done true)

def connected (count : Nat) : Worker where
  opened := Finset.range count
  registered := Finset.range count
  connects := (List.range count).map fun i => (firstIpAddr + i, adjusted (firstIpAddr + i))
  ipv4addr := firstIpAddr + count
  nconn := count
  nclose := 0
  phase := .starting count

theorem step_starting {i : Nat} {calls : Calls} (at_ : worker.phase = .starting i) (starts : worker.Starts i) :
    step (.connect calls) worker = worker.attempt calls (.starting (i + 1)) := by
  simp [step, at_, starts]

theorem step_refill {calls : Calls} (at_ : worker.phase = .refill) (refills : worker.Refills) :
    step (.connect calls) worker = worker.attempt calls .refill := by
  simp [step, at_, refills]

theorem step_started {i : Nat} (at_ : worker.phase = .starting i) (done : ¬worker.Starts i) :
    step .go worker = some { worker with phase := .top } := by
  simp [step, at_, done]

theorem doConnect_fresh {ipv4addr fd : Nat} {descriptors : Descriptors} (small : ipv4addr + 269 < 2 ^ 31)
    (free : ¬Rejected (adjusted ipv4addr)) (fresh : fd ∉ descriptors.opened) :
    doConnect ipv4addr (.socket fd .done true) descriptors = some (true, {
      opened := insert fd descriptors.opened, registered := insert fd descriptors.registered,
      connects := descriptors.connects ++ [(ipv4addr, adjusted ipv4addr)] }) := by
  simp [doConnect, adjust_defined small, free, fresh]

theorem attempt_fresh {fd : Nat} {phase : Phase} (small : worker.ipv4addr + 269 < 2 ^ 31)
    (free : ¬Rejected (adjusted worker.ipv4addr)) (fresh : fd ∉ worker.opened) :
    worker.attempt (.socket fd .done true) phase = some {
      opened := insert fd worker.opened, registered := insert fd worker.registered,
      connects := worker.connects ++ [(worker.ipv4addr, adjusted worker.ipv4addr)],
      ipv4addr := worker.ipv4addr + 1, nconn := worker.nconn + 1, nclose := worker.nclose, phase } := by
  have counted : addNat worker.ipv4addr 1 = some (worker.ipv4addr + 1) := by rw [addNat_eq, if_pos (by omega)]
  rw [Worker.attempt, doConnect_fresh small free fresh, Option.bind_eq_bind, Option.bind_some]
  simp only [counted, Option.bind_eq_bind, Option.bind_some, if_true]

theorem run_connectAll {count : Nat} (atMost : count ≤ maxConnOne) :
    run step (connectAll count) start = some (connected count) := by
  induction count with
  | zero => rfl
  | succ count ih =>
    unfold maxConnOne at atMost ih
    have low : firstIpAddr ≤ (connected count).ipv4addr := Nat.le_add_right _ _
    have high : (connected count).ipv4addr < 0x0a16feff := by
      change 0x0a030000 + count < 0x0a16feff
      omega
    have starts : (connected count).Starts count := by
      change count < 4096 ∧ ¬150000 < count
      omega
    have fresh : count ∉ (connected count).opened := Finset.notMem_range_self
    have next : (connected count).attempt (.socket count .done true) (.starting (count + 1)) =
        some (connected (count + 1)) := by
      rw [attempt_fresh (by omega) (adjusted_free low high) fresh]
      simp only [connected, Finset.range_add_one, List.range_succ, List.map_append, List.map_singleton, Nat.add_assoc]
    rw [connectAll, List.range_succ, List.map_append, List.map_singleton, run_append]
    change (run step (connectAll count) start).bind _ = _
    rw [ih (by omega), Option.bind_some, run, step_starting rfl starts, next]
    rfl

theorem run_failAll {count : Nat} (at_ : worker.phase = .refill) (refills : worker.Refills)
    (small : worker.ipv4addr + count + 269 < 2 ^ 31) :
    run step (List.replicate count (.connect .noSocket)) worker =
      some { worker with ipv4addr := worker.ipv4addr + count } := by
  induction count generalizing worker with
  | zero => rfl
  | succ count ih =>
    have counted : addNat worker.ipv4addr 1 = some (worker.ipv4addr + 1) := by rw [addNat_eq, if_pos (by omega)]
    have failed : doConnect worker.ipv4addr .noSocket worker.toDescriptors = some (false, worker.toDescriptors) := by
      simp [doConnect, adjust_defined (show worker.ipv4addr + 269 < 2 ^ 31 by omega)]
    have next : worker.attempt .noSocket .refill = some { worker with ipv4addr := worker.ipv4addr + 1 } := by
      simp [Worker.attempt, failed, counted, at_]
    have later : run step (List.replicate count (.connect .noSocket)) { worker with ipv4addr := worker.ipv4addr + 1 } =
        some { worker with ipv4addr := worker.ipv4addr + 1 + count } :=
      ih at_ refills (by change worker.ipv4addr + 1 + count + 269 < 2 ^ 31; omega)
    rw [List.replicate_succ, run, step_refill at_ refills, next, Option.bind_eq_bind, Option.bind_some, later,
      Nat.add_assoc, Nat.add_comm 1]

def round (fds : List Nat) : List Event := [.go, .wait (some fds)] ++ List.replicate fds.length .go ++ [.go]

def Worker.closed (worker : Worker) (fds : List Nat) : Worker :=
  { worker with
    opened := worker.opened \ fds.toFinset, registered := worker.registered \ fds.toFinset,
    nclose := worker.nclose + fds.length, phase := .closing [] }

theorem run_closeAll {fds : List Nat} (at_ : worker.phase = .closing fds) :
    run step (List.replicate fds.length .go) worker = some (worker.closed fds) := by
  induction fds generalizing worker with
  | nil => simp [run, Worker.closed, ← at_]
  | cons fd fds ih =>
    have next : step .go worker = some (worker.close fd fds) := by simp [step, at_]
    rw [List.length_cons, List.replicate_succ, run, next, Option.bind_eq_bind, Option.bind_some, ih rfl]
    have less (set : Finset Nat) : set.erase fd \ fds.toFinset = set \ insert fd fds.toFinset := by
      rw [Finset.sdiff_insert, Finset.erase_sdiff_comm]
    simp only [Worker.closed, Worker.close, List.toFinset_cons, less, List.length_cons, Nat.add_assoc, Nat.add_comm 1]

theorem run_round {fds : List Nat} (at_ : worker.phase = .top) (guard : worker.Guard) (reports : worker.Reports fds) :
    run step (round fds) worker = some { worker.closed fds with
      phase := if worker.ipv4addr > maxIpAddr then .top else .refill } := by
  have enter : step .go worker = some { worker with phase := .waiting } := by simp [step, at_, guard]
  have waited : step (.wait (some fds)) { worker with phase := .waiting } = some { worker with phase := .closing fds } :=
    if_pos reports
  have closed : run step (List.replicate fds.length .go) { worker with phase := .closing fds } = some (worker.closed fds) :=
    run_closeAll rfl
  rw [round, run_append, run_append]
  simp only [run, enter, waited, closed, Option.bind_eq_bind, Option.bind_some]
  rfl

def skipTo (from_ target fd : Nat) : List Event :=
  List.replicate (target - from_) (.connect .noSocket) ++ [.connect (.socket fd .done true)]

theorem run_skipTo {target fd : Nat} (at_ : worker.phase = .refill) (refills : worker.Refills)
    (later : worker.ipv4addr ≤ target) (small : target + 269 < 2 ^ 31) (free : ¬Rejected (adjusted target))
    (fresh : fd ∉ worker.opened) :
    run step (skipTo worker.ipv4addr target fd) worker = some {
      opened := insert fd worker.opened, registered := insert fd worker.registered,
      connects := worker.connects ++ [(target, adjusted target)],
      ipv4addr := target + 1, nconn := worker.nconn + 1, nclose := worker.nclose, phase := .refill } := by
  have sum : worker.ipv4addr + (target - worker.ipv4addr) = target := Nat.add_sub_cancel' later
  have skipped : run step (List.replicate (target - worker.ipv4addr) (.connect .noSocket)) worker =
      some { worker with ipv4addr := worker.ipv4addr + (target - worker.ipv4addr) } :=
    run_failAll at_ refills (by omega)
  have made : Worker.attempt { worker with ipv4addr := target } (.socket fd .done true) .refill = some {
      opened := insert fd worker.opened, registered := insert fd worker.registered,
      connects := worker.connects ++ [(target, adjusted target)],
      ipv4addr := target + 1, nconn := worker.nconn + 1, nclose := worker.nclose, phase := .refill } :=
    attempt_fresh small free fresh
  have last : step (.connect (.socket fd .done true)) { worker with ipv4addr := target } =
      Worker.attempt { worker with ipv4addr := target } (.socket fd .done true) .refill := step_refill at_ refills
  rw [sum] at skipped
  rw [skipTo, run_append, skipped, Option.bind_some, run, last, made]
  rfl

/-- All first connections succeed, one is reported, and the connections to take its place
fail until `ipv4addr` is behind the rejected addresses. -/
def overrun : List Event :=
  connectAll maxConnOne ++ [.go] ++ round [0] ++ skipTo (firstIpAddr + maxConnOne) firstPast 0

theorem run_opening : ∃ worker, run step (connectAll maxConnOne ++ [.go]) start = some worker ∧ worker.phase = .top ∧
    worker.ipv4addr = firstIpAddr + maxConnOne ∧ worker.nconn = maxConnOne ∧ worker.nclose = 0 ∧
    worker.opened = Finset.range maxConnOne ∧ worker.registered = Finset.range maxConnOne := by
  have opens : run step (connectAll maxConnOne) start = some (connected maxConnOne) := run_connectAll (Nat.le_refl _)
  have full : ¬(connected maxConnOne).Starts maxConnOne := fun starts => Nat.lt_irrefl _ starts.1
  have next : step .go (connected maxConnOne) = some { connected maxConnOne with phase := .top } := by
    rw [step_started rfl full]
  rw [run_append, opens, Option.bind_some, run, next]
  exact ⟨_, rfl, rfl, rfl, rfl, rfl, rfl, rfl⟩

theorem run_overrun : ∃ worker, run step overrun start = some worker ∧ worker.phase = .refill ∧
    worker.ipv4addr = firstPast + 1 ∧ worker.nconn = maxConnOne + 1 ∧ worker.nclose = 1 ∧
    worker.registered = insert 0 (Finset.range maxConnOne \ {0}) ∧
    (firstPast, adjusted firstPast) ∈ worker.connects := by
  obtain ⟨first, opening, top, ipv4addr, nconn, nclose, opened, registered⟩ := run_opening
  have reports : first.Reports [0] := by
    refine ⟨List.nodup_singleton 0, by decide, fun fd member => ?_⟩
    rw [List.mem_singleton.mp member, registered]
    exact Finset.mem_range.mpr (by decide)
  have guard : first.Guard := Or.inl (by rw [nconn]; decide)
  have rounds := run_round top guard reports
  have inside : ¬first.ipv4addr > maxIpAddr := by rw [ipv4addr]; decide
  rw [if_neg inside] at rounds
  have refills : Worker.Refills { first.closed [0] with phase := .refill } := by
    change (4096 : Int) + (first.nclose + 1 : Nat) - first.nconn > 0 ∧ ¬150000 ≤ first.nconn
    rw [nclose, nconn]
    decide
  have fresh : 0 ∉ (first.closed [0]).opened := by simp [Worker.closed]
  have behind : first.ipv4addr ≤ firstPast := by rw [ipv4addr]; decide
  have free : ¬Rejected (adjusted firstPast) := by rw [rejected_iff]; decide
  have skipped := run_skipTo rfl refills behind (by decide) free fresh
  change run step (skipTo first.ipv4addr firstPast 0) _ = _ at skipped
  rw [ipv4addr] at skipped
  rw [overrun, run_append, run_append, opening, Option.bind_some, rounds, Option.bind_some, skipped]
  refine ⟨_, rfl, rfl, rfl, ?_, ?_, ?_, List.mem_append_right _ List.mem_cons_self⟩
  · exact congrArg (· + 1) nconn
  · exact congrArg (· + 1) nclose
  · simp [Worker.closed, registered]

end Mbench.DetectAlive
