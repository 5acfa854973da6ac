import Mbench.DetectAlive.DoConnect
import Mbench.Library.Interleaving

/-! `worker` of `detectAlive.c`. A run is the sequence of its turns, with the outcomes of the
system calls: of a `do_connect`, of `epoll_wait`, or of nothing. It starts behind
`epoll_create`. -/

namespace Mbench.DetectAlive
open Library

def totalN : Nat := 150000

def maxConnOne : Nat := 4096

/-- Where `worker` is: in the loop that makes the first connections, at the condition of the
outer loop, before `epoll_wait`, in the loop over the events with those not closed yet, or
at the condition of the inner loop. -/
inductive Phase
  | starting (i : Nat)
  | top
  | waiting
  | closing (fds : List Nat)
  | refill
  | returned
  deriving DecidableEq

structure Worker extends Descriptors where
  ipv4addr : Nat
  nconn : Nat
  nclose : Nat
  phase : Phase
  deriving DecidableEq

/-- What the surroundings decide in a turn. A report of `epoll_wait` names the descriptors of
its events, and `none` is the result -1. -/
inductive Event
  | connect (calls : Calls)
  | wait (reported : Option (List Nat))
  | go
  deriving DecidableEq

def start : Worker where
  opened := ∅
  registered := ∅
  connects := []
  ipv4addr := firstIpAddr
  nconn := 0
  nclose := 0
  phase := .starting 0

def Worker.Guard (worker : Worker) : Prop :=
  worker.nconn < totalN ∨ worker.nclose < worker.nconn ∨ worker.ipv4addr < maxIpAddr

instance (worker : Worker) : Decidable worker.Guard := inferInstanceAs (Decidable (_ ∨ _))

/-- `do_connect`, the count of its success, and `ipv4addr++`, as both connecting loops have
them. -/
def Worker.attempt (worker : Worker) (calls : Calls) (phase : Phase) : Option Worker := do
  let (ok, descriptors) ← doConnect worker.ipv4addr calls worker.toDescriptors
  let ipv4addr ← addNat worker.ipv4addr 1
  some { worker with
    toDescriptors := descriptors, ipv4addr, nconn := if ok then worker.nconn + 1 else worker.nconn, phase }

def Worker.Starts (worker : Worker) (i : Nat) : Prop := i < maxConnOne ∧ ¬totalN < worker.nconn

instance (worker : Worker) (i : Nat) : Decidable (worker.Starts i) := inferInstanceAs (Decidable (_ ∧ _))

def Worker.Refills (worker : Worker) : Prop :=
  (maxConnOne : Int) + worker.nclose - worker.nconn > 0 ∧ ¬totalN ≤ worker.nconn

instance (worker : Worker) : Decidable worker.Refills := inferInstanceAs (Decidable (_ ∧ _))

/-- What `epoll_wait` can report: watched descriptors, each once, at most as many as asked
for. -/
def Worker.Reports (worker : Worker) (fds : List Nat) : Prop :=
  fds.Nodup ∧ fds.length ≤ maxConnOne ∧ ∀ fd ∈ fds, fd ∈ worker.registered

instance (worker : Worker) (fds : List Nat) : Decidable (worker.Reports fds) :=
  inferInstanceAs (Decidable (_ ∧ _ ∧ _))

def Worker.close (worker : Worker) (fd : Nat) (fds : List Nat) : Worker :=
  { worker with
    opened := worker.opened.erase fd, registered := worker.registered.erase fd,
    nclose := worker.nclose + 1, phase := .closing fds }

def step (event : Event) (worker : Worker) : Option Worker :=
  match worker.phase, event with
  | .starting i, .connect calls => if worker.Starts i then worker.attempt calls (.starting (i + 1)) else none
  | .starting i, .go => if worker.Starts i then none else some { worker with phase := .top }
  | .top, .go => some { worker with phase := if worker.Guard then .waiting else .returned }
  | .waiting, .wait none => some { worker with phase := .returned }
  | .waiting, .wait (some fds) => if worker.Reports fds then some { worker with phase := .closing fds } else none
  | .closing (fd :: fds), .go => some (worker.close fd fds)
  | .closing [], .go => some { worker with phase := if worker.ipv4addr > maxIpAddr then .top else .refill }
  | .refill, .connect calls => if worker.Refills then worker.attempt calls .refill else none
  | .refill, .go => if worker.Refills then none else some { worker with phase := .top }
  | _, _ => none

def Event.calls : Event → List Calls
  | .connect calls => [calls]
  | _ => []

def attempts (events : List Event) : List (Calls × Nat) := (events.flatMap Event.calls).zipIdx firstIpAddr

theorem attempt_eq_some {worker next : Worker} {calls : Calls} {phase : Phase}
    (made : worker.attempt calls phase = some next) :
    ∃ ok descriptors, doConnect worker.ipv4addr calls worker.toDescriptors = some (ok, descriptors) ∧
      next = { worker with
        toDescriptors := descriptors, ipv4addr := worker.ipv4addr + 1,
        nconn := if ok then worker.nconn + 1 else worker.nconn, phase } := by
  obtain ⟨⟨ok, descriptors⟩, called, rest⟩ := Option.bind_eq_some_iff.mp made
  obtain ⟨ipv4addr, counted, same⟩ := Option.bind_eq_some_iff.mp rest
  have value : ipv4addr = worker.ipv4addr + 1 := by
    rw [addNat_eq] at counted
    split at counted
    · exact (Option.some.inj counted).symm
    · cases counted
  subst value
  exact ⟨ok, descriptors, called, (Option.some.inj same).symm⟩

theorem step_cases {event : Event} {worker next : Worker} (stepped : step event worker = some next) :
    (∃ calls phase, event = .connect calls ∧ worker.attempt calls phase = some next ∧
      ((∃ i, worker.phase = .starting i ∧ phase = .starting (i + 1) ∧ worker.Starts i) ∨
        worker.phase = .refill ∧ phase = .refill ∧ worker.Refills)) ∨
    (∃ fd fds, event = .go ∧ worker.phase = .closing (fd :: fds) ∧ next = worker.close fd fds) ∨
    (event.calls = [] ∧ ∃ phase, next = { worker with phase } ∧ (∀ i, phase ≠ .starting i) ∧
      ∀ fds, phase = .closing fds → worker.Reports fds) := by
  unfold step at stepped
  split at stepped
  next i calls at_ =>
    split at stepped
    next more => exact Or.inl ⟨calls, _, rfl, stepped, Or.inl ⟨i, at_, rfl, more⟩⟩
    next _ => cases stepped
  next i at_ =>
    split at stepped
    next _ => cases stepped
    next _ =>
      cases stepped
      exact Or.inr (Or.inr ⟨rfl, .top, rfl, by simp, by simp⟩)
  next at_ =>
    cases stepped
    exact Or.inr (Or.inr ⟨rfl, _, rfl, by split <;> simp, by split <;> simp⟩)
  next at_ =>
    cases stepped
    exact Or.inr (Or.inr ⟨rfl, .returned, rfl, by simp, by simp⟩)
  next fds at_ =>
    split at stepped
    next reports =>
      cases stepped
      refine Or.inr (Or.inr ⟨rfl, .closing fds, rfl, by simp, ?_⟩)
      intro others same
      cases same
      exact reports
    next _ => cases stepped
  next fd fds at_ =>
    cases stepped
    exact Or.inr (Or.inl ⟨fd, fds, rfl, at_, rfl⟩)
  next at_ =>
    cases stepped
    exact Or.inr (Or.inr ⟨rfl, _, rfl, by split <;> simp, by split <;> simp⟩)
  next calls at_ =>
    split at stepped
    next more => exact Or.inl ⟨calls, _, rfl, stepped, Or.inr ⟨at_, rfl, more⟩⟩
    next _ => cases stepped
  next at_ =>
    split at stepped
    next _ => cases stepped
    next _ =>
      cases stepped
      exact Or.inr (Or.inr ⟨rfl, .top, rfl, by simp, by simp⟩)
  next => cases stepped

end Mbench.DetectAlive
