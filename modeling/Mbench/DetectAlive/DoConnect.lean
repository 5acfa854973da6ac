import Mbench.Library.CInt
import Mbench.Library.Octets
import Mathlib.Data.Finset.Card
import Mathlib.Data.Finset.SDiff

/-! `do_connect` of `detectAlive.c`. The outcomes of the system calls are its input. The
options set on the socket and the printed messages are left out: nothing depends on them.
Addresses and counters are of type `int` and never negative; an addition that overflows is
undefined. -/

namespace Mbench.DetectAlive
open Library

def maxIpAddr : Nat := 0x0a170000

def firstIpAddr : Nat := 0x0a030000

/-- How `connect` turns out: it returns zero, or fails with `EINPROGRESS`, or fails with
another error. -/
inductive Connected
  | done
  | inProgress
  | refused
  deriving DecidableEq

/-- How the system calls of a `do_connect` turn out, as far as it makes them. -/
inductive Calls
  | noSocket
  | socket (fd : Nat) (connected : Connected) (added : Bool)
  deriving DecidableEq

/-- The probe sockets that are open, those among them that the epoll set watches, and the
arguments of all calls of `connect` so far, each with the argument of its `do_connect`. -/
structure Descriptors where
  opened : Finset Nat
  registered : Finset Nat
  connects : List (Nat × Nat)
  deriving DecidableEq

def addIf (condition : Prop) [Decidable condition] (ipv4addr amount : Nat) : Option Nat :=
  if condition then addNat ipv4addr amount else some ipv4addr

def adjust (ipv4addr : Nat) : Option Nat := do
  let ipv4addr ← addIf (ipv4addr &&& 0xFF = 0xFF) ipv4addr 13
  addIf (ipv4addr &&& 0xFF00 = 0xFF00) ipv4addr 0x100

def Rejected (addr : Nat) : Prop := addr &&& 0xFF0000 = 0x170000

instance (addr : Nat) : Decidable (Rejected addr) := inferInstanceAs (Decidable (_ = _))

def doConnect (ipv4addr : Nat) (calls : Calls) (descriptors : Descriptors) : Option (Bool × Descriptors) := do
  let addr ← adjust ipv4addr
  if Rejected addr then some (false, descriptors)
  else match calls with
    | .noSocket => some (false, descriptors)
    | .socket fd connected added =>
        -- the kernel hands out a descriptor that is not open
        if fd ∈ descriptors.opened then none
        else
          let descriptors := { descriptors with
            opened := insert fd descriptors.opened, connects := descriptors.connects ++ [(ipv4addr, addr)] }
          if connected = .refused then some (false, descriptors)
          else if added then some (true, { descriptors with registered := insert fd descriptors.registered })
          else some (false, descriptors)

/-! What becomes of a call, by its argument and the outcomes alone. -/

def contacted (attempt : Calls × Nat) : Option (Nat × Nat) :=
  match attempt.1, adjust attempt.2 with
  | .socket _ _ _, some addr => if Rejected addr then none else some (attempt.2, addr)
  | _, _ => none

def Calls.registers : Calls → Bool
  | .noSocket => false
  | .socket _ connected added => decide (connected ≠ .refused) && added

def GetsSocket (attempt : Calls × Nat) : Prop := (contacted attempt).isSome = true

instance (attempt : Calls × Nat) : Decidable (GetsSocket attempt) := inferInstanceAs (Decidable (_ = _))

def Succeeds (attempt : Calls × Nat) : Prop := GetsSocket attempt ∧ attempt.1.registers = true

def Leaks (attempt : Calls × Nat) : Prop := GetsSocket attempt ∧ attempt.1.registers = false

instance (attempt : Calls × Nat) : Decidable (Succeeds attempt) := inferInstanceAs (Decidable (_ ∧ _))

instance (attempt : Calls × Nat) : Decidable (Leaks attempt) := inferInstanceAs (Decidable (_ ∧ _))

variable {ipv4addr addr : Nat} {calls : Calls} {descriptors next : Descriptors} {ok : Bool}

/-- The three ways through `do_connect`: without a socket, with a socket that is watched in
the end, and with one that is left behind. -/
theorem doConnect_cases (called : doConnect ipv4addr calls descriptors = some (ok, next)) :
    (contacted (calls, ipv4addr) = none ∧ ok = false ∧ next = descriptors) ∨
    ∃ fd addr, contacted (calls, ipv4addr) = some (ipv4addr, addr) ∧ fd ∉ descriptors.opened ∧
      next.opened = insert fd descriptors.opened ∧ next.connects = descriptors.connects ++ [(ipv4addr, addr)] ∧
      (calls.registers = true ∧ ok = true ∧ next.registered = insert fd descriptors.registered ∨
        calls.registers = false ∧ ok = false ∧ next.registered = descriptors.registered) := by
  rw [doConnect] at called
  obtain ⟨addr, adjusted, called⟩ := Option.bind_eq_some_iff.mp called
  by_cases rejected : Rejected addr
  · rw [if_pos rejected] at called
    cases called
    refine Or.inl ⟨?_, rfl, rfl⟩
    cases calls <;> simp [contacted, adjusted, rejected]
  · rw [if_neg rejected] at called
    cases calls with
    | noSocket =>
      cases called
      exact Or.inl ⟨by simp [contacted], rfl, rfl⟩
    | socket fd connected added =>
      by_cases taken : fd ∈ descriptors.opened
      · simp [taken] at called
      · refine Or.inr ⟨fd, addr, by simp [contacted, adjusted, rejected], taken, ?_⟩
        by_cases refused : connected = .refused
        · simp only [taken, refused, if_true, if_false] at called
          cases called
          exact ⟨rfl, rfl, Or.inr ⟨by simp [Calls.registers, refused], rfl, rfl⟩⟩
        · cases added with
          | true =>
            simp only [taken, refused, if_true, if_false] at called
            cases called
            exact ⟨rfl, rfl, Or.inl ⟨by simp [Calls.registers, refused], rfl, rfl⟩⟩
          | false =>
            simp only [taken, refused, if_false] at called
            cases called
            exact ⟨rfl, rfl, Or.inr ⟨by simp [Calls.registers], rfl, rfl⟩⟩

end Mbench.DetectAlive
