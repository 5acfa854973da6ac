import Mbench.CoreLat.NoLock
import Mbench.Library.Fairness
import Mathlib.Tactic.Linarith

/-! The threads of `measure` all come to the end of their loops when each is scheduled again and again. The thread that
the token names is the one that helps: the others cannot take the token from it. -/

namespace Mbench.CoreLat
open Library

variable {nThreads : Nat} {loops : Int}

def AllDone (loops : Int) (i : Fin nThreads → Nat) : Prop := ∀ idx, ¬(i idx : Int) < loops

def handOffs (nThreads : Nat) (loops : Int) : Nat := (loops * nThreads).toNat

namespace CasLock

variable {state : CasLock nThreads}

def holder (team : 1 ≤ nThreads) (token : Nat) : Fin nThreads := ⟨token % nThreads, Nat.mod_lt _ team⟩

theorem Passed.holder_eq (passed : Passed loops state) (team : 1 ≤ nThreads) : state.token = holder team state.token := by
  rw [holder, passed.token]
  exact (Nat.mod_mod _ _).symm

theorem Passed.holder_waits (passed : Passed loops state) (team : 1 ≤ nThreads) (short : ¬AllDone loops state.i) :
    (state.i (holder team state.token) : Int) < loops := by
  obtain ⟨other, left⟩ := not_forall.mp short
  have least := passed.turn_least (passed.holder_eq team) other
  omega

theorem Passed.swaps_lt (passed : Passed loops state) (short : ¬AllDone loops state.i) :
    state.swaps < handOffs nThreads loops := by
  obtain ⟨other, left⟩ := not_forall.mp short
  rw [not_not, passed.i, turns_eq other.isLt] at left
  have rounds : (state.swaps / nThreads + 1 : Nat) ≤ loops := by
    split at left <;> omega
  have next := Nat.lt_div_mul_add other.pos (a := state.swaps)
  have most : ((state.swaps / nThreads + 1 : Nat) : Int) * nThreads ≤ loops * nThreads :=
    mul_le_mul_of_nonneg_right rounds (Int.natCast_nonneg _)
  rw [← Nat.cast_mul, Nat.succ_mul] at most
  rw [handOffs]
  omega

theorem attempt_helps (loops : Int) (team : 1 ≤ nThreads) :
    Helps (attempt loops) (Passed loops) (fun state : CasLock nThreads => AllDone loops state.i)
      (fun state => handOffs nThreads loops - state.swaps) (fun state => holder team state.token) where
  kept := fun _ _ _ passed attempted => attempt_passed passed attempted
  lowers := by
    intro state passed short
    have fewer := passed.swaps_lt short
    unfold attempt
    rw [if_pos (passed.holder_waits team short), if_pos (passed.holder_eq team)]
    refine ⟨_, rfl, ?_⟩
    simp only
    omega
  waits := by
    intro idx state next passed short attempted
    have fewer := passed.swaps_lt short
    unfold attempt at attempted
    split at attempted
    · split at attempted
      · cases attempted
        left
        simp only
        omega
      · cases attempted
        exact Or.inr ⟨rfl, rfl⟩
    · cases attempted

theorem attempt_none {idx : Fin nThreads} (done : AllDone loops state.i) : attempt loops idx state = none :=
  if_neg (done idx)

/-- Under every fair schedule all threads make their `loops` iterations, the token comes back to the first thread after
`loops * n_threads` hand-offs, and nothing happens any more. -/
theorem swaps_complete (nThreads : Nat) (team : 1 ≤ nThreads) (loops : Int) (positive : 1 ≤ loops)
    (schedule : Nat → Fin nThreads) (fair : Fair schedule) :
    ∃ count, ∀ more,
      (∀ idx, ((along (attempt loops) schedule (start nThreads) (count + more)).i idx : Int) = loops) ∧
      (along (attempt loops) schedule (start nThreads) (count + more)).token = 0 ∧
      ((along (attempt loops) schedule (start nThreads) (count + more)).swaps : Int) = loops * nThreads := by
  obtain ⟨count, done⟩ := (attempt_helps loops team).reaches fair (start_passed (by omega))
  have passed : Passed loops (along (attempt loops) schedule (start nThreads) count) :=
    along_rule (fun _ _ _ passed attempted => attempt_passed passed attempted) (start_passed (by omega)) count
  refine ⟨count, fun more => ?_⟩
  rw [along_stays count (fun idx => attempt_none done) more]
  obtain ⟨swaps, token⟩ := passed.finished team done
  exact ⟨fun idx => le_antisymm (passed.atMost idx) (not_lt.mp (done idx)), token, swaps⟩

theorem fair_mod (team : 0 < nThreads) : Fair fun count : Nat => (⟨count % nThreads, Nat.mod_lt _ team⟩ : Fin nThreads) := by
  intro idx count
  refine ⟨count * nThreads + idx, ?_, Fin.ext ?_⟩
  · have whole := Nat.le_mul_of_pos_right count team
    omega
  · simp only
    rw [Nat.mul_add_mod', Nat.mod_eq_of_lt idx.isLt]

theorem swaps_complete_three :
    ∃ count, ∀ more,
      (∀ idx, ((along (attempt 10) (fun count => ⟨count % 3, Nat.mod_lt _ (by decide)⟩) (start 3) (count + more)).i idx : Int) = 10) ∧
      (along (attempt 10) (fun count => ⟨count % 3, Nat.mod_lt _ (by decide)⟩) (start 3) (count + more)).token = 0 ∧
      ((along (attempt 10) (fun count => ⟨count % 3, Nat.mod_lt _ (by decide)⟩) (start 3) (count + more)).swaps : Int) =
        10 * (3 : Nat) :=
  swaps_complete 3 (by decide) 10 (by decide) _ (fair_mod (by decide))

end CasLock

namespace NoLock

variable {state : NoLock nThreads}

/-- The store that a thread with the token is about to make counts for half a hand-off. -/
def ahead (team : 1 ≤ nThreads) (state : NoLock nThreads) : Nat :=
  if state.found (CasLock.holder team state.token) then 1 else 0

/-- The invariant of `cas_lock.c` for the state that this one stands for, and the ownership of the token. -/
structure Handing (loops : Int) (state : NoLock nThreads) : Prop where
  owning : Owning loops state
  passed : CasLock.Passed loops state.image

theorem access_handing {idx : Fin nThreads} {next : NoLock nThreads} (handing : Handing loops state)
    (accessed : access loops idx state = some next) : Handing loops next where
  owning := access_owning handing.owning accessed
  passed := run_rule (CasLock.Passed loops) (fun _ _ _ passed attempted => CasLock.attempt_passed passed attempted)
    handing.passed (access_matched handing.owning accessed)

theorem start_handing (nonnegative : 0 ≤ loops) : Handing loops (start nThreads) where
  owning := start_owning loops
  passed := CasLock.start_passed nonnegative

theorem Handing.access_cases (handing : Handing loops state) (team : 1 ≤ nThreads) (short : ¬AllDone loops state.i)
    {idx : Fin nThreads} {next : NoLock nThreads} (accessed : access loops idx state = some next) :
    2 * (handOffs nThreads loops - next.stores) - ahead team next <
        2 * (handOffs nThreads loops - state.stores) - ahead team state ∨ next = state := by
  have fewer : state.stores < handOffs nThreads loops := handing.passed.swaps_lt short
  unfold access at accessed
  split at accessed
  · split at accessed
    · cases accessed
      left
      simp only [ahead]
      split <;> split <;> omega
    · split at accessed
      next unfound mine =>
        cases accessed
        left
        have own : idx = CasLock.holder team state.token := Fin.ext (mine.symm.trans (handing.passed.holder_eq team))
        subst own
        simp only [ahead, if_neg unfound, Function.update_self, if_true]
        omega
      next _ _ =>
        cases accessed
        exact Or.inr rfl
  · cases accessed

theorem access_helps (loops : Int) (team : 1 ≤ nThreads) :
    Helps (access loops) (Handing loops) (fun state : NoLock nThreads => AllDone loops state.i)
      (fun state => 2 * (handOffs nThreads loops - state.stores) - ahead team state)
      (fun state => CasLock.holder team state.token) where
  kept := fun _ _ _ handing accessed => access_handing handing accessed
  lowers := by
    intro state handing short
    have waits : (state.i (CasLock.holder team state.token) : Int) < loops := handing.passed.holder_waits team short
    have mine : state.token = CasLock.holder team state.token := handing.passed.holder_eq team
    have moves : ∃ next, access loops (CasLock.holder team state.token) state = some next ∧ next ≠ state := by
      unfold access
      rw [if_pos waits, if_pos mine]
      by_cases found : state.found (CasLock.holder team state.token) = true
      · rw [if_pos found]
        refine ⟨_, rfl, fun same => ?_⟩
        have stores := congrArg NoLock.stores same
        simp only at stores
        omega
      · rw [if_neg found]
        refine ⟨_, rfl, fun same => found ?_⟩
        have now := congrFun (congrArg NoLock.found same) (CasLock.holder team state.token)
        rw [← now]
        exact Function.update_self _ _ _
    obtain ⟨next, accessed, other⟩ := moves
    exact ⟨next, accessed, (handing.access_cases team short accessed).resolve_right other⟩
  waits := by
    intro idx state next handing short accessed
    rcases handing.access_cases team short accessed with less | rfl
    · exact Or.inl less
    · exact Or.inr ⟨rfl, rfl⟩

theorem access_none {idx : Fin nThreads} (done : AllDone loops state.i) : access loops idx state = none :=
  if_neg (done idx)

/-- Without the lock, under every fair schedule all threads make their iterations, and the token comes back. -/
theorem stores_complete (nThreads : Nat) (team : 1 ≤ nThreads) (loops : Int) (positive : 1 ≤ loops)
    (schedule : Nat → Fin nThreads) (fair : Fair schedule) :
    ∃ count, ∀ more,
      (∀ idx, ((along (access loops) schedule (start nThreads) (count + more)).i idx : Int) = loops) ∧
      (along (access loops) schedule (start nThreads) (count + more)).token = 0 ∧
      ((along (access loops) schedule (start nThreads) (count + more)).stores : Int) = loops * nThreads := by
  obtain ⟨count, done⟩ := (access_helps loops team).reaches fair (start_handing (by omega))
  have handing : Handing loops (along (access loops) schedule (start nThreads) count) :=
    along_rule (fun _ _ _ handing accessed => access_handing handing accessed) (start_handing (by omega)) count
  refine ⟨count, fun more => ?_⟩
  rw [along_stays count (fun idx => access_none done) more]
  obtain ⟨stores, token⟩ := handing.passed.finished team done
  exact ⟨fun idx => le_antisymm (handing.passed.atMost idx) (not_lt.mp (done idx)), token, stores⟩

theorem stores_complete_three :
    ∃ count, ∀ more,
      (∀ idx, ((along (access 10) (fun count => ⟨count % 3, Nat.mod_lt _ (by decide)⟩) (start 3) (count + more)).i idx : Int) = 10) ∧
      (along (access 10) (fun count => ⟨count % 3, Nat.mod_lt _ (by decide)⟩) (start 3) (count + more)).token = 0 ∧
      ((along (access 10) (fun count => ⟨count % 3, Nat.mod_lt _ (by decide)⟩) (start 3) (count + more)).stores : Int) =
        10 * (3 : Nat) :=
  stores_complete 3 (by decide) 10 (by decide) _ (CasLock.fair_mod (by decide))

end NoLock

end Mbench.CoreLat
