import Mbench.CoreLat.CasLock

/-! `measure` of `core_lat/no_lock.c`: a thread reads `token` until it finds its own
number, and then stores the next one. The read and the store are two steps, between which
the other threads take theirs. -/

namespace Mbench.CoreLat
open Library

/-- Memory, the loop counters, and which threads have read their own number and not yet
stored; `stores` counts the stores, which the code does not. -/
structure NoLock (nThreads : Nat) where
  token : Nat
  i : Fin nThreads → Nat
  found : Fin nThreads → Bool
  stores : Nat

namespace NoLock

variable {nThreads : Nat}

def start (nThreads : Nat) : NoLock nThreads := { token := 0, i := fun _ => 0, found := fun _ => false, stores := 0 }

/-- One access of a thread that is still in its loop: the read of `while (token != idx)`,
or, after one that ended it, `token = next` and the end of the iteration. -/
def access (loops : Int) (idx : Fin nThreads) (state : NoLock nThreads) : Option (NoLock nThreads) :=
  if state.i idx < loops then
    if state.found idx then
      some {
        token := CasLock.next idx
        i := Function.update state.i idx (state.i idx + 1)
        found := Function.update state.found idx false
        stores := state.stores + 1 }
    else if state.token = idx then some { state with found := Function.update state.found idx true }
    else some state
  else none

/-- The state of `cas_lock.c` that a state of `no_lock.c` stands for. -/
def image (state : NoLock nThreads) : CasLock nThreads :=
  { token := state.token, i := state.i, swaps := state.stores }

def swapsOf (idx : Fin nThreads) (state : NoLock nThreads) : List (Fin nThreads) :=
  if state.found idx then [idx] else []

/-- The invariant: a thread that has found its number still owns the token, and is still
in its loop. -/
def Owning (loops : Int) (state : NoLock nThreads) : Prop :=
  ∀ idx, state.found idx = true → state.token = idx ∧ (state.i idx : Int) < loops

theorem start_owning (loops : Int) : Owning loops (start nThreads) := fun _ found => by cases found

theorem Owning.unique {loops : Int} {state : NoLock nThreads} (owning : Owning loops state) {first second : Fin nThreads}
    (found : state.found first = true) (other : state.found second = true) : first = second :=
  Fin.ext ((owning first found).1.symm.trans (owning second other).1)

theorem access_owning {loops : Int} {idx : Fin nThreads} {state next : NoLock nThreads} (owning : Owning loops state)
    (accessed : access loops idx state = some next) : Owning loops next := by
  unfold access at accessed
  by_cases inLoop : (state.i idx : Int) < loops
  · rw [if_pos inLoop] at accessed
    by_cases holding : state.found idx = true
    · rw [if_pos holding] at accessed
      cases accessed
      intro other found
      simp only at found
      by_cases same : other = idx
      · rw [same, Function.update_self] at found
        cases found
      · rw [Function.update_of_ne same] at found
        exact absurd (owning.unique found holding) same
    · rw [if_neg holding] at accessed
      by_cases mine : state.token = idx
      · rw [if_pos mine] at accessed
        cases accessed
        intro other found
        simp only at found ⊢
        by_cases same : other = idx
        · rw [same]
          exact ⟨mine, inLoop⟩
        · rw [Function.update_of_ne same] at found
          exact owning other found
      · rw [if_neg mine] at accessed
        cases accessed
        exact owning
  · rw [if_neg inLoop] at accessed
    cases accessed

theorem access_matched {loops : Int} {idx : Fin nThreads} {state next : NoLock nThreads} (owning : Owning loops state)
    (accessed : access loops idx state = some next) :
    run (CasLock.attempt loops) (swapsOf idx state) (image state) = some (image next) := by
  unfold access at accessed
  unfold swapsOf
  by_cases inLoop : (state.i idx : Int) < loops
  · rw [if_pos inLoop] at accessed
    by_cases holding : state.found idx = true
    · rw [if_pos holding] at accessed ⊢
      cases accessed
      have swapped : CasLock.attempt loops idx (image state) = some {
          token := CasLock.next idx
          i := Function.update state.i idx (state.i idx + 1)
          swaps := state.stores + 1 } := by
        unfold CasLock.attempt image
        rw [if_pos inLoop, if_pos (owning idx holding).1]
      rw [run, swapped]
      rfl
    · rw [if_neg holding] at accessed ⊢
      by_cases mine : state.token = idx
      · rw [if_pos mine] at accessed
        cases accessed
        rfl
      · rw [if_neg mine] at accessed
        cases accessed
        rfl
  · rw [if_neg inLoop] at accessed
    cases accessed

theorem access_counted {loops : Int} {idx : Fin nThreads} {state next : NoLock nThreads}
    (accessed : access loops idx state = some next) : next.stores = state.stores + (swapsOf idx state).length := by
  unfold access at accessed
  unfold swapsOf
  by_cases inLoop : (state.i idx : Int) < loops
  · rw [if_pos inLoop] at accessed
    by_cases holding : state.found idx = true
    · rw [if_pos holding] at accessed ⊢
      cases accessed
      rfl
    · rw [if_neg holding] at accessed ⊢
      by_cases mine : state.token = idx
      · rw [if_pos mine] at accessed
        cases accessed
        rfl
      · rw [if_neg mine] at accessed
        cases accessed
        rfl
  · rw [if_neg inLoop] at accessed
    cases accessed

def swapsOfRun (loops : Int) (schedule : List (Fin nThreads)) : List (Fin nThreads) :=
  trace (access loops) swapsOf schedule (start nThreads)

/-- A run of `cas_lock.c` whose attempts all succeed reaches the same token and counters. -/
theorem run_image {loops : Int} {schedule : List (Fin nThreads)} {state : NoLock nThreads}
    (reached : run (access loops) schedule (start nThreads) = some state) :
    ∃ cas, run (CasLock.attempt loops) (swapsOfRun loops schedule) (CasLock.start nThreads) = some cas ∧
      cas.token = state.token ∧ cas.i = state.i ∧ cas.swaps = (swapsOfRun loops schedule).length := by
  have simulated := run_simulates image swapsOf (Owning loops)
    (fun idx state next owning accessed => access_owning owning accessed)
    (fun idx state next owning accessed => access_matched owning accessed) (start_owning loops) reached
  have counted := run_counts NoLock.stores swapsOf (fun idx state next accessed => access_counted accessed) reached
  exact ⟨image state, simulated, rfl, rfl, counted.trans (Nat.zero_add _)⟩

/-- Over every interleaving of the reads and stores: at most one thread is between its
read and its store, the token is still its own, and at every point of the run the stores
so far are the compare-and-swaps, all successful, of a run of `cas_lock.c` that has the
same token and counters. -/
theorem measure_refines_casLock (nThreads : Nat) (loops : Int) (schedule : List (Fin nThreads))
    (state : NoLock nThreads) (reached : run (access loops) schedule (start nThreads) = some state) :
    (∀ first second, state.found first = true → state.found second = true → first = second) ∧
      (∀ idx, state.found idx = true → state.token = idx) ∧
      ∀ before after, schedule = before ++ after →
        swapsOfRun loops before <+: swapsOfRun loops schedule ∧
        ∃ middle cas, run (access loops) before (start nThreads) = some middle ∧
          run (CasLock.attempt loops) (swapsOfRun loops before) (CasLock.start nThreads) = some cas ∧
          cas.token = middle.token ∧ cas.i = middle.i ∧ cas.swaps = (swapsOfRun loops before).length := by
  have owning : Owning loops state := run_rule (Owning loops)
    (fun idx state next owning accessed => access_owning owning accessed) (start_owning loops) reached
  refine ⟨fun first second found other => owning.unique found other, fun idx found => (owning idx found).1,
    fun before after split => ?_⟩
  subst split
  rw [run_append] at reached
  obtain ⟨middle, ran, _⟩ := Option.bind_eq_some_iff.mp reached
  obtain ⟨cas, simulated, same⟩ := run_image ran
  exact ⟨⟨_, (trace_append ran).symm⟩, middle, cas, ran, simulated, same⟩

theorem measure_refines_casLock_pair :
    ∃ state, run (access 2) [0, 1, 0, 1] (start 2) = some state ∧ state.found 1 = true ∧
      (∀ first second, state.found first = true → state.found second = true → first = second) ∧
      (∀ idx, state.found idx = true → state.token = idx) ∧
      ∀ before after, [0, 1, 0, 1] = before ++ after →
        swapsOfRun 2 before <+: swapsOfRun 2 ([0, 1, 0, 1] : List (Fin 2)) ∧
        ∃ middle cas, run (access 2) before (start 2) = some middle ∧
          run (CasLock.attempt 2) (swapsOfRun 2 before) (CasLock.start 2) = some cas ∧
          cas.token = middle.token ∧ cas.i = middle.i ∧ cas.swaps = (swapsOfRun 2 before).length :=
  ⟨_, rfl, rfl, measure_refines_casLock 2 2 [0, 1, 0, 1] _ rfl⟩

end NoLock

end Mbench.CoreLat
