import Mbench.DetectAlive.Bursts
import Mathlib.Data.List.Pairwise

/-! The addresses that a run of `worker` calls `connect` with. -/

namespace Mbench.DetectAlive
open Library

variable {events : List Event} {worker : Worker}

/-- Every `connect` so far had an address of the range, and `ipv4addr` had not reached the
limit. -/
def InRange (worker : Worker) : Prop :=
  ∀ contact ∈ worker.connects, contact.1 < maxIpAddr ∧ firstIpAddr ≤ contact.2 ∧ contact.2 < maxIpAddr

theorem attempts_ge {attempt : Calls × Nat} (member : attempt ∈ attempts events) : firstIpAddr ≤ attempt.2 :=
  List.le_snd_of_mem_zipIdx member

/-- The addresses stay in the range, and `connect` ends with it, exactly when no `do_connect` from
the first address behind the rejected ones on gets a socket. -/
theorem worker_inRange_iff (events : List Event) (worker : Worker) (ran : run step events start = some worker) :
    InRange worker ↔ ∀ attempt ∈ attempts events, GetsSocket attempt → attempt.2 < firstPast := by
  have connects := (run_accounts ran).connects
  constructor
  · intro inRange attempt member gets
    obtain ⟨contact, made⟩ := Option.isSome_iff_exists.mp gets
    obtain ⟨rfl, _⟩ := contacted_eq_some made
    have logged : (attempt.2, adjusted attempt.2) ∈ worker.connects := by
      rw [connects]
      exact List.mem_filterMap.mpr ⟨attempt, member, made⟩
    have limit : maxIpAddr ≤ firstPast := by decide
    exact (inRange _ logged).1.trans_le limit
  · intro early contact logged
    rw [connects] at logged
    obtain ⟨⟨calls, ipv4addr⟩, member, made⟩ := List.mem_filterMap.mp logged
    obtain ⟨rfl, free⟩ := contacted_eq_some made
    have high := early _ member (Option.isSome_iff_exists.mpr ⟨_, made⟩)
    have low := attempts_ge member
    obtain ⟨below_, within⟩ := adjusted_lt low high free
    exact ⟨below_, low.trans (adjusted_ge ipv4addr), within⟩

theorem worker_inRange_iff_first :
    ∃ worker, run step (connectAll maxConnOne) start = some worker ∧ worker.connects.length = maxConnOne ∧
      (InRange worker ↔ ∀ attempt ∈ attempts (connectAll maxConnOne), GetsSocket attempt → attempt.2 < firstPast) :=
  ⟨connected maxConnOne, run_connectAll le_rfl, by rw [connected, List.length_map, List.length_range],
    worker_inRange_iff (connectAll maxConnOne) (connected maxConnOne) (run_connectAll le_rfl)⟩

/-- A socket for `ipv4addr` 0x0a17feff, with all of the range behind it. -/
theorem worker_leavesRange : ∃ worker, run step overrun start = some worker ∧ ¬InRange worker := by
  obtain ⟨worker, ran, _, _, _, _, _, logged⟩ := run_overrun
  exact ⟨worker, ran, fun inRange => absurd (inRange _ logged).1 (by decide)⟩

/-! Whether they are different. -/

/-- No address has been passed to `connect` twice. -/
def NeverTwice (worker : Worker) : Prop := (worker.connects.map Prod.snd).Nodup

theorem pairwise_iff_of_ordered {Item : Type} {items : List Item} (key : Item → Nat) (related : Item → Item → Prop)
    (ordered : items.Pairwise fun first second => key first < key second) :
    items.Pairwise related ↔ ∀ first ∈ items, ∀ second ∈ items, key first < key second → related first second := by
  induction items with
  | nil => simp
  | cons item items ih =>
    obtain ⟨least, rest⟩ := List.pairwise_cons.mp ordered
    rw [List.pairwise_cons, ih rest]
    constructor
    · intro ⟨head, tail⟩ first firstIn second secondIn before
      rcases List.mem_cons.mp firstIn with rfl | firstLater
      · rcases List.mem_cons.mp secondIn with rfl | secondLater
        · exact absurd before (Nat.lt_irrefl _)
        · exact head second secondLater
      · rcases List.mem_cons.mp secondIn with rfl | secondLater
        · exact absurd (before.trans (least first firstLater)) (Nat.lt_irrefl _)
        · exact tail first firstLater second secondLater before
    · intro every
      constructor
      · exact fun second member => every item List.mem_cons_self second (List.mem_cons_of_mem _ member) (least second member)
      · exact fun first firstIn second secondIn =>
          every first (List.mem_cons_of_mem _ firstIn) second (List.mem_cons_of_mem _ secondIn)

theorem attempts_ordered (events : List Event) : (attempts events).Pairwise fun first second => first.2 < second.2 := by
  have counters : ((attempts events).map Prod.snd).Pairwise (· < ·) := by
    rw [attempts, List.zipIdx_map_snd]
    exact List.pairwise_lt_range'
  exact List.pairwise_map.mp counters

theorem address_eq_some {attempt : Calls × Nat} {addr : Nat} :
    (contacted attempt).map Prod.snd = some addr ↔ GetsSocket attempt ∧ addr = adjusted attempt.2 := by
  rw [Option.map_eq_some_iff]
  constructor
  · intro ⟨contact, made, same⟩
    obtain ⟨rfl, _⟩ := contacted_eq_some made
    exact ⟨Option.isSome_iff_exists.mpr ⟨_, made⟩, same.symm⟩
  · intro ⟨gets, same⟩
    obtain ⟨contact, made⟩ := Option.isSome_iff_exists.mp gets
    obtain ⟨rfl, _⟩ := contacted_eq_some made
    exact ⟨_, made, same.symm⟩

/-- No address is used twice exactly when no two calls that get a socket are a pair that the
octet adjustments lead to one address. -/
theorem worker_neverTwice_iff (events : List Event) (worker : Worker) (ran : run step events start = some worker) :
    NeverTwice worker ↔ ∀ first ∈ attempts events, ∀ second ∈ attempts events,
      GetsSocket first → GetsSocket second → ¬Clash first.2 second.2 := by
  have told : NeverTwice worker ↔ (attempts events).Pairwise fun first second =>
      GetsSocket first → GetsSocket second → adjusted first.2 ≠ adjusted second.2 := by
    rw [NeverTwice, (run_accounts ran).connects, List.map_filterMap, List.Nodup, List.pairwise_filterMap]
    refine List.Pairwise.iff fun first second => ?_
    simp only [address_eq_some, and_imp, forall_eq_apply_imp_iff]
  rw [told, pairwise_iff_of_ordered Prod.snd _ (attempts_ordered events)]
  constructor
  · intro apart first firstIn second secondIn firstGets secondGets clash
    exact apart first firstIn second secondIn clash.lt firstGets secondGets ((adjusted_eq_iff clash.lt).mpr clash)
  · intro free first firstIn second secondIn before firstGets secondGets same
    exact free first firstIn second secondIn firstGets secondGets ((adjusted_eq_iff before).mp same)

theorem worker_neverTwice_iff_first :
    ∃ worker, run step (connectAll maxConnOne) start = some worker ∧ worker.connects.length = maxConnOne ∧
      (NeverTwice worker ↔ ∀ first ∈ attempts (connectAll maxConnOne), ∀ second ∈ attempts (connectAll maxConnOne),
        GetsSocket first → GetsSocket second → ¬Clash first.2 second.2) :=
  ⟨connected maxConnOne, run_connectAll le_rfl, by rw [connected, List.length_map, List.length_range],
    worker_neverTwice_iff (connectAll maxConnOne) (connected maxConnOne) (run_connectAll le_rfl)⟩

/-- The first 269 connections: 0x0a0300ff and 0x0a03010c are both contacted as 0x0a03010c. -/
theorem worker_contactsTwice : ∃ worker, run step (connectAll 269) start = some worker ∧ ¬NeverTwice worker := by
  refine ⟨connected 269, run_connectAll (by decide), fun nodup => ?_⟩
  unfold NeverTwice connected at nodup
  rw [List.map_map] at nodup
  have same := List.inj_on_of_nodup_map nodup (List.mem_range.mpr (by decide : 255 < 269))
    (List.mem_range.mpr (by decide : 268 < 269)) (by decide)
  exact absurd same (by decide)

end Mbench.DetectAlive
