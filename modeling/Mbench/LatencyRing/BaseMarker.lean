import Mbench.LatencyRing.SetupRndSpec

/-! The ring of `ParallelCacheMiss.c`, where a free segment links to the first one, and
the pointers that chase it from any segment. -/

namespace Mbench.LatencyRing
open Library

theorem area_base {addr size segSize : Nat} (wide : 8 ≤ segSize) (segments : 1 ≤ size / segSize)
    (fits : addr + size / segSize * segSize ≤ 2 ^ 64) : Area addr segSize (size / segSize) addr where
  wide := wide
  nonempty := segments
  fits := fits
  marked := by
    intro index other
    have positive : 0 < index * segSize := Nat.mul_pos (by omega) (by omega)
    unfold place
    omega

theorem clearSegments_spec {addr segSize nSegs : Nat} (area : Area addr segSize nSegs addr) {heap : Heap UInt8}
    (allocated : heap.Allocated addr (nSegs * segSize)) :
    ∃ final, ParallelCacheMiss.clearSegments heap addr segSize nSegs = some final ∧
      final.Row addr segSize nSegs fun _ => addr := by
  obtain ⟨words, row⟩ := allocated.row area.wide
  have bound := place_lt area area.nonempty
  rw [place_zero] at bound
  obtain ⟨final, run, cleared⟩ := forLoop_rule
    (fun i heap => heap.store64 (place addr segSize i) addr)
    (fun count heap => heap.Row addr segSize nSegs fun index => if index < count then addr else words index)
    nSegs heap (by simpa using row)
    (by
      intro count inside heap row
      obtain ⟨next, stored, written, _⟩ := row.store64 area.wide inside bound
      refine ⟨next, stored, written.congr fun index within => ?_⟩
      by_cases here : index = count
      · rw [here, Function.update_self, if_pos (Nat.lt_succ_self count)]
      · rw [Function.update_of_ne here]
        simp only [show index < count + 1 ↔ index < count by omega])
  exact ⟨final, run, cleared.congr fun index within => (if_pos within).symm⟩

theorem chase_add (heap : Heap UInt8) (first second p : Nat) :
    chase heap (first + second) p = (chase heap first p).bind (chase heap second) := by
  induction first generalizing p with
  | zero => rw [Nat.zero_add, chase, Option.bind_some]
  | succ first ih =>
    rw [Nat.succ_add, chase, chase]
    cases heap.load64 p with
    | none => rfl
    | some next => exact ih next

theorem RingAt.chase_from {heap : Heap UInt8} {addr segSize : Nat} {ring : List Nat} (round : RingAt heap addr segSize ring)
    {index : Nat} (member : index ∈ ring) (hops : Nat) :
    ∃ node ∈ ring, LatencyRing.chase heap hops (place addr segSize index) = some (place addr segSize node) := by
  obtain ⟨before, within, here⟩ := List.getElem_of_mem member
  have reached := round.chase before
  rw [Nat.mod_eq_of_lt within, List.getElem?_eq_getElem within, here, Option.map_some] at reached
  have later := round.chase (before + hops)
  rw [chase_add, reached, Option.bind_some,
    List.getElem?_eq_getElem (Nat.mod_lt _ (List.length_pos_of_mem member)), Option.map_some] at later
  exact ⟨_, List.getElem_mem _, later⟩

/-- Whatever the area held and whatever the draws, `setup_rnd` of `ParallelCacheMiss.c`
leaves one cycle through `addr`, and every segment off it links to `addr`; so a pointer
started at any segment is on the cycle after one hop and stays there. -/
theorem setupRnd_leavesCycle (aboveRatio : Nat → Nat → Bool) (heap : Heap UInt8) (addr size segSize : Nat)
    (wide : 8 ≤ segSize) (segments : 1 ≤ size / segSize) (fits : addr + size / segSize * segSize ≤ 2 ^ 64)
    (allocated : heap.Allocated addr (size / segSize * segSize)) (draws : List UInt64) :
    ∃ outcome, ParallelCacheMiss.setupRnd aboveRatio heap addr size segSize draws = some outcome ∧
      ∀ final early unread, outcome = .left final early unread →
        ∃ ring, RingAt final.heap addr segSize ring ∧ (∀ index ∈ ring, index < size / segSize) ∧
          (∀ index < size / segSize, index ∉ ring → final.heap.load64 (place addr segSize index) = some addr) ∧
          ∀ index < size / segSize, ∀ hops, ∃ node < size / segSize,
            chase final.heap hops (place addr segSize index) = some (place addr segSize node) ∧
              (0 < hops → node ∈ ring) := by
  have area : Area addr segSize (size / segSize) addr := area_base wide segments fits
  obtain ⟨cleared, clear, marked⟩ := clearSegments_spec area allocated
  obtain ⟨outcome, run, made⟩ := ring_spec area (ParallelCacheMiss.giveUp aboveRatio (size / segSize)) marked draws
  refine ⟨outcome, ?_, fun final early unread same => ?_⟩
  · simp only [ParallelCacheMiss.setupRnd, clear, Option.bind_eq_bind, Option.bind_some]
    exact run
  · obtain ⟨used, ring, _, made, _⟩ := made final early unread same
    refine ⟨ring, made.round, made.inside, made.free, fun index within hops => ?_⟩
    by_cases member : index ∈ ring
    · obtain ⟨node, inRing, reached⟩ := made.round.chase_from member hops
      exact ⟨node, made.inside node inRing, reached, fun _ => inRing⟩
    · cases hops with
      | zero => exact ⟨index, within, rfl, fun positive => absurd positive (Nat.lt_irrefl 0)⟩
      | succ hops =>
        have first : 0 ∈ ring := (made.members 0).mpr (Or.inl rfl)
        obtain ⟨node, inRing, reached⟩ := made.round.chase_from first hops
        refine ⟨node, made.inside node inRing, ?_, fun _ => inRing⟩
        rw [place_zero] at reached
        rw [chase, made.free index within member]
        exact reached

theorem setupRnd_leavesCycle_three :
    ∃ outcome, ParallelCacheMiss.setupRnd (fun _ _ => false) (Heap.splice Heap.empty 64 (List.replicate 24 7)) 64 24 8
        [0, 0, 2] = some outcome ∧
      ∀ final early unread, outcome = .left final early unread →
        ∃ ring, RingAt final.heap 64 8 ring ∧ (∀ index ∈ ring, index < 3) ∧
          (∀ index < 3, index ∉ ring → final.heap.load64 (place 64 8 index) = some 64) ∧
          ∀ index < 3, ∀ hops, ∃ node < 3,
            chase final.heap hops (place 64 8 index) = some (place 64 8 node) ∧ (0 < hops → node ∈ ring) :=
  setupRnd_leavesCycle (fun _ _ => false) (Heap.splice Heap.empty 64 (List.replicate 24 7)) 64 24 8
    (by decide) (by decide) (by decide) Heap.holds_splice_self.allocated [0, 0, 2]

end Mbench.LatencyRing
