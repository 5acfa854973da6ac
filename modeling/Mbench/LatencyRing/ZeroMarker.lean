import Mbench.LatencyRing.SetupRndSpec

/-! The rings of `mem_lat.c` and `simpleMemLatChecker.c`, which mark a free segment by
the word zero and start from a zeroed area. -/

namespace Mbench.LatencyRing
open Library

theorem area_zero {addr size segSize : Nat} (wide : 8 ≤ segSize) (segments : 1 ≤ size / segSize)
    (fits : addr + size / segSize * segSize ≤ 2 ^ 64) : Area addr segSize (size / segSize) 0 where
  wide := wide
  nonempty := segments
  fits := fits
  marked := by
    intro index later
    have distance : 0 < index * segSize := Nat.mul_pos (Nat.pos_of_ne_zero later) (by omega)
    unfold place
    omega

/-- What is said of a run over some draws: it stays inside the area, and when it returns,
a chase from `addr` goes round a ring of the first segment and the accepted ones. -/
def LeavesRing (addr segSize nSegs : Nat) (accepted : List Nat) (run : Option Outcome) : Prop :=
  ∃ outcome, run = some outcome ∧ ∀ final early unread, outcome = .left final early unread →
    ∃ ring, RingAt final.heap addr segSize ring ∧ (∀ index ∈ ring, index < nSegs) ∧
      (∀ index, index ∈ ring ↔ index = 0 ∨ index ∈ accepted) ∧
      (∀ index < nSegs, index ∉ ring → final.heap.load64 (place addr segSize index) = some 0) ∧
      final.nDone + 1 ≤ 2 * ring.length ∧ ring.length ≤ min nSegs (final.nDone + 1)

theorem leavesRing {addr segSize nSegs : Nat} (area : Area addr segSize nSegs 0) (nonnull : 0 < addr)
    (giveUp : Nat → Bool) {heap : Heap UInt8} (zeroed : heap.Holds addr (List.replicate (nSegs * segSize) 0))
    (draws : List UInt64) :
    LeavesRing addr segSize nSegs (acceptedDraws addr segSize nSegs 0 giveUp (startSetup heap addr) draws) (do
      let outcome ← drawLoop addr segSize nSegs 0 giveUp (startSetup heap addr) draws
      makeRing addr outcome) := by
  obtain ⟨outcome, run, made⟩ := ring_spec area giveUp (Heap.row_of_zeros area.wide zeroed) draws
  refine ⟨outcome, run, fun final early unread same => ?_⟩
  obtain ⟨used, ring, _, made, _⟩ := made final early unread same
  have counted := made.counted (by omega)
  have redraws := (tailRedraws_le (history nSegs used)).1
  have length := made.length
  have room := made.length_le
  exact ⟨ring, made.round, made.inside, made.members, made.free, by omega, le_min room (by omega)⟩

/-- Whatever the draws, `setup_rnd` of `mem_lat.c` and of `simpleMemLatChecker.c` leave a
ring of `addr` and the accepted segments, with the others untouched. -/
theorem setupRnd_leavesRing (aboveRatio : Nat → Nat → Bool) (heap : Heap UInt8) (addr size segSize : Nat)
    (nonnull : 0 < addr) (wide : 8 ≤ segSize) (segments : 1 ≤ size / segSize)
    (fits : addr + size / segSize * segSize ≤ 2 ^ 64)
    (zeroed : heap.Holds addr (List.replicate (size / segSize * segSize) 0)) (draws : List UInt64) :
    LeavesRing addr segSize (size / segSize)
        (acceptedDraws addr segSize (size / segSize) 0 (MemLat.giveUp aboveRatio size (size / segSize))
          (startSetup heap addr) draws)
        (MemLat.setupRnd aboveRatio heap addr size segSize draws) ∧
      LeavesRing addr segSize (size / segSize)
        (acceptedDraws addr segSize (size / segSize) 0 (SimpleMemLatChecker.giveUp aboveRatio (size / segSize))
          (startSetup heap addr) draws)
        (SimpleMemLatChecker.setupRnd aboveRatio heap addr size segSize draws) := by
  have area := area_zero wide segments fits
  exact ⟨leavesRing area nonnull _ zeroed draws, leavesRing area nonnull _ zeroed draws⟩

def threeSegments : Heap UInt8 := Heap.splice Heap.empty 64 (List.replicate 24 0)

theorem setupRnd_leavesRing_three :
    LeavesRing 64 8 3 (acceptedDraws 64 8 3 0 (MemLat.giveUp (fun _ _ => false) 24 3) (startSetup threeSegments 64) [0, 1, 1])
        (MemLat.setupRnd (fun _ _ => false) threeSegments 64 24 8 [0, 1, 1]) ∧
      LeavesRing 64 8 3
        (acceptedDraws 64 8 3 0 (SimpleMemLatChecker.giveUp (fun _ _ => false) 3) (startSetup threeSegments 64) [0, 1, 1])
        (SimpleMemLatChecker.setupRnd (fun _ _ => false) threeSegments 64 24 8 [0, 1, 1]) :=
  setupRnd_leavesRing (fun _ _ => false) threeSegments 64 24 8 (by decide) (by decide) (by decide) (by decide)
    Heap.holds_splice_self [0, 1, 1]

/-! Which draws make the ring complete. -/

def VisitsAll (heap : Heap UInt8) (addr segSize nSegs : Nat) : Prop :=
  ∃ ring, RingAt heap addr segSize ring ∧ ∀ index, index ∈ ring ↔ index < nSegs

theorem RingAt.subset {heap : Heap UInt8} {addr segSize : Nat} {first second : List Nat} (positive : 0 < segSize)
    (ring : RingAt heap addr segSize first) (other : RingAt heap addr segSize second) : first ⊆ second := by
  intro index member
  obtain ⟨hops, within, here⟩ := List.getElem_of_mem member
  have reached := ring.chase hops
  rw [other.chase hops, Nat.mod_eq_of_lt within, List.getElem?_eq_getElem within, here, Option.map_some,
    Option.map_eq_some_iff] at reached
  obtain ⟨node, found, same⟩ := reached
  have equal : node = index := Nat.eq_of_mul_eq_mul_right positive (Nat.add_left_cancel same)
  exact equal ▸ List.mem_of_getElem? found

theorem visitsAll_iff {addr segSize nSegs : Nat} (area : Area addr segSize nSegs 0) (nonnull : 0 < addr)
    {used : List UInt64} {linked : List Nat} {final : Setup} {ring : List Nat}
    (made : RingMade addr segSize nSegs 0 used linked final ring) (finished : final.nDone = nSegs) :
    VisitsAll final.heap addr segSize nSegs ↔ tailRedraws (history nSegs used) ≤ 1 := by
  have counted := made.counted (by omega)
  have atMost := made.length_le
  have wide := area.wide
  have full : (∀ index < nSegs, index ∈ ring) ↔ nSegs ≤ ring.length := by
    constructor
    · intro every
      have subset : List.range nSegs ⊆ ring := fun index member => every index (List.mem_range.mp member)
      simpa using (List.nodup_range.subperm subset).length_le
    · intro long index within
      have subset : ring ⊆ List.range nSegs := fun node member => List.mem_range.mpr (made.inside node member)
      have perm := (made.round.nodup.subperm subset).perm_of_length_le (by simpa using long)
      exact perm.mem_iff.mpr (List.mem_range.mpr within)
  have visits : VisitsAll final.heap addr segSize nSegs ↔ ∀ index < nSegs, index ∈ ring := by
    constructor
    · intro ⟨other, round, every⟩ index within
      exact round.subset (by omega) made.round ((every index).mpr within)
    · intro every
      exact ⟨ring, made.round, fun index => ⟨made.inside index, every index⟩⟩
  rw [visits, full]
  omega

/-- What is said of a run that leaves through the loop condition: its ring is complete
exactly when at most one draw redrew the newest segment. -/
def CompleteIff (addr segSize nSegs : Nat) (draws : List UInt64) (run : Option Outcome) : Prop :=
  ∃ outcome, run = some outcome ∧ ∀ final unread, outcome = .left final false unread →
    ∀ used, draws = used ++ unread →
      (VisitsAll final.heap addr segSize nSegs ↔ tailRedraws (history nSegs used) ≤ 1)

theorem completeIff {addr segSize nSegs : Nat} (area : Area addr segSize nSegs 0) (nonnull : 0 < addr)
    (giveUp : Nat → Bool) {heap : Heap UInt8} (zeroed : heap.Holds addr (List.replicate (nSegs * segSize) 0))
    (draws : List UInt64) :
    CompleteIff addr segSize nSegs draws (do
      let outcome ← drawLoop addr segSize nSegs 0 giveUp (startSetup heap addr) draws
      makeRing addr outcome) := by
  obtain ⟨outcome, run, made⟩ := ring_spec area giveUp (Heap.row_of_zeros area.wide zeroed) draws
  refine ⟨outcome, run, fun final unread same used split => ?_⟩
  obtain ⟨read, ring, consumed, made, finished⟩ := made final false unread same
  have equal : read = used := List.append_cancel_right (consumed.symm.trans split)
  subst equal
  exact visitsAll_iff area nonnull made (finished rfl)

theorem CompleteIff.not_visitsAll {addr segSize nSegs : Nat} {draws : List UInt64} {run : Option Outcome}
    {final : Setup} (complete : CompleteIff addr segSize nSegs draws run) (left : run = some (.left final false []))
    (redrawn : ¬tailRedraws (history nSegs draws) ≤ 1) : ¬VisitsAll final.heap addr segSize nSegs := by
  obtain ⟨outcome, same, iff⟩ := complete
  rw [left, Option.some.injEq] at same
  intro visits
  exact redrawn ((iff final [] same.symm draws (List.append_nil draws).symm).mp visits)

theorem setupRnd_complete_iff (aboveRatio : Nat → Nat → Bool) (heap : Heap UInt8) (addr size segSize : Nat)
    (nonnull : 0 < addr) (wide : 8 ≤ segSize) (segments : 1 ≤ size / segSize)
    (fits : addr + size / segSize * segSize ≤ 2 ^ 64)
    (zeroed : heap.Holds addr (List.replicate (size / segSize * segSize) 0)) (draws : List UInt64) :
    CompleteIff addr segSize (size / segSize) draws (MemLat.setupRnd aboveRatio heap addr size segSize draws) ∧
      CompleteIff addr segSize (size / segSize) draws
        (SimpleMemLatChecker.setupRnd aboveRatio heap addr size segSize draws) := by
  have area := area_zero wide segments fits
  exact ⟨completeIff area nonnull _ zeroed draws, completeIff area nonnull _ zeroed draws⟩

theorem setupRnd_complete_iff_three :
    CompleteIff 64 8 3 [0, 1, 2] (MemLat.setupRnd (fun _ _ => false) threeSegments 64 24 8 [0, 1, 2]) ∧
      CompleteIff 64 8 3 [0, 1, 2] (SimpleMemLatChecker.setupRnd (fun _ _ => false) threeSegments 64 24 8 [0, 1, 2]) :=
  setupRnd_complete_iff (fun _ _ => false) threeSegments 64 24 8 (by decide) (by decide) (by decide) (by decide)
    Heap.holds_splice_self [0, 1, 2]

/-- The first segment drawn, then the second one twice: three draws are accepted, and the
third segment is not on the ring. -/
theorem setupRnd_incomplete :
    (∃ final, MemLat.setupRnd (fun _ _ => false) threeSegments 64 24 8 [0, 1, 1] = some (.left final false []) ∧
      final.nDone = 3 ∧ ¬VisitsAll final.heap 64 8 3) ∧
    ∃ final, SimpleMemLatChecker.setupRnd (fun _ _ => false) threeSegments 64 24 8 [0, 1, 1] =
      some (.left final false []) ∧ final.nDone = 3 ∧ ¬VisitsAll final.heap 64 8 3 := by
  have area : Area 64 8 (24 / 8) 0 := area_zero (by decide) (by decide) (by decide)
  have zeroed : threeSegments.Holds 64 (List.replicate (24 / 8 * 8) 0) := Heap.holds_splice_self
  have complete (giveUp : Nat → Bool) := completeIff area (by decide) giveUp zeroed [0, 1, 1]
  constructor
  · exact ⟨_, rfl, rfl, (complete (MemLat.giveUp (fun _ _ => false) 24 3)).not_visitsAll rfl (by decide)⟩
  · exact ⟨_, rfl, rfl, (complete (SimpleMemLatChecker.giveUp (fun _ _ => false) 3)).not_visitsAll rfl (by decide)⟩

end Mbench.LatencyRing
