import Mbench.LatencyRing.BaseMarker
import Mbench.LatencyRing.MeasureLoops
import Mbench.LatencyRing.ZeroMarker
import Mathlib.Data.Int.CardIntervalMod
import Mathlib.Data.List.GetD

/-! `measure_rnd_read` of `mem_lat.c` goes round the ring of `setup_rnd` at an even pace. -/

namespace Mbench.LatencyRing
open Library

section
variable {heap : Heap UInt8} {addr segSize : Nat} {ring : List Nat}

def nodeAt (ring : List Nat) (hops : Nat) : Nat := ring.getD (hops % ring.length) 0

def onRing (addr segSize : Nat) (ring : List Nat) (hops : Nat) : Nat := place addr segSize (nodeAt ring hops)

theorem RingAt.positive (round : RingAt heap addr segSize ring) : 0 < ring.length := by
  have start := round.start
  cases ring with
  | nil => cases start
  | cons first rest => exact Nat.succ_pos _

theorem RingAt.chase_onRing (round : RingAt heap addr segSize ring) (hops : Nat) :
    LatencyRing.chase heap hops addr = some (onRing addr segSize ring hops) := by
  have within : hops % ring.length < ring.length := Nat.mod_lt _ round.positive
  rw [round.chase, onRing, nodeAt, List.getD_eq_getElem _ _ within, List.getElem?_eq_getElem within, Option.map_some]

theorem RingAt.load (round : RingAt heap addr segSize ring) (hops : Nat) :
    heap.load64 (onRing addr segSize ring hops) = some (onRing addr segSize ring (hops + 1)) := by
  have next := round.chase_onRing (hops + 1)
  rw [chase_add, round.chase_onRing hops, Option.bind_some] at next
  simpa [LatencyRing.chase] using next

theorem onRing_zero (round : RingAt heap addr segSize ring) : onRing addr segSize ring 0 = addr :=
  Option.some.inj (round.chase_onRing 0).symm

theorem RingAt.rdOnes (round : RingAt heap addr segSize ring) (hops : Nat) :
    forLoop (fun _ => MemLat.rdOne heap) hops { p := addr, visited := [] } =
      some { p := onRing addr segSize ring hops, visited := (List.range hops).map (onRing addr segSize ring) } := by
  induction hops with
  | zero => rw [onRing_zero round]; rfl
  | succ hops ih =>
    rw [forLoop, ih, Option.bind_eq_bind, Option.bind_some, MemLat.rdOne, round.load hops, List.range_succ, List.map_append]
    rfl

theorem RingAt.nodeAt_mem (round : RingAt heap addr segSize ring) (hops : Nat) : nodeAt ring hops ∈ ring := by
  have within : hops % ring.length < ring.length := Nat.mod_lt _ round.positive
  rw [nodeAt, List.getD_eq_getElem _ _ within]
  exact List.getElem_mem within

theorem RingAt.mem_take_iff (round : RingAt heap addr segSize ring) (hops index : Nat) :
    index ∈ ring.take hops ↔ ∃ hop < hops, nodeAt ring hop = index := by
  constructor
  · intro member
    obtain ⟨hop, inside, rfl⟩ := List.getElem_of_mem member
    rw [List.length_take] at inside
    refine ⟨hop, by omega, ?_⟩
    rw [nodeAt, Nat.mod_eq_of_lt (by omega), List.getD_eq_getElem _ _ (by omega), List.getElem_take]
  · rintro ⟨hop, early, rfl⟩
    have within : hop % ring.length < ring.length := Nat.mod_lt _ round.positive
    have first : hop % ring.length ≤ hop := Nat.mod_le _ _
    rw [nodeAt, List.getD_eq_getElem _ _ within]
    exact List.mem_take_iff_getElem.mpr ⟨hop % ring.length, by omega, rfl⟩

theorem onRing_eq_iff (round : RingAt heap addr segSize ring) (wide : 0 < segSize) {position : Nat}
    (within : position < ring.length) (hops : Nat) :
    onRing addr segSize ring hops = place addr segSize ring[position] ↔ hops ≡ position [MOD ring.length] := by
  have inside : hops % ring.length < ring.length := Nat.mod_lt _ round.positive
  rw [onRing, nodeAt, List.getD_eq_getElem _ _ inside, Nat.ModEq, Nat.mod_eq_of_lt within]
  constructor
  · intro same
    exact round.nodup.getElem_inj_iff.mp (Nat.eq_of_mul_eq_mul_right wide (Nat.add_left_cancel same))
  · intro same
    exact congrArg (place addr segSize) (round.nodup.getElem_inj_iff.mpr same)

theorem visits_count (round : RingAt heap addr segSize ring) (wide : 0 < segSize) {position : Nat}
    (within : position < ring.length) (hops : Nat) :
    ((List.range hops).map (onRing addr segSize ring)).count (place addr segSize ring[position]) =
      hops / ring.length + if position < hops % ring.length then 1 else 0 := by
  have counted : ((List.range hops).map (onRing addr segSize ring)).count (place addr segSize ring[position]) =
      hops.count (· ≡ position [MOD ring.length]) := by
    induction hops with
    | zero => rfl
    | succ hops ih =>
      rw [List.range_succ, List.map_append, List.count_append, ih, Nat.count_succ, List.map_singleton, List.count_singleton]
      simp only [beq_iff_eq, onRing_eq_iff round wide within]
  rw [counted, Nat.count_modEq_card hops round.positive, Nat.mod_eq_of_lt within]

/-- What a reader has done after so many hops round a ring. -/
structure ReadsEvenly (heap : Heap UInt8) (addr segSize : Nat) (ring : List Nat) (hops : Nat) (reading : Reading)
    (word : Nat) : Prop where
  made : reading.visited.length = hops
  evenly : ∀ index ∈ ring, reading.visited.count (place addr segSize index) = hops / ring.length ∨
    reading.visited.count (place addr segSize index) = (hops + ring.length - 1) / ring.length
  others : ∀ address ∈ reading.visited, ∃ index ∈ ring, address = place addr segSize index
  reached : LatencyRing.chase heap hops addr = some reading.p
  link : heap.load64 reading.p = some word
  next : LatencyRing.chase heap (hops + 1) addr = some word

theorem RingAt.readsEvenly (round : RingAt heap addr segSize ring) (wide : 0 < segSize) (hops : Nat) :
    ReadsEvenly heap addr segSize ring hops
      { p := onRing addr segSize ring hops, visited := (List.range hops).map (onRing addr segSize ring) }
      (onRing addr segSize ring (hops + 1)) where
  made := by rw [List.length_map, List.length_range]
  evenly := by
    intro index member
    obtain ⟨position, within, rfl⟩ := List.getElem_of_mem member
    have positive := round.positive
    simp only [visits_count round wide within]
    by_cases again : position < hops % ring.length
    · right
      have rounds := Nat.div_add_mod hops ring.length
      have bounded := Nat.mod_lt hops positive
      have upper : hops + ring.length - 1 = hops % ring.length - 1 + (hops / ring.length + 1) * ring.length := by
        have expanded : (hops / ring.length + 1) * ring.length = ring.length * (hops / ring.length) + ring.length := by ring
        omega
      have low : (hops % ring.length - 1) / ring.length = 0 := Nat.div_eq_of_lt (by omega)
      rw [if_pos again, upper, Nat.add_mul_div_right _ _ positive, low, Nat.zero_add]
    · left
      rw [if_neg again, Nat.add_zero]
  others := by
    intro address member
    obtain ⟨hop, _, rfl⟩ := List.mem_map.mp member
    exact ⟨nodeAt ring hop, round.nodeAt_mem hop, rfl⟩
  reached := round.chase_onRing hops
  link := round.load hops
  next := round.chase_onRing (hops + 1)

theorem RingAt.measureRndRead (round : RingAt heap addr segSize ring) (itr1 itr2 : Nat) :
    MemLat.measureRndRead heap addr itr1 itr2 =
      some ({ p := onRing addr segSize ring (wrOnes itr1 itr2),
              visited := (List.range (wrOnes itr1 itr2)).map (onRing addr segSize ring) },
        onRing addr segSize ring (wrOnes itr1 itr2 + 1)) := by
  rw [MemLat.measureRndRead, measureLoops_eq, round.rdOnes, Option.bind_eq_bind, Option.bind_some, round.load]
  rfl

end

theorem hundreds (itr1 itr2 : Nat) : 100 * itr1 * itr2 = wrOnes itr1 itr2 := by
  unfold wrOnes
  ring

theorem setupRnd_ring {aboveRatio : Nat → Nat → Bool} {heap : Heap UInt8} {addr size segSize : Nat} (wide : 8 ≤ segSize)
    (segments : 1 ≤ size / segSize) (fits : addr + size / segSize * segSize ≤ 2 ^ 64)
    (zeroed : heap.Holds addr (List.replicate (size / segSize * segSize) 0)) {draws unread : List UInt64} {setup : Setup}
    {early : Bool} (ran : MemLat.setupRnd aboveRatio heap addr size segSize draws = some (.left setup early unread)) :
    ∃ ring links, RingAt setup.heap addr segSize ring ∧ (∀ index ∈ ring, index < size / segSize) ∧
      setup.heap.Row addr segSize (size / segSize) links := by
  have area := area_zero wide segments fits
  obtain ⟨middle, drawn, closed⟩ := Option.bind_eq_some_iff.mp ran
  obtain ⟨before, heap', rfl, stored, rfl⟩ := makeRing_left closed
  obtain ⟨used, _, ⟨linked, links, last, older, linking⟩, _⟩ := linking_keeps area (Heap.row_of_zeros wide zeroed) drawn
  obtain ⟨heap'', stored', row, ring⟩ := linking.closed area
  have same : heap'' = heap' := Option.some.inj (stored'.symm.trans stored)
  subst same
  have inside : ∀ index ∈ (last :: older).reverse, index < size / segSize := fun index member =>
    linking.inside index (List.mem_reverse.mp member)
  exact ⟨_, _, ringAt_of_ring ring row inside, inside, row⟩

/-- On every ring of `setup_rnd`, `measure_rnd_read` makes its hops, comes to each segment as often as to any other, but
for one visit, and leaves in `*paddr` the segment after the last one it came to. -/
theorem measureRndRead_readsEvenly (aboveRatio : Nat → Nat → Bool) (heap : Heap UInt8) (addr size segSize itr1 itr2 : Nat)
    (wide : 8 ≤ segSize) (segments : 1 ≤ size / segSize) (fits : addr + size / segSize * segSize ≤ 2 ^ 64)
    (zeroed : heap.Holds addr (List.replicate (size / segSize * segSize) 0)) (draws unread : List UInt64) (setup : Setup)
    (early : Bool) (ran : MemLat.setupRnd aboveRatio heap addr size segSize draws = some (.left setup early unread)) :
    ∃ ring, RingAt setup.heap addr segSize ring ∧ (∀ index ∈ ring, index < size / segSize) ∧
      ∃ reading word, MemLat.measureRndRead setup.heap addr itr1 itr2 = some (reading, word) ∧
        ReadsEvenly setup.heap addr segSize ring (100 * itr1 * itr2) reading word := by
  obtain ⟨ring, links, round, inside, _⟩ := setupRnd_ring wide segments fits zeroed ran
  rw [hundreds]
  exact ⟨ring, round, inside, _, _, round.measureRndRead itr1 itr2, round.readsEvenly (by omega) (wrOnes itr1 itr2)⟩

theorem measureRndRead_readsEvenly_three :
    ∃ setup, MemLat.setupRnd (fun _ _ => false) threeSegments 64 24 8 [1, 2, 2] = some (.left setup false []) ∧
      ∃ ring, RingAt setup.heap 64 8 ring ∧ (∀ index ∈ ring, index < 3) ∧
        ∃ reading word, MemLat.measureRndRead setup.heap 64 2 3 = some (reading, word) ∧
          ReadsEvenly setup.heap 64 8 ring 600 reading word :=
  ⟨_, rfl, measureRndRead_readsEvenly (fun _ _ => false) threeSegments 64 24 8 2 3 (by decide) (by decide) (by decide)
    Heap.holds_splice_self [1, 2, 2] [] _ false rfl⟩

end Mbench.LatencyRing
