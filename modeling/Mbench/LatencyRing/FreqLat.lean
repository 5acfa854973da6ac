import Mbench.LatencyRing.ReadWalk

/-! `freqLat.c` links the segments of its area from the highest one down and closes the links behind the lowest one.
The area is the one that `posix_memalign` has given, with whatever it holds; the clocks and the printing are left out. -/

namespace Mbench.LatencyRing
open Library

namespace FreqLat

structure Linking where
  heap : Heap UInt8
  posShadow : UInt64

def linkBelow (stride : UInt64) (linking : Linking) : Option Linking := do
  let heap ← linking.heap.store64 linking.posShadow.toNat (linking.posShadow - stride).toNat
  some { heap, posShadow := linking.posShadow - stride }

def linkSegments (heap : Heap UInt8) (base nBytes stride : UInt64) : Option Linking :=
  if stride = 0 then none
  else do
    let nSegs := nBytes / stride
    let linking ← forLoop (fun _ => linkBelow stride) (nSegs.toNat - 1)
      { heap, posShadow := base + stride * (nSegs - 1) }
    let heap ← linking.heap.store64 linking.posShadow.toNat (base + nBytes - stride).toNat
    some { linking with heap }

/-- `measure_rnd_read`, the loops of which are those of `mem_lat.c`. -/
def measureRndRead (heap : Heap UInt8) (paddr itr1 itr2 : Nat) : Option (Reading × Nat) :=
  MemLat.measureRndRead heap paddr itr1 itr2

def measureRdlatUser (heap : Heap UInt8) (base nBytes stride : UInt64) : Option (Reading × Nat) := do
  let linking ← linkSegments heap base nBytes stride
  measureRndRead linking.heap linking.posShadow.toNat 1000 1000

def admitted (memSizePerThreadInKb : UInt64) : Option UInt64 :=
  if memSizePerThreadInKb < 4 then none else some (memSizePerThreadInKb * 1024)

def main (heap : Heap UInt8) (base memSizePerThreadInKb stride : UInt64) : Option (Option (Reading × Nat)) :=
  match admitted memSizePerThreadInKb with
  | none => some none
  | some nBytes => (measureRdlatUser heap base nBytes stride).map some

/-- The segments from the lowest one on as the links go: the highest one next, and down. -/
def descending (nSegs : Nat) : List Nat := (List.range nSegs).map fun hop => (nSegs - hop) % nSegs

theorem descending_length (nSegs : Nat) : (descending nSegs).length = nSegs := by
  rw [descending, List.length_map, List.length_range]

theorem descending_get (nSegs hop : Nat) (inside : hop < (descending nSegs).length) :
    (descending nSegs)[hop] = (nSegs - hop) % nSegs := by
  simp only [descending, List.getElem_map, List.getElem_range]

theorem descending_succ {nSegs hop : Nat} (inside : hop < nSegs) (later : hop ≠ 0) : (nSegs - hop) % nSegs = nSegs - hop :=
  Nat.mod_eq_of_lt (by omega)

theorem mem_descending {nSegs index : Nat} : index ∈ descending nSegs ↔ index < nSegs := by
  rw [descending, List.mem_map]
  constructor
  · rintro ⟨hop, member, rfl⟩
    rw [List.mem_range] at member
    exact Nat.mod_lt _ (by omega)
  · intro inside
    by_cases lowest : index = 0
    · exact ⟨0, List.mem_range.mpr (by omega), by rw [Nat.sub_zero, Nat.mod_self, lowest]⟩
    · refine ⟨nSegs - index, List.mem_range.mpr (by omega), ?_⟩
      rw [Nat.sub_sub_self (by omega), Nat.mod_eq_of_lt inside]

theorem descending_nodup (nSegs : Nat) : (descending nSegs).Nodup := by
  apply List.Nodup.map_on _ List.nodup_range
  intro first firstIn second secondIn same
  rw [List.mem_range] at firstIn secondIn
  by_cases firstLow : first = 0 <;> by_cases secondLow : second = 0
  · omega
  · rw [descending_succ secondIn secondLow, firstLow, Nat.sub_zero, Nat.mod_self] at same
    omega
  · rw [descending_succ firstIn firstLow, secondLow, Nat.sub_zero, Nat.mod_self] at same
    omega
  · rw [descending_succ firstIn firstLow, descending_succ secondIn secondLow] at same
    omega

structure Admits (heap : Heap UInt8) (base nBytes stride : UInt64) : Prop where
  wide : 8 ≤ stride.toNat
  short : stride.toNat ≤ nBytes.toNat
  fits : base.toNat + nBytes.toNat ≤ 2 ^ 64
  allocated : heap.Allocated base.toNat nBytes.toNat

section
variable {heap : Heap UInt8} {base nBytes stride : UInt64}

theorem Admits.segments (area : Admits heap base nBytes stride) : 0 < nBytes.toNat / stride.toNat :=
  Nat.div_pos area.short (by have := area.wide; omega)

theorem place_inside {index : Nat} (within : index < nBytes.toNat / stride.toNat) :
    place base.toNat stride.toNat index + stride.toNat ≤ base.toNat + nBytes.toNat := by
  have slot : index * stride.toNat + stride.toNat ≤ nBytes.toNat / stride.toNat * stride.toNat := Heap.slot_bounds within
  have covered := Nat.div_mul_le_self nBytes.toNat stride.toNat
  unfold place
  omega

theorem Admits.head (area : Admits heap base nBytes stride) :
    (base + stride * (nBytes / stride - 1)).toNat = place base.toNat stride.toNat (nBytes.toNat / stride.toNat - 1) := by
  have positive := area.segments
  have top : place base.toNat stride.toNat _ + _ ≤ _ := place_inside (Nat.sub_one_lt_of_lt positive)
  have bound := area.fits
  have wide := area.wide
  have one : (1 : UInt64) ≤ nBytes / stride := by
    rw [UInt64.le_iff_toNat_le, UInt64.toNat_div]
    exact positive
  unfold place at top ⊢
  rw [UInt64.toNat_add, UInt64.toNat_mul, UInt64.toNat_sub_of_le _ _ one, UInt64.toNat_div, UInt64.toNat_one,
    Nat.mul_comm stride.toNat, Nat.mod_eq_of_lt (by omega), Nat.mod_eq_of_lt (by omega)]

theorem Admits.closing (area : Admits heap base nBytes stride) :
    (base + nBytes - stride).toNat = base.toNat + (nBytes.toNat - stride.toNat) := by
  have bound := area.fits
  have wide := area.wide
  have short := area.short
  have small := stride.toNat_lt
  rw [UInt64.toNat_sub, UInt64.toNat_add]
  omega

/-- The links so far: those above the segment that is written next go to the one below each. -/
structure LinkedAbove (heap : Heap UInt8) (base nBytes stride : UInt64) (linking : Linking) (index : Nat) : Prop where
  here : linking.posShadow.toNat = place base.toNat stride.toNat index
  row : ∃ words, linking.heap.Row base.toNat stride.toNat (nBytes.toNat / stride.toNat) words ∧
    ∀ above, index ≤ above → above + 1 < nBytes.toNat / stride.toNat → words (above + 1) = place base.toNat stride.toNat above
  frame : ∀ cell, Outside cell base.toNat nBytes.toNat → linking.heap cell = heap cell

theorem Admits.linkBelow (area : Admits heap base nBytes stride) {linking : Linking} {index : Nat}
    (within : index + 1 < nBytes.toNat / stride.toNat) (linked : LinkedAbove heap base nBytes stride linking (index + 1)) :
    ∃ next, FreqLat.linkBelow stride linking = some next ∧ LinkedAbove heap base nBytes stride next index := by
  obtain ⟨here, ⟨words, row, above⟩, frame⟩ := linked
  have lower : (linking.posShadow - stride).toNat = place base.toNat stride.toNat index := by
    have fewer : stride ≤ linking.posShadow := by
      rw [UInt64.le_iff_toNat_le, here, place, Nat.succ_mul]
      omega
    rw [UInt64.toNat_sub_of_le _ _ fewer, here, place, place, Nat.succ_mul]
    omega
  have room : place base.toNat stride.toNat index + _ ≤ _ := place_inside (Nat.lt_of_succ_lt within)
  have bound := area.fits
  have wide := area.wide
  have small : place base.toNat stride.toNat index < 2 ^ 64 := by omega
  obtain ⟨next, stored, row', outside⟩ := row.store64 wide within small
  refine ⟨{ heap := next, posShadow := linking.posShadow - stride }, ?_, lower, ⟨_, row', fun other from_ inside => ?_⟩, ?_⟩
  · rw [FreqLat.linkBelow, here, lower, place, stored]
    rfl
  · by_cases same : other = index
    · rw [same, Function.update_self]
    · rw [Function.update_of_ne (by omega), above other (by omega) inside]
  · intro cell away
    have covered := Nat.div_mul_le_self nBytes.toNat stride.toNat
    calc next cell = linking.heap cell := outside cell (by simp only [Outside] at away ⊢; omega)
      _ = heap cell := frame cell away

/-- What the links are in the end: each segment names the one below, and the lowest one the last `stride` bytes. -/
structure Linked (heap : Heap UInt8) (base nBytes stride : UInt64) (next : Heap UInt8) (words : Nat → Nat) : Prop where
  row : next.Row base.toNat stride.toNat (nBytes.toNat / stride.toNat) words
  lowest : words 0 = base.toNat + (nBytes.toNat - stride.toNat)
  below : ∀ index, index + 1 < nBytes.toNat / stride.toNat → words (index + 1) = place base.toNat stride.toNat index
  frame : ∀ cell, Outside cell base.toNat nBytes.toNat → next cell = heap cell

theorem Admits.linkSegments (area : Admits heap base nBytes stride) :
    ∃ next words, FreqLat.linkSegments heap base nBytes stride = some { heap := next, posShadow := base } ∧
      Linked heap base nBytes stride next words := by
  have positive := area.segments
  have nonzero : stride ≠ 0 := by
    rintro rfl
    exact absurd area.wide (by decide)
  have covered := Nat.div_mul_le_self nBytes.toNat stride.toNat
  obtain ⟨words, row⟩ := (area.allocated.mono covered).row area.wide
  -- after `i` turns the next segment to write is `n_segs - 1 - i`
  obtain ⟨linking, ran, here, ⟨words, row, above⟩, frame⟩ := forLoop_rule (fun _ => FreqLat.linkBelow stride)
    (fun turns linking => LinkedAbove heap base nBytes stride linking (nBytes.toNat / stride.toNat - 1 - turns))
    (nBytes.toNat / stride.toNat - 1) { heap, posShadow := base + stride * (nBytes / stride - 1) }
    ⟨area.head, ⟨words, row, fun other from_ inside => by omega⟩, fun _ _ => rfl⟩
    (fun turns early linking linked => area.linkBelow (by omega) (by
      rwa [show nBytes.toNat / stride.toNat - 1 - turns = nBytes.toNat / stride.toNat - 1 - (turns + 1) + 1 by omega] at linked))
  rw [Nat.sub_self] at here above
  have small : (base + nBytes - stride).toNat < 2 ^ 64 := UInt64.toNat_lt _
  obtain ⟨next, stored, row', outside⟩ := row.store64 area.wide positive small
  have start : linking.posShadow = base := by
    apply UInt64.toNat_inj.mp
    rw [here, place_zero]
  refine ⟨next, _, ?_, row', ?_, fun index inside => ?_, fun cell away => ?_⟩
  · rw [Nat.zero_mul, Nat.add_zero] at stored
    simp only [FreqLat.linkSegments, if_neg nonzero, UInt64.toNat_div, ran, start, stored, Option.bind_eq_bind, Option.bind_some]
  · rw [Function.update_self, area.closing]
  · rw [Function.update_of_ne (by omega), above index (by omega) inside]
  · calc next cell = linking.heap cell := outside cell (by simp only [Outside] at away ⊢; omega)
      _ = heap cell := frame cell away

end

theorem descending_next {nSegs hop : Nat} (inside : hop < nSegs) : (nSegs - (hop + 1) % nSegs) % nSegs = nSegs - 1 - hop := by
  by_cases wraps : hop + 1 = nSegs
  · rw [wraps, Nat.mod_self, Nat.sub_zero, Nat.mod_self]
    omega
  · have next : (hop + 1) % nSegs = hop + 1 := Nat.mod_eq_of_lt (by omega)
    rw [next, Nat.mod_eq_of_lt (by omega)]
    omega

/-- One round of all the segments from the lowest one on, which goes down and closes from the lowest to the highest. -/
structure DescendingRound (heap : Heap UInt8) (base stride nSegs : Nat) : Prop where
  below : ∀ index, index + 1 < nSegs → heap.load64 ↑(place base stride (index + 1)) = some (place base stride index)
  closed : heap.load64 ↑(place base stride 0) = some (place base stride (nSegs - 1))
  round : RingAt heap base stride (descending nSegs)

structure StaysOnSegments (heap : Heap UInt8) (base stride nSegs : Nat) : Prop where
  hops : ∀ hops, ∃ reading, forLoop (fun _ => MemLat.rdOne heap) hops { p := base, visited := [] } = some reading ∧
    ∀ address ∈ reading.visited, ∃ index < nSegs, address = place base stride index
  reads : ∀ itr1 itr2, ∃ reading word, measureRndRead heap base itr1 itr2 = some (reading, word) ∧
    ∀ address ∈ reading.visited ++ [reading.p], ∃ index < nSegs, address = place base stride index

section
variable {heap next : Heap UInt8} {base nBytes stride : UInt64} {words : Nat → Nat}

theorem Linked.lowest_load (linked : Linked heap base nBytes stride next words) (area : Admits heap base nBytes stride) :
    next.load64 base.toNat = some (base.toNat + (nBytes.toNat - stride.toNat)) := by
  have loaded := linked.row.word 0 area.segments
  rwa [Nat.zero_mul, Nat.add_zero, linked.lowest] at loaded

theorem highest_place (fills : stride.toNat ∣ nBytes.toNat) :
    place base.toNat stride.toNat (nBytes.toNat / stride.toNat - 1) = base.toNat + (nBytes.toNat - stride.toNat) := by
  rw [place, Nat.sub_one_mul, Nat.div_mul_cancel fills]

theorem Admits.fills_of_segment (area : Admits heap base nBytes stride) {index : Nat}
    (segment : base.toNat + (nBytes.toNat - stride.toNat) = place base.toNat stride.toNat index) :
    stride.toNat ∣ nBytes.toNat := by
  have short := area.short
  refine ⟨index + 1, ?_⟩
  unfold place at segment
  rw [Nat.mul_succ, Nat.mul_comm]
  omega

theorem Linked.ring (linked : Linked heap base nBytes stride next words) (area : Admits heap base nBytes stride)
    (fills : stride.toNat ∣ nBytes.toNat) :
    Ring (place base.toNat stride.toNat) 0 words (descending (nBytes.toNat / stride.toNat)) where
  nodup := descending_nodup _
  start := by
    have positive := area.segments
    rw [List.head?_eq_getElem?, List.getElem?_eq_getElem (by rwa [descending_length]), descending_get, Nat.sub_zero,
      Nat.mod_self]
  linked := by
    intro hop inside later
    rw [descending_length] at inside
    simp only [descending_get, descending_length, descending_next inside]
    by_cases lowest : hop = 0
    · rw [lowest, Nat.sub_zero, Nat.mod_self, linked.lowest, Nat.sub_zero, highest_place fills]
    · have below := linked.below (nBytes.toNat / stride.toNat - 1 - hop) (by omega)
      rwa [show nBytes.toNat / stride.toNat - 1 - hop + 1 = (nBytes.toNat / stride.toNat - hop) % (nBytes.toNat / stride.toNat) by
        rw [Nat.mod_eq_of_lt (by omega)]; omega] at below

theorem Linked.descendingRound (linked : Linked heap base nBytes stride next words) (area : Admits heap base nBytes stride)
    (fills : stride.toNat ∣ nBytes.toNat) :
    DescendingRound next base.toNat stride.toNat (nBytes.toNat / stride.toNat) where
  below := by
    intro index inside
    have loaded := linked.row.word (index + 1) inside
    rwa [linked.below index inside] at loaded
  closed := by rw [place_zero, linked.lowest_load area, highest_place fills]
  round := ringAt_of_ring (linked.ring area fills) linked.row fun _ => mem_descending.mp

theorem DescendingRound.staysOnSegments {start step nSegs : Nat} (round : DescendingRound next start step nSegs) :
    StaysOnSegments next start step nSegs := by
  have segment (hop : Nat) : ∃ index < nSegs, onRing start step (descending nSegs) hop = place start step index :=
    ⟨_, mem_descending.mp (round.round.nodeAt_mem hop), rfl⟩
  constructor
  · intro hops
    refine ⟨_, round.round.rdOnes hops, fun address member => ?_⟩
    obtain ⟨hop, _, rfl⟩ := List.mem_map.mp member
    exact segment hop
  · intro itr1 itr2
    refine ⟨_, _, round.round.measureRndRead itr1 itr2, fun address member => ?_⟩
    rcases List.mem_append.mp member with earlier | last
    · obtain ⟨hop, _, rfl⟩ := List.mem_map.mp earlier
      exact segment hop
    · rw [List.mem_singleton.mp last]
      exact segment _

theorem Linked.fills_of_stays (linked : Linked heap base nBytes stride next words) (area : Admits heap base nBytes stride)
    (stays : StaysOnSegments next base.toNat stride.toNat (nBytes.toNat / stride.toNat)) : stride.toNat ∣ nBytes.toNat := by
  obtain ⟨reading, ran, segments⟩ := stays.hops 2
  have first : MemLat.rdOne next { p := base.toNat, visited := [] } =
      some { p := base.toNat + (nBytes.toNat - stride.toNat), visited := [base.toNat] } := by
    rw [MemLat.rdOne, linked.lowest_load area]
    rfl
  simp only [forLoop, Option.bind_eq_bind, Option.bind_some, first] at ran
  obtain ⟨word, _, same⟩ := Option.bind_eq_some_iff.mp ran
  have second : base.toNat + (nBytes.toNat - stride.toNat) ∈ reading.visited := by
    rw [← Option.some.inj same]
    exact List.mem_append_right _ (List.mem_singleton.mpr rfl)
  obtain ⟨index, _, segment⟩ := segments _ second
  exact area.fills_of_segment segment

end

/-- `measure_rdlat_user` makes one round of its segments, and its reader stays on them, exactly where the stride divides
the size. -/
theorem linkSegments_descendingRound_iff (heap : Heap UInt8) (base nBytes stride : UInt64) (wide : 8 ≤ stride.toNat)
    (short : stride.toNat ≤ nBytes.toNat) (fits : base.toNat + nBytes.toNat ≤ 2 ^ 64)
    (allocated : heap.Allocated base.toNat nBytes.toNat) :
    ∃ next, linkSegments heap base nBytes stride = some { heap := next, posShadow := base } ∧
      (∀ cell, Outside cell base.toNat nBytes.toNat → next cell = heap cell) ∧
      (DescendingRound next base.toNat stride.toNat (nBytes.toNat / stride.toNat) ↔ stride.toNat ∣ nBytes.toNat) ∧
      (StaysOnSegments next base.toNat stride.toNat (nBytes.toNat / stride.toNat) ↔ stride.toNat ∣ nBytes.toNat) := by
  have area : Admits heap base nBytes stride := ⟨wide, short, fits, allocated⟩
  obtain ⟨next, words, ran, linked⟩ := area.linkSegments
  refine ⟨next, ran, linked.frame, ⟨fun round => ?_, linked.descendingRound area⟩, ⟨linked.fills_of_stays area, fun fills => ?_⟩⟩
  · have closed := round.closed
    rw [place_zero, linked.lowest_load area, Option.some.injEq] at closed
    exact area.fills_of_segment closed
  · exact (linked.descendingRound area fills).staysOnSegments

theorem linkSegments_descendingRound_page :
    ∃ next, linkSegments (fun _ => some 7) 4096 4096 128 = some { heap := next, posShadow := 4096 } ∧
      DescendingRound next 4096 128 32 ∧ StaysOnSegments next 4096 128 32 := by
  obtain ⟨next, ran, _, round, stays⟩ := linkSegments_descendingRound_iff (fun _ => some 7) 4096 4096 128
    (by decide) (by decide) (by decide) fun _ _ => rfl
  exact ⟨next, ran, round.mpr (by decide), stays.mpr (by decide)⟩

/-- `-s 4 -d 96`: the lowest of the 42 segments links to byte 4000 of the area, and the highest one is at 3936. -/
theorem linkSegments_strays :
    admitted 4 = some 4096 ∧ ∃ next, linkSegments (fun _ => some 7) 4096 4096 96 = some { heap := next, posShadow := 4096 } ∧
      next.load64 ↑(place 4096 96 0) = some (4096 + 4000) ∧ place 4096 96 41 = 4096 + 3936 ∧
      ¬ DescendingRound next 4096 96 42 ∧ ¬ StaysOnSegments next 4096 96 42 := by
  have area : Admits (fun _ => some 7) 4096 4096 96 := ⟨by decide, by decide, by decide, fun _ _ => rfl⟩
  obtain ⟨next, words, ran, linked⟩ := area.linkSegments
  have closed : next.load64 ↑(place 4096 96 0) = some (4096 + 4000) := linked.lowest_load area
  refine ⟨rfl, next, ran, closed, rfl, fun round => ?_, fun stays => ?_⟩
  · have highest := round.closed
    rw [closed] at highest
    exact absurd highest (by decide)
  · exact absurd (linked.fills_of_stays area stays) (by decide)

end FreqLat

end Mbench.LatencyRing
