import Mbench.LatencyRing.ReadWalk

/-! `measure_rnd_fill` of `mem_lat.c` stores into the second word of every segment that it comes to. With less than two
words to a segment the store ends in the link of the next segment, or behind the area. -/

namespace Mbench.LatencyRing
open Library

/-- What is asked of `measure_rnd_fill` on a ring: it follows the ring, stores inside the area only, and leaves every
link as it was. -/
def FillPreserves (heap : Heap UInt8) (addr segSize nSegs : Nat) (ring : List Nat) (itr1 itr2 : Nat) : Prop :=
  ∃ filling, MemLat.fillRecorded heap addr itr1 itr2 = some filling ∧
    filling.visited = (List.range (100 * itr1 * itr2)).map (onRing addr segSize ring) ∧
    filling.q = onRing addr segSize ring (100 * itr1 * itr2) ∧
    (∀ q ∈ filling.visited, addr ≤ q + 8 ∧ q + 16 ≤ addr + nSegs * segSize) ∧
    ∀ index < nSegs, filling.heap.load64 (place addr segSize index) = heap.load64 (place addr segSize index)

/-- The store of `q[1]` at a segment of less than 16 bytes stays in the area, and the bytes of the next link that it
covers are already those of the stored word 1: the link is 1 where it covers all of it, and ends in zeros otherwise. -/
def Harmless (heap : Heap UInt8) (addr segSize nSegs index : Nat) : Prop :=
  index + 1 < nSegs ∧ ∃ word, heap.load64 (place addr segSize (index + 1)) = some word ∧
    word % 256 ^ (16 - segSize) = if segSize = 8 then 1 else 0

section
variable {heap : Heap UInt8} {addr segSize nSegs : Nat} {ring : List Nat} {links : Nat → Nat}

def overwritten (segSize : Nat) (links : Nat → Nat) (nodes : List Nat) (index : Nat) : Nat :=
  if 0 < index ∧ index - 1 ∈ nodes then overwriteLow (segSize - 8) 1 (links index) else links index

theorem overwritten_concat (narrow : segSize < 16) (nodes : List Nat) (node : Nat) :
    Function.update (overwritten segSize links nodes) (node + 1)
        (overwriteLow (segSize - 8) 1 (overwritten segSize links nodes (node + 1))) =
      overwritten segSize links (nodes ++ [node]) := by
  funext index
  by_cases same : index = node + 1
  · subst same
    have new : 0 < node + 1 ∧ node + 1 - 1 ∈ nodes ++ [node] := by simp
    rw [Function.update_self, overwritten, overwritten, if_pos new]
    by_cases before : 0 < node + 1 ∧ node + 1 - 1 ∈ nodes
    · rw [if_pos before, overwriteLow_idem (by decide) (by omega)]
    · rw [if_neg before]
  · have member : 0 < index ∧ index - 1 ∈ nodes ++ [node] ↔ 0 < index ∧ index - 1 ∈ nodes := by
      rw [List.mem_append, List.mem_singleton]
      refine and_congr_right fun positive => or_iff_left ?_
      omega
    rw [Function.update_of_ne same, overwritten, overwritten]
    simp only [member]

theorem one_high (wide : 8 ≤ segSize) : 1 / 256 ^ (segSize - 8) = if segSize = 8 then 1 else 0 := by
  by_cases eight : segSize = 8
  · rw [if_pos eight, eight]
    rfl
  · have big : 1 < 256 ^ (segSize - 8) := Nat.one_lt_pow (by omega) (by decide)
    rw [if_neg eight, Nat.div_eq_of_lt big]

theorem harmless_iff (row : heap.Row addr segSize nSegs links) (wide : 8 ≤ segSize) (narrow : segSize < 16) {index : Nat} :
    Harmless heap addr segSize nSegs index ↔
      index + 1 < nSegs ∧ overwriteLow (segSize - 8) 1 (links (index + 1)) = links (index + 1) := by
  unfold Harmless
  rw [overwriteLow_eq_iff, one_high wide, show 8 - (segSize - 8) = 16 - segSize by omega]
  refine and_congr_right fun inside => ?_
  have loaded : heap.load64 (place addr segSize (index + 1)) = some (links (index + 1)) := row.word (index + 1) inside
  rw [loaded]
  simp only [Option.some.injEq, exists_eq_left']

theorem wrOne_harmless (row : heap.Row addr segSize nSegs links) (wide : 8 ≤ segSize) {index : Nat} (inside : index < nSegs)
    (harmless : segSize < 16 → index + 1 < nSegs ∧ overwriteLow (segSize - 8) 1 (links (index + 1)) = links (index + 1))
    (visited : List Nat) :
    ∃ next, MemLat.wrOne { heap, q := place addr segSize index, visited } =
        some { heap := next, q := links index, visited := visited ++ [place addr segSize index] } ∧
      next.Row addr segSize nSegs links := by
  have stores : ∃ next, heap.store64 ↑(place addr segSize index + 8) 1 = some next ∧ next.Row addr segSize nSegs links := by
    by_cases narrow : segSize < 16
    · obtain ⟨successor, fixed⟩ := harmless narrow
      obtain ⟨next, stored, kept⟩ := row.store64_across wide narrow successor (show 1 < 2 ^ 64 by decide)
      rw [fixed, Function.update_eq_self] at kept
      exact ⟨next, stored, kept⟩
    · exact row.store64_beside (by omega) inside (by decide)
  obtain ⟨next, stored, kept⟩ := stores
  refine ⟨next, ?_, kept⟩
  have loaded : next.load64 (place addr segSize index) = some (links index) := kept.word index inside
  simp only [MemLat.wrOne, stored, loaded, Option.bind_eq_bind, Option.bind_some]

theorem wrOne_across (row : heap.Row addr segSize nSegs links) (wide : 8 ≤ segSize) (narrow : segSize < 16) {index : Nat}
    (inside : index + 1 < nSegs) {visited : List Nat} {filling : Filling}
    (ran : MemLat.wrOne { heap, q := place addr segSize index, visited } = some filling) :
    filling.heap.Row addr segSize nSegs
      (Function.update links (index + 1) (overwriteLow (segSize - 8) 1 (links (index + 1)))) := by
  obtain ⟨next, stored, kept⟩ := row.store64_across wide narrow inside (show 1 < 2 ^ 64 by decide)
  obtain ⟨heap', stored', ran⟩ := Option.bind_eq_some_iff.mp ran
  obtain ⟨q, _, same⟩ := Option.bind_eq_some_iff.mp ran
  have equal : heap' = next := Option.some.inj (stored'.symm.trans stored)
  cases same
  rwa [equal]

theorem links_nodeAt (round : RingAt heap addr segSize ring) (row : heap.Row addr segSize nSegs links)
    (inside : ∀ index ∈ ring, index < nSegs) (hops : Nat) :
    links (nodeAt ring hops) = onRing addr segSize ring (hops + 1) := by
  have loaded : heap.load64 (onRing addr segSize ring hops) = some (links (nodeAt ring hops)) :=
    row.word (nodeAt ring hops) (inside _ (round.nodeAt_mem hops))
  exact Option.some.inj (loaded.symm.trans (round.load hops))

theorem wrOnes_harmless (round : RingAt heap addr segSize ring) (row : heap.Row addr segSize nSegs links)
    (inside : ∀ index ∈ ring, index < nSegs) (wide : 8 ≤ segSize) (hops : Nat)
    (harmless : segSize < 16 → ∀ hop < hops, Harmless heap addr segSize nSegs (nodeAt ring hop)) :
    ∃ final, forLoop (fun _ => MemLat.wrOne) hops { heap, q := addr, visited := [] } =
        some { heap := final, q := onRing addr segSize ring hops,
               visited := (List.range hops).map (onRing addr segSize ring) } ∧
      final.Row addr segSize nSegs links := by
  induction hops with
  | zero =>
    rw [onRing_zero round]
    exact ⟨heap, rfl, row⟩
  | succ hops ih =>
    obtain ⟨middle, ran, kept⟩ := ih fun narrow hop early => harmless narrow hop (by omega)
    obtain ⟨final, last, kept⟩ := wrOne_harmless kept wide (inside _ (round.nodeAt_mem hops))
      (fun narrow => (harmless_iff row wide narrow).mp (harmless narrow hops (Nat.lt_succ_self hops)))
      ((List.range hops).map (onRing addr segSize ring))
    rw [links_nodeAt round row inside] at last
    refine ⟨final, ?_, kept⟩
    rw [forLoop, ran, Option.bind_eq_bind, Option.bind_some, List.range_succ, List.map_append]
    exact last

theorem wrOnes_overwritten (row : heap.Row addr segSize nSegs links) (wide : 8 ≤ segSize) (narrow : segSize < 16)
    (node : Nat → Nat) (hops : Nat) (inside : ∀ hop < hops, node hop + 1 < nSegs) {filling : Filling}
    (ran : forLoop (fun _ => MemLat.wrOne) hops { heap, q := addr, visited := [] } = some filling)
    (visited : filling.visited = (List.range hops).map fun hop => place addr segSize (node hop)) :
    filling.heap.Row addr segSize nSegs (overwritten segSize links ((List.range hops).map node)) := by
  induction hops generalizing filling with
  | zero =>
    cases ran
    exact row.congr fun index _ => if_neg (by simp)
  | succ hops ih =>
    obtain ⟨middle, earlier, last⟩ := Option.bind_eq_some_iff.mp ran
    have recorded : filling.visited = middle.visited ++ [middle.q] := by
      obtain ⟨_, _, rest⟩ := Option.bind_eq_some_iff.mp last
      obtain ⟨_, _, same⟩ := Option.bind_eq_some_iff.mp rest
      cases same
      rfl
    rw [recorded, List.range_succ, List.map_append] at visited
    obtain ⟨before, here⟩ := List.append_inj' visited rfl
    have there : middle.q = place addr segSize (node hops) := List.singleton_inj.mp here
    have stands : middle = { heap := middle.heap, q := place addr segSize (node hops), visited := middle.visited } := by
      rw [← there]
    rw [stands] at last
    have next := wrOne_across (ih (fun hop early => inside hop (by omega)) earlier before) wide narrow
      (inside hops (Nat.lt_succ_self hops)) last
    rw [overwritten_concat narrow] at next
    rwa [List.range_succ, List.map_append]

theorem fillPreserves_of_harmless (round : RingAt heap addr segSize ring) (row : heap.Row addr segSize nSegs links)
    (inside : ∀ index ∈ ring, index < nSegs) (wide : 8 ≤ segSize) (itr1 itr2 : Nat)
    (harmless : segSize < 16 → ∀ hop < wrOnes itr1 itr2, Harmless heap addr segSize nSegs (nodeAt ring hop)) :
    FillPreserves heap addr segSize nSegs ring itr1 itr2 := by
  obtain ⟨final, ran, kept⟩ := wrOnes_harmless round row inside wide (wrOnes itr1 itr2) harmless
  rw [FillPreserves, hundreds, MemLat.fillRecorded, measureLoops_eq]
  refine ⟨_, ran, rfl, rfl, fun q member => ?_, fun index within => ?_⟩
  · obtain ⟨hop, early, rfl⟩ := List.mem_map.mp member
    have room : nodeAt ring hop * segSize + segSize ≤ nSegs * segSize := Heap.slot_bounds (inside _ (round.nodeAt_mem hop))
    unfold onRing place
    by_cases narrow : segSize < 16
    · have successor := (harmless narrow hop (List.mem_range.mp early)).1
      have further : (nodeAt ring hop + 1) * segSize + segSize ≤ nSegs * segSize := Heap.slot_bounds successor
      rw [Nat.succ_mul] at further
      omega
    · omega
  · exact (kept.word index within).trans (row.word index within).symm

theorem harmless_of_fillPreserves (row : heap.Row addr segSize nSegs links) (wide : 8 ≤ segSize) {itr1 itr2 : Nat}
    (preserves : FillPreserves heap addr segSize nSegs ring itr1 itr2) (narrow : segSize < 16) (hop : Nat)
    (early : hop < wrOnes itr1 itr2) : Harmless heap addr segSize nSegs (nodeAt ring hop) := by
  rw [FillPreserves, hundreds, MemLat.fillRecorded, measureLoops_eq] at preserves
  obtain ⟨filling, ran, visited, _, stores, same⟩ := preserves
  have successors : ∀ hop < wrOnes itr1 itr2, nodeAt ring hop + 1 < nSegs := by
    intro hop early
    have member : onRing addr segSize ring hop ∈ filling.visited := by
      rw [visited]
      exact List.mem_map.mpr ⟨hop, List.mem_range.mpr early, rfl⟩
    have upper := (stores _ member).2
    unfold onRing place at upper
    have beyond : (nodeAt ring hop + 1) * segSize < nSegs * segSize := by
      rw [Nat.succ_mul]
      omega
    exact Nat.lt_of_mul_lt_mul_right beyond
  have kept := wrOnes_overwritten row wide narrow (nodeAt ring) (wrOnes itr1 itr2) successors ran visited
  refine (harmless_iff row wide narrow).mpr ⟨successors hop early, ?_⟩
  have touched : 0 < nodeAt ring hop + 1 ∧
      nodeAt ring hop + 1 - 1 ∈ (List.range (wrOnes itr1 itr2)).map (nodeAt ring) :=
    ⟨Nat.succ_pos _, List.mem_map.mpr ⟨hop, List.mem_range.mpr early, rfl⟩⟩
  have after := kept.word (nodeAt ring hop + 1) (successors hop early)
  rw [overwritten, if_pos touched] at after
  have before := (same (nodeAt ring hop + 1) (successors hop early)).trans (row.word _ (successors hop early))
  exact Option.some.inj (after.symm.trans before)

end

theorem not_fillPreserves {heap : Heap UInt8} {addr segSize nSegs itr1 itr2 : Nat} {ring : List Nat}
    (undefined : MemLat.measureRndFill heap addr itr1 itr2 = none) :
    ¬FillPreserves heap addr segSize nSegs ring itr1 itr2 := by
  rintro ⟨filling, ran, _⟩
  have erased := fillRecorded_erased heap addr itr1 itr2
  rw [ran, undefined] at erased
  cases erased

/-- On every ring of `setup_rnd`, `measure_rnd_fill` follows the ring and leaves it as it was, exactly if there are two
words to a segment or no segment that it comes to harms the next one. -/
theorem measureRndFill_preserves_iff (aboveRatio : Nat → Nat → Bool) (heap : Heap UInt8) (addr size segSize itr1 itr2 : Nat)
    (wide : 8 ≤ segSize) (segments : 1 ≤ size / segSize) (fits : addr + size / segSize * segSize ≤ 2 ^ 64)
    (zeroed : heap.Holds addr (List.replicate (size / segSize * segSize) 0)) (draws unread : List UInt64) (setup : Setup)
    (early : Bool) (ran : MemLat.setupRnd aboveRatio heap addr size segSize draws = some (.left setup early unread)) :
    ∃ ring, RingAt setup.heap addr segSize ring ∧ (∀ index ∈ ring, index < size / segSize) ∧
      (FillPreserves setup.heap addr segSize (size / segSize) ring itr1 itr2 ↔
        16 ≤ segSize ∨ ∀ index ∈ ring.take (100 * itr1 * itr2), Harmless setup.heap addr segSize (size / segSize) index) := by
  obtain ⟨ring, links, round, inside, row⟩ := setupRnd_ring wide segments fits zeroed ran
  refine ⟨ring, round, inside, ?_⟩
  rw [hundreds]
  constructor
  · intro preserves
    by_cases broad : 16 ≤ segSize
    · exact Or.inl broad
    · right
      intro index member
      obtain ⟨hop, soon, rfl⟩ := (round.mem_take_iff _ _).mp member
      exact harmless_of_fillPreserves row wide preserves (by omega) hop soon
  · intro condition
    apply fillPreserves_of_harmless round row inside wide
    intro narrow hop soon
    rcases condition with broad | harmless
    · omega
    · exact harmless _ ((round.mem_take_iff _ _).mpr ⟨hop, soon, rfl⟩)

theorem measureRndFill_preserves_iff_three :
    ∃ setup, MemLat.setupRnd (fun _ _ => false) threeSegments 64 24 8 [1, 2, 2] = some (.left setup false []) ∧
      ∃ ring, RingAt setup.heap 64 8 ring ∧ (∀ index ∈ ring, index < 3) ∧
        (FillPreserves setup.heap 64 8 3 ring 1 1 ↔
          16 ≤ 8 ∨ ∀ index ∈ ring.take (100 * 1 * 1), Harmless setup.heap 64 8 3 index) :=
  ⟨_, rfl, measureRndFill_preserves_iff (fun _ _ => false) threeSegments 64 24 8 1 1 (by decide) (by decide) (by decide)
    Heap.holds_splice_self [1, 2, 2] [] _ false rfl⟩

/-- Three segments of one word: the first store makes the second link 1, and the second hop goes there. -/
theorem measureRndFill_breaks :
    ∃ setup, MemLat.setupRnd (fun _ _ => false) threeSegments 64 24 8 [1, 2, 2] = some (.left setup false []) ∧
      MemLat.measureRndFill setup.heap 64 1 1 = none ∧ ∀ ring, ¬FillPreserves setup.heap 64 8 3 ring 1 1 := by
  exact ⟨_, rfl, rfl, fun ring => not_fillPreserves rfl⟩

end Mbench.LatencyRing
