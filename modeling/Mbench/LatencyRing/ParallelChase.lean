import Mbench.LatencyRing.BaseCount
import Mathlib.Data.List.GetD
import Mathlib.Data.Nat.ModEq

/-! The pointers of `measure_rnd_read` in `ParallelCacheMiss.c`, which start at the first
segments and take their hops together. A start that is not on the ring comes to the first
segment with its first hop, so from then on it is where a pointer from the last segment of
the ring would be. -/

namespace Mbench.LatencyRing
open Library

def ParallelCacheMiss.rdOne (heap : Heap UInt8) (pointers : List Nat) : Option (List Nat) :=
  pointers.mapM fun p : Nat => heap.load64 p

def ParallelCacheMiss.measureRndRead (heap : Heap UInt8) (paddr stride prl : Nat) : Nat → Option (List Nat)
  | 0 => some ((List.range prl).map (place paddr stride))
  | hops + 1 => do
      let pointers ← ParallelCacheMiss.measureRndRead heap paddr stride prl hops
      ParallelCacheMiss.rdOne heap pointers

/-- After any number of hops the pointers are at different segments. -/
def NeverCoincide (heap : Heap UInt8) (addr segSize nSegs prl : Nat) : Prop :=
  ∀ hops, ∃ segments : List Nat,
    ParallelCacheMiss.measureRndRead heap addr segSize prl hops = some (segments.map (place addr segSize)) ∧
      (∀ index ∈ segments, index < nSegs) ∧ segments.Nodup

/-- Whether the starts stay apart: at most one is never drawn, and if there is one, the
segment that was the last to be drawn for the first time is not another start. -/
def StartsApart (prl nSegs : Nat) (used : List UInt64) : Prop :=
  ∀ first < prl, first ∉ history nSegs used → ∀ second < prl, second ≠ first →
    second ∈ history nSegs used ∧ (history nSegs used).dedup.head? ≠ some second

section
variable {heap : Heap UInt8} {addr segSize nSegs prl : Nat} {ring : List Nat} {index : Nat}

theorem measureRndRead_eq (node : Nat → Nat → Nat)
    (chased : ∀ hops, ∀ index < prl, chase heap hops (place addr segSize index) = some (place addr segSize (node hops index)))
    (hops : Nat) :
    ParallelCacheMiss.measureRndRead heap addr segSize prl hops =
      some (((List.range prl).map (node hops)).map (place addr segSize)) := by
  induction hops with
  | zero =>
    rw [ParallelCacheMiss.measureRndRead, List.map_map]
    refine congrArg some (List.map_congr_left fun index member => ?_)
    exact Option.some.inj (chased 0 index (List.mem_range.mp member))
  | succ hops ih =>
    rw [ParallelCacheMiss.measureRndRead, ih, Option.bind_eq_bind, Option.bind_some, ParallelCacheMiss.rdOne, List.map_map,
      List.mapM_map, List.map_map]
    refine mapM_eq_map _ _ _ fun index member => ?_
    have inside := List.mem_range.mp member
    have next := chased (hops + 1) index inside
    rw [chase_add, chased hops index inside, Option.bind_some] at next
    simpa [chase] using next

theorem RingAt.chase_at (round : RingAt heap addr segSize ring) (hops : Nat) {start : Nat} (within : start < ring.length)
    (there : (start + hops) % ring.length < ring.length) :
    LatencyRing.chase heap hops (place addr segSize ring[start]) =
      some (place addr segSize ring[(start + hops) % ring.length]) := by
  have reached := round.chase start
  rw [Nat.mod_eq_of_lt within, List.getElem?_eq_getElem within, Option.map_some] at reached
  have later := round.chase (start + hops)
  rwa [chase_add, reached, Option.bind_some, List.getElem?_eq_getElem there, Option.map_some] at later

/-- The position on the ring from which a pointer started at a segment seems to come. -/
def entry (ring : List Nat) (index : Nat) : Nat := if index ∈ ring then ring.idxOf index else ring.length - 1

def reached (ring : List Nat) (hops index : Nat) : Nat :=
  if hops = 0 then index else ring.getD ((entry ring index + hops) % ring.length) 0

theorem entry_lt (nonempty : 0 < ring.length) (index : Nat) : entry ring index < ring.length := by
  unfold entry
  split
  next member => exact List.idxOf_lt_length_of_mem member
  next _ => omega

theorem getD_mem (within : index < ring.length) : ring.getD index 0 ∈ ring := by
  rw [List.getD_eq_getElem _ _ within]
  exact List.getElem_mem within

variable {used : List UInt64} {linked : List Nat} {final : Setup}

theorem RingMade.positive (made : RingMade addr segSize nSegs addr used linked final ring) : 0 < ring.length :=
  List.length_pos_of_mem ((made.members 0).mpr (Or.inl rfl))

theorem RingMade.chased (made : RingMade addr segSize nSegs addr used linked final ring) (hops : Nat) {index : Nat}
    (inside : index < nSegs) :
    chase final.heap hops (place addr segSize index) = some (place addr segSize (reached ring hops index)) := by
  have nonempty := made.positive
  cases hops with
  | zero => rfl
  | succ hops =>
    have there : (entry ring index + (hops + 1)) % ring.length < ring.length := Nat.mod_lt _ nonempty
    rw [reached, if_neg (Nat.succ_ne_zero hops), List.getD_eq_getElem _ _ there]
    by_cases member : index ∈ ring
    · have here : entry ring index = ring.idxOf index := if_pos member
      have within := List.idxOf_lt_length_of_mem member
      have start := made.round.chase_at (hops + 1) within (Nat.mod_lt _ nonempty)
      rw [List.getElem_idxOf within] at start
      simp only [here]
      exact start
    · have here : entry ring index = ring.length - 1 := if_neg member
      have around : (entry ring index + (hops + 1)) % ring.length = hops % ring.length := by
        rw [here, show ring.length - 1 + (hops + 1) = hops + ring.length by omega, Nat.add_mod_right]
      have again := made.round.chase hops
      rw [List.getElem?_eq_getElem (Nat.mod_lt _ nonempty), Option.map_some] at again
      rw [chase, made.free index inside member, Option.bind_eq_bind, Option.bind_some, again]
      simp only [around]

theorem RingMade.neverCoincide_iff (made : RingMade addr segSize nSegs addr used linked final ring)
    (wide : 0 < segSize) (fewer : prl ≤ nSegs) :
    NeverCoincide final.heap addr segSize nSegs prl ↔
      ∀ first < prl, ∀ second < prl, entry ring first = entry ring second → first = second := by
  have pointers := measureRndRead_eq (reached ring) fun hops index small => made.chased hops (small.trans_le fewer)
  have nonempty := made.positive
  constructor
  · intro never first firstInside second secondInside same
    obtain ⟨segments, ran, _, nodup⟩ := never 1
    have positions : segments = (List.range prl).map (reached ring 1) := by
      rw [pointers 1, Option.some.injEq] at ran
      refine (List.map_injective_iff.mpr (fun one other equal => ?_) ran).symm
      exact Nat.eq_of_mul_eq_mul_right wide (Nat.add_left_cancel equal)
    rw [positions] at nodup
    refine List.inj_on_of_nodup_map nodup (List.mem_range.mpr firstInside) (List.mem_range.mpr secondInside) ?_
    simp only [reached, same, Nat.one_ne_zero, if_false]
  · intro apart hops
    refine ⟨(List.range prl).map (reached ring hops), pointers hops, fun index member => ?_,
      List.nodup_range.map_on fun first firstIn second secondIn same => ?_⟩
    · obtain ⟨start, small, rfl⟩ := List.mem_map.mp member
      unfold reached
      split
      next _ => exact (List.mem_range.mp small).trans_le fewer
      next _ => exact made.inside _ (getD_mem (Nat.mod_lt _ nonempty))
    · unfold reached at same
      by_cases none : hops = 0
      · rwa [if_pos none, if_pos none] at same
      · rw [if_neg none, if_neg none, List.getD_eq_getElem _ _ (Nat.mod_lt _ nonempty),
          List.getD_eq_getElem _ _ (Nat.mod_lt _ nonempty), made.round.nodup.getElem_inj_iff] at same
        have entries := Nat.ModEq.add_right_cancel' hops same
        rw [Nat.ModEq, Nat.mod_eq_of_lt (entry_lt nonempty first), Nat.mod_eq_of_lt (entry_lt nonempty second)] at entries
        exact apart first (List.mem_range.mp firstIn) second (List.mem_range.mp secondIn) entries

theorem idxOf_last_iff (nodup : ring.Nodup) (member : index ∈ ring) :
    ring.idxOf index = ring.length - 1 ↔ ring.getLast? = some index := by
  have within := List.idxOf_lt_length_of_mem member
  have lastIn : ring.length - 1 < ring.length := by omega
  rw [List.getLast?_eq_getElem?, List.getElem?_eq_getElem lastIn, Option.some.injEq]
  constructor
  · intro same
    simp only [← same, List.getElem_idxOf within]
  · intro last
    rw [← last, nodup.idxOf_getElem]

/-- Two starts seem to come from one position when neither is on the ring, or one is not and
the other is last on it. -/
theorem entries_apart_iff (nodup : ring.Nodup) :
    (∀ first < prl, ∀ second < prl, entry ring first = entry ring second → first = second) ↔
      ∀ first < prl, first ∉ ring → ∀ second < prl, second ≠ first → second ∈ ring ∧ ring.getLast? ≠ some second := by
  have onRing {index : Nat} (member : index ∈ ring) : entry ring index = ring.idxOf index := if_pos member
  have offRing {index : Nat} (absent : index ∉ ring) : entry ring index = ring.length - 1 := if_neg absent
  constructor
  · intro apart first firstIn absent second secondIn other
    by_cases member : second ∈ ring
    · refine ⟨member, fun last => other (apart second secondIn first firstIn ?_)⟩
      rw [onRing member, offRing absent, idxOf_last_iff nodup member]
      exact last
    · refine absurd (apart second secondIn first firstIn ?_) other
      rw [offRing member, offRing absent]
  · intro apart first firstIn second secondIn same
    by_contra different
    by_cases firstOn : first ∈ ring
    · by_cases secondOn : second ∈ ring
      · rw [onRing firstOn, onRing secondOn] at same
        exact different ((List.idxOf_inj firstOn).mp same)
      · rw [onRing firstOn, offRing secondOn, idxOf_last_iff nodup firstOn] at same
        exact (apart second secondIn secondOn first firstIn different).2 same
    · obtain ⟨secondOn, notLast⟩ := apart first firstIn firstOn second secondIn (Ne.symm different)
      rw [offRing firstOn, onRing secondOn, eq_comm, idxOf_last_iff nodup secondOn] at same
      exact notLast same

end

/-- The pointers of `measure_rnd_read` never coincide, whatever the number of hops, exactly
when the draws that the set-up used keep the starts apart. -/
theorem neverCoincide_iff (aboveRatio : Nat → Nat → Bool) {heap : Heap UInt8} {addr size segSize prl : Nat}
    (wide : 8 ≤ segSize) (segments : 1 ≤ size / segSize) (starts : prl ≤ size / segSize)
    (fits : addr + size / segSize * segSize ≤ 2 ^ 64) (allocated : heap.Allocated addr (size / segSize * segSize))
    {used unread : List UInt64} {final : Setup} {early : Bool}
    (run : ParallelCacheMiss.setupRnd aboveRatio heap addr size segSize (used ++ unread) =
      some (.left final early unread)) :
    NeverCoincide final.heap addr segSize (size / segSize) prl ↔ StartsApart prl (size / segSize) used := by
  have area : Area addr segSize (size / segSize) addr := area_base wide segments fits
  obtain ⟨cleared, marked, cleared_run⟩ := setupRnd_cleared area allocated
  rw [cleared_run] at run
  obtain ⟨read, linked, split, made, _⟩ := base_leaves area _ marked run
  rw [List.append_cancel_right split, made.neverCoincide_iff (by omega) starts, entries_apart_iff made.round.nodup]
  simp only [List.mem_reverse, List.mem_dedup, List.getLast?_reverse, StartsApart]

theorem firstOnly_run (aboveRatio : Nat → Nat → Bool) {heap : Heap UInt8} {addr size segSize : Nat} (wide : 8 ≤ segSize)
    (segments : 1 ≤ size / segSize) (fits : addr + size / segSize * segSize ≤ 2 ^ 64)
    (allocated : heap.Allocated addr (size / segSize * segSize)) (few : size / segSize ≤ 10000) :
    ∃ final, ParallelCacheMiss.setupRnd aboveRatio heap addr size segSize (List.replicate (size / segSize) 0 ++ []) =
      some (.left final false []) := by
  have area : Area addr segSize (size / segSize) addr := area_base wide segments fits
  obtain ⟨cleared, marked, cleared_run⟩ := setupRnd_cleared area allocated
  obtain ⟨outcome, run, _⟩ := ring_spec area (ParallelCacheMiss.giveUp aboveRatio (size / segSize)) marked
    (List.replicate (size / segSize) 0)
  obtain ⟨middle, ran, closed⟩ := Option.bind_eq_some_iff.mp run
  have kept := base_keeps area _ marked ran
  have counts := drawLoop_atMost rfl area.nonempty ran
  rw [List.append_nil, cleared_run, run]
  cases middle with
  | waiting setup =>
    obtain ⟨⟨linked, links, last, older, linking⟩, more⟩ := kept
    have every : ∀ rnd ∈ List.replicate (size / segSize) (0 : UInt64), segment (size / segSize) rnd = 0 := by
      intro rnd member
      rw [List.eq_of_mem_replicate member]
      exact Nat.zero_mod _
    have counted := linking.baseCounted
    have all := leadingFirst_all every
    have count := linking.tail_count.2 (linking.newest_first.mpr every)
    rw [List.length_replicate] at all
    have redraws := tailRedraws_pos linking.chain (by omega)
    rw [List.length_cons] at counted
    omega
  | left setup early unread =>
    obtain ⟨used, split, ⟨linked, links, last, older, linking⟩, _⟩ := kept
    obtain ⟨used', split', atMost, finished⟩ := counts
    have lengths := congrArg List.length split'
    rw [List.length_replicate, List.length_append] at lengths
    cases early with
    | true =>
      rw [if_pos rfl, ParallelCacheMiss.giveUp, Bool.and_eq_true, decide_eq_true_eq] at finished
      omega
    | false =>
      have atLeast : size / segSize ≤ setup.nDone := finished
      have none : unread = [] := List.length_eq_zero_iff.mp (by omega)
      subst none
      obtain ⟨heap, _, same⟩ := Option.bind_eq_some_iff.mp closed
      exact ⟨_, same.symm⟩

theorem setupRnd_neverCoincide_iff (aboveRatio : Nat → Nat → Bool) (heap : Heap UInt8) (addr size segSize : Nat)
    (wide : 8 ≤ segSize) (starts : 16 ≤ size / segSize) (fits : addr + size / segSize * segSize ≤ 2 ^ 64)
    (allocated : heap.Allocated addr (size / segSize * segSize)) (used unread : List UInt64) (final : Setup)
    (early : Bool)
    (run : ParallelCacheMiss.setupRnd aboveRatio heap addr size segSize (used ++ unread) =
      some (.left final early unread)) :
    NeverCoincide final.heap addr segSize (size / segSize) 16 ↔ StartsApart 16 (size / segSize) used :=
  neverCoincide_iff aboveRatio wide (by omega) starts fits allocated run

def onePage : Heap UInt8 := Heap.splice Heap.empty 4096 (List.replicate 4096 7)

theorem onePage_allocated : onePage.Allocated (4096 : Nat) (4096 / 256 * 256) := by
  have allocated : onePage.Allocated (4096 : Nat) (List.replicate 4096 (7 : UInt8)).length :=
    Heap.holds_splice_self.allocated
  rwa [List.length_replicate] at allocated

theorem setupRnd_neverCoincide_iff_page :
    ∃ final, ParallelCacheMiss.setupRnd (fun _ _ => false) onePage 4096 4096 256 (List.replicate 16 0 ++ []) =
        some (.left final false []) ∧
      (NeverCoincide final.heap 4096 256 (4096 / 256) 16 ↔ StartsApart 16 (4096 / 256) (List.replicate 16 0)) := by
  obtain ⟨final, run⟩ := firstOnly_run (fun _ _ => false) (by decide) (by decide) (by decide) onePage_allocated (by decide)
  exact ⟨final, run, setupRnd_neverCoincide_iff (fun _ _ => false) onePage 4096 4096 256 (by decide) (by decide) (by decide)
    onePage_allocated (List.replicate 16 0) [] final false run⟩

/-- Sixteen draws of the first segment: it is a ring of its own, and all other starts come to
it with their first hop. -/
theorem setupRnd_coincide :
    ∃ final, ParallelCacheMiss.setupRnd (fun _ _ => false) onePage 4096 4096 256 (List.replicate 16 0) =
        some (.left final false []) ∧
      ¬NeverCoincide final.heap 4096 256 (4096 / 256) 16 := by
  obtain ⟨final, run⟩ := firstOnly_run (fun _ _ => false) (by decide) (by decide) (by decide) onePage_allocated (by decide)
  refine ⟨final, run, fun never => ?_⟩
  have apart := (neverCoincide_iff (fun _ _ => false) (by decide) (by decide) (by decide) (by decide) onePage_allocated
    run).mp never
  exact absurd (apart 1 (by decide) (by decide) 2 (by decide) (by decide)).1 (by decide)

end Mbench.LatencyRing
