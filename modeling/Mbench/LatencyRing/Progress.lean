import Mbench.LatencyRing.BaseCount
import Mbench.LatencyRing.ZeroMarker
import Mathlib.Algebra.Order.Ring.Rat

/-! Whether the drawing loop can always go on. While fewer draws than segments have been
accepted some segment looks free; but a draw must also be able to select it. -/

namespace Mbench.LatencyRing
open Library

section
variable {addr segSize nSegs empty bound : Nat} {giveUp : Nat → Bool} {read : List UInt64} {linked : List Nat}
  {setup : Setup} {links : Nat → Nat} {last : Nat} {older : List Nat}

theorem Linking.covered (linking : Linking addr segSize nSegs empty read linked setup links last older)
    (occupied : ∀ index < bound, links index ≠ empty) : bound ≤ (last :: older).length := by
  have subset : List.range bound ⊆ last :: older := by
    intro index member
    by_contra absent
    exact occupied index (List.mem_range.mp member) (linking.chained.free index absent)
  simpa using (List.nodup_range.subperm subset).length_le

theorem Linking.filled (linking : Linking addr segSize nSegs empty read linked setup links last older)
    (counted : (last :: older).length + tailRedraws (history nSegs read) ≤ setup.nDone + 1)
    (redrawn : links last ≠ empty → (history nSegs read).count last ≠ 1)
    (occupied : ∀ index < bound, links index ≠ empty) (inside : last < bound) : bound ≤ setup.nDone := by
  have covered := linking.covered occupied
  have positive : 0 < (history nSegs read).count last :=
    List.count_pos_iff.mpr ((mem_of_chain linking.chain).mp List.mem_cons_self)
  have twice := redrawn (occupied last inside)
  have redraws := tailRedraws_pos linking.chain (by omega)
  omega

theorem Linking.filled_zero (linking : Linking addr segSize nSegs empty read linked setup links last older)
    (distinct : place addr segSize 0 ≠ empty) (occupied : ∀ index < bound, links index ≠ empty) (inside : last < bound) :
    bound ≤ setup.nDone :=
  linking.filled (linking.counted distinct).ge (fun shut once => shut ((linking.unlinked distinct).mpr once)) occupied inside

theorem BaseLinking.filled_base (linking : BaseLinking addr segSize nSegs read linked setup links last older)
    (occupied : ∀ index < bound, links index ≠ addr) (inside : last < bound) : bound ≤ setup.nDone := by
  refine linking.filled ?_ (fun shut once => shut (linking.open_iff.mpr (Or.inr once))) occupied inside
  have counted := linking.baseCounted
  omega

theorem Linking.accepts (area : Area addr segSize nSegs empty) (giveUp : Nat → Bool)
    (linking : Linking addr segSize nSegs empty read linked setup links last older) (more : setup.nDone < nSegs)
    {rnd : UInt64} (vacant : links (segment nSegs rnd) = empty) :
    ∃ next, takeDraw addr segSize nSegs empty giveUp setup rnd = some (next, false) ∧
      next.nDone = setup.nDone + 1 := by
  rcases takeDraw_cases giveUp area linking more rnd with
    ⟨_, heap, last', older', taken, _⟩ | ⟨occupied, _⟩
  · exact ⟨_, taken, rfl⟩
  · exact absurd vacant occupied

end

theorem segment_ofNat {nSegs index : Nat} (inside : index < nSegs) (small : index < 2 ^ 64) :
    segment nSegs (UInt64.ofNat index) = index := by
  rw [segment, UInt64.toNat_ofNat_of_lt' small, Nat.mod_eq_of_lt inside]

/-! The draws of 64 bits. -/

/-- What is said of a run over some draws: while it waits for another draw, some segment has
the word zero and some draw is accepted; it never accepts more draws than there are
segments, and once it has accepted as many it has left the loop. -/
def Progresses (addr segSize nSegs : Nat) (giveUp : Nat → Bool) (accepted : List Nat) (run : Option Outcome) : Prop :=
  ∃ outcome, run = some outcome ∧ outcome.setup.nDone ≤ nSegs ∧
    (∀ setup, outcome = .waiting setup →
      (∃ index < nSegs, setup.heap.load64 (place addr segSize index) = some 0) ∧
      ∃ rnd next, takeDraw addr segSize nSegs 0 giveUp setup rnd = some (next, false) ∧
        next.nDone = setup.nDone + 1) ∧
    (nSegs ≤ accepted.length → ∃ final early unread, outcome = .left final early unread)

theorem progresses {addr segSize nSegs : Nat} (area : Area addr segSize nSegs 0) (nonnull : 0 < addr)
    (giveUp : Nat → Bool) {heap : Heap UInt8} (zeroed : heap.Holds addr (List.replicate (nSegs * segSize) 0))
    (draws : List UInt64) :
    Progresses addr segSize nSegs giveUp
      (acceptedDraws addr segSize nSegs 0 giveUp (startSetup heap addr) draws) (do
      let outcome ← drawLoop addr segSize nSegs 0 giveUp (startSetup heap addr) draws
      makeRing addr outcome) := by
  have marked := Heap.row_of_zeros area.wide zeroed
  obtain ⟨outcome, run, _⟩ := ring_spec area giveUp marked draws
  obtain ⟨middle, ran, closed⟩ := Option.bind_eq_some_iff.mp run
  have accepted := (drawLoop_accepted ran).trans (Nat.zero_add _)
  have kept := linking_keeps area marked ran
  have counts := makeRing_nDone closed
  refine ⟨outcome, run, ?_, fun setup waits => ?_, fun enough => ?_⟩
  · rw [counts]
    cases middle with
    | waiting setup => exact kept.2.le
    | left setup early unread =>
      obtain ⟨used, _, ⟨linked, links, last, older, linking⟩, _⟩ := kept
      exact linking.atMost
  · subst waits
    rw [makeRing_waiting closed] at kept
    obtain ⟨⟨linked, links, last, older, linking⟩, more⟩ := kept
    obtain ⟨index, inside, vacant⟩ : ∃ index < nSegs, links index = 0 := by
      by_contra none
      push Not at none
      have filled := linking.filled_zero (by rw [place_zero]; omega) none (linking.inside last List.mem_cons_self)
      omega
    have small : index < 2 ^ 64 := by
      have bound : index * segSize + segSize ≤ nSegs * segSize := Heap.slot_bounds inside
      have wide := area.wide
      have fits := area.fits
      calc index ≤ index * segSize := Nat.le_mul_of_pos_right index (by omega)
        _ < 2 ^ 64 := by omega
    have selected : links (segment nSegs (UInt64.ofNat index)) = 0 := by rwa [segment_ofNat inside small]
    obtain ⟨next, taken, accepts⟩ := linking.accepts area giveUp more selected
    exact ⟨⟨index, inside, vacant ▸ linking.load inside⟩, UInt64.ofNat index, next, taken, accepts⟩
  · cases outcome with
    | left final early unread => exact ⟨final, early, unread, rfl⟩
    | waiting setup =>
      rw [makeRing_waiting closed] at kept accepted
      have more : setup.nDone < nSegs := kept.2
      rw [Outcome.setup] at accepted
      omega

/-- In every reachable state of the loops of `mem_lat.c` and `simpleMemLatChecker.c` that
wants another draw, some draw of 64 bits makes progress, and enough accepted draws end
the loop. -/
theorem setupRnd_progresses (aboveRatio : Nat → Nat → Bool) (heap : Heap UInt8) (addr size segSize : Nat)
    (nonnull : 0 < addr) (wide : 8 ≤ segSize) (segments : 1 ≤ size / segSize)
    (fits : addr + size / segSize * segSize ≤ 2 ^ 64)
    (zeroed : heap.Holds addr (List.replicate (size / segSize * segSize) 0)) (draws : List UInt64) :
    Progresses addr segSize (size / segSize) (MemLat.giveUp aboveRatio size (size / segSize))
        (acceptedDraws addr segSize (size / segSize) 0 (MemLat.giveUp aboveRatio size (size / segSize))
          (startSetup heap addr) draws)
        (MemLat.setupRnd aboveRatio heap addr size segSize draws) ∧
      Progresses addr segSize (size / segSize) (SimpleMemLatChecker.giveUp aboveRatio (size / segSize))
        (acceptedDraws addr segSize (size / segSize) 0 (SimpleMemLatChecker.giveUp aboveRatio (size / segSize))
          (startSetup heap addr) draws)
        (SimpleMemLatChecker.setupRnd aboveRatio heap addr size segSize draws) := by
  have area := area_zero wide segments fits
  exact ⟨progresses area nonnull _ zeroed draws, progresses area nonnull _ zeroed draws⟩

theorem setupRnd_progresses_three :
    Progresses 64 8 3 (MemLat.giveUp (fun _ _ => false) 24 3)
        (acceptedDraws 64 8 3 0 (MemLat.giveUp (fun _ _ => false) 24 3) (startSetup threeSegments 64) [1, 1])
        (MemLat.setupRnd (fun _ _ => false) threeSegments 64 24 8 [1, 1]) ∧
      Progresses 64 8 3 (SimpleMemLatChecker.giveUp (fun _ _ => false) 3)
        (acceptedDraws 64 8 3 0 (SimpleMemLatChecker.giveUp (fun _ _ => false) 3) (startSetup threeSegments 64) [1, 1])
        (SimpleMemLatChecker.setupRnd (fun _ _ => false) threeSegments 64 24 8 [1, 1]) :=
  setupRnd_progresses (fun _ _ => false) threeSegments 64 24 8 (by decide) (by decide) (by decide) (by decide)
    Heap.holds_splice_self [1, 1]

/-! The draws of 31 bits. -/

def IsRandom (rnd : UInt64) : Prop := rnd.toNat < 2 ^ 31

/-- `n_done > rand_ratio * n_segs`, with an exact product. -/
def exactRatio (ratio : ℚ) (nDone nSegs : Nat) : Bool := decide (ratio * nSegs < nDone)

/-- In every reachable state of the loop of `ParallelCacheMiss.c` that wants another draw,
some value of `random()` is accepted or breaks the loop. -/
def NeverStuck (ratio : ℚ) (heap : Heap UInt8) (addr size segSize : Nat) : Prop :=
  ∀ draws : List UInt64, (∀ rnd ∈ draws, IsRandom rnd) →
    ∀ setup, ParallelCacheMiss.setupRnd (exactRatio ratio) heap addr size segSize draws = some (.waiting setup) →
      ∃ rnd, IsRandom rnd ∧ ∃ next stop,
        takeDraw addr segSize (size / segSize) addr (ParallelCacheMiss.giveUp (exactRatio ratio) (size / segSize))
          setup rnd = some (next, stop) ∧
        (setup.nDone < next.nDone ∨ stop = true)

section
variable {addr segSize nSegs bound top : Nat} {giveUp : Nat → Bool} {heap : Heap UInt8} {read : List UInt64}
  {linked : List Nat} {setup : Setup} {links : Nat → Nat} {last : Nat} {older : List Nat}

/-- Draws below a bound that is at most the number of segments select themselves, so only
the segments below it are linked. -/
theorem BaseLinking.last_lt (linking : BaseLinking addr segSize nSegs read linked setup links last older)
    (positive : 0 < bound) (low : ∀ rnd ∈ read, rnd.toNat < bound) : last < bound := by
  have drawn : last ∈ history nSegs read := (mem_of_chain linking.chain).mp List.mem_cons_self
  rcases mem_history.mp drawn with zero | ⟨rnd, member, same⟩
  · rwa [zero]
  · calc last = rnd.toNat % nSegs := same.symm
      _ ≤ rnd.toNat := Nat.mod_le _ _
      _ < bound := low rnd member

def fillDraws (top : Nat) : List UInt64 := (List.range' 1 top ++ [top]).map UInt64.ofNat

theorem fillDraws_length (top : Nat) : (fillDraws top).length = top + 1 := by
  rw [fillDraws, List.length_map, List.length_append, List.length_range', List.length_singleton]

theorem fillDraws_le {rnd : UInt64} (member : rnd ∈ fillDraws top) : rnd.toNat ≤ top := by
  obtain ⟨index, inside, rfl⟩ := List.mem_map.mp member
  rw [List.mem_append, List.mem_range'_1, List.mem_singleton] at inside
  calc (UInt64.ofNat index).toNat = index % 2 ^ 64 := UInt64.toNat_ofNat'
    _ ≤ index := Nat.mod_le _ _
    _ ≤ top := by omega

theorem history_fillDraws (inside : top < nSegs) (small : top < 2 ^ 64) :
    history nSegs (fillDraws top) = top :: top :: (List.range top).reverse := by
  have selected : (fillDraws top).map (segment nSegs) = List.range' 1 top ++ [top] := by
    rw [fillDraws, List.map_map]
    refine (List.map_congr_left fun index member => ?_).trans (List.map_id _)
    rw [List.mem_append, List.mem_range'_1, List.mem_singleton] at member
    exact segment_ofNat (by omega) (by omega)
  have upwards : [0] ++ List.range' 1 top = List.range top ++ [top] := by
    rw [← List.range_succ, List.range_eq_range', List.range'_succ, List.singleton_append]
  calc history nSegs (fillDraws top)
      = [top] ++ ((List.range' 1 top).reverse ++ [0]) := by
        rw [history, selected, List.reverse_append, List.reverse_singleton, List.append_assoc]
    _ = [top] ++ (List.range top ++ [top]).reverse := by
        rw [← upwards, List.reverse_append, List.reverse_singleton]
    _ = top :: top :: (List.range top).reverse := by
        rw [List.reverse_append, List.reverse_singleton, List.singleton_append, List.singleton_append]

theorem fillDraws_occupied (area : Area addr segSize nSegs addr)
    (linking : BaseLinking addr segSize nSegs (fillDraws top) linked setup links last older)
    (positive : 0 < top) (inside : top < nSegs) (small : top < 2 ^ 64) {index : Nat} (low : index ≤ top) :
    links index ≠ addr := by
  have drawn := history_fillDraws inside small
  have open_iff := linking.open_iff
  have chain : top :: (List.range top).reverse = last :: older := by
    have nodup : (top :: (List.range top).reverse).Nodup := by
      rw [← List.reverse_concat, ← List.range_succ]
      exact List.nodup_reverse.mpr List.nodup_range
    rw [← linking.chain, drawn, List.dedup_cons_of_mem List.mem_cons_self, nodup.dedup]
  obtain ⟨rfl, rfl⟩ := List.cons.inj chain
  by_cases newest : index = top
  · rw [newest]
    intro vacant
    rcases open_iff.mp vacant with zero | once
    · omega
    · rw [drawn, List.count_cons_self, List.count_cons_self] at once
      omega
  · refine linking.chained.occupied area.marked ?_
    rw [List.mem_reverse, List.mem_range]
    omega

/-- When the loop does not give up before the segments that draws can select are used up,
and there are others, it can get stuck. -/
theorem fillDraws_stuck (area : Area addr segSize nSegs addr) (marked : heap.Row addr segSize nSegs fun _ => addr)
    (positive : 0 < top) (inside : top + 1 < nSegs) (small : top < 2 ^ 64)
    (patient : ∀ nDone ≤ top + 1, giveUp nDone = false) :
    ∃ setup, drawLoop addr segSize nSegs addr giveUp (startSetup heap addr) (fillDraws top) = some (.waiting setup) ∧
      ∀ rnd : UInt64, rnd.toNat ≤ top → takeDraw addr segSize nSegs addr giveUp setup rnd =
        some ({ setup with nConflict := setup.nConflict + 1 }, false) := by
  obtain ⟨outcome, ran, _⟩ := drawLoop_spec giveUp area (fillDraws top) (Linking.start area marked) area.nonempty
  have kept := base_keeps area giveUp marked ran
  have counts := drawLoop_atMost rfl area.nonempty ran
  have length := fillDraws_length top
  cases outcome with
  | left final early unread =>
    obtain ⟨used, split, few, reason⟩ := counts
    have shorter : final.nDone ≤ top + 1 := by
      rw [split, List.length_append] at length
      omega
    cases early with
    | true => simp [patient final.nDone shorter] at reason
    | false =>
      have finished : nSegs ≤ final.nDone := reason
      omega
  | waiting setup =>
    obtain ⟨⟨linked, links, last, older, linking⟩, more⟩ := kept
    refine ⟨setup, ran, fun rnd low => ?_⟩
    have selected : segment nSegs rnd = rnd.toNat := Nat.mod_eq_of_lt (by omega)
    have occupied := fillDraws_occupied area linking positive (by omega) small low
    rcases takeDraw_cases giveUp area linking.toLinking more rnd with ⟨vacant, _⟩ | ⟨_, taken, _⟩
    · rw [selected] at vacant
      exact absurd vacant occupied
    · rw [taken, patient setup.nDone (length ▸ counts.1), if_neg (by decide)]

end

theorem exactRatio_eq_false {ratio : ℚ} {nDone nSegs : Nat} :
    exactRatio ratio nDone nSegs = false ↔ (nDone : ℚ) ≤ ratio * nSegs := by
  rw [exactRatio, decide_eq_false_iff_not, not_lt]

/-- With more segments than `random()` has values, a high enough ratio lets the loop link all
of those and then find none. -/
theorem not_neverStuck {ratio : ℚ} {heap : Heap UInt8} {addr size segSize : Nat}
    (area : Area addr segSize (size / segSize) addr) (allocated : heap.Allocated addr (size / segSize * segSize))
    (many : 2 ^ 31 < size / segSize) (high : 2 ^ 31 ≤ ratio * (size / segSize : Nat)) :
    ¬NeverStuck ratio heap addr size segSize := by
  intro never
  obtain ⟨cleared, marked, run⟩ := setupRnd_cleared area allocated
  have patient : ∀ nDone ≤ 2 ^ 31 - 1 + 1,
      ParallelCacheMiss.giveUp (exactRatio ratio) (size / segSize) nDone = false := by
    intro nDone few
    have below : (nDone : ℚ) ≤ 2 ^ 31 := by exact_mod_cast few
    rw [ParallelCacheMiss.giveUp, exactRatio_eq_false.mpr (below.trans high), Bool.and_false]
  obtain ⟨setup, ran, stuck⟩ := fillDraws_stuck area marked (by omega) (by omega) (by omega) patient
  have waits : ParallelCacheMiss.setupRnd (exactRatio ratio) heap addr size segSize (fillDraws (2 ^ 31 - 1)) =
      some (.waiting setup) := by
    rw [run, ran]
    rfl
  obtain ⟨rnd, random, next, stop, taken, progress⟩ := never _
    (fun rnd member => by
      have low := fillDraws_le member
      unfold IsRandom
      omega) setup waits
  rw [stuck rnd (Nat.le_sub_one_of_lt random)] at taken
  cases taken
  simp at progress

theorem neverStuck {ratio : ℚ} {heap : Heap UInt8} {addr size segSize : Nat}
    (area : Area addr segSize (size / segSize) addr) (allocated : heap.Allocated addr (size / segSize * segSize))
    (enough : size / segSize ≤ 2 ^ 31 ∨ ratio * (size / segSize : Nat) < 2 ^ 31) :
    NeverStuck ratio heap addr size segSize := by
  intro draws random setup waits
  obtain ⟨cleared, marked, run⟩ := setupRnd_cleared area allocated
  rw [run] at waits
  obtain ⟨middle, ran, closed⟩ := Option.bind_eq_some_iff.mp waits
  rw [makeRing_waiting closed] at ran
  obtain ⟨⟨linked, links, last, older, linking⟩, more⟩ := base_keeps area _ marked ran
  by_cases free : ∃ index < size / segSize, index < 2 ^ 31 ∧ links index = addr
  · obtain ⟨index, inside, low, vacant⟩ := free
    have selected : links (segment (size / segSize) (UInt64.ofNat index)) = addr := by
      rwa [segment_ofNat inside (by omega)]
    obtain ⟨next, taken, accepted⟩ := linking.accepts area (ParallelCacheMiss.giveUp (exactRatio ratio) (size / segSize))
      more selected
    have value : (UInt64.ofNat index).toNat = index := UInt64.toNat_ofNat_of_lt' (low.trans (by decide))
    exact ⟨UInt64.ofNat index, value.trans_lt low, next, false, taken, Or.inl (by omega)⟩
  · push Not at free
    rcases enough with few | quick
    · have filled := linking.filled_base (fun index inside => free index inside (by omega))
        (linking.inside last List.mem_cons_self)
      omega
    · by_cases few : size / segSize ≤ 2 ^ 31
      · have filled := linking.filled_base (fun index inside => free index inside (by omega))
          (linking.inside last List.mem_cons_self)
        omega
      · have filled : 2 ^ 31 ≤ setup.nDone := linking.filled_base (fun index low => free index (by omega) low)
          (linking.last_lt (by omega) random)
        have above : exactRatio ratio setup.nDone (size / segSize) = true := by
          have large : (2 ^ 31 : ℚ) ≤ setup.nDone := by exact_mod_cast filled
          exact decide_eq_true (quick.trans_le large)
        have leaves : ParallelCacheMiss.giveUp (exactRatio ratio) (size / segSize) setup.nDone = true := by
          rw [ParallelCacheMiss.giveUp, above, Bool.and_true, decide_eq_true_eq]
          omega
        have first : segment (size / segSize) 0 = 0 := Nat.zero_mod _
        have occupied : links (segment (size / segSize) 0) ≠ addr := by
          rw [first]
          exact free 0 area.nonempty (by omega)
        rcases takeDraw_cases (ParallelCacheMiss.giveUp (exactRatio ratio) (size / segSize)) area linking.toLinking more 0
          with ⟨vacant, _⟩ | ⟨_, taken, _⟩
        · exact absurd vacant occupied
        · rw [if_pos leaves] at taken
          exact ⟨0, by unfold IsRandom; decide, setup, true, taken, Or.inr rfl⟩

/-- The loop of `ParallelCacheMiss.c` can never be stuck exactly when each segment is the
choice of some value of `random()`, or the loop gives up by the time those are used up. -/
theorem setupRnd_neverStuck_iff (ratio : ℚ) (heap : Heap UInt8) (addr size segSize : Nat) (wide : 8 ≤ segSize)
    (segments : 1 ≤ size / segSize) (fits : addr + size / segSize * segSize ≤ 2 ^ 64)
    (allocated : heap.Allocated addr (size / segSize * segSize)) :
    NeverStuck ratio heap addr size segSize ↔
      size / segSize ≤ 2 ^ 31 ∨ ratio * (size / segSize : Nat) < 2 ^ 31 := by
  have area : Area addr segSize (size / segSize) addr := area_base wide segments fits
  constructor
  · intro never
    by_contra neither
    rw [not_or, not_le, not_lt] at neither
    exact not_neverStuck area allocated neither.1 neither.2 never
  · exact neverStuck area allocated

theorem setupRnd_neverStuck_iff_three :
    NeverStuck (99 / 100) (Heap.splice Heap.empty 64 (List.replicate 24 7)) 64 24 8 ↔
      24 / 8 ≤ 2 ^ 31 ∨ (99 / 100 : ℚ) * (24 / 8 : Nat) < 2 ^ 31 :=
  setupRnd_neverStuck_iff (99 / 100) (Heap.splice Heap.empty 64 (List.replicate 24 7)) 64 24 8
    (by decide) (by decide) (by decide) Heap.holds_splice_self.allocated

def wholeMemory : Heap UInt8 := fun _ => some 0

theorem setupRnd_stuck : ¬NeverStuck 1 wholeMemory 4096 (33554432 * 1024) 8 := by
  have area : Area 4096 8 (33554432 * 1024 / 8) 4096 := area_base (by decide) (by decide) (by decide)
  exact not_neverStuck area (fun _ _ => rfl) (by decide) (by rw [one_mul]; exact_mod_cast (by decide : 2 ^ 31 ≤ 33554432 * 1024 / 8))

/-! Draws that are enough. -/

/-- Each segment is drawn twice and more. -/
def DrawnTwice (nSegs : Nat) (draws : List UInt64) : Prop := ∀ index < nSegs, 2 ≤ (draws.map (segment nSegs)).count index

section
variable {addr segSize nSegs empty : Nat} {giveUp : Nat → Bool} {heap : Heap UInt8} {draws : List UInt64} {setup : Setup}

theorem count_history (nSegs index : Nat) (draws : List UInt64) :
    (draws.map (segment nSegs)).count index ≤ (history nSegs draws).count index := by
  rw [history, List.count_append, List.count_reverse]
  exact Nat.le_add_right _ _

/-- The first time puts a segment on the chain; the second time of the one that has come last fills the count. -/
theorem drawLoop_leaves (area : Area addr segSize nSegs empty) (marked : heap.Row addr segSize nSegs fun _ => empty)
    (distinct : place addr segSize 0 ≠ empty) (twice : DrawnTwice nSegs draws) :
    drawLoop addr segSize nSegs empty giveUp (startSetup heap addr) draws ≠ some (.waiting setup) := by
  intro waits
  obtain ⟨⟨linked, links, last, older, linking⟩, more⟩ := linking_keeps area marked waits
  have drawn (index : Nat) (inside : index < nSegs) : 2 ≤ (history nSegs draws).count index :=
    (twice index inside).trans (count_history nSegs index draws)
  have chained : List.range nSegs ⊆ last :: older := by
    intro index member
    rw [mem_of_chain linking.chain, ← List.count_pos_iff]
    exact Nat.zero_lt_of_lt (drawn index (List.mem_range.mp member))
  have length : nSegs ≤ (last :: older).length := by simpa using (List.nodup_range.subperm chained).length_le
  have redraws := tailRedraws_pos linking.chain (drawn last (linking.inside last List.mem_cons_self))
  have counted := linking.counted distinct
  omega

end

end Mbench.LatencyRing
