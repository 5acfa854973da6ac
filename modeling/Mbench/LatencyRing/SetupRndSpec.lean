import Mbench.LatencyRing.History
import Mbench.LatencyRing.SetupRnd
import Mbench.Library.LinkedRing
import Mathlib.Data.List.Perm.Subperm

/-! One invariant of the drawing loop serves all three `setup_rnd`: memory holds a chain
of segments, and the chain is what the draws so far determine. -/

namespace Mbench.LatencyRing
open Library

/-- The area that is linked, and the mark of a free segment: no other segment than the
first has the mark as its address. -/
structure Area (addr segSize nSegs empty : Nat) : Prop where
  wide : 8 ≤ segSize
  nonempty : 0 < nSegs
  fits : addr + nSegs * segSize ≤ 2 ^ 64
  marked : ∀ index, index ≠ 0 → place addr segSize index ≠ empty

def history (nSegs : Nat) (draws : List UInt64) : List Nat := (draws.map (segment nSegs)).reverse ++ [0]

theorem history_concat (nSegs : Nat) (draws : List UInt64) (rnd : UInt64) :
    history nSegs (draws ++ [rnd]) = segment nSegs rnd :: history nSegs draws := by
  simp [history]

/-- The state of the loop after `read`, with the segments it has linked on the way. -/
structure Linking (addr segSize nSegs empty : Nat) (read : List UInt64) (linked : List Nat) (setup : Setup)
    (links : Nat → Nat) (last : Nat) (older : List Nat) : Prop where
  row : setup.heap.Row addr segSize nSegs links
  chained : Chained (place addr segSize) empty 0 links last older
  inside : ∀ index ∈ last :: older, index < nSegs
  tail : setup.pos = place addr segSize last
  chain : (history nSegs read).dedup = last :: older
  members : ∀ index, index ∈ last :: older ↔ index = 0 ∨ index ∈ linked
  atMost : setup.nDone ≤ nSegs
  unlinked : place addr segSize 0 ≠ empty → (links last = empty ↔ (history nSegs read).count last = 1)
  counted : place addr segSize 0 ≠ empty →
    setup.nDone + 1 = (last :: older).length + tailRedraws (history nSegs read)

section
variable {addr segSize nSegs empty : Nat} {giveUp : Nat → Bool} {read : List UInt64} {linked : List Nat}
  {setup : Setup} {links : Nat → Nat} {last : Nat} {older : List Nat}

theorem place_lt (area : Area addr segSize nSegs empty) {index : Nat} (inside : index < nSegs) :
    place addr segSize index < 2 ^ 64 := by
  have bound : index * segSize + segSize ≤ nSegs * segSize := Heap.slot_bounds inside
  have wide := area.wide
  have fits := area.fits
  unfold place
  omega

theorem Linking.load (linking : Linking addr segSize nSegs empty read linked setup links last older) {index : Nat}
    (inside : index < nSegs) : setup.heap.load64 (place addr segSize index) = some (links index) :=
  linking.row.word index inside

theorem Linking.conflict
    (linking : Linking addr segSize nSegs empty read linked setup links last older) (rnd : UInt64)
    (occupied : links (segment nSegs rnd) ≠ empty) (nConflict : Nat) :
    Linking addr segSize nSegs empty (read ++ [rnd]) linked { setup with nConflict } links last older := by
  have member : segment nSegs rnd ∈ last :: older := by
    by_contra fresh
    exact occupied (linking.chained.free _ fresh)
  obtain ⟨same, count⟩ := history_repeat linking.chain member
  have redraws := tailRedraws_cons (segment nSegs rnd) linking.chain
  have positive : 0 < (history nSegs read).count last :=
    List.count_pos_iff.mpr ((mem_of_chain linking.chain).mp List.mem_cons_self)
  constructor
  · exact linking.row
  · exact linking.chained
  · exact linking.inside
  · exact linking.tail
  · rw [history_concat, same]
  · exact linking.members
  · exact linking.atMost
  · intro distinct
    have unlinked := linking.unlinked distinct
    rw [history_concat, count]
    by_cases newest : segment nSegs rnd = last
    · rw [newest] at occupied
      simp only [newest, if_true]
      exact iff_of_false occupied (by omega)
    · simpa only [newest, if_false, Nat.add_zero] using unlinked
  · intro distinct
    have unlinked := linking.unlinked distinct
    rw [history_concat, redraws, if_neg]
    · exact linking.counted distinct
    · intro ⟨newest, once⟩
      rw [newest] at occupied
      exact occupied (unlinked.mpr once)

theorem Linking.acceptTail (area : Area addr segSize nSegs empty) {drawn : Nat} {rnd : UInt64}
    (linking : Linking addr segSize nSegs empty read linked setup links drawn older)
    (drawnEq : segment nSegs rnd = drawn) (vacant : links drawn = empty) (more : setup.nDone < nSegs)
    {heap : Heap UInt8}
    (row : heap.Row addr segSize nSegs (Function.update links drawn (place addr segSize drawn))) :
    Linking addr segSize nSegs empty (read ++ [rnd]) (linked ++ [drawn])
      { setup with heap, pos := place addr segSize drawn, nDone := setup.nDone + 1 }
      (Function.update links drawn (place addr segSize drawn)) drawn older := by
  have redraws := tailRedraws_cons drawn linking.chain
  obtain ⟨same, count⟩ := history_repeat linking.chain List.mem_cons_self
  constructor
  · exact row
  · exact linking.chained.linkSelf
  · exact linking.inside
  · rfl
  · rw [history_concat, drawnEq, same]
  · intro index
    rw [linking.members, List.mem_append, List.mem_singleton]
    constructor
    · rintro (zero | early)
      · exact Or.inl zero
      · exact Or.inr (Or.inl early)
    · rintro (zero | early | rfl)
      · exact Or.inl zero
      · exact Or.inr early
      · exact (linking.members index).mp List.mem_cons_self
  · exact more
  · intro distinct
    have once := (linking.unlinked distinct).mp vacant
    rw [history_concat, drawnEq, count, Function.update_self]
    have marked : place addr segSize drawn ≠ empty := by
      by_cases zero : drawn = 0
      · rwa [zero]
      · exact area.marked drawn zero
    simp only [if_true]
    exact iff_of_false marked (by omega)
  · intro distinct
    have once := (linking.unlinked distinct).mp vacant
    have counted := linking.counted distinct
    rw [history_concat, drawnEq, redraws, if_pos ⟨rfl, once⟩]
    simp only
    omega

theorem Linking.acceptFresh
    (linking : Linking addr segSize nSegs empty read linked setup links last older) {drawn : Nat} {rnd : UInt64}
    (drawnEq : segment nSegs rnd = drawn) (vacant : links drawn = empty) (inside : drawn < nSegs)
    (fresh : drawn ∉ last :: older) (more : setup.nDone < nSegs) {heap : Heap UInt8}
    (row : heap.Row addr segSize nSegs (Function.update links last (place addr segSize drawn))) :
    Linking addr segSize nSegs empty (read ++ [rnd]) (linked ++ [drawn])
      { setup with heap, pos := place addr segSize drawn, nDone := setup.nDone + 1 }
      (Function.update links last (place addr segSize drawn)) drawn (last :: older) := by
  have redraws := tailRedraws_cons drawn linking.chain
  have newest : drawn ≠ last := fun same => fresh (same ▸ List.mem_cons_self)
  obtain ⟨longer, count, _⟩ := history_fresh linking.chain fresh
  constructor
  · exact row
  · exact linking.chained.linkNew fresh
  · intro index member
    rcases List.mem_cons.mp member with rfl | early
    · exact inside
    · exact linking.inside index early
  · rfl
  · rw [history_concat, drawnEq, longer]
  · intro index
    rw [List.mem_cons, linking.members, List.mem_append, List.mem_singleton]
    tauto
  · exact more
  · intro distinct
    rw [history_concat, drawnEq, count, Function.update_of_ne newest]
    exact iff_of_true vacant rfl
  · intro distinct
    have counted := linking.counted distinct
    rw [history_concat, drawnEq, redraws, if_neg (fun both => newest both.1), List.length_cons]
    simp only
    omega

/-- A draw of a segment that looks free links it: the tail to itself, and any other one
behind the tail. -/
theorem Linking.accept (area : Area addr segSize nSegs empty)
    (linking : Linking addr segSize nSegs empty read linked setup links last older) (rnd : UInt64)
    (vacant : links (segment nSegs rnd) = empty) (inside : segment nSegs rnd < nSegs) (more : setup.nDone < nSegs)
    {heap : Heap UInt8}
    (row : heap.Row addr segSize nSegs (Function.update links last (place addr segSize (segment nSegs rnd)))) :
    ∃ last' older', Linking addr segSize nSegs empty (read ++ [rnd]) (linked ++ [segment nSegs rnd])
      { setup with heap, pos := place addr segSize (segment nSegs rnd), nDone := setup.nDone + 1 }
      (Function.update links last (place addr segSize (segment nSegs rnd))) last' older' ∧
      (segment nSegs rnd = last ∧ last' = last ∧ older' = older ∨
        segment nSegs rnd ∉ last :: older ∧ last' = segment nSegs rnd ∧ older' = last :: older) := by
  by_cases newest : segment nSegs rnd = last
  · subst newest
    exact ⟨segment nSegs rnd, older, linking.acceptTail area rfl vacant more row, Or.inl ⟨rfl, rfl, rfl⟩⟩
  · have fresh : segment nSegs rnd ∉ last :: older := by
      intro member
      rcases List.mem_cons.mp member with same | later
      · exact newest same
      · exact linking.chained.occupied area.marked later vacant
    exact ⟨segment nSegs rnd, last :: older, linking.acceptFresh rfl vacant inside fresh more row,
      Or.inr ⟨fresh, rfl, rfl⟩⟩

theorem takeDraw_vacant (giveUp : Nat → Bool) {rnd : UInt64} {heap : Heap UInt8}
    (loaded : setup.heap.load64 (place addr segSize (segment nSegs rnd)) = some empty)
    (stored : setup.heap.store64 setup.pos (place addr segSize (segment nSegs rnd)) = some heap) :
    takeDraw addr segSize nSegs empty giveUp setup rnd = some ({ setup with
      heap, pos := place addr segSize (segment nSegs rnd), nDone := setup.nDone + 1 }, false) := by
  simp only [takeDraw, loaded, Option.bind_eq_bind, Option.bind_some, ne_eq, not_true_eq_false, if_false, stored]

theorem takeDraw_occupied (giveUp : Nat → Bool) {rnd : UInt64} {word : Nat}
    (loaded : setup.heap.load64 (place addr segSize (segment nSegs rnd)) = some word) (occupied : word ≠ empty) :
    takeDraw addr segSize nSegs empty giveUp setup rnd =
      if giveUp setup.nDone then some (setup, true)
      else some ({ setup with nConflict := setup.nConflict + 1 }, false) := by
  simp only [takeDraw, loaded, Option.bind_eq_bind, Option.bind_some, if_pos occupied]

/-- The two kinds of turn: a draw of a segment that looks free is accepted, and any other
one is a conflict. -/
theorem takeDraw_cases (giveUp : Nat → Bool) (area : Area addr segSize nSegs empty)
    (linking : Linking addr segSize nSegs empty read linked setup links last older) (more : setup.nDone < nSegs)
    (rnd : UInt64) :
    (links (segment nSegs rnd) = empty ∧ ∃ heap last' older',
      takeDraw addr segSize nSegs empty giveUp setup rnd = some ({ setup with
        heap, pos := place addr segSize (segment nSegs rnd), nDone := setup.nDone + 1 }, false) ∧
      Linking addr segSize nSegs empty (read ++ [rnd]) (linked ++ [segment nSegs rnd])
        { setup with heap, pos := place addr segSize (segment nSegs rnd), nDone := setup.nDone + 1 }
        (Function.update links last (place addr segSize (segment nSegs rnd))) last' older' ∧
      (segment nSegs rnd = last ∧ last' = last ∧ older' = older ∨
        segment nSegs rnd ∉ last :: older ∧ last' = segment nSegs rnd ∧ older' = last :: older)) ∨
    (links (segment nSegs rnd) ≠ empty ∧
      takeDraw addr segSize nSegs empty giveUp setup rnd =
        (if giveUp setup.nDone then some (setup, true)
        else some ({ setup with nConflict := setup.nConflict + 1 }, false)) ∧
      ∀ nConflict, Linking addr segSize nSegs empty (read ++ [rnd]) linked { setup with nConflict } links last older) := by
  have inside : segment nSegs rnd < nSegs := Nat.mod_lt _ area.nonempty
  have loaded := linking.load inside
  by_cases vacant : links (segment nSegs rnd) = empty
  · have lastInside := linking.inside last List.mem_cons_self
    obtain ⟨heap, stored, row, _⟩ := linking.row.store64 area.wide lastInside (place_lt area inside)
    obtain ⟨last', older', next, grown⟩ := linking.accept area rnd vacant inside more row
    rw [vacant] at loaded
    have atTail : setup.heap.store64 setup.pos (place addr segSize (segment nSegs rnd)) = some heap := by
      rw [linking.tail]
      exact stored
    exact Or.inl ⟨vacant, heap, last', older', takeDraw_vacant giveUp loaded atTail, next, grown⟩
  · exact Or.inr ⟨vacant, takeDraw_occupied giveUp loaded vacant, linking.conflict rnd vacant⟩

theorem takeDraw_spec (giveUp : Nat → Bool) (area : Area addr segSize nSegs empty)
    (linking : Linking addr segSize nSegs empty read linked setup links last older) (more : setup.nDone < nSegs)
    (rnd : UInt64) :
    ∃ next stop links' last' older', takeDraw addr segSize nSegs empty giveUp setup rnd = some (next, stop) ∧
      Linking addr segSize nSegs empty (read ++ [rnd])
        (linked ++ if setup.nDone < next.nDone then [segment nSegs rnd] else []) next links' last' older' := by
  rcases takeDraw_cases giveUp area linking more rnd with
    ⟨_, heap, last', older', turn, next, _⟩ | ⟨_, turn, next⟩
  · exact ⟨_, false, _, last', older', turn, by rw [if_pos (Nat.lt_succ_self _)]; exact next⟩
  · by_cases tooMany : giveUp setup.nDone = true
    · rw [if_pos tooMany] at turn
      exact ⟨setup, true, links, last, older, turn, by
        rw [if_neg (Nat.lt_irrefl _), List.append_nil]
        exact next setup.nConflict⟩
    · rw [if_neg tooMany] at turn
      exact ⟨_, false, links, last, older, turn, by
        rw [if_neg (Nat.lt_irrefl _), List.append_nil]
        exact next (setup.nConflict + 1)⟩

/-- Where a run of the loop over `draws` can be, when `read` and `linked` came before. -/
def Reached (addr segSize nSegs empty : Nat) (giveUp : Nat → Bool) (read : List UInt64) (linked : List Nat)
    (setup : Setup) (draws : List UInt64) : Outcome → Prop
  | .waiting final => ∃ links last older, Linking addr segSize nSegs empty (read ++ draws)
      (linked ++ acceptedDraws addr segSize nSegs empty giveUp setup draws) final links last older
  | .left final early unread => ∃ used links last older, draws = used ++ unread ∧
      Linking addr segSize nSegs empty (read ++ used)
        (linked ++ acceptedDraws addr segSize nSegs empty giveUp setup draws) final links last older ∧
      (early = false → final.nDone = nSegs)

theorem drawLoop_spec (giveUp : Nat → Bool) (area : Area addr segSize nSegs empty) (draws : List UInt64)
    (linking : Linking addr segSize nSegs empty read linked setup links last older) (more : setup.nDone < nSegs) :
    ∃ outcome, drawLoop addr segSize nSegs empty giveUp setup draws = some outcome ∧
      Reached addr segSize nSegs empty giveUp read linked setup draws outcome := by
  induction draws generalizing read linked setup links last older with
  | nil =>
    exact ⟨.waiting setup, rfl, links, last, older, by simpa [acceptedDraws] using linking⟩
  | cons rnd draws ih =>
    obtain ⟨next, stop, links', last', older', turn, linking'⟩ := takeDraw_spec giveUp area linking more rnd
    by_cases halt : stop = true
    · refine ⟨.left next true draws, ?_, [rnd], links', last', older', rfl, ?_, by simp⟩
      · simp only [drawLoop, turn, Option.bind_eq_bind, Option.bind_some, if_pos halt]
      · simpa only [acceptedDraws, turn, if_pos halt, List.append_nil] using linking'
    · by_cases again : next.nDone < nSegs
      · obtain ⟨outcome, run, reached⟩ := ih linking' again
        refine ⟨outcome, ?_, ?_⟩
        · simp only [drawLoop, turn, Option.bind_eq_bind, Option.bind_some, if_neg halt, if_pos again]
          exact run
        · cases outcome with
          | waiting final =>
            obtain ⟨links, last, older, kept⟩ := reached
            refine ⟨links, last, older, ?_⟩
            simpa only [acceptedDraws, turn, if_neg halt, if_pos again, List.append_assoc, List.singleton_append]
              using kept
          | left final early unread =>
            obtain ⟨used, links, last, older, split, kept, finished⟩ := reached
            refine ⟨rnd :: used, links, last, older, by rw [split, List.cons_append], ?_, finished⟩
            simpa only [acceptedDraws, turn, if_neg halt, if_pos again, List.append_assoc, List.singleton_append]
              using kept
      · refine ⟨.left next false draws, ?_, [rnd], links', last', older', rfl, ?_, fun _ => ?_⟩
        · simp only [drawLoop, turn, Option.bind_eq_bind, Option.bind_some, if_neg halt, if_neg again]
        · simpa only [acceptedDraws, turn, if_neg halt, if_neg again, List.append_nil] using linking'
        · have atMost := linking'.atMost
          omega

end

/-! The ring in memory. -/

/-- The segments in the order in which a chase from `addr` comes to them, over and over. -/
structure RingAt (heap : Heap UInt8) (addr segSize : Nat) (ring : List Nat) : Prop where
  nodup : ring.Nodup
  start : ring.head? = some 0
  chase : ∀ hops, chase heap hops addr = (ring[hops % ring.length]?).map (place addr segSize)

theorem place_zero (addr segSize : Nat) : place addr segSize 0 = addr := by
  unfold place
  rw [Nat.zero_mul, Nat.add_zero]

theorem chase_ring {heap : Heap UInt8} {addr segSize nSegs : Nat} {links : Nat → Nat} {nodes : List Nat}
    (row : heap.Row addr segSize nSegs links) (ring : Ring (place addr segSize) 0 links nodes)
    (inside : ∀ index ∈ nodes, index < nSegs) (hops start : Nat) (within : start < nodes.length)
    (next : (start + hops) % nodes.length < nodes.length) :
    chase heap hops (place addr segSize nodes[start]) =
      some (place addr segSize nodes[(start + hops) % nodes.length]) := by
  induction hops generalizing start with
  | zero => simp only [chase, Nat.add_zero, Nat.mod_eq_of_lt within]
  | succ hops ih =>
    have word : heap.load64 (place addr segSize nodes[start]) = some (links nodes[start]) :=
      row.word nodes[start] (inside _ (List.getElem_mem within))
    have successor : (start + 1) % nodes.length < nodes.length := Nat.mod_lt _ (by omega)
    have later : ((start + 1) % nodes.length + hops) % nodes.length = (start + (hops + 1)) % nodes.length := by
      rw [Nat.mod_add_mod, Nat.add_assoc, Nat.add_comm 1]
    rw [chase, word, Option.bind_eq_bind, Option.bind_some, ring.linked start within successor,
      ih _ successor (by rwa [later])]
    simp only [later]

theorem ringAt_of_ring {heap : Heap UInt8} {addr segSize nSegs : Nat} {links : Nat → Nat} {nodes : List Nat}
    (ring : Ring (place addr segSize) 0 links nodes) (row : heap.Row addr segSize nSegs links)
    (inside : ∀ index ∈ nodes, index < nSegs) : RingAt heap addr segSize nodes := by
  have start := ring.start
  cases nodes with
  | nil => cases start
  | cons first rest =>
    rw [List.head?_cons, Option.some.injEq] at start
    subst start
    refine ⟨ring.nodup, rfl, fun hops => ?_⟩
    have around := chase_ring row ring inside hops 0 (Nat.zero_lt_succ _) (Nat.mod_lt _ (Nat.zero_lt_succ _))
    simp only [List.getElem_cons_zero, place_zero, Nat.zero_add] at around
    rw [around, List.getElem?_eq_getElem (Nat.mod_lt _ (by simp))]
    rfl

structure RingMade (addr segSize nSegs empty : Nat) (used : List UInt64) (linked : List Nat) (final : Setup)
    (ring : List Nat) : Prop where
  round : RingAt final.heap addr segSize ring
  inside : ∀ index ∈ ring, index < nSegs
  members : ∀ index, index ∈ ring ↔ index = 0 ∨ index ∈ linked
  free : ∀ index < nSegs, index ∉ ring → final.heap.load64 (place addr segSize index) = some empty
  length : ring.length = (history nSegs used).dedup.length
  counted : addr ≠ empty → final.nDone + 1 = ring.length + tailRedraws (history nSegs used)

theorem RingMade.length_le {addr segSize nSegs empty : Nat} {used : List UInt64} {linked : List Nat} {final : Setup}
    {ring : List Nat} (made : RingMade addr segSize nSegs empty used linked final ring) : ring.length ≤ nSegs := by
  have subset : ring ⊆ List.range nSegs := fun index member => List.mem_range.mpr (made.inside index member)
  simpa using (made.round.nodup.subperm subset).length_le

theorem Linking.closed {addr segSize nSegs empty : Nat} {used : List UInt64} {linked : List Nat} {setup : Setup}
    {links : Nat → Nat} {last : Nat} {older : List Nat} (area : Area addr segSize nSegs empty)
    (linking : Linking addr segSize nSegs empty used linked setup links last older) :
    ∃ heap, setup.heap.store64 setup.pos addr = some heap ∧
      heap.Row addr segSize nSegs (Function.update links last addr) ∧
      Ring (place addr segSize) 0 (Function.update links last addr) (last :: older).reverse := by
  have lastInside := linking.inside last List.mem_cons_self
  have firstBound := place_lt area area.nonempty
  rw [place_zero] at firstBound
  obtain ⟨heap, stored, row, _⟩ := linking.row.store64 area.wide lastInside firstBound
  have ring := linking.chained.close
  rw [place_zero] at ring
  exact ⟨heap, by rw [linking.tail]; exact stored, row, ring⟩

theorem Linking.made {addr segSize nSegs empty : Nat} {used : List UInt64} {linked : List Nat} {setup : Setup}
    {links : Nat → Nat} {last : Nat} {older : List Nat} (area : Area addr segSize nSegs empty)
    (linking : Linking addr segSize nSegs empty used linked setup links last older) :
    ∃ heap, setup.heap.store64 setup.pos addr = some heap ∧
      RingMade addr segSize nSegs empty used linked { setup with heap } (last :: older).reverse := by
  obtain ⟨heap, stored, row, ring⟩ := linking.closed area
  have inside : ∀ index ∈ (last :: older).reverse, index < nSegs := fun index member =>
    linking.inside index (List.mem_reverse.mp member)
  refine ⟨heap, stored, ringAt_of_ring ring row inside, inside, fun index => ?_, fun index within absent => ?_, ?_,
    fun distinct => ?_⟩
  · rw [List.mem_reverse]
    exact linking.members index
  · rw [List.mem_reverse] at absent
    exact (row.word index within).trans (congrArg some (linking.chained.close_free absent addr))
  · rw [List.length_reverse, linking.chain]
  · rw [List.length_reverse]
    exact linking.counted (by rwa [place_zero])

theorem Linking.start {addr segSize nSegs empty : Nat} (area : Area addr segSize nSegs empty) {heap : Heap UInt8}
    (marked : heap.Row addr segSize nSegs fun _ => empty) :
    Linking addr segSize nSegs empty [] [] (startSetup heap addr) (fun _ => empty) 0 [] := by
  constructor
  · exact marked
  · exact Chained.single fun _ => rfl
  · simpa using area.nonempty
  · exact (place_zero addr segSize).symm
  · rfl
  · simp
  · exact Nat.zero_le _
  · exact fun _ => iff_of_true rfl rfl
  · exact fun _ => rfl

theorem ring_spec {addr segSize nSegs empty : Nat} (area : Area addr segSize nSegs empty) (giveUp : Nat → Bool)
    {heap : Heap UInt8} (marked : heap.Row addr segSize nSegs fun _ => empty) (draws : List UInt64) :
    ∃ outcome, (do
        let outcome ← drawLoop addr segSize nSegs empty giveUp (startSetup heap addr) draws
        makeRing addr outcome) = some outcome ∧
      ∀ final early unread, outcome = .left final early unread → ∃ used ring, draws = used ++ unread ∧
        RingMade addr segSize nSegs empty used (acceptedDraws addr segSize nSegs empty giveUp (startSetup heap addr) draws)
          final ring ∧
        (early = false → final.nDone = nSegs) := by
  obtain ⟨outcome, run, reached⟩ := drawLoop_spec giveUp area draws (Linking.start area marked) area.nonempty
  cases outcome with
  | waiting final =>
    refine ⟨.waiting final, ?_, fun _ _ _ same => by cases same⟩
    simp only [run, Option.bind_eq_bind, Option.bind_some, makeRing]
  | left middle early unread =>
    obtain ⟨used, links, last, older, split, linking, finished⟩ := reached
    obtain ⟨closed, stored, made⟩ := linking.made area
    refine ⟨.left { middle with heap := closed } early unread, ?_, ?_⟩
    · simp only [run, Option.bind_eq_bind, Option.bind_some, makeRing, stored]
    · rintro final early' unread' ⟨⟩
      exact ⟨used, _, split, by simpa using made, finished⟩

end Mbench.LatencyRing
