import Mbench.LatencyRing.BaseMarker
import Mbench.LatencyRing.Runs
import Mathlib.Data.List.TakeWhile

/-! Where the mark is the address of the first segment, that segment looks free as long as
it is alone on the chain. Its draws before any other segment are all accepted, and the
count of accepted draws runs ahead by all of them but the first. -/

namespace Mbench.LatencyRing
open Library

def leadingFirst (nSegs : Nat) (draws : List UInt64) : Nat :=
  (draws.takeWhile fun rnd => segment nSegs rnd = 0).length

structure BaseLinking (addr segSize nSegs : Nat) (read : List UInt64) (linked : List Nat) (setup : Setup)
    (links : Nat → Nat) (last : Nat) (older : List Nat) : Prop
    extends Linking addr segSize nSegs addr read linked setup links last older where
  open_iff : links last = addr ↔ last = 0 ∨ (history nSegs read).count last = 1
  baseCounted : setup.nDone + 1 =
    (last :: older).length + tailRedraws (history nSegs read) + (leadingFirst nSegs read - 1)

section
variable {addr segSize nSegs : Nat} {giveUp : Nat → Bool} {read : List UInt64} {linked : List Nat}
  {setup next : Setup} {links : Nat → Nat} {last : Nat} {older : List Nat} {stop : Bool} {rnd : UInt64}

theorem mem_history {index : Nat} : index ∈ history nSegs read ↔ index = 0 ∨ ∃ rnd ∈ read, segment nSegs rnd = index := by
  simp only [history, List.mem_append, List.mem_reverse, List.mem_map, List.mem_singleton]
  exact Or.comm

theorem Linking.newest_first {empty : Nat}
    (linking : Linking addr segSize nSegs empty read linked setup links last older) :
    last = 0 ↔ ∀ rnd ∈ read, segment nSegs rnd = 0 := by
  constructor
  · intro zero rnd member
    have alone : older = [] := by
      cases older with
      | nil => rfl
      | cons next older =>
        have start := linking.chained.start
        rw [List.getLast?_cons_cons] at start
        have below : 0 ∈ next :: older := List.mem_of_getLast? start
        exact absurd (zero ▸ below) (List.nodup_cons.mp linking.chained.nodup).1
    have drawn : segment nSegs rnd ∈ history nSegs read := mem_history.mpr (Or.inr ⟨rnd, member, rfl⟩)
    rw [← mem_of_chain linking.chain, alone, List.mem_singleton] at drawn
    rw [drawn, zero]
  · intro every
    have onChain : last ∈ history nSegs read := (mem_of_chain linking.chain).mp List.mem_cons_self
    rcases mem_history.mp onChain with zero | ⟨rnd, member, same⟩
    · exact zero
    · rw [← same, every rnd member]

theorem leadingFirst_all (every : ∀ rnd ∈ read, segment nSegs rnd = 0) : leadingFirst nSegs read = read.length := by
  rw [leadingFirst, List.takeWhile_eq_self_iff.mpr fun rnd member => by simpa using every rnd member]

theorem count_all (every : ∀ rnd ∈ read, segment nSegs rnd = 0) : (history nSegs read).count 0 = leadingFirst nSegs read + 1 := by
  have zeros : read.map (segment nSegs) = List.replicate read.length 0 :=
    List.eq_replicate_iff.mpr ⟨List.length_map .., by simpa using every⟩
  rw [leadingFirst_all every, history, zeros, List.reverse_replicate, List.count_append, List.count_replicate_self,
    List.count_singleton_self]

theorem Linking.leadingFirst_concat {empty : Nat}
    (linking : Linking addr segSize nSegs empty read linked setup links last older) (rnd : UInt64) :
    leadingFirst nSegs (read ++ [rnd]) =
      leadingFirst nSegs read + if last = 0 ∧ segment nSegs rnd = 0 then 1 else 0 := by
  unfold leadingFirst
  rw [List.takeWhile_append]
  by_cases zero : last = 0
  · have every := linking.newest_first.mp zero
    have whole : read.takeWhile (fun rnd => segment nSegs rnd = 0) = read :=
      List.takeWhile_eq_self_iff.mpr fun rnd member => by simpa using every rnd member
    rw [whole, if_pos rfl, List.length_append]
    by_cases first : segment nSegs rnd = 0
    · simp [zero, first]
    · simp [first]
  · rw [if_neg, if_neg (fun both => zero both.1), Nat.add_zero]
    intro full
    have whole := (List.takeWhile_prefix fun rnd => decide (segment nSegs rnd = 0)).eq_of_length full
    refine zero (linking.newest_first.mpr fun rnd member => ?_)
    rw [← whole] at member
    simpa using List.mem_takeWhile_imp member

theorem BaseLinking.start (area : Area addr segSize nSegs addr) {heap : Heap UInt8}
    (marked : heap.Row addr segSize nSegs fun _ => addr) :
    BaseLinking addr segSize nSegs [] [] (startSetup heap addr) (fun _ => addr) 0 [] where
  toLinking := Linking.start area marked
  open_iff := iff_of_true rfl (Or.inl rfl)
  baseCounted := rfl

theorem place_eq_addr (area : Area addr segSize nSegs addr) {index : Nat} : place addr segSize index = addr ↔ index = 0 := by
  constructor
  · intro same
    by_contra other
    exact area.marked index other same
  · rintro rfl
    exact place_zero addr segSize

theorem BaseLinking.tail_count (linking : BaseLinking addr segSize nSegs read linked setup links last older) :
    0 < (history nSegs read).count last ∧ (last = 0 → (history nSegs read).count last = leadingFirst nSegs read + 1) := by
  constructor
  · exact List.count_pos_iff.mpr ((mem_of_chain linking.chain).mp List.mem_cons_self)
  · intro zero
    have all := count_all (linking.newest_first.mp zero)
    rwa [zero]

theorem BaseLinking.acceptTail (area : Area addr segSize nSegs addr)
    (linking : BaseLinking addr segSize nSegs read linked setup links (segment nSegs rnd) older)
    (vacant : links (segment nSegs rnd) = addr) (counted : next.nDone = setup.nDone + 1)
    (grown : Linking addr segSize nSegs addr (read ++ [rnd]) (linked ++ [segment nSegs rnd]) next
      (Function.update links (segment nSegs rnd) (place addr segSize (segment nSegs rnd))) (segment nSegs rnd) older) :
    BaseLinking addr segSize nSegs (read ++ [rnd]) (linked ++ [segment nSegs rnd]) next
      (Function.update links (segment nSegs rnd) (place addr segSize (segment nSegs rnd))) (segment nSegs rnd) older where
  toLinking := grown
  open_iff := by
    have positive := linking.tail_count.1
    rw [Function.update_self, place_eq_addr area, history_concat, List.count_cons_self]
    omega
  baseCounted := by
    have before := linking.baseCounted
    have onlyFirst := linking.tail_count.2
    have open_iff := linking.open_iff.mp vacant
    rw [history_concat, tailRedraws_cons _ linking.chain, linking.leadingFirst_concat, counted]
    by_cases zero : segment nSegs rnd = 0
    · have all := onlyFirst zero
      by_cases fresh : leadingFirst nSegs read = 0
      · rw [if_pos ⟨rfl, by omega⟩, if_pos ⟨zero, zero⟩]
        omega
      · rw [if_neg (by omega), if_pos ⟨zero, zero⟩]
        omega
    · rw [if_pos ⟨rfl, open_iff.resolve_left zero⟩, if_neg (fun both => zero both.1)]
      omega

theorem BaseLinking.acceptFresh (linking : BaseLinking addr segSize nSegs read linked setup links last older)
    (fresh : segment nSegs rnd ∉ last :: older) (counted : next.nDone = setup.nDone + 1)
    (grown : Linking addr segSize nSegs addr (read ++ [rnd]) (linked ++ [segment nSegs rnd]) next
      (Function.update links last (place addr segSize (segment nSegs rnd))) (segment nSegs rnd) (last :: older)) :
    BaseLinking addr segSize nSegs (read ++ [rnd]) (linked ++ [segment nSegs rnd]) next
      (Function.update links last (place addr segSize (segment nSegs rnd))) (segment nSegs rnd) (last :: older) where
  toLinking := grown
  open_iff := by
    obtain ⟨_, once, other⟩ := history_fresh linking.chain fresh
    rw [Function.update_of_ne other, linking.chained.free _ fresh, history_concat]
    exact iff_of_true rfl (Or.inr once)
  baseCounted := by
    have before := linking.baseCounted
    have other : segment nSegs rnd ≠ last := (history_fresh linking.chain fresh).2.2
    have notFirst : segment nSegs rnd ≠ 0 := fun zero =>
      fresh ((mem_of_chain linking.chain).mpr (mem_history.mpr (Or.inl zero)))
    rw [history_concat, tailRedraws_cons _ linking.chain, linking.leadingFirst_concat, counted,
      if_neg (fun both => other both.1), if_neg (fun both => notFirst both.2), List.length_cons]
    omega

theorem BaseLinking.conflict (linking : BaseLinking addr segSize nSegs read linked setup links last older)
    (occupied : links (segment nSegs rnd) ≠ addr) (counted : next.nDone = setup.nDone)
    (kept : Linking addr segSize nSegs addr (read ++ [rnd]) linked next links last older) :
    BaseLinking addr segSize nSegs (read ++ [rnd]) linked next links last older where
  toLinking := kept
  open_iff := by
    have positive := linking.tail_count.1
    have open_iff := linking.open_iff
    rw [history_concat, List.count_cons]
    by_cases newest : segment nSegs rnd = last
    · rw [newest] at occupied
      simp only [newest, beq_self_eq_true, if_true]
      omega
    · simpa [newest] using open_iff
  baseCounted := by
    have before := linking.baseCounted
    have shut : segment nSegs rnd = last → last ≠ 0 ∧ (history nSegs read).count last ≠ 1 := by
      intro newest
      rw [newest] at occupied
      exact not_or.mp (mt linking.open_iff.mpr occupied)
    rw [history_concat, tailRedraws_cons _ linking.chain, linking.leadingFirst_concat, counted,
      if_neg (fun both => (shut both.1).2 both.2),
      if_neg (fun both => (shut (both.2.trans both.1.symm)).1 both.1)]
    omega

theorem BaseLinking.turn (area : Area addr segSize nSegs addr)
    (linking : BaseLinking addr segSize nSegs read linked setup links last older) (more : setup.nDone < nSegs)
    (turn : takeDraw addr segSize nSegs addr giveUp setup rnd = some (next, stop)) :
    ∃ linked' links' last' older', BaseLinking addr segSize nSegs (read ++ [rnd]) linked' next links' last' older' := by
  rcases takeDraw_cases giveUp area linking.toLinking more rnd with
    ⟨vacant, heap, last', older', taken, grown, ⟨rfl, rfl, rfl⟩ | ⟨fresh, rfl, rfl⟩⟩ | ⟨occupied, taken, kept⟩
  · rw [taken] at turn
    cases turn
    exact ⟨_, _, _, _, linking.acceptTail area vacant rfl grown⟩
  · rw [taken] at turn
    cases turn
    exact ⟨_, _, _, _, linking.acceptFresh fresh rfl grown⟩
  · rw [taken] at turn
    by_cases tooMany : giveUp setup.nDone = true
    · rw [if_pos tooMany] at turn
      cases turn
      exact ⟨_, _, _, _, linking.conflict occupied rfl (kept setup.nConflict)⟩
    · rw [if_neg tooMany] at turn
      cases turn
      exact ⟨_, _, _, _, linking.conflict occupied rfl (kept (setup.nConflict + 1))⟩

theorem base_keeps (area : Area addr segSize nSegs addr) (giveUp : Nat → Bool) {heap : Heap UInt8}
    (marked : heap.Row addr segSize nSegs fun _ => addr) {draws : List UInt64} {outcome : Outcome}
    (ran : drawLoop addr segSize nSegs addr giveUp (startSetup heap addr) draws = some outcome) :
    Keeps nSegs giveUp
      (fun read setup => ∃ linked links last older, BaseLinking addr segSize nSegs read linked setup links last older)
      draws outcome := by
  refine drawLoop_rule _ ?_ ⟨_, _, _, _, BaseLinking.start area marked⟩ area.nonempty ran
  intro read setup rnd next stop held more turn
  obtain ⟨linked, links, last, older, linking⟩ := held
  exact linking.turn area more turn

theorem base_leaves (area : Area addr segSize nSegs addr) (giveUp : Nat → Bool) {heap : Heap UInt8}
    (marked : heap.Row addr segSize nSegs fun _ => addr) {draws unread : List UInt64} {final : Setup} {early : Bool}
    (run : (do
      let outcome ← drawLoop addr segSize nSegs addr giveUp (startSetup heap addr) draws
      makeRing addr outcome) = some (.left final early unread)) :
    ∃ used linked, draws = used ++ unread ∧
      RingMade addr segSize nSegs addr used linked final (history nSegs used).dedup.reverse ∧
      final.nDone ≤ nSegs ∧
      final.nDone + 1 = (history nSegs used).dedup.length + tailRedraws (history nSegs used) + (leadingFirst nSegs used - 1) ∧
      if early = true then giveUp final.nDone = true else nSegs ≤ final.nDone := by
  obtain ⟨middle, ran, closed⟩ := Option.bind_eq_some_iff.mp run
  obtain ⟨before, heap, rfl, stored, rfl⟩ := makeRing_left closed
  obtain ⟨used, split, ⟨linked, links, last, older, linking⟩, finished⟩ := base_keeps area giveUp marked ran
  have counted := linking.baseCounted
  rw [← linking.chain] at counted
  exact ⟨used, linked, split, linking.closes area stored, linking.atMost, counted, finished⟩

end

/-- `setup_rnd` of `ParallelCacheMiss.c` after its page-fault loop. -/
theorem setupRnd_cleared {addr size segSize : Nat} (area : Area addr segSize (size / segSize) addr) {heap : Heap UInt8}
    (allocated : heap.Allocated addr (size / segSize * segSize)) :
    ∃ cleared : Heap UInt8, cleared.Row addr segSize (size / segSize) (fun _ => addr) ∧
      ∀ aboveRatio draws, ParallelCacheMiss.setupRnd aboveRatio heap addr size segSize draws = (do
        let outcome ← drawLoop addr segSize (size / segSize) addr
          (ParallelCacheMiss.giveUp aboveRatio (size / segSize)) (startSetup cleared addr) draws
        makeRing addr outcome) := by
  obtain ⟨cleared, clear, marked⟩ := clearSegments_spec area allocated
  refine ⟨cleared, marked, fun aboveRatio draws => ?_⟩
  simp only [ParallelCacheMiss.setupRnd, clear, Option.bind_eq_bind, Option.bind_some]

end Mbench.LatencyRing
