import Mbench.LatencyRing.SetupRndSpec

/-! Runs of the drawing loop: what every turn keeps holds wherever a run stands, and the
count of accepted draws follows from the draws, also where the mark is the address of the
first segment. -/

namespace Mbench.LatencyRing
open Library

def Outcome.setup : Outcome → Setup
  | .waiting setup => setup
  | .left setup _ _ => setup

/-- An invariant of the draws read and the variables, wherever a run over `draws` stands. -/
def Keeps (nSegs : Nat) (giveUp : Nat → Bool) (invariant : List UInt64 → Setup → Prop) (draws : List UInt64) :
    Outcome → Prop
  | .waiting final => invariant draws final ∧ final.nDone < nSegs
  | .left final early unread => ∃ used, draws = used ++ unread ∧ invariant used final ∧
      if early = true then giveUp final.nDone = true else nSegs ≤ final.nDone

section
variable {addr segSize nSegs empty : Nat} {giveUp : Nat → Bool} {setup next : Setup} {stop : Bool} {rnd : UInt64}
  {draws : List UInt64} {outcome : Outcome}

theorem takeDraw_counts (turn : takeDraw addr segSize nSegs empty giveUp setup rnd = some (next, stop)) :
    (next.nDone = setup.nDone ∨ next.nDone = setup.nDone + 1) ∧ (stop = true → giveUp next.nDone = true) := by
  rw [takeDraw] at turn
  obtain ⟨word, _, turn⟩ := Option.bind_eq_some_iff.mp turn
  by_cases vacant : word = empty
  · rw [if_neg (not_not.mpr vacant)] at turn
    obtain ⟨heap, _, turn⟩ := Option.bind_eq_some_iff.mp turn
    cases turn
    exact ⟨Or.inr rfl, by simp⟩
  · rw [if_pos vacant] at turn
    by_cases tooMany : giveUp setup.nDone = true
    · rw [if_pos tooMany] at turn
      cases turn
      exact ⟨Or.inl rfl, fun _ => tooMany⟩
    · rw [if_neg tooMany] at turn
      cases turn
      exact ⟨Or.inl rfl, by simp⟩

theorem drawLoop_turn (ran : drawLoop addr segSize nSegs empty giveUp setup (rnd :: draws) = some outcome) :
    ∃ next stop, takeDraw addr segSize nSegs empty giveUp setup rnd = some (next, stop) ∧
      (if stop = true then some (.left next true draws)
        else if next.nDone < nSegs then drawLoop addr segSize nSegs empty giveUp next draws
        else some (.left next false draws)) = some outcome := by
  rw [drawLoop] at ran
  obtain ⟨⟨next, stop⟩, turn, ran⟩ := Option.bind_eq_some_iff.mp ran
  exact ⟨next, stop, turn, ran⟩

theorem drawLoop_rule (invariant : List UInt64 → Setup → Prop)
    (kept : ∀ read setup rnd next stop, invariant read setup → setup.nDone < nSegs →
      takeDraw addr segSize nSegs empty giveUp setup rnd = some (next, stop) → invariant (read ++ [rnd]) next)
    (start : invariant [] setup) (more : setup.nDone < nSegs)
    (ran : drawLoop addr segSize nSegs empty giveUp setup draws = some outcome) :
    Keeps nSegs giveUp invariant draws outcome := by
  induction draws generalizing setup invariant with
  | nil =>
    cases Option.some.inj ran
    exact ⟨start, more⟩
  | cons rnd draws ih =>
    obtain ⟨next, stop, turn, ran⟩ := drawLoop_turn ran
    have held : invariant [rnd] next := kept [] setup rnd next stop start more turn
    by_cases halt : stop = true
    · rw [if_pos halt] at ran
      cases Option.some.inj ran
      exact ⟨[rnd], rfl, held, by rw [if_pos rfl]; exact (takeDraw_counts turn).2 halt⟩
    · rw [if_neg halt] at ran
      by_cases again : next.nDone < nSegs
      · rw [if_pos again] at ran
        have later := ih (fun read => invariant (rnd :: read)) (fun read => kept (rnd :: read)) held again ran
        cases outcome with
        | waiting final => exact later
        | left final early unread =>
          obtain ⟨used, split, kept⟩ := later
          exact ⟨rnd :: used, by rw [split, List.cons_append], kept⟩
      · rw [if_neg again] at ran
        cases Option.some.inj ran
        exact ⟨[rnd], rfl, held, Nat.le_of_not_lt again⟩

theorem drawLoop_accepted (ran : drawLoop addr segSize nSegs empty giveUp setup draws = some outcome) :
    outcome.setup.nDone =
      setup.nDone + (acceptedDraws addr segSize nSegs empty giveUp setup draws).length := by
  induction draws generalizing setup with
  | nil =>
    cases Option.some.inj ran
    rfl
  | cons rnd draws ih =>
    obtain ⟨next, stop, turn, ran⟩ := drawLoop_turn ran
    have counted : next.nDone =
        setup.nDone + (if setup.nDone < next.nDone then [segment nSegs rnd] else []).length := by
      rcases (takeDraw_counts turn).1 with same | more
      · rw [if_neg (by omega), same, List.length_nil, Nat.add_zero]
      · rw [if_pos (by omega), more, List.length_singleton]
    rw [acceptedDraws, turn]
    simp only [List.length_append]
    by_cases halt : stop = true
    · rw [if_pos halt] at ran
      cases Option.some.inj ran
      rw [if_pos halt, List.length_nil, Nat.add_zero]
      exact counted
    · rw [if_neg halt] at ran
      by_cases again : next.nDone < nSegs
      · rw [if_pos again] at ran
        rw [if_neg halt, if_pos again, ih ran]
        omega
      · rw [if_neg again] at ran
        cases Option.some.inj ran
        rw [if_neg halt, if_neg again, List.length_nil, Nat.add_zero]
        exact counted

theorem drawLoop_atMost (none : setup.nDone = 0) (more : setup.nDone < nSegs)
    (ran : drawLoop addr segSize nSegs empty giveUp setup draws = some outcome) :
    Keeps nSegs giveUp (fun read setup => setup.nDone ≤ read.length) draws outcome := by
  refine drawLoop_rule _ ?_ none.le more ran
  intro read setup rnd next stop held _ turn
  have counts := (takeDraw_counts turn).1
  rw [List.length_append, List.length_singleton]
  omega

theorem linking_keeps (area : Area addr segSize nSegs empty) {heap : Heap UInt8}
    (marked : heap.Row addr segSize nSegs fun _ => empty)
    (ran : drawLoop addr segSize nSegs empty giveUp (startSetup heap addr) draws = some outcome) :
    Keeps nSegs giveUp
      (fun read setup => ∃ linked links last older, Linking addr segSize nSegs empty read linked setup links last older)
      draws outcome := by
  refine drawLoop_rule _ ?_ ⟨_, _, _, _, Linking.start area marked⟩ area.nonempty ran
  intro read setup rnd next stop held more turn
  obtain ⟨linked, links, last, older, linking⟩ := held
  obtain ⟨next', stop', links', last', older', turn', linking'⟩ := takeDraw_spec giveUp area linking more rnd
  rw [turn] at turn'
  cases turn'
  exact ⟨_, links', last', older', linking'⟩

theorem makeRing_waiting {middle : Outcome} (closed : makeRing addr middle = some (.waiting setup)) :
    middle = .waiting setup := by
  cases middle with
  | waiting other => exact Option.some.inj closed
  | left other early unread =>
    rw [makeRing] at closed
    obtain ⟨heap, _, same⟩ := Option.bind_eq_some_iff.mp closed
    cases same

theorem makeRing_left {middle : Outcome} {early : Bool} {unread : List UInt64}
    (closed : makeRing addr middle = some (.left setup early unread)) :
    ∃ before heap, middle = .left before early unread ∧ before.heap.store64 before.pos addr = some heap ∧
      setup = { before with heap } := by
  cases middle with
  | waiting other => cases Option.some.inj closed
  | left other early unread =>
    rw [makeRing] at closed
    obtain ⟨heap, stored, same⟩ := Option.bind_eq_some_iff.mp closed
    cases same
    exact ⟨other, heap, rfl, stored, rfl⟩

theorem Linking.closes (area : Area addr segSize nSegs empty) {used : List UInt64} {linked : List Nat}
    {links : Nat → Nat} {last : Nat} {older : List Nat}
    (linking : Linking addr segSize nSegs empty used linked setup links last older) {heap : Heap UInt8}
    (stored : setup.heap.store64 setup.pos addr = some heap) :
    RingMade addr segSize nSegs empty used linked { setup with heap } (history nSegs used).dedup.reverse := by
  obtain ⟨closed, stored', made⟩ := linking.made area
  rw [stored] at stored'
  cases stored'
  rwa [linking.chain]

theorem makeRing_nDone {middle : Outcome} (closed : makeRing addr middle = some outcome) :
    outcome.setup.nDone = middle.setup.nDone := by
  cases outcome with
  | waiting setup => rw [makeRing_waiting closed]
  | left setup early unread =>
    obtain ⟨before, heap, same, _, rfl⟩ := makeRing_left closed
    rw [same]
    rfl

end

end Mbench.LatencyRing
