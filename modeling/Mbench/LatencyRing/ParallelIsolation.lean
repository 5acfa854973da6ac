import Mbench.LatencyRing.ParallelTest
import Mbench.LatencyRing.ZeroMarker

/-! The threads of `parallel_test` keep to their own parts of the area and their own rows of
`debug_ret`. While a thread links its segments its pointer is the newest segment of the chain,
and while it fills it is a segment of the ring. -/

namespace Mbench.LatencyRing
open Library

/-- An access to the words in `[addr, addr + size)` and to the row `myidx`. -/
def Access.Inside (addr size myidx : Nat) : Access → Prop
  | .load address => addr ≤ address ∧ address + 8 ≤ addr + size
  | .store address _ => addr ≤ address ∧ address + 8 ≤ addr + size
  | .record row _ _ => row = myidx

/-- The memory in `[addr, addr + size)` and the row `myidx`. -/
def share (addr size myidx : Nat) (shared : Shared) : Heap UInt8 × (Fin 4 → Nat) :=
  (fun cell => if addr ≤ cell ∧ cell < addr + size then shared.heap cell else none, shared.debugRet myidx)

section
variable {addr size segSize nSegs myidx : Nat} {giveUp : Nat → Bool} {shared : Shared} {links : Nat → Nat}
  {last : Nat} {older nodes : List Nat} {read : List UInt64} {linked : List Nat} {locals : Locals}

theorem share_eq_iff {first second : Shared} :
    share addr size myidx first = share addr size myidx second ↔
      (∀ cell : Int, addr ≤ cell → cell < addr + size → first.heap cell = second.heap cell) ∧
        first.debugRet myidx = second.debugRet myidx := by
  rw [share, share, Prod.mk.injEq, funext_iff]
  apply and_congr_left
  intro _
  apply forall_congr'
  intro cell
  by_cases inside : addr ≤ cell ∧ cell < addr + size
  · simp [inside.1, inside.2]
  · rw [if_neg inside, if_neg inside]
    exact iff_of_true rfl fun from_ upto => absurd ⟨from_, upto⟩ inside

/-! The accesses of one thread that runs alone. -/

theorem place_inside (room : nSegs * segSize ≤ size) {index : Nat} (inside : index < nSegs) :
    addr ≤ place addr segSize index ∧ place addr segSize index + segSize ≤ addr + size := by
  have bound : index * segSize + segSize ≤ nSegs * segSize := Heap.slot_bounds inside
  unfold place
  omega

theorem load_inside (myidx : Nat) (wide : 8 ≤ segSize) (room : nSegs * segSize ≤ size) {index : Nat}
    (inside : index < nSegs) : (Access.load (place addr segSize index)).Inside addr size myidx := by
  have bounds : addr ≤ place addr segSize index ∧ place addr segSize index + segSize ≤ addr + size :=
    place_inside room inside
  exact ⟨bounds.1, by omega⟩

theorem store_inside (myidx value : Nat) (wide : 8 ≤ segSize) (room : nSegs * segSize ≤ size) {index : Nat}
    (inside : index < nSegs) : (Access.store (place addr segSize index) value).Inside addr size myidx :=
  load_inside myidx wide room inside

theorem record_inside (addr size myidx : Nat) (column : Fin 4) (value : Nat) :
    (Access.record myidx column value).Inside addr size myidx := rfl

theorem perform_load {address word : Nat} (loaded : shared.heap.load64 address = some word) :
    (Access.load address).perform shared = some (word, shared) := by
  rw [Access.perform, loaded]
  rfl

theorem perform_store {address value : Nat} {heap : Heap UInt8} (stored : shared.heap.store64 address value = some heap) :
    (Access.store address value).perform shared = some (0, { shared with heap }) := by
  rw [Access.perform, stored]
  rfl

theorem confined_turnThread (area : Area addr segSize nSegs 0) (room : nSegs * segSize ≤ size)
    (linking : Linking addr segSize nSegs 0 read linked (locals.over shared.heap) links last older) (rnd : UInt64) :
    Confined Access.perform (Access.Inside addr size myidx) (turnThread addr segSize nSegs giveUp locals rnd) shared := by
  have inside : segment nSegs rnd < nSegs := Nat.mod_lt _ area.nonempty
  have lastInside := linking.inside last List.mem_cons_self
  apply Confined.act (load_inside myidx area.wide room inside) (perform_load (linking.load inside))
  by_cases free : links (segment nSegs rnd) = 0
  · rw [if_neg (not_not.mpr free)]
    obtain ⟨heap, stored, _⟩ := linking.row.store64 area.wide lastInside (place_lt area inside)
    have tail : locals.pos = place addr segSize last := linking.tail
    rw [tail]
    exact Confined.act (store_inside myidx _ area.wide room lastInside) (perform_store stored) trivial
  · rw [if_pos free]
    split
    next _ => trivial
    next _ => trivial

theorem confined_drawThread (area : Area addr segSize nSegs 0) (room : nSegs * segSize ≤ size) (draws : List UInt64)
    (linking : Linking addr segSize nSegs 0 read linked (locals.over shared.heap) links last older)
    (more : locals.nDone < nSegs) :
    Confined Access.perform (Access.Inside addr size myidx) (drawThread addr segSize nSegs giveUp locals draws) shared := by
  induction draws generalizing read linked locals shared links last older with
  | nil => trivial
  | cons rnd draws ih =>
    apply Confined.bind (confined_turnThread area room linking rnd)
    intro turn later ran
    rw [exec_turnThread] at ran
    obtain ⟨next, stop, links', last', older', turned, linking'⟩ := takeDraw_spec giveUp area linking more rnd
    rw [turned] at ran
    cases ran
    change Confined _ _ (if stop = true then _ else if next.nDone < nSegs then _ else _) _
    by_cases halt : stop = true
    · rw [if_pos halt]
      trivial
    · rw [if_neg halt]
      by_cases again : next.nDone < nSegs
      · rw [if_pos again]
        exact ih linking' again
      · rw [if_neg again]
        trivial

theorem confined_closeThread (area : Area addr segSize nSegs 0) (room : nSegs * segSize ≤ size) (row : myidx < 256)
    (linking : Linking addr segSize nSegs 0 read linked (locals.over shared.heap) links last older) :
    Confined Access.perform (Access.Inside addr size myidx) (closeThread addr myidx locals) shared := by
  have lastInside := linking.inside last List.mem_cons_self
  obtain ⟨heap, stored, ring, _⟩ := linking.closed area
  have tail : locals.pos = place addr segSize last := linking.tail
  rw [Locals.over_heap, Locals.over_pos, tail] at stored
  unfold closeThread
  rw [tail]
  apply Confined.act (store_inside myidx addr area.wide room lastInside) (perform_store stored)
  apply Confined.act (record_inside ..) (perform_record row)
  apply Confined.act (record_inside ..) (perform_record row)
  apply Confined.act (record_inside ..) (perform_record row)
  apply Confined.act (load_inside myidx area.wide room lastInside) (perform_load (ring.word last lastInside))
  exact Confined.act (record_inside ..) (perform_record row) trivial

theorem confined_fillThread (myidx : Nat) (wide : 16 ≤ segSize) (room : nSegs * segSize ≤ size)
    (row : shared.heap.Row addr segSize nSegs links) (ring : Ring (place addr segSize) 0 links nodes)
    (inside : ∀ index ∈ nodes, index < nSegs) (count : Nat) {index : Nat} (member : index ∈ nodes) :
    Confined Access.perform (Access.Inside addr size myidx) (fillThread count (place addr segSize index)) shared := by
  induction count generalizing shared index with
  | zero => trivial
  | succ count ih =>
    have here := inside index member
    have bounds : addr ≤ place addr segSize index ∧ place addr segSize index + segSize ≤ addr + size :=
      place_inside room here
    obtain ⟨heap, stored, kept⟩ := row.store64_beside wide here (by decide : 1 < 2 ^ 64)
    obtain ⟨next, nextMember, successor⟩ := ring.successor member
    have loaded := kept.word index here
    rw [successor] at loaded
    have second : (Access.store (place addr segSize index + 8) 1).Inside addr size myidx := ⟨by omega, by omega⟩
    apply Confined.act second (perform_store stored)
    apply Confined.act (load_inside myidx (by omega) room here) (perform_load loaded)
    exact ih kept nextMember

theorem confined_leave (area : Area addr segSize nSegs 0) (narrow : 16 ≤ segSize) (room : nSegs * segSize ≤ size)
    (row : myidx < 256) (linking : Linking addr segSize nSegs 0 read linked (locals.over shared.heap) links last older)
    (count : Nat) :
    Confined Access.perform (Access.Inside addr size myidx)
      (do
        closeThread addr myidx locals
        let q ← fillThread count addr
        pure (Finish.filled q)) shared := by
  apply Confined.bind (confined_closeThread area room row linking)
  intro _ closed ran
  rw [exec_closeThread row] at ran
  obtain ⟨heap, stored, ran⟩ := Option.bind_eq_some_iff.mp ran
  obtain ⟨values, _, ran⟩ := Option.bind_eq_some_iff.mp ran
  obtain ⟨heap', stored', linkedRow, ring⟩ := linking.closed area
  rw [Locals.over_heap, Locals.over_pos, stored, Option.some.injEq] at stored'
  subst stored'
  have same : closed.heap = heap := by
    cases ran
    rfl
  have inside : ∀ index ∈ (last :: older).reverse, index < nSegs := fun index member =>
    linking.inside index (List.mem_reverse.mp member)
  have first : 0 ∈ (last :: older).reverse := List.mem_of_mem_head? ring.start
  rw [← same] at linkedRow
  have filling := confined_fillThread myidx narrow room linkedRow ring inside count first
  rw [place_zero] at filling
  apply Confined.bind filling
  intro q filled _
  trivial

theorem segments_marked (wide : 8 ≤ segSize) {heap : Heap UInt8} (zeroed : heap.Holds addr (List.replicate size 0)) :
    heap.Row addr segSize (size / segSize) fun _ => 0 := by
  have room : size / segSize * segSize ≤ size := Nat.div_mul_le_self size segSize
  have front := zeroed.window 0 (size / segSize * segSize) (by rw [List.length_replicate]; omega)
  rw [Nat.cast_zero, Int.add_zero, List.drop_zero, List.take_replicate, Nat.min_eq_left room] at front
  exact Heap.row_of_zeros wide front

theorem confined_testThread (aboveRatio : Nat → Nat → Bool) (narrow : 16 ≤ segSize) (wide : segSize ≤ size)
    (fits : addr + size ≤ 2 ^ 64) (row : myidx < 256)
    (zeroed : shared.heap.Holds addr (List.replicate size 0)) (itr1 itr2 : Nat) (draws : List UInt64) :
    Confined Access.perform (Access.Inside addr size myidx)
      (testThread aboveRatio addr size segSize myidx itr1 itr2 draws) shared := by
  have room : size / segSize * segSize ≤ size := Nat.div_mul_le_self size segSize
  have segments : 1 ≤ size / segSize := (Nat.one_le_div_iff (by omega)).mpr wide
  have area : Area addr segSize (size / segSize) 0 := area_zero (by omega) segments (by omega)
  have marked := segments_marked area.wide zeroed
  apply Confined.bind (confined_drawThread area room draws (Linking.start area marked) area.nonempty)
  intro halt later ran
  rw [exec_drawThread] at ran
  obtain ⟨outcome, left, same⟩ := Option.map_eq_some_iff.mp ran
  cases same
  have kept := linking_keeps area marked left
  cases outcome with
  | waiting setup => trivial
  | left setup early unread =>
    obtain ⟨used, _, ⟨linked, links, last, older, linking⟩, _⟩ := kept
    exact confined_leave area narrow room row linking (wrOnes itr1 itr2)

/-! What the threads have to do with each other. -/

theorem perform_local {action : Access} {first second later : Shared} {answer : Nat} (owned : action.Inside addr size myidx)
    (same : share addr size myidx first = share addr size myidx second)
    (performed : action.perform first = some (answer, later)) :
    ∃ other, action.perform second = some (answer, other) ∧ share addr size myidx later = share addr size myidx other := by
  have agree := share_eq_iff.mp same
  cases action with
  | load address =>
    obtain ⟨from_, upto⟩ : addr ≤ address ∧ address + 8 ≤ addr + size := owned
    obtain ⟨word, loaded, found⟩ := Option.bind_eq_some_iff.mp performed
    cases found
    refine ⟨second, perform_load ?_, same⟩
    rw [← loaded]
    apply Heap.load64_congr
    intro cell start stop
    exact (agree.1 cell (by omega) (by omega)).symm
  | store address value =>
    obtain ⟨from_, upto⟩ : addr ≤ address ∧ address + 8 ≤ addr + size := owned
    obtain ⟨heap, stored, written⟩ := Option.bind_eq_some_iff.mp performed
    cases written
    obtain ⟨allocated, spliced⟩ := Heap.store64_eq_some stored
    have moved : second.heap.Allocated address 8 := by
      intro offset small
      rw [← agree.1 _ (by omega) (by omega)]
      exact allocated offset small
    refine ⟨_, perform_store (Heap.Allocated.write (by rwa [bytes_length])), share_eq_iff.mpr ⟨?_, agree.2⟩⟩
    intro cell start stop
    rw [spliced]
    exact Heap.splice_congr (agree.1 cell start stop)
  | record row column value =>
    obtain rfl : row = myidx := owned
    rw [Access.perform] at performed
    split at performed
    next small =>
      cases performed
      refine ⟨_, perform_record small, share_eq_iff.mpr ⟨agree.1, ?_⟩⟩
      simp only [Function.update_self, agree.2]
    next _ => cases performed

theorem perform_frame {action : Access} {state later : Shared} {answer base row : Nat} (owned : action.Inside addr size myidx)
    (apart : addr + size ≤ base ∨ base + size ≤ addr) (other : row ≠ myidx)
    (performed : action.perform state = some (answer, later)) :
    share base size row later = share base size row state := by
  rw [share_eq_iff]
  cases action with
  | load address =>
    obtain ⟨word, _, found⟩ := Option.bind_eq_some_iff.mp performed
    cases found
    exact ⟨fun _ _ _ => rfl, rfl⟩
  | store address value =>
    obtain ⟨from_, upto⟩ : addr ≤ address ∧ address + 8 ≤ addr + size := owned
    obtain ⟨heap, stored, written⟩ := Option.bind_eq_some_iff.mp performed
    cases written
    obtain ⟨_, spliced⟩ := Heap.store64_eq_some stored
    refine ⟨fun cell start stop => ?_, rfl⟩
    rw [spliced]
    apply Heap.splice_outside
    rw [bytes_length]
    simp only [Outside]
    omega
  | record written column value =>
    obtain rfl : written = myidx := owned
    rw [Access.perform] at performed
    split at performed
    next _ =>
      cases performed
      exact ⟨fun _ _ _ => rfl, Function.update_of_ne other ..⟩
    next _ => cases performed

end

/-! The parts of the area. -/

theorem parts_apart (ptr size : Nat) {first second : Nat} (different : first ≠ second) :
    ptr + first * size + size ≤ ptr + second * size ∨ ptr + second * size + size ≤ ptr + first * size := by
  have apart : first * size + size ≤ second * size ∨ second * size + size ≤ first * size := Heap.slot_apart different
  omega

theorem separated (numThreads ptr size : Nat) :
    Separated Access.perform (fun idx : Fin numThreads => Access.Inside (ptr + idx * size) size idx)
      (fun idx => share (ptr + idx * size) size idx) where
  local_ := fun _ _ _ _ _ _ owned same performed => perform_local owned same performed
  frame := by
    intro idx other action state answer later owned different performed
    have rows : (other : Nat) ≠ idx := fun same => different (Fin.ext same)
    exact perform_frame owned (parts_apart ptr size rows.symm) rows performed

theorem forLoop_clears {addr part : Nat} (count : Nat) {heap cleared : Heap UInt8}
    (looped : forLoop (fun i heap => heap.write ↑(addr + i * part) (List.replicate part 0)) count heap = some cleared) :
    cleared.Holds addr (List.replicate (count * part) 0) := by
  induction count generalizing cleared with
  | zero => simp
  | succ count ih =>
    obtain ⟨middle, before, written⟩ := Option.bind_eq_some_iff.mp looped
    obtain ⟨_, spliced⟩ := Heap.write_eq_some written
    rw [Nat.succ_mul, ← List.replicate_append_replicate, Heap.holds_append, List.length_replicate, spliced]
    constructor
    · exact (ih before).splice_disjoint (Or.inl (by rw [List.length_replicate]; push_cast; rfl))
    · rw [← Nat.cast_add]
      exact Heap.holds_splice_self

theorem part_zeroed {heap cleared : Heap UInt8} {ptr size numThreads : Nat}
    (zeroed : MemLat.parallelMemset heap ptr (size * numThreads) numThreads = some cleared) (idx : Fin numThreads) :
    cleared.Holds ↑(ptr + idx * size) (List.replicate size 0) := by
  unfold MemLat.parallelMemset at zeroed
  rw [Nat.mul_div_cancel size idx.pos] at zeroed
  have bound : idx * size + size ≤ numThreads * size := Heap.slot_bounds idx.isLt
  have part := (forLoop_clears numThreads zeroed).window (idx * size) size (by rw [List.length_replicate]; exact bound)
  rw [List.drop_replicate, List.take_replicate, Nat.min_eq_left (by omega), ← Nat.cast_add] at part
  exact part

section
variable {aboveRatio : Nat → Nat → Bool} {ptr size numThreads stride defaultLoop : Nat} {draws : Fin numThreads → List UInt64}
  {shared : Shared}

theorem mainTest_thread (idx : Fin numThreads) :
    (MemLat.mainTest aboveRatio ptr size numThreads stride defaultLoop draws shared).remaining idx =
      testThread aboveRatio (ptr + idx * size) size stride idx defaultLoop (1000 * 10) (draws idx) := by
  change testThread _ _ (size * numThreads / numThreads) _ _ _ _ _ = _
  rw [Nat.mul_div_cancel size idx.pos]

theorem mainTest_confined (threads : numThreads ≤ 256) (narrow : 16 ≤ stride) (wide : stride ≤ size)
    (fits : ptr + size * numThreads ≤ 2 ^ 64) {heap : Heap UInt8}
    (zeroed : MemLat.parallelMemset heap ptr (size * numThreads) numThreads = some shared.heap) (idx : Fin numThreads) :
    Confined Access.perform (Access.Inside (ptr + idx * size) size idx)
      ((MemLat.mainTest aboveRatio ptr size numThreads stride defaultLoop draws shared).remaining idx) shared := by
  have bound : idx * size + size ≤ numThreads * size := Heap.slot_bounds idx.isLt
  rw [Nat.mul_comm numThreads] at bound
  rw [mainTest_thread idx]
  exact confined_testThread aboveRatio narrow wide (by omega) (by omega) (part_zeroed zeroed idx) _ _ _

end

/-- One of the threads in an interleaved run: it is where it would be alone after as many
accesses of its own, with its part of memory and its row as they would be there; it can go on
until it is done; and when it is done these are what its sequential run leaves, which always
comes to an end. -/
structure Isolated {numThreads : Nat} (start final : Threads (Fin numThreads) Access Nat Finish Shared)
    (schedule : List (Fin numThreads)) (addr size : Nat) (sequential : Option (Finish × Shared)) (idx : Fin numThreads) :
    Prop where
  alone : ∃ shared, solo Access.perform (schedule.count idx) (start.remaining idx, start.state) =
    some (final.remaining idx, shared) ∧ share addr size idx shared = share addr size idx final.state
  enabled : (∃ finish, final.remaining idx = .done finish) ∨ ∃ next, threadStep Access.perform idx final = some next
  ends : ∃ finish shared, sequential = some (finish, shared)
  result : ∀ finish, final.remaining idx = .done finish → ∃ shared, sequential = some (finish, shared) ∧
    share addr size idx shared = share addr size idx final.state

theorem parallelTest_isolated (aboveRatio : Nat → Nat → Bool) (heap cleared : Heap UInt8) (debugRet : Nat → Fin 4 → Nat)
    (ptr size numThreads stride defaultLoop : Nat) (threads : numThreads ≤ 256) (narrow : 16 ≤ stride) (wide : stride ≤ size)
    (fits : ptr + size * numThreads ≤ 2 ^ 64)
    (zeroed : MemLat.parallelMemset heap ptr (size * numThreads) numThreads = some cleared)
    (draws : Fin numThreads → List UInt64) (schedule : List (Fin numThreads))
    (final : Threads (Fin numThreads) Access Nat Finish Shared)
    (ran : run (threadStep Access.perform) schedule
      (MemLat.mainTest aboveRatio ptr size numThreads stride defaultLoop draws { heap := cleared, debugRet }) = some final) :
    (∀ taken ∈ trace (threadStep Access.perform) nextAction schedule
        (MemLat.mainTest aboveRatio ptr size numThreads stride defaultLoop draws { heap := cleared, debugRet }),
      taken.2.Inside (ptr + taken.1 * size) size taken.1) ∧
    ∀ idx : Fin numThreads, Isolated
      (MemLat.mainTest aboveRatio ptr size numThreads stride defaultLoop draws { heap := cleared, debugRet }) final
      schedule (ptr + idx * size) size
      (MemLat.sequentialTest aboveRatio (ptr + idx * size) size stride idx defaultLoop (1000 * 10) (draws idx)
        { heap := cleared, debugRet }) idx := by
  have confined (idx : Fin numThreads) : Confined Access.perform (Access.Inside (ptr + idx * size) size idx)
      ((MemLat.mainTest aboveRatio ptr size numThreads stride defaultLoop draws { heap := cleared, debugRet }).remaining idx)
      { heap := cleared, debugRet } := mainTest_confined threads narrow wide fits zeroed idx
  refine ⟨run_owned (separated numThreads ptr size) confined ran, fun idx => ?_⟩
  have alone := run_alone (separated numThreads ptr size) confined ran idx
  have small : (idx : Nat) < 256 := by omega
  constructor
  · obtain ⟨shared, stepped, same, _⟩ := alone
    exact ⟨shared, stepped, same⟩
  · exact alone.enabled (separated numThreads ptr size)
  · obtain ⟨finish, shared, ended⟩ := (confined idx).exec
    rw [mainTest_thread idx, exec_testThread small] at ended
    exact ⟨finish, shared, ended⟩
  · intro finish done
    obtain ⟨shared, ended, same⟩ := alone.result done
    rw [mainTest_thread idx] at ended
    exact ⟨shared, (exec_testThread small).symm.trans ended, same⟩

def twoParts : Heap UInt8 := Heap.splice Heap.empty 64 (List.replicate 64 7)

def turns : List (Fin 2) := (List.replicate 12 [0, 1, 1, 0]).flatten

set_option maxRecDepth 10000 in
theorem parallelTest_isolated_two : ∃ cleared final,
    (∀ taken ∈ trace (threadStep Access.perform) nextAction turns
        (MemLat.mainTest (fun _ _ => false) 64 32 2 16 1 (fun _ => [0, 1]) { heap := cleared, debugRet := fun _ _ => 0 }),
      taken.2.Inside (64 + taken.1 * 32) 32 taken.1) ∧
    ∀ idx : Fin 2, Isolated
      (MemLat.mainTest (fun _ _ => false) 64 32 2 16 1 (fun _ => [0, 1]) { heap := cleared, debugRet := fun _ _ => 0 }) final
      turns (64 + idx * 32) 32
      (MemLat.sequentialTest (fun _ _ => false) (64 + idx * 32) 32 16 idx 1 (1000 * 10) [0, 1]
        { heap := cleared, debugRet := fun _ _ => 0 }) idx :=
  ⟨_, _, parallelTest_isolated (fun _ _ => false) twoParts _ (fun _ _ => 0) 64 32 2 16 1 (by decide) (by decide)
    (by decide) (by decide) rfl (fun _ => [0, 1]) turns _ rfl⟩

end Mbench.LatencyRing
