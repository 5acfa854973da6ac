import Mbench.LatencyRing.SharedRing
import Mbench.Library.ForkJoin

/-! The whole run of `main` of `mem_lat.c` once the buffer is allocated: `simple_test`, `parallel_test` and `modify_read`, each
on memory that a team has cleared. A stage is one parallel region, or what the master does alone between two of them. -/

namespace Mbench.LatencyRing
open Library

inductive MainAccess
  | word (access : Access)
  | zero (address : Nat)

def MainAccess.perform : MainAccess → Shared → Option (Nat × Shared)
  | .word access, shared => access.perform shared
  | .zero address, shared => do
      let heap ← shared.heap.store ↑address 0
      some (0, { shared with heap })

theorem perform_word (access : Access) (shared : Shared) :
    MainAccess.perform (.word access) shared = access.perform shared := rfl

def clearThread : Nat → Nat → Program MainAccess Nat (Option Nat)
  | 0, _ => pure (some 0)
  | count + 1, pos => do
      let _ ← Program.call (.zero pos)
      clearThread count (pos + 1)

/-- `setup_rnd`; it waits for ever when the draws are used up. -/
def setupThread (aboveRatio : Nat → Nat → Bool) (addr size segSize myidx : Nat) (draws : List UInt64) : Thread (Option Nat) := do
  let nSegs := size / segSize
  let halt ← drawThread addr segSize nSegs (MemLat.giveUp aboveRatio size nSegs) { pos := addr, nDone := 0, nConflict := 0 } draws
  match halt with
  | .waiting _ => pure none
  | .left locals _ _ => do
      closeThread addr myidx locals
      pure (some 0)

def measureThread (defaultLoop pos : Nat) (walk : Walk) : Thread (Option Nat) := do
  let paddr ← walkThread defaultLoop pos walk
  pure (some paddr)

/-- A team clears the buffer; a team sets up rings in as many parts; a team walks on the rings of some parts, each thread on
its own one or all from `ptr`. -/
inductive MemLat.Stage
  | clear
  | setup (team part : Nat) (draws : Nat → List UInt64)
  | measure (walk : Walk) (team : Nat) (own : Bool) (parts part : Nat)

/-- What `main` has computed when it begins: each of `omp_num_threads` threads has `size` bytes of `ptr`. -/
structure MemLat.Sizes where
  ptr : Nat
  size : Nat
  ompNumThreads : Nat
  numThreads : Nat
  stride : Nat
  defaultLoop : Nat

namespace MemLat.Sizes

variable (sizes : MemLat.Sizes)

def nBytes : Nat := sizes.size * sizes.ompNumThreads

def forks (aboveRatio : Nat → Nat → Bool) : Forks MemLat.Stage MainAccess Nat (Option Nat) where
  team
    | .clear => sizes.ompNumThreads
    | .setup team _ _ => team
    | .measure _ team _ _ _ => team
  program
    | .clear, idx => if idx < sizes.ompNumThreads then clearThread sizes.size (sizes.ptr + idx * sizes.size) else pure none
    | .setup team part draws, idx =>
        if idx < team then
          (setupThread aboveRatio (sizes.ptr + idx * part) part sizes.stride idx (draws idx)).lift .word
        else pure none
    | .measure walk team own _ part, idx =>
        if idx < team then
          (measureThread sizes.defaultLoop (if own then sizes.ptr + idx * part else sizes.ptr) walk).lift .word
        else pure none
  through := Option.isSome

def simpleTest (draws : Nat → List UInt64) : List MemLat.Stage :=
  [.setup 1 sizes.nBytes draws, .measure .read 1 false 1 sizes.nBytes, .measure .read sizes.numThreads false 1 sizes.nBytes,
    .measure .fill 1 false 1 sizes.nBytes, .measure .fill sizes.numThreads false 1 sizes.nBytes]

def parallelTest (draws : Nat → List UInt64) : List MemLat.Stage :=
  [.setup sizes.ompNumThreads sizes.size draws, .measure .read 1 false sizes.ompNumThreads sizes.size,
    .measure .read sizes.ompNumThreads true sizes.ompNumThreads sizes.size,
    .measure .fill 1 false sizes.ompNumThreads sizes.size,
    .measure .fill sizes.ompNumThreads true sizes.ompNumThreads sizes.size]

def modifyRead (draws : Nat → List UInt64) : List MemLat.Stage :=
  [.setup 1 sizes.nBytes draws, .measure .read 2 false 1 sizes.nBytes, .measure .read 1 false 1 sizes.nBytes,
    .measure .fill 1 false 1 sizes.nBytes]

def later (simple parallel modify : Nat → List UInt64) : List MemLat.Stage :=
  sizes.simpleTest simple ++ .clear :: (sizes.parallelTest parallel ++ .clear :: sizes.modifyRead modify)

end MemLat.Sizes

/-! Stages whose threads keep to parts of their own. -/

/-- An access to the bytes in `[addr, addr + size)` or to the row `myidx`. -/
def MainAccess.Inside (addr size myidx : Nat) : MainAccess → Prop
  | .word access => access.Inside addr size myidx
  | .zero address => addr ≤ address ∧ address < addr + size

structure Untouched (initial : Heap UInt8) (ptr nBytes : Nat) (heap : Heap UInt8) : Prop where
  frame : ∀ cell, Outside cell ptr nBytes → heap cell = initial cell
  allocated : heap.Allocated ptr nBytes

section
variable {addr size myidx : Nat} {action : MainAccess} {state later first second : Shared} {answer : Nat}

theorem perform_zero {address : Nat} (allocated : (state.heap ↑address).isSome) :
    (MainAccess.zero address).perform state = some (0, { state with heap := state.heap.splice ↑address [0] }) := by
  have one : state.heap.Allocated (address : Int) ([0] : List UInt8).length := by
    intro offset small
    have zero : offset = 0 := by simpa using small
    subst zero
    simpa using allocated
  rw [MainAccess.perform, Heap.store, one.write]
  rfl

theorem perform_zero_some {address : Nat} (performed : (MainAccess.zero address).perform state = some (answer, later)) :
    (state.heap ↑address).isSome ∧ answer = 0 ∧ later = { state with heap := state.heap.splice ↑address [0] } := by
  obtain ⟨heap, stored, same⟩ := Option.bind_eq_some_iff.mp performed
  obtain ⟨allocated, spliced⟩ := Heap.write_eq_some stored
  cases same
  have cell := allocated 0 Nat.one_pos
  rw [Nat.cast_zero, Int.add_zero] at cell
  exact ⟨cell, rfl, by rw [spliced]⟩

theorem main_local (owned : action.Inside addr size myidx) (same : share addr size myidx first = share addr size myidx second)
    (performed : action.perform first = some (answer, later)) :
    ∃ other, action.perform second = some (answer, other) ∧ share addr size myidx later = share addr size myidx other := by
  cases action with
  | word access => exact perform_local owned same performed
  | zero address =>
    obtain ⟨from_, upto⟩ := owned
    obtain ⟨allocated, rfl, rfl⟩ := perform_zero_some performed
    have agree := share_eq_iff.mp same
    rw [agree.1 address (by omega) (by omega)] at allocated
    refine ⟨_, perform_zero allocated, share_eq_iff.mpr ⟨fun cell start stop => ?_, agree.2⟩⟩
    exact Heap.splice_congr (agree.1 cell start stop)

theorem main_outside (owned : action.Inside addr size myidx) (performed : action.perform state = some (answer, later)) :
    (∀ cell, Outside cell addr size → later.heap cell = state.heap cell) ∧
      (∀ row, row ≠ myidx → later.debugRet row = state.debugRet row) ∧
      ∀ base count, state.heap.Allocated base count → later.heap.Allocated base count := by
  cases action with
  | zero address =>
    obtain ⟨from_, upto⟩ := owned
    obtain ⟨_, rfl, rfl⟩ := perform_zero_some performed
    refine ⟨fun cell outside => Heap.splice_outside ?_, fun _ _ => rfl, fun _ _ => Heap.splice_allocated⟩
    simp only [Outside, List.length_singleton] at outside ⊢
    omega
  | word access =>
    cases access with
    | load address =>
      obtain ⟨word, _, found⟩ := Option.bind_eq_some_iff.mp performed
      cases found
      exact ⟨fun _ _ => rfl, fun _ _ => rfl, fun _ _ => id⟩
    | store address value =>
      obtain ⟨from_, upto⟩ : addr ≤ address ∧ address + 8 ≤ addr + size := owned
      obtain ⟨heap, stored, written⟩ := Option.bind_eq_some_iff.mp performed
      cases written
      obtain ⟨_, rfl⟩ := Heap.store64_eq_some stored
      refine ⟨fun cell outside => Heap.splice_outside ?_, fun _ _ => rfl, fun _ _ => Heap.splice_allocated⟩
      simp only [Outside, bytes_length] at outside ⊢
      omega
    | record row column value =>
      obtain rfl : row = myidx := owned
      rw [MainAccess.perform, Access.perform] at performed
      split at performed
      next _ =>
        cases performed
        exact ⟨fun _ _ => rfl, fun row other => Function.update_of_ne other .., fun _ _ => id⟩
      next _ => cases performed

end

def OwnPart (ptr team part idx : Nat) (action : MainAccess) : Prop :=
  idx < team ∧ action.Inside (ptr + idx * part) part idx

theorem main_separated (ptr team part : Nat) :
    Separated MainAccess.perform (OwnPart ptr team part) (fun idx => share (ptr + idx * part) part idx) where
  local_ := fun _ _ _ _ _ _ owned same performed => main_local owned.2 same performed
  frame := by
    intro idx other action state answer later owned different performed
    obtain ⟨frame, rows, _⟩ := main_outside owned.2 performed
    refine share_eq_iff.mpr ⟨fun cell start stop => frame cell ?_, rows other different⟩
    have apart := parts_apart ptr part different
    simp only [Outside]
    omega

def Parted (initial : Heap UInt8) (ptr nBytes team part : Nat) (forked now : Threads Nat MainAccess Nat (Option Nat) Shared) :
    Prop :=
  Untouched initial ptr nBytes now.state.heap ∧
    ∃ past, ∀ idx, Alone MainAccess.perform (OwnPart ptr team part) (fun idx => share (ptr + idx * part) part idx) forked past now idx

section
variable {initial : Heap UInt8} {ptr nBytes team part : Nat} {forked now next : Threads Nat MainAccess Nat (Option Nat) Shared}

theorem untouched_step {idx : Nat} {action : MainAccess} {state later : Shared} {answer : Nat} (room : team * part ≤ nBytes)
    (untouched : Untouched initial ptr nBytes state.heap) (owned : OwnPart ptr team part idx action)
    (performed : action.perform state = some (answer, later)) : Untouched initial ptr nBytes later.heap := by
  obtain ⟨frame, _, kept⟩ := main_outside owned.2 performed
  have bound : idx * part + part ≤ team * part := Heap.slot_bounds owned.1
  refine ⟨fun cell outside => ?_, kept _ _ untouched.allocated⟩
  rw [frame cell (by simp only [Outside] at outside ⊢; omega), untouched.frame cell outside]

theorem parted_lively (room : team * part ≤ nBytes) (forked : Threads Nat MainAccess Nat (Option Nat) Shared) :
    Lively MainAccess.perform (Parted initial ptr nBytes team part forked) where
  kept := by
    intro idx now next ⟨untouched, past, held⟩ stepped
    refine ⟨?_, past ++ [idx], alone_step (main_separated ptr team part) held stepped⟩
    obtain ⟨action, continue_, answer, acts, performed, _⟩ := threadStep_eq_some stepped
    obtain ⟨_, _, _, confined⟩ := held idx
    rw [acts] at confined
    exact untouched_step room untouched confined.1 performed
  enabled := fun idx now ⟨_, past, held⟩ => (held idx).enabled (main_separated ptr team part)

theorem parted_start (untouched : Untouched initial ptr nBytes forked.state.heap)
    (confined : ∀ idx, Confined MainAccess.perform (OwnPart ptr team part idx) (forked.remaining idx) forked.state) :
    Parted initial ptr nBytes team part forked forked := ⟨untouched, [], alone_start confined⟩

end

/-! The clearing threads. -/

theorem allocated_tail {heap : Heap UInt8} {pos count : Nat} (allocated : heap.Allocated pos (count + 1)) :
    (heap ↑pos).isSome ∧ (heap.splice ↑pos [0]).Allocated ((pos + 1 : Nat) : Int) count := by
  refine ⟨by simpa using allocated 0 (Nat.succ_pos count), Heap.splice_allocated fun offset small => ?_⟩
  have cell := allocated (offset + 1) (by omega)
  rwa [show (pos : Int) + ((offset + 1 : Nat) : Int) = ((pos + 1 : Nat) : Int) + offset by omega] at cell

theorem exec_clearThread (count pos : Nat) (shared : Shared) (allocated : shared.heap.Allocated pos count) :
    ∃ heap, exec MainAccess.perform (clearThread count pos) shared = some (some 0, { shared with heap }) ∧
      heap.Holds pos (List.replicate count 0) ∧ ∀ cell, Outside cell pos count → heap cell = shared.heap cell := by
  induction count generalizing pos shared with
  | zero => exact ⟨shared.heap, rfl, Heap.holds_nil, fun _ _ => rfl⟩
  | succ count ih =>
    obtain ⟨first, rest⟩ := allocated_tail allocated
    obtain ⟨heap, ran, zeros, frame⟩ := ih (pos + 1) { shared with heap := shared.heap.splice ↑pos [0] } rest
    change ∀ cell, _ → heap cell = shared.heap.splice ↑pos [0] cell at frame
    refine ⟨heap, ?_, ?_, fun cell outside => ?_⟩
    · rw [clearThread, exec_bind, exec_call, perform_zero first, Option.bind_some, ran]
    · have here : heap ↑pos = some 0 := by
        rw [frame ↑pos (by simp only [Outside]; omega), Heap.splice_singleton, if_pos rfl]
      rw [List.replicate_succ, Heap.holds_cons]
      exact ⟨here, by rwa [Nat.cast_succ] at zeros⟩
    · rw [frame cell (by simp only [Outside] at outside ⊢; omega)]
      exact Heap.splice_outside (by simp only [Outside, List.length_singleton] at outside ⊢; omega)

theorem confined_clearThread {ptr team part idx : Nat} (own : idx < team) (count pos : Nat) (shared : Shared)
    (from_ : ptr + idx * part ≤ pos) (upto : pos + count ≤ ptr + idx * part + part)
    (allocated : shared.heap.Allocated pos count) :
    Confined MainAccess.perform (OwnPart ptr team part idx) (clearThread count pos) shared := by
  induction count generalizing pos shared with
  | zero => trivial
  | succ count ih =>
    obtain ⟨first, rest⟩ := allocated_tail allocated
    exact Confined.act ⟨own, by omega, by omega⟩ (perform_zero first) (ih (pos + 1) _ (by omega) (by omega) rest)

/-! The threads that set up rings. -/

section
variable {aboveRatio : Nat → Nat → Bool} {addr size segSize myidx : Nat} {draws : List UInt64} {shared : Shared}

theorem confined_setupThread (wide : 8 ≤ segSize) (fitsOne : segSize ≤ size) (fits : addr + size ≤ 2 ^ 64) (row : myidx < 256)
    (zeroed : shared.heap.Holds addr (List.replicate size 0)) :
    Confined Access.perform (Access.Inside addr size myidx) (setupThread aboveRatio addr size segSize myidx draws) shared := by
  have room : size / segSize * segSize ≤ size := Nat.div_mul_le_self size segSize
  have segments : 1 ≤ size / segSize := (Nat.one_le_div_iff (by omega)).mpr fitsOne
  have area : Area addr segSize (size / segSize) 0 := area_zero wide segments (by omega)
  have marked := segments_marked wide zeroed
  apply Confined.bind (confined_drawThread area room draws (Linking.start area marked) area.nonempty)
  intro halt later ran
  rw [exec_drawThread] at ran
  obtain ⟨outcome, left, same⟩ := Option.map_eq_some_iff.mp ran
  cases same
  have kept := linking_keeps area marked left
  cases outcome with
  | waiting setup => trivial
  | left setup early unread =>
    obtain ⟨used, _, ⟨linked, links, last, older, linking⟩, _⟩ := kept
    exact Confined.bind (confined_closeThread area room row linking) fun _ _ _ => trivial

theorem exec_setupThread (row : myidx < 256) {value : Nat} {later : Shared}
    (ran : exec Access.perform (setupThread aboveRatio addr size segSize myidx draws) shared = some (some value, later)) :
    ∃ setup early unread, MemLat.setupRnd aboveRatio shared.heap addr size segSize draws = some (.left setup early unread) ∧
      later.heap = setup.heap := by
  unfold setupThread at ran
  dsimp only at ran
  rw [exec_bind, exec_drawThread] at ran
  change Option.bind (Option.map _ (drawLoop addr segSize (size / segSize) 0 _ (startSetup shared.heap addr) draws)) _ = _ at ran
  unfold MemLat.setupRnd
  dsimp only
  cases outcome : drawLoop addr segSize (size / segSize) 0 (MemLat.giveUp aboveRatio size (size / segSize))
      (startSetup shared.heap addr) draws with
  | none =>
    rw [outcome] at ran
    cases ran
  | some outcome_ =>
    rw [outcome] at ran
    cases outcome_ with
    | waiting setup => cases ran
    | left setup early unread =>
      simp only [Option.map_some, Option.bind_some, Outcome.halt, Outcome.setup] at ran
      rw [exec_bind, exec_closeThread row] at ran
      change Option.bind (Option.bind (setup.heap.store64 setup.pos addr) _) _ = _ at ran
      cases stored : setup.heap.store64 setup.pos addr with
      | none =>
        rw [stored] at ran
        cases ran
      | some heap =>
        rw [stored] at ran
        simp only [Option.bind_some, Option.bind_eq_bind] at ran
        obtain ⟨closed, written, same⟩ := Option.bind_eq_some_iff.mp ran
        obtain ⟨values, _, ended⟩ := Option.bind_eq_some_iff.mp written
        cases ended
        cases same
        refine ⟨{ setup with heap }, early, unread, ?_, rfl⟩
        simp only [Option.bind_eq_bind, Option.bind_some, makeRing, stored]

end

/-! What is left in the parts when all threads are through. -/

theorem RingAt.congr {heap other : Heap UInt8} {addr segSize nSegs : Nat} {ring : List Nat} (round : RingAt heap addr segSize ring)
    (inside : ∀ index ∈ ring, index < nSegs) (wide : 8 ≤ segSize)
    (same : ∀ cell : Int, addr ≤ cell → cell < addr + (nSegs * segSize : Nat) → other cell = heap cell) :
    RingAt other addr segSize ring := by
  refine ⟨round.nodup, round.start, fun hops => ?_⟩
  rw [← round.chase]
  induction hops with
  | zero => rfl
  | succ hops ih =>
    have bounds : addr ≤ onRing addr segSize ring hops ∧ onRing addr segSize ring hops + segSize ≤ addr + nSegs * segSize :=
      place_inside le_rfl (inside _ (round.nodeAt_mem hops))
    rw [chase_add, chase_add, ih, round.chase_onRing, Option.bind_some, Option.bind_some, LatencyRing.chase, LatencyRing.chase]
    rw [Heap.load64_congr fun cell start stop => same cell (by omega) (by omega)]
    rfl

theorem holds_parts {heap : Heap UInt8} {ptr part : Nat} (team : Nat)
    (each : ∀ idx < team, heap.Holds ↑(ptr + idx * part) (List.replicate part 0)) :
    heap.Holds ptr (List.replicate (team * part) 0) := by
  induction team with
  | zero => simp
  | succ team ih =>
    rw [Nat.succ_mul, ← List.replicate_append_replicate, Heap.holds_append, List.length_replicate, ← Nat.cast_add]
    exact ⟨ih fun idx inside => each idx (by omega), each team (Nat.lt_succ_self team)⟩

theorem own_part {heap : Heap UInt8} {ptr nBytes team part idx : Nat} (room : team * part ≤ nBytes)
    (allocated : heap.Allocated ptr nBytes) (inside : idx < team) : heap.Allocated ↑(ptr + idx * part) part := by
  have bound : idx * part + part ≤ team * part := Heap.slot_bounds inside
  intro offset small
  have cell := allocated (idx * part + offset) (by omega)
  rwa [show (ptr : Int) + ((idx * part + offset : Nat) : Int) = ((ptr + idx * part : Nat) : Int) + offset by push_cast; ring] at cell

theorem holds_part {heap : Heap UInt8} {ptr nBytes team part idx : Nat} (room : team * part ≤ nBytes)
    (zeroed : heap.Holds ptr (List.replicate nBytes 0)) (inside : idx < team) {count : Nat} (fewer : count ≤ part) :
    heap.Holds ↑(ptr + idx * part) (List.replicate count 0) := by
  have bound : idx * part + part ≤ team * part := Heap.slot_bounds inside
  have window := zeroed.window (idx * part) count (by rw [List.length_replicate]; omega)
  rwa [List.drop_replicate, List.take_replicate, Nat.min_eq_left (by omega), ← Nat.cast_add] at window

namespace MemLat.Sizes

variable {sizes : MemLat.Sizes} {aboveRatio : Nat → Nat → Bool} {initial : Heap UInt8} {state : Shared}
  {now : Threads Nat MainAccess Nat (Option Nat) Shared} {team part : Nat} {draws : Nat → List UInt64}

theorem through_result {ptr nBytes : Nat} {forked : Threads Nat MainAccess Nat (Option Nat) Shared}
    (parted : Parted initial ptr nBytes team part forked now) {idx : Nat}
    (through : (sizes.forks aboveRatio).isThrough (now.remaining idx)) :
    ∃ value alone, exec MainAccess.perform (forked.remaining idx) forked.state = some (some value, alone) ∧
      share (ptr + idx * part) part idx alone = share (ptr + idx * part) part idx now.state := by
  obtain ⟨_, past, held⟩ := parted
  cases ended : now.remaining idx with
  | act action next =>
    rw [ended] at through
    cases through
  | done result =>
    rw [ended] at through
    obtain ⟨value, rfl⟩ := Option.isSome_iff_exists.mp through
    obtain ⟨alone, ran, same⟩ := (held idx).result ended
    exact ⟨value, alone, ran, same⟩

theorem all_room (sizes : MemLat.Sizes) : sizes.ompNumThreads * sizes.size ≤ sizes.nBytes := by rw [nBytes, Nat.mul_comm]

theorem clear_ends (parted : Parted initial sizes.ptr sizes.nBytes sizes.ompNumThreads sizes.size
      ((sizes.forks aboveRatio).forked .clear state) now) (allocated : state.heap.Allocated sizes.ptr sizes.nBytes)
    (through : ∀ idx < sizes.ompNumThreads, (sizes.forks aboveRatio).isThrough (now.remaining idx)) :
    now.state.heap.Holds sizes.ptr (List.replicate sizes.nBytes 0) := by
  rw [nBytes, Nat.mul_comm]
  apply holds_parts
  intro idx inside
  obtain ⟨value, alone, ran, same⟩ := through_result parted (through idx inside)
  have own : state.heap.Allocated ↑(sizes.ptr + idx * sizes.size) sizes.size :=
    own_part sizes.all_room allocated inside
  obtain ⟨heap, cleared, zeros, _⟩ := exec_clearThread sizes.size (sizes.ptr + idx * sizes.size) state own
  have program : ((sizes.forks aboveRatio).forked .clear state).remaining idx =
      clearThread sizes.size (sizes.ptr + idx * sizes.size) := if_pos inside
  rw [program] at ran
  have ends := cleared.symm.trans ran
  cases ends
  apply zeros.congr
  intro cell start stop
  rw [List.length_replicate] at stop
  exact ((share_eq_iff.mp same).1 cell start stop).symm

theorem setup_ends (wide : 8 ≤ sizes.stride) (fitsOne : sizes.stride ≤ part) (rows : team ≤ 256)
    (room : team * part ≤ sizes.nBytes) (fits : sizes.ptr + sizes.nBytes ≤ 2 ^ 64)
    (parted : Parted initial sizes.ptr sizes.nBytes team part ((sizes.forks aboveRatio).forked (.setup team part draws) state) now)
    (zeroed : state.heap.Holds sizes.ptr (List.replicate sizes.nBytes 0))
    (through : ∀ idx < team, (sizes.forks aboveRatio).isThrough (now.remaining idx)) :
    ∃ ring : Fin team → List Nat, Rings now.state.heap (fun idx : Fin team => sizes.ptr + idx * part) sizes.stride
      (part / sizes.stride) ring := by
  have whole : part / sizes.stride * sizes.stride ≤ part := Nat.div_mul_le_self part sizes.stride
  have each (idx : Fin team) : ∃ ring, RingAt now.state.heap (sizes.ptr + idx * part) sizes.stride ring ∧
      (∀ index ∈ ring, index < part / sizes.stride) ∧
      now.state.heap.Allocated ↑(sizes.ptr + idx * part) (part / sizes.stride * sizes.stride) := by
    obtain ⟨value, alone, ran, same⟩ := through_result parted (through idx idx.isLt)
    have bound : idx * part + part ≤ team * part := Heap.slot_bounds idx.isLt
    have program : ((sizes.forks aboveRatio).forked (.setup team part draws) state).remaining idx =
        (setupThread aboveRatio (sizes.ptr + idx * part) part sizes.stride idx (draws idx)).lift .word := if_pos idx.isLt
    rw [program, exec_lift perform_word] at ran
    obtain ⟨setup, early, unread, made, heap⟩ := exec_setupThread (by omega) ran
    obtain ⟨ring, links, round, inside, row⟩ := setupRnd_ring wide ((Nat.one_le_div_iff (by omega)).mpr fitsOne) (by omega)
      (holds_part room zeroed idx.isLt whole) made
    have agree := (share_eq_iff.mp same).1
    rw [heap] at agree
    refine ⟨ring, round.congr inside wide fun cell start stop => (agree cell start (by omega)).symm, inside,
      fun offset small => ?_⟩
    rw [← agree _ (by omega) (by omega)]
    exact row.allocated offset small
  choose ring round inside allocated using each
  refine ⟨ring, round, inside, allocated, fun first second different => ?_⟩
  have apart := parts_apart sizes.ptr part (Fin.val_ne_of_ne different)
  omega

/-! The contracts of the stages. -/

def parts (sizes : MemLat.Sizes) (part : Nat) {count : Nat} (idx : Fin count) : Nat := sizes.ptr + idx * part

def pos (sizes : MemLat.Sizes) (own : Bool) (part idx : Nat) : Nat := if own then sizes.ptr + idx * part else sizes.ptr

def Measuring (sizes : MemLat.Sizes) (walk : Walk) (team : Nat) (own : Bool) (count part : Nat) (state : Shared)
    (now : Threads Nat MainAccess Nat (Option Nat) Shared) : Prop :=
  ∃ ring : Fin count → List Nat, Rings state.heap (sizes.parts part) sizes.stride (part / sizes.stride) ring ∧
    AllMaintain MainAccess.perform (Unharmed state (OnRings (sizes.parts part) sizes.stride ring))
      (fun idx result => idx < team → ∃ value, result = some value ∧
        Arrives state.heap (sizes.pos own part idx) (walk.hops sizes.defaultLoop) value) now

def contract (sizes : MemLat.Sizes) (aboveRatio : Nat → Nat → Bool) (initial : Heap UInt8) :
    Contract MemLat.Stage MainAccess Nat (Option Nat) Shared where
  before stage state := Untouched initial sizes.ptr sizes.nBytes state.heap ∧
    match stage with
    | .clear => True
    | .setup _ _ _ => state.heap.Holds sizes.ptr (List.replicate sizes.nBytes 0)
    | .measure _ _ _ count part => ∃ ring : Fin count → List Nat,
        Rings state.heap (sizes.parts part) sizes.stride (part / sizes.stride) ring
  holds stage state now :=
    match stage with
    | .clear => Parted initial sizes.ptr sizes.nBytes sizes.ompNumThreads sizes.size ((sizes.forks aboveRatio).forked stage state) now
    | .setup team part _ => Parted initial sizes.ptr sizes.nBytes team part ((sizes.forks aboveRatio).forked stage state) now
    | .measure walk team own count part => sizes.Measuring walk team own count part state now

def Fitting (sizes : MemLat.Sizes) : MemLat.Stage → Prop
  | .clear => True
  | .setup team part _ => team ≤ 256 ∧ sizes.stride ≤ part ∧ team * part ≤ sizes.nBytes
  | .measure _ team own count part => 1 ≤ count ∧ (own = true → team ≤ count) ∧ count * part ≤ sizes.nBytes

inductive Then : MemLat.Stage → MemLat.Stage → Prop
  | setup (team part : Nat) (draws : Nat → List UInt64) : Then .clear (.setup team part draws)
  | first (team part : Nat) (draws : Nat → List UInt64) (walk : Walk) (walkers : Nat) (own : Bool) :
      Then (.setup team part draws) (.measure walk walkers own team part)
  | next (walk other : Walk) (walkers others : Nat) (own shared : Bool) (count part : Nat) :
      Then (.measure walk walkers own count part) (.measure other others shared count part)
  | clear (walk : Walk) (walkers : Nat) (own : Bool) (count part : Nat) : Then (.measure walk walkers own count part) .clear

theorem pos_part (sizes : MemLat.Sizes) {own : Bool} {count idx : Nat} (part : Nat) (some_ : 1 ≤ count)
    (each : own = true → team ≤ count) (inside : idx < team) : ∃ place : Fin count, sizes.pos own part idx = sizes.parts part place := by
  cases own with
  | true => exact ⟨⟨idx, lt_of_lt_of_le inside (each rfl)⟩, rfl⟩
  | false =>
    refine ⟨⟨0, some_⟩, ?_⟩
    rw [pos, parts, Nat.zero_mul]
    rfl

theorem maintains_measureThread {first : Shared} {node : Nat → Prop} (web : Web first.heap node) {start : Nat} (here : node start)
    (defaultLoop : Nat) (walk : Walk) :
    Maintains MainAccess.perform (Unharmed first node)
      (fun result => ∃ value, result = some value ∧ Arrives first.heap start (walk.hops defaultLoop) value)
      ((measureThread defaultLoop start walk).lift .word) := by
  apply Maintains.lift perform_word
  have walked : Maintains Access.perform (Unharmed first node) (Arrives first.heap start (walk.hops defaultLoop))
      (walkThread defaultLoop start walk) := by
    cases walk with
    | read => exact maintains_readThread web here _
    | fill => exact maintains_fillThread web here _
  exact walked.bind fun value arrives => ⟨value, rfl, arrives⟩

theorem measure_start (wide : 16 ≤ sizes.stride) {walk : Walk} {own : Bool} {count : Nat} (some_ : 1 ≤ count)
    (each : own = true → team ≤ count) {ring : Fin count → List Nat}
    (rings : Rings state.heap (sizes.parts part) sizes.stride (part / sizes.stride) ring) :
    sizes.Measuring walk team own count part state ((sizes.forks aboveRatio).forked (.measure walk team own count part) state) := by
  refine ⟨ring, rings, ⟨Intact.start _ _, rfl⟩, fun idx => ?_⟩
  change Maintains _ _ _ (if idx < team then _ else _)
  split
  next inside =>
    obtain ⟨place, start⟩ := sizes.pos_part part some_ each inside
    have here : OnRings (sizes.parts part) sizes.stride ring (sizes.pos own part idx) := start ▸ rings.start place
    exact (maintains_measureThread (rings.web wide) here sizes.defaultLoop walk).mono fun _ arrives _ => arrives
  next outside => exact fun inside => absurd inside outside

theorem measure_lively (walk : Walk) (own : Bool) (count part : Nat) (state : Shared) :
    Lively MainAccess.perform (sizes.Measuring walk team own count part state) where
  kept := fun _ _ _ ⟨ring, rings, all⟩ stepped => ⟨ring, rings, all.step stepped⟩
  enabled := fun idx _ ⟨_, _, all⟩ => all.enabled idx

theorem measure_untouched (wide : 16 ≤ sizes.stride) {walk : Walk} {own : Bool} {count : Nat} (room : count * part ≤ sizes.nBytes)
    (untouched : Untouched initial sizes.ptr sizes.nBytes state.heap)
    (measuring : sizes.Measuring walk team own count part state now) :
    Untouched initial sizes.ptr sizes.nBytes now.state.heap ∧
      ∃ ring : Fin count → List Nat, Rings now.state.heap (sizes.parts part) sizes.stride (part / sizes.stride) ring := by
  obtain ⟨ring, rings, all⟩ := measuring
  obtain ⟨intact, _⟩ := all.holds
  refine ⟨⟨fun cell outside => ?_, intact.allocated _ _ untouched.allocated⟩, ring, rings.intact wide intact⟩
  rw [← untouched.frame cell outside]
  apply intact.frame
  rintro q ⟨place, hops, rfl⟩
  have bounds := rings.place_le place hops
  have bound : place * part + part ≤ count * part := Heap.slot_bounds place.isLt
  have whole : part / sizes.stride * sizes.stride ≤ part := Nat.div_mul_le_self part sizes.stride
  unfold parts at bounds
  simp only [Outside] at outside ⊢
  unfold parts
  omega

theorem holds_untouched (wide : 16 ≤ sizes.stride) {stage : MemLat.Stage} (fitting : sizes.Fitting stage)
    (before : (sizes.contract aboveRatio initial).before stage state)
    (holds : (sizes.contract aboveRatio initial).holds stage state now) :
    Untouched initial sizes.ptr sizes.nBytes now.state.heap := by
  cases stage with
  | clear => exact holds.1
  | setup team part draws => exact holds.1
  | measure walk team own count part => exact (measure_untouched wide fitting.2.2 before.1 holds).1

theorem sound (wide : 16 ≤ sizes.stride) (fits : sizes.ptr + sizes.nBytes ≤ 2 ^ 64) {stage : MemLat.Stage}
    (fitting : sizes.Fitting stage) :
    (sizes.contract aboveRatio initial).Sound (sizes.forks aboveRatio) MainAccess.perform stage := by
  cases stage with
  | clear =>
    refine ⟨fun state before => parted_start before.1 fun idx => ?_, fun state _ => parted_lively sizes.all_room _⟩
    change Confined _ _ (if idx < sizes.ompNumThreads then _ else _) _
    split
    next inside =>
      exact confined_clearThread inside sizes.size _ state le_rfl le_rfl (own_part sizes.all_room before.1.allocated inside)
    next _ => trivial
  | setup team part draws =>
    obtain ⟨rows, fitsOne, room⟩ := fitting
    refine ⟨fun state before => parted_start before.1 fun idx => ?_, fun state _ => parted_lively room _⟩
    change Confined _ _ (if idx < team then _ else _) _
    split
    next inside =>
      have bound : idx * part + part ≤ team * part := Heap.slot_bounds inside
      exact (confined_setupThread (by omega) fitsOne (by omega) (by omega) (holds_part room before.2 inside le_rfl)).lift
        perform_word fun access owned => ⟨inside, owned⟩
    next _ => trivial
  | measure walk team own count part =>
    obtain ⟨some_, each, room⟩ := fitting
    refine ⟨fun state ⟨_, ring, rings⟩ => measure_start wide some_ each rings, fun state _ => measure_lively walk own count part state⟩

theorem follows (wide : 16 ≤ sizes.stride) (fits : sizes.ptr + sizes.nBytes ≤ 2 ^ 64) {stage next : MemLat.Stage}
    (then_ : Then stage next) (fitting : sizes.Fitting stage) :
    (sizes.contract aboveRatio initial).Follows (sizes.forks aboveRatio) stage next := by
  intro state now before holds through
  refine ⟨holds_untouched wide fitting before holds, ?_⟩
  cases then_ with
  | setup team part draws => exact clear_ends holds before.1.allocated through
  | first team part draws walk walkers own =>
    obtain ⟨rows, fitsOne, room⟩ := fitting
    exact setup_ends (by omega) fitsOne rows room fits holds before.2 through
  | next walk other walkers others own shared count part => exact (measure_untouched wide fitting.2.2 before.1 holds).2
  | clear walk walkers own count part => trivial

def stages (sizes : MemLat.Sizes) (simple parallel modify : Nat → List UInt64) : List MemLat.Stage :=
  .clear :: sizes.later simple parallel modify

theorem stages_chain (sizes : MemLat.Sizes) (simple parallel modify : Nat → List UInt64) :
    (sizes.stages simple parallel modify).IsChain Then := by
  simp only [stages, later, simpleTest, parallelTest, modifyRead, List.cons_append, List.nil_append, List.isChain_cons_cons,
    List.isChain_singleton, and_true]
  refine ⟨?_, ?_, ?_, ?_, ?_, ?_, ?_, ?_, ?_, ?_, ?_, ?_, ?_, ?_, ?_, ?_⟩ <;> constructor

theorem stages_fitting (sizes : MemLat.Sizes) (fitsOne : sizes.stride ≤ sizes.size) (some_ : 1 ≤ sizes.ompNumThreads)
    (threads : sizes.ompNumThreads ≤ 256) (simple parallel modify : Nat → List UInt64) :
    ∀ stage ∈ sizes.stages simple parallel modify, sizes.Fitting stage := by
  have whole : sizes.stride ≤ sizes.nBytes := fitsOne.trans (Nat.le_mul_of_pos_right _ some_)
  have all := sizes.all_room
  intro stage member
  simp only [stages, later, simpleTest, parallelTest, modifyRead, List.cons_append, List.nil_append, List.mem_cons,
    List.not_mem_nil, or_false] at member
  rcases member with rfl | rfl | rfl | rfl | rfl | rfl | rfl | rfl | rfl | rfl | rfl | rfl | rfl | rfl | rfl | rfl | rfl <;>
    simp [Fitting, *]

/-! What a run of `main` does. -/

theorem done_some {stage : MemLat.Stage} (fitting : sizes.Fitting stage)
    (before : (sizes.contract aboveRatio initial).before stage state)
    (holds : (sizes.contract aboveRatio initial).holds stage state now) {idx : Nat}
    (inside : idx < (sizes.forks aboveRatio).team stage) {result : Option Nat} (done : now.remaining idx = .done result)
    (other : ∀ team part draws, stage ≠ .setup team part draws) : ∃ value, result = some value := by
  cases stage with
  | setup team part draws => exact absurd rfl (other team part draws)
  | clear =>
    obtain ⟨_, past, held⟩ := id holds
    obtain ⟨alone, ran, _⟩ := (held idx).result done
    have program : ((sizes.forks aboveRatio).forked .clear state).remaining idx =
        clearThread sizes.size (sizes.ptr + idx * sizes.size) := if_pos inside
    obtain ⟨heap, cleared, _⟩ := exec_clearThread sizes.size (sizes.ptr + idx * sizes.size) state
      (own_part sizes.all_room before.1.allocated inside)
    rw [program] at ran
    cases cleared.symm.trans ran
    exact ⟨0, rfl⟩
  | measure walk team own count part =>
    obtain ⟨ring, rings, all⟩ := id holds
    obtain ⟨value, same, _⟩ := all.result done inside
    exact ⟨value, same⟩

theorem measure_result (wide : 16 ≤ sizes.stride) {walk : Walk} {own : Bool} {count : Nat}
    (fitting : sizes.Fitting (.measure walk team own count part))
    (measuring : sizes.Measuring walk team own count part state now) :
    ∃ ring : Fin count → List Nat, Rings now.state.heap (sizes.parts part) sizes.stride (part / sizes.stride) ring ∧
      ∀ idx < team, ∀ result, now.remaining idx = .done result → ∃ place : Fin count, sizes.pos own part idx = sizes.parts part place ∧
        result = some (onRing (sizes.parts part place) sizes.stride (ring place) (walk.hops sizes.defaultLoop)) := by
  obtain ⟨some_, each, room⟩ := fitting
  obtain ⟨ring, rings, all⟩ := measuring
  refine ⟨ring, rings.intact wide all.holds.1, fun idx inside result done => ?_⟩
  obtain ⟨value, rfl, arrives⟩ := all.result done inside
  obtain ⟨place, start⟩ := sizes.pos_part part some_ each inside
  rw [Arrives, start, (rings.round place).chase_onRing] at arrives
  exact ⟨place, start, arrives.symm⟩

/-- What is said of every state of a run: memory outside the buffer is as it was; the run goes on, has ended, or waits in a setup
for draws; and a measurement is of rings that are there while it lasts, each thread leaving the address where its hops come. -/
structure Measured (sizes : MemLat.Sizes) (aboveRatio : Nat → Nat → Bool) (initial : Heap UInt8)
    (machine : Machine MemLat.Stage MainAccess Nat (Option Nat) Shared) : Prop where
  frame : ∀ cell, Outside cell sizes.ptr sizes.nBytes → machine.threads.state.heap cell = initial cell
  advances : (∃ actor next, (sizes.forks aboveRatio).step MainAccess.perform actor machine = some next) ∨
    (machine.rest = [] ∧ ∀ idx < (sizes.forks aboveRatio).team machine.stage,
      ∃ value, machine.threads.remaining idx = .done (some value)) ∨
    ∃ team part draws idx, machine.stage = .setup team part draws ∧ idx < team ∧ machine.threads.remaining idx = .done none
  measures : ∀ walk team own count part, machine.stage = .measure walk team own count part →
    ∃ ring : Fin count → List Nat,
      Rings machine.threads.state.heap (sizes.parts part) sizes.stride (part / sizes.stride) ring ∧
      ∀ idx < team, ∀ result, machine.threads.remaining idx = .done result →
        ∃ place : Fin count, sizes.pos own part idx = sizes.parts part place ∧
          result = some (onRing (sizes.parts part place) sizes.stride (ring place) (walk.hops sizes.defaultLoop))

section
variable {machine : Machine MemLat.Stage MainAccess Nat (Option Nat) Shared} {all : List MemLat.Stage}

theorem through_some {idx : Nat} (through : (sizes.forks aboveRatio).isThrough (machine.threads.remaining idx)) :
    ∃ value, machine.threads.remaining idx = .done (some value) := by
  cases ended : machine.threads.remaining idx with
  | act action next =>
    rw [ended] at through
    cases through
  | done result =>
    rw [ended] at through
    obtain ⟨value, rfl⟩ := Option.isSome_iff_exists.mp through
    exact ⟨value, rfl⟩

theorem kept_advances (fitting : ∀ stage ∈ all, sizes.Fitting stage)
    (sound : ∀ stage ∈ all, (sizes.contract aboveRatio initial).Sound (sizes.forks aboveRatio) MainAccess.perform stage)
    (kept : (sizes.contract aboveRatio initial).Kept all machine) :
    (∃ actor next, (sizes.forks aboveRatio).step MainAccess.perform actor machine = some next) ∨
      (machine.rest = [] ∧ ∀ idx < (sizes.forks aboveRatio).team machine.stage,
        ∃ value, machine.threads.remaining idx = .done (some value)) ∨
      ∃ team part draws idx, machine.stage = .setup team part draws ∧ idx < team ∧ machine.threads.remaining idx = .done none := by
  by_cases through : ∀ idx < (sizes.forks aboveRatio).team machine.stage, (sizes.forks aboveRatio).isThrough (machine.threads.remaining idx)
  · cases later : machine.rest with
    | nil => exact Or.inr (Or.inl ⟨rfl, fun idx inside => through_some (through idx inside)⟩)
    | cons stage rest =>
      refine Or.inl ⟨none, (sizes.forks aboveRatio).start stage rest machine.threads.state, ?_⟩
      rw [Forks.step, if_pos through, later]
  · push Not at through
    obtain ⟨idx, inside, late⟩ := through
    rcases kept.enabled sound inside with ⟨result, done⟩ | moves
    · cases result with
      | some value =>
        rw [done] at late
        exact absurd rfl late
      | none =>
        obtain ⟨_, state, before, holds⟩ := id kept
        cases setting : machine.stage with
        | setup team part draws =>
          rw [setting] at inside
          exact Or.inr (Or.inr ⟨team, part, draws, idx, rfl, inside, done⟩)
        | _ =>
          obtain ⟨value, some_⟩ := done_some (fitting _ kept.mem) before holds inside done (by simp [setting])
          cases some_
    · exact Or.inl ⟨some idx, moves⟩

theorem stages_sound (wide : 16 ≤ sizes.stride) (fits : sizes.ptr + sizes.nBytes ≤ 2 ^ 64) (fitting : ∀ stage ∈ all, sizes.Fitting stage) :
    ∀ stage ∈ all, (sizes.contract aboveRatio initial).Sound (sizes.forks aboveRatio) MainAccess.perform stage :=
  fun stage member => sound wide fits (fitting stage member)

theorem stages_follow (wide : 16 ≤ sizes.stride) (fits : sizes.ptr + sizes.nBytes ≤ 2 ^ 64) (fitting : ∀ stage ∈ all, sizes.Fitting stage)
    (chain : all.IsChain Then) : all.IsChain ((sizes.contract aboveRatio initial).Follows (sizes.forks aboveRatio)) :=
  chain.imp_of_mem_imp fun stage _ member _ then_ => follows wide fits then_ (fitting stage member)

theorem kept_measured (wide : 16 ≤ sizes.stride) (fits : sizes.ptr + sizes.nBytes ≤ 2 ^ 64) (fitting : ∀ stage ∈ all, sizes.Fitting stage)
    (kept : (sizes.contract aboveRatio initial).Kept all machine) : sizes.Measured aboveRatio initial machine := by
  obtain ⟨_, state, before, holds⟩ := id kept
  refine ⟨?_, kept_advances fitting (stages_sound wide fits fitting) kept, fun walk team own count part measured => ?_⟩
  · exact (holds_untouched wide (fitting _ kept.mem) before holds).frame
  · have fits' := fitting _ kept.mem
    rw [measured] at holds fits'
    exact measure_result wide fits' holds

end

/-- Any run of `main`, in any interleaving of the accesses of each team, whatever the draws. -/
theorem main_measures (aboveRatio : Nat → Nat → Bool) (sizes : MemLat.Sizes) (wide : 16 ≤ sizes.stride)
    (fitsOne : sizes.stride ≤ sizes.size) (some_ : 1 ≤ sizes.ompNumThreads) (threads : sizes.ompNumThreads ≤ 256)
    (fits : sizes.ptr + sizes.nBytes ≤ 2 ^ 64) (shared : Shared) (allocated : shared.heap.Allocated sizes.ptr sizes.nBytes)
    (simple parallel modify : Nat → List UInt64) (schedule : List (Option Nat))
    (machine : Machine MemLat.Stage MainAccess Nat (Option Nat) Shared)
    (ran : run ((sizes.forks aboveRatio).step MainAccess.perform) schedule
      ((sizes.forks aboveRatio).start .clear (sizes.later simple parallel modify) shared) = some machine) :
    sizes.Measured aboveRatio shared.heap machine := by
  have fitting := sizes.stages_fitting fitsOne some_ threads simple parallel modify
  have kept : (sizes.contract aboveRatio shared.heap).Kept (sizes.stages simple parallel modify) machine :=
    Contract.run (stages_sound wide fits fitting) (stages_follow wide fits fitting (sizes.stages_chain simple parallel modify)) rfl
      ⟨⟨fun _ _ => rfl, allocated⟩, trivial⟩ ran
  exact kept_measured wide fits fitting kept

def twoSegments : MemLat.Sizes := { ptr := 64, size := 32, ompNumThreads := 2, numThreads := 2, stride := 16, defaultLoop := 1 }

def uncleared : Shared := { heap := Heap.splice Heap.empty 64 (List.replicate 64 7), debugRet := fun _ _ => 0 }

/-- The clearing by both threads, the setup of a ring of four segments, and both joins. -/
def untilMeasured : List (Option Nat) :=
  (List.replicate 32 [some 1, some 0]).flatten ++ none :: (List.replicate 14 (some 0) ++ [none])

set_option maxRecDepth 10000 in
theorem main_measures_four :
    ∃ machine, run ((twoSegments.forks fun _ _ => false).step MainAccess.perform) untilMeasured
        ((twoSegments.forks fun _ _ => false).start .clear
          (twoSegments.later (fun _ => [0, 2, 3, 1]) (fun _ => [1, 0]) fun _ => [0, 2, 3, 1]) uncleared) = some machine ∧
      machine.stage = .measure .read 1 false 1 64 ∧ twoSegments.Measured (fun _ _ => false) uncleared.heap machine := by
  obtain ⟨machine, ran, stage⟩ : ∃ machine, run ((twoSegments.forks fun _ _ => false).step MainAccess.perform) untilMeasured
      ((twoSegments.forks fun _ _ => false).start .clear
        (twoSegments.later (fun _ => [0, 2, 3, 1]) (fun _ => [1, 0]) fun _ => [0, 2, 3, 1]) uncleared) = some machine ∧
      machine.stage = .measure .read 1 false 1 64 := ⟨_, rfl, rfl⟩
  exact ⟨machine, ran, stage, main_measures (fun _ _ => false) twoSegments (by decide) (by decide) (by decide) (by decide)
    (by decide) uncleared Heap.holds_splice_self.allocated (fun _ => [0, 2, 3, 1]) (fun _ => [1, 0]) (fun _ => [0, 2, 3, 1])
    untilMeasured machine ran⟩

end MemLat.Sizes

end Mbench.LatencyRing
