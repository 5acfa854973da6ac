import Mbench.LatencyRing.Runs
import Mbench.Library.Isolation

/-! `parallel_test` of `mem_lat.c`. The threads share memory and `debug_ret`; one action of a
thread is one access to a word of either. The single-threaded part of the test and the reading
threads are left out, and so are the barriers between the parts: a schedule is any order of
accesses, those that the barriers allow among them. -/

namespace Mbench.LatencyRing
open Library

structure Shared where
  heap : Heap UInt8
  debugRet : Nat → Fin 4 → Nat

inductive Access
  | load (address : Nat)
  | store (address value : Nat)
  | record (row : Nat) (column : Fin 4) (value : Nat)

def Access.perform : Access → Shared → Option (Nat × Shared)
  | .load address, shared => do
      let word ← shared.heap.load64 address
      some (word, shared)
  | .store address value, shared => do
      let heap ← shared.heap.store64 address value
      some (0, { shared with heap })
  | .record row column value, shared =>
      if row < 256 then
        some (0, { shared with
          debugRet := Function.update shared.debugRet row (Function.update (shared.debugRet row) column value) })
      else none

abbrev Thread := Program Access Nat

structure Locals where
  pos : Nat
  nDone : Nat
  nConflict : Nat

def Locals.over (locals : Locals) (heap : Heap UInt8) : Setup :=
  { heap, pos := locals.pos, nDone := locals.nDone, nConflict := locals.nConflict }

@[simp] theorem Locals.over_heap (locals : Locals) (heap : Heap UInt8) : (locals.over heap).heap = heap := rfl

@[simp] theorem Locals.over_pos (locals : Locals) (heap : Heap UInt8) : (locals.over heap).pos = locals.pos := rfl

def Setup.locals (setup : Setup) : Locals := { pos := setup.pos, nDone := setup.nDone, nConflict := setup.nConflict }

inductive Halt
  | waiting (locals : Locals)
  | left (locals : Locals) (early : Bool) (unread : List UInt64)

def Outcome.halt : Outcome → Halt
  | .waiting setup => .waiting setup.locals
  | .left setup early unread => .left setup.locals early unread

/-- The end of a thread: it waits for another draw, or it has filled, and this is its `q`. -/
inductive Finish
  | waiting (locals : Locals)
  | filled (q : Nat)

section
variable (addr segSize nSegs : Nat) (giveUp : Nat → Bool)

def turnThread (locals : Locals) (rnd : UInt64) : Thread (Locals × Bool) := do
  let tmp := place addr segSize (segment nSegs rnd)
  let word ← Program.call (.load tmp)
  if word ≠ 0 then
    if giveUp locals.nDone then pure (locals, true)
    else pure ({ locals with nConflict := locals.nConflict + 1 }, false)
  else
    let _ ← Program.call (.store locals.pos tmp)
    pure ({ locals with pos := tmp, nDone := locals.nDone + 1 }, false)

def drawThread : Locals → List UInt64 → Thread Halt
  | locals, [] => pure (.waiting locals)
  | locals, rnd :: draws => do
      let (locals, stop) ← turnThread addr segSize nSegs giveUp locals rnd
      if stop then pure (.left locals true draws)
      else if locals.nDone < nSegs then drawThread locals draws
      else pure (.left locals false draws)

end

/-- The end of `setup_rnd`: the ring is closed, and the row of `debug_ret` is written. -/
def closeThread (addr myidx : Nat) (locals : Locals) : Thread Unit := do
  let _ ← Program.call (.store locals.pos addr)
  let _ ← Program.call (.record myidx 0 locals.nDone)
  let _ ← Program.call (.record myidx 1 locals.nConflict)
  let _ ← Program.call (.record myidx 2 locals.pos)
  let last ← Program.call (.load locals.pos)
  let _ ← Program.call (.record myidx 3 last)
  pure ()

def fillThread : Nat → Nat → Thread Nat
  | 0, q => pure q
  | count + 1, q => do
      let _ ← Program.call (.store (q + 8) 1)
      let q ← Program.call (.load q)
      fillThread count q

def wrOnes (itr1 itr2 : Nat) : Nat := itr1 * itr2 * 100

def testThread (aboveRatio : Nat → Nat → Bool) (addr size segSize myidx itr1 itr2 : Nat) (draws : List UInt64) :
    Thread Finish := do
  let nSegs := size / segSize
  let halt ← drawThread addr segSize nSegs (MemLat.giveUp aboveRatio size nSegs) { pos := addr, nDone := 0, nConflict := 0 } draws
  match halt with
  | .waiting locals => pure (.waiting locals)
  | .left locals _ _ => do
      closeThread addr myidx locals
      let q ← fillThread (wrOnes itr1 itr2) addr
      pure (.filled q)

/-- The threads of `parallel_test`, each with the draws that its own `/dev/urandom` gives. -/
def MemLat.parallelTest (aboveRatio : Nat → Nat → Bool) {numThreads : Nat} (ptrs : Fin numThreads → Nat)
    (nBytes stride defaultLoop : Nat) (draws : Fin numThreads → List UInt64) (shared : Shared) :
    Threads (Fin numThreads) Access Nat Finish Shared where
  remaining := fun idx => testThread aboveRatio (ptrs idx) (nBytes / numThreads) stride idx defaultLoop (1000 * 10) (draws idx)
  state := shared

/-- `parallel_test` where `main` calls it: each thread has its `size` bytes of `ptr`. -/
def MemLat.mainTest (aboveRatio : Nat → Nat → Bool) (ptr size numThreads stride defaultLoop : Nat)
    (draws : Fin numThreads → List UInt64) (shared : Shared) : Threads (Fin numThreads) Access Nat Finish Shared :=
  MemLat.parallelTest aboveRatio (fun idx => ptr + idx * size) (size * numThreads) stride defaultLoop draws shared

def MemLat.parallelMemset (heap : Heap UInt8) (addr size numThreads : Nat) : Option (Heap UInt8) :=
  forLoop (fun i heap => heap.write ↑(addr + i * (size / numThreads)) (List.replicate (size / numThreads) 0)) numThreads heap

/-! The same without other threads. -/

def MemLat.fillWords : Nat → Heap UInt8 → Nat → Option (Nat × Heap UInt8)
  | 0, heap, q => some (q, heap)
  | count + 1, heap, q => do
      let heap ← heap.store64 ↑(q + 8) 1
      let q ← heap.load64 q
      MemLat.fillWords count heap q

def MemLat.measureRndFill (heap : Heap UInt8) (paddr itr1 itr2 : Nat) : Option (Nat × Heap UInt8) :=
  MemLat.fillWords (wrOnes itr1 itr2) heap paddr

def MemLat.sequentialTest (aboveRatio : Nat → Nat → Bool) (addr size segSize myidx itr1 itr2 : Nat) (draws : List UInt64)
    (shared : Shared) : Option (Finish × Shared) := do
  let outcome ← MemLat.setupRnd aboveRatio shared.heap addr size segSize draws
  match outcome with
  | .waiting setup => some (.waiting setup.locals, { shared with heap := setup.heap })
  | .left setup _ _ => do
      let row ← MemLat.debugRet setup
      let (q, heap) ← MemLat.measureRndFill setup.heap addr itr1 itr2
      some (.filled q, { heap, debugRet := Function.update shared.debugRet myidx fun column => row.getD column 0 })

section
variable {addr segSize nSegs myidx count q : Nat} {giveUp : Nat → Bool} {locals : Locals} {shared : Shared}

theorem exec_load {address : Nat} :
    exec Access.perform (Program.call (.load address)) shared =
      (shared.heap.load64 address).map fun word => (word, shared) := by
  rw [exec_call, Access.perform]
  cases shared.heap.load64 address <;> rfl

theorem exec_store {address value : Nat} :
    exec Access.perform (Program.call (.store address value)) shared =
      (shared.heap.store64 address value).map fun heap => (0, { shared with heap }) := by
  rw [exec_call, Access.perform]
  cases shared.heap.store64 address value <;> rfl

theorem exec_turnThread (rnd : UInt64) :
    exec Access.perform (turnThread addr segSize nSegs giveUp locals rnd) shared =
      (takeDraw addr segSize nSegs 0 giveUp (locals.over shared.heap) rnd).map fun turn =>
        ((turn.1.locals, turn.2), { shared with heap := turn.1.heap }) := by
  unfold turnThread takeDraw
  rw [exec_bind, exec_load]
  simp only [Locals.over_heap, Locals.over_pos]
  cases shared.heap.load64 (place addr segSize (segment nSegs rnd)) with
  | none => rfl
  | some word =>
    simp only [Option.map_some, Option.bind_some, Option.bind_eq_bind]
    by_cases free : word = 0
    · rw [if_neg (not_not.mpr free), if_neg (not_not.mpr free), exec_bind, exec_store]
      cases shared.heap.store64 locals.pos (place addr segSize (segment nSegs rnd)) <;> rfl
    · rw [if_pos free, if_pos free]
      by_cases tooMany : giveUp locals.nDone = true
      · rw [if_pos tooMany, if_pos (show giveUp (locals.over shared.heap).nDone = true from tooMany)]
        rfl
      · rw [if_neg tooMany, if_neg (show ¬giveUp (locals.over shared.heap).nDone = true from tooMany)]
        rfl

theorem exec_drawThread (draws : List UInt64) :
    exec Access.perform (drawThread addr segSize nSegs giveUp locals draws) shared =
      (drawLoop addr segSize nSegs 0 giveUp (locals.over shared.heap) draws).map fun outcome =>
        (outcome.halt, { shared with heap := outcome.setup.heap }) := by
  induction draws generalizing locals shared with
  | nil => rfl
  | cons rnd draws ih =>
    rw [drawThread, drawLoop, exec_bind, exec_turnThread]
    cases takeDraw addr segSize nSegs 0 giveUp (locals.over shared.heap) rnd with
    | none => rfl
    | some turn =>
      obtain ⟨next, stop⟩ := turn
      simp only [Option.map_some, Option.bind_some, Option.bind_eq_bind]
      by_cases halt : stop = true
      · rw [if_pos halt, if_pos halt]
        rfl
      · rw [if_neg halt, if_neg halt]
        by_cases again : next.nDone < nSegs
        · rw [if_pos again, if_pos (show next.locals.nDone < nSegs from again), ih]
          rfl
        · rw [if_neg again, if_neg (show ¬next.locals.nDone < nSegs from again)]
          rfl

theorem perform_record {column : Fin 4} {value : Nat} (row : myidx < 256) :
    (Access.record myidx column value).perform shared = some (0, { shared with
      debugRet := Function.update shared.debugRet myidx (Function.update (shared.debugRet myidx) column value) }) :=
  if_pos row

theorem exec_record {column : Fin 4} {value : Nat} (row : myidx < 256) :
    exec Access.perform (Program.call (.record myidx column value)) shared = some (0, { shared with
      debugRet := Function.update shared.debugRet myidx (Function.update (shared.debugRet myidx) column value) }) :=
  exec_call.trans (perform_record row)

theorem exec_closeThread (row : myidx < 256) :
    exec Access.perform (closeThread addr myidx locals) shared = (do
      let heap ← shared.heap.store64 locals.pos addr
      let row ← MemLat.debugRet (locals.over heap)
      some ((), { heap, debugRet := Function.update shared.debugRet myidx fun column => row.getD column 0 })) := by
  unfold closeThread
  rw [exec_bind, exec_store]
  cases shared.heap.store64 locals.pos addr with
  | none => rfl
  | some heap =>
    simp only [Option.map_some, Option.bind_some, Option.bind_eq_bind, exec_bind, exec_record row, exec_load,
      MemLat.debugRet, Locals.over]
    cases heap.load64 locals.pos with
    | none => rfl
    | some last =>
      simp only [Option.map_some, Option.bind_some, exec_pure, Function.update_idem, Function.update_self]
      have same : (fun column : Fin 4 => [locals.nDone, locals.nConflict, locals.pos, last].getD column 0) =
          Function.update (Function.update (Function.update (Function.update (shared.debugRet myidx) 0 locals.nDone)
            1 locals.nConflict) 2 locals.pos) 3 last := by
        funext column
        match column with
        | 0 => rfl
        | 1 => rfl
        | 2 => rfl
        | 3 => rfl
      rw [same]

theorem exec_fillThread :
    exec Access.perform (fillThread count q) shared =
      (MemLat.fillWords count shared.heap q).map fun filled => (filled.1, { shared with heap := filled.2 }) := by
  induction count generalizing q shared with
  | zero => rfl
  | succ count ih =>
    rw [fillThread, MemLat.fillWords, exec_bind, exec_store]
    cases shared.heap.store64 ↑(q + 8) 1 with
    | none => rfl
    | some heap =>
      simp only [Option.map_some, Option.bind_some, Option.bind_eq_bind]
      rw [exec_bind, exec_load]
      cases heap.load64 q with
      | none => rfl
      | some next => exact ih

theorem exec_testThread {aboveRatio : Nat → Nat → Bool} {size itr1 itr2 : Nat} {draws : List UInt64} (row : myidx < 256) :
    exec Access.perform (testThread aboveRatio addr size segSize myidx itr1 itr2 draws) shared =
      MemLat.sequentialTest aboveRatio addr size segSize myidx itr1 itr2 draws shared := by
  unfold testThread MemLat.sequentialTest MemLat.setupRnd
  dsimp only
  rw [exec_bind, exec_drawThread]
  change Option.bind (Option.map _ (drawLoop addr segSize (size / segSize) 0 _ (startSetup shared.heap addr) draws)) _ = _
  cases drawLoop addr segSize (size / segSize) 0 (MemLat.giveUp aboveRatio size (size / segSize))
      (startSetup shared.heap addr) draws with
  | none => rfl
  | some outcome =>
    cases outcome with
    | waiting setup => rfl
    | left setup early unread =>
      simp only [Option.map_some, Option.bind_some, Option.bind_eq_bind, Outcome.halt, Outcome.setup, makeRing]
      rw [exec_bind, exec_closeThread row]
      change Option.bind (Option.bind (setup.heap.store64 setup.pos addr) _) _ = _
      cases setup.heap.store64 setup.pos addr with
      | none => rfl
      | some heap =>
        simp only [Option.bind_some, Option.bind_eq_bind]
        change Option.bind (Option.bind (MemLat.debugRet { setup with heap }) _) _ = _
        cases MemLat.debugRet { setup with heap } with
        | none => rfl
        | some row =>
          simp only [Option.bind_some, exec_bind, exec_fillThread]
          cases filled : MemLat.fillWords (wrOnes itr1 itr2) heap addr with
          | none => simp [MemLat.measureRndFill, filled]
          | some result => simp [MemLat.measureRndFill, filled, exec_pure]

end

end Mbench.LatencyRing
