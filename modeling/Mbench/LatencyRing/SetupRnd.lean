import Mbench.Library.Loop
import Mbench.Library.Words

/-! `setup_rnd` of `mem_lat.c`, `simpleMemLatChecker.c` and `ParallelCacheMiss.c`, which
link the segments of a memory area into a ring in the order of random draws. Addresses
are byte addresses; the draws are a list, and a run stops to wait when they are used up.
The clock, the printed statistics of it and the source of the draws are left out. The
comparison `n_done > rand_ratio * n_segs`, made in floating point, is a parameter. -/

namespace Mbench.LatencyRing
open Library

structure Setup where
  heap : Heap UInt8
  pos : Nat
  nDone : Nat
  nConflict : Nat

/-- Where the draws take a run: it waits for another one, or it has left the loop,
through the early break or through the condition, with some draws unread. -/
inductive Outcome
  | waiting (setup : Setup)
  | left (setup : Setup) (early : Bool) (unread : List UInt64)

def segment (nSegs : Nat) (rnd : UInt64) : Nat := rnd.toNat % nSegs

def place (addr segSize index : Nat) : Nat := addr + index * segSize

section
variable (addr segSize nSegs : Nat) (empty : Nat) (giveUp : Nat → Bool)

/-- One turn of the `do` loop: `empty` marks a word that is not linked yet, and `giveUp`
says on a conflict whether to break. -/
def takeDraw (setup : Setup) (rnd : UInt64) : Option (Setup × Bool) := do
  let tmp := place addr segSize (segment nSegs rnd)
  let word ← setup.heap.load64 tmp
  if word ≠ empty then
    if giveUp setup.nDone then some (setup, true)
    else some ({ setup with nConflict := setup.nConflict + 1 }, false)
  else
    let heap ← setup.heap.store64 setup.pos tmp
    some ({ setup with heap, pos := tmp, nDone := setup.nDone + 1 }, false)

/-- `do … while (n_done < n_segs)`; `continue` goes on to the condition as well. -/
def drawLoop : Setup → List UInt64 → Option Outcome
  | setup, [] => some (.waiting setup)
  | setup, rnd :: draws => do
      let (setup, stop) ← takeDraw addr segSize nSegs empty giveUp setup rnd
      if stop then some (.left setup true draws)
      else if setup.nDone < nSegs then drawLoop setup draws
      else some (.left setup false draws)

/-- `*pos = (uintptr_t) addr`, once the loop has been left. -/
def makeRing : Outcome → Option Outcome
  | .waiting setup => some (.waiting setup)
  | .left setup early unread => do
      let heap ← setup.heap.store64 setup.pos addr
      some (.left { setup with heap } early unread)

end

def acceptedDraws (addr segSize nSegs empty : Nat) (giveUp : Nat → Bool) : Setup → List UInt64 → List Nat
  | _, [] => []
  | setup, rnd :: draws =>
      match takeDraw addr segSize nSegs empty giveUp setup rnd with
      | none => []
      | some (next, stop) =>
          (if setup.nDone < next.nDone then [segment nSegs rnd] else []) ++
            if stop then []
            else if next.nDone < nSegs then acceptedDraws addr segSize nSegs empty giveUp next draws
            else []

def startSetup (heap : Heap UInt8) (addr : Nat) : Setup := { heap, pos := addr, nDone := 0, nConflict := 0 }

/-- The break of `mem_lat.c`: `size > (0x01L << 28) && n_done > rand_ratio * n_segs`. -/
def MemLat.giveUp (aboveRatio : Nat → Nat → Bool) (size nSegs nDone : Nat) : Bool :=
  decide (2 ^ 28 < size) && aboveRatio nDone nSegs

/-- `setup_rnd` of `mem_lat.c`. -/
def MemLat.setupRnd (aboveRatio : Nat → Nat → Bool) (heap : Heap UInt8) (addr size segSize : Nat)
    (draws : List UInt64) : Option Outcome := do
  let nSegs := size / segSize
  let outcome ← drawLoop addr segSize nSegs 0 (MemLat.giveUp aboveRatio size nSegs) (startSetup heap addr) draws
  makeRing addr outcome

/-- The row of `debug_ret` that `setup_rnd` of `mem_lat.c` writes. -/
def MemLat.debugRet (setup : Setup) : Option (List Nat) := do
  let last ← setup.heap.load64 setup.pos
  some [setup.nDone, setup.nConflict, setup.pos, last]

/-- The break of `simpleMemLatChecker.c`: `(n_done > 10000) && (n_done > rand_ratio * n_segs)`. -/
def SimpleMemLatChecker.giveUp (aboveRatio : Nat → Nat → Bool) (nSegs nDone : Nat) : Bool :=
  decide (10000 < nDone) && aboveRatio nDone nSegs

/-- `setup_rnd` of `simpleMemLatChecker.c`. -/
def SimpleMemLatChecker.setupRnd (aboveRatio : Nat → Nat → Bool) (heap : Heap UInt8) (addr size segSize : Nat)
    (draws : List UInt64) : Option Outcome := do
  let nSegs := size / segSize
  let outcome ← drawLoop addr segSize nSegs 0 (SimpleMemLatChecker.giveUp aboveRatio nSegs) (startSetup heap addr) draws
  makeRing addr outcome

/-- The page-fault loop of `ParallelCacheMiss.c`: every segment links to `addr`. -/
def ParallelCacheMiss.clearSegments (heap : Heap UInt8) (addr segSize nSegs : Nat) : Option (Heap UInt8) :=
  forLoop (fun i heap => heap.store64 (place addr segSize i) addr) nSegs heap

/-- The break of `ParallelCacheMiss.c`, once more than 10000 segments are linked. -/
def ParallelCacheMiss.giveUp (aboveRatio : Nat → Nat → Bool) (nSegs nDone : Nat) : Bool :=
  decide (10000 < nDone) && aboveRatio nDone nSegs

/-- `setup_rnd` of `ParallelCacheMiss.c`, where `addr` itself is the mark. -/
def ParallelCacheMiss.setupRnd (aboveRatio : Nat → Nat → Bool) (heap : Heap UInt8) (addr size segSize : Nat)
    (draws : List UInt64) : Option Outcome := do
  let nSegs := size / segSize
  let heap ← ParallelCacheMiss.clearSegments heap addr segSize nSegs
  let outcome ← drawLoop addr segSize nSegs addr (ParallelCacheMiss.giveUp aboveRatio nSegs) (startSetup heap addr) draws
  makeRing addr outcome

/-- `p = *p`, `hops` times: a pointer of `measure_rnd_read`. -/
def chase (heap : Heap UInt8) : Nat → Nat → Option Nat
  | 0, p => some p
  | hops + 1, p => do
      let next ← heap.load64 p
      chase heap hops next

end Mbench.LatencyRing
