import Mbench.LatencyRing.ParallelTest

/-! The loops of `measure_rnd_read` and `measure_rnd_fill` of `mem_lat.c`. The macros unroll a hundred hops, each as
`RD_ONE` or `WR_ONE` makes it. Only the clock is left out, and every hop adds the address that it reads the next one
from to a record that the program does not keep. -/

namespace Mbench.LatencyRing
open Library

section
variable {State : Type} (one : State → Option State)

def five (state : State) : Option State := do
  let state ← one state
  let state ← one state
  let state ← one state
  let state ← one state
  one state

def ten (state : State) : Option State := do
  let state ← five one state
  five one state

def fifty (state : State) : Option State := do
  let state ← ten one state
  let state ← ten one state
  let state ← ten one state
  let state ← ten one state
  ten one state

def hundred (state : State) : Option State := do
  let state ← fifty one state
  fifty one state

/-- `while (itr1-- > 0) for (i = 0; i < itr2; i++)`, with a hundred hops in the body. -/
def measureLoops (itr1 itr2 : Nat) : State → Option State :=
  forLoop (fun _ => forLoop (fun _ => hundred one) itr2) itr1

theorem hundred_eq : hundred one = forLoop (fun _ => one) 100 := by
  have five_ : five one = forLoop (fun _ => one) 5 := by
    funext state
    simp only [five, forLoop, Option.bind_eq_bind, Option.bind_some, Option.bind_assoc]
  have ten_ : ten one = forLoop (fun _ => one) (2 * 5) := by
    funext state
    rw [← forLoop_mul, ← five_]
    rfl
  have fifty_ : fifty one = forLoop (fun _ => one) (5 * (2 * 5)) := by
    funext state
    rw [← forLoop_mul, ← ten_]
    simp only [fifty, forLoop, Option.bind_eq_bind, Option.bind_some, Option.bind_assoc]
  funext state
  calc hundred one state = forLoop (fun _ => fifty one) 2 state := rfl
    _ = forLoop (fun _ => forLoop (fun _ => one) (5 * (2 * 5))) 2 state := by rw [fifty_]
    _ = forLoop (fun _ => one) (2 * (5 * (2 * 5))) state := forLoop_mul one 2 (5 * (2 * 5)) state

theorem measureLoops_eq (itr1 itr2 : Nat) : measureLoops one itr1 itr2 = forLoop (fun _ => one) (wrOnes itr1 itr2) := by
  have inner : forLoop (fun _ => hundred one) itr2 = forLoop (fun _ => one) (itr2 * 100) := by
    funext state
    rw [hundred_eq]
    exact forLoop_mul one itr2 100 state
  funext state
  calc measureLoops one itr1 itr2 state = forLoop (fun _ => forLoop (fun _ => one) (itr2 * 100)) itr1 state := by
        rw [measureLoops, inner]
    _ = forLoop (fun _ => one) (itr1 * (itr2 * 100)) state := forLoop_mul one itr1 (itr2 * 100) state
    _ = forLoop (fun _ => one) (wrOnes itr1 itr2) state := by rw [wrOnes, Nat.mul_assoc]

end

structure Reading where
  p : Nat
  visited : List Nat

def MemLat.rdOne (heap : Heap UInt8) (reading : Reading) : Option Reading := do
  let next ← heap.load64 reading.p
  some { p := next, visited := reading.visited ++ [reading.p] }

def MemLat.measureRndRead (heap : Heap UInt8) (paddr itr1 itr2 : Nat) : Option (Reading × Nat) := do
  let reading ← measureLoops (MemLat.rdOne heap) itr1 itr2 { p := paddr, visited := [] }
  let word ← heap.load64 reading.p
  some (reading, word)

structure Filling where
  heap : Heap UInt8
  q : Nat
  visited : List Nat

def MemLat.wrOne (filling : Filling) : Option Filling := do
  let heap ← filling.heap.store64 ↑(filling.q + 8) 1
  let next ← heap.load64 filling.q
  some { heap, q := next, visited := filling.visited ++ [filling.q] }

def MemLat.fillRecorded (heap : Heap UInt8) (paddr itr1 itr2 : Nat) : Option Filling :=
  measureLoops MemLat.wrOne itr1 itr2 { heap, q := paddr, visited := [] }

theorem fillRecorded_erased (heap : Heap UInt8) (paddr itr1 itr2 : Nat) :
    (MemLat.fillRecorded heap paddr itr1 itr2).map (fun filling => (filling.q, filling.heap)) =
      MemLat.measureRndFill heap paddr itr1 itr2 := by
  have erased (count : Nat) (filling : Filling) :
      (forLoop (fun _ => MemLat.wrOne) count filling).map (fun filling => (filling.q, filling.heap)) =
        MemLat.fillWords count filling.heap filling.q := by
    induction count generalizing filling with
    | zero => rfl
    | succ count ih =>
      have first : forLoop (fun _ => MemLat.wrOne) 1 filling = MemLat.wrOne filling := rfl
      rw [Nat.add_comm, forLoop_add, first, Nat.add_comm, MemLat.fillWords, MemLat.wrOne]
      cases filling.heap.store64 ↑(filling.q + 8) 1 with
      | none => rfl
      | some heap =>
        simp only [Option.bind_eq_bind, Option.bind_some]
        cases heap.load64 filling.q with
        | none => rfl
        | some next => exact ih { heap, q := next, visited := filling.visited ++ [filling.q] }
  rw [MemLat.fillRecorded, measureLoops_eq, erased, MemLat.measureRndFill]

end Mbench.LatencyRing
