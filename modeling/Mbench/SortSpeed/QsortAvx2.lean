import Mbench.Library.Memory
import Mbench.Library.Loop
import Mbench.SortSpeed.Order

/-! The AVX2 partition of `qsort_avx2_int32.s` and the quicksort of `sortSpeed.cpp`
that calls it. Memory is a map of 32-bit cells addressed in words, so the byte scaling
of the assembly (`shl $2`, displacements in multiples of 4) has no counterpart here. A
ymm register is the list of its eight lanes, lane 0 first. -/

namespace Mbench.SortSpeed
open Library

/-- `.LPermTableLeft`: row `m` gathers the lanes whose bit is set in `m`. -/
def permTableLeft : List (List Nat) :=
  [ [0, 0, 0, 0, 0, 0, 0, 0], [0, 0, 0, 0, 0, 0, 0, 0], [1, 0, 0, 0, 0, 0, 0, 0], [0, 1, 0, 0, 0, 0, 0, 0],
  [2, 0, 0, 0, 0, 0, 0, 0], [0, 2, 0, 0, 0, 0, 0, 0], [1, 2, 0, 0, 0, 0, 0, 0], [0, 1, 2, 0, 0, 0, 0, 0],
  [3, 0, 0, 0, 0, 0, 0, 0], [0, 3, 0, 0, 0, 0, 0, 0], [1, 3, 0, 0, 0, 0, 0, 0], [0, 1, 3, 0, 0, 0, 0, 0],
  [2, 3, 0, 0, 0, 0, 0, 0], [0, 2, 3, 0, 0, 0, 0, 0], [1, 2, 3, 0, 0, 0, 0, 0], [0, 1, 2, 3, 0, 0, 0, 0],
  [4, 0, 0, 0, 0, 0, 0, 0], [0, 4, 0, 0, 0, 0, 0, 0], [1, 4, 0, 0, 0, 0, 0, 0], [0, 1, 4, 0, 0, 0, 0, 0],
  [2, 4, 0, 0, 0, 0, 0, 0], [0, 2, 4, 0, 0, 0, 0, 0], [1, 2, 4, 0, 0, 0, 0, 0], [0, 1, 2, 4, 0, 0, 0, 0],
  [3, 4, 0, 0, 0, 0, 0, 0], [0, 3, 4, 0, 0, 0, 0, 0], [1, 3, 4, 0, 0, 0, 0, 0], [0, 1, 3, 4, 0, 0, 0, 0],
  [2, 3, 4, 0, 0, 0, 0, 0], [0, 2, 3, 4, 0, 0, 0, 0], [1, 2, 3, 4, 0, 0, 0, 0], [0, 1, 2, 3, 4, 0, 0, 0],
  [5, 0, 0, 0, 0, 0, 0, 0], [0, 5, 0, 0, 0, 0, 0, 0], [1, 5, 0, 0, 0, 0, 0, 0], [0, 1, 5, 0, 0, 0, 0, 0],
  [2, 5, 0, 0, 0, 0, 0, 0], [0, 2, 5, 0, 0, 0, 0, 0], [1, 2, 5, 0, 0, 0, 0, 0], [0, 1, 2, 5, 0, 0, 0, 0],
  [3, 5, 0, 0, 0, 0, 0, 0], [0, 3, 5, 0, 0, 0, 0, 0], [1, 3, 5, 0, 0, 0, 0, 0], [0, 1, 3, 5, 0, 0, 0, 0],
  [2, 3, 5, 0, 0, 0, 0, 0], [0, 2, 3, 5, 0, 0, 0, 0], [1, 2, 3, 5, 0, 0, 0, 0], [0, 1, 2, 3, 5, 0, 0, 0],
  [4, 5, 0, 0, 0, 0, 0, 0], [0, 4, 5, 0, 0, 0, 0, 0], [1, 4, 5, 0, 0, 0, 0, 0], [0, 1, 4, 5, 0, 0, 0, 0],
  [2, 4, 5, 0, 0, 0, 0, 0], [0, 2, 4, 5, 0, 0, 0, 0], [1, 2, 4, 5, 0, 0, 0, 0], [0, 1, 2, 4, 5, 0, 0, 0],
  [3, 4, 5, 0, 0, 0, 0, 0], [0, 3, 4, 5, 0, 0, 0, 0], [1, 3, 4, 5, 0, 0, 0, 0], [0, 1, 3, 4, 5, 0, 0, 0],
  [2, 3, 4, 5, 0, 0, 0, 0], [0, 2, 3, 4, 5, 0, 0, 0], [1, 2, 3, 4, 5, 0, 0, 0], [0, 1, 2, 3, 4, 5, 0, 0],
  [6, 0, 0, 0, 0, 0, 0, 0], [0, 6, 0, 0, 0, 0, 0, 0], [1, 6, 0, 0, 0, 0, 0, 0], [0, 1, 6, 0, 0, 0, 0, 0],
  [2, 6, 0, 0, 0, 0, 0, 0], [0, 2, 6, 0, 0, 0, 0, 0], [1, 2, 6, 0, 0, 0, 0, 0], [0, 1, 2, 6, 0, 0, 0, 0],
  [3, 6, 0, 0, 0, 0, 0, 0], [0, 3, 6, 0, 0, 0, 0, 0], [1, 3, 6, 0, 0, 0, 0, 0], [0, 1, 3, 6, 0, 0, 0, 0],
  [2, 3, 6, 0, 0, 0, 0, 0], [0, 2, 3, 6, 0, 0, 0, 0], [1, 2, 3, 6, 0, 0, 0, 0], [0, 1, 2, 3, 6, 0, 0, 0],
  [4, 6, 0, 0, 0, 0, 0, 0], [0, 4, 6, 0, 0, 0, 0, 0], [1, 4, 6, 0, 0, 0, 0, 0], [0, 1, 4, 6, 0, 0, 0, 0],
  [2, 4, 6, 0, 0, 0, 0, 0], [0, 2, 4, 6, 0, 0, 0, 0], [1, 2, 4, 6, 0, 0, 0, 0], [0, 1, 2, 4, 6, 0, 0, 0],
  [3, 4, 6, 0, 0, 0, 0, 0], [0, 3, 4, 6, 0, 0, 0, 0], [1, 3, 4, 6, 0, 0, 0, 0], [0, 1, 3, 4, 6, 0, 0, 0],
  [2, 3, 4, 6, 0, 0, 0, 0], [0, 2, 3, 4, 6, 0, 0, 0], [1, 2, 3, 4, 6, 0, 0, 0], [0, 1, 2, 3, 4, 6, 0, 0],
  [5, 6, 0, 0, 0, 0, 0, 0], [0, 5, 6, 0, 0, 0, 0, 0], [1, 5, 6, 0, 0, 0, 0, 0], [0, 1, 5, 6, 0, 0, 0, 0],
  [2, 5, 6, 0, 0, 0, 0, 0], [0, 2, 5, 6, 0, 0, 0, 0], [1, 2, 5, 6, 0, 0, 0, 0], [0, 1, 2, 5, 6, 0, 0, 0],
  [3, 5, 6, 0, 0, 0, 0, 0], [0, 3, 5, 6, 0, 0, 0, 0], [1, 3, 5, 6, 0, 0, 0, 0], [0, 1, 3, 5, 6, 0, 0, 0],
  [2, 3, 5, 6, 0, 0, 0, 0], [0, 2, 3, 5, 6, 0, 0, 0], [1, 2, 3, 5, 6, 0, 0, 0], [0, 1, 2, 3, 5, 6, 0, 0],
  [4, 5, 6, 0, 0, 0, 0, 0], [0, 4, 5, 6, 0, 0, 0, 0], [1, 4, 5, 6, 0, 0, 0, 0], [0, 1, 4, 5, 6, 0, 0, 0],
  [2, 4, 5, 6, 0, 0, 0, 0], [0, 2, 4, 5, 6, 0, 0, 0], [1, 2, 4, 5, 6, 0, 0, 0], [0, 1, 2, 4, 5, 6, 0, 0],
  [3, 4, 5, 6, 0, 0, 0, 0], [0, 3, 4, 5, 6, 0, 0, 0], [1, 3, 4, 5, 6, 0, 0, 0], [0, 1, 3, 4, 5, 6, 0, 0],
  [2, 3, 4, 5, 6, 0, 0, 0], [0, 2, 3, 4, 5, 6, 0, 0], [1, 2, 3, 4, 5, 6, 0, 0], [0, 1, 2, 3, 4, 5, 6, 0],
  [7, 0, 0, 0, 0, 0, 0, 0], [0, 7, 0, 0, 0, 0, 0, 0], [1, 7, 0, 0, 0, 0, 0, 0], [0, 1, 7, 0, 0, 0, 0, 0],
  [2, 7, 0, 0, 0, 0, 0, 0], [0, 2, 7, 0, 0, 0, 0, 0], [1, 2, 7, 0, 0, 0, 0, 0], [0, 1, 2, 7, 0, 0, 0, 0],
  [3, 7, 0, 0, 0, 0, 0, 0], [0, 3, 7, 0, 0, 0, 0, 0], [1, 3, 7, 0, 0, 0, 0, 0], [0, 1, 3, 7, 0, 0, 0, 0],
  [2, 3, 7, 0, 0, 0, 0, 0], [0, 2, 3, 7, 0, 0, 0, 0], [1, 2, 3, 7, 0, 0, 0, 0], [0, 1, 2, 3, 7, 0, 0, 0],
  [4, 7, 0, 0, 0, 0, 0, 0], [0, 4, 7, 0, 0, 0, 0, 0], [1, 4, 7, 0, 0, 0, 0, 0], [0, 1, 4, 7, 0, 0, 0, 0],
  [2, 4, 7, 0, 0, 0, 0, 0], [0, 2, 4, 7, 0, 0, 0, 0], [1, 2, 4, 7, 0, 0, 0, 0], [0, 1, 2, 4, 7, 0, 0, 0],
  [3, 4, 7, 0, 0, 0, 0, 0], [0, 3, 4, 7, 0, 0, 0, 0], [1, 3, 4, 7, 0, 0, 0, 0], [0, 1, 3, 4, 7, 0, 0, 0],
  [2, 3, 4, 7, 0, 0, 0, 0], [0, 2, 3, 4, 7, 0, 0, 0], [1, 2, 3, 4, 7, 0, 0, 0], [0, 1, 2, 3, 4, 7, 0, 0],
  [5, 7, 0, 0, 0, 0, 0, 0], [0, 5, 7, 0, 0, 0, 0, 0], [1, 5, 7, 0, 0, 0, 0, 0], [0, 1, 5, 7, 0, 0, 0, 0],
  [2, 5, 7, 0, 0, 0, 0, 0], [0, 2, 5, 7, 0, 0, 0, 0], [1, 2, 5, 7, 0, 0, 0, 0], [0, 1, 2, 5, 7, 0, 0, 0],
  [3, 5, 7, 0, 0, 0, 0, 0], [0, 3, 5, 7, 0, 0, 0, 0], [1, 3, 5, 7, 0, 0, 0, 0], [0, 1, 3, 5, 7, 0, 0, 0],
  [2, 3, 5, 7, 0, 0, 0, 0], [0, 2, 3, 5, 7, 0, 0, 0], [1, 2, 3, 5, 7, 0, 0, 0], [0, 1, 2, 3, 5, 7, 0, 0],
  [4, 5, 7, 0, 0, 0, 0, 0], [0, 4, 5, 7, 0, 0, 0, 0], [1, 4, 5, 7, 0, 0, 0, 0], [0, 1, 4, 5, 7, 0, 0, 0],
  [2, 4, 5, 7, 0, 0, 0, 0], [0, 2, 4, 5, 7, 0, 0, 0], [1, 2, 4, 5, 7, 0, 0, 0], [0, 1, 2, 4, 5, 7, 0, 0],
  [3, 4, 5, 7, 0, 0, 0, 0], [0, 3, 4, 5, 7, 0, 0, 0], [1, 3, 4, 5, 7, 0, 0, 0], [0, 1, 3, 4, 5, 7, 0, 0],
  [2, 3, 4, 5, 7, 0, 0, 0], [0, 2, 3, 4, 5, 7, 0, 0], [1, 2, 3, 4, 5, 7, 0, 0], [0, 1, 2, 3, 4, 5, 7, 0],
  [6, 7, 0, 0, 0, 0, 0, 0], [0, 6, 7, 0, 0, 0, 0, 0], [1, 6, 7, 0, 0, 0, 0, 0], [0, 1, 6, 7, 0, 0, 0, 0],
  [2, 6, 7, 0, 0, 0, 0, 0], [0, 2, 6, 7, 0, 0, 0, 0], [1, 2, 6, 7, 0, 0, 0, 0], [0, 1, 2, 6, 7, 0, 0, 0],
  [3, 6, 7, 0, 0, 0, 0, 0], [0, 3, 6, 7, 0, 0, 0, 0], [1, 3, 6, 7, 0, 0, 0, 0], [0, 1, 3, 6, 7, 0, 0, 0],
  [2, 3, 6, 7, 0, 0, 0, 0], [0, 2, 3, 6, 7, 0, 0, 0], [1, 2, 3, 6, 7, 0, 0, 0], [0, 1, 2, 3, 6, 7, 0, 0],
  [4, 6, 7, 0, 0, 0, 0, 0], [0, 4, 6, 7, 0, 0, 0, 0], [1, 4, 6, 7, 0, 0, 0, 0], [0, 1, 4, 6, 7, 0, 0, 0],
  [2, 4, 6, 7, 0, 0, 0, 0], [0, 2, 4, 6, 7, 0, 0, 0], [1, 2, 4, 6, 7, 0, 0, 0], [0, 1, 2, 4, 6, 7, 0, 0],
  [3, 4, 6, 7, 0, 0, 0, 0], [0, 3, 4, 6, 7, 0, 0, 0], [1, 3, 4, 6, 7, 0, 0, 0], [0, 1, 3, 4, 6, 7, 0, 0],
  [2, 3, 4, 6, 7, 0, 0, 0], [0, 2, 3, 4, 6, 7, 0, 0], [1, 2, 3, 4, 6, 7, 0, 0], [0, 1, 2, 3, 4, 6, 7, 0],
  [5, 6, 7, 0, 0, 0, 0, 0], [0, 5, 6, 7, 0, 0, 0, 0], [1, 5, 6, 7, 0, 0, 0, 0], [0, 1, 5, 6, 7, 0, 0, 0],
  [2, 5, 6, 7, 0, 0, 0, 0], [0, 2, 5, 6, 7, 0, 0, 0], [1, 2, 5, 6, 7, 0, 0, 0], [0, 1, 2, 5, 6, 7, 0, 0],
  [3, 5, 6, 7, 0, 0, 0, 0], [0, 3, 5, 6, 7, 0, 0, 0], [1, 3, 5, 6, 7, 0, 0, 0], [0, 1, 3, 5, 6, 7, 0, 0],
  [2, 3, 5, 6, 7, 0, 0, 0], [0, 2, 3, 5, 6, 7, 0, 0], [1, 2, 3, 5, 6, 7, 0, 0], [0, 1, 2, 3, 5, 6, 7, 0],
  [4, 5, 6, 7, 0, 0, 0, 0], [0, 4, 5, 6, 7, 0, 0, 0], [1, 4, 5, 6, 7, 0, 0, 0], [0, 1, 4, 5, 6, 7, 0, 0],
  [2, 4, 5, 6, 7, 0, 0, 0], [0, 2, 4, 5, 6, 7, 0, 0], [1, 2, 4, 5, 6, 7, 0, 0], [0, 1, 2, 4, 5, 6, 7, 0],
  [3, 4, 5, 6, 7, 0, 0, 0], [0, 3, 4, 5, 6, 7, 0, 0], [1, 3, 4, 5, 6, 7, 0, 0], [0, 1, 3, 4, 5, 6, 7, 0],
  [2, 3, 4, 5, 6, 7, 0, 0], [0, 2, 3, 4, 5, 6, 7, 0], [1, 2, 3, 4, 5, 6, 7, 0], [0, 1, 2, 3, 4, 5, 6, 7]]

/-- `.LPermTableRight`: row `m` gathers the lanes whose bit is clear in `m`. -/
def permTableRight : List (List Nat) :=
  [ [0, 1, 2, 3, 4, 5, 6, 7], [1, 2, 3, 4, 5, 6, 7, 0], [0, 2, 3, 4, 5, 6, 7, 0], [2, 3, 4, 5, 6, 7, 0, 0],
  [0, 1, 3, 4, 5, 6, 7, 0], [1, 3, 4, 5, 6, 7, 0, 0], [0, 3, 4, 5, 6, 7, 0, 0], [3, 4, 5, 6, 7, 0, 0, 0],
  [0, 1, 2, 4, 5, 6, 7, 0], [1, 2, 4, 5, 6, 7, 0, 0], [0, 2, 4, 5, 6, 7, 0, 0], [2, 4, 5, 6, 7, 0, 0, 0],
  [0, 1, 4, 5, 6, 7, 0, 0], [1, 4, 5, 6, 7, 0, 0, 0], [0, 4, 5, 6, 7, 0, 0, 0], [4, 5, 6, 7, 0, 0, 0, 0],
  [0, 1, 2, 3, 5, 6, 7, 0], [1, 2, 3, 5, 6, 7, 0, 0], [0, 2, 3, 5, 6, 7, 0, 0], [2, 3, 5, 6, 7, 0, 0, 0],
  [0, 1, 3, 5, 6, 7, 0, 0], [1, 3, 5, 6, 7, 0, 0, 0], [0, 3, 5, 6, 7, 0, 0, 0], [3, 5, 6, 7, 0, 0, 0, 0],
  [0, 1, 2, 5, 6, 7, 0, 0], [1, 2, 5, 6, 7, 0, 0, 0], [0, 2, 5, 6, 7, 0, 0, 0], [2, 5, 6, 7, 0, 0, 0, 0],
  [0, 1, 5, 6, 7, 0, 0, 0], [1, 5, 6, 7, 0, 0, 0, 0], [0, 5, 6, 7, 0, 0, 0, 0], [5, 6, 7, 0, 0, 0, 0, 0],
  [0, 1, 2, 3, 4, 6, 7, 0], [1, 2, 3, 4, 6, 7, 0, 0], [0, 2, 3, 4, 6, 7, 0, 0], [2, 3, 4, 6, 7, 0, 0, 0],
  [0, 1, 3, 4, 6, 7, 0, 0], [1, 3, 4, 6, 7, 0, 0, 0], [0, 3, 4, 6, 7, 0, 0, 0], [3, 4, 6, 7, 0, 0, 0, 0],
  [0, 1, 2, 4, 6, 7, 0, 0], [1, 2, 4, 6, 7, 0, 0, 0], [0, 2, 4, 6, 7, 0, 0, 0], [2, 4, 6, 7, 0, 0, 0, 0],
  [0, 1, 4, 6, 7, 0, 0, 0], [1, 4, 6, 7, 0, 0, 0, 0], [0, 4, 6, 7, 0, 0, 0, 0], [4, 6, 7, 0, 0, 0, 0, 0],
  [0, 1, 2, 3, 6, 7, 0, 0], [1, 2, 3, 6, 7, 0, 0, 0], [0, 2, 3, 6, 7, 0, 0, 0], [2, 3, 6, 7, 0, 0, 0, 0],
  [0, 1, 3, 6, 7, 0, 0, 0], [1, 3, 6, 7, 0, 0, 0, 0], [0, 3, 6, 7, 0, 0, 0, 0], [3, 6, 7, 0, 0, 0, 0, 0],
  [0, 1, 2, 6, 7, 0, 0, 0], [1, 2, 6, 7, 0, 0, 0, 0], [0, 2, 6, 7, 0, 0, 0, 0], [2, 6, 7, 0, 0, 0, 0, 0],
  [0, 1, 6, 7, 0, 0, 0, 0], [1, 6, 7, 0, 0, 0, 0, 0], [0, 6, 7, 0, 0, 0, 0, 0], [6, 7, 0, 0, 0, 0, 0, 0],
  [0, 1, 2, 3, 4, 5, 7, 0], [1, 2, 3, 4, 5, 7, 0, 0], [0, 2, 3, 4, 5, 7, 0, 0], [2, 3, 4, 5, 7, 0, 0, 0],
  [0, 1, 3, 4, 5, 7, 0, 0], [1, 3, 4, 5, 7, 0, 0, 0], [0, 3, 4, 5, 7, 0, 0, 0], [3, 4, 5, 7, 0, 0, 0, 0],
  [0, 1, 2, 4, 5, 7, 0, 0], [1, 2, 4, 5, 7, 0, 0, 0], [0, 2, 4, 5, 7, 0, 0, 0], [2, 4, 5, 7, 0, 0, 0, 0],
  [0, 1, 4, 5, 7, 0, 0, 0], [1, 4, 5, 7, 0, 0, 0, 0], [0, 4, 5, 7, 0, 0, 0, 0], [4, 5, 7, 0, 0, 0, 0, 0],
  [0, 1, 2, 3, 5, 7, 0, 0], [1, 2, 3, 5, 7, 0, 0, 0], [0, 2, 3, 5, 7, 0, 0, 0], [2, 3, 5, 7, 0, 0, 0, 0],
  [0, 1, 3, 5, 7, 0, 0, 0], [1, 3, 5, 7, 0, 0, 0, 0], [0, 3, 5, 7, 0, 0, 0, 0], [3, 5, 7, 0, 0, 0, 0, 0],
  [0, 1, 2, 5, 7, 0, 0, 0], [1, 2, 5, 7, 0, 0, 0, 0], [0, 2, 5, 7, 0, 0, 0, 0], [2, 5, 7, 0, 0, 0, 0, 0],
  [0, 1, 5, 7, 0, 0, 0, 0], [1, 5, 7, 0, 0, 0, 0, 0], [0, 5, 7, 0, 0, 0, 0, 0], [5, 7, 0, 0, 0, 0, 0, 0],
  [0, 1, 2, 3, 4, 7, 0, 0], [1, 2, 3, 4, 7, 0, 0, 0], [0, 2, 3, 4, 7, 0, 0, 0], [2, 3, 4, 7, 0, 0, 0, 0],
  [0, 1, 3, 4, 7, 0, 0, 0], [1, 3, 4, 7, 0, 0, 0, 0], [0, 3, 4, 7, 0, 0, 0, 0], [3, 4, 7, 0, 0, 0, 0, 0],
  [0, 1, 2, 4, 7, 0, 0, 0], [1, 2, 4, 7, 0, 0, 0, 0], [0, 2, 4, 7, 0, 0, 0, 0], [2, 4, 7, 0, 0, 0, 0, 0],
  [0, 1, 4, 7, 0, 0, 0, 0], [1, 4, 7, 0, 0, 0, 0, 0], [0, 4, 7, 0, 0, 0, 0, 0], [4, 7, 0, 0, 0, 0, 0, 0],
  [0, 1, 2, 3, 7, 0, 0, 0], [1, 2, 3, 7, 0, 0, 0, 0], [0, 2, 3, 7, 0, 0, 0, 0], [2, 3, 7, 0, 0, 0, 0, 0],
  [0, 1, 3, 7, 0, 0, 0, 0], [1, 3, 7, 0, 0, 0, 0, 0], [0, 3, 7, 0, 0, 0, 0, 0], [3, 7, 0, 0, 0, 0, 0, 0],
  [0, 1, 2, 7, 0, 0, 0, 0], [1, 2, 7, 0, 0, 0, 0, 0], [0, 2, 7, 0, 0, 0, 0, 0], [2, 7, 0, 0, 0, 0, 0, 0],
  [0, 1, 7, 0, 0, 0, 0, 0], [1, 7, 0, 0, 0, 0, 0, 0], [0, 7, 0, 0, 0, 0, 0, 0], [7, 0, 0, 0, 0, 0, 0, 0],
  [0, 1, 2, 3, 4, 5, 6, 0], [1, 2, 3, 4, 5, 6, 0, 0], [0, 2, 3, 4, 5, 6, 0, 0], [2, 3, 4, 5, 6, 0, 0, 0],
  [0, 1, 3, 4, 5, 6, 0, 0], [1, 3, 4, 5, 6, 0, 0, 0], [0, 3, 4, 5, 6, 0, 0, 0], [3, 4, 5, 6, 0, 0, 0, 0],
  [0, 1, 2, 4, 5, 6, 0, 0], [1, 2, 4, 5, 6, 0, 0, 0], [0, 2, 4, 5, 6, 0, 0, 0], [2, 4, 5, 6, 0, 0, 0, 0],
  [0, 1, 4, 5, 6, 0, 0, 0], [1, 4, 5, 6, 0, 0, 0, 0], [0, 4, 5, 6, 0, 0, 0, 0], [4, 5, 6, 0, 0, 0, 0, 0],
  [0, 1, 2, 3, 5, 6, 0, 0], [1, 2, 3, 5, 6, 0, 0, 0], [0, 2, 3, 5, 6, 0, 0, 0], [2, 3, 5, 6, 0, 0, 0, 0],
  [0, 1, 3, 5, 6, 0, 0, 0], [1, 3, 5, 6, 0, 0, 0, 0], [0, 3, 5, 6, 0, 0, 0, 0], [3, 5, 6, 0, 0, 0, 0, 0],
  [0, 1, 2, 5, 6, 0, 0, 0], [1, 2, 5, 6, 0, 0, 0, 0], [0, 2, 5, 6, 0, 0, 0, 0], [2, 5, 6, 0, 0, 0, 0, 0],
  [0, 1, 5, 6, 0, 0, 0, 0], [1, 5, 6, 0, 0, 0, 0, 0], [0, 5, 6, 0, 0, 0, 0, 0], [5, 6, 0, 0, 0, 0, 0, 0],
  [0, 1, 2, 3, 4, 6, 0, 0], [1, 2, 3, 4, 6, 0, 0, 0], [0, 2, 3, 4, 6, 0, 0, 0], [2, 3, 4, 6, 0, 0, 0, 0],
  [0, 1, 3, 4, 6, 0, 0, 0], [1, 3, 4, 6, 0, 0, 0, 0], [0, 3, 4, 6, 0, 0, 0, 0], [3, 4, 6, 0, 0, 0, 0, 0],
  [0, 1, 2, 4, 6, 0, 0, 0], [1, 2, 4, 6, 0, 0, 0, 0], [0, 2, 4, 6, 0, 0, 0, 0], [2, 4, 6, 0, 0, 0, 0, 0],
  [0, 1, 4, 6, 0, 0, 0, 0], [1, 4, 6, 0, 0, 0, 0, 0], [0, 4, 6, 0, 0, 0, 0, 0], [4, 6, 0, 0, 0, 0, 0, 0],
  [0, 1, 2, 3, 6, 0, 0, 0], [1, 2, 3, 6, 0, 0, 0, 0], [0, 2, 3, 6, 0, 0, 0, 0], [2, 3, 6, 0, 0, 0, 0, 0],
  [0, 1, 3, 6, 0, 0, 0, 0], [1, 3, 6, 0, 0, 0, 0, 0], [0, 3, 6, 0, 0, 0, 0, 0], [3, 6, 0, 0, 0, 0, 0, 0],
  [0, 1, 2, 6, 0, 0, 0, 0], [1, 2, 6, 0, 0, 0, 0, 0], [0, 2, 6, 0, 0, 0, 0, 0], [2, 6, 0, 0, 0, 0, 0, 0],
  [0, 1, 6, 0, 0, 0, 0, 0], [1, 6, 0, 0, 0, 0, 0, 0], [0, 6, 0, 0, 0, 0, 0, 0], [6, 0, 0, 0, 0, 0, 0, 0],
  [0, 1, 2, 3, 4, 5, 0, 0], [1, 2, 3, 4, 5, 0, 0, 0], [0, 2, 3, 4, 5, 0, 0, 0], [2, 3, 4, 5, 0, 0, 0, 0],
  [0, 1, 3, 4, 5, 0, 0, 0], [1, 3, 4, 5, 0, 0, 0, 0], [0, 3, 4, 5, 0, 0, 0, 0], [3, 4, 5, 0, 0, 0, 0, 0],
  [0, 1, 2, 4, 5, 0, 0, 0], [1, 2, 4, 5, 0, 0, 0, 0], [0, 2, 4, 5, 0, 0, 0, 0], [2, 4, 5, 0, 0, 0, 0, 0],
  [0, 1, 4, 5, 0, 0, 0, 0], [1, 4, 5, 0, 0, 0, 0, 0], [0, 4, 5, 0, 0, 0, 0, 0], [4, 5, 0, 0, 0, 0, 0, 0],
  [0, 1, 2, 3, 5, 0, 0, 0], [1, 2, 3, 5, 0, 0, 0, 0], [0, 2, 3, 5, 0, 0, 0, 0], [2, 3, 5, 0, 0, 0, 0, 0],
  [0, 1, 3, 5, 0, 0, 0, 0], [1, 3, 5, 0, 0, 0, 0, 0], [0, 3, 5, 0, 0, 0, 0, 0], [3, 5, 0, 0, 0, 0, 0, 0],
  [0, 1, 2, 5, 0, 0, 0, 0], [1, 2, 5, 0, 0, 0, 0, 0], [0, 2, 5, 0, 0, 0, 0, 0], [2, 5, 0, 0, 0, 0, 0, 0],
  [0, 1, 5, 0, 0, 0, 0, 0], [1, 5, 0, 0, 0, 0, 0, 0], [0, 5, 0, 0, 0, 0, 0, 0], [5, 0, 0, 0, 0, 0, 0, 0],
  [0, 1, 2, 3, 4, 0, 0, 0], [1, 2, 3, 4, 0, 0, 0, 0], [0, 2, 3, 4, 0, 0, 0, 0], [2, 3, 4, 0, 0, 0, 0, 0],
  [0, 1, 3, 4, 0, 0, 0, 0], [1, 3, 4, 0, 0, 0, 0, 0], [0, 3, 4, 0, 0, 0, 0, 0], [3, 4, 0, 0, 0, 0, 0, 0],
  [0, 1, 2, 4, 0, 0, 0, 0], [1, 2, 4, 0, 0, 0, 0, 0], [0, 2, 4, 0, 0, 0, 0, 0], [2, 4, 0, 0, 0, 0, 0, 0],
  [0, 1, 4, 0, 0, 0, 0, 0], [1, 4, 0, 0, 0, 0, 0, 0], [0, 4, 0, 0, 0, 0, 0, 0], [4, 0, 0, 0, 0, 0, 0, 0],
  [0, 1, 2, 3, 0, 0, 0, 0], [1, 2, 3, 0, 0, 0, 0, 0], [0, 2, 3, 0, 0, 0, 0, 0], [2, 3, 0, 0, 0, 0, 0, 0],
  [0, 1, 3, 0, 0, 0, 0, 0], [1, 3, 0, 0, 0, 0, 0, 0], [0, 3, 0, 0, 0, 0, 0, 0], [3, 0, 0, 0, 0, 0, 0, 0],
  [0, 1, 2, 0, 0, 0, 0, 0], [1, 2, 0, 0, 0, 0, 0, 0], [0, 2, 0, 0, 0, 0, 0, 0], [2, 0, 0, 0, 0, 0, 0, 0],
  [0, 1, 0, 0, 0, 0, 0, 0], [1, 0, 0, 0, 0, 0, 0, 0], [0, 0, 0, 0, 0, 0, 0, 0], [0, 0, 0, 0, 0, 0, 0, 0]]

/-- `vpcmpgtd lanes, PIVOT`: all ones where the pivot is greater, signed. -/
def vpcmpgtd (pivot : Word) (lanes : List Word) : List Word :=
  lanes.map fun lane => if lane.slt pivot then BitVec.allOnes 32 else 0

def vmovmskps (lanes : List Word) : Nat :=
  lanes.foldr (fun lane mask => lane.msb.toNat + 2 * mask) 0

def vpermd (lanes : List Word) (indices : List Nat) : List Word :=
  indices.map fun index => lanes.getD (index % 8) 0

def popcnt (register : Nat) : Nat := (BitVec.ofNat 64 register).cpop.toNat

def tableOffset (pivot : Word) (lanes : List Word) : Nat :=
  vmovmskps (vpcmpgtd pivot lanes) <<< 5

/-- One compressed store: permute the lanes by their table row, store all eight of them
and advance the pointer by what the population count of the mask says. -/
def storePermuted (table : List (List Nat)) (advance : Nat → Int) (pivot : Word) :
    Heap Word × Int → List Word → Option (Heap Word × Int)
  | (heap, pointer), lanes => do
      let offset := tableOffset pivot lanes
      let heap ← heap.write pointer (vpermd lanes (table.getD (offset / 32) []))
      some (heap, pointer + advance (popcnt offset))

def storeBottom : Word → Heap Word × Int → List Word → Option (Heap Word × Int) :=
  storePermuted permTableLeft fun count => count

/-- `sub $32, r; vmovdqu A, (top); sub r, top`. -/
def storeTop : Word → Heap Word × Int → List Word → Option (Heap Word × Int) :=
  storePermuted permTableRight fun count => -((count : Int) - 8)

/-- The registers of the partition: `array`, `bottom` and `top` point into memory and
`n` counts the elements still to be read. -/
structure Regs where
  heap : Heap Word
  array : Int
  bottom : Int
  top : Int
  n : Nat

/-- The body of the loops unrolled seven, three and one times: load every vector, then
store all left parts, then all right parts. -/
def vectorBlock (unroll : Nat) (pivot : Word) (regs : Regs) : Option Regs := do
  let loaded ← (List.range unroll).mapM fun i : Nat => regs.heap.read (regs.array + (8 * i : Nat)) 8
  let (heap, bottom) ← loaded.foldlM (storeBottom pivot) (regs.heap, regs.bottom)
  let (heap, top) ← loaded.foldlM (storeTop pivot) (heap, regs.top)
  some { heap, bottom, top, n := regs.n - 8 * unroll, array := regs.array + (8 * unroll : Nat) }

def vectorLoop (unroll : Nat) (pivot : Word) (regs : Regs) : Option Regs :=
  whileLoop (fun regs => some (8 * unroll ≤ regs.n)) (vectorBlock unroll pivot) (regs.n + 1) regs

def lx7Loop : Word → Regs → Option Regs := vectorLoop 7

def lx3Loop : Word → Regs → Option Regs := vectorLoop 3

def lx1Loop : Word → Regs → Option Regs := vectorLoop 1

/-- The body of `.Ls_loop`; here equal elements go to the left. -/
def scalarStep (pivot : Word) (regs : Regs) : Option Regs := do
  let element ← regs.heap.load regs.array
  if pivot.slt element then
    let heap ← regs.heap.store regs.top element
    some { regs with heap, top := regs.top + 1, array := regs.array + 1, n := regs.n - 1 }
  else
    let heap ← regs.heap.store regs.bottom element
    some { regs with heap, bottom := regs.bottom + 1, array := regs.array + 1, n := regs.n - 1 }

def lsLoop (pivot : Word) (regs : Regs) : Option Regs :=
  whileLoop (fun regs => some (regs.n ≠ 0)) (scalarStep pivot) (regs.n + 1) regs

def partitionLoops (pivot : Word) (regs : Regs) : Option Regs := do
  let regs ← lx7Loop pivot regs
  let regs ← lx3Loop pivot regs
  let regs ← lx1Loop pivot regs
  lsLoop pivot regs

/-- The registers of the copy back: `tempSpace` and `bottom` advance, `top` counts down. -/
structure CopyRegs where
  heap : Heap Word
  tempSpace : Int
  bottom : Int
  top : Nat

def copyBlock (width : Nat) (regs : CopyRegs) : Option CopyRegs := do
  let values ← regs.heap.read regs.tempSpace width
  let heap ← regs.heap.write regs.bottom values
  some { heap, tempSpace := regs.tempSpace + width, bottom := regs.bottom + width, top := regs.top - width }

def copyLoop (width : Nat) (regs : CopyRegs) : Option CopyRegs :=
  whileLoop (fun regs => some (width ≤ regs.top)) (copyBlock width) (regs.top + 1) regs

/-- `.Lx4_copy_loop`, `.Lx1_copy_loop` and the single copies, each of which jumps back
to `.Lx4_copy_end`, that is to the loop of width 8. -/
def copyBack (regs : CopyRegs) : Option CopyRegs := do
  let regs ← copyLoop 32 regs
  let regs ← copyLoop 8 regs
  whileLoop (fun regs => some (regs.top ≠ 0))
    (fun regs => do
      let regs ← copyBlock 1 regs
      copyLoop 8 regs)
    (regs.top + 1) regs

/-- The compares and swaps of the median of three, in the order `el1`, `el2`, `el3`;
`jbe` makes the compares unsigned. -/
def orderThree (el1 el2 el3 : Word) : Word × Word × Word :=
  let (el1, el2) := if el1 ≤ el2 then (el1, el2) else (el2, el1)
  if el2 ≤ el3 then (el1, el2, el3)
  else if el1 ≤ el3 then (el1, el3, el2) else (el3, el1, el2)

/-- The elements at 0, `n - 1` and `n / 2` are rewritten so that their median comes last. -/
def medianOfThree (heap : Heap Word) (array : Int) (n : Nat) : Option (Heap Word) := do
  let el1 ← heap.load array
  let el3 ← heap.load (array + (n / 2 : Nat))
  let el2 ← heap.load (array + n - 1)
  let (el1, el2, el3) := orderThree el1 el2 el3
  let heap ← heap.store array el1
  let heap ← heap.store (array + (n / 2 : Nat)) el3
  heap.store (array + n - 1) el2

/-- `qsort_AVX2`: partitions around the median and returns how many elements follow it. -/
def qsortAVX2 (heap : Heap Word) (array tempSpace : Int) (n : Nat) : Option (Heap Word × Nat) := do
  let heap ← medianOfThree heap array n
  let pivot ← heap.load (array + n - 1)
  let regs ← partitionLoops pivot { heap, array, bottom := array, top := tempSpace, n := n - 1 }
  let heap ← regs.heap.store regs.bottom pivot
  let count := (regs.top - tempSpace).toNat
  let copied ← copyBack { heap, tempSpace, bottom := regs.bottom + 1, top := count }
  some (copied.heap, count)

def shiftLarger (d : Int) (tmp : Word) : Nat → Heap Word → Option (Heap Word × Nat)
  | 0, heap => some (heap, 0)
  | j + 1, heap => do
      let previous ← heap.load (d + j)
      if tmp.slt previous then
        let heap ← heap.store (d + (j + 1 : Nat)) previous
        shiftLarger d tmp j heap
      else some (heap, j + 1)

def avx2RemainSorts (heap : Heap Word) (d : Int) (n : Nat) : Option (Heap Word) :=
  if n ≤ 1 then some heap
  else
    forLoop
      (fun index heap => do
        let i := index + 1
        let tmp ← heap.load (d + i)
        let (heap, j) ← shiftLarger d tmp i heap
        heap.store (d + j) tmp)
      (n - 1) heap

/-- The `int` that `qsort_AVX2` returns, converted to `size_t`. -/
def sizeOfInt (result : Nat) : Nat := ((BitVec.ofNat 32 result).signExtend 64).toNat

/-- `my_qsort_AVX2`, with fuel for the depth of its recursion. -/
def myQsortAVX2 : Nat → Heap Word → Int → Int → Nat → Option (Heap Word)
  | 0, _, _, _, _ => none
  | fuel + 1, heap, unsortedArray, tmpArray, n => do
      let (heap, n) ← whileLoop (fun state => some (32 < state.2))
        (fun (heap, n) => do
          let (heap, result) ← qsortAVX2 heap unsortedArray tmpArray n
          let newN := sizeOfInt result
          let n := (n + 2 ^ 64 - newN - 1) % 2 ^ 64
          let heap ← myQsortAVX2 fuel heap (unsortedArray + (n + 1 : Nat)) tmpArray newN
          some (heap, n))
        (n + 1) (heap, n)
      avx2RemainSorts heap unsortedArray n

end Mbench.SortSpeed
