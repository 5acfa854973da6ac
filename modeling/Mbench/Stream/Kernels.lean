import Mbench.Library.ParallelFor
import Mathlib.Tactic.Ring

/-! The arrays of `stream_dynamic.c` and `mbm_stream_dynamic.c`: the parallel loop that fills them, the one that times the
clock, and the four kernels, `NTIMES` times. The arithmetic is a parameter, so that it may round; the clock and the
allocation are left out. -/

namespace Mbench.Stream
open Library

inductive Name
  | a
  | b
  | c
  deriving DecidableEq

/-- The elements `a[j]`, `b[j]` and `c[j]`; none where nothing has been stored. -/
structure Elements (E : Type) where
  a : Option E
  b : Option E
  c : Option E
  deriving Inhabited

inductive Access (E : Type)
  | load (name : Name)
  | store (name : Name) (value : E)

namespace Elements

variable {E : Type}

def get (elements : Elements E) : Name → Option E
  | .a => elements.a
  | .b => elements.b
  | .c => elements.c

def set (elements : Elements E) (name : Name) (value : E) : Elements E :=
  match name with
  | .a => { elements with a := some value }
  | .b => { elements with b := some value }
  | .c => { elements with c := some value }

end Elements

section
variable {E : Type}

def Access.perform : Access E → Elements E → Option (E × Elements E)
  | .load name, elements => (elements.get name).map fun value => (value, elements)
  | .store name value, elements => some (value, elements.set name value)

abbrev Body (E : Type) := Program (Access E) E Unit

def load (name : Name) : Program (Access E) E E := Program.call (.load name)

def store (name : Name) (value : E) : Program (Access E) E Unit := do
  let _ ← Program.call (.store name value)
  pure ()

/-- The team of one loop, how it shares the iterations, and in which order its threads take their steps. -/
structure Team (size : Nat) where
  threads : Nat
  deal : Deal size threads
  schedule : List (Fin threads)

def runLoops (size : Nat) : List (Body E) → (Nat → Team size) → (Nat → Elements E) → Option (Nat → Elements E)
  | [], _, elements => some elements
  | body :: rest, teams, elements => do
      let elements ← parallelFor Access.perform size (fun _ => body) (teams 0).deal (teams 0).schedule elements
      runLoops size rest (fun loop => teams (loop + 1)) elements

def runBodies : List (Body E) → Elements E → Option (Elements E)
  | [], elements => some elements
  | body :: rest, elements => do
      let (_, elements) ← exec Access.perform body elements
      runBodies rest elements

theorem runBodies_append (first second : List (Body E)) (elements : Elements E) :
    runBodies (first ++ second) elements = (runBodies first elements).bind (runBodies second) := by
  induction first generalizing elements with
  | nil => rfl
  | cons body rest ih =>
    rw [List.cons_append, runBodies, runBodies]
    cases exec Access.perform body elements with
    | none => rfl
    | some ended => exact ih ended.2

variable {size : Nat} {teams : Nat → Team size} {elements made final : Nat → Elements E}

theorem runLoops_elements {bodies : List (Body E)} (each : ∀ j < size, runBodies bodies (elements j) = some (made j))
    (ran : runLoops size bodies teams elements = some final) : ∀ j, final j = if j < size then made j else elements j := by
  induction bodies generalizing elements teams with
  | nil =>
    cases ran
    intro j
    split
    next inside => exact Option.some.inj (each j inside)
    next _ => rfl
  | cons body rest ih =>
    obtain ⟨between, looped, later⟩ := Option.bind_eq_some_iff.mp ran
    have middle (j : Nat) (inside : j < size) : ∃ element,
        exec Access.perform body (elements j) = some ((), element) ∧ runBodies rest element = some (made j) := by
      obtain ⟨⟨_, element⟩, first, after⟩ := Option.bind_eq_some_iff.mp (each j inside)
      exact ⟨element, first, after⟩
    choose! mid first after using middle
    have defined : Defined Access.perform size (fun _ => body) elements mid := first
    have cells := parallelFor_cells defined looped
    intro j
    rw [ih (fun j inside => by rw [cells, if_pos inside]; exact after j inside) later j, cells]
    split <;> rfl

end

section
variable {E : Type} [Add E] [Mul E] [OfNat E 0] [OfNat E 1] [OfNat E 2] [OfNat E 3]

def fill : Program (Access E) E Unit := do
  store .a 1
  store .b 2
  store .c 0

def timingCheck : Program (Access E) E Unit := do
  let a ← load .a
  store .a (2 * a)

def copy : Program (Access E) E Unit := do
  let a ← load .a
  store .c a

def scale (scalar : E) : Program (Access E) E Unit := do
  let c ← load .c
  store .b (scalar * c)

def add : Program (Access E) E Unit := do
  let a ← load .a
  let b ← load .b
  store .c (a + b)

def triad (scalar : E) : Program (Access E) E Unit := do
  let b ← load .b
  let c ← load .c
  store .a (b + scalar * c)

def loops (nTimes : Nat) : List (Body E) :=
  fill :: timingCheck :: (List.replicate nTimes [copy, scale 3, add, triad 3]).flatten

structure Expected (E : Type) where
  aj : E
  bj : E
  cj : E

def Expected.round (expected : Expected E) : Expected E :=
  let cj := expected.aj
  let bj := 3 * cj
  let cj := expected.aj + bj
  let aj := bj + 3 * cj
  { aj, bj, cj }

def expected (nTimes : Nat) : Expected E := Expected.round^[nTimes] { aj := 2 * 1, bj := 2, cj := 0 }

def Expected.elements (expected : Expected E) : Elements E :=
  { a := some expected.aj, b := some expected.bj, c := some expected.cj }

omit [OfNat E 0] [OfNat E 1] [OfNat E 2] in
theorem runBodies_round (expected : Expected E) :
    runBodies [copy, scale 3, add, triad 3] expected.elements = some expected.round.elements := rfl

theorem runBodies_loops (nTimes : Nat) (elements : Elements E) :
    runBodies (loops nTimes) elements = some (expected nTimes : Expected E).elements := by
  have rounds (nTimes : Nat) (expected : Expected E) :
      runBodies (List.replicate nTimes [copy, scale 3, add, triad 3]).flatten expected.elements =
        some (Expected.round^[nTimes] expected).elements := by
    induction nTimes generalizing expected with
    | zero => rfl
    | succ nTimes ih =>
      rw [List.replicate_succ, List.flatten_cons, runBodies_append, runBodies_round, Option.bind_some, ih,
        Function.iterate_succ_apply]
  exact rounds nTimes { aj := 2 * 1, bj := 2, cj := 0 }

/-- After all loops, shared out and interleaved in any way, each element of the three arrays is what the check expects. -/
theorem elements_expected (size nTimes : Nat) (teams : Nat → Team size) (elements final : Nat → Elements E)
    (ran : runLoops size (loops nTimes) teams elements = some final) :
    (∀ j < size, final j = (expected nTimes : Expected E).elements) ∧ ∀ j, size ≤ j → final j = elements j := by
  have cells := runLoops_elements (fun j _ => runBodies_loops nTimes (elements j)) ran
  exact ⟨fun j inside => (cells j).trans (if_pos inside), fun j outside => (cells j).trans (if_neg (by omega))⟩

/-- In each of the loops no thread is ever stuck: however far a team has come, each thread has ended or can go on, and the
team can come to the end. -/
theorem loop_completes (size nTimes : Nat) (before after : List (Body E)) (body : Body E)
    (split : loops nTimes = before ++ body :: after) (teams : Nat → Team size) (elements between : Nat → Elements E)
    (ran : runLoops size before teams elements = some between) (threads : Nat) (deal : Deal size threads)
    (begun : List (Fin threads)) (now : Threads (Fin threads) (Nat × Access E) E Unit (Nat → Elements E))
    (begins : run (threadStep (performAt Access.perform size)) begun (team (fun _ => body) deal between) = some now) :
    (∀ thread, now.remaining thread = .done () ∨ ∃ next, threadStep (performAt Access.perform size) thread now = some next) ∧
      ∃ rest, (parallelFor Access.perform size (fun _ => body) deal (begun ++ rest) between).isSome := by
  have middle (j : Nat) : ∃ mid made, runBodies before (elements j) = some mid ∧
      exec Access.perform body mid = some ((), made) := by
    have whole := runBodies_loops nTimes (elements j)
    rw [split, runBodies_append] at whole
    obtain ⟨mid, first, rest⟩ := Option.bind_eq_some_iff.mp whole
    obtain ⟨⟨_, made⟩, second, _⟩ := Option.bind_eq_some_iff.mp rest
    exact ⟨mid, made, first, second⟩
  choose mid made first second using middle
  have cells := runLoops_elements (fun j _ => first j) ran
  have defined : Defined Access.perform size (fun _ => body) between made := by
    intro j inside
    unfold Made
    rw [cells, if_pos inside]
    exact second j
  exact ⟨parallelFor_enabled defined begins, parallelFor_completes defined begins⟩

end

def inTurn (count more : Nat) : Deal count (more + 1) where
  chunk := fun thread => (List.range count).filter fun index => Fin.ofNat (more + 1) index = thread
  owner := Fin.ofNat (more + 1)
  nodup := fun _ => List.nodup_range.filter _
  mem_chunk := fun thread index => by rw [List.mem_filter, List.mem_range, decide_eq_true_iff]

/-- Threads with one element each take turns; each iteration of the loops has so many accesses. -/
def takeTurns (more loop : Nat) : Team (more + 1) where
  threads := more + 1
  deal := inTurn (more + 1) more
  schedule := (List.replicate ([3, 2, 2, 2, 3, 3].getD loop 0) (List.finRange (more + 1))).flatten

theorem elements_expected_two :
    ∃ final, runLoops 2 (loops 1) (takeTurns 1) (fun _ => default) = some final ∧
      (∀ j < 2, final j = (expected 1 : Expected Int).elements) ∧ ∀ j, 2 ≤ j → final j = default := by
  have runs : (runLoops 2 (loops 1) (takeTurns 1) fun _ => (default : Elements Int)).isSome := by decide +kernel
  obtain ⟨final, ran⟩ := Option.isSome_iff_exists.mp runs
  exact ⟨final, ran, elements_expected 2 1 (takeTurns 1) (fun _ => default) final ran⟩

theorem loop_completes_two :
    ∃ between now, runLoops 2 [fill, timingCheck] (takeTurns 1) (fun _ => (default : Elements Int)) = some between ∧
      run (threadStep (performAt Access.perform 2)) [0, 0] (team (fun _ => copy) (inTurn 2 1) between) = some now ∧
      (∀ thread, now.remaining thread = .done () ∨ ∃ next, threadStep (performAt Access.perform 2) thread now = some next) ∧
      ∃ rest, (parallelFor Access.perform 2 (fun _ => copy) (inTurn 2 1) ([0, 0] ++ rest) between).isSome := by
  have begins : ((runLoops 2 [fill, timingCheck] (takeTurns 1) fun _ => (default : Elements Int)).bind fun between =>
      run (threadStep (performAt Access.perform 2)) [0, 0] (team (fun _ => copy) (inTurn 2 1) between)).isSome := by decide +kernel
  obtain ⟨now, both⟩ := Option.isSome_iff_exists.mp begins
  obtain ⟨between, ran, begun⟩ := Option.bind_eq_some_iff.mp both
  exact ⟨between, now, ran, begun, loop_completes 2 1 [fill, timingCheck] [scale 3, add, triad 3] copy rfl (takeTurns 1)
    (fun _ => default) between ran 2 (inTurn 2 1) [0, 0] now begun⟩

end Mbench.Stream
