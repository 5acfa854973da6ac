import Mbench.LatencyRing.ParallelIsolation
import Mbench.LatencyRing.ReadWalk
import Mbench.Library.SharedInvariant

/-! Several threads of `simple_test` and `modify_read` of `mem_lat.c` on one ring. Those of `measure_rnd_fill` store into
the second words of the segments while others follow the first ones. -/

namespace Mbench.LatencyRing
open Library

def readThread : Nat → Nat → Thread Nat
  | 0, p => do
      let word ← Program.call (.load p)
      pure word
  | count + 1, p => do
      let p ← Program.call (.load p)
      readThread count p

inductive Walk
  | read
  | fill
  deriving DecidableEq

/-- A thread that makes one of them, started at `pos`, with the `default_loop` times 10000 hundreds of the tests. -/
def walkThread (defaultLoop pos : Nat) : Walk → Thread Nat
  | .read => readThread (wrOnes defaultLoop (1000 * 10)) pos
  | .fill => fillThread (wrOnes defaultLoop (1000 * 10)) pos

def Walk.hops (defaultLoop : Nat) : Walk → Nat
  | .read => wrOnes defaultLoop (1000 * 10) + 1
  | .fill => wrOnes defaultLoop (1000 * 10)

structure Web (initial : Heap UInt8) (node : Nat → Prop) : Prop where
  follow : ∀ q, node q → ∃ next, node next ∧ initial.load64 q = some next
  room : ∀ q, node q → initial.Allocated ↑(q + 8) 8
  apart : ∀ q r, node q → node r → r ≤ q ∨ q + 16 ≤ r

structure Intact (initial : Heap UInt8) (node : Nat → Prop) (heap : Heap UInt8) : Prop where
  frame : ∀ cell, (∀ q, node q → Outside cell ↑(q + 8) 8) → heap cell = initial cell
  allocated : ∀ base count, initial.Allocated base count → heap.Allocated base count

section
variable {initial heap : Heap UInt8} {node : Nat → Prop} {q p count : Nat} {shared : Shared}

theorem Intact.start (initial : Heap UInt8) (node : Nat → Prop) : Intact initial node initial :=
  ⟨fun _ _ => rfl, fun _ _ => id⟩

theorem Intact.load (intact : Intact initial node heap) (web : Web initial node) (here : node q) :
    heap.load64 q = initial.load64 q := by
  apply Heap.load64_congr
  intro cell from_ upto
  apply intact.frame
  intro r there
  have apart := web.apart r q there here
  simp only [Outside]
  omega

theorem Intact.chase (intact : Intact initial node heap) (web : Web initial node) (here : node q) (hops : Nat) :
    LatencyRing.chase heap hops q = LatencyRing.chase initial hops q := by
  induction hops generalizing q with
  | zero => rfl
  | succ hops ih =>
    obtain ⟨next, there, loaded⟩ := web.follow q here
    rw [LatencyRing.chase, LatencyRing.chase, intact.load web here, loaded]
    exact ih there

theorem Intact.store (intact : Intact initial node heap) (web : Web initial node) (here : node q) :
    ∃ next, heap.store64 ↑(q + 8) 1 = some next ∧ Intact initial node next := by
  have room : heap.Allocated ↑(q + 8) 8 := intact.allocated _ _ (web.room q here)
  obtain ⟨next, stored, _, frame, kept⟩ := Heap.store64_spec room (by decide : 1 < 2 ^ 64)
  refine ⟨next, stored, fun cell outside => ?_, fun base count allocated => kept base count (intact.allocated base count allocated)⟩
  rw [frame cell (outside q here), intact.frame cell outside]

def Unharmed (initial : Shared) (node : Nat → Prop) (shared : Shared) : Prop :=
  Intact initial.heap node shared.heap ∧ shared.debugRet = initial.debugRet

def Arrives (initial : Heap UInt8) (start hops value : Nat) : Prop := LatencyRing.chase initial hops start = some value

theorem arrives_succ {start next : Nat} (loaded : initial.load64 start = some next) (hops : Nat) :
    Arrives initial start (hops + 1) = Arrives initial next hops := by
  funext value
  rw [Arrives, Arrives, LatencyRing.chase, loaded]
  rfl

variable {first : Shared}

theorem maintains_load {promised : Nat → Prop} {next : Nat → Thread Nat} (web : Web first.heap node) (here : node q)
    (rest : ∀ word, node word → first.heap.load64 q = some word →
      Maintains Access.perform (Unharmed first node) promised (next word)) :
    Maintains Access.perform (Unharmed first node) promised (Program.call (.load q) >>= next) := by
  apply Maintains.call
  intro shared ⟨intact, rows⟩
  obtain ⟨word, there, loaded⟩ := web.follow q here
  refine ⟨word, shared, ?_, ⟨intact, rows⟩, rest word there loaded⟩
  rw [Access.perform, intact.load web here, loaded]
  rfl

theorem maintains_readThread (web : Web first.heap node) (here : node p) (count : Nat) :
    Maintains Access.perform (Unharmed first node) (Arrives first.heap p (count + 1)) (readThread count p) := by
  induction count generalizing p with
  | zero =>
    apply maintains_load web here
    intro word _ loaded
    rw [arrives_succ loaded]
    exact rfl
  | succ count ih =>
    apply maintains_load web here
    intro next there loaded
    rw [arrives_succ loaded]
    exact ih there

theorem maintains_fillThread (web : Web first.heap node) (here : node q) (count : Nat) :
    Maintains Access.perform (Unharmed first node) (Arrives first.heap q count) (fillThread count q) := by
  induction count generalizing q with
  | zero => exact rfl
  | succ count ih =>
    apply Maintains.call
    intro shared ⟨intact, rows⟩
    obtain ⟨heap, stored, still⟩ := intact.store web here
    refine ⟨0, { shared with heap }, perform_store stored, ⟨still, rows⟩, maintains_load web here fun next there loaded => ?_⟩
    rw [arrives_succ loaded]
    exact ih there

end

/-! The rings of `setup_rnd`, one or several in parts of their own. -/

structure Rings {Part : Type} (heap : Heap UInt8) (addr : Part → Nat) (segSize nSegs : Nat) (ring : Part → List Nat) : Prop where
  round : ∀ part, RingAt heap (addr part) segSize (ring part)
  inside : ∀ part, ∀ index ∈ ring part, index < nSegs
  allocated : ∀ part, heap.Allocated (addr part) (nSegs * segSize)
  apart : ∀ first second, first ≠ second →
    addr first + nSegs * segSize ≤ addr second ∨ addr second + nSegs * segSize ≤ addr first

def OnRings {Part : Type} (addr : Part → Nat) (segSize : Nat) (ring : Part → List Nat) (q : Nat) : Prop :=
  ∃ part hops, q = onRing (addr part) segSize (ring part) hops

section
variable {Part : Type} {heap later : Heap UInt8} {addr : Part → Nat} {segSize nSegs : Nat} {ring : Part → List Nat}

theorem Rings.place_le (rings : Rings heap addr segSize nSegs ring) (part : Part) (hops : Nat) :
    addr part ≤ onRing (addr part) segSize (ring part) hops ∧
      onRing (addr part) segSize (ring part) hops + segSize ≤ addr part + nSegs * segSize :=
  place_inside le_rfl (rings.inside part _ ((rings.round part).nodeAt_mem hops))

theorem Rings.web (rings : Rings heap addr segSize nSegs ring) (wide : 16 ≤ segSize) : Web heap (OnRings addr segSize ring) where
  follow := by
    rintro q ⟨part, hops, rfl⟩
    exact ⟨_, ⟨part, hops + 1, rfl⟩, (rings.round part).load hops⟩
  room := by
    rintro q ⟨part, hops, rfl⟩
    have bounds := rings.place_le part hops
    intro offset small
    have cell := rings.allocated part (onRing (addr part) segSize (ring part) hops + 8 - addr part + offset) (by omega)
    rwa [show (addr part : Int) + ((onRing (addr part) segSize (ring part) hops + 8 - addr part + offset : Nat) : Int) =
      ((onRing (addr part) segSize (ring part) hops + 8 : Nat) : Int) + offset by omega] at cell
  apart := by
    rintro q r ⟨first, hops, rfl⟩ ⟨second, others, rfl⟩
    by_cases same : first = second
    · subst same
      unfold onRing place
      by_cases node : nodeAt (ring first) hops = nodeAt (ring first) others
      · rw [node]
        exact Or.inl le_rfl
      · have slots : nodeAt (ring first) hops * segSize + segSize ≤ nodeAt (ring first) others * segSize ∨
            nodeAt (ring first) others * segSize + segSize ≤ nodeAt (ring first) hops * segSize := Heap.slot_apart node
        omega
    · have parts := rings.apart first second same
      have one := rings.place_le first hops
      have other := rings.place_le second others
      omega

theorem Rings.start (rings : Rings heap addr segSize nSegs ring) (part : Part) : OnRings addr segSize ring (addr part) :=
  ⟨part, 0, (onRing_zero (rings.round part)).symm⟩

theorem Rings.intact (rings : Rings heap addr segSize nSegs ring) (wide : 16 ≤ segSize)
    (intact : Intact heap (OnRings addr segSize ring) later) : Rings later addr segSize nSegs ring where
  round := by
    intro part
    have round := rings.round part
    refine ⟨round.nodup, round.start, fun hops => ?_⟩
    rw [intact.chase (rings.web wide) (rings.start part), round.chase]
  inside := rings.inside
  allocated := fun part => intact.allocated _ _ (rings.allocated part)
  apart := rings.apart

end

def MemLat.walkers {team : Nat} (defaultLoop : Nat) (starts : Fin team → Nat) (walks : Fin team → Walk) (shared : Shared) :
    Threads (Fin team) Access Nat Nat Shared where
  remaining := fun idx => walkThread defaultLoop (starts idx) (walks idx)
  state := shared

section
variable {Part : Type} {addr : Part → Nat} {segSize nSegs team : Nat} {ring : Part → List Nat}

theorem walkers_maintain (shared : Shared) (rings : Rings shared.heap addr segSize nSegs ring) (wide : 16 ≤ segSize) (defaultLoop : Nat)
    (walks : Fin team → Walk) (parts : Fin team → Part) :
    AllMaintain Access.perform (Unharmed shared (OnRings addr segSize ring))
      (fun idx => Arrives shared.heap (addr (parts idx)) ((walks idx).hops defaultLoop))
      (MemLat.walkers defaultLoop (fun idx => addr (parts idx)) walks shared) where
  holds := ⟨Intact.start _ _, rfl⟩
  keeps := by
    intro idx
    change Maintains _ _ _ (walkThread defaultLoop (addr (parts idx)) (walks idx))
    cases walks idx with
    | read => exact maintains_readThread (rings.web wide) (rings.start (parts idx)) _
    | fill => exact maintains_fillThread (rings.web wide) (rings.start (parts idx)) _

/-- What is said of threads that walk on rings: the rings stay, only second words of their segments change, each thread that
has ended left the address where its ring has it after its hops, and none is ever stuck. -/
structure Followed (shared : Shared) (addr : Part → Nat) (segSize nSegs : Nat) (ring : Part → List Nat)
    (parts : Fin team → Part) (hops : Fin team → Nat) (now : Threads (Fin team) Access Nat Nat Shared) : Prop where
  rings : Rings now.state.heap addr segSize nSegs ring
  frame : ∀ cell, (∀ part, ∀ index ∈ ring part, Outside cell ↑(place (addr part) segSize index + 8) 8) →
    now.state.heap cell = shared.heap cell
  rows : now.state.debugRet = shared.debugRet
  paddr : ∀ idx value, now.remaining idx = .done value → value = onRing (addr (parts idx)) segSize (ring (parts idx)) (hops idx)
  enabled : ∀ idx, (∃ value, now.remaining idx = .done value) ∨ ∃ next, threadStep Access.perform idx now = some next

theorem followed {shared : Shared} (rings : Rings shared.heap addr segSize nSegs ring) (wide : 16 ≤ segSize) {parts : Fin team → Part}
    {hops : Fin team → Nat} {now : Threads (Fin team) Access Nat Nat Shared}
    (all : AllMaintain Access.perform (Unharmed shared (OnRings addr segSize ring))
      (fun idx => Arrives shared.heap (addr (parts idx)) (hops idx)) now) :
    Followed shared addr segSize nSegs ring parts hops now where
  rings := rings.intact wide all.holds.1
  frame := by
    intro cell outside
    refine all.holds.1.frame cell ?_
    rintro q ⟨part, hops, rfl⟩
    exact outside part _ ((rings.round part).nodeAt_mem hops)
  rows := all.holds.2
  paddr := by
    intro idx value done
    have arrives : Arrives shared.heap (addr (parts idx)) (hops idx) value := all.result done
    rw [Arrives, (rings.round (parts idx)).chase_onRing] at arrives
    exact (Option.some.inj arrives).symm
  enabled := all.enabled

end

theorem setupRnd_rings {aboveRatio : Nat → Nat → Bool} {heap : Heap UInt8} {addr size segSize : Nat} (wide : 16 ≤ segSize)
    (segments : 1 ≤ size / segSize) (fits : addr + size / segSize * segSize ≤ 2 ^ 64)
    (zeroed : heap.Holds addr (List.replicate (size / segSize * segSize) 0)) {draws unread : List UInt64} {setup : Setup}
    {early : Bool} (ran : MemLat.setupRnd aboveRatio heap addr size segSize draws = some (.left setup early unread)) :
    ∃ ring, Rings setup.heap (fun _ : Unit => addr) segSize (size / segSize) fun _ => ring := by
  obtain ⟨ring, links, round, inside, row⟩ := setupRnd_ring (by omega) segments fits zeroed ran
  exact ⟨ring, fun _ => round, fun _ => inside, fun _ => row.allocated, fun _ _ different => absurd rfl different⟩

/-- Any team that reads and fills on the ring of `setup_rnd`, in any interleaving of its accesses, with two words to a
segment. -/
theorem sharedRing_followed (aboveRatio : Nat → Nat → Bool) (heap : Heap UInt8) (addr size segSize : Nat) (wide : 16 ≤ segSize)
    (segments : 1 ≤ size / segSize) (fits : addr + size / segSize * segSize ≤ 2 ^ 64)
    (zeroed : heap.Holds addr (List.replicate (size / segSize * segSize) 0)) (draws unread : List UInt64) (setup : Setup)
    (early : Bool) (ran : MemLat.setupRnd aboveRatio heap addr size segSize draws = some (.left setup early unread))
    (debugRet : Nat → Fin 4 → Nat) (defaultLoop team : Nat) (walks : Fin team → Walk) (schedule : List (Fin team))
    (now : Threads (Fin team) Access Nat Nat Shared)
    (walked : run (threadStep Access.perform) schedule
      (MemLat.walkers defaultLoop (fun _ => addr) walks { heap := setup.heap, debugRet }) = some now) :
    ∃ ring, RingAt setup.heap addr segSize ring ∧
      Followed { heap := setup.heap, debugRet } (fun _ : Unit => addr) segSize (size / segSize) (fun _ => ring) (fun _ => ())
        (fun idx => (walks idx).hops defaultLoop) now ∧
      ∃ rest last, run (threadStep Access.perform) rest now = some last ∧ ∀ idx, ∃ value, last.remaining idx = .done value := by
  obtain ⟨ring, rings⟩ := setupRnd_rings wide segments fits zeroed ran
  have all := (walkers_maintain { heap := setup.heap, debugRet } rings wide defaultLoop walks fun _ => ()).run walked
  obtain ⟨rest, last, finished, _, done⟩ := (allMaintain_lively _ _).all_finish all (List.finRange team)
  exact ⟨ring, rings.round (), followed rings wide all, rest, last, finished, fun idx => done idx (Or.inl (List.mem_finRange idx))⟩

def twoSegments : Heap UInt8 := Heap.splice Heap.empty 64 (List.replicate 32 0)

def oneReader (idx : Fin 3) : Walk := if idx = 0 then .read else .fill

theorem sharedRing_followed_two :
    ∃ setup now, MemLat.setupRnd (fun _ _ => false) twoSegments 64 32 16 [1, 1] = some (.left setup false []) ∧
      (∃ value, now.remaining 1 = .done value) ∧
      ∃ ring, RingAt setup.heap 64 16 ring ∧
        Followed { heap := setup.heap, debugRet := fun _ _ => 0 } (fun _ : Unit => 64) 16 2 (fun _ => ring) (fun _ => ())
          (fun idx => (oneReader idx).hops 1) now ∧
        ∃ rest last, run (threadStep Access.perform) rest now = some last ∧ ∀ idx, ∃ value, last.remaining idx = .done value := by
  obtain ⟨setup, ran⟩ : ∃ setup, MemLat.setupRnd (fun _ _ => false) twoSegments 64 32 16 [1, 1] =
      some (.left setup false []) := ⟨_, rfl⟩
  obtain ⟨ring, rings⟩ := setupRnd_rings (by decide) (by decide) (by decide) Heap.holds_splice_self ran
  have all := walkers_maintain { heap := setup.heap, debugRet := fun _ _ => 0 } rings (by decide) 1 oneReader fun _ => ()
  obtain ⟨schedule, now, value, walked, done, _⟩ := (allMaintain_lively _ _).finishes all 1
  exact ⟨setup, now, ran, ⟨value, done⟩, sharedRing_followed (fun _ _ => false) twoSegments 64 32 16 (by decide) (by decide)
    (by decide) Heap.holds_splice_self [1, 1] [] setup false ran (fun _ _ => 0) 1 3 oneReader schedule now walked⟩

end Mbench.LatencyRing
