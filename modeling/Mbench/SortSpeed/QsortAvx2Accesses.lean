import Mbench.Library.Recording
import Mbench.SortSpeed.MyQsort

/-! The accesses of `qsort_AVX2` to memory, each with the register that it goes through. The routine is run once more
with a log of them, and every store is within what is its own: `bottom` writes only what has been loaded, and `top` only
the elements before the pivot could fill. -/

namespace Mbench.SortSpeed
open Library

inductive Access
  /-- A load or a store of the median of three. -/
  | loadSample (address : Int)
  | storeSample (address : Int)
  /-- A load of the partition, through `array` or of the pivot. -/
  | loadArray (address : Int) (count : Nat)
  | storeBottom (address : Int) (count : Nat)
  | storeTop (address : Int) (count : Nat)
  /-- A load of the copy back, through `temp_space`. -/
  | loadTemp (address : Int) (count : Nat)

def recordStore (access : Int → Access) (store : Heap Word × Int → List Word → Option (Heap Word × Int)) :
    (Heap Word × Int) × List Access → List Word → Option ((Heap Word × Int) × List Access)
  | (state, log), lanes => do
      let next ← store state lanes
      some (next, log ++ [access state.2])

def vectorBlockRecorded (unroll : Nat) (pivot : Word) : Regs × List Access → Option (Regs × List Access)
  | (regs, log) => do
      let loaded ← (List.range unroll).mapM fun i : Nat => regs.heap.read (regs.array + (8 * i : Nat)) 8
      let log := log ++ (List.range unroll).map fun i : Nat => Access.loadArray (regs.array + (8 * i : Nat)) 8
      let ((heap, bottom), log) ← loaded.foldlM (recordStore (fun address => .storeBottom address 8) (storeBottom pivot))
        ((regs.heap, regs.bottom), log)
      let ((heap, top), log) ← loaded.foldlM (recordStore (fun address => .storeTop address 8) (storeTop pivot))
        ((heap, regs.top), log)
      some ({ heap, bottom, top, n := regs.n - 8 * unroll, array := regs.array + (8 * unroll : Nat) }, log)

def vectorLoopRecorded (unroll : Nat) (pivot : Word) (state : Regs × List Access) : Option (Regs × List Access) :=
  whileLoop (fun state => some (8 * unroll ≤ state.1.n)) (vectorBlockRecorded unroll pivot) (state.1.n + 1) state

def scalarStepRecorded (pivot : Word) : Regs × List Access → Option (Regs × List Access)
  | (regs, log) => do
      let element ← regs.heap.load regs.array
      let log := log ++ [.loadArray regs.array 1]
      if pivot.slt element then
        let heap ← regs.heap.store regs.top element
        some ({ regs with heap, top := regs.top + 1, array := regs.array + 1, n := regs.n - 1 },
          log ++ [.storeTop regs.top 1])
      else
        let heap ← regs.heap.store regs.bottom element
        some ({ regs with heap, bottom := regs.bottom + 1, array := regs.array + 1, n := regs.n - 1 },
          log ++ [.storeBottom regs.bottom 1])

def lsLoopRecorded (pivot : Word) (state : Regs × List Access) : Option (Regs × List Access) :=
  whileLoop (fun state => some (state.1.n ≠ 0)) (scalarStepRecorded pivot) (state.1.n + 1) state

def partitionLoopsRecorded (pivot : Word) (state : Regs × List Access) : Option (Regs × List Access) := do
  let state ← vectorLoopRecorded 7 pivot state
  let state ← vectorLoopRecorded 3 pivot state
  let state ← vectorLoopRecorded 1 pivot state
  lsLoopRecorded pivot state

def copyBlockRecorded (width : Nat) : CopyRegs × List Access → Option (CopyRegs × List Access)
  | (regs, log) => do
      let values ← regs.heap.read regs.tempSpace width
      let log := log ++ [.loadTemp regs.tempSpace width]
      let heap ← regs.heap.write regs.bottom values
      some ({ heap, tempSpace := regs.tempSpace + width, bottom := regs.bottom + width, top := regs.top - width },
        log ++ [.storeBottom regs.bottom width])

def copyLoopRecorded (width : Nat) (state : CopyRegs × List Access) : Option (CopyRegs × List Access) :=
  whileLoop (fun state => some (width ≤ state.1.top)) (copyBlockRecorded width) (state.1.top + 1) state

def copyBackRecorded (state : CopyRegs × List Access) : Option (CopyRegs × List Access) := do
  let state ← copyLoopRecorded 32 state
  let state ← copyLoopRecorded 8 state
  whileLoop (fun state => some (state.1.top ≠ 0))
    (fun state => do
      let state ← copyBlockRecorded 1 state
      copyLoopRecorded 8 state)
    (state.1.top + 1) state

def medianAccesses (array : Int) (n : Nat) : List Access :=
  [.loadSample array, .loadSample (array + (n / 2 : Nat)), .loadSample (array + n - 1), .storeSample array,
    .storeSample (array + (n / 2 : Nat)), .storeSample (array + n - 1)]

/-- What `qsort_AVX2` leaves, its registers after the copy back, and its accesses. -/
structure Recording where
  heap : Heap Word
  count : Nat
  copied : CopyRegs
  log : List Access

def qsortAVX2Recorded (heap : Heap Word) (array tempSpace : Int) (n : Nat) : Option Recording := do
  let heap ← medianOfThree heap array n
  let pivot ← heap.load (array + n - 1)
  let (regs, log) ← partitionLoopsRecorded pivot ({ heap, array, bottom := array, top := tempSpace, n := n - 1 },
    medianAccesses array n ++ [.loadArray (array + n - 1) 1])
  let heap ← regs.heap.store regs.bottom pivot
  let count := (regs.top - tempSpace).toNat
  let (copied, log) ← copyBackRecorded ({ heap, tempSpace, bottom := regs.bottom + 1, top := count },
    log ++ [.storeBottom regs.bottom 1])
  some { heap := copied.heap, count, copied, log }

/-! Without the log these are the same programs. -/

theorem recordStore_erases (access : Int → Access) (store : Heap Word × Int → List Word → Option (Heap Word × Int))
    (lanes : List Word) : Erases (recordStore access store · lanes) (store · lanes) := by
  intro state log
  simp only [recordStore]
  cases store state lanes <;> rfl

theorem vectorBlock_erases (unroll : Nat) (pivot : Word) :
    Erases (vectorBlockRecorded unroll pivot) (vectorBlock unroll pivot) := by
  intro regs log
  rw [vectorBlockRecorded, vectorBlock]
  cases (List.range unroll).mapM fun i : Nat => regs.heap.read (regs.array + (8 * i : Nat)) 8 with
  | none => rfl
  | some loaded =>
    simp only [Option.bind_eq_bind, Option.bind_some]
    have bottoms (state : Heap Word × Int) (log : List Access) :
        (loaded.foldlM (recordStore (fun address => .storeBottom address 8) (storeBottom pivot)) (state, log)).map Prod.fst =
          loaded.foldlM (storeBottom pivot) state :=
      erases_foldlM (recordStore_erases _ (storeBottom pivot)) loaded state log
    have tops (state : Heap Word × Int) (log : List Access) :
        (loaded.foldlM (recordStore (fun address => .storeTop address 8) (storeTop pivot)) (state, log)).map Prod.fst =
          loaded.foldlM (storeTop pivot) state :=
      erases_foldlM (recordStore_erases _ (storeTop pivot)) loaded state log
    rw [← bottoms (regs.heap, regs.bottom)
      (log ++ (List.range unroll).map fun i : Nat => .loadArray (regs.array + (8 * i : Nat)) 8)]
    cases loaded.foldlM (recordStore (fun address => .storeBottom address 8) (storeBottom pivot)) _ with
    | none => rfl
    | some middle =>
      obtain ⟨⟨heap, bottom⟩, log⟩ := middle
      simp only [Option.bind_some, Option.map_some]
      rw [← tops (heap, regs.top) log]
      cases loaded.foldlM (recordStore (fun address => .storeTop address 8) (storeTop pivot)) ((heap, regs.top), log) <;> rfl

theorem scalarStep_erases (pivot : Word) : Erases (scalarStepRecorded pivot) (scalarStep pivot) := by
  intro regs log
  rw [scalarStepRecorded, scalarStep]
  cases regs.heap.load regs.array with
  | none => rfl
  | some element =>
    simp only [Option.bind_eq_bind, Option.bind_some]
    by_cases greater : pivot.slt element
    · rw [if_pos greater, if_pos greater]
      cases regs.heap.store regs.top element <;> rfl
    · rw [if_neg greater, if_neg greater]
      cases regs.heap.store regs.bottom element <;> rfl

theorem vectorLoop_erases (unroll : Nat) (pivot : Word) :
    Erases (vectorLoopRecorded unroll pivot) (vectorLoop unroll pivot) := fun regs log =>
  (vectorBlock_erases unroll pivot).whileLoop (fun regs => some (8 * unroll ≤ regs.n)) (regs.n + 1) regs log

theorem lsLoop_erases (pivot : Word) : Erases (lsLoopRecorded pivot) (lsLoop pivot) := fun regs log =>
  (scalarStep_erases pivot).whileLoop (fun regs => some (regs.n ≠ 0)) (regs.n + 1) regs log

theorem partitionLoops_erases (pivot : Word) : Erases (partitionLoopsRecorded pivot) (partitionLoops pivot) :=
  (vectorLoop_erases 7 pivot).bind ((vectorLoop_erases 3 pivot).bind ((vectorLoop_erases 1 pivot).bind (lsLoop_erases pivot)))

theorem copyBlock_erases (width : Nat) : Erases (copyBlockRecorded width) (copyBlock width) := by
  intro regs log
  rw [copyBlockRecorded, copyBlock]
  cases regs.heap.read regs.tempSpace width with
  | none => rfl
  | some values =>
    simp only [Option.bind_eq_bind, Option.bind_some]
    cases regs.heap.write regs.bottom values <;> rfl

theorem copyLoop_erases (width : Nat) : Erases (copyLoopRecorded width) (copyLoop width) := fun regs log =>
  (copyBlock_erases width).whileLoop (fun regs => some (width ≤ regs.top)) (regs.top + 1) regs log

theorem copyBack_erases : Erases copyBackRecorded copyBack :=
  (copyLoop_erases 32).bind ((copyLoop_erases 8).bind fun regs log =>
    ((copyBlock_erases 1).bind (copyLoop_erases 8)).whileLoop (fun regs => some (regs.top ≠ 0)) (regs.top + 1) regs log)

theorem qsortAVX2_erases (heap : Heap Word) (array tempSpace : Int) (n : Nat) :
    (qsortAVX2Recorded heap array tempSpace n).map (fun recording => (recording.heap, recording.count)) =
      qsortAVX2 heap array tempSpace n := by
  rw [qsortAVX2Recorded, qsortAVX2]
  cases medianOfThree heap array n with
  | none => rfl
  | some heap =>
    simp only [Option.bind_eq_bind, Option.bind_some]
    cases heap.load (array + n - 1) with
    | none => rfl
    | some pivot =>
      simp only [Option.bind_some]
      rw [← partitionLoops_erases pivot _ (medianAccesses array n ++ [.loadArray (array + n - 1) 1])]
      cases partitionLoopsRecorded pivot _ with
      | none => rfl
      | some partitioned =>
        obtain ⟨regs, log⟩ := partitioned
        simp only [Option.bind_some, Option.map_some]
        cases regs.heap.store regs.bottom pivot with
        | none => rfl
        | some heap =>
          simp only [Option.bind_some]
          rw [← copyBack_erases _ (log ++ [.storeBottom regs.bottom 1])]
          cases copyBackRecorded _ <;> rfl

/-! Which accesses are allowed. -/

def Loaded (log : List Access) (cell : Int) : Prop :=
  ∃ address count, Access.loadArray address count ∈ log ∧ address ≤ cell ∧ cell < address + (count : Nat)

/-- Every access is inside its buffer. Through `bottom` only words that the partition has loaded are written, and the copy
back loads only words of the right part. -/
def Access.Allowed (array temp : Int) (n right : Nat) (log : List Access) : Access → Prop
  | .loadSample address => array ≤ address ∧ address < array + n
  | .storeSample address => array ≤ address ∧ address < array + n
  | .loadArray address count => array ≤ address ∧ address + count ≤ array + n
  | .storeBottom address count => array ≤ address ∧ address + count ≤ array + n ∧
      ∀ cell, address ≤ cell → cell < address + count → Loaded log cell
  | .storeTop address count => temp ≤ address ∧ address + count ≤ temp + (n - 1 : Nat)
  | .loadTemp address count => temp ≤ address ∧ address + count ≤ temp + right

theorem Loaded.mono {log : List Access} {cell : Int} (loaded : Loaded log cell) (more : List Access) :
    Loaded (log ++ more) cell := by
  obtain ⟨address, count, member, inside⟩ := loaded
  exact ⟨address, count, List.mem_append_left _ member, inside⟩

theorem loaded_concat (log : List Access) {address cell : Int} {count : Nat} (from_ : address ≤ cell)
    (upto : cell < address + count) : Loaded (log ++ [.loadArray address count]) cell :=
  ⟨address, count, List.mem_append_right _ (List.mem_singleton.mpr rfl), from_, upto⟩

theorem allowed_persistent (array temp : Int) (n right : Nat) : Persistent (Access.Allowed array temp n right) := by
  intro log more access fits
  cases access with
  | storeBottom address count =>
    obtain ⟨from_, upto, loaded⟩ := fits
    exact ⟨from_, upto, fun cell first last => (loaded cell first last).mono more⟩
  | _ => exact fits

theorem recordStore_entries {keep : Word → Bool} {table : List (List Nat)} {advance : Nat → Int} {pivot : Word}
    (compresses : Compresses keep table advance pivot) (access : Int → Access) (blocks : List (List Word))
    (full : ∀ lanes ∈ blocks, lanes.length = 8) {state final : Heap Word × Int} {log later : List Access}
    (ran : blocks.foldlM (recordStore access (storePermuted table advance pivot)) (state, log) = some (final, later)) :
    ∃ stores, later = log ++ stores ∧ ∀ entry ∈ stores, ∃ address, entry = access address ∧ state.2 ≤ address ∧
      address + 8 ≤ state.2 + (8 * blocks.length : Nat) := by
  induction blocks generalizing state log with
  | nil =>
    cases ran
    exact ⟨[], (List.append_nil _).symm, fun entry member => absurd member List.not_mem_nil⟩
  | cons lanes blocks ih =>
    rw [List.foldlM_cons] at ran
    obtain ⟨⟨middle, between⟩, stored, rest⟩ := Option.bind_eq_some_iff.mp ran
    obtain ⟨next, moved, same⟩ := Option.bind_eq_some_iff.mp stored
    cases same
    obtain ⟨heap, _, same⟩ := Option.bind_eq_some_iff.mp moved
    cases same
    obtain ⟨extra, _, wide, advanced⟩ := compresses lanes (full lanes (by simp))
    rw [List.length_append] at wide
    obtain ⟨stores, rfl, bounds⟩ := ih (fun other member => full other (List.mem_cons_of_mem _ member)) rest
    refine ⟨access state.2 :: stores, by rw [List.append_assoc]; rfl, fun entry member => ?_⟩
    rw [List.length_cons]
    rcases List.mem_cons.mp member with rfl | later
    · exact ⟨state.2, rfl, le_rfl, by omega⟩
    · obtain ⟨address, same, from_, upto⟩ := bounds entry later
      rw [advanced] at from_ upto
      exact ⟨address, same, by omega, by omega⟩

/-- The log of a partition that has read `done` elements, and the pivot before that. -/
structure Watched (array temp : Int) (n right done : Nat) (log : List Access) : Prop where
  sound : Sound (Access.Allowed array temp n right) log
  loaded : ∀ index < done, Loaded log (array + (index : Nat))
  pivot : Loaded log (array + n - 1)

section
variable {array temp : Int} {n right done : Nat} {log : List Access}

theorem Watched.append (watched : Watched array temp n right done log) {entries : List Access}
    (fits : ∀ entry ∈ entries, entry.Allowed array temp n right log) : Watched array temp n right done (log ++ entries) :=
  ⟨watched.sound.append (allowed_persistent array temp n right) fits,
    fun index early => (watched.loaded index early).mono entries, watched.pivot.mono entries⟩

theorem Watched.load (watched : Watched array temp n right done log) {entries : List Access} (count : Nat)
    (fits : ∀ entry ∈ entries, entry.Allowed array temp n right log)
    (covers : ∀ index, done ≤ index → index < done + count → Loaded (log ++ entries) (array + (index : Nat))) :
    Watched array temp n right (done + count) (log ++ entries) := by
  have kept := watched.append fits
  refine ⟨kept.sound, fun index early => ?_, kept.pivot⟩
  by_cases before : index < done
  · exact kept.loaded index before
  · exact covers index (by omega) early

theorem Watched.bottom (watched : Watched array temp n right done log) {address : Int} {count : Nat} (within : done ≤ n)
    (from_ : array ≤ address) (upto : address + count ≤ array + done) :
    (Access.storeBottom address count).Allowed array temp n right log := by
  refine ⟨from_, by omega, fun cell first last => ?_⟩
  have loaded := watched.loaded (cell - array).toNat (by omega)
  rwa [show array + ((cell - array).toNat : Int) = cell by omega] at loaded

end

def Underway (initial : Heap Word) (array temp : Int) (values : List Word) (pivot : Word) (count : Nat)
    (state : Regs × List Access) : Prop :=
  ∃ left right done, Progress initial array temp values pivot state.1 left right done ∧
    Watched array temp (values.length + 1) count done state.2

section
variable {initial : Heap Word} {array temp : Int} {values : List Word} {pivot : Word} {count : Nat}
  {state : Regs × List Access}

/-- A turn of a vector loop: all its loads come first, and its stores through `bottom` stay behind what they load. -/
theorem vectorBlockRecorded_spec {unroll : Nat}
    (apart : array + (values.length + 1) ≤ temp ∨ temp + values.length ≤ array)
    (underway : Underway initial array temp values pivot count state) (enough : 8 * unroll ≤ state.1.n) :
    ∃ next, vectorBlockRecorded unroll pivot state = some next ∧ next.1.n = state.1.n - 8 * unroll ∧
      Underway initial array temp values pivot count next := by
  obtain ⟨regs, log⟩ := state
  obtain ⟨left, right, done, progress, watched⟩ := underway
  simp only at progress watched enough
  have remaining := progress.remaining
  have split := progress.split
  obtain ⟨next, block, shorter, advanced⟩ := vectorBlock_spec apart progress enough
  obtain ⟨later, ran⟩ := (vectorBlock_erases unroll pivot).returns block log
  refine ⟨(next, later), ran, shorter, _, _, _, advanced, ?_⟩
  have full := vectors_full (values.drop done) unroll (by rw [List.length_drop]; omega)
  have wide := vectors_length (values.drop done) unroll
  rw [vectorBlockRecorded, progress.loads enough] at ran
  simp only [Option.bind_eq_bind, Option.bind_some] at ran
  obtain ⟨⟨⟨heap, bottom⟩, between⟩, bottoms, ran⟩ := Option.bind_eq_some_iff.mp ran
  obtain ⟨⟨⟨heap', top⟩, last⟩, tops, same⟩ := Option.bind_eq_some_iff.mp ran
  cases same
  obtain ⟨lower, rfl, lowerBounds⟩ := recordStore_entries (storeBottom_compresses pivot) _ _ full bottoms
  obtain ⟨upper, rfl, upperBounds⟩ := recordStore_entries (storeTop_compresses pivot) _ _ full tops
  simp only [wide, progress.bottom, progress.top] at lowerBounds upperBounds
  have loads : Watched array temp (values.length + 1) count (done + 8 * unroll)
      (log ++ (List.range unroll).map fun i : Nat => .loadArray (regs.array + (8 * i : Nat)) 8) := by
    apply watched.load (8 * unroll)
    · intro entry member
      obtain ⟨turn, inside, rfl⟩ := List.mem_map.mp member
      have early := List.mem_range.mp inside
      have reads := progress.reads
      simp only [Access.Allowed]
      omega
    · intro index from_ upto
      refine ⟨regs.array + (8 * ((index - done) / 8) : Nat), 8, List.mem_append_right _ (List.mem_map.mpr
        ⟨(index - done) / 8, List.mem_range.mpr (by omega), rfl⟩), ?_⟩
      have reads := progress.reads
      omega
  have written := loads.append fun entry member => by
    obtain ⟨address, rfl, from_, upto⟩ := lowerBounds entry member
    exact loads.bottom (by omega) (by omega) (by omega)
  exact written.append fun entry member => by
    obtain ⟨address, rfl, from_, upto⟩ := upperBounds entry member
    simp only [Access.Allowed]
    omega

theorem vectorLoopRecorded_spec (unroll : Nat) (positive : 0 < unroll)
    (apart : array + (values.length + 1) ≤ temp ∨ temp + values.length ≤ array)
    (underway : Underway initial array temp values pivot count state) :
    ∃ next, vectorLoopRecorded unroll pivot state = some next ∧ Underway initial array temp values pivot count next := by
  obtain ⟨next, ran, kept, _⟩ := whileLoop_rule (fun state : Regs × List Access => some (8 * unroll ≤ state.1.n))
    (vectorBlockRecorded unroll pivot) (Underway initial array temp values pivot count) (fun state => state.1.n)
    (by
      intro state underway
      by_cases enough : 8 * unroll ≤ state.1.n
      · right
        obtain ⟨next, block, shorter, advanced⟩ := vectorBlockRecorded_spec apart underway enough
        exact ⟨by simp [enough], next, block, advanced, by omega⟩
      · left
        simp [enough])
    state underway (state.1.n + 1) (Nat.lt_succ_self _)
  exact ⟨next, ran, kept⟩

theorem scalarStepRecorded_spec (apart : array + (values.length + 1) ≤ temp ∨ temp + values.length ≤ array)
    (underway : Underway initial array temp values pivot count state) (more : state.1.n ≠ 0) :
    ∃ next, scalarStepRecorded pivot state = some next ∧ next.1.n = state.1.n - 1 ∧
      Underway initial array temp values pivot count next := by
  obtain ⟨regs, log⟩ := state
  obtain ⟨left, right, done, progress, watched⟩ := underway
  simp only at progress watched more
  have remaining := progress.remaining
  have split := progress.split
  have inside : done < values.length := by omega
  obtain ⟨next, step, shorter, advanced⟩ := scalarStep_spec apart progress more inside
  obtain ⟨later, ran⟩ := (scalarStep_erases pivot).returns step log
  refine ⟨(next, later), ran, shorter, _, _, _, advanced, ?_⟩
  have loaded : Watched array temp (values.length + 1) count (done + 1) (log ++ [.loadArray regs.array 1]) := by
    have reads := progress.reads
    apply watched.load 1
    · intro entry member
      rw [List.mem_singleton.mp member]
      simp only [Access.Allowed]
      omega
    · intro index from_ upto
      exact loaded_concat log (by omega) (by omega)
  rw [scalarStepRecorded, progress.next_load inside] at ran
  simp only [Option.bind_eq_bind, Option.bind_some] at ran
  split at ran
  · obtain ⟨heap, _, same⟩ := Option.bind_eq_some_iff.mp ran
    cases same
    refine loaded.append fun entry member => ?_
    have top := progress.top
    rw [List.mem_singleton.mp member]
    simp only [Access.Allowed]
    omega
  · obtain ⟨heap, _, same⟩ := Option.bind_eq_some_iff.mp ran
    cases same
    refine loaded.append fun entry member => ?_
    have bottom := progress.bottom
    rw [List.mem_singleton.mp member]
    exact loaded.bottom (by omega) (by omega) (by omega)

theorem lsLoopRecorded_spec (apart : array + (values.length + 1) ≤ temp ∨ temp + values.length ≤ array)
    (underway : Underway initial array temp values pivot count state) :
    ∃ next, lsLoopRecorded pivot state = some next ∧ next.1.n = 0 ∧ Underway initial array temp values pivot count next := by
  obtain ⟨next, ran, kept, stop⟩ := whileLoop_rule (fun state : Regs × List Access => some (state.1.n ≠ 0))
    (scalarStepRecorded pivot) (Underway initial array temp values pivot count) (fun state => state.1.n)
    (by
      intro state underway
      by_cases more : state.1.n ≠ 0
      · right
        obtain ⟨next, step, shorter, advanced⟩ := scalarStepRecorded_spec apart underway more
        exact ⟨by simp [more], next, step, advanced, by omega⟩
      · left
        simpa using more)
    state underway (state.1.n + 1) (Nat.lt_succ_self _)
  exact ⟨next, ran, by simpa using stop, kept⟩

theorem partitionLoopsRecorded_spec (apart : array + (values.length + 1) ≤ temp ∨ temp + values.length ≤ array)
    (underway : Underway initial array temp values pivot count state) :
    ∃ next, partitionLoopsRecorded pivot state = some next ∧ next.1.n = 0 ∧
      Underway initial array temp values pivot count next := by
  obtain ⟨regs7, run7, underway7⟩ := vectorLoopRecorded_spec 7 (by decide) apart underway
  obtain ⟨regs3, run3, underway3⟩ := vectorLoopRecorded_spec 3 (by decide) apart underway7
  obtain ⟨regs1, run1, underway1⟩ := vectorLoopRecorded_spec 1 (by decide) apart underway3
  obtain ⟨regs, run, finished, reached⟩ := lsLoopRecorded_spec apart underway1
  refine ⟨regs, ?_, finished, reached⟩
  simp only [partitionLoopsRecorded, run7, run3, run1, Option.bind_eq_bind, Option.bind_some, run]

end

/-- The copy back with its log: `dest` is where the right part goes, up to the end of the array. -/
def UnderwayBack (initial : Heap Word) (array temp dest : Int) (n : Nat) (right : List Word)
    (state : CopyRegs × List Access) : Prop :=
  ∃ copied, Copying initial temp dest right state.1 copied ∧ Watched array temp n right.length (n - 1) state.2

section
variable {initial : Heap Word} {array temp dest : Int} {n : Nat} {right : List Word} {state : CopyRegs × List Access}

theorem Watched.all_loaded {log : List Access} {count : Nat} (watched : Watched array temp n count (n - 1) log) {cell : Int}
    (from_ : array ≤ cell) (upto : cell < array + n) : Loaded log cell := by
  by_cases last : cell = array + n - 1
  · rw [last]
    exact watched.pivot
  · have loaded := watched.loaded (cell - array).toNat (by omega)
    rwa [show array + ((cell - array).toNat : Int) = cell by omega] at loaded

theorem copyBlockRecorded_spec (width : Nat) (apart : dest + right.length ≤ temp ∨ temp + right.length ≤ dest)
    (inside : array ≤ dest) (ends : dest + right.length = array + n)
    (underway : UnderwayBack initial array temp dest n right state) (enough : width ≤ state.1.top) :
    ∃ next, copyBlockRecorded width state = some next ∧ next.1.top = state.1.top - width ∧
      UnderwayBack initial array temp dest n right next := by
  obtain ⟨regs, log⟩ := state
  obtain ⟨copied, copying, watched⟩ := underway
  simp only at copying watched enough
  have remaining := copying.remaining
  obtain ⟨next, block, shorter, advanced⟩ := copyBlock_spec width apart copying enough
  obtain ⟨later, ran⟩ := (copyBlock_erases width).returns block log
  refine ⟨(next, later), ran, shorter, _, advanced, ?_⟩
  rw [copyBlockRecorded] at ran
  obtain ⟨values, _, ran⟩ := Option.bind_eq_some_iff.mp ran
  obtain ⟨heap, _, same⟩ := Option.bind_eq_some_iff.mp ran
  cases same
  have loaded : Watched array temp n right.length (n - 1) (log ++ [.loadTemp regs.tempSpace width]) := by
    refine watched.append fun entry member => ?_
    have source := copying.source
    rw [List.mem_singleton.mp member]
    simp only [Access.Allowed]
    omega
  refine loaded.append fun entry member => ?_
  have target := copying.target
  rw [List.mem_singleton.mp member]
  exact ⟨by omega, by omega, fun cell from_ upto => loaded.all_loaded (by omega) (by omega)⟩

theorem copyLoopRecorded_spec (width : Nat) (positive : 0 < width)
    (apart : dest + right.length ≤ temp ∨ temp + right.length ≤ dest) (inside : array ≤ dest)
    (ends : dest + right.length = array + n) (underway : UnderwayBack initial array temp dest n right state) :
    ∃ next, copyLoopRecorded width state = some next ∧ next.1.top ≤ state.1.top ∧
      UnderwayBack initial array temp dest n right next := by
  obtain ⟨next, ran, ⟨kept, fewer⟩, _⟩ := whileLoop_rule (fun state : CopyRegs × List Access => some (width ≤ state.1.top))
    (copyBlockRecorded width)
    (fun later => UnderwayBack initial array temp dest n right later ∧ later.1.top ≤ state.1.top) (fun state => state.1.top)
    (by
      intro later ⟨underway, fewer⟩
      by_cases enough : width ≤ later.1.top
      · right
        obtain ⟨next, block, shorter, advanced⟩ := copyBlockRecorded_spec width apart inside ends underway enough
        exact ⟨by simp [enough], next, block, ⟨advanced, by omega⟩, by omega⟩
      · left
        simp [enough])
    state ⟨underway, le_rfl⟩ (state.1.top + 1) (Nat.lt_succ_self _)
  exact ⟨next, ran, fewer, kept⟩

theorem copyBackRecorded_spec (apart : dest + right.length ≤ temp ∨ temp + right.length ≤ dest) (inside : array ≤ dest)
    (ends : dest + right.length = array + n) (underway : UnderwayBack initial array temp dest n right state) :
    ∃ next, copyBackRecorded state = some next ∧ next.1.top = 0 ∧ UnderwayBack initial array temp dest n right next := by
  obtain ⟨wide, wideRun, _, wideUnderway⟩ := copyLoopRecorded_spec 32 (by decide) apart inside ends underway
  obtain ⟨single, singleRun, _, singleUnderway⟩ := copyLoopRecorded_spec 8 (by decide) apart inside ends wideUnderway
  obtain ⟨final, run, kept, stop⟩ := whileLoop_rule (fun state : CopyRegs × List Access => some (state.1.top ≠ 0))
    (fun state => do
      let state ← copyBlockRecorded 1 state
      copyLoopRecorded 8 state)
    (UnderwayBack initial array temp dest n right) (fun state => state.1.top)
    (by
      intro state underway
      by_cases more : state.1.top ≠ 0
      · right
        obtain ⟨middle, block, shorter, advanced⟩ := copyBlockRecorded_spec 1 apart inside ends underway (by omega)
        obtain ⟨next, loop, fewer, looped⟩ := copyLoopRecorded_spec 8 (by decide) apart inside ends advanced
        exact ⟨by simp [more], next, by simp [block, loop], looped, by omega⟩
      · left
        simpa using more)
    single singleUnderway (single.1.top + 1) (Nat.lt_succ_self _)
  refine ⟨final, ?_, by simpa using stop, kept⟩
  simp only [copyBackRecorded, wideRun, singleRun, Option.bind_eq_bind, Option.bind_some]
  exact run

end

/-! The whole routine. -/

theorem medianAccesses_allowed (array temp : Int) (n right : Nat) (positive : 0 < n) :
    ∀ entry ∈ medianAccesses array n, entry.Allowed array temp n right [] := by
  intro entry member
  simp only [medianAccesses, List.mem_cons, List.not_mem_nil, or_false] at member
  rcases member with rfl | rfl | rfl | rfl | rfl | rfl <;> simp only [Access.Allowed] <;> omega

theorem watched_start (array temp : Int) (n right : Nat) (positive : 0 < n) :
    Watched array temp n right 0 (medianAccesses array n ++ [.loadArray (array + n - 1) 1]) := by
  refine ⟨(sound_nil.append (allowed_persistent array temp n right) (medianAccesses_allowed array temp n right positive)).append
    (allowed_persistent array temp n right) fun entry member => ?_, fun index early => absurd early (Nat.not_lt_zero index),
    loaded_concat _ le_rfl (by omega)⟩
  rw [List.mem_singleton.mp member]
  simp only [Access.Allowed]
  omega

theorem qsortAVX2Recorded_spec {heap : Heap Word} {array temp : Int} {values : List Word} (large : 3 ≤ values.length)
    (apart : array + values.length ≤ temp ∨ temp + (values.length - 1 : Nat) ≤ array)
    (held : heap.Holds array values) (allocated : heap.Allocated temp (values.length - 1)) :
    ∃ recording pivot front, medianRewrite values = front ++ [pivot] ∧
      qsortAVX2Recorded heap array temp values.length = some recording ∧
      Sound (Access.Allowed array temp values.length (rightPart pivot front).length) recording.log ∧
      recording.copied.bottom = array + values.length ∧
      recording.copied.tempSpace = temp + (rightPart pivot front).length := by
  obtain ⟨median, front, pivot, regs, placed, placing⟩ := qsortAVX2_placing large apart held allocated
  have size := placing.size
  have split' := placing.progress.split
  have total : values.length = front.length + 1 := by omega
  have begin_ : Underway median array temp front pivot (rightPart pivot front).length
      ({ heap := median, array, bottom := array, top := temp, n := values.length - 1 },
        medianAccesses array values.length ++ [.loadArray (array + values.length - 1) 1]) :=
    ⟨[], [], 0, placing.start, total ▸ watched_start array temp values.length _ (by omega)⟩
  obtain ⟨next, partition, finished, left, right, done, progress, watched⟩ := partitionLoopsRecorded_spec (by omega) begin_
  -- both runs of the partition end in the same registers
  obtain ⟨log, sameRun⟩ := (partitionLoops_erases pivot).returns placing.partitioned
    (medianAccesses array values.length ++ [.loadArray (array + values.length - 1) 1])
  rw [sameRun, Option.some.injEq] at partition
  subst partition
  have remaining := progress.remaining
  simp only at finished remaining watched
  rw [finished, Nat.add_zero] at remaining
  rw [remaining, ← total] at watched
  have bottom := placing.progress.bottom
  have pivotStored : Watched array temp values.length (rightPart pivot front).length (values.length - 1)
      (log ++ [.storeBottom regs.bottom 1]) := by
    rw [size]
    refine watched.append fun entry member => ?_
    rw [List.mem_singleton.mp member]
    rw [← size] at watched
    exact ⟨by omega, by omega, fun cell from_ upto => watched.all_loaded (by omega) (by omega)⟩
  have beginBack : UnderwayBack placed array temp (array + ((leftPart pivot front).length + 1 : Nat)) values.length
      (rightPart pivot front)
      ({ heap := placed, tempSpace := temp, bottom := regs.bottom + 1, top := (rightPart pivot front).length },
        log ++ [.storeBottom regs.bottom 1]) := ⟨0, placing.copying, pivotStored⟩
  obtain ⟨⟨copied, last⟩, copyRun, stopped, reached, copying, sound⟩ :=
    copyBackRecorded_spec (by omega) (by omega) (by omega) beginBack
  have counted := copying.remaining
  simp only at stopped copying counted
  refine ⟨⟨copied.heap, (rightPart pivot front).length, copied, last⟩, pivot, front, placing.rewritten, ?_, sound.sound, ?_, ?_⟩
  · simp only [qsortAVX2Recorded, placing.sampled, placing.loaded, Option.bind_eq_bind, Option.bind_some, sameRun,
      placing.stored, placing.count, copyRun]
  · rw [copying.target]
    omega
  · rw [copying.source]
    omega

/-- Of `qsort_AVX2` on at least three elements, every store through `bottom` is on elements of the array that are loaded,
no store is beyond the array or its buffer of one element less, and the copy back loads what is to the right of the pivot and
ends with the array, so such a buffer serves a whole sort. -/
theorem qsortAVX2_accesses (heap : Heap Word) (array temp : Int) (values : List Word) (large : 3 ≤ values.length)
    (apart : array + values.length ≤ temp ∨ temp + (values.length - 1 : Nat) ≤ array)
    (held : heap.Holds array values) (allocated : heap.Allocated temp (values.length - 1)) :
    ∃ recording left pivot right,
      qsortAVX2Recorded heap array temp values.length = some recording ∧
      qsortAVX2 heap array temp values.length = some (recording.heap, right.length) ∧
      recording.heap.Holds array (left ++ [pivot] ++ right) ∧ recording.heap.Holds temp right ∧
      (∀ element ∈ right, pivot.sle element) ∧
      Sound (Access.Allowed array temp values.length right.length) recording.log ∧
      recording.copied.bottom = array + values.length ∧ recording.copied.tempSpace = temp + right.length ∧
      (values.length < 2 ^ 31 → ∀ fuel, values.length < fuel →
        (myQsortAVX2 fuel heap array temp values.length).isSome) := by
  obtain ⟨recording, pivot, front, rewritten, recorded, sound, bottom, tempSpace⟩ :=
    qsortAVX2Recorded_spec large apart held allocated
  obtain ⟨final, pivot', front', rewritten', ran, sorted, waiting, _, _⟩ := qsortAVX2_spec large apart held allocated
  obtain ⟨rfl, same⟩ := List.append_inj' (rewritten.symm.trans rewritten') rfl
  cases same
  have erased := qsortAVX2_erases heap array temp values.length
  rw [recorded, ran, Option.map_some, Option.some.injEq, Prod.mk.injEq] at erased
  obtain ⟨rfl, _⟩ := erased
  refine ⟨recording, _, _, _, recorded, ran, sorted, waiting, fun element member => ?_, sound, bottom, tempSpace,
    fun small fuel enough => ?_⟩
  · exact BitVec.sle_iff_toInt_le.mpr (rightPart_ge member)
  · obtain ⟨final, _, sorts, _⟩ := myQsortAVX2_sortsPieceTightly fuel heap array temp (values.length - 1) values small enough
      (by omega) apart held allocated
    rw [sorts]
    rfl

theorem qsortAVX2_accesses_nine :
    ∃ recording right,
      qsortAVX2Recorded ((Heap.splice Heap.empty 0 [3, 1, 2, 2, 5, 0, 2, 4, 1]).splice 16 (List.replicate 8 0)) 0 16 9 =
        some recording ∧
      recording.heap.Holds 16 right ∧ Sound (Access.Allowed 0 16 9 right.length) recording.log ∧
      recording.copied.bottom = 9 ∧ recording.copied.tempSpace = 16 + right.length := by
  obtain ⟨recording, _, _, right, recorded, _, _, waiting, _, sound, bottom, tempSpace, _⟩ :=
    qsortAVX2_accesses ((Heap.splice Heap.empty 0 [3, 1, 2, 2, 5, 0, 2, 4, 1]).splice 16 (List.replicate 8 0)) 0 16
      [3, 1, 2, 2, 5, 0, 2, 4, 1] (by decide) (Or.inl (by decide))
      (Heap.holds_splice_self.splice_disjoint (Or.inl (by decide))) Heap.holds_splice_self.allocated
  exact ⟨recording, right, recorded, waiting, sound, bottom, tempSpace⟩

end Mbench.SortSpeed
