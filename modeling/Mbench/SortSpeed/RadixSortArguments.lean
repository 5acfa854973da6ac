import Mbench.SortSpeed.RadixSortSpec

/-! What `radix_sort` touches: which of its stores leave the area that `main` gives it, and what it makes of arguments
that are not the globals. -/

namespace Mbench.SortSpeed
open Library

/-- `radix_sort` with the `int` that its loops count with, which overflows where `n` is more than `INT_MAX`. -/
def intRadixSort (ptr ptrd : Int) (heap : Heap Word) (loc buf : Int) (n : Nat) (idx : Int) : Option (Heap Word) :=
  if n < 2 ^ 31 then radixSort ptr ptrd heap loc buf n idx else none

/-- The words of the `4 * n + 0x5060` bytes that `main` allocates for `ptrd`. -/
def mainRoom (n : Nat) : Nat := 0x5060 / 4 + n

/-- Wherever `loc` and `buf` are, with nothing else allocated, `radix_sort` is defined: no access is outside them. -/
def StaysInside (values : List Word) : Prop :=
  ∀ heap loc buf, Workspace heap loc buf (mainRoom values.length) values →
    (∀ cell, Outside cell loc values.length → Outside cell buf (mainRoom values.length) → heap cell = none) →
    (intRadixSort loc buf heap loc buf values.length 0).isSome

def sideBySide (values : List Word) : Heap Word :=
  (Heap.splice Heap.empty 0 values).splice values.length (List.replicate (mainRoom values.length) 0)

theorem sideBySide_workspace (values : List Word) :
    Workspace (sideBySide values) 0 values.length (mainRoom values.length) values := by
  have room : (sideBySide values).Holds values.length (List.replicate (mainRoom values.length) 0) := Heap.holds_splice_self
  refine ⟨Heap.holds_splice_self.splice_disjoint (Or.inl (by omega)), ?_, ?_, le_rfl, Or.inl (by omega)⟩
  · have window := room.window 0 (0x5060 / 4) (by rw [List.length_replicate, mainRoom]; omega)
    rwa [List.drop_zero, List.take_replicate, mainRoom, Nat.min_eq_left (by omega), Nat.cast_zero, Int.add_zero] at window
  · have allocated := room.allocated
    rwa [List.length_replicate] at allocated

theorem sideBySide_nothing (values : List Word) (cell : Int) (outLoc : Outside cell 0 values.length)
    (outBuf : Outside cell values.length (mainRoom values.length)) : sideBySide values cell = none := by
  rw [sideBySide, Heap.splice_outside (by rwa [List.length_replicate]), Heap.splice_outside outLoc]
  rfl

theorem radixSort_undefined {heap : Heap Word} {loc buf : Int} {values : List Word}
    (workspace : Workspace heap loc buf (mainRoom values.length) values) (ptr ptrd : Int) (nonempty : 0 < values.length)
    {last : Word} (lastEq : values.getLast? = some last) (beyond : values.length + 1032 ≤ middleDigit last)
    (nothing : heap (buf + 0x4040 / 4 + middleDigit last) = none) :
    radixSort ptr ptrd heap loc buf values.length 0 = none := by
  obtain ⟨middle, upto, _, kept⟩ := countTables_upto workspace.layout workspace.fits workspace.apart nonempty
    ⟨le_rfl, by rw [mainRoom]; omega⟩ lastEq
  have past : Outside (buf + 0x4040 / 4 + (middleDigit last : Int)) buf (mainRoom values.length) := by
    rw [mainRoom]
    right
    omega
  have unallocated : middle (buf + 0x4040 / 4 + middleDigit last) = none :=
    (kept.outside (by rw [mainRoom]; omega) _ past).trans nothing
  rw [radixSort, upto, countDigits, Heap.store_none unallocated]
  rfl

/-- From sixteen values on, `radix_sort` stays inside its areas exactly where it can count the values and the middle digit
of the last one does not take the third stray store out of `buf`. -/
theorem radixSort_staysInside_iff (values : List Word) (atLeast : 16 ≤ values.length) :
    StaysInside values ↔
      values.length < 2 ^ 31 ∧ ∀ last, values.getLast? = some last → middleDigit last < values.length + 1032 := by
  constructor
  · intro stays
    have defined := stays (sideBySide values) 0 values.length (sideBySide_workspace values) (sideBySide_nothing values)
    have small : values.length < 2 ^ 31 := by
      by_contra large
      rw [intRadixSort, if_neg large] at defined
      cases defined
    refine ⟨small, fun last lastEq => ?_⟩
    by_contra beyond
    have stray : sideBySide values (values.length + 0x4040 / 4 + (middleDigit last : Int)) = none := by
      apply sideBySide_nothing values
      · right
        omega
      · right
        rw [mainRoom]
        omega
    have undefined_ := radixSort_undefined (sideBySide_workspace values) 0 values.length (by omega) lastEq (by omega) stray
    rw [intRadixSort, if_pos small, undefined_] at defined
    cases defined
  · intro ⟨small, third⟩ heap loc buf workspace nothing
    have start : (0 : Int) ≤ 0 ∧ (0 : Int) < mainRoom values.length := ⟨le_rfl, by rw [mainRoom]; omega⟩
    obtain ⟨after, ran, passed⟩ := workspace.radixSort loc buf atLeast small start fun last lastEq => by
      have inside := third last lastEq
      rw [mainRoom]
      omega
    rw [intRadixSort, if_pos small, ran, passed.copy]
    rfl

theorem radixSort_staysInside_ones : StaysInside (List.replicate 16 1) :=
  (radixSort_staysInside_iff (List.replicate 16 1) (by decide)).mpr ⟨by decide, fun last lastEq => by
    cases lastEq
    decide⟩

/-- Sixteen values, the last one with the middle digit 2047: its stray store is past the 64 + 0x5060 bytes. -/
theorem radixSort_leaves_buffer :
    ¬ StaysInside (List.replicate 16 0xFFFFFFFF) ∧
      radixSort 0 16 (sideBySide (List.replicate 16 0xFFFFFFFF)) 0 16 16 0 = none := by
  have undefined_ : radixSort 0 16 (sideBySide (List.replicate 16 0xFFFFFFFF)) 0 16 16 0 = none :=
    radixSort_undefined (sideBySide_workspace (List.replicate 16 0xFFFFFFFF)) 0 16 (by decide) rfl (by decide)
      (sideBySide_nothing _ _ (by decide) (by decide))
  refine ⟨fun stays => ?_, undefined_⟩
  have defined := stays (sideBySide (List.replicate 16 0xFFFFFFFF)) 0 16 (sideBySide_workspace _) (sideBySide_nothing _)
  rw [List.length_replicate, intRadixSort, if_pos (by decide), undefined_] at defined
  cases defined

/-! The last copy is between the areas of the globals, whatever the arguments are. -/

/-- `radix_sort` sorts what is in `loc`, and changes nothing else but `buf`, whatever memory holds. -/
def SortsArguments (ptr ptrd loc buf : Int) (n : Nat) : Prop :=
  ∀ (heap : Heap Word) (values : List Word) (idx : Int), values.length = n → Workspace heap loc buf (mainRoom n) values →
    heap.Allocated ptr n → heap.Allocated (ptrd + 0x5060 / 4) n → 0 ≤ idx ∧ idx < mainRoom n →
    (∀ last, values.getLast? = some last → 0x4040 / 4 + middleDigit last < mainRoom n) →
    ∃ final sorted, radixSort ptr ptrd heap loc buf n idx = some final ∧ final.Holds loc sorted ∧
      UnsignedAscending sorted ∧ sorted.Perm values ∧
      ∀ cell, Outside cell loc n → Outside cell buf (mainRoom n) → final cell = heap cell

theorem sortsArguments_globals (loc buf : Int) (n : Nat) (atLeast : 16 ≤ n) (small : n < 2 ^ 31) :
    SortsArguments loc buf loc buf n := by
  rintro heap values idx rfl workspace _ _ firstStray thirdStray
  obtain ⟨after, ran, passed⟩ := workspace.radixSort loc buf atLeast small firstStray thirdStray
  refine ⟨_, _, ran.trans passed.copy, Heap.holds_splice_self, passes_ascending values, passesSort_perm values,
    fun cell outLoc outBuf => ?_⟩
  calc after.splice loc (passesSort values) cell = after cell :=
        Heap.splice_outside (by rwa [(passesSort_perm values).length_eq])
    _ = heap cell := passed.frame cell outLoc outBuf

def onesThenTop (n : Nat) (top : Word) : List Word := List.replicate (n - 1) 1 ++ [top]

def topThenOnes (n : Nat) (top : Word) : List Word := top :: List.replicate (n - 1) 1

section
variable {n : Nat} {top : Word}

theorem onesThenTop_length (nonempty : 0 < n) : (onesThenTop n top).length = n := by
  rw [onesThenTop, List.length_append, List.length_replicate, List.length_singleton]
  omega

theorem topThenOnes_length (nonempty : 0 < n) : (topThenOnes n top).length = n := by
  rw [topThenOnes, List.length_cons, List.length_replicate]
  omega

theorem onesThenTop_get {index : Nat} (inside : index < n) :
    (onesThenTop n top)[index]? = some (if index = n - 1 then top else 1) := by
  by_cases final : index = n - 1
  · rw [if_pos final, onesThenTop, List.getElem?_append_right (by rw [List.length_replicate]; omega), List.length_replicate,
      final, Nat.sub_self]
    rfl
  · rw [if_neg final, onesThenTop, List.getElem?_append_left (by rw [List.length_replicate]; omega),
      List.getElem?_replicate, if_pos (by omega)]

theorem topThenOnes_get {index : Nat} (inside : index < n) :
    (topThenOnes n top)[index]? = some (if index = 0 then top else 1) := by
  cases index with
  | zero => rfl
  | succ index => rw [topThenOnes, List.getElem?_cons_succ, List.getElem?_replicate, if_pos (by omega), if_neg (by omega)]

theorem topThenOnes_perm : (onesThenTop n top).Perm (topThenOnes n top) := List.perm_append_singleton _ _

theorem replicate_pairwise {order : Word → Word → Prop} (same : order 1 1) (count : Nat) :
    (List.replicate count (1 : Word)).Pairwise order := List.pairwise_replicate.mpr (Or.inr same)

theorem onesThenTop_pairwise {order : Word → Word → Prop} (same : order 1 1) (above : order 1 top) :
    (onesThenTop n top).Pairwise order := by
  refine List.pairwise_append.mpr ⟨replicate_pairwise same _, List.pairwise_singleton _ _, fun first early second late => ?_⟩
  rw [List.eq_of_mem_replicate early, List.mem_singleton.mp late]
  exact above

theorem topThenOnes_pairwise {order : Word → Word → Prop} (same : order 1 1) (below : order top 1) :
    (topThenOnes n top).Pairwise order := by
  refine List.pairwise_cons.mpr ⟨fun value member => ?_, replicate_pairwise same _⟩
  rw [List.eq_of_mem_replicate member]
  exact below

theorem passesSort_onesThenTop (above : (1 : Word) ≤ top) {values : List Word} (perm : (onesThenTop n top).Perm values) :
    passesSort values = onesThenTop n top :=
  (passes_ascending values).unique (onesThenTop_pairwise (BitVec.le_refl 1) above) ((passesSort_perm values).trans perm.symm)

theorem Pass.sort_eq_self (pass : Pass) {values : List Word}
    (ordered : values.Pairwise fun first second => pass.digit first ≤ pass.digit second) : pass.sort values = values :=
  bucketSort_eq_self ordered fun value _ => pass.digit_lt value

theorem topThenOnes_source : Pass.middle.sort (Pass.low.sort (topThenOnes n 0xFFC00000)) = topThenOnes n 0xFFC00000 := by
  rw [Pass.low.sort_eq_self (topThenOnes_pairwise (by decide) (by decide)),
    Pass.middle.sort_eq_self (topThenOnes_pairwise (by decide) (by decide))]

theorem onesThenTop_source : Pass.middle.sort (Pass.low.sort (onesThenTop n 0xFFC00001)) = onesThenTop n 0xFFC00001 := by
  rw [Pass.low.sort_eq_self (onesThenTop_pairwise (by decide) (by decide)),
    Pass.middle.sort_eq_self (onesThenTop_pairwise (by decide) (by decide))]

end

def amongZeros (loc : Int) (values : List Word) : Heap Word := Heap.splice (fun _ => some 0) loc values

theorem amongZeros_allocated (loc : Int) (values : List Word) (base : Int) (count : Nat) :
    (amongZeros loc values).Allocated base count :=
  Heap.splice_allocated fun _ _ => rfl

theorem amongZeros_workspace {loc buf : Int} {values : List Word} {room : Nat} (fits : mainRoom values.length ≤ room)
    (apart : loc + values.length ≤ buf ∨ buf + room ≤ loc) :
    Workspace (amongZeros loc values) loc buf room values := by
  rw [mainRoom] at fits
  refine ⟨Heap.holds_splice_self, fun index inside => ?_, amongZeros_allocated _ _ _ _, fits, apart⟩
  rw [List.length_replicate] at inside
  rw [amongZeros, Heap.splice_outside (by simp only [Outside]; omega), List.getElem?_replicate, if_pos inside]

section
variable {ptr ptrd loc buf : Int} {n : Nat}

theorem SortsArguments.copied (sorts : SortsArguments ptr ptrd loc buf n) (atLeast : 16 ≤ n) (small : n < 2 ^ 31)
    (apart : loc + n ≤ buf ∨ buf + mainRoom n ≤ loc) {values : List Word} (length : values.length = n)
    (third : ∀ last, values.getLast? = some last → middleDigit last = 0) :
    ∃ after copied, AfterPasses (amongZeros loc values) loc buf (mainRoom n) values after ∧ copied.length = n ∧
      after.Holds (ptrd + 0x5060 / 4) copied ∧ (after.splice ptr copied).Holds loc (passesSort values) := by
  subst length
  have workspace : Workspace (amongZeros loc values) loc buf (mainRoom values.length) values :=
    amongZeros_workspace le_rfl apart
  have start : (0 : Int) ≤ 0 ∧ (0 : Int) < mainRoom values.length := ⟨le_rfl, by rw [mainRoom]; omega⟩
  have inside (last : Word) (lastEq : values.getLast? = some last) : 0x4040 / 4 + middleDigit last < mainRoom values.length := by
    rw [third last lastEq, mainRoom]
    omega
  obtain ⟨after, ran, passed⟩ := workspace.radixSort ptr ptrd atLeast small start inside
  obtain ⟨final, sorted, done, held, ascending, perm, _⟩ := sorts _ values 0 rfl workspace
    (amongZeros_allocated _ _ _ _) (amongZeros_allocated _ _ _ _) start inside
  rw [ran] at done
  obtain ⟨copied, read, written⟩ := Option.bind_eq_some_iff.mp done
  obtain ⟨copiedLength, source⟩ := Heap.read_eq_some read
  obtain ⟨_, rfl⟩ := Heap.write_eq_some written
  have same : sorted = passesSort values :=
    ascending.unique (passes_ascending values) (perm.trans (passesSort_perm values).symm)
  exact ⟨after, copied, passed, copiedLength, source, same ▸ held⟩

/-- A value that is no count and not zero is where the passes put it: at the end of the data area, or in `loc`. -/
theorem AfterPasses.top {values : List Word} {top : Word} {after : Heap Word} {address : Int}
    (passed : AfterPasses (amongZeros loc values) loc buf (mainRoom n) values after) (length : values.length = n)
    (sorted : passesSort values = onesThenTop n top) (large : n < top.toNat) (several : 1 < n) (found : after address = some top) :
    address = buf + 0x5060 / 4 + (n - 1 : Nat) ∨
      ∃ index < n, address = loc + index ∧ (Pass.middle.sort (Pass.low.sort values))[index]? = some top := by
  have notOne : top ≠ 1 := by
    rintro rfl
    have one : (1 : Word).toNat = 1 := rfl
    omega
  have sourceLength : (Pass.middle.sort (Pass.low.sort values)).length = n :=
    ((Pass.middle.sort_perm _).trans (Pass.low.sort_perm values)).length_eq.trans length
  by_cases inLoc : Outside address loc n
  · left
    by_cases inBuf : Outside address buf (mainRoom n)
    · -- the zeros around
      rw [passed.frame address (by rwa [length]) inBuf, amongZeros, Heap.splice_outside (by rwa [length]),
        Option.some.injEq] at found
      rw [← found] at large
      exact absurd large (Nat.not_lt_zero n)
    · rw [mainRoom] at inBuf
      by_cases inTables : address < buf + 0x5060 / 4
      · obtain ⟨count, bounded, counted⟩ := passed.counts address (by omega) inTables
        rw [counted, Option.some.injEq] at found
        rw [length] at bounded
        rw [← found, BitVec.toNat_ofNat] at large
        exact absurd (Nat.mod_le count (2 ^ 32)) (by omega)
      · have data := passed.data
        rw [sorted] at data
        have place := data (address - (buf + 0x5060 / 4)).toNat (by rw [onesThenTop_length (by omega)]; omega)
        rw [onesThenTop_get (by omega), show buf + 0x5060 / 4 + ((address - (buf + 0x5060 / 4)).toNat : Int) = address by omega,
          found, Option.some.injEq] at place
        split at place
        next final => omega
        next _ => exact absurd place notOne
  · right
    refine ⟨(address - loc).toNat, by omega, by omega, ?_⟩
    rw [← passed.source _ (by rw [sourceLength]; omega), show loc + ((address - loc).toNat : Int) = address by omega, found]

theorem topThenOnes_third {top : Word} (third : middleDigit top = 0) (last : Word)
    (lastEq : (topThenOnes n top).getLast? = some last) : middleDigit last = 0 := by
  rcases List.mem_cons.mp (List.mem_of_getLast? lastEq) with rfl | later
  · exact third
  · rw [List.eq_of_mem_replicate later]
    decide

theorem onesThenTop_third {top : Word} (third : middleDigit top = 0) (last : Word)
    (lastEq : (onesThenTop n top).getLast? = some last) : middleDigit last = 0 := by
  rw [onesThenTop, List.getLast?_concat, Option.some.injEq] at lastEq
  rwa [← lastEq]

theorem SortsArguments.ptr_eq (sorts : SortsArguments ptr ptrd loc buf n) (atLeast : 16 ≤ n) (small : n < 2 ^ 31)
    (apart : loc + n ≤ buf ∨ buf + mainRoom n ≤ loc) : ptr = loc := by
  have length : (topThenOnes n 0xFFC00000).length = n := topThenOnes_length (by omega)
  obtain ⟨after, copied, passed, copiedLength, _, held⟩ :=
    sorts.copied atLeast small apart length (topThenOnes_third (by decide))
  have source := passed.source
  rw [topThenOnes_source] at source
  rw [passesSort_onesThenTop (by decide) topThenOnes_perm] at held
  have unequal (index : Nat) (inside : index < n) (ends : index = 0 ∨ index = n - 1) : ¬ Outside (loc + index) ptr n := by
    intro outside
    have before := source index (by rwa [length])
    have later := held index (by rwa [onesThenTop_length (by omega)])
    rw [topThenOnes_get inside] at before
    rw [Heap.splice_outside (by rwa [copiedLength]), onesThenTop_get inside, before, Option.some.injEq] at later
    rcases ends with rfl | rfl
    · rw [if_pos rfl, if_neg (by omega)] at later
      exact absurd later (by decide)
    · rw [if_neg (by omega), if_pos rfl] at later
      exact absurd later (by decide)
  have lowest := unequal 0 (by omega) (Or.inl rfl)
  have highest := unequal (n - 1) (by omega) (Or.inr rfl)
  simp only [Outside] at lowest highest
  omega

theorem SortsArguments.last_copied (sorts : SortsArguments loc ptrd loc buf n) (atLeast : 16 ≤ n) (small : n < 2 ^ 31)
    (apart : loc + n ≤ buf ∨ buf + mainRoom n ≤ loc) {values : List Word} {top : Word} (length : values.length = n)
    (third : ∀ last, values.getLast? = some last → middleDigit last = 0) (large : 2 ^ 31 ≤ top.toNat)
    (sorted : passesSort values = onesThenTop n top) :
    ptrd = buf ∨ ∃ index < n, ptrd + 0x5060 / 4 + (n - 1 : Nat) = loc + index ∧
      (Pass.middle.sort (Pass.low.sort values))[index]? = some top := by
  obtain ⟨after, copied, passed, copiedLength, source, held⟩ := sorts.copied atLeast small apart length third
  have same : copied = passesSort values :=
    Heap.holds_splice_self.unique held (by rw [copiedLength, (passesSort_perm values).length_eq, length])
  rw [same, sorted] at source
  have found := source (n - 1) (by rw [onesThenTop_length (by omega)]; omega)
  rw [onesThenTop_get (by omega), if_pos rfl] at found
  rcases passed.top length sorted (by omega) (by omega) found with data | inLoc
  · left
    omega
  · exact Or.inr inLoc

/-- A call that sorts copies from the data area: what is in `loc` is in its place for some values only. -/
theorem SortsArguments.ptrd_eq (sorts : SortsArguments loc ptrd loc buf n) (atLeast : 16 ≤ n) (small : n < 2 ^ 31)
    (apart : loc + n ≤ buf ∨ buf + mainRoom n ≤ loc) : ptrd = buf := by
  have falling := sorts.last_copied atLeast small apart (topThenOnes_length (by omega))
    (@topThenOnes_third n 0xFFC00000 (by decide)) (by decide) (passesSort_onesThenTop (by decide) topThenOnes_perm)
  have rising := sorts.last_copied atLeast small apart (onesThenTop_length (by omega))
    (@onesThenTop_third n 0xFFC00001 (by decide)) (by decide) (passesSort_onesThenTop (by decide) (List.Perm.refl _))
  rw [topThenOnes_source] at falling
  rw [onesThenTop_source] at rising
  rcases falling with same | ⟨first, firstIn, firstPlace, firstTop⟩
  · exact same
  · rcases rising with same | ⟨second, secondIn, secondPlace, secondTop⟩
    · exact same
    · rw [topThenOnes_get firstIn, Option.some.injEq] at firstTop
      rw [onesThenTop_get secondIn, Option.some.injEq] at secondTop
      have lowest : first = 0 := by
        by_contra other
        rw [if_neg other] at firstTop
        exact absurd firstTop (by decide)
      have highest : second = n - 1 := by
        by_contra other
        rw [if_neg other] at secondTop
        exact absurd secondTop (by decide)
      omega

end

/-- `radix_sort` sorts its argument, and leaves all but its work area as it is, whatever memory holds, exactly where its
arguments are the globals. -/
theorem sortsArguments_iff (ptr ptrd loc buf : Int) (n : Nat) (atLeast : 16 ≤ n) (small : n < 2 ^ 31 - 1)
    (apart : loc + n ≤ buf ∨ buf + mainRoom n ≤ loc) :
    SortsArguments ptr ptrd loc buf n ↔ ptr = loc ∧ ptrd = buf := by
  constructor
  · intro sorts
    have same : ptr = loc := sorts.ptr_eq atLeast (by omega) apart
    subst same
    exact ⟨rfl, sorts.ptrd_eq atLeast (by omega) apart⟩
  · rintro ⟨rfl, rfl⟩
    exact sortsArguments_globals ptr ptrd n atLeast (by omega)

theorem sortsArguments_sixteen : SortsArguments 0 100 0 100 16 :=
  (sortsArguments_iff 0 100 0 100 16 (by decide) (by decide) (by decide)).mpr ⟨rfl, rfl⟩

/-- An array and a work buffer beside the globals: the array is left unsorted, and the area of `ptr` is overwritten. -/
def besideGlobals : Heap Word :=
  Heap.splice (fun cell => some (if 200000 ≤ cell then 7 else 0)) 0 (topThenOnes 16 0xFFC00000)

theorem radixSort_wrong_buffer :
    ¬ SortsArguments 100000 200000 0 100 16 ∧
      ∃ final, radixSort 100000 200000 besideGlobals 0 100 16 0 = some final ∧
        final.Holds 0 (topThenOnes 16 0xFFC00000) ∧ ¬ UnsignedAscending (topThenOnes 16 0xFFC00000) ∧
        besideGlobals 100000 = some 0 ∧ final 100000 = some 7 := by
  refine ⟨fun sorts => absurd (sorts.ptr_eq (by decide) (by decide) (by decide)) (by decide), ?_⟩
  have workspace : Workspace besideGlobals 0 100 (mainRoom 16) (topThenOnes 16 0xFFC00000) := by
    refine ⟨Heap.holds_splice_self, fun index inside => ?_, Heap.splice_allocated fun _ _ => rfl, le_rfl, Or.inl (by decide)⟩
    rw [List.length_replicate] at inside
    have far : ¬ (200000 : Int) ≤ 100 + index := by omega
    rw [besideGlobals, Heap.splice_outside (by right; rw [topThenOnes_length (by decide)]; omega), if_neg far,
      List.getElem?_replicate, if_pos inside]
  obtain ⟨after, ran, passed⟩ := workspace.radixSort 100000 200000 (by decide) (by decide) ⟨le_rfl, by decide⟩
    fun last lastEq => by rw [topThenOnes_third (by decide) last lastEq]; decide
  have source := passed.source
  rw [topThenOnes_source] at source
  have sevens : after.Holds (200000 + 0x5060 / 4) (List.replicate 16 7) := by
    intro index inside
    rw [List.length_replicate] at inside
    have outLoc : Outside (200000 + 0x5060 / 4 + (index : Int)) 0 16 := by right; omega
    have outBuf : Outside (200000 + 0x5060 / 4 + (index : Int)) 100 (mainRoom 16) := by right; rw [mainRoom]; omega
    rw [passed.frame _ outLoc outBuf, besideGlobals, Heap.splice_outside outLoc, if_pos (by omega), List.getElem?_replicate,
      if_pos inside]
  have allocated : besideGlobals.Allocated 100000 16 := Heap.splice_allocated fun _ _ => rfl
  have around : after.Allocated 100000 (List.replicate 16 (7 : Word)).length := by
    intro index inside
    rw [List.length_replicate] at inside
    have outLoc : Outside (100000 + (index : Int)) 0 16 := by right; omega
    have outBuf : Outside (100000 + (index : Int)) 100 (mainRoom 16) := by right; rw [mainRoom]; omega
    rw [passed.frame _ outLoc outBuf]
    exact allocated index inside
  have copied := sevens.read
  rw [List.length_replicate] at copied
  refine ⟨after.splice 100000 (List.replicate 16 7), ?_, source.splice_disjoint (Or.inl (by decide)), by decide, rfl, ?_⟩
  · rw [topThenOnes_length (by decide)] at ran
    rw [ran, copied, Option.bind_some, around.write]
  · exact Heap.holds_splice_self 0 (by decide)

end Mbench.SortSpeed
