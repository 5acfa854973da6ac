import Mathlib.Data.List.Dedup
import Mathlib.Data.List.Lattice
import Mathlib.Tactic.Common

/-! What the draws alone say about the ring. The history lists the segments drawn, newest
first, down to the first segment, where the chain starts. A segment joins the chain with
its first draw, so the chain is the history without its repetitions. -/

namespace Mbench.LatencyRing

/-- Whether the newest segment of the chain has been drawn only once, so that it still
looks free. -/
def TailOpen (history : List Nat) : Prop :=
  ∃ newest, history.dedup.head? = some newest ∧ history.count newest = 1

/-- How often a draw selects the newest segment of the chain while that has been drawn
only once. -/
def tailRedraws : List Nat → Nat
  | [] => 0
  | drawn :: earlier =>
      tailRedraws earlier + if earlier.dedup.head? = some drawn ∧ earlier.count drawn = 1 then 1 else 0

section
variable {history older : List Nat} {last drawn : Nat}

theorem mem_of_chain (chain : history.dedup = last :: older) : drawn ∈ last :: older ↔ drawn ∈ history := by
  rw [← chain, List.mem_dedup]

theorem tailOpen_iff (chain : history.dedup = last :: older) : TailOpen history ↔ history.count last = 1 := by
  simp [TailOpen, chain]

theorem tailRedraws_cons (drawn : Nat) (chain : history.dedup = last :: older) :
    tailRedraws (drawn :: history) =
      tailRedraws history + if drawn = last ∧ history.count last = 1 then 1 else 0 := by
  rw [tailRedraws, chain, List.head?_cons]
  by_cases same : drawn = last
  · subst drawn
    simp
  · simp [same, Ne.symm same]

/-- A draw of what is on the chain changes neither the chain nor, unless it is the newest
segment, whether this is open. -/
theorem history_repeat (chain : history.dedup = last :: older) (member : drawn ∈ last :: older) :
    (drawn :: history).dedup = last :: older ∧
      (drawn :: history).count last = history.count last + if drawn = last then 1 else 0 := by
  rw [List.dedup_cons_of_mem ((mem_of_chain chain).mp member), List.count_cons]
  exact ⟨chain, by simp⟩

theorem history_fresh (chain : history.dedup = last :: older) (fresh : drawn ∉ last :: older) :
    (drawn :: history).dedup = drawn :: last :: older ∧ (drawn :: history).count drawn = 1 ∧ drawn ≠ last := by
  have absent : drawn ∉ history := fun member => fresh ((mem_of_chain chain).mpr member)
  refine ⟨by rw [List.dedup_cons_of_notMem absent, chain], ?_, by rintro rfl; simp at fresh⟩
  rw [List.count_cons_self, List.count_eq_zero_of_not_mem absent]

end

theorem tailRedraws_pos {history older : List Nat} {last : Nat} (chain : history.dedup = last :: older)
    (redrawn : 1 < history.count last) : 0 < tailRedraws history := by
  induction history with
  | nil => cases chain
  | cons drawn earlier ih =>
    by_cases member : drawn ∈ earlier
    · rw [List.dedup_cons_of_mem member] at chain
      rw [tailRedraws_cons drawn chain]
      by_cases newest : drawn = last
      · by_cases once : earlier.count last = 1
        · rw [if_pos ⟨newest, once⟩]
          exact Nat.succ_pos _
        · have positive : 0 < earlier.count last := List.count_pos_iff.mpr (newest ▸ member)
          exact Nat.lt_of_lt_of_le (ih chain (by omega)) (Nat.le_add_right _ _)
      · rw [List.count_cons_of_ne newest] at redrawn
        exact Nat.lt_of_lt_of_le (ih chain redrawn) (Nat.le_add_right _ _)
    · rw [List.dedup_cons_of_notMem member, List.cons.injEq] at chain
      rw [← chain.1, List.count_cons_self, List.count_eq_zero_of_not_mem member] at redrawn
      exact absurd redrawn (Nat.lt_irrefl 1)

/-- Each segment is redrawn as the newest one at most once, and the newest one not yet
while it is open. -/
theorem tailRedraws_le (history : List Nat) :
    tailRedraws history ≤ history.dedup.length ∧ (TailOpen history → tailRedraws history + 1 ≤ history.dedup.length) := by
  induction history with
  | nil => simp [tailRedraws, TailOpen]
  | cons drawn earlier ih =>
    cases chain : earlier.dedup with
    | nil =>
      have empty : earlier = [] := List.eq_nil_iff_forall_not_mem.mpr fun member here => by
        rw [← List.mem_dedup, chain] at here
        cases here
      subst empty
      simp [tailRedraws]
    | cons last older =>
      have ahead := ih.2
      rw [tailOpen_iff chain] at ahead
      rw [tailRedraws_cons drawn chain]
      rw [chain, List.length_cons] at ih ahead
      by_cases member : drawn ∈ last :: older
      · obtain ⟨same, count⟩ := history_repeat chain member
        have positive : 0 < earlier.count last :=
          List.count_pos_iff.mpr ((mem_of_chain chain).mp List.mem_cons_self)
        rw [tailOpen_iff same, count, same, List.length_cons]
        by_cases newest : drawn = last
        · by_cases once : earlier.count last = 1
          · have room := ahead once
            simp only [newest, once, and_self, if_true]
            omega
          · simp only [newest, once, and_false, if_false, if_true]
            omega
        · simp only [newest, false_and, if_false]
          exact ⟨ih.1, fun once => ahead (by omega)⟩
      · obtain ⟨longer, _, other⟩ := history_fresh chain member
        rw [longer, if_neg (fun both => other both.1), List.length_cons, List.length_cons]
        omega

/-! Later draws. -/

theorem tailRedraws_mono (later history : List Nat) : tailRedraws history ≤ tailRedraws (later ++ history) := by
  induction later with
  | nil => exact Nat.le_refl _
  | cons drawn later ih => exact Nat.le_trans ih (Nat.le_add_right _ _)

theorem dedup_suffix (later history : List Nat) : history.dedup <:+ (later ++ history).dedup := by
  rw [List.dedup_append]
  exact List.suffix_union_right later history.dedup

theorem tailRedraws_same {history older : List Nat} {last : Nat} (later : List Nat) (chain : history.dedup = last :: older)
    (same : (later ++ history).dedup = history.dedup) :
    tailRedraws (later ++ history) + (if (later ++ history).count last = 1 then 1 else 0) =
      tailRedraws history + if history.count last = 1 then 1 else 0 := by
  induction later with
  | nil => rfl
  | cons drawn later ih =>
    have middle : (later ++ history).dedup = history.dedup := by
      have outer : (later ++ history).dedup <:+ (drawn :: (later ++ history)).dedup := dedup_suffix [drawn] _
      rw [← List.cons_append, same] at outer
      exact ((dedup_suffix later history).eq_of_length_le outer.length_le).symm
    have current := middle.trans chain
    have member : drawn ∈ last :: older := by
      rw [← chain, ← same, List.mem_dedup]
      exact List.mem_cons_self
    have positive : 0 < (later ++ history).count last :=
      List.count_pos_iff.mpr ((mem_of_chain current).mp List.mem_cons_self)
    rw [List.cons_append, tailRedraws_cons drawn current, (history_repeat current member).2, ← ih middle]
    by_cases newest : drawn = last
    · by_cases once : (later ++ history).count last = 1
      · simp [newest, once]
      · simp only [newest, once, and_false, if_false, if_true]
        rw [if_neg (by omega)]
    · simp only [newest, false_and, if_false, Nat.add_zero]

end Mbench.LatencyRing
