import Mathlib.Data.Int.ConditionallyCompleteOrder
import Mathlib.Data.List.Pairwise
import Mathlib.Order.Interval.Set.Defs
import Mathlib.Order.CompletePartialOrder
import Mathlib.Order.Disjoint
import Mathlib.Data.Set.Lattice
import Mathlib.Tactic.Ring
import Mathlib.Tactic.Linarith

/-! Windows of one width, one after the other on the line of addresses: they do not overlap, and
together they are the range they start and end at. -/

namespace Mbench.Library

def window (base width : Int) (index : Nat) : Set Int :=
  Set.Ico (base + index * width) (base + index * width + width)

theorem window_disjoint {base width : Int} (room : 0 ≤ width) {first second : Nat} (before : first < second) :
    Disjoint (window base width first) (window base width second) := by
  rw [Set.disjoint_left]
  intro cell ⟨_, upto⟩ ⟨from_, _⟩
  have steps : (first + 1 : Int) * width ≤ second * width :=
    mul_le_mul_of_nonneg_right (by exact_mod_cast before) room
  linarith

theorem windows_disjoint {base width : Int} (room : 0 ≤ width) (count : Nat) :
    ((List.range count).map (window base width)).Pairwise Disjoint := by
  rw [List.pairwise_map]
  exact List.pairwise_lt_range.imp fun before => window_disjoint room before

theorem windows_cover {base width : Int} (room : 0 < width) (count : Nat) (cell : Int) :
    (∃ part ∈ (List.range count).map (window base width), cell ∈ part) ↔ cell ∈ Set.Ico base (base + count * width) := by
  constructor
  · intro ⟨part, member, inside⟩
    obtain ⟨index, below, rfl⟩ := List.mem_map.mp member
    obtain ⟨from_, upto⟩ := inside
    have last : (index + 1 : Int) * width ≤ count * width :=
      mul_le_mul_of_nonneg_right (by exact_mod_cast List.mem_range.mp below) room.le
    have first : 0 ≤ (index : Int) * width := by positivity
    exact ⟨by linarith, by linarith⟩
  · intro ⟨from_, upto⟩
    have quotient : 0 ≤ (cell - base) / width := Int.ediv_nonneg (by linarith) room.le
    have low : (cell - base) / width * width ≤ cell - base := Int.ediv_mul_le _ room.ne'
    have high : cell - base < (cell - base) / width * width + width := Int.lt_ediv_add_one_mul_self _ room |>.trans_eq (by ring)
    have below : (cell - base) / width < count := Int.ediv_lt_of_lt_mul room (by linarith)
    refine ⟨window base width ((cell - base) / width).toNat,
      List.mem_map_of_mem (List.mem_range.mpr (by omega)), ?_, ?_⟩
    · rw [Int.toNat_of_nonneg quotient]
      linarith
    · rw [Int.toNat_of_nonneg quotient]
      linarith

end Mbench.Library
