import Mathlib.Algebra.Group.Int.Defs
import Mathlib.Algebra.Group.Nat.Defs
import Mathlib.Data.List.Basic
import Mathlib.Tactic.Common

/-! The two orders on 32-bit words. Each has one ascending arrangement of a list, and the
signed one is the unsigned one with the words whose top bit is set moved to the front. -/

namespace Mbench.SortSpeed

abbrev Word := BitVec 32

abbrev SignedAscending (values : List Word) : Prop :=
  values.Pairwise fun first second => first.toInt ≤ second.toInt

abbrev UnsignedAscending (values : List Word) : Prop :=
  values.Pairwise fun first second => first ≤ second

theorem short_ascending (values : List Word) (short : values.length ≤ 1) : UnsignedAscending values := by
  match values, short with
  | [], _ => exact List.Pairwise.nil
  | [only], _ => exact List.pairwise_singleton _ _

theorem UnsignedAscending.unique {first second : List Word} (ascending : UnsignedAscending first)
    (other : UnsignedAscending second) (perm : first.Perm second) : first = second :=
  perm.eq_of_pairwise (fun _ _ _ _ below above => BitVec.le_antisymm below above) ascending other

theorem SignedAscending.unique {first second : List Word} (ascending : SignedAscending first)
    (other : SignedAscending second) (perm : first.Perm second) : first = second :=
  perm.eq_of_pairwise (fun _ _ _ _ below above => BitVec.eq_of_toInt_eq (Int.le_antisymm below above)) ascending other

theorem toInt_low {value : Word} (low : value.toNat < 2 ^ 31) : value.toInt = value.toNat :=
  BitVec.toInt_eq_toNat_of_lt (by omega)

theorem toInt_high {value : Word} (high : 2 ^ 31 ≤ value.toNat) : value.toInt = value.toNat - 2 ^ 32 := by
  rw [BitVec.toInt_eq_toNat_cond, if_neg (by omega)]
  rfl

theorem toInt_le_of_le {first second : Word} (below : first ≤ second)
    (same : 2 ^ 31 ≤ first.toNat ↔ 2 ^ 31 ≤ second.toNat) : first.toInt ≤ second.toInt := by
  have order : first.toNat ≤ second.toNat := below
  by_cases high : 2 ^ 31 ≤ first.toNat
  · rw [toInt_high high, toInt_high (same.mp high)]
    omega
  · have otherLow : ¬2 ^ 31 ≤ second.toNat := fun other => high (same.mpr other)
    rw [toInt_low (by omega), toInt_low (by omega)]
    omega

def signedOrder (values : List Word) : List Word :=
  values.filter (fun value => 2 ^ 31 ≤ value.toNat) ++ values.filter fun value => !2 ^ 31 ≤ value.toNat

theorem signedOrder_perm (values : List Word) : (signedOrder values).Perm values :=
  List.filter_append_perm _ values

theorem signedOrder_ascending {values : List Word} (ascending : UnsignedAscending values) :
    SignedAscending (signedOrder values) := by
  refine List.pairwise_append.mpr ⟨?_, ?_, ?_⟩
  · refine List.pairwise_filter.mpr (ascending.imp fun below first second => toInt_le_of_le below ?_)
    exact iff_of_true (of_decide_eq_true first) (of_decide_eq_true second)
  · refine List.pairwise_filter.mpr (ascending.imp fun below first second => toInt_le_of_le below ?_)
    exact iff_of_false (by simpa using first) (by simpa using second)
  · intro first isHigh second isLow
    have high : 2 ^ 31 ≤ first.toNat := by simpa using (List.mem_filter.mp isHigh).2
    have low : second.toNat < 2 ^ 31 := by simpa using (List.mem_filter.mp isLow).2
    rw [toInt_high high, toInt_low low]
    have bound := first.isLt
    omega

theorem signedOrder_eq_iff {values : List Word} (ascending : UnsignedAscending values) :
    signedOrder values = values ↔
      (∀ value ∈ values, value.toNat < 2 ^ 31) ∨ ∀ value ∈ values, 2 ^ 31 ≤ value.toNat := by
  constructor
  · intro same
    by_contra mixed
    rw [not_or, not_forall, not_forall] at mixed
    obtain ⟨⟨high, highMixed⟩, low, lowMixed⟩ := mixed
    obtain ⟨highMember, isHigh⟩ := Classical.not_imp.mp highMixed
    obtain ⟨lowMember, isLow⟩ := Classical.not_imp.mp lowMixed
    rw [← same] at ascending
    have order : high ≤ low := by
      refine (List.pairwise_append.mp ascending).2.2 high ?_ low ?_
      · exact List.mem_filter.mpr ⟨highMember, by simpa using isHigh⟩
      · exact List.mem_filter.mpr ⟨lowMember, by simpa using isLow⟩
    have above : high.toNat ≤ low.toNat := order
    omega
  · intro uniform
    unfold signedOrder
    cases uniform with
    | inl allLow =>
      rw [List.filter_eq_nil_iff.mpr (by simpa using allLow), List.filter_eq_self.mpr (by simpa using allLow),
        List.nil_append]
    | inr allHigh =>
      have every : values.filter (fun value => 2 ^ 31 ≤ value.toNat) = values :=
        List.filter_eq_self.mpr (by simpa using allHigh)
      have none : values.filter (fun value => !2 ^ 31 ≤ value.toNat) = [] :=
        List.filter_eq_nil_iff.mpr (by simpa using allHigh)
      rw [every, none, List.append_nil]

end Mbench.SortSpeed
