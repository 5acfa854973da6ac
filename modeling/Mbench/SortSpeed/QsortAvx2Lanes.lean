import Mbench.SortSpeed.QsortAvx2

/-! What one compressed store does: the permutation row of the mask puts the selected
lanes first, in order, so storing all eight lanes and advancing by the population count
appends the selected lanes to what the pointer has written so far. -/

namespace Mbench.SortSpeed
open Library

theorem vmovmskps_cons (lane : Word) (lanes : List Word) :
    vmovmskps (lane :: lanes) = lane.msb.toNat + 2 * vmovmskps lanes := rfl

theorem vmovmskps_testBit (lanes : List Word) (index : Nat) :
    (vmovmskps lanes).testBit index = (lanes.getD index 0).msb := by
  induction lanes generalizing index with
  | nil => simp [vmovmskps]
  | cons lane lanes ih =>
    rw [vmovmskps_cons]
    cases index with
    | zero => cases sign : lane.msb <;> simp [sign]
    | succ index =>
      have half : (lane.msb.toNat + 2 * vmovmskps lanes) / 2 = vmovmskps lanes := by
        have small := Bool.toNat_le lane.msb
        omega
      rw [Nat.testBit_succ, half, ih, List.getD_cons_succ]

theorem vmovmskps_lt (lanes : List Word) : vmovmskps lanes < 2 ^ lanes.length := by
  induction lanes with
  | nil => simp [vmovmskps]
  | cons lane lanes ih =>
    have small := Bool.toNat_le lane.msb
    rw [vmovmskps_cons, List.length_cons, pow_succ]
    omega

theorem mask_testBit (pivot : Word) (lanes : List Word) (index : Nat) (inside : index < lanes.length) :
    (vmovmskps (vpcmpgtd pivot lanes)).testBit index = (lanes.getD index 0).slt pivot := by
  rw [vmovmskps_testBit]
  by_cases less : (lanes[index]).slt pivot = true
  · simp [vpcmpgtd, inside, less]
    decide
  · simp [vpcmpgtd, inside, less]

def selectsFirst (selected : Nat → List Nat) (entry : List Nat × Nat) : Bool :=
  entry.1.length == 8 && entry.1.take (selected entry.2).length == selected entry.2

theorem row_of_table {selected : Nat → List Nat} {table : List (List Nat)}
    (checked : table.zipIdx.all (selectsFirst selected) = true) {mask : Nat} (inside : mask < table.length) :
    (table.getD mask []).length = 8 ∧ (table.getD mask []).take (selected mask).length = selected mask := by
  have member : (table[mask], mask) ∈ table.zipIdx := List.mem_zipIdx_iff_getElem?.mpr (List.getElem?_eq_getElem inside)
  have row := List.all_eq_true.mp checked _ member
  rw [selectsFirst, Bool.and_eq_true, beq_iff_eq, beq_iff_eq] at row
  rw [List.getD_eq_getElem?_getD, List.getElem?_eq_getElem inside]
  exact row

theorem permTables_length : permTableLeft.length = 256 ∧ permTableRight.length = 256 := by
  decide +kernel

theorem permTableLeft_rows :
    permTableLeft.zipIdx.all (selectsFirst fun mask => (List.range 8).filter mask.testBit) = true := by
  decide +kernel

theorem permTableRight_rows :
    permTableRight.zipIdx.all (selectsFirst fun mask => (List.range 8).filter fun bit => !mask.testBit bit) = true := by
  decide +kernel

theorem popcnt_mask : ∀ mask < 256, popcnt (mask <<< 5) = ((List.range 8).filter mask.testBit).length := by
  decide +kernel

theorem permTables_rows (mask : Nat) (inside : mask < 256) :
    ((permTableLeft.getD mask []).length = 8 ∧ (permTableRight.getD mask []).length = 8) ∧
    popcnt (mask <<< 5) = ((List.range 8).filter mask.testBit).length ∧
    (permTableLeft.getD mask []).take (popcnt (mask <<< 5)) = (List.range 8).filter mask.testBit ∧
    (permTableRight.getD mask []).take (8 - popcnt (mask <<< 5)) =
      (List.range 8).filter (fun bit => !mask.testBit bit) := by
  have left := row_of_table permTableLeft_rows (inside.trans_eq permTables_length.1.symm)
  have right := row_of_table permTableRight_rows (inside.trans_eq permTables_length.2.symm)
  have count := popcnt_mask mask inside
  have clear : 8 - popcnt (mask <<< 5) = ((List.range 8).filter fun bit => !mask.testBit bit).length := by
    have both : (List.range 8).length = _ := List.length_eq_length_filter_add mask.testBit
    rw [List.length_range] at both
    omega
  refine ⟨⟨left.1, right.1⟩, count, ?_, ?_⟩
  · rw [count]
    exact left.2
  · rw [clear]
    exact right.2

theorem filter_eq_map_getD (keep : Word → Bool) (lanes : List Word) :
    lanes.filter keep =
      ((List.range lanes.length).filter fun index => keep (lanes.getD index 0)).map
        fun index => lanes.getD index 0 := by
  have spelled : lanes = (List.range lanes.length).map fun index => lanes.getD index 0 := by
    apply List.ext_getElem
    · simp
    · intro index inside _
      simp [inside]
  conv_lhs => rw [spelled]
  rw [List.filter_map]
  rfl

theorem vpermd_compress (keep : Word → Bool) (lanes : List Word) (row : List Nat) (count : Nat)
    (full : lanes.length = 8)
    (first : row.take count = (List.range 8).filter fun index => keep (lanes.getD index 0)) :
    vpermd lanes row = lanes.filter keep ++ vpermd lanes (row.drop count) := by
  conv_lhs => rw [← List.take_append_drop count row]
  have small : ∀ index ∈ row.take count, index % 8 = index := by
    intro index member
    rw [first, List.mem_filter, List.mem_range] at member
    exact Nat.mod_eq_of_lt member.1
  rw [vpermd, List.map_append, filter_eq_map_getD, full, ← first]
  congr 1
  apply List.map_congr_left
  intro index member
  rw [small index member]

abbrev belowPivot (pivot : Word) : Word → Bool := fun element => element.slt pivot

abbrev atLeastPivot (pivot : Word) : Word → Bool := fun element => !element.slt pivot

/-- A table and an advance compress the lanes to be kept: these come first among the
eight lanes stored, and the pointer moves past them. -/
def Compresses (keep : Word → Bool) (table : List (List Nat)) (advance : Nat → Int)
    (pivot : Word) : Prop :=
  ∀ lanes : List Word, lanes.length = 8 → ∃ extra,
    vpermd lanes (table.getD (tableOffset pivot lanes / 32) []) = lanes.filter keep ++ extra ∧
      (lanes.filter keep ++ extra).length = 8 ∧
      advance (popcnt (tableOffset pivot lanes)) = ((lanes.filter keep).length : Int)

theorem tableOffset_row (pivot : Word) (lanes : List Word) :
    tableOffset pivot lanes / 32 = vmovmskps (vpcmpgtd pivot lanes) := by
  rw [tableOffset, Nat.shiftLeft_eq]
  omega

theorem mask_lt (pivot : Word) (lanes : List Word) (full : lanes.length = 8) :
    vmovmskps (vpcmpgtd pivot lanes) < 256 := by
  have bound := vmovmskps_lt (vpcmpgtd pivot lanes)
  rw [vpcmpgtd, List.length_map, full] at bound
  exact bound

theorem filter_mask (pivot : Word) (lanes : List Word) (full : lanes.length = 8) :
    (List.range 8).filter (vmovmskps (vpcmpgtd pivot lanes)).testBit =
      (List.range 8).filter fun index => belowPivot pivot (lanes.getD index 0) := by
  apply List.filter_congr
  intro index member
  exact mask_testBit pivot lanes index (by rw [full]; exact List.mem_range.mp member)

theorem popcnt_offset (pivot : Word) (lanes : List Word) (full : lanes.length = 8) :
    popcnt (tableOffset pivot lanes) = (lanes.filter (belowPivot pivot)).length := by
  have rows := (permTables_rows _ (mask_lt pivot lanes full)).2.1
  rw [tableOffset, rows, filter_mask pivot lanes full, filter_eq_map_getD, List.length_map, full]

theorem storeBottom_compresses (pivot : Word) :
    Compresses (belowPivot pivot) permTableLeft (fun count => count) pivot := by
  intro lanes full
  obtain ⟨⟨wide, _⟩, count, left, _⟩ := permTables_rows _ (mask_lt pivot lanes full)
  have row := vpermd_compress (belowPivot pivot) lanes
    (permTableLeft.getD (tableOffset pivot lanes / 32) []) (popcnt (tableOffset pivot lanes)) full
    (by rw [tableOffset_row, tableOffset, left, filter_mask pivot lanes full])
  refine ⟨_, row, ?_, by rw [popcnt_offset pivot lanes full]⟩
  rw [← row, vpermd, List.length_map, tableOffset_row, wide]

theorem storeTop_compresses (pivot : Word) :
    Compresses (atLeastPivot pivot) permTableRight (fun count => -((count : Int) - 8)) pivot := by
  intro lanes full
  obtain ⟨⟨_, wide⟩, count, _, right⟩ := permTables_rows _ (mask_lt pivot lanes full)
  have clear : (List.range 8).filter (fun bit => !(vmovmskps (vpcmpgtd pivot lanes)).testBit bit) =
      (List.range 8).filter fun index => atLeastPivot pivot (lanes.getD index 0) := by
    apply List.filter_congr
    intro index member
    rw [mask_testBit pivot lanes index (by rw [full]; exact List.mem_range.mp member)]
  have row := vpermd_compress (atLeastPivot pivot) lanes
    (permTableRight.getD (tableOffset pivot lanes / 32) []) (8 - popcnt (tableOffset pivot lanes)) full
    (by rw [tableOffset_row, tableOffset, right, clear])
  refine ⟨_, row, ?_, ?_⟩
  · rw [← row, vpermd, List.length_map, tableOffset_row, wide]
  · have both : (lanes.filter (belowPivot pivot) ++ lanes.filter (atLeastPivot pivot)).length = 8 :=
      (List.filter_append_perm (belowPivot pivot) lanes).length_eq.trans full
    rw [List.length_append] at both
    simp only [popcnt_offset pivot lanes full]
    omega

end Mbench.SortSpeed
