import Mbench.Library.Memory

/-! Stable distribution of a list by a small key: the values of key 0 in their order, then
those of key 1, and so on. The bucket of a key starts where the smaller keys end, so an
array that holds every bucket at its own place holds the distributed list. -/

namespace Mbench.Library

variable {Value : Type} (digit : Value → Nat) (key radix : Nat) (values : List Value)

def bucket : List Value := values.filter fun value => digit value = key

def below : Nat := values.countP fun value => digit value < key

def bucketSort : List Value := (List.range radix).flatMap fun key => bucket digit key values

variable {digit key radix values}

theorem bucket_concat (last : Value) :
    bucket digit key (values ++ [last]) = bucket digit key values ++ if digit last = key then [last] else [] := by
  unfold bucket
  by_cases here : digit last = key
  · simp [List.filter_append, here]
  · simp [List.filter_append, here]

theorem bucket_take_length_le (count : Nat) :
    (bucket digit key (values.take count)).length ≤ (bucket digit key values).length :=
  ((List.take_sublist count values).filter _).length_le

theorem below_zero : below digit 0 values = 0 := by simp [below]

theorem below_succ : below digit (key + 1) values = below digit key values + (bucket digit key values).length := by
  unfold below bucket
  induction values with
  | nil => rfl
  | cons first rest ih =>
    rw [List.countP_cons, List.countP_cons, List.filter_cons, ih]
    by_cases smaller : digit first < key
    · simp [smaller, show digit first < key + 1 by omega, show digit first ≠ key by omega]
      omega
    · by_cases equal : digit first = key
      · simp [equal]
        omega
      · simp [smaller, equal, show ¬digit first < key + 1 by omega]

theorem below_le_length : below digit key values ≤ values.length := List.countP_le_length

theorem below_mono {other : Nat} (fewer : key ≤ other) : below digit key values ≤ below digit other values :=
  List.countP_mono_left fun value _ smaller => by
    rw [decide_eq_true_eq] at smaller ⊢
    omega

theorem below_perm {other : List Value} (perm : values.Perm other) : below digit key values = below digit key other :=
  perm.countP_eq _

theorem below_apart {other : Nat} (smaller : key < other) :
    below digit key values + (bucket digit key values).length ≤ below digit other values := by
  rw [← below_succ]
  exact below_mono smaller

theorem bucketSort_succ :
    bucketSort digit (radix + 1) values = bucketSort digit radix values ++ bucket digit radix values := by
  simp [bucketSort, List.range_succ]

theorem bucketSort_length : (bucketSort digit radix values).length = below digit radix values := by
  induction radix with
  | zero => simp [bucketSort, below_zero]
  | succ radix ih => rw [bucketSort_succ, List.length_append, ih, below_succ]

theorem bucketSort_perm_filter :
    (bucketSort digit radix values).Perm (values.filter fun value => digit value < radix) := by
  induction radix with
  | zero => simp [bucketSort]
  | succ radix ih =>
    rw [bucketSort_succ]
    refine (ih.append_right _).trans ?_
    have parts := List.filter_append_perm (fun value => decide (digit value < radix))
      (values.filter fun value => digit value < radix + 1)
    rw [List.filter_filter, List.filter_filter] at parts
    have low : (values.filter fun value => decide (digit value < radix) && decide (digit value < radix + 1)) =
        values.filter fun value => digit value < radix := by
      apply List.filter_congr fun value _ => ?_
      rw [Bool.eq_iff_iff, Bool.and_eq_true, decide_eq_true_eq, decide_eq_true_eq]
      omega
    have equal : (values.filter fun value => !decide (digit value < radix) && decide (digit value < radix + 1)) =
        bucket digit radix values := by
      apply List.filter_congr fun value _ => ?_
      rw [Bool.eq_iff_iff, Bool.and_eq_true, Bool.not_eq_true', decide_eq_true_eq, decide_eq_true_eq,
        decide_eq_false_iff_not]
      omega
    rwa [low, equal] at parts

theorem bucketSort_perm (bounded : ∀ value ∈ values, digit value < radix) :
    (bucketSort digit radix values).Perm values := by
  have every : (values.filter fun value => digit value < radix) = values :=
    List.filter_eq_self.mpr (by simpa using bounded)
  exact bucketSort_perm_filter.trans (List.Perm.of_eq every)

theorem bucketSort_pairwise {order : Value → Value → Prop} (ordered : values.Pairwise order) :
    (bucketSort digit radix values).Pairwise fun first second =>
      digit first < digit second ∨ digit first = digit second ∧ order first second := by
  have digit_eq {key : Nat} {value : Value} (member : value ∈ bucket digit key values) : digit value = key := by
    simpa using (List.mem_filter.mp member).2
  refine List.pairwise_flatMap.mpr ⟨fun key _ => ?_, List.pairwise_lt_range.imp fun smaller first early second late => ?_⟩
  · refine (ordered.filter _).imp_of_mem fun early late kept => Or.inr ⟨?_, kept⟩
    rw [digit_eq early, digit_eq late]
  · left
    rw [digit_eq early, digit_eq late]
    exact smaller

theorem bucket_bucketSort :
    bucket digit key (bucketSort digit radix values) = if key < radix then bucket digit key values else [] := by
  induction radix with
  | zero => rfl
  | succ radix ih =>
    have last : bucket digit key (bucket digit radix values) = if key = radix then bucket digit key values else [] := by
      unfold bucket
      rw [List.filter_filter]
      by_cases here : key = radix
      · simp [here]
      · rw [if_neg here, List.filter_eq_nil_iff]
        simp only [Bool.and_eq_true, decide_eq_true_eq]
        omega
    have parts : bucket digit key (bucketSort digit radix values ++ bucket digit radix values) =
        bucket digit key (bucketSort digit radix values) ++ bucket digit key (bucket digit radix values) :=
      List.filter_append _ _
    rw [bucketSort_succ, parts, ih, last]
    by_cases smaller : key < radix
    · rw [if_pos smaller, if_neg (by omega), if_pos (by omega), List.append_nil]
    · rw [if_neg smaller, List.nil_append]
      exact if_congr (by omega) rfl rfl

/-- The values in the order of their digits, those of one digit in the order they had. -/
structure StableSort (digit : Value → Nat) (values sorted : List Value) : Prop where
  perm : sorted.Perm values
  ordered : sorted.Pairwise fun first second => digit first ≤ digit second
  stable : ∀ key, bucket digit key sorted = bucket digit key values

theorem stableSort_bucketSort (bounded : ∀ value ∈ values, digit value < radix) :
    StableSort digit values (bucketSort digit radix values) := by
  constructor
  · exact bucketSort_perm bounded
  · have anyOrder : values.Pairwise fun _ _ => True := List.pairwise_of_forall fun _ _ => trivial
    exact (bucketSort_pairwise anyOrder).imp fun ordered => by omega
  · intro key
    rw [bucket_bucketSort]
    split
    · rfl
    · symm
      rw [bucket, List.filter_eq_nil_iff]
      intro value member
      have small := bounded value member
      simp only [decide_eq_true_eq]
      omega

theorem filter_below_succ (ordered : values.Pairwise fun first second => digit first ≤ digit second) :
    (values.filter fun value => digit value < key + 1) =
      (values.filter fun value => digit value < key) ++ bucket digit key values := by
  induction values with
  | nil => rfl
  | cons first rest ih =>
    obtain ⟨least, ordered⟩ := List.pairwise_cons.mp ordered
    have later := ih ordered
    unfold bucket at later ⊢
    simp only [List.filter_cons, decide_eq_true_eq]
    by_cases smaller : digit first < key
    · have other : digit first ≠ key := by omega
      rw [if_pos (by omega), if_pos smaller, if_neg other, later, List.cons_append]
    · have none_below : (rest.filter fun value => digit value < key) = [] := by
        rw [List.filter_eq_nil_iff]
        intro value member
        have := least value member
        rw [decide_eq_true_eq]
        omega
      rw [none_below, List.nil_append] at later
      rw [if_neg smaller, none_below, later, List.nil_append]
      by_cases equal : digit first = key
      · rw [if_pos (by omega), if_pos equal]
      · rw [if_neg (by omega), if_neg equal]

theorem bucketSort_eq_self (ordered : values.Pairwise fun first second => digit first ≤ digit second)
    (bounded : ∀ value ∈ values, digit value < radix) : bucketSort digit radix values = values := by
  have upto (key : Nat) : bucketSort digit key values = values.filter fun value => digit value < key := by
    induction key with
    | zero => simp [bucketSort]
    | succ key ih => rw [bucketSort_succ, ih, filter_below_succ ordered]
  rw [upto, List.filter_eq_self]
  simpa using bounded

theorem holds_bucketSort {heap : Heap Value} {base : Int}
    (held : ∀ key < radix, heap.Holds (base + below digit key values) (bucket digit key values)) :
    heap.Holds base (bucketSort digit radix values) := by
  induction radix with
  | zero => simp [bucketSort]
  | succ radix ih =>
    rw [bucketSort_succ, Heap.holds_append, bucketSort_length]
    exact ⟨ih fun key small => held key (by omega), held radix (by omega)⟩

end Mbench.Library
