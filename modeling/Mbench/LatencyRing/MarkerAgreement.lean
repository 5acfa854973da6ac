import Mbench.LatencyRing.BaseCount
import Mbench.LatencyRing.ZeroMarker

/-! The rings of the two marks over the same draws. Both are what the draws used determine;
the copies differ in how many draws they use, since only the one that marks a free segment
by the address of the first segment accepts every draw of that segment at the start. -/

namespace Mbench.LatencyRing
open Library

/-! The draws alone. -/

/-- The segments on the chain and the redraws of a newest one: the accepted draws under the
mark zero, plus one. -/
def progress (nSegs : Nat) (draws : List UInt64) : Nat :=
  (history nSegs draws).dedup.length + tailRedraws (history nSegs draws)

/-- Whether a draw selects the newest segment of the chain while that has been drawn only
once. -/
def RedrawsNewest (nSegs : Nat) (read : List UInt64) (rnd : UInt64) : Prop :=
  (history nSegs read).dedup.head? = some (segment nSegs rnd) ∧ (history nSegs read).count (segment nSegs rnd) = 1

/-- The draws over which the two marks give the same ring. -/
def MarkersAgree (nSegs : Nat) (draws : List UInt64) : Prop :=
  nSegs = 1 ∨ leadingFirst nSegs draws ≤ 1 ∨
    leadingFirst nSegs draws = 2 ∧ ∃ read rnd unread, draws = read ++ rnd :: unread ∧
      progress nSegs read = nSegs ∧ RedrawsNewest nSegs read rnd

section
variable {nSegs : Nat} {read later first second draws : List UInt64} {rnd : UInt64}

theorem history_append (nSegs : Nat) (read later : List UInt64) :
    history nSegs (read ++ later) = (later.map (segment nSegs)).reverse ++ history nSegs read := by
  rw [history, history, List.map_append, List.reverse_append, List.append_assoc]

theorem history_chain (nSegs : Nat) (read : List UInt64) : ∃ last older, (history nSegs read).dedup = last :: older := by
  have member : 0 ∈ (history nSegs read).dedup := List.mem_dedup.mpr (mem_history.mpr (Or.inl rfl))
  exact List.exists_cons_of_ne_nil (List.ne_nil_of_mem member)

theorem tailRedraws_concat (redraws : RedrawsNewest nSegs read rnd) :
    tailRedraws (history nSegs (read ++ [rnd])) = tailRedraws (history nSegs read) + 1 := by
  unfold RedrawsNewest at redraws
  rw [history_concat, tailRedraws, if_pos redraws]

theorem chain_length_mono (nSegs : Nat) (read later : List UInt64) :
    (history nSegs read).dedup.length ≤ (history nSegs (read ++ later)).dedup.length := by
  rw [history_append]
  exact (dedup_suffix _ _).length_le

theorem tailRedraws_later (nSegs : Nat) (read later : List UInt64) :
    tailRedraws (history nSegs read) ≤ tailRedraws (history nSegs (read ++ later)) := by
  rw [history_append]
  exact tailRedraws_mono _ _

theorem progress_mono (nSegs : Nat) (read later : List UInt64) : progress nSegs read ≤ progress nSegs (read ++ later) :=
  Nat.add_le_add (chain_length_mono nSegs read later) (tailRedraws_later nSegs read later)

theorem chain_of_progress (same : progress nSegs (read ++ later) = progress nSegs read) :
    (history nSegs (read ++ later)).dedup = (history nSegs read).dedup := by
  have longer := chain_length_mono nSegs read later
  have redrawn := tailRedraws_later nSegs read later
  unfold progress at same
  have suffix : (history nSegs read).dedup <:+ (history nSegs (read ++ later)).dedup := by
    rw [history_append]
    exact dedup_suffix _ _
  exact (suffix.eq_of_length (by omega)).symm

theorem chain_of_prefixes (start : first <+: draws) (other : second <+: draws)
    (same : progress nSegs first = progress nSegs second) :
    (history nSegs first).dedup = (history nSegs second).dedup := by
  rcases List.prefix_or_prefix_of_prefix start other with ⟨later, rfl⟩ | ⟨later, rfl⟩
  · exact (chain_of_progress same.symm).symm
  · exact chain_of_progress same

theorem tailRedraws_atMost (same : (history nSegs (read ++ later)).dedup = (history nSegs read).dedup) :
    tailRedraws (history nSegs (read ++ later)) ≤ tailRedraws (history nSegs read) + 1 := by
  obtain ⟨last, older, chain⟩ := history_chain nSegs read
  rw [history_append] at same ⊢
  have balance := tailRedraws_same _ chain same
  split at balance <;> split at balance <;> omega

theorem exists_redraw (more : tailRedraws (history nSegs read) < tailRedraws (history nSegs (read ++ later))) :
    ∃ before rnd after, later = before ++ rnd :: after ∧ RedrawsNewest nSegs (read ++ before) rnd := by
  induction later using List.reverseRecOn with
  | nil =>
    rw [List.append_nil] at more
    exact absurd more (Nat.lt_irrefl _)
  | append_singleton later rnd ih =>
    by_cases redraws : RedrawsNewest nSegs (read ++ later) rnd
    · exact ⟨later, rnd, [], rfl, redraws⟩
    · have same : tailRedraws (history nSegs (read ++ (later ++ [rnd]))) =
          tailRedraws (history nSegs (read ++ later)) := by
        unfold RedrawsNewest at redraws
        rw [← List.append_assoc, history_concat, tailRedraws, if_neg redraws]
        rfl
      obtain ⟨before, drawn, after, split, counted⟩ := ih (same ▸ more)
      exact ⟨before, drawn, after ++ [rnd], by rw [split, List.append_assoc, List.cons_append], counted⟩

theorem leadingFirst_append (nSegs : Nat) (read later : List UInt64) :
    leadingFirst nSegs read ≤ leadingFirst nSegs (read ++ later) ∧
      ((∀ rnd ∈ read, segment nSegs rnd = 0) ∨ leadingFirst nSegs (read ++ later) = leadingFirst nSegs read) := by
  unfold leadingFirst
  rw [List.takeWhile_append]
  by_cases whole : (read.takeWhile fun rnd => segment nSegs rnd = 0).length = read.length
  · have all := (List.takeWhile_prefix fun rnd => decide (segment nSegs rnd = 0)).eq_of_length whole
    rw [if_pos whole, List.length_append, whole]
    exact ⟨Nat.le_add_right _ _, Or.inl fun rnd member => by simpa using List.takeWhile_eq_self_iff.mp all rnd member⟩
  · rw [if_neg whole]
    exact ⟨Nat.le_refl _, Or.inr rfl⟩

theorem progress_all (every : ∀ rnd ∈ read, segment nSegs rnd = 0) :
    (history nSegs read).dedup = [0] ∧ progress nSegs read ≤ 2 := by
  have alone : (history nSegs read).dedup = [0] := by
    have zeros : ∀ index ∈ (history nSegs read).dedup, index = 0 := by
      intro index member
      rcases mem_history.mp (List.mem_dedup.mp member) with zero | ⟨rnd, drawn, same⟩
      · exact zero
      · exact same.symm.trans (every rnd drawn)
    have some : 0 ∈ (history nSegs read).dedup := List.mem_dedup.mpr (mem_history.mpr (Or.inl rfl))
    rw [List.eq_replicate_of_mem zeros]
    have once := List.nodup_replicate.mp (List.eq_replicate_of_mem zeros ▸ (history nSegs read).nodup_dedup)
    have positive := List.length_pos_of_mem some
    rw [show (history nSegs read).dedup.length = 1 by omega]
    rfl
  have redraws := (tailRedraws_le (history nSegs read)).1
  unfold progress
  rw [alone, List.length_singleton] at redraws ⊢
  exact ⟨rfl, by omega⟩

/-- The draws that the run under the mark zero and the one under the base mark use, when both
leave through the loop condition. -/
structure BothFinish (nSegs : Nat) (draws first second : List UInt64) : Prop where
  zeroUsed : first <+: draws
  baseUsed : second <+: draws
  zeroCounted : progress nSegs first = nSegs + 1
  baseCounted : progress nSegs second + (leadingFirst nSegs second - 1) = nSegs + 1

/-- With at most one draw of the first segment at the start, both marks use the same draws
as far as the chain is concerned. -/
theorem BothFinish.few (both : BothFinish nSegs draws first second) (few : leadingFirst nSegs second ≤ 1) :
    (history nSegs first).dedup = (history nSegs second).dedup ∧ (nSegs ≤ 1 ∨ leadingFirst nSegs draws ≤ 1) := by
  obtain ⟨zeroUsed, baseUsed, zeroCounted, baseCounted⟩ := both
  refine ⟨chain_of_prefixes zeroUsed baseUsed (by omega), ?_⟩
  obtain ⟨unread, rfl⟩ := baseUsed
  rcases (leadingFirst_append nSegs second unread).2 with every | same
  · have counted := (progress_all every).2
    omega
  · omega

/-- With two or more, the mark zero takes more draws to finish. They add no segment only if
all that they count is one redraw of the newest segment. -/
theorem BothFinish.agree_of_chains (both : BothFinish nSegs draws first second) (several : 2 ≤ nSegs)
    (many : 2 ≤ leadingFirst nSegs second) (same : (history nSegs first).dedup = (history nSegs second).dedup) :
    leadingFirst nSegs draws = 2 ∧ ∃ read rnd unread, draws = read ++ rnd :: unread ∧
      progress nSegs read = nSegs ∧ RedrawsNewest nSegs read rnd := by
  obtain ⟨zeroUsed, baseUsed, zeroCounted, baseCounted⟩ := both
  have length := congrArg List.length same
  rcases List.prefix_or_prefix_of_prefix zeroUsed baseUsed with ⟨later, rfl⟩ | ⟨later, rfl⟩
  · have redrawn := tailRedraws_later nSegs first later
    unfold progress at zeroCounted baseCounted
    omega
  · have atMost := tailRedraws_atMost same
    have more : tailRedraws (history nSegs second) < tailRedraws (history nSegs (second ++ later)) := by
      unfold progress at zeroCounted baseCounted
      omega
    have two : leadingFirst nSegs second = 2 := by
      unfold progress at zeroCounted baseCounted
      omega
    obtain ⟨before, rnd, after, rfl, redraws⟩ := exists_redraw more
    obtain ⟨unread, rfl⟩ := zeroUsed
    constructor
    · have spread : second ++ (before ++ rnd :: after) ++ unread = second ++ (before ++ rnd :: after ++ unread) :=
        List.append_assoc ..
      rw [spread]
      rcases (leadingFirst_append nSegs second (before ++ rnd :: after ++ unread)).2 with every | kept
      · have alone := (progress_all every).1
        have redrawn := (tailRedraws_le (history nSegs (second ++ (before ++ rnd :: after)))).1
        rw [same, alone, List.length_singleton] at redrawn
        rw [progress, same, alone, List.length_singleton] at zeroCounted
        omega
      · rw [kept, two]
    · refine ⟨second ++ before, rnd, after ++ unread, by simp, ?_, redraws⟩
      have early := progress_mono nSegs second before
      have upTo := tailRedraws_concat redraws
      have chainUpTo := chain_length_mono nSegs (second ++ before) [rnd]
      have late := progress_mono nSegs (second ++ before ++ [rnd]) after
      have spread : second ++ before ++ [rnd] ++ after = second ++ (before ++ rnd :: after) := by simp
      rw [spread, zeroCounted] at late
      have step : progress nSegs (second ++ before) + 1 ≤ progress nSegs (second ++ before ++ [rnd]) := by
        unfold progress
        omega
      omega

theorem BothFinish.chains_of_agree (both : BothFinish nSegs draws first second) (many : 2 ≤ leadingFirst nSegs second)
    (two : leadingFirst nSegs draws = 2) {unread : List UInt64} (split : draws = read ++ rnd :: unread)
    (counted : progress nSegs read = nSegs) (redraws : RedrawsNewest nSegs read rnd) :
    (history nSegs first).dedup = (history nSegs second).dedup := by
  obtain ⟨zeroUsed, baseUsed, zeroCounted, baseCounted⟩ := both
  have exactly : leadingFirst nSegs second = 2 := by
    obtain ⟨rest, rfl⟩ := baseUsed
    have atMost := (leadingFirst_append nSegs second rest).1
    omega
  have onChain : segment nSegs rnd ∈ history nSegs read := by
    rw [← List.count_pos_iff, redraws.2]
    exact Nat.one_pos
  have kept : (history nSegs (read ++ [rnd])).dedup = (history nSegs read).dedup := by
    rw [history_concat, List.dedup_cons_of_mem onChain]
  have next : progress nSegs (read ++ [rnd]) = nSegs + 1 := by
    unfold progress at counted ⊢
    rw [kept, tailRedraws_concat redraws]
    omega
  have upTo : read ++ [rnd] <+: draws := ⟨unread, by rw [split, List.append_assoc, List.singleton_append]⟩
  have before : read <+: draws := ⟨rnd :: unread, split.symm⟩
  calc (history nSegs first).dedup
      = (history nSegs (read ++ [rnd])).dedup := chain_of_prefixes zeroUsed upTo (zeroCounted.trans next.symm)
    _ = (history nSegs read).dedup := kept
    _ = (history nSegs second).dedup := chain_of_prefixes before baseUsed (by omega)

theorem BothFinish.chains_agree_iff (both : BothFinish nSegs draws first second) (positive : 1 ≤ nSegs) :
    (history nSegs first).dedup = (history nSegs second).dedup ↔ MarkersAgree nSegs draws := by
  by_cases few : leadingFirst nSegs second ≤ 1
  · obtain ⟨same, short⟩ := both.few few
    refine iff_of_true same (short.imp (fun one => by omega) Or.inl)
  · have many : 2 ≤ leadingFirst nSegs second := by omega
    by_cases one : nSegs = 1
    · subst one
      have zero : ∀ read : List UInt64, ∀ rnd ∈ read, segment 1 rnd = 0 := fun _ rnd _ => Nat.mod_one _
      exact iff_of_true ((progress_all (zero first)).1.trans (progress_all (zero second)).1.symm) (Or.inl rfl)
    · constructor
      · exact fun same => Or.inr (Or.inr (both.agree_of_chains (by omega) many same))
      · rintro (single | short | ⟨two, read, rnd, unread, split, counted, redraws⟩)
        · exact absurd single one
        · obtain ⟨rest, rfl⟩ := both.baseUsed
          have atMost := (leadingFirst_append nSegs second rest).1
          omega
        · exact both.chains_of_agree many two split counted redraws

end

/-! The runs. -/

theorem RingAt.unique {heap : Heap UInt8} {addr segSize : Nat} {first second : List Nat} (positive : 0 < segSize)
    (ring : RingAt heap addr segSize first) (other : RingAt heap addr segSize second) : first = second := by
  have perm := (List.perm_ext_iff_of_nodup ring.nodup other.nodup).mpr fun index =>
    ⟨fun member => ring.subset positive other member, fun member => other.subset positive ring member⟩
  apply List.ext_getElem perm.length_eq
  intro hops inside within
  have here := ring.chase hops
  rw [other.chase hops, Nat.mod_eq_of_lt inside, Nat.mod_eq_of_lt within, List.getElem?_eq_getElem inside,
    List.getElem?_eq_getElem within, Option.map_some, Option.map_some, Option.some.injEq] at here
  exact (Nat.eq_of_mul_eq_mul_right positive (Nat.add_left_cancel here)).symm

section
variable {addr segSize nSegs empty : Nat} {giveUp : Nat → Bool} {heap : Heap UInt8} {draws used : List UInt64}
  {linked : List Nat} {before : Setup} {links : Nat → Nat} {last : Nat} {older : List Nat}

theorem zero_finishes (area : Area addr segSize nSegs empty) (marked : heap.Row addr segSize nSegs fun _ => empty)
    (distinct : addr ≠ empty) {final : Setup} {unread : List UInt64}
    (run : (do
      let outcome ← drawLoop addr segSize nSegs empty giveUp (startSetup heap addr) draws
      makeRing addr outcome) = some (.left final false unread)) :
    ∃ used, used <+: draws ∧ RingAt final.heap addr segSize (history nSegs used).dedup.reverse ∧
      progress nSegs used = nSegs + 1 := by
  obtain ⟨middle, ran, closed⟩ := Option.bind_eq_some_iff.mp run
  obtain ⟨before, heap, rfl, stored, rfl⟩ := makeRing_left closed
  obtain ⟨used, split, ⟨linked, links, last, older, linking⟩, finished⟩ := linking_keeps area marked ran
  refine ⟨used, ⟨unread, split.symm⟩, (linking.closes area stored).round, ?_⟩
  have counted := linking.counted (by rwa [place_zero])
  have atMost := linking.atMost
  have atLeast : nSegs ≤ before.nDone := finished
  rw [progress, linking.chain]
  omega

theorem base_finishes (area : Area addr segSize nSegs addr) (marked : heap.Row addr segSize nSegs fun _ => addr)
    {final : Setup} {unread : List UInt64}
    (run : (do
      let outcome ← drawLoop addr segSize nSegs addr giveUp (startSetup heap addr) draws
      makeRing addr outcome) = some (.left final false unread)) :
    ∃ used, used <+: draws ∧ RingAt final.heap addr segSize (history nSegs used).dedup.reverse ∧
      progress nSegs used + (leadingFirst nSegs used - 1) = nSegs + 1 := by
  obtain ⟨used, linked, split, made, atMost, counted, finished⟩ := base_leaves area giveUp marked run
  refine ⟨used, ⟨unread, split.symm⟩, made.round, ?_⟩
  have atLeast : nSegs ≤ final.nDone := finished
  unfold progress
  omega

end

/-- A chase from `addr` goes round the same ring of segments in both memories. -/
def SameCycle (addr segSize : Nat) (first second : Heap UInt8) : Prop :=
  ∃ ring, RingAt first addr segSize ring ∧ RingAt second addr segSize ring

theorem sameCycle_iff (aboveRatio : Nat → Nat → Bool) {heap : Heap UInt8} {addr size segSize : Nat}
    (nonnull : 0 < addr) (wide : 8 ≤ segSize) (segments : 1 ≤ size / segSize)
    (fits : addr + size / segSize * segSize ≤ 2 ^ 64)
    (zeroed : heap.Holds addr (List.replicate (size / segSize * segSize) 0)) {draws : List UInt64}
    {zeroFinal baseFinal : Setup} {zeroUnread baseUnread : List UInt64}
    (zeroRun : SimpleMemLatChecker.setupRnd aboveRatio heap addr size segSize draws =
      some (.left zeroFinal false zeroUnread))
    (baseRun : ParallelCacheMiss.setupRnd aboveRatio heap addr size segSize draws =
      some (.left baseFinal false baseUnread)) :
    SameCycle addr segSize zeroFinal.heap baseFinal.heap ↔ MarkersAgree (size / segSize) draws := by
  have allocated := zeroed.allocated
  rw [List.length_replicate] at allocated
  have area : Area addr segSize (size / segSize) addr := area_base wide segments fits
  obtain ⟨cleared, marked, run⟩ := setupRnd_cleared area allocated
  rw [run] at baseRun
  obtain ⟨first, zeroUsed, zeroRing, zeroCounted⟩ := zero_finishes (area_zero wide segments fits)
    (Heap.row_of_zeros wide zeroed) (Nat.ne_of_gt nonnull) zeroRun
  obtain ⟨second, baseUsed, baseRing, baseCounted⟩ := base_finishes area marked baseRun
  have both : BothFinish (size / segSize) draws first second := ⟨zeroUsed, baseUsed, zeroCounted, baseCounted⟩
  rw [← both.chains_agree_iff segments]
  constructor
  · intro ⟨ring, zeroSame, baseSame⟩
    have positive : 0 < segSize := by omega
    have chains := (zeroRing.unique positive zeroSame).trans (baseRing.unique positive baseSame).symm
    exact List.reverse_injective chains
  · intro same
    exact ⟨_, zeroRing, same ▸ baseRing⟩

/-- The two copies of `setup_rnd` build the same ring over the same draws exactly when at most
one draw selects the first segment before any draw selects another, or two do and the
last draw that the mark zero needs is one that the base mark has no use for. -/
theorem setupRnd_markersAgree_iff (aboveRatio : Nat → Nat → Bool) (heap : Heap UInt8) (addr size segSize : Nat)
    (nonnull : 0 < addr) (wide : 8 ≤ segSize) (segments : 1 ≤ size / segSize)
    (fits : addr + size / segSize * segSize ≤ 2 ^ 64)
    (zeroed : heap.Holds addr (List.replicate (size / segSize * segSize) 0)) (draws : List UInt64)
    (zeroFinal baseFinal : Setup) (zeroUnread baseUnread : List UInt64)
    (zeroRun : SimpleMemLatChecker.setupRnd aboveRatio heap addr size segSize draws =
      some (.left zeroFinal false zeroUnread))
    (baseRun : ParallelCacheMiss.setupRnd aboveRatio heap addr size segSize draws =
      some (.left baseFinal false baseUnread)) :
    SameCycle addr segSize zeroFinal.heap baseFinal.heap ↔ MarkersAgree (size / segSize) draws :=
  sameCycle_iff aboveRatio nonnull wide segments fits zeroed zeroRun baseRun

theorem setupRnd_markersAgree_iff_three :
    ∃ zeroFinal baseFinal,
      SimpleMemLatChecker.setupRnd (fun _ _ => false) threeSegments 64 24 8 [1, 2, 2] = some (.left zeroFinal false []) ∧
      ParallelCacheMiss.setupRnd (fun _ _ => false) threeSegments 64 24 8 [1, 2, 2] = some (.left baseFinal false []) ∧
      (SameCycle 64 8 zeroFinal.heap baseFinal.heap ↔ MarkersAgree (24 / 8) [1, 2, 2]) :=
  ⟨_, _, rfl, rfl, setupRnd_markersAgree_iff (fun _ _ => false) threeSegments 64 24 8 (by decide) (by decide) (by decide)
    (by decide) Heap.holds_splice_self [1, 2, 2] _ _ [] [] rfl rfl⟩

/-- Three draws of the first segment before the others: the base mark accepts them all and is
done with a ring of that segment alone. -/
theorem setupRnd_markersDisagree :
    ∃ zeroFinal baseFinal,
      SimpleMemLatChecker.setupRnd (fun _ _ => false) threeSegments 64 24 8 [0, 0, 0, 1, 2] =
        some (.left zeroFinal false []) ∧
      ParallelCacheMiss.setupRnd (fun _ _ => false) threeSegments 64 24 8 [0, 0, 0, 1, 2] =
        some (.left baseFinal false [1, 2]) ∧
      ¬SameCycle 64 8 zeroFinal.heap baseFinal.heap := by
  have zeroed : threeSegments.Holds 64 (List.replicate (24 / 8 * 8) 0) := Heap.holds_splice_self
  obtain ⟨zeroFinal, zeroRun⟩ : ∃ zeroFinal, SimpleMemLatChecker.setupRnd (fun _ _ => false) threeSegments 64 24 8
      [0, 0, 0, 1, 2] = some (.left zeroFinal false []) := ⟨_, rfl⟩
  obtain ⟨baseFinal, baseRun⟩ : ∃ baseFinal, ParallelCacheMiss.setupRnd (fun _ _ => false) threeSegments 64 24 8
      [0, 0, 0, 1, 2] = some (.left baseFinal false [1, 2]) := ⟨_, rfl⟩
  refine ⟨zeroFinal, baseFinal, zeroRun, baseRun, fun same => ?_⟩
  have leading : leadingFirst (24 / 8) [0, 0, 0, 1, 2] = 3 := by decide
  rcases (sameCycle_iff (fun _ _ => false) (by decide) (by decide) (by decide) (by decide) zeroed zeroRun baseRun).mp
    same with one | few | ⟨two, _⟩
  · exact absurd one (by decide)
  · rw [leading] at few
    omega
  · rw [leading] at two
    omega

end Mbench.LatencyRing
