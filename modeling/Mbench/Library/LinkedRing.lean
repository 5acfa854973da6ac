import Mathlib.Data.List.Chain
import Mathlib.Data.List.Dedup

/-! Nodes linked one after the other into a ring. Each node has a place, which is what a
link names, and one link; a mark stands for a link not yet made. The last node of a chain
is either still marked or links to itself, and closing the chain links it to the first. -/

namespace Mbench.Library

variable {Node Place : Type} {place : Node → Place} {mark : Place} {links : Node → Place}
  {first last node : Node} {older : List Node}

structure Chained (place : Node → Place) (mark : Place) (first : Node) (links : Node → Place) (last : Node)
    (older : List Node) : Prop where
  nodup : (last :: older).Nodup
  start : (last :: older).getLast? = some first
  linked : (last :: older).IsChain fun newer older => links older = place newer
  tail : links last = mark ∨ links last = place last
  free : ∀ node, node ∉ last :: older → links node = mark

structure Ring (place : Node → Place) (first : Node) (links : Node → Place) (nodes : List Node) : Prop where
  nodup : nodes.Nodup
  start : nodes.head? = some first
  linked : ∀ index (inside : index < nodes.length) (next : (index + 1) % nodes.length < nodes.length),
    links nodes[index] = place nodes[(index + 1) % nodes.length]

theorem Ring.successor {nodes : List Node} (ring : Ring place first links nodes) (member : node ∈ nodes) :
    ∃ next ∈ nodes, links node = place next := by
  obtain ⟨index, inside, rfl⟩ := List.getElem_of_mem member
  have next : (index + 1) % nodes.length < nodes.length := Nat.mod_lt _ (by omega)
  exact ⟨_, List.getElem_mem next, ring.linked index inside next⟩

theorem Chained.single (free : ∀ node, links node = mark) : Chained place mark first links first [] where
  nodup := List.nodup_singleton first
  start := rfl
  linked := List.isChain_singleton first
  tail := Or.inl (free first)
  free := fun node _ => free node

theorem Chained.occupied (chained : Chained place mark first links last older)
    (marks : ∀ node, node ≠ first → place node ≠ mark) (member : node ∈ older) : links node ≠ mark := by
  obtain ⟨nodup, start, linked, -, -⟩ := chained
  induction older generalizing last with
  | nil => cases member
  | cons next older ih =>
    have lastNotFirst : last ≠ first := by
      intro same
      rw [List.getLast?_cons_cons] at start
      have inside : first ∈ next :: older := List.mem_of_getLast? start
      exact (List.nodup_cons.mp nodup).1 (same ▸ inside)
    rw [List.isChain_cons_cons] at linked
    rcases List.mem_cons.mp member with same | later
    · rw [same, linked.1]
      exact marks last lastNotFirst
    · exact ih later (List.nodup_cons.mp nodup).2 (by rwa [List.getLast?_cons_cons] at start) linked.2

variable [DecidableEq Node]

theorem isChain_update (target : Place) (nodup : (last :: older).Nodup)
    (linked : (last :: older).IsChain fun newer older => links older = place newer) :
    (last :: older).IsChain fun newer older => Function.update links last target older = place newer := by
  cases older with
  | nil => exact List.isChain_singleton last
  | cons next older =>
    have absent := (List.nodup_cons.mp nodup).1
    rw [List.isChain_cons_cons] at linked ⊢
    refine ⟨by rw [Function.update_of_ne (by rintro rfl; simp at absent)]; exact linked.1, ?_⟩
    refine List.IsChain.imp_of_mem_imp (fun newer older _ member kept => ?_) linked.2
    rw [Function.update_of_ne (by rintro rfl; exact absent member)]
    exact kept

theorem Chained.linkNew (chained : Chained place mark first links last older) (fresh : node ∉ last :: older) :
    Chained place mark first (Function.update links last (place node)) node (last :: older) where
  nodup := List.nodup_cons.mpr ⟨fresh, chained.nodup⟩
  start := by rw [List.getLast?_cons_cons]; exact chained.start
  linked := by
    rw [List.isChain_cons_cons, Function.update_self]
    exact ⟨rfl, isChain_update _ chained.nodup chained.linked⟩
  tail := by
    have other : node ≠ last := by rintro rfl; simp at fresh
    rw [Function.update_of_ne other]
    exact Or.inl (chained.free node fresh)
  free := by
    intro other absent
    rw [List.mem_cons, not_or] at absent
    rw [Function.update_of_ne (by rintro rfl; simp at absent)]
    exact chained.free other absent.2

theorem Chained.linkSelf (chained : Chained place mark first links last older) :
    Chained place mark first (Function.update links last (place last)) last older where
  nodup := chained.nodup
  start := chained.start
  linked := isChain_update _ chained.nodup chained.linked
  tail := Or.inr (Function.update_self ..)
  free := by
    intro other absent
    rw [Function.update_of_ne (by rintro rfl; simp at absent)]
    exact chained.free other absent

theorem Chained.close (chained : Chained place mark first links last older) :
    Ring place first (Function.update links last (place first)) (last :: older).reverse where
  nodup := List.nodup_reverse.mpr chained.nodup
  start := by rw [List.head?_reverse]; exact chained.start
  linked := by
    have linked := isChain_update (place first) chained.nodup chained.linked
    rw [← List.reverse_reverse (last :: older), List.isChain_reverse, List.isChain_iff_getElem] at linked
    intro index inside next
    by_cases final : index + 1 < (last :: older).reverse.length
    · simp only [Nat.mod_eq_of_lt final]
      exact linked index final
    · have wraps : index + 1 = (last :: older).reverse.length := by omega
      have lastHere : (last :: older).reverse[index] = last := by
        have place : index = older.length := by simpa using wraps
        simp [place]
      have nonempty : 0 < (last :: older).reverse.length := by simp
      have firstThere : (last :: older).reverse[0] = first := by
        have start := chained.start
        rw [← List.head?_reverse, List.head?_eq_getElem?, List.getElem?_eq_getElem (by simp)] at start
        exact Option.some.inj start
      simp only [wraps, Nat.mod_self, lastHere, firstThere, Function.update_self]

theorem Chained.close_free (chained : Chained place mark first links last older) (absent : node ∉ last :: older)
    (target : Place) : Function.update links last target node = mark := by
  rw [Function.update_of_ne (by rintro rfl; simp at absent)]
  exact chained.free node absent

end Mbench.Library
