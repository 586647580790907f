import Mathlib.Data.List.Chain
import Mathlib.Data.List.Sort

/-!
# Layers removed in a fixed order

`shed order l` goes once through `order` and takes each of its elements off the front of `l` if it is
there. What goes is a block that is ordered as `order` is (`exists_append_shed`), and such a block goes
as a whole (`shed_append`). In a list that `Ascends`, neighbours of `order` stand in that order, so
one pass takes all elements of `order` that stand at the front (`Ascends.shed_eq`).
-/

namespace Whatsvelte

open List

variable {α : Type} [DecidableEq α] {order l block rest : List α} {a : α}

/-- The list without `a` at the front. -/
def shedOne (l : List α) (a : α) : List α := if l.head? = some a then l.tail else l

/-- One pass over `order`. -/
def shed (order l : List α) : List α := order.foldl shedOne l

theorem shedOne_cons_self (a : α) (l : List α) : shedOne (a :: l) a = l := if_pos rfl

theorem shedOne_of_head?_ne (h : l.head? ≠ some a) : shedOne l a = l := if_neg h

/-- What one pass removes is a sublist of the order. -/
theorem exists_append_shed (order l : List α) : ∃ block, block.Sublist order ∧ l = block ++ shed order l := by
  induction order generalizing l with
  | nil => exact ⟨[], List.Sublist.slnil, rfl⟩
  | cons a order ih =>
    obtain ⟨block, hblock, heq⟩ := ih (shedOne l a)
    by_cases h : l.head? = some a
    · obtain ⟨l, rfl⟩ := List.head?_eq_some_iff.1 h
      rw [shedOne_cons_self] at heq
      refine ⟨a :: block, hblock.cons_cons a, ?_⟩
      rw [shed, foldl_cons, shedOne_cons_self]
      exact congrArg (a :: ·) heq
    · rw [shedOne_of_head?_ne h] at heq
      refine ⟨block, hblock.cons a, ?_⟩
      rwa [shed, foldl_cons, shedOne_of_head?_ne h]

/-- A block that is ordered as the order is goes as a whole. -/
theorem shed_append (horder : order.Nodup) (hblock : block.Sublist order)
    (hrest : ∀ a ∈ rest.head?, a ∉ order) : shed order (block ++ rest) = rest := by
  induction hblock with
  | slnil => rfl
  | @cons block order a hblock ih =>
    obtain ⟨ha, horder⟩ := nodup_cons.1 horder
    have hhead : (block ++ rest).head? ≠ some a := by
      intro h
      cases block with
      | nil => exact hrest a h mem_cons_self
      | cons =>
        cases h
        exact ha (hblock.subset mem_cons_self)
    rw [shed, foldl_cons, shedOne_of_head?_ne hhead]
    exact ih horder fun b hb hmem => hrest b hb (mem_cons_of_mem _ hmem)
  | @cons_cons block order a hblock ih =>
    obtain ⟨ha, horder⟩ := nodup_cons.1 horder
    rw [shed, foldl_cons, cons_append, shedOne_cons_self]
    exact ih horder fun b hb hmem => hrest b hb (mem_cons_of_mem _ hmem)

/-! ## Ascending neighbours -/

/-- Neighbours that are both of `order` stand in its order. -/
def Ascends (order l : List α) : Prop :=
  l.IsChain fun a b => a ∈ order → b ∈ order → order.idxOf a < order.idxOf b

theorem pairwise_idxOf (horder : order.Nodup) : order.Pairwise fun a b => order.idxOf a < order.idxOf b := by
  rw [pairwise_iff_getElem]
  intro i j hi hj hij
  rwa [horder.idxOf_getElem i hi, horder.idxOf_getElem j hj]

theorem ascends_of_sublist (horder : order.Nodup) (h : l.Sublist order) : Ascends order l :=
  (((pairwise_idxOf horder).sublist h).imp fun hlt _ _ => hlt).isChain

/-- A list of elements of the order that ascends is a sublist of it. -/
theorem Ascends.sublist (horder : order.Nodup) (h : Ascends order l) (hmem : ∀ a ∈ l, a ∈ order) :
    l.Sublist order := by
  have hpair : l.Pairwise fun a b => order.idxOf a < order.idxOf b :=
    isChain_iff_pairwise.1 (h.imp_of_mem_imp fun a b ha hb hlt => hlt (hmem a ha) (hmem b hb))
  have hnodup : l.Nodup := hpair.imp fun {a b} hlt heq => (Nat.ne_of_lt hlt) (congrArg order.idxOf heq)
  exact sublist_of_subperm_of_pairwise (subperm_of_subset hnodup hmem) hpair (pairwise_idxOf horder)

/-- An element that is not of the order parts the list in two. -/
theorem ascends_append_cons (ha : a ∉ order) :
    Ascends order (l ++ a :: rest) ↔ Ascends order l ∧ Ascends order rest := by
  unfold Ascends
  rw [isChain_append, isChain_cons]
  constructor
  · rintro ⟨hl, ⟨-, hrest⟩, -⟩
    exact ⟨hl, hrest⟩
  · rintro ⟨hl, hrest⟩
    refine ⟨hl, ⟨fun b _ hmem => absurd hmem ha, hrest⟩, fun b _ c hc _ hmem => ?_⟩
    cases hc
    exact absurd hmem ha

/-- **One pass over an ascending list** takes every element of the order off the front. -/
theorem Ascends.shed_eq (horder : order.Nodup) (h : Ascends order l) :
    shed order l = l.dropWhile (· ∈ order) := by
  have hsplit := takeWhile_append_dropWhile (p := (· ∈ order)) (l := l)
  have hblock : (l.takeWhile (· ∈ order)).Sublist order := by
    rw [← hsplit] at h
    refine Ascends.sublist horder (List.IsChain.left_of_append h) fun a ha => ?_
    exact of_decide_eq_true (all_eq_true.1 all_takeWhile a ha)
  have hrest : ∀ a ∈ (l.dropWhile (· ∈ order)).head?, a ∉ order := by
    intro a ha
    have := head?_dropWhile_not (· ∈ order) l
    rw [Option.mem_def.1 ha] at this
    exact of_decide_eq_false this
  have hshed := shed_append horder hblock hrest
  rwa [hsplit] at hshed

end Whatsvelte
