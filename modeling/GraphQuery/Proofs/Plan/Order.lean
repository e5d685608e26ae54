import GraphQuery.Plan.Order
import Mathlib.Data.List.Basic
import Mathlib.Data.List.Chain
import Mathlib.Data.List.Induction

/-! Sorting. Whichever way items are sorted, the outcome is a rearrangement of them in which none stands directly
behind one that it belongs before, and where what belongs before what is an order, they stand in it. Items that
stand in the order already are not moved past each other, and nothing of an item counts but what belongs before
what: items can be sorted by their places. -/

namespace GraphQuery.Sort

variable {α : Type} (before : α → α → Bool)

theorem perm_insertFromEnd (item : α) (sorted : List α) :
    (insertFromEnd before item sorted).Perm (item :: sorted) := by
  induction sorted with
  | nil => exact List.Perm.refl _
  | cons last rest ih =>
      unfold insertFromEnd
      split
      · exact (ih.cons last).trans (List.Perm.swap item last rest)
      · exact List.Perm.refl _

theorem perm_inserted (items : List α) : (inserted before items).Perm items := by
  have hfold (sorted : List α) :
      (items.foldl (fun sorted item => insertFromEnd before item sorted) sorted).Perm
        (items ++ sorted) := by
    induction items generalizing sorted with
    | nil => exact List.Perm.refl _
    | cons item rest ih =>
        have hhead := (perm_insertFromEnd before item sorted).append_left rest
        exact (ih _).trans (hhead.trans List.perm_middle)
  have hall := hfold []
  rw [List.append_nil] at hall
  exact (List.reverse_perm _).trans hall

theorem perm_stable (items : List α) : (stable before items).Perm items := by
  unfold stable
  split
  · exact perm_inserted before items
  · exact List.mergeSort_perm items _

variable {before}

theorem sublist_insertFromEnd (item : α) (sorted : List α) :
    sorted.Sublist (insertFromEnd before item sorted) := by
  induction sorted with
  | nil => exact List.nil_sublist _
  | cons last rest ih =>
      rw [insertFromEnd]
      split
      · exact ih.cons_cons last
      · exact (List.Sublist.refl _).cons item

/-- An item is not put before those before which it does not belong. -/
theorem cons_sublist_insertFromEnd {item : α} {kept sorted : List α} (hkept : kept.Sublist sorted)
    (hbehind : ∀ other ∈ kept, before item other = false) :
    (item :: kept).Sublist (insertFromEnd before item sorted) := by
  induction hkept with
  | slnil => exact List.Sublist.refl _
  | @cons kept rest last hrest ih =>
      rw [insertFromEnd]
      split
      · exact (ih hbehind).cons last
      · exact (hrest.cons last).cons_cons item
  | @cons_cons kept rest last hrest _ =>
      rw [insertFromEnd, if_neg (by simp [hbehind last List.mem_cons_self])]
      exact (hrest.cons_cons last).cons_cons item

theorem sublist_inserted {kept items : List α} (hkept : kept.Sublist items)
    (hordered : kept.Pairwise fun earlier later => before later earlier = false) :
    kept.Sublist (inserted before items) := by
  rw [inserted, ← List.reverse_sublist, List.reverse_reverse]
  induction items using List.reverseRecOn generalizing kept with
  | nil =>
      rw [List.sublist_nil.mp hkept]
      exact List.nil_sublist _
  | append_singleton items item ih =>
      rw [List.foldl_append, List.foldl_cons, List.foldl_nil]
      obtain ⟨front, back, rfl, hfront, hback⟩ := List.sublist_append_iff.mp hkept
      obtain ⟨hfrontOrdered, _, hbehind⟩ := List.pairwise_append.mp hordered
      have hheld := ih hfront hfrontOrdered
      rcases List.sublist_singleton.mp hback with rfl | rfl
      · rw [List.append_nil]
        exact hheld.trans (sublist_insertFromEnd item _)
      · rw [List.reverse_append, List.reverse_singleton, List.singleton_append]
        refine cons_sublist_insertFromEnd hheld fun other hmem => ?_
        exact hbehind other (List.mem_reverse.mp hmem) item List.mem_cons_self

/-! ### What every sort sees to -/

/-- No item stands directly behind one that it belongs before. -/
def InOrder (before : α → α → Bool) (items : List α) : Prop :=
  items.IsChain fun earlier later => before later earlier = false

/-- An item that is put into a list becomes its first one or leaves the first one where it is. -/
theorem head?_insertFromEnd (item : α) (sorted : List α) :
    ∀ found ∈ (insertFromEnd before item sorted).head?, found = item ∨ found ∈ sorted.head? := by
  intro found hfound
  cases sorted with
  | nil => exact Or.inl (Option.some.inj hfound).symm
  | cons last rest =>
      rw [insertFromEnd] at hfound
      split at hfound
      · exact Or.inr hfound
      · exact Or.inl (Option.some.inj hfound).symm

section

variable (hasymm : ∀ a b, before a b = true → before b a = false)

include hasymm

theorem isChain_insertFromEnd (item : α) {sorted : List α}
    (h : sorted.IsChain fun later earlier => before later earlier = false) :
    (insertFromEnd before item sorted).IsChain fun later earlier => before later earlier = false := by
  induction sorted with
  | nil => exact List.isChain_singleton item
  | cons last rest ih =>
      obtain ⟨hlast, hrest⟩ := List.isChain_cons.mp h
      rw [insertFromEnd]
      split
      · next hbefore =>
          refine (ih hrest).cons fun found hfound => ?_
          rcases head?_insertFromEnd item rest found hfound with rfl | hhead
          · exact hasymm _ _ hbefore
          · exact hlast found hhead
      · next hbefore => exact List.isChain_cons_cons.mpr ⟨eq_false_of_ne_true hbefore, h⟩

theorem inOrder_inserted (items : List α) : InOrder before (inserted before items) := by
  rw [InOrder, inserted, List.isChain_reverse]
  refine List.foldlRecOn _ _
    (motive := List.IsChain fun later earlier => before later earlier = false) List.isChain_nil ?_
  exact fun sorted hsorted item _ => isChain_insertFromEnd hasymm item hsorted

/-- What is merged of two lists stands in order behind an item behind which both do. -/
theorem inOrder_cons_merge {last : α} {first second : List α} (hfirst : InOrder before (last :: first))
    (hsecond : InOrder before (last :: second)) :
    InOrder before (last :: first.merge second fun left right => !before right left) := by
  induction first generalizing last second with
  | nil => rwa [List.nil_merge]
  | cons x xs ih =>
      induction second generalizing last with
      | nil => rwa [List.merge_right]
      | cons y ys ihSecond =>
          obtain ⟨hx, hxs⟩ := List.isChain_cons_cons.mp hfirst
          obtain ⟨hy, hys⟩ := List.isChain_cons_cons.mp hsecond
          by_cases hbefore : before y x = true
          · rw [List.cons_merge_cons_neg _ _ _ (by simp [hbefore])]
            have hturn : InOrder before (y :: x :: xs) := hxs.cons_cons (hasymm _ _ hbefore)
            exact (ihSecond hturn hys).cons_cons hy
          · have hkept := eq_false_of_ne_true hbefore
            rw [List.cons_merge_cons_pos _ _ _ (by simp [hkept])]
            exact (ih hxs (hys.cons_cons hkept)).cons_cons hx

theorem inOrder_merge {first second : List α} (hfirst : InOrder before first)
    (hsecond : InOrder before second) :
    InOrder before (first.merge second fun left right => !before right left) := by
  cases first with
  | nil => rwa [List.nil_merge]
  | cons x xs =>
      cases second with
      | nil => rwa [List.merge_right]
      | cons y ys =>
          by_cases hbefore : before y x = true
          · rw [List.cons_merge_cons_neg _ _ _ (by simp [hbefore])]
            exact inOrder_cons_merge hasymm (hfirst.cons_cons (hasymm _ _ hbefore)) hsecond
          · have hkept := eq_false_of_ne_true hbefore
            rw [List.cons_merge_cons_pos _ _ _ (by simp [hkept])]
            exact inOrder_cons_merge hasymm hfirst (hsecond.cons_cons hkept)

theorem inOrder_mergeSort : (items : List α) →
    InOrder before (items.mergeSort fun left right => !before right left)
  | [] => by
      rw [List.mergeSort]
      exact List.isChain_nil
  | [item] => by
      rw [List.mergeSort]
      exact List.isChain_singleton item
  | first :: second :: rest => by
      rw [List.mergeSort]
      exact inOrder_merge hasymm (inOrder_mergeSort _) (inOrder_mergeSort _)
termination_by items => items.length

/-- Either way of sorting leaves no item directly behind one that it belongs before. -/
theorem inOrder_stable (items : List α) : InOrder before (stable before items) := by
  unfold stable
  split
  · exact inOrder_inserted hasymm items
  · exact inOrder_mergeSort hasymm items

end

/-! ### Items that belong in an order -/

/-- Where the order is transitive, no item at all stands behind one that it belongs before. -/
theorem InOrder.pairwise {all items : List α}
    (htrans : ∀ a ∈ all, ∀ b ∈ all, ∀ c ∈ all, before b a = false → before c b = false → before c a = false)
    (hmem : items ⊆ all) (h : InOrder before items) :
    items.Pairwise fun earlier later => before later earlier = false := by
  induction items with
  | nil => exact List.Pairwise.nil
  | cons first rest ih =>
      obtain ⟨hfirst, hrest⟩ := List.cons_subset.mp hmem
      refine List.pairwise_cons.mpr ⟨fun later hlater => ?_, ih hrest h.tail⟩
      cases rest with
      | nil => cases hlater
      | cons next tail =>
          obtain ⟨hnext, htail⟩ := List.isChain_cons_cons.mp h
          rcases List.mem_cons.mp hlater with rfl | hbehind
          · exact hnext
          · have hpair := (List.pairwise_cons.mp (ih hrest htail)).1 later hbehind
            exact htrans first hfirst next (hrest List.mem_cons_self) later (hrest hlater) hnext hpair

section

variable (hasymm : ∀ a b, before a b = true → before b a = false)
  (htrans : ∀ a b c, before b a = false → before c b = false → before c a = false)

include htrans in
theorem notBefore_trans (a b c : α) (hab : (!before b a) = true) (hbc : (!before c b) = true) :
    (!before c a) = true := by
  rw [Bool.not_eq_true'] at hab hbc ⊢
  exact htrans a b c hab hbc

include hasymm in
theorem notBefore_total (a b : α) : (!before b a || !before a b) = true := by
  cases hab : before b a with
  | false => rfl
  | true => simp [hasymm b a hab]

include hasymm htrans

/-- Sorted items stand in their order. -/
theorem pairwise_stable (items : List α) :
    (stable before items).Pairwise fun earlier later => before later earlier = false :=
  (inOrder_stable hasymm items).pairwise (fun a _ b _ c _ => htrans a b c) (List.Subset.refl _)

/-- Items that stand in their order already keep the order that they have: equal ones, in particular, are not
exchanged. -/
theorem sublist_stable {kept items : List α} (hkept : kept.Sublist items)
    (hordered : kept.Pairwise fun earlier later => before later earlier = false) :
    kept.Sublist (stable before items) := by
  unfold stable
  split
  · exact sublist_inserted hkept hordered
  · refine List.sublist_mergeSort (notBefore_trans htrans) (notBefore_total hasymm) (hordered.imp fun h => ?_) hkept
    rwa [Bool.not_eq_true']

/-- Of two items that count as equal the earlier one has been the earlier one before. -/
theorem pair_sublist_of_stable {a b : α} {items : List α} (hsorted : [a, b].Sublist (stable before items))
    (htied : before a b = false) : [a, b].Sublist items := by
  have hfirst : before a a = false := by
    cases h : before a a with
    | false => rfl
    | true => exact h.symm.trans (hasymm a a h)
  have hsecond : before b a = false :=
    List.pairwise_iff_forall_sublist.mp (pairwise_stable hasymm htrans items) hsorted
  -- The items that are equal to the first one keep their order, and are the same ones after sorting.
  let tied : α → Bool := fun other => !before a other && !before other a
  have hordered : (items.filter tied).Pairwise fun earlier later => before later earlier = false := by
    refine List.pairwise_of_forall_mem_list fun x hx y hy => ?_
    simp only [List.mem_filter, tied, Bool.and_eq_true, Bool.not_eq_true'] at hx hy
    exact htrans x a y hx.2.1 hy.2.2
  have hkept : (items.filter tied).Sublist ((stable before items).filter tied) := by
    have hfiltered := (sublist_stable hasymm htrans List.filter_sublist hordered).filter tied
    rwa [List.filter_filter, funext fun other => Bool.and_self (tied other)] at hfiltered
  have hsame : items.filter tied = (stable before items).filter tied :=
    hkept.eq_of_length ((perm_stable before items).filter tied).length_eq.symm
  have hpair : [a, b].filter tied = [a, b] := by
    simp [tied, hfirst, hsecond, htied]
  calc [a, b] = [a, b].filter tied := hpair.symm
    List.Sublist _ ((stable before items).filter tied) := hsorted.filter tied
    _ = items.filter tied := hsame.symm
    List.Sublist _ items := List.filter_sublist

end

section

variable (before) {β : Type} (name : β → α)

theorem insertFromEnd_map (item : β) (sorted : List β) :
    insertFromEnd before (name item) (sorted.map name) =
      (insertFromEnd (fun left right => before (name left) (name right)) item sorted).map name := by
  induction sorted with
  | nil => rfl
  | cons last rest ih =>
      rw [List.map_cons, insertFromEnd, insertFromEnd, ih]
      split <;> simp only [List.map_cons]

/-- Items that stand for others can be sorted in their place. -/
theorem stable_map (items : List β) :
    stable before (items.map name) =
      (stable (fun left right => before (name left) (name right)) items).map name := by
  have hfold (items sorted : List β) :
      (items.map name).foldl (fun sorted item => insertFromEnd before item sorted) (sorted.map name) =
        (items.foldl (fun sorted item =>
          insertFromEnd (fun left right => before (name left) (name right)) item sorted) sorted).map name := by
    induction items generalizing sorted with
    | nil => rfl
    | cons item rest ih => rw [List.map_cons, List.foldl_cons, List.foldl_cons, insertFromEnd_map, ih]
  unfold stable
  rw [List.length_map]
  split
  · rw [inserted, inserted, List.map_reverse]
    exact congrArg List.reverse (hfold items [])
  · symm
    apply List.map_mergeSort
    intros
    rfl

end

end GraphQuery.Sort
