import GraphQuery.Schema.Hierarchy
import Mathlib.Algebra.BigOperators.Group.Finset.Basic
import Mathlib.Logic.Relation

/-! The search for supertypes. Without any bound on its steps it still comes to an end, since it looks at
every type once: the bound that the definition takes is never met. The end tells whether a type is its own
supertype, and otherwise names all its supertypes once each. -/

namespace GraphQuery.Hierarchy

/-- The search for the supertypes of a type, run to its end from what it has seen and what it is still to
look at. -/
inductive Search (parents : TypeId → List TypeId) (start : TypeId) :
    List TypeId → List TypeId → Option (List TypeId) → Prop where
  | done {seen : List TypeId} : Search parents start seen [] (some seen)
  | cyclic {seen rest : List TypeId} : Search parents start seen (start :: rest) none
  | skip {seen rest : List TypeId} {next : TypeId} {found : Option (List TypeId)} :
      next ≠ start → next ∈ seen → Search parents start seen rest found →
      Search parents start seen (next :: rest) found
  | visit {seen rest : List TypeId} {next : TypeId} {found : Option (List TypeId)} :
      next ≠ start → next ∉ seen →
      Search parents start (seen ++ [next]) ((parents next).reverse ++ rest) found →
      Search parents start seen (next :: rest) found

/-- One type names another one as a parent. -/
def Names (parents : TypeId → List TypeId) (type parent : TypeId) : Prop :=
  parent ∈ parents type

section

variable {parents : TypeId → List TypeId} {start : TypeId}

namespace Search

theorem unique {seen stack : List TypeId} {first second : Option (List TypeId)}
    (hfirst : Search parents start seen stack first) (hsecond : Search parents start seen stack second) :
    first = second := by
  induction hfirst with
  | done =>
      cases hsecond
      rfl
  | cyclic =>
      cases hsecond with
      | cyclic => rfl
      | skip hne => exact absurd rfl hne
      | visit hne => exact absurd rfl hne
  | skip hne hseen _ ih =>
      cases hsecond with
      | cyclic => exact absurd rfl hne
      | skip _ _ hrest => exact ih hrest
      | visit _ hnew => exact absurd hseen hnew
  | visit hne hnew _ ih =>
      cases hsecond with
      | cyclic => exact absurd rfl hne
      | skip _ hseen => exact absurd hseen hnew
      | visit _ _ hrest => exact ih hrest

/-- A search that finds supertypes ends with all that it has seen or was still to look at, and with the
parents of all that it has met on the way. -/
theorem saturated {seen stack all : List TypeId} (h : Search parents start seen stack (some all)) :
    seen ⊆ all ∧ stack ⊆ all ∧ ∀ type ∈ all, type ∈ seen ∨ parents type ⊆ all := by
  generalize hfound : some all = found at h
  induction h with
  | done =>
      cases hfound
      exact ⟨List.Subset.refl _, List.nil_subset _, fun _ hmem => Or.inl hmem⟩
  | cyclic => cases hfound
  | skip _ hseen _ ih =>
      obtain ⟨hkept, hrest, hclosed⟩ := ih hfound
      exact ⟨hkept, List.cons_subset.mpr ⟨hkept hseen, hrest⟩, hclosed⟩
  | @visit seen rest next _ _ _ _ ih =>
      obtain ⟨hkept, hstack, hclosed⟩ := ih hfound
      obtain ⟨hold, hnext⟩ := List.append_subset.mp hkept
      obtain ⟨habove, hrest⟩ := List.append_subset.mp hstack
      refine ⟨hold, List.cons_subset.mpr ⟨hnext List.mem_cons_self, hrest⟩, ?_⟩
      intro type hmem
      rcases hclosed type hmem with hmem | hclosed
      · rcases List.mem_append.mp hmem with hmem | hmem
        · exact Or.inl hmem
        · rw [List.mem_singleton.mp hmem]
          exact Or.inr fun parent hparent => habove (List.mem_reverse.mpr hparent)
      · exact Or.inr hclosed

/-- A search finds nothing but what it has seen or was to look at, and the parents of these. -/
theorem least {seen stack all : List TypeId} {holds : TypeId → Prop}
    (hclosed : ∀ type, holds type → ∀ parent ∈ parents type, holds parent)
    (h : Search parents start seen stack (some all)) (hseen : ∀ type ∈ seen, holds type)
    (hstack : ∀ type ∈ stack, holds type) : ∀ type ∈ all, holds type := by
  generalize hfound : some all = found at h
  induction h with
  | done =>
      cases hfound
      exact hseen
  | cyclic => cases hfound
  | skip _ _ _ ih => exact ih hseen (List.forall_mem_cons.mp hstack).2 hfound
  | visit _ _ _ ih =>
      obtain ⟨hnext, hrest⟩ := List.forall_mem_cons.mp hstack
      refine ih ?_ ?_ hfound
      · rw [List.forall_mem_append]
        exact ⟨hseen, List.forall_mem_singleton.mpr hnext⟩
      · rw [List.forall_mem_append]
        exact ⟨fun type hmem => hclosed _ hnext type (List.mem_reverse.mp hmem), hrest⟩

theorem nodup {seen stack all : List TypeId} (h : Search parents start seen stack (some all))
    (hseen : seen.Nodup) : all.Nodup := by
  generalize hfound : some all = found at h
  induction h with
  | done =>
      cases hfound
      exact hseen
  | cyclic => cases hfound
  | skip _ _ _ ih => exact ih hseen hfound
  | visit _ hnew _ ih =>
      refine ih (hseen.append (List.nodup_singleton _) ?_) hfound
      rw [List.disjoint_singleton]
      exact hnew

theorem start_notMem {seen stack all : List TypeId} (h : Search parents start seen stack (some all))
    (hseen : start ∉ seen) : start ∉ all := by
  generalize hfound : some all = found at h
  induction h with
  | done =>
      cases hfound
      exact hseen
  | cyclic => cases hfound
  | skip _ _ _ ih => exact ih hseen hfound
  | visit hne _ _ ih =>
      refine ih ?_ hfound
      rw [List.mem_append, List.mem_singleton, not_or]
      exact ⟨hseen, fun heq => hne heq.symm⟩

/-- A search that finds no supertypes has met its start, above a type that it was to look at. -/
theorem start_above {seen stack : List TypeId} (h : Search parents start seen stack none) :
    ∃ type ∈ stack, Relation.ReflTransGen (Names parents) type start := by
  generalize hfound : none = found at h
  induction h with
  | done => cases hfound
  | cyclic => exact ⟨start, List.mem_cons_self, Relation.ReflTransGen.refl⟩
  | skip _ _ _ ih =>
      obtain ⟨type, hmem, habove⟩ := ih hfound
      exact ⟨type, List.mem_cons_of_mem _ hmem, habove⟩
  | @visit _ _ next _ _ _ _ ih =>
      obtain ⟨type, hmem, habove⟩ := ih hfound
      rcases List.mem_append.mp hmem with hmem | hmem
      · exact ⟨next, List.mem_cons_self, habove.head (List.mem_reverse.mp hmem)⟩
      · exact ⟨type, List.mem_cons_of_mem _ hmem, habove⟩

end Search

variable (parents) (count : Nat)

/-- The number of parents named by types that the search has not seen yet. -/
def unseen (seen : List TypeId) : Nat :=
  ∑ type ∈ (Finset.range count).filter (· ∉ seen), (parents type).length

variable {parents count}

theorem unseen_add (hparents : ∀ type, count ≤ type → parents type = []) {seen : List TypeId}
    {next : TypeId} (hnext : next ∉ seen) :
    unseen parents count (seen ++ [next]) + (parents next).length = unseen parents count seen := by
  have hkept : (Finset.range count).filter (· ∉ seen ++ [next]) =
      ((Finset.range count).filter (· ∉ seen)).erase next := by
    ext type
    simp only [Finset.mem_filter, Finset.mem_erase, List.mem_append, List.mem_singleton]
    tauto
  rw [unseen, unseen, hkept]
  by_cases hlt : next < count
  · exact Finset.sum_erase_add _ _ (Finset.mem_filter.mpr ⟨Finset.mem_range.mpr hlt, hnext⟩)
  · rw [Finset.erase_eq_of_notMem (by simp [hlt]), hparents next (Nat.le_of_not_lt hlt), List.length_nil,
      Nat.add_zero]

/-- With a step for each type that it is to look at and for each parent that it has not met yet, the
bounded search runs to its end. -/
theorem search_closure (hparents : ∀ type, count ≤ type → parents type = []) {fuel : Nat}
    {seen stack : List TypeId} (hfuel : stack.length + unseen parents count seen ≤ fuel) :
    Search parents start seen stack (closure parents start fuel seen stack) := by
  -- a step pops one type, and pushes parents only of a type that then no longer counts as unseen
  induction fuel generalizing seen stack with
  | zero =>
      cases stack with
      | nil => exact Search.done
      | cons next rest => simp at hfuel
  | succ fuel ih =>
      cases stack with
      | nil => exact Search.done
      | cons next rest =>
          rw [List.length_cons] at hfuel
          rw [closure]
          split
          · next heq =>
              rw [heq]
              exact Search.cyclic
          · next hne =>
              by_cases hseen : next ∈ seen
              · rw [if_pos (List.contains_iff_mem.mpr hseen)]
                exact Search.skip hne hseen (ih (by omega))
              · have hunseen := unseen_add hparents hseen
                rw [if_neg fun hmem => hseen (List.contains_iff_mem.mp hmem)]
                refine Search.visit hne hseen (ih ?_)
                rw [List.length_append, List.length_reverse]
                omega

end

/-! ### Relations -/

/-- The parents of a type by its relations. -/
abbrev parentsOf (relations : List Relations) (type : TypeId) : List TypeId :=
  (relations.getD type default).parents

theorem foldl_parents (relations : List Relations) (start : Nat) :
    relations.foldl (fun count r => count + r.parents.length) start =
      start + unseen (parentsOf relations) relations.length [] := by
  induction relations generalizing start with
  | nil => simp [unseen]
  | cons first rest ih =>
      rw [List.foldl_cons, ih]
      simp only [unseen, parentsOf, List.not_mem_nil, not_false_eq_true, Finset.filter_true, List.length_cons,
        Finset.sum_range_succ', List.getD_cons_succ, List.getD_cons_zero]
      exact (Nat.add_assoc _ _ _).trans (congrArg (start + ·) (Nat.add_comm _ _))

/-- The search for the supertypes of a type by its relations always runs to its end. -/
theorem search_supertypes? (relations : List Relations) (id : TypeId) :
    Search (parentsOf relations) id [] (parentsOf relations id).reverse (supertypes? relations id) := by
  have hparents : ∀ type, relations.length ≤ type → parentsOf relations type = [] := by
    intro type hle
    rw [parentsOf, List.getD_eq_getElem?_getD, List.getElem?_eq_none hle]
    rfl
  have hsteps : (parentsOf relations id).reverse.length +
      unseen (parentsOf relations) relations.length [] ≤
        relations.foldl (fun count r => count + r.parents.length) 0 +
          (parentsOf relations id).length := by
    rw [foldl_parents, List.length_reverse]
    omega
  exact search_closure hparents hsteps

theorem supertypes?_closed {relations : List Relations} {id : TypeId} {all : List TypeId}
    (h : supertypes? relations id = some all) :
    parentsOf relations id ⊆ all ∧ ∀ type ∈ all, parentsOf relations type ⊆ all := by
  obtain ⟨_, hstack, hclosed⟩ := (h ▸ search_supertypes? relations id).saturated
  refine ⟨fun parent hmem => hstack (List.mem_reverse.mpr hmem), fun type hmem => ?_⟩
  exact (hclosed type hmem).resolve_left List.not_mem_nil

/-- The supertypes of a type are exactly those that some chain of parents leads to. -/
theorem mem_supertypes?_iff {relations : List Relations} {id : TypeId} {all : List TypeId}
    (h : supertypes? relations id = some all) {sup : TypeId} :
    sup ∈ all ↔ Relation.TransGen (Names (parentsOf relations)) id sup := by
  constructor
  · refine (h ▸ search_supertypes? relations id).least ?_ ?_ ?_ sup
    · exact fun type habove parent hparent => habove.tail hparent
    · exact fun _ hmem => absurd hmem List.not_mem_nil
    · exact fun parent hmem => Relation.TransGen.single (List.mem_reverse.mp hmem)
  · intro habove
    obtain ⟨hown, hclosed⟩ := supertypes?_closed h
    induction habove with
    | single hparent => exact hown hparent
    | tail _ hparent ih => exact hclosed _ ih hparent

theorem nodup_supertypes? {relations : List Relations} {id : TypeId} {all : List TypeId}
    (h : supertypes? relations id = some all) : all.Nodup :=
  (h ▸ search_supertypes? relations id).nodup List.nodup_nil

/-- The search finds no supertypes exactly where a type is its own supertype. -/
theorem supertypes?_eq_none_iff {relations : List Relations} {id : TypeId} :
    supertypes? relations id = none ↔ Relation.TransGen (Names (parentsOf relations)) id id := by
  have hsearch := search_supertypes? relations id
  cases hfound : supertypes? relations id with
  | none =>
      rw [hfound] at hsearch
      obtain ⟨parent, hmem, habove⟩ := hsearch.start_above
      exact iff_of_true rfl (Relation.TransGen.head' (List.mem_reverse.mp hmem) habove)
  | some all =>
      rw [hfound] at hsearch
      refine iff_of_false (by simp) fun hcycle => ?_
      exact hsearch.start_notMem List.not_mem_nil ((mem_supertypes?_iff hfound).mpr hcycle)

end GraphQuery.Hierarchy
