import GraphQuery.Proofs.Plan.Scope
import Mathlib.Logic.Relation

/-! Plans inside plans. The parts of a node are the plans in all the places that it has for one, so that a
search through a plan by the parts of its nodes comes to every node that stands in it at any depth. -/

namespace GraphQuery

open Relation (ReflTransGen)

namespace Plan

/-- A plan stands right inside a node, in one of the places that the node has. -/
inductive Part : Plan → Plan → Prop where
  | bound {name : String} {value body : Plan} : Part value (.bind name value body)
  | scope {name : String} {value body : Plan} : Part body (.bind name value body)
  | owner {target : Plan} {name : String} : Part target (.member target name)
  | left {comparison : Comparison} {left right : Plan} : Part left (.compare comparison left right)
  | right {comparison : Comparison} {left right : Plan} : Part right (.compare comparison left right)
  | conjunct {term : Plan} {terms : List Plan} (mem : term ∈ terms) : Part term (.and terms)
  | disjunct {term : Plan} {terms : List Plan} (mem : term ∈ terms) : Part term (.or terms)
  | negated {operand : Plan} : Part operand (.not operand)
  | tested {operand : Plan} : Part operand (.isNull operand)
  | shaped {target : Plan} {shapes : List String} : Part target (.typeIs target shapes)
  | converted {target : Plan} {typeName : String} {shapes : List String} :
      Part target (.cast target typeName shapes)
  | condition {test yes no : Plan} : Part test (.cond test yes no)
  | whenTrue {test yes no : Plan} : Part yes (.cond test yes no)
  | whenFalse {test yes no : Plan} : Part no (.cond test yes no)
  | guarded {value body : Plan} {typeName : String} : Part value (.nullGuard value body typeName)
  | unlessNull {value body : Plan} {typeName : String} : Part body (.nullGuard value body typeName)
  | member {shape key : String} {binding : Plan} {bindings : List (String × Plan)}
      (mem : (key, binding) ∈ bindings) : Part binding (.record shape bindings)
  | filtered {source predicate : Plan} : Part source (.filter source predicate)
  | predicate {source predicate : Plan} : Part predicate (.filter source predicate)
  | projected {source body : Plan} : Part source (.project source body)
  | row {source body : Plan} : Part body (.project source body)
  | ordered {source key : Plan} {descending : Bool} : Part source (.orderBy source key descending)
  | sortKey {source key : Plan} {descending : Bool} : Part key (.orderBy source key descending)
  | skipped {source : Plan} {count : Nat} : Part source (.skip source count)
  | taken {source : Plan} {count : Nat} : Part source (.take source count)
  | listed {source : Plan} : Part source (.toList source)
  | headed {source : Plan} : Part source (.first source)
  | headedOr {source : Plan} : Part source (.firstOrDefault source)

/-- A node stands in a plan at some depth, or is the plan itself. -/
def Within (node plan : Plan) : Prop :=
  ReflTransGen Part node plan

/-- No cast stands in a plan. -/
def CastFree (plan : Plan) : Prop :=
  ∀ node, Within node plan → node.isCast = false

/-- The parts of a node are all plans that stand right inside it. -/
theorem mem_children_iff {part plan : Plan} : part ∈ plan.children ↔ Part part plan := by
  constructor
  · intro h
    cases plan with
    | and terms => exact .conjunct h
    | or terms => exact .disjunct h
    | record shape bindings =>
        obtain ⟨⟨key, binding⟩, hmem, rfl⟩ := List.mem_map.mp h
        exact .member hmem
    | context | row | const _ | null _ | collection _ | var _ => cases h
    | _ =>
        simp only [children, List.mem_cons, List.not_mem_nil, or_false] at h
        rcases h with rfl | rfl | rfl <;> constructor
  · intro h
    cases h with
    | conjunct hmem | disjunct hmem => exact hmem
    | member hmem => exact List.mem_map_of_mem (f := Prod.snd) hmem
    | _ => simp [children]

/-- What holds of a node when it holds of its parts holds of every plan. -/
@[elab_as_elim]
theorem part_induction {motive : Plan → Prop}
    (step : ∀ plan, (∀ part ∈ plan.children, motive part) → motive plan) (plan : Plan) : motive plan :=
  step plan fun part _ => part_induction step part
termination_by sizeOf plan
decreasing_by exact sizeOf_lt_of_mem_children ‹_›

/-- A search finds a node if and only if one stands in the plan. -/
theorem any_iff_within {test : Plan → Bool} {plan : Plan} :
    plan.any test = true ↔ ∃ node, Within node plan ∧ test node = true := by
  constructor
  · induction plan using part_induction with
    | step plan below =>
        intro h
        rw [any_eq, Bool.or_eq_true, List.any_eq_true] at h
        rcases h with h | ⟨part, hmem, hpart⟩
        · exact ⟨plan, .refl, h⟩
        · obtain ⟨node, hnode, htest⟩ := below part hmem hpart
          exact ⟨node, hnode.tail (mem_children_iff.mp hmem), htest⟩
  · rintro ⟨node, hnode, htest⟩
    induction hnode with
    | refl => exact any_of_self htest
    | tail _ hpart ih => exact any_of_child (mem_children_iff.mpr hpart) ih

theorem castFree_iff_any {plan : Plan} : plan.CastFree ↔ plan.any isCast = false := by
  rw [← Bool.not_eq_true, any_iff_within]
  constructor
  · rintro h ⟨node, hnode, hcast⟩
    rw [h node hnode] at hcast
    cases hcast
  · exact fun h node hnode => Bool.not_eq_true _ ▸ fun hcast => h ⟨node, hnode, hcast⟩

/-- A plan has no cast if its node is none and its parts have none. -/
theorem castFree_node_iff {plan : Plan} :
    plan.CastFree ↔ plan.isCast = false ∧ ∀ part ∈ plan.children, part.CastFree := by
  simp only [castFree_iff_any]
  rw [any_eq, Bool.or_eq_false_iff, List.any_eq_false]
  simp only [Bool.not_eq_true]

end Plan

end GraphQuery
