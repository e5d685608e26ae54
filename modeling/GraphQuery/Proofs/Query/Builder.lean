import GraphQuery.Proofs.Plan.Scope
import GraphQuery.Proofs.Query.RowType

/-! Builders that take their parents as they are. Such a builder cannot tell one parent from another: it puts
the parent into its plan as a whole, or fails whatever the parent is. A schema that is declared with builders
of this kind only has no others, since those of introspection do not ask for a parent at all. -/

namespace GraphQuery

open Compiler (parentName)
open Plan (Free fill bears)
open Traced (Related)

/-- What is built takes the parent as it is: whatever the parent, there is the same failure, or the same plan
around it, none of whose own nodes bears a name that compiling gives to parents. -/
inductive Plan.TakesWhole (build : Plan → Except String Plan) : Prop where
  | fails {message : String} (eq : ∀ parent, build parent = .error message)
  | fills {hole : String} {template : Plan}
      (names : ∀ depth, template.any (bears (parentName depth)) = false)
      (eq : ∀ parent, build parent = .ok (fill hole parent template))

/-- A builder takes the parent as it is, for all arguments and data. -/
def PlanBuilder.TakesWhole (build : PlanBuilder) : Prop :=
  ∀ effectResult? data? arguments, Plan.TakesWhole fun parent => build ⟨parent, effectResult?, data?⟩ arguments

/-- A resolver without a builder, or with one that takes the parent as it is. -/
def Resolver.TakesWhole : Resolver → Prop
  | .plan build => PlanBuilder.TakesWhole build
  | .mutation _ (some build) => PlanBuilder.TakesWhole build
  | _ => True

/-! ### What fields build -/

/-- Only names that begin like those of parents are names of parents. -/
theorem Compiler.ne_parentName {name : String} (h : name.toList.head? ≠ some 'p') (depth : Nat) :
    (name == parentName depth) = false := by
  refine beq_eq_false_iff_ne.mpr fun heq => h ?_
  rw [heq, parentName, String.toList_append]
  rfl

theorem Plan.takesWhole_const (value : Value) : Plan.TakesWhole fun _ => .ok (.const value) :=
  @TakesWhole.fills _ "" (.const value) (fun _ => rfl) fun _ => rfl

namespace Field

variable {field : Field} (h : field.resolver.TakesWhole) (effectResult? data? : Option Value) (arguments : Arguments)

include h

theorem takesWhole_buildPlan :
    Plan.TakesWhole fun parent => field.buildPlan ⟨parent, effectResult?, data?⟩ arguments := by
  unfold buildPlan
  cases hresolver : field.resolver with
  | member name =>
      refine @Plan.TakesWhole.fills _ "" (.member (.var "") name) (fun depth => ?_) fun parent => rfl
      have hother : ("" == parentName depth) = false := Compiler.ne_parentName (by decide) depth
      simp only [Plan.any, bears, hother, Bool.or_self]
  | plan build =>
      rw [hresolver] at h
      exact h effectResult? data? arguments
  | mutation effect read? =>
      cases read? with
      | some build =>
          rw [hresolver] at h
          exact h effectResult? data? arguments
      | none => exact Plan.takesWhole_const (effectResult?.getD .null)
  | computed compute => exact .fails fun _ => rfl
  | typename => exact .fails fun _ => rfl

/-- Two parents lead to one failure, or to plans that differ in nothing but the parent. -/
theorem tracedPlan_related (first second : Plan) :
    Related (fun one other => ∃ hole template, (∀ depth, template.any (bears (parentName depth)) = false) ∧
        one = fill hole first template ∧ other = fill hole second template)
      (field.tracedPlan ⟨first, effectResult?, data?⟩ arguments)
      (field.tracedPlan ⟨second, effectResult?, data?⟩ arguments) := by
  unfold tracedPlan
  dsimp only
  have hagree : Outcome.Agree (fun one other => ∃ hole template,
      (∀ depth, template.any (bears (parentName depth)) = false) ∧
        one = fill hole first template ∧ other = fill hole second template)
      (field.buildPlan ⟨first, effectResult?, data?⟩ arguments)
      (field.buildPlan ⟨second, effectResult?, data?⟩ arguments) := by
    cases takesWhole_buildPlan h effectResult? data? arguments with
    | fails heq =>
        rw [heq, heq]
        exact .error _
    | fills hnames heq =>
        rw [heq, heq]
        exact .ok ⟨_, _, hnames, rfl, rfl⟩
  split
  · exact ⟨hagree.mapError _, rfl⟩
  · exact .ofExcept (hagree.mapError _)

theorem tracedPlan_ok {parent plan : Plan}
    (hplan : (field.tracedPlan ⟨parent, effectResult?, data?⟩ arguments).outcome = .ok plan) :
    ∃ hole template, (∀ depth, template.any (bears (parentName depth)) = false) ∧
      plan = fill hole parent template := by
  have hagree := (tracedPlan_related h effectResult? data? arguments parent parent).outcome
  rw [hplan] at hagree
  cases hagree with
  | ok hfilled =>
      obtain ⟨hole, template, hnames, heq, _⟩ := hfilled
      exact ⟨hole, template, hnames, heq⟩

/-- The plan of a field has no name of a parent free but those that are free in its parent. -/
theorem free_tracedPlan {parent plan : Plan} {depth : Nat}
    (hplan : (field.tracedPlan ⟨parent, effectResult?, data?⟩ arguments).outcome = .ok plan)
    (hfree : Free (parentName depth) plan) : Free (parentName depth) parent := by
  obtain ⟨hole, template, hnames, rfl⟩ := tracedPlan_ok h effectResult? data? arguments hplan
  refine (Plan.free_of_fill hfree).resolve_left fun hbears => ?_
  rw [hnames depth] at hbears
  cases hbears

end Field

/-! ### Declared builders -/

theorem Introspection.takesWhole_resolverOver (description : Value) {field : Field} (h : field.resolver.TakesWhole) :
    (resolverOver description field).TakesWhole := by
  unfold resolverOver
  split
  · exact fun _ _ _ => Plan.takesWhole_const _
  · split
    · exact fun _ _ _ => Plan.takesWhole_const _
    · exact h

/-- All builders of a draft take their parents as they are. -/
def Draft.TakesWhole (draft : Draft) : Prop :=
  ∀ field ∈ draft.fields, field.resolver.TakesWhole

/-- The field that a declaration makes, if it makes one, takes its parent as it is. -/
def Declaration.TakesWhole (declaration : Declaration) : Prop :=
  ∀ draft owner spec, declaration.field? draft = some (owner, spec) →
    (spec.resolver?.getD (.member spec.name)).TakesWhole

theorem Declaration.takesWhole_type (shape : Shape) : (Declaration.type shape).TakesWhole := by
  intro draft owner spec h
  cases h

theorem Declaration.takesWhole_field (owner : TypeId) {spec : FieldSpec}
    (h : (spec.resolver?.getD (.member spec.name)).TakesWhole) : (Declaration.field owner spec).TakesWhole := by
  intro draft found other hmade
  cases hmade
  exact h

theorem Draft.TakesWhole.insertField {draft grown : Draft} {owner : TypeId} {spec : FieldSpec} {id : FieldId}
    (h : draft.TakesWhole) (hspec : (spec.resolver?.getD (.member spec.name)).TakesWhole)
    (hok : draft.insertField owner spec = .ok (id, grown)) : grown.TakesWhole := by
  obtain ⟨_, _, _, _, _, _, _, _, _, _, rfl⟩ := Draft.insertField_ok hok
  intro field hmem
  rcases List.mem_append.mp hmem with hmem | hmem
  · exact h field hmem
  · cases List.mem_singleton.mp hmem
    exact hspec

theorem Draft.TakesWhole.declareShape {draft grown : Draft} {shape : Shape} {id : TypeId} (h : draft.TakesWhole)
    (hok : draft.declareShape shape = .ok (id, grown)) : grown.TakesWhole := by
  obtain ⟨_, _, _, _, _, rfl⟩ := Draft.declareShape_ok hok
  exact h

theorem Draft.takesWhole_declareAll {declarations : List Declaration} {draft : Draft}
    (hwhole : ∀ declaration ∈ declarations, declaration.TakesWhole)
    (h : Draft.start.declareAll declarations = .ok draft) : draft.TakesWhole := by
  refine Outcome.foldlM_preserves Draft.TakesWhole (fun declaration hmem state next hstate hnext => ?_)
    (fun _ hmem => absurd hmem List.not_mem_nil) h
  cases (Declaration.change_of_ok hnext).2 with
  | type _ hshape => exact hstate.declareShape hshape
  | leaf _ _ hshape =>
      have hgrown := hstate.declareShape hshape
      exact hgrown
  | field hspec _ hfield => exact hstate.insertField (hwhole declaration hmem state _ _ hspec) hfield
  | description _ => exact hstate
  | conformance _ => exact hstate
  | unionMember _ _ => exact hstate

namespace Completion

theorem Brings.takesWhole {spec : FieldSpec} (h : Brings spec) :
    (spec.resolver?.getD (.member spec.name)).TakesWhole := by
  cases h with
  | member => exact trivial
  | root hspec =>
      obtain ⟨_, _, value, hresolver⟩ := rootFields_constant hspec
      rw [hresolver]
      exact fun _ _ arguments => Plan.takesWhole_const (value arguments)
  | typename => exact trivial

theorem stable_takesWhole : Stable Draft.TakesWhole :=
  ⟨fun hdraft hok => hdraft.declareShape hok, fun hdraft hspec hok => hdraft.insertField hspec.takesWhole hok⟩

end Completion

/-- A schema that is declared with builders which take their parents as they are has no others. -/
theorem Schema.takesWhole_of_declared {declarations : List Declaration} {draft : Draft} {schema : Schema}
    (hwhole : ∀ declaration ∈ declarations, declaration.TakesWhole)
    (hdeclared : Draft.start.declareAll declarations = .ok draft) (hcomplete : draft.complete.1 = .ok schema)
    (id : FieldId) : (schema.field id).resolver.TakesWhole := by
  have hdraft : draft.TakesWhole := Draft.takesWhole_declareAll hwhole hdeclared
  obtain ⟨grown, built, ⟨hgrown, hbuilders⟩, hbuilt, rfl⟩ :=
    Completion.complete_keeps (Completion.stable_consistent.and Completion.stable_takesWhole)
      ⟨(Draft.consistent_declareAll hdeclared).congr rfl rfl rfl rfl rfl, hdraft⟩ hcomplete
  obtain ⟨context, hfrom, _, rfl, _⟩ := Completion.build_context hgrown hbuilt
  cases hget : context.fields[id]? with
  | none =>
      rw [Schema.field, Introspection.attach, List.getD_eq_getElem?_getD, List.getElem?_map, hfrom.fields_eq, hget]
      exact trivial
  | some field =>
      rw [hfrom.field_attach hget]
      refine Introspection.takesWhole_resolverOver _ ?_
      obtain ⟨declared, target, hdeclared, _, rfl⟩ := hfrom.fields.declared id field hget
      exact hbuilders declared (List.mem_of_getElem? hdeclared)

end GraphQuery
