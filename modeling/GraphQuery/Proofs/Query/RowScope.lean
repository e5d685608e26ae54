import GraphQuery.Proofs.Plan.Scope
import GraphQuery.Proofs.Query.ParentScope
import GraphQuery.Proofs.Query.Tier

/-! Unmodified plans and the row that they are resolved on. Such a plan stands for a value that is at hand, so
that its builder gets the row itself for a parent, or the cast of the row, and no name for it. Wherever no
operator around it binds rows of its own, this is the row that the field is resolved on; a name that the builder
binds to it there keeps it for what is inside such operators. Inside them it is the row that they bind. -/

namespace GraphQuery

open Plan (fill covers)
open Traced (Related)

/-- The plan of a selection in the records of a type, with another plan in the place of the one that its field
has built. -/
def Compiler.bindingFor (compiler : Compiler) (owner : SchemaType) (depth : Nat) (plan : Plan)
    (selection : BoundSelection) : Traced Plan := do
  let field := compiler.schema.field selection.field
  let base := compiler.rowOf owner field
  let _ ← field.tracedPlan ⟨Compiler.parentOf field base depth, none, compiler.data?⟩ selection.arguments
  let composed ← compiler.compose field plan selection.children (depth + 1)
  pure (compiler.guardPartial owner field (Compiler.bindParent field base depth composed))

namespace Compiler

variable {compiler : Compiler} {source : Source} {row : Value} {owner : SchemaType}

/-- The row of a field, or its cast, may stand in a hole for its value where no operator of the plan binds
another row around the hole. -/
theorem evalIn_fill_rowOf {field : Field} {hole : String} {template : Plan}
    (hopen : template.any (covers hole) = false) (vars : List (String × Value)) :
    (fill hole (compiler.rowOf owner field) template).evalIn source vars row =
      (fill hole (.const (compiler.parentValue row owner field)) template).evalIn source vars row := by
  have hrow (vars : List (String × Value)) (row : Value) :
      (compiler.rowOf owner field).evalIn source vars row = .ok (compiler.parentValue row owner field) :=
    compiler.evalIn_rowOf source vars row owner field
  exact Plan.evalIn_fill_row hrow hopen vars row

theorem isSequence_rowOf (field : Field) : (compiler.rowOf owner field).isSequence = false := by
  unfold rowOf
  dsimp only
  split <;> rfl

/-- Two plans that a field may build come to the same in the records of a type where they do themselves, among
what they find around them. -/
theorem binding_congr {selection : BoundSelection} {depth : Nat} {plan other : Plan}
    (hplan : ((compiler.schema.field selection.field).tracedPlan
      ⟨parentOf (compiler.schema.field selection.field)
        (compiler.rowOf owner (compiler.schema.field selection.field)) depth, none, compiler.data?⟩
      selection.arguments).outcome = .ok plan)
    (hsequence : plan.isSequence = other.isSequence) {vars : List (String × Value)}
    (hvalue : plan.evalIn source (around vars (compiler.schema.field selection.field) depth
        (compiler.parentValue row owner (compiler.schema.field selection.field))) row =
      other.evalIn source (around vars (compiler.schema.field selection.field) depth
        (compiler.parentValue row owner (compiler.schema.field selection.field))) row) :
    Related (fun compiled given => compiled.evalIn source vars row = given.evalIn source vars row)
      (compiler.binding owner depth selection) (compiler.bindingFor owner depth other selection) := by
  unfold binding bindingFor
  dsimp only
  refine (Related.refl _).bind fun built _ hbuilt _ _ => ?_
  rw [hplan] at hbuilt
  cases hbuilt
  refine (compose_congr hsequence hvalue fun _ _ _ => rfl).bind fun one two _ _ hsame => .pure ?_
  rw [evalIn_guardPartial_eq, evalIn_guardPartial_eq, evalIn_bindParent, evalIn_bindParent, hsame]

end Compiler

/-- The toys of a dog, which a plan finds by a filter and keeps under a name around it. -/
def Plan.toysOf (dog : Plan) : Plan :=
  .bind "dog" dog (.filter (.collection "toys")
    (.compare .eq (.member .row "owner") (.member (.var "dog") "id")))

/-- Declarations of a meadow. The toys of a dog are those that name it as their owner, the best one comes first,
its gear is what it carries itself, unless that has no label, and it may be out with any of the walkers. Of a
pair of walkers one may be missing. -/
def Declaration.meadow : List Declaration :=
  [.type (.ofKind .interface "Animal"), .type ⟨"Dog", none, none, ["Animal"], .object⟩,
    .type (.ofKind .object "Toy"), .type (.ofKind .object "Walker"),
    .field 7 (.plain "id" "Int"),
    .field 8 { FieldSpec.plain "toys" "[Toy]" with
      resolver? := some (.plan fun scope _ => .ok (.toysOf scope.parent))
      resolution? := some .unmodified },
    .field 8 { FieldSpec.plain "gear" "[Toy]" with
      resolver? := some (.plan fun scope _ => .ok (.filter (.member scope.parent "gear")
        (.not (.isNull (.member .row "label"))))) },
    .field 8 { FieldSpec.plain "walkers" "[Walker]" with
      resolver? := some (.plan fun _ _ => .ok (.collection "walkers")) },
    .field 8 { FieldSpec.plain "best" "Toy" with
      resolver? := some (.plan fun scope _ => .ok (.toysOf scope.parent))
      resolution? := some .first },
    .field 9 (.plain "label" "String"), .field 10 (.plain "name" "String"),
    .field 5 { FieldSpec.plain "animals" "[Animal]" with
      resolver? := some (.plan fun _ _ => .ok (.collection "animals")) },
    .field 5 { FieldSpec.plain "pair" "[Walker]" with
      resolver? := some (.plan fun _ _ =>
        .ok (.const (.array [.ofEntries [("name", .string "Ann")], .null]))) }]

/-- The schema of a meadow: types 7 to 10 are animals, dogs, toys and walkers. -/
def Schema.meadow : Schema :=
  ((Draft.start.declareAll Declaration.meadow).bind fun draft => draft.complete.1).toOption.get
    (by decide +kernel)

theorem Schema.meadow_completed : Schema.meadow.Completed :=
  Schema.completed_of_toOption (Option.some_get _).symm

/-- Selections on an animal, inside a fragment on dogs. -/
def Schema.meadowLevel (selections : List Selection) : List BoundSelection :=
  ((⟨.meadow, [], [], none⟩ : Binder).bind 7 [.inline (some "Dog") selections]).toOption.getD []

/-- The toys of two dogs, and a walker. -/
def Source.meadow : Source where
  collection name := .ok (if name == "toys" then
      [.ofEntries [("owner", .number (.int 2)), ("label", .string "Ball")],
        .ofEntries [("owner", .number (.int 3)), ("label", .string "Bone")]]
    else [.ofEntries [("name", .string "Ann")]])
  context := .null

/-- An unmodified plan sees its row wherever no operator of its own binds another one. In every tier, on every
row and among any variables and collections, a parent that stands in a plan outside the predicates, bodies and
keys of its operators has the value of the row that the plan is evaluated on, or of its cast. So the plan of a
nested unmodified field makes the calls, and has the failure or the value, that it has with the constant of its
row in all these places, whatever stands in others. -/
theorem Schema.unmodified_plan_sees_row (schema : Schema) (tier : Tier) (data? : Option Value)
    (type : SchemaType) (depth : Nat) (selection : BoundSelection) (source : Source) :
    let compiler : Compiler := ⟨schema, tier, data?⟩
    let field := schema.field selection.field
    let base := compiler.rowOf type field
    (∀ vars row, base.evalIn source vars row = .ok (compiler.parentValue row type field)) ∧
      ∀ hole template, template.any (covers hole) = false → ∀ vars row,
        let given := fill hole (.const (compiler.parentValue row type field)) template
        (fill hole base template).evalIn source vars row = given.evalIn source vars row ∧
          (field.resolution = .unmodified →
            (field.tracedPlan ⟨base, none, data?⟩ selection.arguments).outcome = .ok (fill hole base template) →
            Related (fun compiled given => compiled.evalIn source vars row = given.evalIn source vars row)
              (compiler.binding type depth selection) (compiler.bindingFor type depth given selection)) := by
  intro compiler field base
  refine ⟨fun vars row => compiler.evalIn_rowOf source vars row type field, ?_⟩
  intro hole template hopen vars row given
  have hvalue := fun vars => @Compiler.evalIn_fill_rowOf compiler source row type field hole template hopen vars
  refine ⟨hvalue vars, fun hunmodified hplan => ?_⟩
  have hsees : Compiler.seesRow field = true := by
    rw [Compiler.seesRow, hunmodified]
    rfl
  refine Compiler.binding_congr ?_ (Plan.isSequence_fill (Compiler.isSequence_rowOf field) hole template)
    (hvalue _)
  rw [Compiler.parentOf, if_pos hsees]
  exact hplan

/-- Is this the plan of the toys of a row, cast to a dog? -/
def Plan.isToysOfDog : Plan → Bool
  | .bind dog (.cast .row type [shape]) (.filter (.collection toys)
      (.compare .eq (.member .row owner) (.member (.var name) id))) =>
    [dog, type, shape, toys, owner, name, id] == ["dog", "Dog", "Dog", "toys", "owner", "dog", "id"]
  | _ => false

theorem Plan.eq_of_isToysOfDog {plan : Plan} (h : plan.isToysOfDog = true) :
    plan = .toysOf (.cast .row "Dog" ["Dog"]) := by
  unfold isToysOfDog at h
  split at h
  · simp only [beq_iff_eq, List.cons.injEq, and_true] at h
    obtain ⟨rfl, rfl, rfl, rfl, rfl, rfl, rfl⟩ := h
    rfl
  · cases h

/-- A dog among animals, cast where its toys are asked for: the name around the filter stands for it. -/
theorem Schema.meadow_toys_see_row :
    let compiler : Compiler := ⟨.meadow, .default, none⟩
    let dog : Value := .ofEntries [("__shape", .string "Dog"), ("id", .number (.int 2))]
    ∃ selection ∈ meadowLevel [.field none "toys" [] [.field none "label" [] []]],
      (meadow.field selection.field).resolution = .unmodified ∧
      (((compiler.binding (meadow.type 7) 1 selection).outcome.toOption.bind
          fun plan => (plan.evalIn .meadow [] dog).toOption) ==
        some (.array [.ofEntries [("label", .string "Ball")]])) = true ∧
      Related (fun compiled given => compiled.evalIn .meadow [] dog = given.evalIn .meadow [] dog)
        (compiler.binding (meadow.type 7) 1 selection)
        (compiler.bindingFor (meadow.type 7) 1 (.toysOf (.const dog)) selection) := by
  intro compiler dog
  have hconcrete : ∃ selection ∈ meadowLevel [.field none "toys" [] [.field none "label" [] []]],
      (meadow.field selection.field).resolution = .unmodified ∧
      (((compiler.binding (meadow.type 7) 1 selection).outcome.toOption.bind
          fun plan => (plan.evalIn .meadow [] dog).toOption) ==
        some (.array [.ofEntries [("label", .string "Ball")]])) = true ∧
      (((meadow.field selection.field).tracedPlan
        ⟨compiler.rowOf (meadow.type 7) (meadow.field selection.field), none, none⟩
          selection.arguments).outcome.toOption.map Plan.isToysOfDog = some true) ∧
      compiler.isPartial (meadow.type 7) (meadow.field selection.field) = true ∧
      (meadow.type (meadow.field selection.field).declaring).name = "Dog" ∧
      (meadow.type (meadow.field selection.field).declaring).shapes = ["Dog"] := by
    decide +kernel
  obtain ⟨selection, hmem, hunmodified, hvalue, hplan, hpartial, hname, hshapes⟩ := hconcrete
  have hbase : compiler.rowOf (meadow.type 7) (meadow.field selection.field) = .cast .row "Dog" ["Dog"] := by
    rw [Compiler.rowOf, hpartial]
    change Plan.cast .row (meadow.type (meadow.field selection.field).declaring).name
      (meadow.type (meadow.field selection.field).declaring).shapes = _
    rw [hname, hshapes]
  obtain ⟨plan, hok, htoys⟩ := Option.map_eq_some_iff.mp hplan
  obtain ⟨hparent, hopen⟩ := unmodified_plan_sees_row .meadow .default none (meadow.type 7) 1 selection .meadow
  have hdog : compiler.parentValue dog (meadow.type 7) (meadow.field selection.field) = dog := by
    have hcast : (Plan.cast .row "Dog" ["Dog"]).evalIn .meadow [] dog = .ok dog := rfl
    have hbound := hparent [] dog
    rw [hbase, hcast] at hbound
    exact (Except.ok.inj hbound).symm
  obtain ⟨_, hrelated⟩ := hopen "" (.toysOf (.var "")) (by decide) [] dog
  rw [hdog] at hrelated
  refine ⟨selection, hmem, hunmodified, hvalue, hrelated hunmodified ?_⟩
  rw [Outcome.ok_of_toOption hok, Plan.eq_of_isToysOfDog htoys]
  exact congrArg (fun base => Except.ok (Plan.toysOf base)) hbase.symm

/-- The dog of a kennel asks for its toys by a plan that puts the dog into a filter. There the row is a toy, so
that the toys of this dog are not found, and one is that owns itself. -/
theorem Schema.kennel_toys_miss_dog :
    let compiler : Compiler := ⟨.kennel, .enumerable, none⟩
    let dog : Value := .ofEntries [("id", .number (.int 2))]
    let toy (id owner : Int) (label : String) : Value := .ofEntries
      [("id", .number (.int id)), ("owner", .number (.int owner)), ("label", .string label)]
    let source : Source := ⟨fun _ => .ok [toy 7 2 "Ball", toy 8 8 "Bone"], .null⟩
    let shown (plan : Traced Plan) : Option Value :=
      plan.outcome.toOption.bind fun plan => (plan.evalIn source [] dog).toOption
    ∃ selection ∈ ((⟨.kennel, [], [], none⟩ : Binder).bind 8
        [.field none "toys" [] [.field none "label" [] []]]).toOption.getD [],
      (kennel.field selection.field).resolution = .unmodified ∧
      (shown (compiler.binding (kennel.type 8) 1 selection) ==
        some (.array [.ofEntries [("label", .string "Bone")]])) = true ∧
      (shown (compiler.bindingOn (kennel.type 8) 1 (.const dog) selection) ==
        some (.array [.ofEntries [("label", .string "Ball")]])) = true := by
  decide +kernel

end GraphQuery
