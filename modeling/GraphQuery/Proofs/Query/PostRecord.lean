import GraphQuery.Proofs.Query.Tier

/-! Records without post fields. Post fields are computed when a response is rendered, and have no place in
plans. A level compiles to the record that it has without its post fields, and without all that is selected on
them, under the same keys; only its name of the type, which a condition of a post field needs as well, may not
be there otherwise. -/

namespace GraphQuery

open Traced (Related)

namespace BoundSelection

variable (schema : Schema)

mutual

/-- A selection without the post fields below it. -/
def withoutPost : BoundSelection → BoundSelection
  | ⟨name, alias?, field, condition?, arguments, children⟩ =>
    ⟨name, alias?, field, condition?, arguments, levelWithoutPost children⟩

/-- A level without its post fields and those below it. -/
def levelWithoutPost : List BoundSelection → List BoundSelection
  | [] => []
  | selection :: rest =>
    if (schema.field selection.field).isPost then levelWithoutPost rest
    else withoutPost selection :: levelWithoutPost rest

end

variable (selection : BoundSelection)

theorem field_withoutPost : (selection.withoutPost schema).field = selection.field := by
  cases selection
  rfl

theorem condition?_withoutPost : (selection.withoutPost schema).condition? = selection.condition? := by
  cases selection
  rfl

theorem arguments_withoutPost : (selection.withoutPost schema).arguments = selection.arguments := by
  cases selection
  rfl

theorem outputName_withoutPost : (selection.withoutPost schema).outputName = selection.outputName := by
  cases selection
  rfl

theorem children_withoutPost :
    (selection.withoutPost schema).children = levelWithoutPost schema selection.children := by
  cases selection
  rfl

end BoundSelection

open BoundSelection (withoutPost levelWithoutPost)

/-! ### Keys -/

namespace Schema

variable {schema : Schema}

/-- Does a level have a post field under a condition? -/
def conditionsPost (schema : Schema) (level : List BoundSelection) : Bool :=
  level.any fun selection => (schema.field selection.field).isPost && selection.condition?.isSome

/-- Keys for a level and for the level without its post fields: those of all other selections are the same. -/
inductive KeysWithoutPost (schema : Schema) :
    List BoundSelection → List (Option String) → List (Option String) → Prop where
  | nil : KeysWithoutPost schema [] [] []
  | post {selection : BoundSelection} {rest : List BoundSelection} {keys others : List (Option String)}
      (isPost : (schema.field selection.field).isPost = true) (tail : KeysWithoutPost schema rest keys others) :
      KeysWithoutPost schema (selection :: rest) (none :: keys) others
  | unkeyed {selection : BoundSelection} {rest : List BoundSelection} {keys others : List (Option String)}
      (plain : (schema.field selection.field).isPost = false) (tail : KeysWithoutPost schema rest keys others) :
      KeysWithoutPost schema (selection :: rest) (none :: keys) (none :: others)
  | keyed {selection : BoundSelection} {rest : List BoundSelection} {keys others : List (Option String)} {key : String}
      (keyed : schema.keyed selection = true) (other : key ≠ typenameKey)
      (tail : KeysWithoutPost schema rest keys others) :
      KeysWithoutPost schema (selection :: rest) (some key :: keys) (some key :: others)

/-- The key of a slot, with or without the response key, is not that of the name of the type. -/
theorem recordKey_ne_typename {claimed : List Claim} (hclaimed : ∀ claim ∈ claimed, claim.2.2 ≠ typenameKey)
    {slot : Slot} (hslot : slot.key ≠ typenameKey) (output : String) :
    recordKey claimed slot output ≠ typenameKey := by
  unfold recordKey
  split
  · next hfound => exact hclaimed _ (List.mem_of_find?_eq_some hfound)
  · split
    · have hmark : '#' ∉ typenameKey.toList := by decide
      exact (Text.ne_separated rfl hmark _ _).symm
    · exact hslot

/-- The slot of a field that does not name the type has another key than the name of the type. -/
theorem WellFormed.key_ne_typename (hschema : schema.WellFormed) {owner : TypeId} {id : FieldId}
    (hplain : (schema.field id).isTypename = false) {slot : Slot}
    (hslot : (schema.type owner).projection.slotFor? (schema.field id).id = some slot) :
    slot.key ≠ typenameKey := by
  intro hkey
  have hname := (hschema.slot_type (List.mem_of_find?_eq_some hslot)).2 hkey
  have hsame := List.find?_some hslot
  have hfield : slot.field = (schema.field id).id := beq_iff_eq.mp hsame
  rw [hfield, hschema.field_at hplain, hplain] at hname
  cases hname

/-- The keys of other selections do not depend on the post fields among them. -/
theorem recordKeysFrom_withoutPost (hschema : schema.WellFormed) (owner : TypeId) (level : List BoundSelection) :
    ∀ {claimed : List Claim}, (∀ claim ∈ claimed, claim.2.2 ≠ typenameKey) →
      Outcome.Agree (schema.KeysWithoutPost level) (schema.recordKeysFrom (schema.type owner) claimed level)
        (schema.recordKeysFrom (schema.type owner) claimed (levelWithoutPost schema level)) := by
  induction level with
  | nil => exact fun _ => .ok .nil
  | cons selection rest ih =>
      intro claimed hclaimed
      rw [levelWithoutPost]
      cases hpost : (schema.field selection.field).isPost with
      | true =>
          rw [if_pos rfl, recordKeysFrom]
          simp only [hpost, Bool.or_true, if_true]
          have hrest := ih hclaimed
          generalize schema.recordKeysFrom _ claimed rest = keys at hrest ⊢
          generalize schema.recordKeysFrom _ claimed (levelWithoutPost schema rest) = others at hrest ⊢
          cases hrest with
          | error error => exact .error error
          | ok htail => exact .ok (.post hpost htail)
      | false =>
          rw [if_neg Bool.false_ne_true, recordKeysFrom, recordKeysFrom, BoundSelection.field_withoutPost,
            BoundSelection.outputName_withoutPost]
          simp only [hpost, Bool.or_false]
          cases htypename : (schema.field selection.field).isTypename with
          | true => exact (ih hclaimed).map fun _ _ => .unkeyed hpost
          | false =>
              simp only [Bool.false_eq_true, if_false]
              cases hslot : (schema.type owner).projection.slotFor? (schema.field selection.field).id with
              | none => exact .error _
              | some slot =>
                  have hkeyed : schema.keyed selection = true := keyed_iff.mpr ⟨htypename, hpost⟩
                  have hkey := recordKey_ne_typename hclaimed (hschema.key_ne_typename htypename hslot)
                    selection.outputName
                  refine (ih fun claim hmem => ?_).map fun _ _ => .keyed hkeyed hkey
                  rcases List.mem_append.mp hmem with hmem | hmem
                  · exact hclaimed claim hmem
                  · rw [List.mem_singleton.mp hmem]
                    exact hkey

end Schema

/-! ### Records -/

/-- The record of some bindings, with the name of the type in front of them or without. -/
def SchemaType.recordOf (type : SchemaType) (named : Bool) (bindings : List (String × Plan)) : Plan :=
  .record type.projection.name (if named then (typenameKey, type.typename) :: bindings else bindings)

namespace Compiler

variable (compiler : Compiler)

/-- What is made of one plan of a field with two records for its rows, unless it has none. -/
inductive Composed (field : Field) (records : Plan → Plan → Prop) : Plan → Plan → Prop where
  | leaf {plan : Plan} (isLeaf : (compiler.schema.type field.target).isLeaf = true) :
      Composed field records (materialize field plan) (materialize field plan)
  | rows {plan record other : Plan} (composite : (compiler.schema.type field.target).isLeaf = false)
      (inside : records record other) :
      Composed field records (compiler.project field plan record) (compiler.project field plan other)

/-- A plan of a nested field in the records of a type. -/
def placed (owner : SchemaType) (field : Field) (depth : Nat) (plan : Plan) : Plan :=
  compiler.guardPartial owner field (bindParent field (compiler.rowOf owner field) depth plan)

/-- Bindings of the same key to the plan of one selection that is no post field, with two records for its rows. -/
def SameBinding (owner : TypeId) (level : List BoundSelection) (depth : Nat)
    (records : BoundSelection → Plan → Plan → Prop) (one other : String × Plan) : Prop :=
  one.1 = other.1 ∧ one.1 ≠ typenameKey ∧ ∃ selection ∈ level, compiler.schema.keyed selection = true ∧
    ∃ plan plan', compiler.Composed (compiler.schema.field selection.field) (records selection) plan plan' ∧
      one.2 = compiler.placed (compiler.schema.type owner) (compiler.schema.field selection.field) depth plan ∧
      other.2 = compiler.placed (compiler.schema.type owner) (compiler.schema.field selection.field) depth plan'

/-- A record of a level, and one that has the same bindings but does not name the type for post fields, here and
in all records below. -/
inductive NamesMore : TypeId → List BoundSelection → Nat → Plan → Plan → Prop where
  | record {owner : TypeId} {level : List BoundSelection} {depth : Nat} (named : Bool)
      {bindings others : List (String × Plan)} (records : BoundSelection → Plan → Plan → Prop)
      (same : List.Forall₂ (compiler.SameBinding owner level depth records) bindings others)
      (below : ∀ selection record other, records selection record other →
        NamesMore (compiler.schema.field selection.field).target selection.children (depth + 1) record other) :
      NamesMore owner level depth
        ((compiler.schema.type owner).recordOf (named || compiler.schema.conditionsPost level) bindings)
        ((compiler.schema.type owner).recordOf named others)

variable {compiler}

theorem recordOf_eq (type : SchemaType) (level : List BoundSelection) {bindings : List (String × Plan)}
    (hkeys : ∀ binding ∈ bindings, binding.1 ≠ typenameKey) :
    compiler.recordOf type level bindings =
      type.recordOf (level.any (needsTypename compiler.schema)) bindings := by
  have hkept : bindings.filter (fun binding => binding.1 != typenameKey) = bindings :=
    List.filter_eq_self.mpr fun binding hmem => bne_iff_ne.mpr (hkeys binding hmem)
  rw [recordOf, SchemaType.recordOf, hkept]

/-- What needs the name of the type is a selection other than the post fields, or a condition of one of them. -/
theorem any_needsTypename (schema : Schema) (level : List BoundSelection) :
    level.any (needsTypename schema) =
      ((levelWithoutPost schema level).any (needsTypename schema) || schema.conditionsPost level) := by
  induction level with
  | nil => rfl
  | cons selection rest ih =>
      rw [levelWithoutPost, Schema.conditionsPost, List.any_cons, List.any_cons, ih]
      cases hpost : (schema.field selection.field).isPost with
      | true =>
          rw [if_pos rfl, needsTypename, Field.isTypename_of_isPost hpost, Bool.or_false, Bool.true_and, Schema.conditionsPost]
          cases selection.condition?.isSome <;> simp
      | false =>
          have hsame : needsTypename schema (selection.withoutPost schema) = needsTypename schema selection := by
            rw [needsTypename, needsTypename, BoundSelection.condition?_withoutPost, BoundSelection.field_withoutPost]
          rw [if_neg Bool.false_ne_true, List.any_cons, hsame, Bool.false_and, Bool.false_or, Bool.or_assoc,
            Schema.conditionsPost]

variable {owner : TypeId} {level : List BoundSelection} {depth : Nat}

/-- Both tries to bind a key find it, or neither does. -/
theorem lookup_sameBindings {records : BoundSelection → Plan → Plan → Prop} {one other : List (String × Plan)}
    (h : List.Forall₂ (compiler.SameBinding owner level depth records) one other) (key : String) :
    (one.lookup key).isSome = (other.lookup key).isSome := by
  have hsame : SameBindings (fun _ _ => True) one other := h.imp fun _ _ hbinding => ⟨hbinding.1, trivial⟩
  exact lookup_isSome_of_same hsame key

/-- No binding is of the name of the type. -/
theorem keys_of_sameBindings {records : BoundSelection → Plan → Plan → Prop} {one other : List (String × Plan)}
    (h : List.Forall₂ (compiler.SameBinding owner level depth records) one other) :
    (∀ binding ∈ one, binding.1 ≠ typenameKey) ∧ ∀ binding ∈ other, binding.1 ≠ typenameKey := by
  induction h with
  | nil => simp
  | cons hbinding _ ih =>
      rw [List.forall_mem_cons, List.forall_mem_cons]
      exact ⟨⟨hbinding.2.1, ih.1⟩, hbinding.1 ▸ hbinding.2.1, ih.2⟩

theorem compose_composed {field : Field} {children : List BoundSelection} {records : Plan → Plan → Prop}
    (hrecord : Related records (compiler.record (compiler.schema.type field.target) children depth)
      (compiler.record (compiler.schema.type field.target) (levelWithoutPost compiler.schema children) depth))
    (plan : Plan) : Related (compiler.Composed field records) (compiler.compose field plan children depth)
      (compiler.compose field plan (levelWithoutPost compiler.schema children) depth) := by
  unfold compose
  dsimp only
  cases hleaf : (compiler.schema.type field.target).isLeaf with
  | true => exact .pure (.leaf hleaf)
  | false => exact hrecord.bind fun record other _ _ hrecords => .pure (.rows hleaf hrecords)

/-- The plan of a selection and the one without post fields below it. -/
theorem binding_composed {selection : BoundSelection} {records : Plan → Plan → Prop}
    (hrecord : Related records
      (compiler.record (compiler.schema.type (compiler.schema.field selection.field).target) selection.children
        (depth + 1))
      (compiler.record (compiler.schema.type (compiler.schema.field selection.field).target)
        (levelWithoutPost compiler.schema selection.children) (depth + 1))) (type : SchemaType) :
    Related (fun one other => ∃ plan plan',
        compiler.Composed (compiler.schema.field selection.field) records plan plan' ∧
          one = compiler.placed type (compiler.schema.field selection.field) depth plan ∧
          other = compiler.placed type (compiler.schema.field selection.field) depth plan')
      (compiler.binding type depth selection)
      (compiler.binding type depth (selection.withoutPost compiler.schema)) := by
  unfold binding
  rw [BoundSelection.field_withoutPost, BoundSelection.arguments_withoutPost, BoundSelection.children_withoutPost]
  refine (Related.refl _).bind ?_
  rintro built _ _ _ rfl
  exact (compose_composed hrecord built).bind fun plan plan' _ _ hplan => .pure ⟨plan, plan', hplan, rfl, rfl⟩

/-- Levels bind the same keys with their post fields and without. -/
theorem bindSelections_withoutPost {records : BoundSelection → Plan → Plan → Prop}
    (hrecord : ∀ selection ∈ level, Related (records selection)
      (compiler.record (compiler.schema.type (compiler.schema.field selection.field).target) selection.children
        (depth + 1))
      (compiler.record (compiler.schema.type (compiler.schema.field selection.field).target)
        (levelWithoutPost compiler.schema selection.children) (depth + 1)))
    {rest : List BoundSelection} {keys others : List (Option String)}
    (hkeys : compiler.schema.KeysWithoutPost rest keys others) (hrest : rest ⊆ level)
    {one two : List (String × Plan)}
    (hbound : List.Forall₂ (compiler.SameBinding owner level depth records) one two) :
    Related (List.Forall₂ (compiler.SameBinding owner level depth records))
      (compiler.bindSelections (compiler.schema.type owner) depth keys one rest)
      (compiler.bindSelections (compiler.schema.type owner) depth others two
        (levelWithoutPost compiler.schema rest)) := by
  induction hkeys generalizing one two with
  | nil => exact .pure hbound
  | post hpost _ ih =>
      rw [levelWithoutPost, if_pos hpost, bindSelections]
      exact ih (fun _ hmem => hrest (List.mem_cons_of_mem _ hmem)) hbound
  | unkeyed hplain _ ih =>
      rw [levelWithoutPost, hplain, if_neg Bool.false_ne_true, bindSelections, bindSelections]
      exact ih (fun _ hmem => hrest (List.mem_cons_of_mem _ hmem)) hbound
  | @keyed selection rest keys others key hkeyed hother _ ih =>
      obtain ⟨_, hplain⟩ := Schema.keyed_iff.mp hkeyed
      have hmem : selection ∈ level := hrest List.mem_cons_self
      rw [levelWithoutPost, hplain, if_neg Bool.false_ne_true, bindSelections, bindSelections, bindSelection_eq,
        bindSelection_eq, lookup_sameBindings hbound]
      have hsub : rest ⊆ level := fun _ hmem => hrest (List.mem_cons_of_mem _ hmem)
      split
      · rw [pure_bind, pure_bind]
        exact ih hsub hbound
      · rw [bind_assoc, bind_assoc]
        refine (binding_composed (hrecord selection hmem) _).bind fun plan plan' _ _ hplans => ?_
        rw [pure_bind, pure_bind]
        exact ih hsub (List.rel_append hbound (.cons ⟨rfl, hother, selection, hmem, hkeyed, hplans⟩ .nil))

/-- A level compiles to the record of the level without post fields, but for names of types: the same functions of
fields are called, and they fail alike. -/
theorem record_namesMore (hschema : compiler.schema.WellFormed) (level : List BoundSelection) :
    ∀ (owner : TypeId) (depth : Nat), Related (compiler.NamesMore owner level depth)
      (compiler.record (compiler.schema.type owner) level depth)
      (compiler.record (compiler.schema.type owner) (levelWithoutPost compiler.schema level) depth) := by
  induction level using BoundSelection.level_induction with
  | step level below =>
      intro owner depth
      have hkeys := @Schema.recordKeysFrom_withoutPost compiler.schema hschema owner level []
        fun _ hmem => absurd hmem List.not_mem_nil
      refine (Related.ofExcept hkeys).bind fun keys others _ _ hkeys => ?_
      have hbound := @bindSelections_withoutPost compiler owner level depth
        (fun selection => compiler.NamesMore (compiler.schema.field selection.field).target selection.children (depth + 1))
        (fun selection hmem => below selection hmem _ (depth + 1)) _ _ _ hkeys (List.Subset.refl _) _ _ .nil
      refine hbound.bind fun one two _ _ hsame => .pure ?_
      obtain ⟨hone, htwo⟩ := keys_of_sameBindings hsame
      rw [recordOf_eq _ _ hone, recordOf_eq _ _ htwo, any_needsTypename]
      exact .record _ _ hsame fun _ _ _ h => h

end Compiler

end GraphQuery
