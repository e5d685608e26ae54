import GraphQuery.Proofs.Query.Arrangement
import GraphQuery.Proofs.Query.Binding
import GraphQuery.Proofs.Query.Projection

/-! Tiers that cast. They build different plans for one field: one guards lists against null, and tests
the shape of a row before it reads a field that not every row has. As long as all such fields are members,
these plans come to the same on every row, since a member of null is null and so is all that is made of
it. -/

namespace GraphQuery

/-- Do two plans have the same value, or the same failure, wherever they are evaluated? -/
def Plan.Equivalent (first second : Plan) : Prop :=
  ∀ source vars row, first.evalIn source vars row = second.evalIn source vars row

/-- Can a field be read on all rows of a type in every tier that casts? -/
def Schema.Reads (schema : Schema) (owner : TypeId) (selection : BoundSelection) : Prop :=
  schema.isSubtype owner (schema.field selection.field).declaring = true ∨
    (schema.field selection.field).isMember = true ∨ (schema.field selection.field).isPost = true ∨
      (schema.field selection.field).isTypename = true

instance Schema.decidableReads (schema : Schema) (owner : TypeId) (selection : BoundSelection) :
    Decidable (schema.Reads owner selection) :=
  inferInstanceAs (Decidable (_ ∨ _ ∨ _ ∨ _))

namespace Compiler

open Traced (Related)

/-! ### Fields that not every row has -/

section

variable {compiler : Compiler} {source : Source} {vars : List (String × Value)} {row : Value}
  {field : Field} {plan : Plan}

/-- What is composed from a plan is null wherever the plan is. -/
theorem evalIn_compose_null {children : List BoundSelection} {depth : Nat} {composed : Plan}
    (hcomposed : (compiler.compose field plan children depth).outcome = .ok composed)
    (h : plan.evalIn source vars row = .ok .null) : composed.evalIn source vars row = .ok .null := by
  unfold compose at hcomposed
  dsimp only at hcomposed
  split at hcomposed
  · cases hcomposed
    rw [evalIn_materialize, h]
    exact field.settle_null _
  · obtain ⟨record, _, hpure⟩ := Traced.bind_ok_iff.mp hcomposed
    cases hpure
    rw [evalIn_project, h]
    exact field.arrange_null _ _

/-- A guard against rows without a field does nothing where the plan is null on them anyway. -/
theorem evalIn_guardPartial_of_null {owner : SchemaType}
    (hnull : compiler.lacks row owner field = true → plan.evalIn source vars row = .ok .null) :
    (compiler.guardPartial owner field plan).evalIn source vars row = plan.evalIn source vars row := by
  rw [evalIn_guardPartial_eq]
  split
  · next hguarded =>
      rw [Bool.and_eq_true] at hguarded
      exact (hnull hguarded.2).symm
  · rfl

/-- Where a row is cast, a member is null on rows that do not have it. -/
theorem evalIn_member_of_cast {owner : SchemaType} (hcasts : compiler.tier.casts = true)
    (hlacks : compiler.lacks row owner field = true) (name : String) :
    (Plan.member (compiler.rowOf owner field) name).evalIn source vars row = .ok .null := by
  rw [Plan.evalIn, evalIn_rowOf, parentValue, hcasts, hlacks]
  rfl

end

/-! ### Two tiers side by side -/

variable {schema : Schema} {data? : Option Value} {first second : Tier}

theorem bindParent_equivalent {field : Field} {base : Plan} {depth : Nat} {one other : Plan}
    (h : one.Equivalent other) :
    (bindParent field base depth one).Equivalent (bindParent field base depth other) := by
  intro source vars row
  unfold bindParent
  split
  · exact h source vars row
  · simp only [Plan.evalIn, h _ _ row]

theorem guardPartial_equivalent {compiler other : Compiler} {owner : SchemaType} {field : Field}
    {one two : Plan} (hone : compiler.isPartial owner field = false)
    (hother : other.isPartial owner field = false) (h : one.Equivalent two) :
    (compiler.guardPartial owner field one).Equivalent (other.guardPartial owner field two) := by
  rw [guardPartial, guardPartial, hone, hother]
  exact h

/-- Bindings of the same keys, each to plans that are related. -/
abbrev SameBindings (relation : Plan → Plan → Prop) : List (String × Plan) → List (String × Plan) → Prop :=
  List.Forall₂ fun one other => one.1 = other.1 ∧ relation one.2 other.2

section

variable {relation : Plan → Plan → Prop}

theorem lookup_isSome_of_same {one other : List (String × Plan)} (h : SameBindings relation one other)
    (key : String) : (one.lookup key).isSome = (other.lookup key).isSome := by
  induction h with
  | nil => rfl
  | @cons binding binding' _ _ hhead _ ih =>
      obtain ⟨name, plan⟩ := binding
      obtain ⟨name', plan'⟩ := binding'
      obtain ⟨rfl, _⟩ := hhead
      rw [List.lookup_cons, List.lookup_cons]
      dsimp only
      cases key == name with
      | true => rfl
      | false => exact ih

variable {compiler other : Compiler} {type : SchemaType} {depth : Nat}

theorem bindSelection_related {selection : BoundSelection}
    (hbinding : Related relation (compiler.binding type depth selection) (other.binding type depth selection))
    (key : String) {one two : List (String × Plan)} (hbound : SameBindings relation one two) :
    Related (SameBindings relation) (compiler.bindSelection type depth key one selection)
      (other.bindSelection type depth key two selection) := by
  rw [bindSelection_eq, bindSelection_eq, lookup_isSome_of_same hbound]
  split
  · exact .pure hbound
  · refine hbinding.bind fun _ _ _ _ h => .pure ?_
    exact List.rel_append hbound (.cons ⟨rfl, h⟩ .nil)

/-- Where two compilers relate the plans of the selections of a level, they relate all that the level binds. -/
theorem bindSelections_related {level : List BoundSelection}
    (hbinding : ∀ selection ∈ level,
      Related relation (compiler.binding type depth selection) (other.binding type depth selection))
    (keys : List (Option String)) {one two : List (String × Plan)} (hbound : SameBindings relation one two) :
    Related (SameBindings relation) (compiler.bindSelections type depth keys one level)
      (other.bindSelections type depth keys two level) := by
  induction level generalizing keys one two with
  | nil => exact .pure hbound
  | cons selection rest ih =>
      have hrest := ih fun later hmem => hbinding later (List.mem_cons_of_mem _ hmem)
      match keys with
      | [] => exact .pure hbound
      | none :: keys => exact hrest keys hbound
      | some key :: keys =>
          exact (bindSelection_related (hbinding selection List.mem_cons_self) key hbound).bind
            fun _ _ _ _ h => hrest keys h

end

theorem evalBindings_of_same {one other : List (String × Plan)} (h : SameBindings Plan.Equivalent one other)
    (source : Source) (vars : List (String × Value)) (row : Value) :
    Plan.evalBindings source vars row one = Plan.evalBindings source vars row other := by
  induction h with
  | nil => rfl
  | @cons binding binding' _ _ hhead _ ih =>
      obtain ⟨name, plan⟩ := binding
      obtain ⟨name', plan'⟩ := binding'
      obtain ⟨rfl, hplan⟩ := hhead
      rw [Plan.evalBindings, Plan.evalBindings, hplan, ih]

theorem recordOf_equivalent {compiler other : Compiler} (hschema : compiler.schema = other.schema)
    (type : SchemaType) (level : List BoundSelection) {one two : List (String × Plan)}
    (h : SameBindings Plan.Equivalent one two) :
    (compiler.recordOf type level one).Equivalent (other.recordOf type level two) := by
  intro source vars row
  unfold recordOf
  rw [hschema]
  split
  · have hkept : SameBindings Plan.Equivalent (one.filter fun entry => entry.1 != typenameKey)
        (two.filter fun entry => entry.1 != typenameKey) :=
      List.rel_filter (fun a b hsame => by simp only [hsame.1]) h
    rw [Plan.evalIn, Plan.evalIn, Plan.evalBindings, Plan.evalBindings, evalBindings_of_same hkept]
  · rw [Plan.evalIn, Plan.evalIn, evalBindings_of_same h]

theorem project_equivalent {compiler other : Compiler} {field : Field} {plan one two : Plan}
    (h : one.Equivalent two) :
    (compiler.project field plan one).Equivalent (other.project field plan two) := by
  intro source vars row
  rw [evalIn_project, evalIn_project]
  refine congrArg (fun record => plan.evalIn source vars row >>= field.arrange plan.isSequence record) ?_
  funext item
  exact h source vars item

/-- Only fields that have a plan of their own are bound. -/
theorem of_tracedPlan_ok {field : Field} {scope : PlanScope} {arguments : Arguments} {plan : Plan}
    (h : (field.tracedPlan scope arguments).outcome = .ok plan) :
    field.buildPlan scope arguments = .ok plan ∧ field.isPost = false ∧ field.isTypename = false := by
  have hplan : field.buildPlan scope arguments = .ok plan := by
    unfold Field.tracedPlan at h
    dsimp only at h
    split at h <;> exact Outcome.mapError_ok_iff.mp h
  refine ⟨hplan, ?_⟩
  rw [Field.isPost, Field.isTypename]
  rw [Field.buildPlan] at hplan
  cases hresolver : field.resolver <;> simp_all

/-- What is composed from two plans comes to the same where the plans do, both or neither of them sequences, and
the records of their rows do. -/
theorem compose_congr {compiler : Compiler} {field : Field} {children : List BoundSelection} {depth : Nat}
    {source : Source} {vars others : List (String × Value)} {row : Value} {one other : Plan}
    (hsequence : one.isSequence = other.isSequence)
    (hvalue : one.evalIn source vars row = other.evalIn source others row)
    (hrecord : ∀ record,
      (compiler.record (compiler.schema.type field.target) children depth).outcome = .ok record →
        ∀ item, record.evalIn source vars item = record.evalIn source others item) :
    Related (fun first second => first.evalIn source vars row = second.evalIn source others row)
      (compiler.compose field one children depth) (compiler.compose field other children depth) := by
  unfold compose
  dsimp only
  split
  · refine .pure ?_
    rw [evalIn_materialize, evalIn_materialize, hvalue, hsequence]
  · refine (Related.refl _).bind fun record _ hok _ hsame => .pure ?_
    subst hsame
    rw [evalIn_project, evalIn_project, hvalue, hsequence, funext (hrecord record hok)]

theorem compose_related {field : Field} {children : List BoundSelection} {depth : Nat}
    (hrecord : Related Plan.Equivalent
      (Compiler.record ⟨schema, first, data?⟩ (schema.type field.target) children depth)
      (Compiler.record ⟨schema, second, data?⟩ (schema.type field.target) children depth))
    (plan : Plan) :
    Related Plan.Equivalent (Compiler.compose ⟨schema, first, data?⟩ field plan children depth)
      (Compiler.compose ⟨schema, second, data?⟩ field plan children depth) := by
  unfold compose
  dsimp only
  split
  · exact .pure fun _ _ _ => rfl
  · exact hrecord.bind fun _ _ _ _ h => .pure (project_equivalent h)

section

variable (hfirst : first.casts = true) (hsecond : second.casts = true)

include hfirst hsecond

theorem binding_related {owner : TypeId} (hid : (schema.type owner).id = owner) {depth : Nat}
    {selection : BoundSelection} (hreads : schema.Reads owner selection)
    (hcomposed : ∀ plan, Related Plan.Equivalent
      (Compiler.compose ⟨schema, first, data?⟩ (schema.field selection.field) plan selection.children
        (depth + 1))
      (Compiler.compose ⟨schema, second, data?⟩ (schema.field selection.field) plan selection.children
        (depth + 1))) :
    Related Plan.Equivalent
      (Compiler.binding ⟨schema, first, data?⟩ (schema.type owner) depth selection)
      (Compiler.binding ⟨schema, second, data?⟩ (schema.type owner) depth selection) := by
  have hbase : Compiler.rowOf ⟨schema, first, data?⟩ (schema.type owner) (schema.field selection.field) =
      Compiler.rowOf ⟨schema, second, data?⟩ (schema.type owner) (schema.field selection.field) := by
    simp only [rowOf, isPartial, hfirst, hsecond]
  unfold binding
  dsimp only
  rw [hbase]
  refine (Related.refl _).bind fun plan _ hplan _ hsame => ?_
  subst hsame
  refine (hcomposed plan).bind fun one two hone htwo hequal => .pure ?_
  cases hpartial : isPartial ⟨schema, second, data?⟩ (schema.type owner)
      (schema.field selection.field) with
  | false => exact guardPartial_equivalent hpartial hpartial (bindParent_equivalent hequal)
  | true =>
      -- the field has a plan and is read on rows that do not have it, so that it is a member
      obtain ⟨hbuilt, hpost, htypename⟩ := of_tracedPlan_ok hplan
      have hmember : (schema.field selection.field).isMember = true := by
        rw [isPartial, hid, Bool.not_eq_true'] at hpartial
        simpa [Schema.Reads, hpartial, hpost, htypename] using hreads
      obtain ⟨name, hresolver⟩ := Field.resolver_of_isMember hmember
      have hsees : seesRow (schema.field selection.field) = true := by
        rw [seesRow, hmember, Bool.or_true]
      rw [Field.buildPlan, hresolver, parentOf, if_pos hsees] at hbuilt
      cases hbuilt
      rw [bindParent, bindParent, if_pos hsees, if_pos hsees]
      intro source vars row
      rw [evalIn_guardPartial_of_null fun hlacks => ?_, evalIn_guardPartial_of_null fun hlacks => ?_]
      · exact hequal source vars row
      · exact evalIn_compose_null htwo (evalIn_member_of_cast hsecond hlacks name)
      · rw [← hbase] at hone
        exact evalIn_compose_null hone (evalIn_member_of_cast hfirst hlacks name)

/-- Tiers that cast have the same records for levels on which they read all fields alike. -/
theorem record_related (hschema : schema.WellFormed) (level : List BoundSelection) :
    ∀ {owner : TypeId} {depth : Nat}, (schema.type owner).id = owner →
      schema.Throughout schema.Reads owner level →
      Related Plan.Equivalent (Compiler.record ⟨schema, first, data?⟩ (schema.type owner) level depth)
        (Compiler.record ⟨schema, second, data?⟩ (schema.type owner) level depth) := by
  induction level using BoundSelection.level_induction with
  | step level below =>
      intro owner depth hid hreads
      have hbinding : ∀ selection ∈ level, Related Plan.Equivalent
          (Compiler.binding ⟨schema, first, data?⟩ (schema.type owner) depth selection)
          (Compiler.binding ⟨schema, second, data?⟩ (schema.type owner) depth selection) := by
        intro selection hmem
        refine binding_related hfirst hsecond hid (hreads.here selection hmem) (compose_related ?_)
        exact below selection hmem (hschema.id_of_target selection.field) (hreads.children hmem)
      unfold record
      refine (Related.refl _).bind fun keys _ _ _ hsame => ?_
      subst hsame
      refine (bindSelections_related hbinding keys .nil).bind fun _ _ _ _ h => .pure ?_
      exact recordOf_equivalent rfl _ level h

end

/-- The default tier and the enumerable one compile a field alike: they fail with the same failure, or
their plans have the same value or the same failure wherever they are evaluated. -/
theorem compose_default_enumerable {schema : Schema} (hcompleted : schema.Completed)
    (data? : Option Value) {field : Field} (hfield : field ∈ schema.fields)
    {children : List BoundSelection} (hreads : schema.Throughout schema.Reads field.target children)
    (plan : Plan) (depth : Nat) :
    Related Plan.Equivalent (Compiler.compose ⟨schema, .default, data?⟩ field plan children depth)
      (Compiler.compose ⟨schema, .enumerable, data?⟩ field plan children depth) := by
  have hschema := hcompleted.wellFormed
  have hid := hschema.id_of_lt (hschema.target_lt field hfield)
  exact compose_related (record_related rfl rfl hschema children hid hreads) plan

/-- Animals, asked for their numbers and whether they bark, which only dogs do. -/
theorem kennel_compose_related :
    let schema := Schema.kennel
    let children := ((⟨schema, [], [], none⟩ : Binder).bind 7 [.field none "id" [] [],
      .inline (some "Dog") [.field none "barks" [] []]]).toOption.getD []
    ∃ field ∈ schema.fields, field.target = 7 ∧ schema.Throughout schema.Reads field.target children ∧
      (∃ selection ∈ children,
        schema.isSubtype 7 (schema.field selection.field).declaring = false) ∧
      (Compiler.compose ⟨schema, .default, none⟩ field (.collection "animals") children 1).outcome.isOk =
        true ∧
      Related Plan.Equivalent
        (Compiler.compose ⟨schema, .default, none⟩ field (.collection "animals") children 1)
        (Compiler.compose ⟨schema, .enumerable, none⟩ field (.collection "animals") children 1) := by
  intro schema children
  have hconcrete : ((schema.lookupField? 5 "animals").map fun field => (field.target,
        (Compiler.compose ⟨schema, .default, none⟩ field (.collection "animals") children
          1).outcome.isOk)) = some (7, true) ∧ schema.Throughout schema.Reads 7 children ∧
      ∃ selection ∈ children, schema.isSubtype 7 (schema.field selection.field).declaring = false := by
    decide +kernel
  obtain ⟨hanimals, hreads, hpartial⟩ := hconcrete
  obtain ⟨field, hlookup, hfield⟩ := Option.map_eq_some_iff.mp hanimals
  rw [Prod.mk.injEq] at hfield
  obtain ⟨htarget, hok⟩ := hfield
  have hmem : field ∈ schema.fields :=
    List.mem_of_getElem? (Schema.kennel_completed.wellFormed.field_of_lookup hlookup)
  rw [← htarget] at hreads
  exact ⟨field, hmem, htarget, hreads, hpartial, hok, compose_default_enumerable
    Schema.kennel_completed none hmem hreads (.collection "animals") 1⟩

end Compiler

end GraphQuery
