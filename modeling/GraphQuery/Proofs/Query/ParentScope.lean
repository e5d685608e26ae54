import GraphQuery.Proofs.Query.Builder
import GraphQuery.Proofs.Query.Tier

/-! Nested plans and the names of their parents. A plan of its own finds the row that it is resolved on under
a name made from its depth, since its operators bind rows of their own. As long as its builder takes the
parent as it is, the name is as good as the row itself: no operator around it changes what it stands for, the
plans nested below bind their own, and none is ever without a value. -/

namespace GraphQuery

open Compiler (parentName)
open Plan (Free fill bears)
open Traced (Related)

/-- A plan never fails for the name of a parent, unless a collection does. -/
def Plan.FindsParents (plan : Plan) : Prop :=
  ∀ source vars row depth,
    (∀ collection, source.collection collection ≠ .error (.unboundVariable (parentName depth))) →
      plan.evalIn source vars row ≠ .error (.unboundVariable (parentName depth))

/-- The plan of a selection in the records of a type, its builder given some parent itself. -/
def Compiler.bindingOn (compiler : Compiler) (owner : SchemaType) (depth : Nat) (parent : Plan)
    (selection : BoundSelection) : Traced Plan := do
  let field := compiler.schema.field selection.field
  let plan ← field.tracedPlan ⟨parent, none, compiler.data?⟩ selection.arguments
  let composed ← compiler.compose field plan selection.children (depth + 1)
  pure (compiler.guardPartial owner field composed)

/-! ### Free names of compiled plans -/

namespace Compiler

variable {compiler : Compiler} {field : Field} {plan : Plan} {name : String}

theorem free_materialize (h : Free name (materialize field plan)) : Free name plan := by
  unfold materialize at h
  split at h
  · exact h
  · split at h
    · exact (Plan.free_single rfl rfl).mp h
    · exact (Plan.free_single rfl rfl).mp h
    · exact (Plan.free_single rfl rfl).mp h
    · split at h <;> exact (Plan.free_single rfl rfl).mp h

theorem free_project {record : Plan} (h : Free name (compiler.project field plan record)) :
    Free name plan ∨ Free name record := by
  unfold project at h
  split at h
  · unfold listOf at h
    split at h
    · refine ((Plan.free_pair rfl rfl).mp h).imp_right fun hlist => ?_
      have hproject := (Plan.free_pair rfl rfl).mp ((Plan.free_single rfl rfl).mp hlist)
      exact hproject.resolve_left (Plan.not_free_leaf rfl rfl)
    · exact (Plan.free_pair rfl rfl).mp ((Plan.free_single rfl rfl).mp h)
  · split at h
    · exact (Plan.free_pair rfl rfl).mp (free_materialize h)
    · exact (Plan.free_pair rfl rfl).mp h

theorem not_free_rowOf (owner : SchemaType) : ¬ Free name (compiler.rowOf owner field) := by
  unfold rowOf
  dsimp only
  split
  · exact fun h => Plan.not_free_leaf rfl rfl ((Plan.free_single rfl rfl).mp h)
  · exact Plan.not_free_leaf rfl rfl

theorem free_guardPartial {owner : SchemaType} (h : Free name (compiler.guardPartial owner field plan)) :
    Free name plan := by
  unfold guardPartial at h
  dsimp only at h
  split at h
  · obtain ⟨part, hmem, hfree⟩ := (Plan.free_node_iff rfl).mp h
    simp only [Plan.children, List.mem_cons, List.not_mem_nil, or_false] at hmem
    rcases hmem with rfl | rfl | rfl
    · exact absurd ((Plan.free_single rfl rfl).mp hfree) (Plan.not_free_leaf rfl rfl)
    · exact hfree
    · exact absurd hfree (Plan.not_free_leaf rfl rfl)
  · exact h

theorem free_recordOf {type : SchemaType} {level : List BoundSelection} {bindings : List (String × Plan)}
    (h : Free name (compiler.recordOf type level bindings)) :
    Free name type.typename ∨ ∃ binding ∈ bindings, Free name binding.2 := by
  unfold recordOf at h
  obtain ⟨_, hmem, hfree⟩ := (Plan.free_node_iff rfl).mp h
  obtain ⟨binding, hbinding, rfl⟩ := List.mem_map.mp hmem
  split at hbinding
  · rcases List.mem_cons.mp hbinding with rfl | hbinding
    · exact Or.inl hfree
    · exact Or.inr ⟨binding, List.mem_of_mem_filter hbinding, hfree⟩
  · exact Or.inr ⟨binding, hbinding, hfree⟩

theorem free_compose {children : List BoundSelection} {depth : Nat} {composed : Plan}
    (hcomposed : (compiler.compose field plan children depth).outcome = .ok composed)
    (h : Free name composed) : Free name plan ∨ ∃ record,
      (compiler.record (compiler.schema.type field.target) children depth).outcome = .ok record ∧
        Free name record := by
  unfold compose at hcomposed
  dsimp only at hcomposed
  split at hcomposed
  · cases hcomposed
    exact Or.inl (free_materialize h)
  · obtain ⟨record, hrecord, hpure⟩ := Traced.bind_ok_iff.mp hcomposed
    cases hpure
    exact (free_project h).imp_right fun hfree => ⟨record, hrecord, hfree⟩

/-- What holds of the plans of the selections of a level holds of all that the level binds. -/
theorem forall_bindSelections {holds : Plan → Prop} {owner : SchemaType} {depth : Nat}
    {level : List BoundSelection} (hbinding : ∀ selection ∈ level, ∀ plan,
      (compiler.binding owner depth selection).outcome = .ok plan → holds plan)
    {keys : List (Option String)} {result : List (String × Plan)}
    (h : (compiler.bindSelections owner depth keys [] level).outcome = .ok result) :
    ∀ entry ∈ result, holds entry.2 := by
  have hself := (bindSelections_related (fun selection hmem => .self (hbinding selection hmem)) keys .nil).outcome
  rw [h] at hself
  cases hself with
  | ok hresult => exact fun entry hmem => (List.forall₂_same.mp hresult entry hmem).2.2

end Compiler

/-- The plan that names the type of a row has no variables. -/
theorem Completion.not_free_typenamePlan (context : Merge.Context) (type : TypeId) (concrete : List TypeId)
    (name : String) : ¬ Free name (typenamePlan context type concrete) := by
  unfold typenamePlan
  induction concrete with
  | nil => exact Plan.not_free_leaf rfl rfl
  | cons id rest ih =>
      intro h
      obtain ⟨part, hmem, hfree⟩ := (Plan.free_node_iff rfl).mp h
      simp only [List.foldr_cons, Plan.children, List.mem_cons, List.not_mem_nil, or_false] at hmem
      rcases hmem with rfl | rfl | rfl
      · exact absurd ((Plan.free_single rfl rfl).mp hfree) (Plan.not_free_leaf rfl rfl)
      · exact Plan.not_free_leaf rfl rfl hfree
      · exact ih hfree

theorem Schema.Completed.not_free_typename {schema : Schema} (h : schema.Completed) (id : TypeId)
    (name : String) : ¬ Free name (schema.type id).typename := by
  by_cases hlt : id < schema.types.length
  · obtain ⟨context, built, horigin, rfl⟩ := h.exists_origin
    change ¬ Free name (built.type id).typename
    rw [(horigin.typeOf hlt).typename_eq]
    exact Completion.not_free_typenamePlan context id _ name
  · have hdefault : schema.type id = default := by
      rw [Schema.type, List.getD_eq_default _ _ (Nat.le_of_not_lt hlt)]
    rw [hdefault]
    exact Plan.not_free_leaf rfl rfl

namespace Compiler

variable {schema : Schema} (hcompleted : schema.Completed) {tier : Tier} {data? : Option Value}

/-- A level of selections whose builders, and those below them, take their parents as they are. -/
abbrev WholeLevel (schema : Schema) (owner : TypeId) (level : List BoundSelection) : Prop :=
  schema.Throughout (fun _ selection => (schema.field selection.field).resolver.TakesWhole) owner level

/-- The plan of a selection has no name of a parent free where the records below it have none. -/
theorem not_free_binding {owner : SchemaType} {depth : Nat} {selection : BoundSelection}
    (hwhole : (schema.field selection.field).resolver.TakesWhole)
    (hrecord : ∀ record other, (Compiler.record ⟨schema, tier, data?⟩
      (schema.type (schema.field selection.field).target) selection.children (depth + 1)).outcome = .ok record →
        ¬ Free (parentName other) record)
    {plan : Plan} (h : (Compiler.binding ⟨schema, tier, data?⟩ owner depth selection).outcome = .ok plan)
    (other : Nat) : ¬ Free (parentName other) plan := by
  obtain ⟨built, hbuilt, h⟩ := Traced.bind_ok_iff.mp h
  obtain ⟨composed, hcomposed, hpure⟩ := Traced.bind_ok_iff.mp h
  cases hpure
  intro hfree
  have hbody : Free (parentName other) composed → Free (parentName other)
      (parentOf (schema.field selection.field) (Compiler.rowOf ⟨schema, tier, data?⟩ owner
        (schema.field selection.field)) depth) := by
    intro hfree
    rcases free_compose hcomposed hfree with hplan | ⟨record, hok, hinside⟩
    · exact Field.free_tracedPlan hwhole none data? selection.arguments hbuilt hplan
    · exact absurd hinside (hrecord record other hok)
  have hbound := free_guardPartial hfree
  cases hsees : seesRow (schema.field selection.field) with
  | true =>
      rw [bindParent, if_pos hsees] at hbound
      have hbase := hbody hbound
      rw [parentOf, if_pos hsees] at hbase
      exact not_free_rowOf owner hbase
  | false =>
      rw [bindParent, if_neg (Bool.eq_false_iff.mp hsees)] at hbound
      -- the one name that the builder may leave free is the one that is bound around its plan
      rcases Plan.free_bind_iff.mp hbound with hbase | ⟨hother, hfree⟩
      · exact not_free_rowOf owner hbase
      · have hvar := hbody hfree
        rw [parentOf, if_neg (Bool.eq_false_iff.mp hsees)] at hvar
        exact hother (Plan.free_var_iff.mp hvar)

include hcompleted

/-- Nor has the record of a level. -/
theorem not_free_record (level : List BoundSelection) : ∀ {owner : TypeId} (depth : Nat),
    WholeLevel schema owner level → ∀ record other,
      (Compiler.record ⟨schema, tier, data?⟩ (schema.type owner) level depth).outcome = .ok record →
        ¬ Free (parentName other) record := by
  induction level using BoundSelection.level_induction with
  | step level below =>
      intro owner depth hwhole record other h
      obtain ⟨keys, _, h⟩ := Traced.bind_ok_iff.mp h
      obtain ⟨bound, hbound, hpure⟩ := Traced.bind_ok_iff.mp h
      cases hpure
      intro hfree
      rcases free_recordOf hfree with htypename | ⟨entry, hmem, hentry⟩
      · exact hcompleted.not_free_typename owner _ htypename
      · have hbindings : ∀ selection ∈ level, ∀ plan,
            (Compiler.binding ⟨schema, tier, data?⟩ (schema.type owner) depth selection).outcome = .ok plan →
              ¬ Free (parentName other) plan := by
          intro selection hselection plan hplan
          have hbelow := below selection hselection (depth + 1) (hwhole.children hselection)
          exact not_free_binding (hwhole.here selection hselection) hbelow hplan other
        exact forall_bindSelections hbindings hbound entry hmem hentry

/-- What is composed from a plan around the name of a parent comes to the same, with the name bound to a value,
as what is composed from the plan around that value. -/
theorem compose_fill_related {field : Field} {children : List BoundSelection}
    (hwhole : WholeLevel schema field.target children) {hole : String} {template : Plan}
    (hnames : ∀ depth, template.any (bears (parentName depth)) = false) (depth inner : Nat) (source : Source)
    (vars : List (String × Value)) (value row : Value) :
    Related (fun composed given =>
        composed.evalIn source ((parentName depth, value) :: vars) row = given.evalIn source vars row)
      (Compiler.compose ⟨schema, tier, data?⟩ field (fill hole (.var (parentName depth)) template) children inner)
      (Compiler.compose ⟨schema, tier, data?⟩ field (fill hole (.const value) template) children inner) := by
  have hsequence : (fill hole (.var (parentName depth)) template).isSequence =
      (fill hole (.const value) template).isSequence :=
    @Plan.isSequence_fill (.var (parentName depth)) (.const value) rfl hole template
  have hclosed : ¬ Free (parentName depth) (fill hole (.const value) template) := by
    intro hfree
    rcases Plan.free_of_fill hfree with hbears | hconst
    · rw [hnames depth] at hbears
      cases hbears
    · exact Plan.not_free_leaf rfl rfl hconst
  have hplan : (fill hole (.var (parentName depth)) template).evalIn source ((parentName depth, value) :: vars) row =
      (fill hole (.const value) template).evalIn source vars row :=
    calc (fill hole (.var (parentName depth)) template).evalIn source ((parentName depth, value) :: vars) row
        = (fill hole (.const value) template).evalIn source ((parentName depth, value) :: vars) row :=
          Plan.evalIn_fill_var (hnames depth) List.lookup_cons_self row
      _ = (fill hole (.const value) template).evalIn source vars row := Plan.evalIn_cons hclosed value vars row
  refine compose_congr hsequence hplan fun record hrecord item => ?_
  -- no depth need be compared with another: records bind all names of parents that they use
  exact Plan.evalIn_cons (not_free_record hcompleted children inner hwhole record depth hrecord) value vars item

omit hcompleted in
theorem findsParents_of_not_free {plan : Plan} (h : ∀ depth, ¬ Free (parentName depth) plan) :
    plan.FindsParents := by
  intro source vars row depth hsource
  have hsequence (operation found : String) :
      StoreError.unboundVariable (parentName depth) ≠ .notASequence operation found := nofun
  refine Plan.evalIn_avoids hsequence hsource (fun name hname hfree => ?_) row
  cases hname
  exact absurd hfree (h depth)

section

variable {owner : TypeId} {level : List BoundSelection} (hwhole : WholeLevel schema owner level)
  {selection : BoundSelection} (hmem : selection ∈ level)

include hwhole hmem

/-- The plan of a nested field finds all names of parents, those below it included. -/
theorem findsParents_binding {type : SchemaType} {depth : Nat} {plan : Plan}
    (hplan : (Compiler.binding ⟨schema, tier, data?⟩ type depth selection).outcome = .ok plan) :
    plan.FindsParents := by
  refine findsParents_of_not_free (not_free_binding (hwhole.here selection hmem) ?_ hplan)
  exact not_free_record hcompleted selection.children (depth + 1) (hwhole.children hmem)

/-- So does the plan of a root field, which has the context of the store for its parent. -/
theorem findsParents_root {result? : Option Value} {plan composed : Plan} {depth : Nat}
    (hplan : ((schema.field selection.field).tracedPlan ⟨.context, result?, data?⟩ selection.arguments).outcome =
      .ok plan)
    (hcomposed : (Compiler.compose ⟨schema, tier, data?⟩ (schema.field selection.field) plan selection.children
      depth).outcome = .ok composed) : composed.FindsParents := by
  refine findsParents_of_not_free fun other hfree => ?_
  rcases free_compose hcomposed hfree with hbuilt | ⟨record, hrecord, hinside⟩
  · have hcontext :=
      Field.free_tracedPlan (hwhole.here selection hmem) result? data? selection.arguments hplan hbuilt
    exact Plan.not_free_leaf rfl rfl hcontext
  · exact not_free_record hcompleted selection.children depth (hwhole.children hmem) record other hrecord hinside

/-- A nested field that does not see its row has the value that it has when its builder is given the constant
of its parent in the place of the name. -/
theorem binding_related_given (hsees : seesRow (schema.field selection.field) = false) (type : SchemaType)
    (depth : Nat) (source : Source) (vars : List (String × Value)) (row : Value) :
    let compiler : Compiler := ⟨schema, tier, data?⟩
    Related (fun compiled given => compiled.evalIn source vars row = given.evalIn source vars row)
      (compiler.binding type depth selection)
      (compiler.bindingOn type depth
        (.const (compiler.parentValue row type (schema.field selection.field))) selection) := by
  intro compiler
  have hunseen := Bool.eq_false_iff.mp hsees
  unfold binding bindingOn
  dsimp only
  rw [parentOf, if_neg hunseen]
  refine (Field.tracedPlan_related (hwhole.here selection hmem) none data? selection.arguments _ _).bind ?_
  rintro _ _ _ _ ⟨hole, template, hnames, rfl, rfl⟩
  refine (compose_fill_related hcompleted (hwhole.children hmem) hnames depth (depth + 1) source vars
    (compiler.parentValue row type (schema.field selection.field)) row).bind ?_
  refine fun composed given _ _ hsame => .pure ?_
  rw [evalIn_guardPartial_eq, evalIn_guardPartial_eq, evalIn_bindParent, around, if_neg hunseen, hsame]

end

end Compiler

/-- A nested plan sees its own parent everywhere. Let all builders of a level and below it take their parents
as they are. In every tier, at every depth, and on every row among any variables and collections, the plan of
a nested field that has a builder and goes to a store then makes the calls, and has the failure or the value,
that it has when the builder is given the constant of its parent, which is the row or its cast. No plan of a
nested field, and no plan of a root field, is ever without a value for the name of a parent. -/
theorem Schema.nested_plan_sees_parent {schema : Schema} (hcompleted : schema.Completed) (tier : Tier)
    (data? : Option Value) {owner : TypeId} {level : List BoundSelection}
    (hwhole : schema.Throughout (fun _ selection => (schema.field selection.field).resolver.TakesWhole) owner level)
    {selection : BoundSelection} (hmem : selection ∈ level) (depth : Nat) :
    let compiler : Compiler := ⟨schema, tier, data?⟩
    let type := schema.type owner
    let field := schema.field selection.field
    (field.bringsPlan = true → field.resolution ≠ .unmodified → ∀ source vars row,
      ∃ parent, (compiler.rowOf type field).evalIn source vars row = .ok parent ∧
        Traced.Related (fun compiled given => compiled.evalIn source vars row = given.evalIn source vars row)
          (compiler.binding type depth selection) (compiler.bindingOn type depth (.const parent) selection)) ∧
    (∀ plan, (compiler.binding type depth selection).outcome = .ok plan → plan.FindsParents) ∧
    ∀ result? plan composed,
      (field.tracedPlan ⟨.context, result?, data?⟩ selection.arguments).outcome = .ok plan →
      (compiler.compose field plan selection.children depth).outcome = .ok composed → composed.FindsParents := by
  intro compiler type field
  refine ⟨fun hbrings hresolution source vars row => ?_, ?_, ?_⟩
  · refine ⟨compiler.parentValue row type field, compiler.evalIn_rowOf source vars row type field, ?_⟩
    have hsees : Compiler.seesRow field = false := by
      rw [Compiler.seesRow, beq_eq_false_iff_ne.mpr hresolution, Bool.false_or, Field.isMember]
      rw [Field.bringsPlan] at hbrings
      split
      · next hresolver =>
          rw [hresolver] at hbrings
          cases hbrings
      · rfl
    exact Compiler.binding_related_given hcompleted hwhole hmem hsees type depth source vars row
  · exact fun plan => Compiler.findsParents_binding hcompleted hwhole hmem
  · exact fun result? plan composed => Compiler.findsParents_root hcompleted hwhole hmem

/-- Declarations of an aviary. The nests of a bird are those that name it, its home first; owls hunt at the
nests of their prey; and the eggs of a nest are those that name that. -/
def Declaration.aviary : List Declaration :=
  [.type (.ofKind .object "Bird"), .type ⟨"Owl", none, some "Bird", [], .object⟩,
    .type (.ofKind .object "Nest"), .type (.ofKind .object "Egg"),
    .field 7 { FieldSpec.plain "nests" "[Nest]" with
      resolver? := some (.plan fun scope _ => .ok (.bind "bird" (.member scope.parent "id")
        (.orderBy (.filter (.collection "nests") (.compare .eq (.member .row "bird") (.var "bird")))
          (.compare .eq (.member .row "id") (.member scope.parent "home")) true))) },
    .field 8 { FieldSpec.plain "hunts" "Nest" with
      resolver? := some (.plan fun scope _ => .ok (.filter (.collection "nests")
        (.nullGuard (.member .row "bird") (.compare .eq .row (.member scope.parent "prey")) "Boolean")))
      resolution? := some .first },
    .field 9 (.plain "id" "Int"),
    .field 9 { FieldSpec.plain "eggs" "[Egg]" with
      resolver? := some (.plan fun scope _ => .ok (.filter (.collection "eggs")
        (.compare .eq (.member .row "nest") (.member scope.parent "id")))) },
    .field 10 (.plain "id" "Int")]

/-- The schema of an aviary: types 7 to 10 are birds, owls, nests and eggs. -/
def Schema.aviary : Schema :=
  ((Draft.start.declareAll Declaration.aviary).bind fun draft => draft.complete.1).toOption.get
    (by decide +kernel)

theorem Schema.aviary_completed : Schema.aviary.Completed :=
  Schema.completed_of_toOption (Option.some_get _).symm

theorem Declaration.aviary_takesWhole : ∀ declaration ∈ Declaration.aviary, declaration.TakesWhole := by
  have hhole (depth : Nat) : ("" == parentName depth) = false := Compiler.ne_parentName (by decide) depth
  have hbird (depth : Nat) : ("bird" == parentName depth) = false := Compiler.ne_parentName (by decide) depth
  simp only [aviary, List.forall_mem_cons]
  refine ⟨takesWhole_type _, takesWhole_type _, takesWhole_type _, takesWhole_type _, takesWhole_field 7 ?_,
    takesWhole_field 8 ?_, takesWhole_field 9 trivial, takesWhole_field 9 ?_, takesWhole_field 10 trivial,
    fun _ hmem => absurd hmem List.not_mem_nil⟩
  · refine fun _ _ _ => @Plan.TakesWhole.fills _ "" (.bind "bird" (.member (.var "") "id")
      (.orderBy (.filter (.collection "nests") (.compare .eq (.member .row "bird") (.var "bird")))
        (.compare .eq (.member .row "id") (.member (.var "") "home")) true)) (fun depth => ?_) fun _ => rfl
    simp only [Plan.any, bears, hhole, hbird, Bool.or_self]
  · refine fun _ _ _ => @Plan.TakesWhole.fills _ "" (.filter (.collection "nests")
      (.nullGuard (.member .row "bird") (.compare .eq .row (.member (.var "") "prey")) "Boolean"))
      (fun depth => ?_) fun _ => rfl
    simp only [Plan.any, bears, hhole, Bool.or_self]
  · refine fun _ _ _ => @Plan.TakesWhole.fills _ "" (.filter (.collection "eggs")
      (.compare .eq (.member .row "nest") (.member (.var "") "id"))) (fun depth => ?_) fun _ => rfl
    simp only [Plan.any, bears, hhole, Bool.or_self]

/-- The nests of two birds, and an egg in one of them. -/
def Source.aviary : Source where
  collection name := .ok (if name == "nests" then
      [.ofEntries [("id", .number (.int 3)), ("bird", .number (.int 1))],
        .ofEntries [("id", .number (.int 4)), ("bird", .number (.int 1))],
        .ofEntries [("id", .number (.int 5)), ("bird", .number (.int 2))]]
    else [.ofEntries [("id", .number (.int 6)), ("nest", .number (.int 4))]])
  context := .null

/-- Selections on a bird: its nests with their eggs, and where it hunts if it is an owl. -/
def Schema.aviaryLevel : List BoundSelection :=
  ((⟨.aviary, [], [], none⟩ : Binder).bind 7 [.field none "nests" [] [.field none "id" [] [],
      .field none "eggs" [] [.field none "id" [] []]],
    .inline (some "Owl") [.field none "hunts" [] [.field none "id" [] []]]]).toOption.getD []

/-- An owl at home in the nest 4 that hunts the bird 2, among variables of which one bears the name of its
parent: its nests and their eggs are found for it, and so is the nest where it hunts. -/
theorem Schema.aviary_sees_parents :
    let compiler : Compiler := ⟨.aviary, .enumerable, none⟩
    let vars : List (String × Value) := [("parent1", .null)]
    let owl : Value := .ofEntries [("__shape", .string "Owl"), ("id", .number (.int 1)),
      ("home", .number (.int 4)), ("prey", .number (.int 2))]
    ((aviaryLevel.map fun selection => (compiler.binding (aviary.type 7) 1 selection).outcome.toOption.bind
        fun plan => (plan.evalIn .aviary vars owl).toOption) ==
      [some (.array [.ofEntries [("id", .number (.int 4)), ("eggs", .array [.ofEntries [("id", .number (.int 6))]])],
          .ofEntries [("id", .number (.int 3)), ("eggs", .array [])]]),
        some (.ofEntries [("id", .number (.int 5))])]) = true ∧
      ∀ selection ∈ aviaryLevel,
        (∃ parent, (compiler.rowOf (aviary.type 7) (aviary.field selection.field)).evalIn .aviary vars owl =
            .ok parent ∧
          Related (fun compiled given => compiled.evalIn .aviary vars owl = given.evalIn .aviary vars owl)
            (compiler.binding (aviary.type 7) 1 selection)
            (compiler.bindingOn (aviary.type 7) 1 (.const parent) selection)) ∧
          ∀ plan, (compiler.binding (aviary.type 7) 1 selection).outcome = .ok plan → plan.FindsParents := by
  intro compiler vars owl
  refine ⟨by decide +kernel, fun selection hmem => ?_⟩
  have hfields : ∀ selection ∈ aviaryLevel, (aviary.field selection.field).bringsPlan = true ∧
      (aviary.field selection.field).resolution ≠ .unmodified := by
    decide +kernel
  obtain ⟨hbrings, hresolution⟩ := hfields selection hmem
  have hschema : ((Draft.start.declareAll Declaration.aviary).bind fun draft => draft.complete.1) = .ok aviary :=
    Outcome.ok_of_toOption (Option.some_get _).symm
  obtain ⟨draft, hdeclared, hcomplete⟩ := Outcome.bind_ok_iff.mp hschema
  have hwhole : aviary.Throughout (fun _ selection => (aviary.field selection.field).resolver.TakesWhole) 7
      aviaryLevel :=
    fun _ _ _ selection _ => takesWhole_of_declared Declaration.aviary_takesWhole hdeclared hcomplete selection.field
  obtain ⟨hgiven, hfinds, _⟩ := nested_plan_sees_parent aviary_completed .enumerable none hwhole hmem 1
  exact ⟨hgiven hbrings hresolution .aviary vars owl, hfinds⟩

end GraphQuery
