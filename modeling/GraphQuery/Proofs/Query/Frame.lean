import GraphQuery.Proofs.Query.Arena
import GraphQuery.Proofs.Query.Failure
import GraphQuery.Proofs.Query.RootCondition

/-! Frames. All places that binding writes down are those of types and fields of the schema, and no step of
an execution reads a place past them: whatever would be found there, requests are bound and answered in the
same way and cost the same. -/

namespace GraphQuery

namespace Schema

/-- Another schema agrees with a schema on all its types and fields. What there is past them is left open. -/
structure Agrees (schema other : Schema) : Prop where
  type_eq : ∀ id < schema.types.length, other.type id = schema.type id
  field_eq : ∀ id < schema.fields.length, other.field id = schema.field id
  byName_eq : other.byName = schema.byName
  query_eq : other.query = schema.query
  mutation_eq : other.mutation = schema.mutation
  rules_eq : other.rules = schema.rules

/-- A schema with more types and fields behind its own ones. -/
def extend (schema : Schema) (types : List SchemaType) (fields : List Field) : Schema :=
  { schema with types := schema.types ++ types, fields := schema.fields ++ fields }

theorem agrees_extend (schema : Schema) (types : List SchemaType) (fields : List Field) :
    schema.Agrees (schema.extend types fields) where
  type_eq _ hid := List.getD_append _ _ _ _ hid
  field_eq _ hid := List.getD_append _ _ _ _ hid
  byName_eq := rfl
  query_eq := rfl
  mutation_eq := rfl
  rules_eq := rfl

/-- The places that a selection bears are those of a field and of types. -/
structure Placed (schema : Schema) (selection : BoundSelection) : Prop where
  field_lt : selection.field < schema.fields.length
  condition_lt : ∀ condition ∈ selection.condition?, condition < schema.types.length

/-- All selections of a level and below it bear places of the schema. -/
abbrev PlacedLevel (schema : Schema) (owner : TypeId) (level : List BoundSelection) : Prop :=
  schema.Throughout (fun _ selection => schema.Placed selection) owner level

/-! ### Types and fields that are there -/

namespace Closed

variable {schema : Schema} (hclosed : schema.Closed)

include hclosed

theorem lt_of_name {name : String} {id : TypeId} (h : schema.byName.lookup name = some id) :
    id < schema.types.length := by
  obtain ⟨_, htype, _⟩ := (hclosed.byName_iff name id).mp h
  exact (List.getElem?_eq_some_iff.mp htype).1

theorem typeNamed_lt {name : String} {type : SchemaType} (h : schema.typeNamed? name = some type) :
    type.id < schema.types.length := by
  obtain ⟨id, hname, rfl⟩ := Option.map_eq_some_iff.mp h
  have hid := hclosed.lt_of_name hname
  rwa [id_of_place hclosed.type_id hid]

/-- A type that shows a field is there, and so is the field. -/
theorem visible_lt {owner : TypeId} {name : String} {id : FieldId}
    (h : (schema.type owner).fields.lookup name = some id) :
    owner < schema.types.length ∧ id < schema.fields.length := by
  have hmem := Keyed.mem_of_lookup h
  have howner := lt_of_visible hmem
  exact ⟨howner, (hclosed.type_within _ (type_mem howner)).visible_lt _ hmem⟩

theorem mem_of_lookup {owner : TypeId} {name : String} {field : Field}
    (h : schema.lookupField? owner name = some field) : field ∈ schema.fields := by
  obtain ⟨id, hvisible, rfl⟩ := Option.map_eq_some_iff.mp h
  exact field_mem (hclosed.visible_lt hvisible).2

theorem target_type_lt {id : FieldId} (hid : id < schema.fields.length) :
    (schema.field id).target < schema.types.length :=
  hclosed.target_lt _ (field_mem hid)

theorem declaring_type_lt {id : FieldId} (hid : id < schema.fields.length) :
    (schema.field id).declaring < schema.types.length :=
  hclosed.declaring_lt _ (field_mem hid)

end Closed

/-- The selections of bound levels bear places of the schema. -/
theorem Bound.placed {schema : Schema} (hclosed : schema.Closed) {owner : TypeId}
    {level : List BoundSelection} (h : schema.Bound owner level) :
    schema.PlacedLevel owner level := by
  intro below inner hbelow selection hmem
  obtain ⟨field, hlookup, hid⟩ := ((h.of_below hbelow).selects selection hmem).resolves
  obtain ⟨id, hvisible, rfl⟩ := Option.map_eq_some_iff.mp hlookup
  obtain ⟨hscope, hlt⟩ := hclosed.visible_lt hvisible
  constructor
  · have hget := List.getElem?_eq_getElem hlt
    rw [← hid, field_eq hget, hclosed.field_id id _ hget]
    exact hlt
  · intro condition hcondition
    rwa [Option.mem_def.mp hcondition] at hscope

namespace Agrees

variable {schema other : Schema} (h : schema.Agrees other) (hclosed : schema.Closed)

include h hclosed

theorem typeNamed?_eq (name : String) : other.typeNamed? name = schema.typeNamed? name := by
  rw [typeNamed?, typeNamed?, h.byName_eq]
  refine Option.map_congr fun id hname => ?_
  exact h.type_eq id (hclosed.lt_of_name hname)

theorem lookupField?_eq {owner : TypeId} (howner : owner < schema.types.length) (name : String) :
    other.lookupField? owner name = schema.lookupField? owner name := by
  rw [lookupField?, lookupField?, h.type_eq owner howner]
  refine Option.map_congr fun id hvisible => ?_
  exact h.field_eq id (hclosed.visible_lt hvisible).2

theorem target_eq {id : FieldId} (hid : id < schema.fields.length) :
    other.type (schema.field id).target = schema.type (schema.field id).target :=
  h.type_eq _ (hclosed.target_type_lt hid)

omit hclosed

theorem isSubtype_eq {sub : TypeId} (hsub : sub < schema.types.length) (sup : TypeId) :
    other.isSubtype sub sup = schema.isSubtype sub sup := by
  rw [isSubtype, isSubtype, h.type_eq sub hsub]

theorem recordKeysFrom_eq (type : SchemaType) {level : List BoundSelection}
    (hplaced : ∀ selection ∈ level, schema.Placed selection) (claimed : List (FieldId × String × String)) :
    other.recordKeysFrom type claimed level = schema.recordKeysFrom type claimed level := by
  induction level generalizing claimed with
  | nil => rfl
  | cons selection rest ih =>
      obtain ⟨hselection, hrest⟩ := List.forall_mem_cons.mp hplaced
      simp only [recordKeysFrom, h.field_eq _ hselection.field_lt, ih hrest]

theorem recordKeys_eq (type : SchemaType) {level : List BoundSelection}
    (hplaced : ∀ selection ∈ level, schema.Placed selection) :
    other.recordKeys type level = schema.recordKeys type level :=
  h.recordKeysFrom_eq type hplaced []

end Agrees

end Schema

theorem Binder.conditionType_lt {binder : Binder} (hclosed : binder.schema.Closed) {name : String} {type : TypeId}
    (htype : binder.conditionType name = .ok type) : type < binder.schema.types.length := by
  obtain ⟨named, hnamed, rfl⟩ := conditionType_ok htype
  exact hclosed.typeNamed_lt hnamed

section

variable {schema other : Schema} (h : schema.Agrees other) (hclosed : schema.Closed)

include h

/-! ### Compiling -/

namespace Compiler

variable (tier : Tier) (data? : Option Value)

theorem needsTypename_agrees {level : List BoundSelection}
    (hplaced : ∀ selection ∈ level, schema.Placed selection) :
    level.any (needsTypename other) = level.any (needsTypename schema) := by
  rw [Bool.eq_iff_iff, List.any_eq_true, List.any_eq_true]
  refine exists_congr fun selection => and_congr_right fun hmem => ?_
  rw [needsTypename, needsTypename, h.field_eq _ (hplaced selection hmem).field_lt]

theorem recordOf_agrees (type : SchemaType) {level : List BoundSelection}
    (hplaced : ∀ selection ∈ level, schema.Placed selection) (bindings : List (String × Plan)) :
    recordOf ⟨other, tier, data?⟩ type level bindings = recordOf ⟨schema, tier, data?⟩ type level bindings := by
  rw [recordOf, recordOf, needsTypename_agrees h hplaced]

include hclosed

theorem project_agrees {id : FieldId} (hid : id < schema.fields.length) (plan record : Plan) :
    project ⟨other, tier, data?⟩ (schema.field id) plan record =
      project ⟨schema, tier, data?⟩ (schema.field id) plan record := by
  simp only [project, h.target_eq hclosed hid, listOf]

theorem rowOf_agrees {owner : SchemaType} (howner : owner.id < schema.types.length) {id : FieldId}
    (hid : id < schema.fields.length) :
    rowOf ⟨other, tier, data?⟩ owner (schema.field id) = rowOf ⟨schema, tier, data?⟩ owner (schema.field id) := by
  unfold rowOf isPartial
  dsimp only
  rw [h.isSubtype_eq howner, h.type_eq _ (hclosed.declaring_type_lt hid)]

theorem guardPartial_agrees {owner : SchemaType} (howner : owner.id < schema.types.length) {id : FieldId}
    (hid : id < schema.fields.length) (plan : Plan) :
    guardPartial ⟨other, tier, data?⟩ owner (schema.field id) plan =
      guardPartial ⟨schema, tier, data?⟩ owner (schema.field id) plan := by
  unfold guardPartial isPartial
  dsimp only
  rw [h.isSubtype_eq howner, h.type_eq _ (hclosed.declaring_type_lt hid), h.target_eq hclosed hid]

theorem compose_agrees {id : FieldId} (hid : id < schema.fields.length) (plan : Plan)
    (children : List BoundSelection) (depth : Nat)
    (hrecord : record ⟨other, tier, data?⟩ (schema.type (schema.field id).target) children depth =
      record ⟨schema, tier, data?⟩ (schema.type (schema.field id).target) children depth) :
    compose ⟨other, tier, data?⟩ (schema.field id) plan children depth =
      compose ⟨schema, tier, data?⟩ (schema.field id) plan children depth := by
  simp only [compose, h.target_eq hclosed hid, hrecord, project_agrees h hclosed tier data? hid]

/-- The record of a level depends only on what there is. -/
theorem record_agrees (level : List BoundSelection) :
    ∀ {owner : TypeId} (depth : Nat), owner < schema.types.length →
      schema.PlacedLevel owner level →
      record ⟨other, tier, data?⟩ (schema.type owner) level depth =
        record ⟨schema, tier, data?⟩ (schema.type owner) level depth := by
  induction level using BoundSelection.level_induction with
  | step level below =>
      intro owner depth howner hplaced
      have hid : (schema.type owner).id < schema.types.length := by
        rwa [Schema.id_of_place hclosed.type_id howner]
      have hbinding (selection : BoundSelection) (hmem : selection ∈ level) :
          binding ⟨other, tier, data?⟩ (schema.type owner) depth selection =
            binding ⟨schema, tier, data?⟩ (schema.type owner) depth selection := by
        have hfield := (hplaced.here selection hmem).field_lt
        have hrecord := below selection hmem (depth + 1) (hclosed.target_type_lt hfield) (hplaced.children hmem)
        simp only [binding, h.field_eq _ hfield, rowOf_agrees h hclosed tier data? hid hfield,
          compose_agrees h hclosed tier data? hfield _ _ _ hrecord,
          guardPartial_agrees h hclosed tier data? hid hfield]
      have hbindings (rest : List BoundSelection) (hrest : rest ⊆ level) (keys : List (Option String))
          (bound : List (String × Plan)) :
          bindSelections ⟨other, tier, data?⟩ (schema.type owner) depth keys bound rest =
            bindSelections ⟨schema, tier, data?⟩ (schema.type owner) depth keys bound rest := by
        induction rest generalizing keys bound with
        | nil => rfl
        | cons selection rest ih =>
            have ih := ih fun other hmem => hrest (List.mem_cons_of_mem _ hmem)
            cases keys with
            | nil => rfl
            | cons key? keys =>
                cases key? with
                | none => exact ih keys bound
                | some key =>
                    simp only [bindSelections, bindSelection_eq, hbinding selection (hrest List.mem_cons_self), ih]
      simp only [record, h.recordKeys_eq (schema.type owner) hplaced.here,
        hbindings level (List.Subset.refl _), recordOf_agrees h tier data? _ hplaced.here]

end Compiler

/-! ### Rendering -/

namespace Renderer

variable (data? : Option Value)

include hclosed

theorem applies_agrees (row : Members) (condition? : Option TypeId) :
    applies ⟨other, data?⟩ (runtimeType? ⟨other, data?⟩ row) condition? =
      applies ⟨schema, data?⟩ (runtimeType? ⟨schema, data?⟩ row) condition? := by
  have hruntime : runtimeType? ⟨other, data?⟩ row = runtimeType? ⟨schema, data?⟩ row := by
    simp only [runtimeType?, h.typeNamed?_eq hclosed]
  rw [hruntime]
  cases condition? with
  | none => rfl
  | some condition =>
      cases hactual : runtimeType? ⟨schema, data?⟩ row with
      | none => rfl
      | some actual =>
          obtain ⟨type, hnamed, rfl⟩ := Option.map_eq_some_iff.mp hactual
          obtain ⟨name, _, hnamed⟩ := Option.bind_eq_some_iff.mp hnamed
          exact h.isSubtype_eq (hclosed.typeNamed_lt hnamed) condition

theorem postRecord_agrees {id : FieldId} (hid : id < schema.fields.length) (arguments : Arguments)
    {children : List BoundSelection}
    (hplaced : schema.PlacedLevel (schema.field id).target children) :
    postRecord ⟨other, data?⟩ (schema.field id) arguments children =
      postRecord ⟨schema, data?⟩ (schema.field id) arguments children := by
  have hcompose (computed : Value) := Compiler.compose_agrees h hclosed .enumerable data? hid (.const computed)
    children 1 (Compiler.record_agrees h hclosed .enumerable data? children 1 (hclosed.target_type_lt hid) hplaced)
  simp only [postRecord, compiler, h.target_eq hclosed hid, hcompose]

theorem present_agrees {selection : BoundSelection} (hselection : schema.Placed selection) (raw : Value)
    (hrow : ∀ row, renderRow ⟨other, data?⟩ (schema.type (schema.field selection.field).target) selection.children
      row = renderRow ⟨schema, data?⟩ (schema.type (schema.field selection.field).target) selection.children row) :
    present ⟨other, data?⟩ selection raw = present ⟨schema, data?⟩ selection raw := by
  simp only [present, h.field_eq _ hselection.field_lt, h.target_eq hclosed hselection.field_lt, funext hrow]

/-- The object of a row depends only on what there is. -/
theorem renderRow_agrees (level : List BoundSelection) :
    ∀ {owner : TypeId} (row : Members), owner < schema.types.length →
      schema.PlacedLevel owner level →
      renderRow ⟨other, data?⟩ (schema.type owner) level row =
        renderRow ⟨schema, data?⟩ (schema.type owner) level row := by
  induction level using BoundSelection.level_induction with
  | step level below =>
      intro owner row howner hplaced
      have hentry (selection : BoundSelection) (hmem : selection ∈ level) (key? : Option String) (out : Members) :
          renderEntry ⟨other, data?⟩ (schema.type owner) row key? out selection =
            renderEntry ⟨schema, data?⟩ (schema.type owner) row key? out selection := by
        have hselection := hplaced.here selection hmem
        have hfield := hselection.field_lt
        have hpost := postRecord_agrees h hclosed data? hfield selection.arguments (hplaced.children hmem)
        have hpresent (raw : Value) := present_agrees h hclosed data? hselection raw fun inner =>
          below selection hmem inner (hclosed.target_type_lt hfield) (hplaced.children hmem)
        rw [renderEntry_eq, renderEntry_eq, applies_agrees h hclosed]
        simp only [entry, h.field_eq _ hfield, hpost, hpresent]
      have hentries (rest : List BoundSelection) (hrest : rest ⊆ level) (keys : List (Option String))
          (out : Members) : renderEntries ⟨other, data?⟩ (schema.type owner) row keys out rest =
            renderEntries ⟨schema, data?⟩ (schema.type owner) row keys out rest := by
        induction rest generalizing keys out with
        | nil => rfl
        | cons selection rest ih =>
            have ih := ih fun other hmem => hrest (List.mem_cons_of_mem _ hmem)
            cases keys with
            | nil => rfl
            | cons key? keys => simp only [renderEntries, hentry selection (hrest List.mem_cons_self), ih]
      simp only [renderRow, h.recordKeys_eq (schema.type owner) hplaced.here,
        hentries level (List.Subset.refl _)]

theorem renderField_agrees {id : FieldId} (hid : id < schema.fields.length) {children : List BoundSelection}
    (hplaced : schema.PlacedLevel (schema.field id).target children)
    (value : Value) :
    renderField ⟨other, data?⟩ (schema.field id) children value =
      renderField ⟨schema, data?⟩ (schema.field id) children value := by
  have hrow (row : Members) :=
    renderRow_agrees h hclosed data? children row (hclosed.target_type_lt hid) hplaced
  simp only [renderField, h.target_eq hclosed hid, funext hrow]

end Renderer

/-! ### Costs -/

namespace Schema

include hclosed

theorem ownCost_agrees {id : FieldId} (hid : id < schema.fields.length) (settings : CostSettings) :
    (schema.field id).ownCost other settings = (schema.field id).ownCost schema settings := by
  unfold Field.ownCost
  rw [h.target_eq hclosed hid]

theorem costFrom_agrees (settings : CostSettings) (level : List BoundSelection) :
    ∀ {owner : TypeId} (total : Cost), schema.PlacedLevel owner level →
      other.costFrom settings total level = schema.costFrom settings total level := by
  induction level using BoundSelection.level_induction with
  | step level below =>
      intro owner total hplaced
      have hcost (selection : BoundSelection) (hmem : selection ∈ level) :
          other.cost settings selection = schema.cost settings selection := by
        have hfield := (hplaced.here selection hmem).field_lt
        have hbelow := below selection hmem .zero (hplaced.children hmem)
        cases selection
        simp only [cost, h.field_eq _ hfield, ownCost_agrees h hclosed hfield, hbelow]
      have hcosts (rest : List BoundSelection) (hrest : rest ⊆ level) (total : Cost) :
          other.costFrom settings total rest = schema.costFrom settings total rest := by
        induction rest generalizing total with
        | nil => rfl
        | cons selection rest ih =>
            rw [costFrom, costFrom, hcost selection (hrest List.mem_cons_self),
              ih fun other hmem => hrest (List.mem_cons_of_mem _ hmem)]
      exact hcosts level (List.Subset.refl _) total

end Schema

/-! ### Binding -/

namespace Binder

variable (fragments : List Fragment) (vars : Members) (maxDepth : Option Nat)

include hclosed

theorem conditionType_agrees (name : String) :
    conditionType ⟨other, fragments, vars, maxDepth⟩ name =
      conditionType ⟨schema, fragments, vars, maxDepth⟩ name := by
  simp only [conditionType, h.typeNamed?_eq hclosed]

theorem resolveField_agrees {owner scope : TypeId} (howner : owner < schema.types.length)
    (hscope : scope < schema.types.length) (name : String) :
    resolveField ⟨other, fragments, vars, maxDepth⟩ owner scope name =
      resolveField ⟨schema, fragments, vars, maxDepth⟩ owner scope name := by
  simp only [resolveField, h.lookupField?_eq hclosed hscope, h.type_eq _ hscope, h.type_eq _ howner]

omit hclosed in
theorem bindArguments_agrees (field : Field) (supplied : List (String × Literal)) :
    bindArguments ⟨other, fragments, vars, maxDepth⟩ field supplied =
      bindArguments ⟨schema, fragments, vars, maxDepth⟩ field supplied := by
  rw [bindArguments, bindArguments, h.rules_eq]

/-- What selections bind to on a type that is there depends only on what there is. -/
theorem bindSelections_agrees {spread spread' : SpreadBinding}
    (hspread : ∀ owner < schema.types.length, ∀ depth name, spread' owner depth name = spread owner depth name)
    (selections : List Selection) : ∀ {owner : TypeId} {condition? : Option TypeId} (depth : Nat),
      owner < schema.types.length → (∀ condition ∈ condition?, condition < schema.types.length) →
      bindSelections ⟨other, fragments, vars, maxDepth⟩ spread' owner condition? depth selections =
        bindSelections ⟨schema, fragments, vars, maxDepth⟩ spread owner condition? depth selections := by
  induction selections using Selection.set_induction with
  | step set below =>
      intro owner condition? depth howner hcondition
      have hselection (selection : Selection) (hmem : selection ∈ set) :
          bindSelection ⟨other, fragments, vars, maxDepth⟩ spread' owner condition? depth selection =
            bindSelection ⟨schema, fragments, vars, maxDepth⟩ spread owner condition? depth selection := by
        have hbelow := @below selection hmem
        cases selection with
        | field alias? name supplied selections =>
            have hscope : (kept owner condition?).getD owner < schema.types.length := by
              cases hkept : kept owner condition? with
              | none => exact howner
              | some condition => exact hcondition condition (Option.filter_eq_some_iff.mp hkept).1
            rw [bindSelection_field, bindSelection_field, resolveField_agrees h hclosed _ _ _ howner hscope]
            refine congrArg (_ >>= ·) (funext fun _ => Outcome.bind_eq_of_ok fun field hfield => ?_)
            have htarget := hclosed.target_lt field (hclosed.mem_of_lookup (resolveField_ok hfield).1)
            have hinside : bindSelections ⟨other, fragments, vars, maxDepth⟩ spread' field.target none (depth + 1)
                selections = bindSelections ⟨schema, fragments, vars, maxDepth⟩ spread field.target none (depth + 1)
                  selections :=
              hbelow (depth + 1) htarget fun _ hnone => absurd hnone (Option.not_mem_none _)
            simp only [bindArguments_agrees h, bindInside, h.type_eq _ htarget, hinside]
        | inline name? selections =>
            cases name? with
            | none => exact hbelow depth howner hcondition
            | some name =>
                rw [bindSelection, bindSelection, conditionType_agrees h hclosed]
                refine Outcome.bind_eq_of_ok fun type htype => hbelow depth howner fun condition hsome => ?_
                cases hsome
                exact conditionType_lt hclosed htype
        | spread name => exact hspread owner howner depth name
      clear below
      induction set with
      | nil => rfl
      | cons selection rest ih =>
          rw [bindSelections, bindSelections, hselection selection List.mem_cons_self,
            ih fun other hmem => hselection other (List.mem_cons_of_mem _ hmem)]

theorem bindSpread_agrees (fuel : Nat) : ∀ (active : List String), ∀ owner < schema.types.length, ∀ depth name,
    bindSpread ⟨other, fragments, vars, maxDepth⟩ fuel active owner depth name =
      bindSpread ⟨schema, fragments, vars, maxDepth⟩ fuel active owner depth name := by
  induction fuel with
  | zero =>
      intro active owner _ depth name
      rw [bindSpread, bindSpread]
  | succ fuel ih =>
      intro active owner howner depth name
      rw [bindSpread, bindSpread]
      dsimp only
      cases Fragment.named? fragments name with
      | none => rfl
      | some fragment =>
          dsimp only
          split
          · rfl
          · rw [conditionType_agrees h hclosed]
            refine Outcome.bind_eq_of_ok fun type htype => ?_
            refine bindSelections_agrees h hclosed _ _ _ (ih _) fragment.selections depth howner ?_
            intro condition hsome
            cases hsome
            exact conditionType_lt hclosed htype

theorem bind_agrees {root : TypeId} (hroot : root < schema.types.length) (selections : List Selection) :
    bind ⟨other, fragments, vars, maxDepth⟩ root selections =
      bind ⟨schema, fragments, vars, maxDepth⟩ root selections := by
  rw [bind, bind]
  dsimp only
  rw [bindSelections_agrees h hclosed fragments vars maxDepth
    (bindSpread_agrees h hclosed fragments vars maxDepth fragments.length []) selections 1 hroot]
  exact fun _ hnone => absurd hnone (Option.not_mem_none _)

end Binder

theorem Operation.root_agrees (operation : Operation) : operation.root other = operation.root schema := by
  rw [root, root, h.query_eq, h.mutation_eq]

include hclosed

theorem Schema.bind_agrees (hschema : schema.WellFormed) (maxDepth : Option Nat) (document : Document)
    (request : Request) : other.bind maxDepth document request = schema.bind maxDepth document request := by
  rw [Schema.bind, Schema.bind]
  refine congrArg (_ >>= ·) (funext fun operation => ?_)
  rw [operation.root_agrees h]
  refine Outcome.bind_eq_of_ok fun root hroot => congrArg (_ >>= ·) (funext fun vars => ?_)
  exact Binder.bind_agrees h hclosed _ _ _ (Operation.root_lt hschema hroot) _

/-! ### Executing -/

namespace Engine

variable (config : Config) (data? : Option Value)

theorem fetch_agrees {id : FieldId} (hid : id < schema.fields.length) (plan : Plan)
    {children : List BoundSelection} (hplaced : schema.PlacedLevel (schema.field id).target children) :
    fetch other config data? (schema.field id) plan children =
      fetch schema config data? (schema.field id) plan children := by
  have hcompose (tier : Tier) := Compiler.compose_agrees h hclosed tier data? hid plan children 1
    (Compiler.record_agrees h hclosed tier data? children 1 (hclosed.target_type_lt hid) hplaced)
  simp only [fetch, hcompose]

theorem resolveRoot_agrees {selection : BoundSelection} (hselection : schema.Placed selection)
    (hplaced : schema.PlacedLevel (schema.field selection.field).target selection.children) :
    resolveRoot other config data? selection = resolveRoot schema config data? selection := by
  have hfield := hselection.field_lt
  have hpost := Renderer.postRecord_agrees h hclosed data? hfield selection.arguments hplaced
  have hrender (value : Value) := Renderer.renderField_agrees h hclosed data? hfield hplaced value
  have hfetch (plan : Plan) := fetch_agrees h hclosed config data? hfield plan hplaced
  simp only [resolveRoot, h.field_eq _ hfield, h.type_eq _ (hclosed.declaring_type_lt hfield),
    Renderer.renderPost, hpost, hrender, hfetch]

theorem resolveRoots_agrees {owner : TypeId} {level : List BoundSelection} (hplaced : schema.PlacedLevel owner level)
    (out : Members) : resolveRoots other config data? out level = resolveRoots schema config data? out level := by
  have hroots (rest : List BoundSelection) (hrest : rest ⊆ level) (out : Members) :
      resolveRoots other config data? out rest = resolveRoots schema config data? out rest := by
    induction rest generalizing out with
    | nil => rfl
    | cons selection rest ih =>
        have hmem := hrest List.mem_cons_self
        have ih := ih fun other hmem => hrest (List.mem_cons_of_mem _ hmem)
        simp only [resolveRoots, resolveRoot_agrees h hclosed config data? (hplaced.here _ hmem)
          (hplaced.children hmem), ih]
  exact hroots level (List.Subset.refl _) out

end Engine

end

namespace Engine

variable {schema : Schema} (hcompleted : schema.Completed) (config : Config) (document : Document)
  (request : Request)

include hcompleted

/-- All selections that a request binds to bear places of the schema. -/
theorem placed_of_bind {level : List BoundSelection}
    (hbind : bind ⟨some schema, config⟩ document request = .ok level) :
    ∃ root < schema.types.length, schema.PlacedLevel root level := by
  obtain ⟨_, root, _, hroot, hbound⟩ := Schema.bound_of_bind hcompleted.wellFormed hbind
  exact ⟨root, Operation.root_lt hcompleted.wellFormed hroot, hbound.placed hcompleted.closed⟩

variable {other : Schema} (h : schema.Agrees other)

include h

theorem bind_agrees : bind ⟨some other, config⟩ document request = bind ⟨some schema, config⟩ document request :=
  Schema.bind_agrees h hcompleted.closed hcompleted.wellFormed config.maxDepth document request

theorem estimate_agrees :
    estimate ⟨some other, config⟩ document request = estimate ⟨some schema, config⟩ document request := by
  change (bind ⟨some other, config⟩ document request >>= _) = (bind ⟨some schema, config⟩ document request >>= _)
  rw [bind_agrees hcompleted config document request h]
  refine Outcome.bind_eq_of_ok fun level hbind => ?_
  obtain ⟨root, _, hplaced⟩ := placed_of_bind hcompleted config document request hbind
  rw [Schema.totalCost, Schema.totalCost, Schema.costFrom_agrees h hcompleted.closed config.cost level _ hplaced]

theorem execute_agrees (world : World) :
    execute ⟨some other, config⟩ document request world = execute ⟨some schema, config⟩ document request world := by
  have hrun : (run ⟨some other, config⟩ document request).run (.start world) =
      (run ⟨some schema, config⟩ document request).run (.start world) := by
    have hsame := bind_agrees hcompleted config document request h
    cases hbind : bind ⟨some schema, config⟩ document request with
    | error error => rw [run_of_bind_error hbind, run_of_bind_error (hsame.trans hbind)]
    | ok level =>
        obtain ⟨root, _, hplaced⟩ := placed_of_bind hcompleted config document request hbind
        rw [run_of_bind_ok rfl hbind, run_of_bind_ok rfl (hsame.trans hbind),
          resolveRoots_agrees h hcompleted.closed config request.data? hplaced]
  rw [execute, execute, hrun]

end Engine

end GraphQuery
