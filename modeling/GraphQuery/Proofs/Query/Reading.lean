import GraphQuery.Proofs.Query.Binding
import GraphQuery.Proofs.Query.Projection

/-! Reading values directly. Where only members and names of types are selected, and no two selections
ask for one field under one response key, there is no need for plans and records: the object of a row can
be read off the row. Compiling, evaluating and rendering together come to the same. -/

namespace GraphQuery

namespace Schema

variable (schema : Schema)

/-- Does a row of a type have a field? Where not every row does, those do that carry a shape of the type
that declares it. -/
def hasField (owner : TypeId) (field : Field) (row : Value) : Bool :=
  schema.isSubtype owner field.declaring || row.hasShape (schema.type field.declaring).shapes

/-- The member that a field reads from a row of a type. -/
def readMember (owner : TypeId) (field : Field) (name : String) (row : Value) : Value :=
  if schema.hasField owner field row then (row.get? name).getD .null else .null

/-- Does a condition hold for a row of a type, by the name that the type gives to the type of the row? -/
def admits (owner : TypeId) (row : Value) (condition? : Option TypeId) : Bool :=
  match condition?, schema.typeNamed? ((schema.type owner).rowTypeName row) with
  | none, _ => true
  | some condition, some actual => schema.isSubtype actual.id condition
  | some _, none => false

mutual

/-- What a selection reads from a row of a type. -/
def readSelection (owner : TypeId) (row : Value) : BoundSelection → Value
  | ⟨_, _, id, _, _, children⟩ =>
    let field := schema.field id
    match field.resolver with
    | .typename => .string ((schema.type owner).rowTypeName row)
    | .member name =>
      let value := schema.readMember owner field name row
      if (schema.type field.target).isLeaf then value
      else field.mapRows (fun row => .object (readEntries field.target row [] children)) value
    | _ => .null

/-- Adds to an object what selections read from a row, the first one that applies for each response
key. -/
def readEntries (owner : TypeId) (row : Value) (out : Members) : List BoundSelection → Members
  | [] => out
  | selection :: rest =>
    let out :=
      if (Members.get? selection.outputName out).isSome then out
      else if !schema.admits owner row selection.condition? then out
      else Members.insert selection.outputName (readSelection owner row selection) out
    readEntries owner row out rest

end

/-- What the selections of a level read from a row. -/
def readRow (owner : TypeId) (level : List BoundSelection) (row : Value) : Members :=
  schema.readEntries owner row [] level

/-- What selections on the rows of a field read from a value of the field. -/
def readField (field : Field) (children : List BoundSelection) (value : Value) : Value :=
  field.mapRows (fun row => .object (schema.readRow field.target children row)) value

/-- Levels that can be read directly: there are members and names of types only, and what is asked for
under one response key of one field stands under one condition. -/
inductive Readable (schema : Schema) : List BoundSelection → Prop where
  | level {selections : List BoundSelection}
      (direct : ∀ selection ∈ selections, (schema.field selection.field).isMember = true ∨
        (schema.field selection.field).isTypename = true)
      (alike : ∀ a ∈ selections, ∀ b ∈ selections, a.alike b = true → a.condition? = b.condition?)
      (children : ∀ selection ∈ selections, Readable schema selection.children) :
      Readable schema selections

/-- A value of a field whose lists can be read: those of the field itself and those of the members that
are selected on its rows. -/
inductive Fits (schema : Schema) : Field → List BoundSelection → Value → Prop where
  | value {field : Field} {children : List BoundSelection} {value : Value} (holds : field.Holds value)
      (below : ∀ row ∈ field.rowsOf value, ∀ selection ∈ children, ∀ name,
        (schema.field selection.field).resolver = .member name →
        (schema.type (schema.field selection.field).target).isLeaf = false →
        Fits schema (schema.field selection.field) selection.children
          (schema.readMember field.target (schema.field selection.field) name row)) :
      Fits schema field children value

variable {schema}

namespace Readable

variable {level : List BoundSelection}

theorem direct (h : schema.Readable level) : ∀ selection ∈ level,
    (schema.field selection.field).isMember = true ∨
      (schema.field selection.field).isTypename = true := by
  cases h with
  | level hdirect _ _ => exact hdirect

theorem children (h : schema.Readable level) :
    ∀ selection ∈ level, schema.Readable selection.children := by
  cases h with
  | level _ _ hchildren => exact hchildren

theorem nil (schema : Schema) : schema.Readable [] :=
  level (fun _ hmem => absurd hmem List.not_mem_nil) (fun _ hmem => absurd hmem List.not_mem_nil)
    (fun _ hmem => absurd hmem List.not_mem_nil)

/-- On a bound level, none of whose selections repeat each other, alike selections are one. -/
theorem eq_of_alike (h : schema.Readable level) {owner : TypeId} (hbound : schema.Bound owner level)
    {a b : BoundSelection} (ha : a ∈ level) (hb : b ∈ level) (halike : a.alike b = true) : a = b := by
  cases h with
  | level _ hcondition _ =>
      exact BoundSelection.eq_of_apart hbound.apart ha hb halike (hcondition a ha b hb halike)

end Readable

namespace Fits

variable {field : Field} {children : List BoundSelection} {value : Value}

theorem holds (h : schema.Fits field children value) : field.Holds value := by
  cases h with
  | value hholds _ => exact hholds

theorem null (schema : Schema) (field : Field) (children : List BoundSelection) :
    schema.Fits field children .null :=
  value (fun _ => Or.inl rfl) fun _ hmem => absurd hmem List.not_mem_nil

end Fits

/-- Can the lists of a row of a type be read? -/
def FitsRow (schema : Schema) (owner : TypeId) (level : List BoundSelection) (row : Value) : Prop :=
  ∀ selection ∈ level, ∀ name, (schema.field selection.field).resolver = .member name →
    (schema.type (schema.field selection.field).target).isLeaf = false →
    schema.Fits (schema.field selection.field) selection.children
      (schema.readMember owner (schema.field selection.field) name row)

theorem readMember_null (owner : TypeId) (field : Field) (name : String) :
    schema.readMember owner field name .null = .null := by
  rw [readMember]
  split <;> rfl

/-- There are no lists in null. -/
theorem fitsRow_null (owner : TypeId) (level : List BoundSelection) :
    schema.FitsRow owner level .null := by
  intro selection _ name _ _
  rw [readMember_null]
  exact Fits.null schema _ _

theorem Fits.row {field : Field} {children : List BoundSelection} {value row : Value}
    (h : schema.Fits field children value) (hmem : row ∈ field.rowsOf value) :
    schema.FitsRow field.target children row := by
  cases h with
  | value _ hbelow => exact hbelow row hmem

end Schema

namespace RowContext

variable {context : RowContext} {owner : TypeId}

theorem applies_eq_admits (condition? : Option TypeId) :
    context.renderer.applies (context.runtimeType? owner) condition? =
      context.schema.admits owner context.row condition? := by
  unfold runtimeType? Schema.admits Renderer.applies
  cases condition? with
  | none => rfl
  | some condition =>
      cases context.schema.typeNamed? ((context.schema.type owner).rowTypeName context.row) <;> rfl

/-- Reading takes the selections that rendering shows. -/
theorem readEntries_eq (level : List BoundSelection) (out : Members) :
    context.schema.readEntries owner context.row out level =
      ((Keyed.firsts (context.renderer.responseKey? (context.runtimeType? owner))
          (fun key => (Members.get? key out).isSome) level).map fun selection =>
        (selection.outputName, context.schema.readSelection owner context.row selection)).foldl
          (fun out entry => Members.insert entry.1 entry.2 out) out := by
  induction level generalizing out with
  | nil => rfl
  | cons selection rest ih =>
      rw [Schema.readEntries, ih, ← applies_eq_admits]
      cases happlies : context.renderer.applies (context.runtimeType? owner) selection.condition? with
      | false =>
          have hkey := Renderer.responseKey?_of_fails happlies
          rw [Keyed.firsts_cons_none hkey, Bool.not_false, if_pos rfl, ite_self]
      | true =>
          have hkey := Renderer.responseKey?_of_applies happlies
          rw [Bool.not_true, if_neg Bool.false_ne_true]
          cases hout : (Members.get? selection.outputName out).isSome with
          | true => rw [if_pos rfl, Keyed.firsts_cons_taken hkey hout]
          | false =>
              rw [if_neg Bool.false_ne_true, Keyed.firsts_cons_new hkey hout, List.map_cons,
                List.foldl_cons, Members.isSome_insert]

theorem readRow_eq (level : List BoundSelection) :
    context.schema.readRow owner level context.row =
      Members.ofList ((context.winners owner level).map fun selection =>
        (selection.outputName, context.schema.readSelection owner context.row selection)) :=
  readEntries_eq level []

end RowContext

namespace Compiler

variable {compiler : Compiler} {source : Source} {vars : List (String × Value)} {row : Value}
  {plan : Plan}

section

variable {owner : TypeId} {field : Field} (hid : (compiler.schema.type owner).id = owner)

include hid

theorem lacks_eq : compiler.lacks row (compiler.schema.type owner) field =
    !compiler.schema.hasField owner field row := by
  rw [lacks, isPartial, hid, Schema.hasField, Bool.not_or]

/-- A member is read from the row after it has been cast to a type that has the field. -/
theorem evalIn_member (hcasts : compiler.tier.casts = true) (name : String) :
    (Plan.member (compiler.rowOf (compiler.schema.type owner) field) name).evalIn source vars row =
      .ok (compiler.schema.readMember owner field name row) := by
  rw [Plan.evalIn, evalIn_rowOf, parentValue, hcasts, lacks_eq hid, Schema.readMember]
  cases compiler.schema.hasField owner field row <;> rfl

/-- A guard for rows without the field does no harm where the plan is null on such rows. -/
theorem evalIn_guardPartial {raw : Value} (hplan : plan.evalIn source vars row = .ok raw)
    (hnull : compiler.schema.hasField owner field row = false → raw = .null) :
    (compiler.guardPartial (compiler.schema.type owner) field plan).evalIn source vars row =
      .ok raw := by
  rw [evalIn_guardPartial_eq, lacks_eq hid]
  split
  · next hguarded =>
      rw [Bool.and_eq_true, Bool.not_eq_true'] at hguarded
      rw [hnull hguarded.2]
  · exact hplan

end

end Compiler

open BoundSelection (leader)

namespace RowContext

variable {context : RowContext} {owner : TypeId} {level : List BoundSelection}

/-! ### Members -/

section

variable (hschema : context.schema.WellFormed) (howner : owner < context.schema.types.length)
  (hcasts : context.compiler.tier.casts = true) {selection : BoundSelection} {field : Field}
  (hfield : context.schema.field selection.field = field) {name : String}
  (hresolver : field.resolver = .member name)

/-- The plan of a member on a row. -/
def memberPlan (context : RowContext) (owner : TypeId) (field : Field) (name : String) : Plan :=
  .member (context.compiler.rowOf (context.schema.type owner) field) name

include hfield hresolver in
/-- The binding of a member is composed from its plan. -/
theorem binding_of_member :
    (context.compiler.binding (context.schema.type owner) context.depth selection).outcome =
      (context.compiler.compose field (context.memberPlan owner field name) selection.children
        (context.depth + 1)).outcome.map (context.compiler.guardPartial (context.schema.type owner) field) := by
  have hmember : field.isMember = true := by
    rw [Field.isMember, hresolver]
  have hsees : Compiler.seesRow field = true := by
    rw [Compiler.seesRow, hmember, Bool.or_true]
  have hplan (scope : PlanScope) : field.tracedPlan scope selection.arguments =
      pure (.member scope.parent name) := by
    rw [Field.tracedPlan, Field.bringsPlan, Field.buildPlan, hresolver]
    rfl
  have hkept (base plan : Plan) : Compiler.bindParent field base context.depth plan = plan :=
    if_pos hsees
  rw [Compiler.binding, hfield, hplan, pure_bind, Compiler.parentOf, hsees, if_pos rfl,
    Traced.outcome_bind, memberPlan]
  simp only [hkept]
  cases (context.compiler.compose field _ selection.children (context.depth + 1)).outcome <;> rfl

include hfield hresolver in
theorem binding_member {composed : Plan} (hcomposed : (context.compiler.compose field
      (context.memberPlan owner field name) selection.children (context.depth + 1)).outcome =
        .ok composed) :
    (context.compiler.binding (context.schema.type owner) context.depth selection).outcome =
      .ok (context.compiler.guardPartial (context.schema.type owner) field composed) := by
  rw [binding_of_member hfield hresolver, hcomposed]
  rfl

include hschema howner hcasts in
theorem evalIn_memberPlan : (context.memberPlan owner field name).evalIn context.source context.vars
    context.row = .ok (context.schema.readMember owner field name context.row) :=
  Compiler.evalIn_member (hschema.id_of_lt howner) hcasts name

include hschema howner hfield hresolver in
/-- A member is answered with what its composed plan yields, if this is null on rows without the field. -/
theorem answer_member {composed : Plan} {raw : Value} (hcomposed : (context.compiler.compose field
      (context.memberPlan owner field name) selection.children (context.depth + 1)).outcome =
        .ok composed)
    (hraw : composed.evalIn context.source context.vars context.row = .ok raw)
    (hnull : context.schema.readMember owner field name context.row = .null → raw = .null) :
    context.answer (context.schema.type owner) selection = .ok raw := by
  have hid := hschema.id_of_lt howner
  have hguarded := Compiler.evalIn_guardPartial hid hraw fun hwithout => hnull (by
    rw [Schema.readMember, hwithout]
    rfl)
  rw [answer, binding_member hfield hresolver hcomposed]
  exact Outcome.mapError_ok_iff.mpr hguarded

include hfield hresolver in
theorem readSelection_member : context.schema.readSelection owner context.row selection =
    if (context.schema.type field.target).isLeaf then
      context.schema.readMember owner field name context.row
    else context.schema.readField field selection.children
      (context.schema.readMember owner field name context.row) := by
  cases selection with
  | mk label alias? id condition? arguments children =>
      dsimp only at hfield
      rw [Schema.readSelection, hfield]
      dsimp only
      rw [hresolver]
      rfl

include hfield in
theorem present_eq (raw : Value) : context.renderer.present selection raw =
    if field.isTypename || (context.schema.type field.target).isLeaf then pure raw
    else raw.mapObjects (context.renderer.renderRow (context.schema.type field.target)
      selection.children) := by
  subst hfield
  rfl

include hfield hresolver in
theorem raw_member (other : BoundSelection) : context.raw owner other selection =
    context.answer (context.schema.type owner) other := by
  subst hfield
  rw [raw, Field.isPost, Field.isTypename, hresolver]
  rfl

include hfield in
theorem value_typename (hresolver : field.resolver = .typename) (other : BoundSelection) :
    context.value owner other selection =
      .ok (context.schema.readSelection owner context.row selection) := by
  have hraw : context.raw owner other selection =
      .ok (.string ((context.schema.type owner).rowTypeName context.row)) := by
    subst hfield
    rw [raw, Field.isPost, Field.isTypename, hresolver]
    rfl
  have hread : context.schema.readSelection owner context.row selection =
      .string ((context.schema.type owner).rowTypeName context.row) := by
    cases selection with
    | mk label alias? id condition? arguments children =>
        dsimp only at hfield
        rw [Schema.readSelection, hfield]
        dsimp only
        rw [hresolver]
  have htypename : field.isTypename = true := by
    rw [Field.isTypename, hresolver]
  rw [value, hraw, hread]
  change (context.renderer.present selection _).outcome = _
  rw [present_eq hfield, htypename, Bool.true_or, if_pos rfl]
  rfl

include hschema howner hcasts hfield hresolver

theorem leaf_ok (hleaf : (context.schema.type field.target).isLeaf = true) :
    ∃ raw, context.answer (context.schema.type owner) selection = .ok raw ∧
      (context.renderer.present selection raw).outcome =
        .ok (context.schema.readSelection owner context.row selection) := by
  have hcomposed : (context.compiler.compose field (context.memberPlan owner field name)
      selection.children (context.depth + 1)).outcome = .ok (context.memberPlan owner field name) :=
    congrArg Traced.outcome (Compiler.compose_leaf hleaf)
  have hraw := @evalIn_memberPlan context owner hschema howner hcasts field name
  refine ⟨_, answer_member hschema howner hfield hresolver hcomposed hraw id, ?_⟩
  rw [readSelection_member hfield hresolver, if_pos hleaf, present_eq hfield, hleaf, Bool.or_true,
    if_pos rfl]
  rfl

theorem composite_ok (hcomposite : (context.schema.type field.target).isLeaf = false)
    (hfits : context.schema.Fits field selection.children
      (context.schema.readMember owner field name context.row))
    (hchildren : ∀ row, context.schema.FitsRow field.target selection.children row →
      (context.below (context.depth + 1) row).rendered field.target selection.children =
        .ok (context.schema.readRow field.target selection.children row)) :
    ∃ raw, context.answer (context.schema.type owner) selection = .ok raw ∧
      (context.renderer.present selection raw).outcome =
        .ok (context.schema.readSelection owner context.row selection) := by
  -- the value may hold no row at all, so that the record is taken from the row null, where no list is
  have hplans : ∃ recordPlan, (context.compiler.record (context.compiler.schema.type field.target)
      selection.children (context.depth + 1)).outcome = .ok recordPlan :=
    exists_recordPlan (hchildren .null (Schema.fitsRow_null _ _))
  obtain ⟨recordPlan, hrecord⟩ := hplans
  have hplan := @evalIn_memberPlan context owner hschema howner hcasts field name
  obtain ⟨raw, hraw, hnull, hrendered⟩ := project_ok hplan rfl hrecord hfits.holds
    fun row hmem => hchildren row (hfits.row hmem)
  have hcomposed := Compiler.compose_composite hcomposite hrecord (context.memberPlan owner field name)
  refine ⟨raw, answer_member hschema howner hfield hresolver hcomposed hraw hnull, ?_⟩
  have htypename : field.isTypename = false := by
    rw [Field.isTypename, hresolver]
  rw [readSelection_member hfield hresolver, present_eq hfield, hcomposite, htypename, Bool.or_false,
    if_neg Bool.false_ne_true, if_neg Bool.false_ne_true]
  exact hrendered

end

/-- Every row is rendered as it reads, on levels of any depth. -/
theorem rendered_eq_readRow (level : List BoundSelection) :
    ∀ {context : RowContext} {owner : TypeId}, context.schema.WellFormed →
      owner < context.schema.types.length → context.compiler.tier.casts = true →
      context.schema.Bound owner level → context.schema.Readable level →
      context.schema.FitsRow owner level context.row →
      context.rendered owner level = .ok (context.schema.readRow owner level context.row) := by
  induction level using BoundSelection.level_induction with
  | step level below =>
      intro context owner hschema howner hcasts hbound hreadable hfits
      -- the induction hypothesis speaks of all contexts, since rows below have depths of their own
      have hleader {selection : BoundSelection} (hmem : selection ∈ level) :
          leader level selection = selection :=
        hreadable.eq_of_alike hbound (BoundSelection.leader_mem hmem) hmem
          (BoundSelection.leader_alike hmem)
      have hmember {selection : BoundSelection} (hmem : selection ∈ level) {name : String}
          (hresolver : (context.schema.field selection.field).resolver = .member name) :
          ∃ raw, context.answer (context.schema.type owner) selection = .ok raw ∧
            (context.renderer.present selection raw).outcome =
              .ok (context.schema.readSelection owner context.row selection) := by
        cases hleaf : (context.schema.type (context.schema.field selection.field).target).isLeaf with
        | true => exact leaf_ok hschema howner hcasts rfl hresolver hleaf
        | false =>
            refine composite_ok hschema howner hcasts rfl hresolver hleaf
              (hfits selection hmem name hresolver hleaf) fun row hrow => ?_
            have htarget : (context.schema.field selection.field).target <
                context.schema.types.length :=
              hbound.owner_lt hschema howner (.child .refl hmem)
            exact @below selection hmem (context.below (context.depth + 1) row) _ hschema htarget hcasts
              (hbound.children selection hmem) (hreadable.children selection hmem) hrow
      have hvalue {selection : BoundSelection} (hmem : selection ∈ level) :
          context.value owner (leader level selection) selection =
            .ok (context.schema.readSelection owner context.row selection) := by
        rw [hleader hmem]
        rcases hreadable.direct selection hmem with hdirect | hdirect
        · obtain ⟨name, hresolver⟩ := Field.resolver_of_isMember hdirect
          obtain ⟨raw, hraw, hpresent⟩ := hmember hmem hresolver
          rw [value, raw_member rfl hresolver, hraw]
          exact hpresent
        · exact value_typename rfl (Field.resolver_of_isTypename hdirect) _
      rw [rendered_ok_iff hschema howner hbound.carries]
      refine ⟨?_, _, (readRow_eq level).symm, ?_⟩
      · rw [record_isOk_iff hschema howner hbound.carries]
        intro selection hmem hkeyed
        rw [hleader hmem]
        rcases hreadable.direct selection hmem with hdirect | hdirect
        · obtain ⟨name, hresolver⟩ := Field.resolver_of_isMember hdirect
          obtain ⟨raw, hraw, _⟩ := hmember hmem hresolver
          exact ⟨raw, hraw⟩
        · rw [Schema.keyed, hdirect, Bool.true_or] at hkeyed
          cases hkeyed
      · refine Outcome.mapM_ok_of fun winner hwinner => ?_
        rw [hvalue (Keyed.mem_firsts hwinner).1]
        rfl

end RowContext

/-- Compiling a field whose plan is a value, evaluating the plan and rendering the result read the value
directly. -/
theorem Compiler.renderField_run_compose {compiler : Compiler} (hcompleted : compiler.schema.Completed)
    (htier : compiler.tier = .default ∨ compiler.tier = .enumerable) {field : Field}
    (hfield : field ∈ compiler.schema.fields)
    (hcomposite : (compiler.schema.type field.target).isLeaf = false) {children : List BoundSelection}
    (hbound : compiler.schema.Bound field.target children) (hreadable : compiler.schema.Readable children)
    {value : Value} (hfits : compiler.schema.Fits field children value) (source : Source) (depth : Nat) :
    ∃ plan raw, (compiler.compose field (.const value) children depth).outcome = .ok plan ∧
      plan.run source = .ok raw ∧
      (Renderer.renderField ⟨compiler.schema, compiler.data?⟩ field children raw).outcome =
        .ok (compiler.schema.readField field children value) := by
  have hschema := hcompleted.wellFormed
  have htarget := hschema.target_lt field hfield
  have hcasts : compiler.tier.casts = true := by
    rcases htier with htier | htier <;> rw [htier] <;> rfl
  let context : RowContext := ⟨compiler, depth, source, [], .null⟩
  have hrows (row : Value) (hrow : compiler.schema.FitsRow field.target children row) :
      (context.below depth row).rendered field.target children =
        .ok (compiler.schema.readRow field.target children row) :=
    RowContext.rendered_eq_readRow children hschema htarget hcasts hbound hreadable hrow
  have hplans : ∃ recordPlan,
      (compiler.record (compiler.schema.type field.target) children depth).outcome = .ok recordPlan :=
    RowContext.exists_recordPlan (hrows .null (Schema.fitsRow_null _ _))
  obtain ⟨recordPlan, hrecord⟩ := hplans
  have hplan : (Plan.const value).evalIn context.source context.vars context.row = .ok value := by
    rw [Plan.evalIn]
  obtain ⟨raw, hraw, _, hrendered⟩ := RowContext.project_ok hplan rfl hrecord hfits.holds
    fun row hmem => hrows row (hfits.row hmem)
  refine ⟨_, raw, compose_composite hcomposite hrecord (.const value), hraw, ?_⟩
  rw [Renderer.renderField, hcomposite, if_neg Bool.false_ne_true]
  exact hrendered

/-- Two animals, asked for their types, and dogs for their names. -/
theorem Compiler.animals_read :
    let compiler : Compiler := ⟨.animals, .enumerable, none⟩
    let children := Schema.animalLevel [.field none "__typename" [] [],
      .inline (some "Dog") [.field none "name" [] []]]
    let value := Value.array [.animal "Dog" "Rex" [], .animal "Cat" "Tom" []]
    ∃ field, compiler.schema.lookupField? 5 "animals" = some field ∧
      compiler.schema.Bound field.target children ∧ compiler.schema.Readable children ∧
      compiler.schema.Fits field children value ∧ children.length = 2 ∧ ∃ plan raw,
        (compiler.compose field (.const value) children 1).outcome = .ok plan ∧
        plan.run .inProcess = .ok raw ∧
        (Renderer.renderField ⟨compiler.schema, none⟩ field children raw).outcome =
          .ok (compiler.schema.readField field children value) := by
  intro compiler children value
  have hconcrete : (compiler.schema.lookupField? 5 "animals").map Field.target = some 7 ∧
      (compiler.schema.type 7).isLeaf = false ∧ children.length = 2 ∧
      (∀ selection ∈ children, ((compiler.schema.field selection.field).isMember = true ∨
          (compiler.schema.field selection.field).isTypename = true) ∧
        (compiler.schema.type (compiler.schema.field selection.field).target).isLeaf = true) ∧
      ∀ a ∈ children, ∀ b ∈ children, a.alike b = true → a.condition? = b.condition? := by
    decide +kernel
  obtain ⟨hanimals, hcomposite, hlength, hdirect, halike⟩ := hconcrete
  obtain ⟨field, hlookup, htarget⟩ := Option.map_eq_some_iff.mp hanimals
  have hfield : field ∈ compiler.schema.fields :=
    List.mem_of_getElem? (Schema.animals_completed.wellFormed.field_of_lookup hlookup)
  have hbound : compiler.schema.Bound field.target children := by
    rw [htarget]
    exact Schema.animals_bound _
  have hreadable : compiler.schema.Readable children := by
    refine .level (fun selection hmem => (hdirect selection hmem).1) halike fun selection hmem => ?_
    have hnone := (hbound.selects selection hmem).leaf (hdirect selection hmem).2
    rw [hnone]
    exact Schema.Readable.nil compiler.schema
  have hfits : compiler.schema.Fits field children value := by
    refine .value (fun _ => Or.inr ⟨_, rfl, ?_⟩) ?_
    · simp [Value.animal, Value.ofEntries]
    · intro row _ selection hmem name _ hleaf
      rw [(hdirect selection hmem).2] at hleaf
      cases hleaf
  rw [← htarget] at hcomposite
  exact ⟨field, hlookup, hbound, hreadable, hfits, hlength, Compiler.renderField_run_compose
    Schema.animals_completed (Or.inr rfl) hfield hcomposite hbound hreadable hfits .inProcess 1⟩

end GraphQuery
