import GraphQuery.Proofs.Plan.Order
import GraphQuery.Proofs.Schema.Slot

/-! What queries rely on in a completed schema: types and fields stand at the places that they bear, the
fields visible on a type are there, slots are told apart by their keys, and the plan for the name of a
type always yields the name of a type. -/

namespace GraphQuery

/-- The slots of a projection are told apart by their fields and by their keys. -/
def Projection.Apart (projection : Projection) : Prop :=
  projection.slots.Pairwise fun a b => a.field ≠ b.field ∧ a.key ≠ b.key

/-- What queries rely on. -/
structure Schema.WellFormed (schema : Schema) : Prop where
  type_id : ∀ (id : TypeId) (type : SchemaType), schema.types[id]? = some type → type.id = id
  field_id : ∀ (id : FieldId) (field : Field), schema.fields[id]? = some field → field.id = id
  target_lt : ∀ field ∈ schema.fields, field.target < schema.types.length
  byName : ∀ type ∈ schema.types, schema.byName.lookup type.name = some type.id
  visible_lt : ∀ type ∈ schema.types, ∀ entry ∈ type.fields, entry.2 < schema.fields.length
  apart : ∀ type ∈ schema.types, type.projection.Apart
  key_mark : ∀ type ∈ schema.types, ∀ slot ∈ type.projection.slots, '#' ∉ slot.key.toList
  key_typename : ∀ type ∈ schema.types, ∀ slot ∈ type.projection.slots, slot.key = typenameKey →
    (schema.field slot.field).isTypename = true
  typename_own : ∀ (id : TypeId) (type : SchemaType), schema.types[id]? = some type →
    ∀ entry ∈ type.fields, (schema.field entry.2).isTypename = true →
      (schema.field entry.2).declaring = id
  query_name : (schema.types[schema.query]?).map SchemaType.name = some Draft.queryName
  mutation_name : (schema.types[schema.mutation]?).map SchemaType.name = some Draft.mutationName
  typename : ∀ type ∈ schema.types, ∀ row, ∃ actual ∈ schema.types, ∀ source vars,
    type.typename.evalIn source vars row = .ok (.string actual.name)

namespace Hierarchy

/-- There are relations for types of the draft only. -/
theorem relations_length_le {draft : Draft} {found : List Relations} (h : relations draft = .ok found) :
    found.length ≤ draft.types.length := by
  obtain ⟨⟨own, parents⟩, hsteps, hpure⟩ := Outcome.bind_ok_iff.mp h
  cases hpure
  have hkept : parents.length = draft.types.length := by
    refine Outcome.foldlM_preserves (fun state => state.2.length = draft.types.length) ?_ ?_ hsteps
    · intro id _ state next hstate hnext
      obtain ⟨own, _, hpure⟩ := Outcome.bind_ok_iff.mp hnext
      cases hpure
      refine List.foldlRecOn _ _ (motive := fun parents : List (List TypeId) => parents.length = draft.types.length) ?_ ?_
      · rw [List.length_modify]
        exact hstate
      · intro parents hparents member _
        rw [addMember, List.length_modify]
        exact hparents
    · exact List.length_replicate
  simp only [List.length_map, List.length_zip, hkept]
  exact Nat.min_le_right _ _

theorem supertypes_length_le {draft : Draft} {found : List Relations} {all : List (List TypeId)}
    (hfound : relations draft = .ok found) (h : supertypes draft found = .ok all) :
    all.length ≤ draft.types.length := by
  have hlength := Outcome.length_of_mapM h
  rw [List.length_range] at hlength
  rw [hlength]
  exact relations_length_le hfound

end Hierarchy

namespace Completion

/-- The plan that names the type of a row takes the first of the subtypes whose shapes the row has. -/
theorem evalIn_typenamePlan (context : Merge.Context) (type : TypeId) (concrete : List TypeId)
    (source : Source) (vars : List (String × Value)) (row : Value) :
    (typenamePlan context type concrete).evalIn source vars row = .ok (.string (context.nameOf
      ((concrete.find? fun id => row.hasShape (shapesOf context id)).getD type))) := by
  induction concrete with
  | nil => rfl
  | cons id rest ih =>
      change (Plan.cond _ _ (typenamePlan context type rest)).evalIn source vars row = _
      rw [Plan.evalIn, ih, List.find?_cons]
      simp only [Plan.evalIn, bind, Except.bind, pure, Except.pure]
      cases row.hasShape (shapesOf context id) <;> rfl

/-- Evaluating the plan that names the type of a row yields the name of the type or of one of the
subtypes that it tests for, whose shapes the row then has. -/
theorem eval_typenamePlan (context : Merge.Context) (type : TypeId) (concrete : List TypeId)
    (row : Value) :
    ∃ actual, (actual = type ∨ actual ∈ concrete ∧ row.hasShape (shapesOf context actual) = true) ∧
      ∀ source vars,
      (typenamePlan context type concrete).evalIn source vars row =
        .ok (.string (context.nameOf actual)) := by
  refine ⟨_, ?_, fun source vars => evalIn_typenamePlan context type concrete source vars row⟩
  cases hfound : concrete.find? fun id => row.hasShape (shapesOf context id) with
  | none => exact Or.inl rfl
  | some actual =>
      have hshape := List.find?_some hfound
      exact Or.inr ⟨List.mem_of_find?_eq_some hfound, hshape⟩

/-- What a declared type brings into the schema. -/
structure TypeOf (context : Merge.Context) (id : TypeId) (type : SchemaType) : Prop where
  id_eq : type.id = id
  name_eq : type.name = context.nameOf id
  sound : Merge.Sound context ⟨type.fields, type.projection⟩
  typename_own : Merge.TypenameOwn context id ⟨type.fields, type.projection⟩
  typename_eq : type.typename = typenamePlan context id (concreteSubtypes context id)
  supertypes_eq : type.supertypes = context.supertypesOf id
  shapes_eq : type.shapes = shapesOf context id
  shape_eq : type.shape = (context.draft.type id).shape
  kind_eq : type.kind = (context.draft.type id).kind
  descendants_eq : type.descendants = concreteSubtypes context id

theorem completeType_ok {context : Merge.Context} (hdraft : context.draft.Consistent)
    (hfields : FieldsOf context.draft context.fields) {id : TypeId} {type : SchemaType}
    (h : completeType context id = .ok type) : TypeOf context id type := by
  unfold completeType at h
  dsimp only at h
  split at h
  · cases h
    exact ⟨rfl, rfl, ⟨fun _ hmem => absurd hmem List.not_mem_nil, Merge.Separate.empty context _⟩,
      fun _ hmem => absurd hmem List.not_mem_nil, rfl, rfl, rfl, rfl, rfl, rfl⟩
  · obtain ⟨merged, hmerged, hpure⟩ := Outcome.bind_ok_iff.mp h
    cases hpure
    exact ⟨rfl, rfl, Merge.fields_sound hdraft hfields hmerged,
      Merge.typename_own hdraft hfields hmerged, rfl, rfl, rfl, rfl, rfl, rfl⟩

/-- The parts of a schema that is built from a consistent draft. -/
structure BuiltFrom (context : Merge.Context) (built : Schema) : Prop where
  draft : context.draft.Consistent
  fields : FieldsOf context.draft context.fields
  fields_eq : built.fields = context.fields
  byName_eq : built.byName = context.draft.byName
  query_eq : built.query = context.draft.query
  mutation_eq : built.mutation = context.draft.mutation
  length : built.types.length = context.draft.types.length
  types : ∀ (id : TypeId) (type : SchemaType), built.types[id]? = some type → TypeOf context id type
  supertypes : Hierarchy.supertypes context.draft context.relations = .ok context.supertypes
  relations_le : context.relations.length ≤ built.types.length
  subtypes_eq : context.subtypes =
    (List.range built.types.length).map (subtypesOf context.supertypes)
  subtypes_lt : ∀ (id sub : TypeId), sub ∈ context.subtypesOf id → sub < built.types.length

/-- What completion works out of a draft before it merges fields. -/
structure Prepared (context : Merge.Context) : Prop where
  fields : completeFields context.draft = .ok context.fields
  relations : Hierarchy.relations context.draft = .ok context.relations
  supertypes : Hierarchy.supertypes context.draft context.relations = .ok context.supertypes
  subtypes : context.subtypes =
    (List.range context.draft.types.length).map (subtypesOf context.supertypes)

/-- A schema is built from what is worked out of its draft. -/
theorem build_context {draft : Draft} {built : Schema} (hdraft : draft.Consistent)
    (h : build draft = .ok built) :
    ∃ context : Merge.Context, BuiltFrom context built ∧ Prepared context ∧ context.draft = draft ∧
      ∀ (id : TypeId) (type : SchemaType), built.types[id]? = some type →
        completeType context id = .ok type := by
  obtain ⟨fields, hfields, h⟩ := Outcome.bind_ok_iff.mp h
  obtain ⟨relations, hrelations, h⟩ := Outcome.bind_ok_iff.mp h
  obtain ⟨supertypes, hsupertypes, h⟩ := Outcome.bind_ok_iff.mp h
  obtain ⟨types, htypes, hpure⟩ := Outcome.bind_ok_iff.mp h
  cases hpure
  have hlength := Outcome.length_of_mapM htypes
  rw [List.length_range] at hlength
  have hplaces := completeFields_ok hfields
  have hstep (id : TypeId) (type : SchemaType) (htype : types[id]? = some type) :
      completeType ⟨draft, fields, relations, supertypes,
        (List.range draft.types.length).map (subtypesOf supertypes)⟩ id = .ok type := by
    have hlt := (List.getElem?_eq_some_iff.mp htype).1
    rw [hlength] at hlt
    exact Outcome.step_of_mapM htypes (List.getElem?_range hlt) htype
  refine ⟨⟨draft, fields, relations, supertypes,
    (List.range draft.types.length).map (subtypesOf supertypes)⟩, ⟨hdraft, hplaces, rfl, rfl, rfl, rfl, hlength,
    fun id type htype => completeType_ok hdraft hplaces (hstep id type htype), hsupertypes,
    hlength ▸ Hierarchy.relations_length_le hrelations, by rw [hlength], ?_⟩,
    ⟨hfields, hrelations, hsupertypes, rfl⟩, rfl, hstep⟩
  · intro id sub hmem
    have hlt : sub < supertypes.length := by
      simp only [Merge.Context.subtypesOf, List.getD_eq_getElem?_getD, List.getElem?_map] at hmem
      cases hget : (List.range draft.types.length)[id]? with
      | none => simp [hget] at hmem
      | some place =>
          simp only [hget, Option.map_some, Option.getD_some, subtypesOf, List.mem_filter,
            List.mem_range] at hmem
          exact hmem.1
    rw [hlength]
    exact Nat.lt_of_lt_of_le hlt (Hierarchy.supertypes_length_le hrelations hsupertypes)

theorem build_ok {draft : Draft} {built : Schema} (hdraft : draft.Consistent)
    (h : build draft = .ok built) : ∃ context, BuiltFrom context built := by
  obtain ⟨context, hfrom, _⟩ := build_context hdraft h
  exact ⟨context, hfrom⟩

theorem BuiltFrom.lt_of_concrete {context : Merge.Context} {built : Schema} (h : BuiltFrom context built)
    {id sub : TypeId} (hmem : sub ∈ concreteSubtypes context id) : sub < built.types.length := by
  have hsub := (Sort.perm_stable _ _).mem_iff.mp hmem
  exact h.subtypes_lt id sub (List.mem_of_mem_filter hsub)

theorem BuiltFrom.target_lt {context : Merge.Context} {built : Schema} (h : BuiltFrom context built)
    {id : FieldId} {field : Field} (hfield : context.fields[id]? = some field) :
    field.target < built.types.length := by
  obtain ⟨declared, target, _, htarget, rfl⟩ := h.fields.declared id field hfield
  have hname := (h.draft.byName_iff _ _).mp htarget
  have hlt := (List.getElem?_eq_some_iff.mp hname).1
  rw [Draft.typeNames, List.length_map] at hlt
  rw [h.length]
  exact hlt

theorem BuiltFrom.typeNamed {context : Merge.Context} {built : Schema} (h : BuiltFrom context built)
    {id : TypeId} {type : SchemaType} (htype : built.types[id]? = some type) :
    built.byName.lookup type.name = some type.id := by
  have hof := h.types id type htype
  have hlt := (List.getElem?_eq_some_iff.mp htype).1
  rw [h.length] at hlt
  rw [h.byName_eq, hof.name_eq, hof.id_eq]
  exact (h.draft.byName_iff _ _).mpr (Merge.typeNames_of_lt hlt)

/-- A field under the key of the name of the type is the one that names the type. -/
theorem BuiltFrom.typename_of_key {context : Merge.Context} {built : Schema} (h : BuiltFrom context built)
    {projection : Projection} (hslots : Merge.Separate context projection) {slot : Slot}
    (hmem : slot ∈ projection.slots) (hkey : slot.key = typenameKey) :
    ∃ field, context.fields[slot.field]? = some field ∧ field.name = typenameKey ∧
      field.resolver = .typename := by
  obtain ⟨field, hfield, hnamed⟩ := hslots.named slot hmem
  have hname : field.name = typenameKey := by
    rcases hnamed with hnamed | hnamed
    · exact hnamed.symm.trans hkey
    · have hpoint : '.' ∉ typenameKey.toList := by decide
      exact absurd (hkey.symm.trans hnamed) (Text.ne_separated rfl hpoint _ _)
  obtain ⟨declared, target, hdeclared, _, rfl⟩ := h.fields.declared slot.field field hfield
  exact ⟨_, hfield, hname, h.draft.typename declared (List.mem_of_getElem? hdeclared) hname⟩

theorem BuiltFrom.mark_notMem {context : Merge.Context} {built : Schema} (h : BuiltFrom context built)
    {projection : Projection} (hslots : Merge.Separate context projection) {slot : Slot}
    (hmem : slot ∈ projection.slots) : '#' ∉ slot.key.toList := by
  obtain ⟨field, hfield, hnamed⟩ := hslots.named slot hmem
  have hname := Text.notMem_of_isName (Merge.fieldName_valid h.draft h.fields hfield) Text.isNamePart_hash
  rcases hnamed with hnamed | hnamed
  · rw [hnamed]
    exact hname
  · have htype := Text.notMem_of_isName (h.draft.typeName_valid _ (List.mem_of_getElem?
      (Merge.declaring_typeName h.draft h.fields hfield))) Text.isNamePart_hash
    have hpoint : '#' ∉ ".".toList := by decide
    rw [hnamed, String.toList_append, String.toList_append]
    simp only [List.mem_append, htype, hpoint, hname, or_self, not_false_eq_true]

theorem BuiltFrom.name_of_typeNames {context : Merge.Context} {built : Schema} (h : BuiltFrom context built)
    {id : TypeId} {name : String} (hname : context.draft.typeNames[id]? = some name) :
    (built.types[id]?).map SchemaType.name = some name := by
  have hlt := (List.getElem?_eq_some_iff.mp hname).1
  rw [Draft.typeNames, List.length_map] at hlt
  have hget := List.getElem?_eq_getElem (h.length.symm ▸ hlt)
  rw [Merge.typeNames_of_lt hlt] at hname
  rw [hget, Option.map_some, (h.types id _ hget).name_eq, hname]

/-- A name is that of a type if and only if it stands for its place. -/
theorem BuiltFrom.byName_iff {context : Merge.Context} {built : Schema} (h : BuiltFrom context built)
    {name : String} {id : TypeId} :
    built.byName.lookup name = some id ↔ ∃ type, built.types[id]? = some type ∧ type.name = name := by
  rw [h.byName_eq]
  constructor
  · intro hname
    exact Option.map_eq_some_iff.mp (h.name_of_typeNames ((h.draft.byName_iff name id).mp hname))
  · rintro ⟨type, htype, rfl⟩
    rw [← h.byName_eq, h.typeNamed htype, (h.types id type htype).id_eq]

theorem isTypename_of_attached {description : Value} {field : Field}
    (h : Field.isTypename
      { field with resolver := Introspection.resolverOver description field } = true) :
    field.isTypename = true := by
  unfold Field.isTypename Introspection.resolverOver at h
  dsimp only at h
  split at h
  · next hresolver =>
      split at hresolver
      · cases hresolver
      · split at hresolver
        · cases hresolver
        · rw [Field.isTypename, hresolver]
  · cases h

theorem BuiltFrom.field_attach {context : Merge.Context} {built : Schema} (h : BuiltFrom context built)
    {id : FieldId} {field : Field} (hfield : context.fields[id]? = some field) :
    (Introspection.attach built).field id = { field with
      resolver := Introspection.resolverOver (Introspection.describe built) field } := by
  rw [Schema.field, Introspection.attach, List.getD_eq_getElem?_getD, List.getElem?_map, h.fields_eq,
    hfield]
  rfl

/-- A schema that is built from a consistent draft can be relied on, also when it shows itself. -/
theorem BuiltFrom.wellFormed {context : Merge.Context} {built : Schema} (h : BuiltFrom context built) :
    (Introspection.attach built).WellFormed := by
  have hfield (id : FieldId) (field : Field)
      (hget : (Introspection.attach built).fields[id]? = some field) :
      ∃ origin, context.fields[id]? = some origin ∧ field =
        { origin with
          resolver := Introspection.resolverOver (Introspection.describe built) origin } := by
    rw [Introspection.attach, List.getElem?_map, Option.map_eq_some_iff, h.fields_eq] at hget
    obtain ⟨origin, horigin, rfl⟩ := hget
    exact ⟨origin, horigin, rfl⟩
  constructor
  · exact fun id type htype => (h.types id type htype).id_eq
  · intro id field hget
    obtain ⟨origin, horigin, rfl⟩ := hfield id field hget
    obtain ⟨_, _, _, _, rfl⟩ := h.fields.declared id origin horigin
    rfl
  · intro field hmem
    obtain ⟨id, hget⟩ := List.mem_iff_getElem?.mp hmem
    obtain ⟨origin, horigin, rfl⟩ := hfield id field hget
    have hlt := h.target_lt horigin
    exact hlt
  · intro type hmem
    obtain ⟨id, htype⟩ := List.mem_iff_getElem?.mp hmem
    exact h.typeNamed htype
  · intro type hmem entry hentry
    obtain ⟨id, htype⟩ := List.mem_iff_getElem?.mp hmem
    obtain ⟨field, hget, _⟩ := (h.types id type htype).sound.lookup entry hentry
    rw [Introspection.attach, List.length_map, h.fields_eq]
    exact (List.getElem?_eq_some_iff.mp hget).1
  · intro type hmem
    obtain ⟨id, htype⟩ := List.mem_iff_getElem?.mp hmem
    exact (h.types id type htype).sound.slots.distinct
  · intro type hmem slot hslot
    obtain ⟨id, htype⟩ := List.mem_iff_getElem?.mp hmem
    exact h.mark_notMem (h.types id type htype).sound.slots hslot
  · intro type hmem slot hslot hkey
    obtain ⟨id, htype⟩ := List.mem_iff_getElem?.mp hmem
    obtain ⟨field, hget, hname, hresolver⟩ :=
      h.typename_of_key (h.types id type htype).sound.slots hslot hkey
    have hsame : Introspection.resolverOver (Introspection.describe built) field = .typename := by
      rw [Introspection.resolverOver, hname, hresolver]
      rfl
    rw [h.field_attach hget, hsame]
    rfl
  · intro id type htype entry hentry htypename
    have hof := h.types id type htype
    obtain ⟨origin, horigin, _⟩ := hof.sound.lookup entry hentry
    rw [h.field_attach horigin] at htypename ⊢
    exact hof.typename_own entry hentry origin horigin (isTypename_of_attached htypename)
  · exact h.name_of_typeNames (h.query_eq ▸ h.draft.query_name)
  · exact h.name_of_typeNames (h.mutation_eq ▸ h.draft.mutation_name)
  · intro type hmem row
    obtain ⟨id, htype⟩ := List.mem_iff_getElem?.mp hmem
    have hof := h.types id type htype
    obtain ⟨actual, hactual, heval⟩ := eval_typenamePlan context id (concreteSubtypes context id) row
    have hlt : actual < built.types.length := by
      rcases hactual with rfl | ⟨hactual, _⟩
      · exact (List.getElem?_eq_some_iff.mp htype).1
      · exact h.lt_of_concrete hactual
    have hget : built.types[actual]? = some built.types[actual] := List.getElem?_eq_getElem hlt
    refine ⟨built.types[actual], List.getElem_mem hlt, fun source vars => ?_⟩
    rw [hof.typename_eq, (h.types actual _ hget).name_eq]
    exact heval source vars

end Completion

/-- Every completed schema can be relied on. -/
theorem Schema.Completed.wellFormed {schema : Schema} (h : schema.Completed) : schema.WellFormed := by
  obtain ⟨declarations, draft, hdeclared, hcomplete⟩ := h
  obtain ⟨grown, built, hgrown, hbuilt, rfl⟩ :=
    Completion.complete_ok (Draft.consistent_declareAll hdeclared) hcomplete
  obtain ⟨context, hfrom⟩ := Completion.build_ok hgrown hbuilt
  exact hfrom.wellFormed

theorem Schema.completed_of_toOption {declarations : List Declaration} {schema : Schema}
    (h : ((Draft.start.declareAll declarations).bind fun draft => draft.complete.1).toOption =
      some schema) : schema.Completed := by
  obtain ⟨draft, hdeclared, hcomplete⟩ := Outcome.bind_ok_iff.mp (Outcome.ok_of_toOption h)
  exact ⟨declarations, draft, hdeclared, hcomplete⟩

/-- Declarations of animals, which have a name, a number and a friend each. -/
def Declaration.animals : List Declaration :=
  [.type (.ofKind .interface "Animal"), .type ⟨"Dog", none, none, ["Animal"], .object⟩,
    .type ⟨"Cat", none, none, ["Animal"], .object⟩, .field 7 (.plain "name" "String"),
    .field 7 (.plain "id" "Int"), .field 7 (.plain "friend" "Animal"),
    .field 5 { FieldSpec.plain "animals" "[Animal]" with
      resolver? := some (.plan fun _ _ => .ok (.collection "animals")) }]

/-- The schema of animals: types 7 to 9 are animals, dogs and cats. -/
def Schema.animals : Schema :=
  ((Draft.start.declareAll Declaration.animals).bind fun draft => draft.complete.1).toOption.get
    (by decide +kernel)

theorem Schema.animals_completed : Schema.animals.Completed :=
  Schema.completed_of_toOption (Option.some_get _).symm

/-- Declarations of a kennel: dogs are animals, and the root of queries is a node as well. The toys of a
dog are those that name it as their owner. -/
def Declaration.kennel : List Declaration :=
  [.type (.ofKind .interface "Animal"), .type ⟨"Dog", none, none, ["Animal"], .object⟩,
    .type (.ofKind .object "Toy"), .type (.ofKind .interface "Node"), .conformance 10 5,
    .field 7 (.plain "id" "Int"), .field 8 (.plain "barks" "Boolean"),
    .field 8 { FieldSpec.plain "toys" "[Toy]" with
      resolver? := some (.plan fun scope _ => .ok (.filter (.collection "toys")
        (.compare .eq (.member .row "owner") (.member scope.parent "id"))))
      resolution? := some .unmodified },
    .field 9 (.plain "label" "String"),
    .field 5 { FieldSpec.plain "animals" "[Animal]" with
      resolver? := some (.plan fun _ _ => .ok (.collection "animals")) }]

/-- The schema of a kennel: types 7 to 10 are animals, dogs, toys and nodes. -/
def Schema.kennel : Schema :=
  ((Draft.start.declareAll Declaration.kennel).bind fun draft => draft.complete.1).toOption.get
    (by decide +kernel)

theorem Schema.kennel_completed : Schema.kennel.Completed :=
  Schema.completed_of_toOption (Option.some_get _).symm

namespace Schema

theorem type_mem {schema : Schema} {id : TypeId} (h : id < schema.types.length) :
    schema.type id ∈ schema.types := by
  rw [type, List.getD_eq_getElem?_getD, List.getElem?_eq_getElem h]
  exact List.getElem_mem h

theorem field_mem {schema : Schema} {id : FieldId} (h : id < schema.fields.length) :
    schema.field id ∈ schema.fields := by
  rw [field, List.getD_eq_getElem?_getD, List.getElem?_eq_getElem h]
  exact List.getElem_mem h

theorem type_of_le {schema : Schema} {id : TypeId} (h : schema.types.length ≤ id) : schema.type id = default := by
  rw [type, List.getD_eq_getElem?_getD, List.getElem?_eq_none h]
  rfl

theorem field_of_le {schema : Schema} {id : FieldId} (h : schema.fields.length ≤ id) :
    schema.field id = default := by
  rw [field, List.getD_eq_getElem?_getD, List.getElem?_eq_none h]
  rfl

theorem type_eq {schema : Schema} {id : TypeId} {type : SchemaType} (h : schema.types[id]? = some type) :
    schema.type id = type := by
  rw [Schema.type, List.getD_eq_getElem?_getD, h]
  rfl

theorem field_eq {schema : Schema} {id : FieldId} {field : Field} (h : schema.fields[id]? = some field) :
    schema.field id = field := by
  rw [Schema.field, List.getD_eq_getElem?_getD, h]
  rfl

theorem id_of_place {schema : Schema}
    (hplaces : ∀ (id : TypeId) (type : SchemaType), schema.types[id]? = some type → type.id = id) {id : TypeId}
    (hlt : id < schema.types.length) : (schema.type id).id = id := by
  have hget := List.getElem?_eq_getElem hlt
  rw [type_eq hget]
  exact hplaces id _ hget

/-- A type that shows anything is there. -/
theorem lt_of_visible {schema : Schema} {owner : TypeId} {entry : String × FieldId}
    (hmem : entry ∈ (schema.type owner).fields) : owner < schema.types.length := by
  by_contra hge
  rw [type_of_le (Nat.le_of_not_lt hge)] at hmem
  cases hmem

namespace WellFormed

variable {schema : Schema} (h : schema.WellFormed)

include h

/-- The roots are types of the schema. -/
theorem roots_lt : schema.query < schema.types.length ∧ schema.mutation < schema.types.length := by
  obtain ⟨_, hquery, _⟩ := Option.map_eq_some_iff.mp h.query_name
  obtain ⟨_, hmutation, _⟩ := Option.map_eq_some_iff.mp h.mutation_name
  exact ⟨(List.getElem?_eq_some_iff.mp hquery).1, (List.getElem?_eq_some_iff.mp hmutation).1⟩

theorem id_of_lt {id : TypeId} (hlt : id < schema.types.length) : (schema.type id).id = id :=
  id_of_place h.type_id hlt

/-- The target of a field bears its own place; also that of a field that is not there does. -/
theorem id_of_target (id : FieldId) :
    (schema.type (schema.field id).target).id = (schema.field id).target := by
  by_cases hid : id < schema.fields.length
  · have hget := List.getElem?_eq_getElem hid
    rw [field_eq hget]
    exact h.id_of_lt (h.target_lt _ (List.getElem_mem hid))
  · rw [field_of_le (Nat.le_of_not_lt hid)]
    by_cases htypes : 0 < schema.types.length
    · exact h.id_of_lt htypes
    · rw [List.length_pos_iff, not_not] at htypes
      rw [type, htypes]
      rfl

theorem typeNamed {type : SchemaType} (hmem : type ∈ schema.types) :
    schema.typeNamed? type.name = some type := by
  obtain ⟨id, hget⟩ := List.mem_iff_getElem?.mp hmem
  rw [typeNamed?, h.byName type hmem, h.type_id id type hget, Option.map_some, type_eq hget]

/-- A name is that of one type. -/
theorem eq_of_name {a b : TypeId} (ha : a < schema.types.length) (hb : b < schema.types.length)
    (hname : (schema.type a).name = (schema.type b).name) : a = b := by
  have hsome := h.byName _ (type_mem ha)
  rw [hname, h.byName _ (type_mem hb), Option.some.injEq, h.id_of_lt ha, h.id_of_lt hb] at hsome
  exact hsome.symm

/-- What a type shows are fields of the schema, among them its own name only of all names of types. -/
theorem shown_of_lookup {scope : TypeId} {name : String} {field : Field}
    (hlookup : schema.lookupField? scope name = some field) :
    scope < schema.types.length ∧ schema.fields[field.id]? = some field ∧
      (field.isTypename = true → field.declaring = scope) := by
  obtain ⟨id, hentry, rfl⟩ := Option.map_eq_some_iff.mp hlookup
  have hmem : (name, id) ∈ (schema.type scope).fields := Keyed.mem_of_lookup hentry
  have hscope := lt_of_visible hmem
  have hget := List.getElem?_eq_getElem (h.visible_lt _ (type_mem hscope) _ hmem)
  refine ⟨hscope, ?_, ?_⟩
  · rw [field_eq hget, h.field_id id _ hget]
    exact hget
  · rw [type_eq (List.getElem?_eq_getElem hscope)] at hmem
    exact h.typename_own scope _ (List.getElem?_eq_getElem hscope) _ hmem

/-- A field that a type shows stands at its place. -/
theorem field_of_lookup {scope : TypeId} {name : String} {field : Field}
    (hlookup : schema.lookupField? scope name = some field) :
    schema.fields[field.id]? = some field :=
  (h.shown_of_lookup hlookup).2.1

end WellFormed

end Schema

end GraphQuery
