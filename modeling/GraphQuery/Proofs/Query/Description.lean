import GraphQuery.Proofs.Query.OwnMember
import GraphQuery.Proofs.Value.Members

/-! Descriptions. A completed schema shows a description of itself, which was made before it could show
anything. What the description says of types, of the fields that may be selected on them, of arguments and
of concrete subtypes is what binding and execution go by. -/

namespace GraphQuery

namespace Introspection

/-- The entries that a description lists under a key. -/
def entries (key : String) (description : Value) : List Value :=
  ((description.get? key).bind Value.asArray?).getD []

/-- The name that a description gives. -/
def nameIn? (description : Value) : Option String :=
  (description.get? "name").bind Value.asString?

/-- The type that a reference stands for. -/
def decode? (reference : Value) : Option TypeRef :=
  let kind? := (reference.get? "kind").bind Value.asString?
  match _inside : reference.get? "ofType" with
  | none => none
  | some inner =>
    if kind? = some "NON_NULL" then (decode? inner).map .nonNull
    else if kind? = some "LIST" then (decode? inner).map .list
    else (nameIn? reference).map .named
termination_by sizeOf reference
decreasing_by
  all_goals exact Value.sizeOf_lt_of_get? _inside

theorem get?_ofEntries {members : List (String × Value)} (h : (members.map Prod.fst).Nodup) (key : String) :
    (Value.ofEntries members).get? key = members.lookup key :=
  Members.get?_ofList h key

theorem nodup_reference : ["kind", "name", "ofType"].Nodup := by decide

theorem nodup_schemaEntry : ["queryType", "mutationType", "types"].Nodup := by decide

theorem nodup_typeEntry :
    ["kind", "name", "description", "fields", "interfaces", "possibleTypes", "enumValues", "ofType"].Nodup := by
  decide

theorem nodup_fieldEntry : ["name", "description", "type", "args"].Nodup := by decide

theorem nodup_parameterEntry : ["name", "description", "type", "defaultValue"].Nodup := by decide

theorem decode?_ofEntries (kind : String) (name inner : Value) :
    decode? (.ofEntries [("kind", .string kind), ("name", name), ("ofType", inner)]) =
      if kind = "NON_NULL" then (decode? inner).map .nonNull
      else if kind = "LIST" then (decode? inner).map .list
      else name.asString?.map .named := by
  have hget := @get?_ofEntries [("kind", .string kind), ("name", name), ("ofType", inner)] nodup_reference
  rw [decode?, nameIn?, hget "kind", hget "name"]
  split
  · next h => cases (hget "ofType").symm.trans h
  · next h =>
      cases (hget "ofType").symm.trans h
      simp [List.lookup_cons, Value.asString?]

theorem decode?_wrapperRef {kind : String} {inner : Value} : decode? (wrapperRef kind inner) =
      if kind = "NON_NULL" then (decode? inner).map .nonNull
      else if kind = "LIST" then (decode? inner).map .list
      else none :=
  decode?_ofEntries kind .null inner

theorem text_ne_wrapper (kind : TypeKind) : kind.text ≠ "NON_NULL" ∧ kind.text ≠ "LIST" := by
  cases kind <;> decide

/-- The reference to the type of an argument stands for that type. -/
theorem decode?_inputRef (schema : Schema) (type : TypeRef) : decode? (inputRef schema type) = some type := by
  induction type with
  | named name =>
      rw [inputRef, decode?_ofEntries]
      have hkind : ∀ kind ∈ [(schema.typeNamed? name).elim "SCALAR" fun type => type.kind.text],
          kind ≠ "NON_NULL" ∧ kind ≠ "LIST" := by
        cases schema.typeNamed? name with
        | none => simp
        | some type => simpa using text_ne_wrapper type.kind
      obtain ⟨hnonNull, hlist⟩ := hkind _ List.mem_cons_self
      rw [if_neg hnonNull, if_neg hlist]
      rfl
  | list item ih => rw [inputRef, decode?_wrapperRef, ih]; rfl
  | nonNull inner ih => rw [inputRef, decode?_wrapperRef, ih]; rfl

section

variable {schema : Schema}

theorem nameIn?_describeType (type : SchemaType) : nameIn? (describeType schema type) = some type.name := by
  rw [nameIn?, describeType, get?_ofEntries]
  · rfl
  · exact nodup_typeEntry

theorem entries_types : entries "types" (describe schema) = schema.types.map (describeType schema) := by
  rw [entries, describe, get?_ofEntries]
  · rfl
  · exact nodup_schemaEntry

/-- A type that may be implemented lists the fields visible on it. -/
theorem entries_fields {type : SchemaType} (h : type.kind.isImplementable = true) :
    entries "fields" (describeType schema type) = (visibleFields schema type).map (describeField schema) := by
  rw [entries, describeType, get?_ofEntries, h]
  · rfl
  · exact nodup_typeEntry

/-- An abstract type lists its concrete subtypes. -/
theorem entries_possibleTypes {type : SchemaType} (h : type.kind.isAbstract = true) :
    entries "possibleTypes" (describeType schema type) =
      type.descendants.map fun id => namedRef (schema.type id) := by
  rw [entries, describeType, get?_ofEntries, h]
  · rfl
  · exact nodup_typeEntry

theorem nameIn?_describeField (field : Field) : nameIn? (describeField schema field) = some field.name := by
  rw [nameIn?, describeField, get?_ofEntries]
  · rfl
  · exact nodup_fieldEntry

theorem entries_args (field : Field) :
    entries "args" (describeField schema field) = field.parameters.map (describeParameter schema) := by
  rw [entries, describeField, get?_ofEntries]
  · rfl
  · exact nodup_fieldEntry

/-- An argument is listed under its name, with a reference to its type. -/
theorem describeParameter_entry (parameter : Parameter) :
    nameIn? (describeParameter schema parameter) = some parameter.name ∧
      ((describeParameter schema parameter).get? "type").bind decode? = some parameter.type := by
  rw [nameIn?, describeParameter, get?_ofEntries, get?_ofEntries]
  · exact ⟨rfl, decode?_inputRef schema parameter.type⟩
  · exact nodup_parameterEntry
  · exact nodup_parameterEntry

end

/-! ### The schema that shows its own description -/

theorem field_attach_eq (built : Schema) (id : FieldId) : (attach built).field id =
    { built.field id with resolver := resolverOver (describe built) (built.field id) } := by
  rw [Schema.field, attach, List.getD_eq_getElem?_getD, List.getElem?_map, Schema.field,
    List.getD_eq_getElem?_getD]
  cases built.fields[id]? <;> rfl

theorem visibleFields_attach (built : Schema) (type : SchemaType) : visibleFields (attach built) type =
    (visibleFields built type).map fun field =>
      { field with resolver := resolverOver (describe built) field } := by
  simp only [visibleFields, List.filter_map, List.map_map, field_attach_eq]
  rfl

theorem inputRef_attach (built : Schema) (type : TypeRef) : inputRef (attach built) type = inputRef built type := by
  induction type with
  | named name => rfl
  | list item ih => rw [inputRef, inputRef, ih]
  | nonNull inner ih => rw [inputRef, inputRef, ih]

theorem describeField_attach (built : Schema) (field : Field) (resolver : Resolver) :
    describeField (attach built) { field with resolver := resolver } = describeField built field := by
  have hparameter (parameter : Parameter) :
      describeParameter (attach built) parameter = describeParameter built parameter := by
    rw [describeParameter, describeParameter, inputRef_attach]
  rw [describeField, describeField, funext hparameter]
  rfl

theorem describeType_attach (built : Schema) (type : SchemaType) :
    describeType (attach built) type = describeType built type := by
  have hfields : (visibleFields (attach built) type).map (describeField (attach built)) =
      (visibleFields built type).map (describeField built) := by
    rw [visibleFields_attach, List.map_map]
    exact List.map_congr_left fun field _ => describeField_attach built field _
  rw [describeType, describeType, hfields]
  rfl

/-- What a schema shows of itself is what has been described before it was to show anything. -/
theorem describe_attach (built : Schema) : describe (attach built) = describe built := by
  rw [describe, describe, visibleFields_attach, List.isEmpty_map, funext (describeType_attach built)]
  rfl

/-- A field that does not show a schema keeps its way to come by its value. -/
theorem resolverOver_of_name (description : Value) {field : Field}
    (h : Text.isReserved field.name = false) : resolverOver description field = field.resolver := by
  have hne {name : String} (hname : Text.isReserved name = true) : (field.name == name) = false := by
    rw [beq_eq_false_iff_ne]
    rintro rfl
    exact Bool.false_ne_true (h.symm.trans hname)
  have hschema : Text.isReserved schemaField = true := by decide
  have htype : Text.isReserved typeField = true := by decide
  rw [resolverOver, hne hschema, hne htype]
  rfl

end Introspection

/-- The description of a schema tells what its queries may ask for. -/
structure Schema.Described (schema : Schema) : Prop where
  schema_shown : ∃ field, schema.lookupField? schema.query Introspection.schemaField = some field ∧
    ∀ scope arguments, field.buildPlan scope arguments = .ok (.const (Introspection.describe schema))
  type_shown : ∃ field, schema.lookupField? schema.query Introspection.typeField = some field ∧
    ∀ scope arguments name, (arguments.get? "name").bind Value.asString? = some name →
      field.buildPlan scope arguments =
        .ok (.const ((schema.typeNamed? name).elim .null (Introspection.describeType schema)))
  /-- Each type is described once. -/
  types_eq : Introspection.entries "types" (Introspection.describe schema) =
    schema.types.map (Introspection.describeType schema)
  name_eq : ∀ type ∈ schema.types, Introspection.nameIn? (Introspection.describeType schema type) = some type.name
  nodup_names : (schema.types.map SchemaType.name).Nodup
  /-- The fields listed are those that may be selected. -/
  mem_fields_iff : ∀ id < schema.types.length, (schema.type id).kind.isImplementable = true →
    ∀ name, Text.isReserved name = false → ∀ binder : Binder, binder.schema = schema →
      (some name ∈ (Introspection.entries "fields" (Introspection.describeType schema (schema.type id))).map
        Introspection.nameIn? ↔ ∃ field, binder.resolveField id id name = .ok field)
  /-- The arguments listed are those of the field that may be selected, with their types. -/
  arguments_eq : ∀ id < schema.types.length, (schema.type id).kind.isImplementable = true →
    ∀ entry ∈ Introspection.entries "fields" (Introspection.describeType schema (schema.type id)),
      ∃ name field, Introspection.nameIn? entry = some name ∧ schema.lookupField? id name = some field ∧
        (Introspection.entries "args" entry).map (fun argument =>
            (Introspection.nameIn? argument, (argument.get? "type").bind Introspection.decode?)) =
          field.parameters.map fun parameter => (some parameter.name, some parameter.type)
  /-- The possible types are the concrete subtypes. -/
  possibleTypes_eq : ∀ id < schema.types.length, (schema.type id).kind.isAbstract = true →
    ∃ subs : List TypeId, subs.Nodup ∧
      (∀ sub, sub ∈ subs ↔ sub ≠ id ∧ schema.isSubtype sub id = true ∧ (schema.type sub).kind = .object) ∧
      Introspection.entries "possibleTypes" (Introspection.describeType schema (schema.type id)) =
        subs.map fun sub => Introspection.namedRef (schema.type sub)

/-! ### The root fields of introspection -/

/-- The root of queries has been declared a field of some name. -/
structure Draft.RootField (name : String) (draft : Draft) : Prop where
  composite : ∃ type, draft.types[draft.query]? = some type ∧ type.kind.isLeaf = false
  declared : ∃ field ∈ draft.fields, field.owner = draft.query ∧ field.name = name

namespace Completion

open Outcome (Ensures)

theorem stable_rootField (name : String) : Stable (Draft.RootField name) where
  shape h hok := by
    obtain ⟨_, _, _, _, _, rfl⟩ := Draft.declareShape_ok hok
    obtain ⟨root, hroot, hkind⟩ := h.composite
    refine ⟨⟨root, ?_, hkind⟩, h.declared⟩
    exact (List.getElem?_append_left (List.getElem?_eq_some_iff.mp hroot).1).trans hroot
  field {draft _ owner _ _} h _ hok := by
    obtain ⟨type, _, _, _, htype, hleaf, _, _, _, _, rfl⟩ := Draft.insertField_ok hok
    obtain ⟨root, hroot, hkind⟩ := h.composite
    obtain ⟨field, hfield, hdeclared⟩ := h.declared
    refine ⟨?_, field, List.mem_append_left _ hfield, hdeclared⟩
    change ∃ type, (draft.types.set owner _)[draft.query]? = some type ∧ _
    by_cases heq : owner = draft.query
    · rw [← heq, List.getElem?_set_self (List.getElem?_eq_some_iff.mp htype).1]
      exact ⟨_, rfl, hleaf⟩
    · rw [List.getElem?_set_ne heq]
      exact ⟨root, hroot, hkind⟩

theorem rootField_of_insertField {draft grown : Draft} {spec : FieldSpec} {id : FieldId}
    (h : draft.insertField draft.query spec = .ok (id, grown)) : grown.RootField spec.name := by
  obtain ⟨type, parameters, target, _, htype, hleaf, _, _, _, _, rfl⟩ := Draft.insertField_ok h
  refine ⟨⟨_, List.getElem?_set_self (List.getElem?_eq_some_iff.mp htype).1, hleaf⟩, _,
    List.mem_append_right _ List.mem_cons_self, rfl, rfl⟩

/-- Declares fields on the root one after another. -/
def declareRoots (specs : List FieldSpec) : DraftM Unit :=
  specs.forM fun spec => do
    let _ ← declaring fun draft => draft.insertField draft.query spec

/-- Fields that are declared on the root are all there in the end. -/
theorem rootFields_of_run {specs : List FieldSpec} {draft grown : Draft}
    (hspecs : ∀ spec ∈ specs, Brings spec) (h : (declareRoots specs).run draft = (.ok (), grown)) :
    ∀ spec ∈ specs, grown.RootField spec.name := by
  refine Outcome.each_of_forM (fun spec _ before next hspec => ?_) (fun spec _ other hother => ?_) h
  · obtain ⟨_, _, hspec, hpure⟩ := Outcome.run_bind_ok hspec
    cases hpure
    exact rootField_of_insertField (run_declaring_ok hspec)
  · refine Ensures.bind (ensures_insertField (stable_rootField spec.name) (hspecs other hother)) fun _ _ => ?_
    exact Ensures.pure trivial

theorem rootFields_of_completion {draft grown : Draft}
    (h : ExceptT.run (do registerIntrospection; addTypenames : DraftM Unit) draft = (.ok (), grown)) :
    ∀ spec ∈ Introspection.rootFields .null, grown.RootField spec.name := by
  intro spec hmem
  obtain ⟨_, registered, hregister, htypenames⟩ := Outcome.run_bind_ok h
  unfold registerIntrospection at hregister
  obtain ⟨_, _, _, hregister⟩ := Outcome.run_bind_ok hregister
  obtain ⟨_, _, _, hroots⟩ := Outcome.run_bind_ok hregister
  have hroot := rootFields_of_run (fun _ hspec => .root hspec) hroots spec hmem
  have hkept := (ensures_addTypenames (stable_rootField spec.name) registered hroot).1
  rw [htypenames] at hkept
  exact hkept

/-- The draft that a completed schema has been built from has the root fields of introspection. -/
theorem exists_origin_roots {schema : Schema} (h : schema.Completed) :
    ∃ context built, Origin context built ∧ schema = Introspection.attach built ∧
      ∀ spec ∈ Introspection.rootFields .null, context.draft.RootField spec.name := by
  obtain ⟨_, _, context, built, _, hrun, _, horigin, heq⟩ := h.exists_run
  exact ⟨context, built, horigin, heq, rootFields_of_completion hrun⟩

namespace Origin

variable {context : Merge.Context} {built : Schema} (h : Origin context built)

include h

/-- What a type declares is offered to it. -/
theorem offered_of_declared {id : FieldId} {declared : DraftField}
    (hdeclared : context.draft.fields[id]? = some declared) : id ∈ Merge.offered context declared.owner := by
  have howner : declared.owner < built.types.length :=
    h.length ▸ h.draft.owner_lt declared (List.mem_of_getElem? hdeclared)
  have hown := h.draft.mem_own_iff.mpr ⟨declared, hdeclared, rfl⟩
  refine Merge.mem_offered_iff.mpr ⟨declared.owner, ?_, hown, fun _ => rfl⟩
  exact (h.prepared.mem_sources_iff (h.length ▸ howner)).mpr ⟨⟨declared.owner, .refl, .refl⟩, Or.inl rfl⟩

/-- A field that a composite type declares is offered to it, so that it shows one of its name. -/
theorem shown_of_declared {id : FieldId} {declared : DraftField}
    (hdeclared : context.draft.fields[id]? = some declared)
    (hcomposite : (built.type declared.owner).isLeaf = false) :
    ∃ field, (Introspection.attach built).lookupField? declared.owner declared.name = some field := by
  have howner : declared.owner < built.types.length :=
    h.length ▸ h.draft.owner_lt declared (List.mem_of_getElem? hdeclared)
  obtain ⟨first, hfirst⟩ := Merge.firstOf_isSome (h.offered_of_declared hdeclared)
  rw [Merge.name_declared h.fields hdeclared, ← (h.folded howner hcomposite).lookup] at hfirst
  exact ⟨_, Option.map_eq_some_iff.mpr ⟨first, hfirst, rfl⟩⟩

/-- The root shows the root fields of introspection. -/
theorem shown_root {name : String} (hroot : context.draft.RootField name) :
    ∃ field, (Introspection.attach built).lookupField? built.query name = some field := by
  obtain ⟨root, hquery, hkind⟩ := hroot.composite
  obtain ⟨declared, hmem, howner, rfl⟩ := hroot.declared
  obtain ⟨id, hdeclared⟩ := List.mem_iff_getElem?.mp hmem
  have hlt : declared.owner < built.types.length := by
    rw [howner, h.length]
    exact (List.getElem?_eq_some_iff.mp hquery).1
  rw [h.query_eq, ← howner]
  refine h.shown_of_declared hdeclared ?_
  rw [SchemaType.isLeaf, (h.typeOf hlt).kind_eq, howner, Draft.type_eq hquery]
  exact hkind

/-! ### Fields -/

/-- What a type lists is what it shows. -/
theorem mem_visibleFields_iff {owner : TypeId} (howner : owner < built.types.length) {field : Field} :
    field ∈ Introspection.visibleFields (Introspection.attach built) (built.type owner) ↔
      Text.isReserved field.name = false ∧
        (Introspection.attach built).lookupField? owner field.name = some field := by
  rw [Introspection.visibleFields, List.mem_filter, List.mem_map, Bool.not_eq_true', and_comm]
  refine and_congr_right fun _ => ?_
  constructor
  · rintro ⟨⟨name, id⟩, hentry, rfl⟩
    have hget := List.getElem?_eq_getElem howner
    have hlookup : (built.type owner).fields.lookup name = some id := by
      rw [Schema.type_eq hget] at hentry ⊢
      exact Keyed.lookup_of_mem (nodup_fields (h.completed owner _ hget)) hentry
    have hshown : (Introspection.attach built).lookupField? owner name =
        some ((Introspection.attach built).field id) := Option.map_eq_some_iff.mpr ⟨id, hlookup, rfl⟩
    obtain ⟨_, declared, target, _, hname, _, heq⟩ := h.declared_of_lookup hshown
    rw [heq] at hshown ⊢
    rw [← hname] at hshown
    exact hshown
  · intro hlookup
    obtain ⟨id, hentry, heq⟩ := Option.map_eq_some_iff.mp hlookup
    exact ⟨(field.name, id), Keyed.mem_of_lookup hentry, heq⟩

/-- Records of a composite type have slots for all fields that it shows, post fields and those of
introspection aside. -/
theorem carried_of_lookup {owner : TypeId} (howner : owner < built.types.length)
    (hcomposite : (built.type owner).isLeaf = false) {name : String} (hname : Text.isReserved name = false)
    {field : Field} (hlookup : (Introspection.attach built).lookupField? owner name = some field) :
    field.isPost = true ∨ ((built.type owner).projection.slotFor? field.id).isSome = true := by
  obtain ⟨hentry, declared, target, _, rfl, hget, heq⟩ := h.declared_of_lookup hlookup
  have hresolver : field.resolver = (context.field field.id).resolver := by
    rw [hget]
    exact (congrArg Field.resolver heq).trans (Introspection.resolverOver_of_name _ hname)
  have hfolded := h.folded howner hcomposite
  cases hpost : (context.field field.id).isPost with
  | true =>
      rw [Field.isPost, hresolver]
      exact Or.inl hpost
  | false =>
      exact Or.inr ((hfolded.slots _).mpr ⟨(Merge.firstOf_mem ((hfolded.lookup _).symm.trans hentry)).1, hpost⟩)

/-! ### The description -/

open Introspection

/-- The type of a name is the one that the description gives under it. -/
theorem find?_describe (name : String) :
    (entries "types" (describe built)).find? (fun type => nameIn? type == some name) =
      (built.typeNamed? name).map (describeType built) := by
  rw [entries_types, List.find?_map]
  congr 1
  have htest : (fun type => nameIn? type == some name) ∘ describeType built = fun type => type.name == name := by
    funext type
    rw [Function.comp, nameIn?_describeType, Option.some_beq_some]
  rw [htest]
  cases hfound : built.types.find? fun type => type.name == name with
  | none =>
      symm
      rw [Schema.typeNamed?, Option.map_eq_none_iff, Option.eq_none_iff_forall_ne_some]
      intro id hid
      obtain ⟨type, htype, hname⟩ := h.byName_iff.mp hid
      exact List.find?_eq_none.mp hfound type (List.mem_of_getElem? htype) (beq_iff_eq.mpr hname)
  | some type =>
      obtain ⟨id, htype⟩ := List.mem_iff_getElem?.mp (List.mem_of_find?_eq_some hfound)
      have hname : type.name = name := by simpa using List.find?_some hfound
      rw [Schema.typeNamed?, h.byName_iff.mpr ⟨type, htype, hname⟩, Option.map_some, Schema.type_eq htype]

theorem mem_fields_iff {owner : TypeId} (howner : owner < built.types.length)
    (hkind : (built.type owner).kind.isImplementable = true) {name : String} (hname : Text.isReserved name = false)
    {binder : Binder} (hbinder : binder.schema = attach built) :
    some name ∈ (entries "fields" (describeType (attach built) (built.type owner))).map nameIn? ↔
      ∃ field, binder.resolveField owner owner name = .ok field := by
  rw [entries_fields hkind, List.map_map, List.mem_map]
  constructor
  · rintro ⟨field, hmem, hfield⟩
    rw [Function.comp, nameIn?_describeField, Option.some.injEq] at hfield
    subst hfield
    have hlookup := ((h.mem_visibleFields_iff howner).mp hmem).2
    have hcomposite : (built.type owner).isLeaf = false := by
      rw [SchemaType.isLeaf]
      cases hshape : (built.type owner).kind <;> rw [hshape] at hkind <;> first | rfl | cases hkind
    refine ⟨field, ?_⟩
    rw [← hbinder] at hlookup
    rcases h.carried_of_lookup howner hcomposite hname (hbinder ▸ hlookup) with hpost | hslot
    · rw [Binder.resolveField, hlookup]
      dsimp only
      rw [hpost]
      rfl
    · refine Binder.resolveField_of_slot hlookup ?_
      rw [hbinder]
      exact hslot
  · rintro ⟨field, hfield⟩
    have hlookup := (Binder.resolveField_ok hfield).1
    rw [hbinder] at hlookup
    obtain ⟨_, declared, target, _, rfl, _, heq⟩ := h.declared_of_lookup hlookup
    have hsame : declared.name = field.name := by
      rw [heq]
      rfl
    rw [hsame] at hlookup hname ⊢
    exact ⟨field, (h.mem_visibleFields_iff howner).mpr ⟨hname, hlookup⟩, nameIn?_describeField field⟩

/-- The root shows what the description of the schema says. -/
theorem plan_of_root {name : String} (hroot : context.draft.RootField name) :
    ∃ field, (attach built).lookupField? built.query name = some field ∧
      ∃ origin : Field, field.resolver = resolverOver (describe (attach built)) origin ∧ origin.name = name := by
  obtain ⟨field, hlookup⟩ := h.shown_root hroot
  obtain ⟨_, declared, target, _, hname, _, heq⟩ := h.declared_of_lookup hlookup
  rw [describe_attach]
  exact ⟨field, hlookup, _, congrArg Field.resolver heq, hname⟩

theorem nodup_names : (built.types.map SchemaType.name).Nodup := by
  rw [List.nodup_iff_injective_getElem]
  rintro ⟨i, hi⟩ ⟨j, hj⟩ hsame
  rw [List.length_map] at hi hj
  dsimp only at hsame
  rw [List.getElem_map, List.getElem_map] at hsame
  have hfirst := h.byName_iff.mpr ⟨_, List.getElem?_eq_getElem hi, hsame⟩
  have hsecond := h.byName_iff.mpr ⟨_, List.getElem?_eq_getElem hj, rfl⟩
  exact Fin.ext (Option.some.inj (hfirst.symm.trans hsecond))

theorem nodup_descendants {owner : TypeId} (howner : owner < built.types.length) :
    (built.type owner).descendants.Nodup := by
  rw [(h.typeOf howner).descendants_eq, concreteSubtypes, (Sort.perm_stable _ _).nodup_iff]
  exact (h.nodup_subtypesOf howner).filter _

/-- The concrete subtypes of a type are the objects among its proper subtypes. -/
theorem mem_descendants_iff_isSubtype {owner sub : TypeId} (howner : owner < built.types.length) :
    sub ∈ (built.type owner).descendants ↔
      sub ≠ owner ∧ built.isSubtype sub owner = true ∧ (built.type sub).kind = .object := by
  rw [h.mem_descendants_iff howner, h.isSubtype_iff]
  have hproper : owner ∈ context.supertypesOf sub ↔
      sub ≠ owner ∧ (sub = owner ∨ owner ∈ context.supertypesOf sub) := by
    constructor
    · intro habove
      refine ⟨?_, Or.inr habove⟩
      rintro rfl
      exact h.prepared.acyclic sub habove
    · rintro ⟨hne, heq | habove⟩
      · exact absurd heq hne
      · exact habove
  rw [← and_assoc, ← hproper]
  refine and_congr_right fun habove => ?_
  rw [(h.typeOf (h.subtypes_lt owner sub ((h.mem_subtypesOf_iff howner sub).mpr habove))).kind_eq]

/-- A schema describes itself as it is. -/
theorem described (hroots : ∀ spec ∈ rootFields .null, context.draft.RootField spec.name) :
    (attach built).Described where
  schema_shown := by
    obtain ⟨field, hlookup, origin, hresolver, hname⟩ := h.plan_of_root (hroots _ List.mem_cons_self)
    refine ⟨field, hlookup, fun scope arguments => ?_⟩
    rw [Field.buildPlan, hresolver, resolverOver, hname]
    rfl
  type_shown := by
    obtain ⟨field, hlookup, origin, hresolver, hname⟩ :=
      h.plan_of_root (hroots _ (List.mem_cons_of_mem _ List.mem_cons_self))
    refine ⟨field, hlookup, fun scope arguments name hargument => ?_⟩
    rw [Field.buildPlan, hresolver, resolverOver, hname, describe_attach]
    change typePlan (describe built) scope arguments = _
    rw [typePlan, hargument, Option.getD_some]
    change Except.ok (Plan.const (((entries "types" (describe built)).find?
      fun type => nameIn? type == some name).getD .null)) = _
    rw [h.find?_describe, funext (describeType_attach built)]
    change _ = Except.ok (Plan.const ((built.typeNamed? name).elim .null (describeType built)))
    cases built.typeNamed? name <;> rfl
  types_eq := entries_types
  name_eq type _ := nameIn?_describeType type
  nodup_names := h.nodup_names
  mem_fields_iff _ hid hkind _ hname _ hbinder := h.mem_fields_iff hid hkind hname hbinder
  arguments_eq id hid hkind entry hentry := by
    rw [entries_fields hkind] at hentry
    obtain ⟨field, hfield, rfl⟩ := List.mem_map.mp hentry
    refine ⟨field.name, field, nameIn?_describeField field, ((h.mem_visibleFields_iff hid).mp hfield).2, ?_⟩
    rw [entries_args, List.map_map]
    refine List.map_congr_left fun parameter _ => ?_
    exact Prod.ext (describeParameter_entry parameter).1 (describeParameter_entry parameter).2
  possibleTypes_eq id hid hkind := ⟨(built.type id).descendants, h.nodup_descendants hid,
    fun _ => h.mem_descendants_iff_isSubtype hid, entries_possibleTypes hkind⟩

end Origin
end Completion

namespace Schema

/-- Introspection tells what queries may ask for. The root fields of introspection show the description of
the completed schema itself, which lists each type once; a composite type lists those fields that may be
selected on it, with their arguments and the types of these, and an abstract one its concrete subtypes. -/
theorem description_faithful {schema : Schema} (h : schema.Completed) : schema.Described := by
  obtain ⟨context, built, horigin, rfl, hroots⟩ := Completion.exists_origin_roots h
  exact horigin.described hroots

/-- The animals of the kennel list the bark of dogs, which may be selected on them. -/
theorem kennel_description_faithful : Schema.kennel.Described ∧
    some "barks" ∈ (Introspection.entries "fields" (Introspection.describeType kennel (kennel.type 7))).map
      Introspection.nameIn? := by
  have hdescribed := description_faithful kennel_completed
  have hfield : (Binder.resolveField ⟨kennel, [], [], none⟩ 7 7 "barks").isOk = true := by decide +kernel
  refine ⟨hdescribed, (hdescribed.mem_fields_iff 7 (by decide +kernel) (by decide +kernel) "barks" (by decide)
    ⟨kennel, [], [], none⟩ rfl).mpr ?_⟩
  exact Outcome.exists_of_isOk hfield

end Schema
end GraphQuery
