import GraphQuery.Schema.Introspection
import GraphQuery.Schema.Merge

/-! Completion: a draft becomes a schema, once. What completion itself declares stays in the draft also
when completion fails later. -/

namespace GraphQuery

namespace Completion

/-- Steps that change a draft and may fail, keeping what earlier ones changed. -/
abbrev DraftM := ExceptT SchemaError (StateM Draft)

/-- A declaration as a step. -/
def declaring {α : Type} (declaration : Draft → Except SchemaError (α × Draft)) : DraftM α :=
  fun draft =>
    match declaration draft with
    | .ok (result, grown) => (.ok result, grown)
    | .error error => (.error error, draft)

/-- Declares the fields of a type of introspection. -/
def addMembers (owner : TypeId) (fields : List (String × String)) : DraftM Unit :=
  fields.forM fun (name, target) => do
    let _ ← declaring fun draft => draft.insertField owner (.plain name target)

/-- Declares the types of introspection, then their fields, then the root fields. -/
def registerIntrospection : DraftM Unit := do
  let owners ← Introspection.types.mapM fun (name, fields) => do
    let id ← declaring fun draft => draft.declareShape (.ofKind .object name)
    pure (id, fields)
  owners.forM fun (owner, fields) => addMembers owner fields
  (Introspection.rootFields .null).forM fun spec => do
    let _ ← declaring fun draft => draft.insertField draft.query spec

/-- The field that names the type of a row. -/
def typenameSpec : FieldSpec :=
  { FieldSpec.plain typenameKey "String!" with
    resolver? := some .typename
    resolution? := some .unmodified }

/-- Declares the type name on every type that has fields. -/
def addTypenames : DraftM Unit := do
  let draft ← get
  let composite := (List.range draft.types.length).filter fun id => !(draft.type id).kind.isLeaf
  composite.forM fun id => do
    let _ ← declaring fun draft => draft.insertField id typenameSpec

/-- Every named argument type needs a rule. -/
def checkParameters (draft : Draft) (owner : String) (field : DraftField) : Except SchemaError Unit :=
  field.parameters.forM fun parameter =>
    let input := parameter.type.innermost
    if draft.rules.contains input then .ok ()
    else .error (.unknownType input (owner ++ "." ++ field.name ++ "(" ++ parameter.name ++ ")"))

/-- The type that a field yields. -/
def resolveTarget (draft : Draft) (field : DraftField) : Except SchemaError TypeId := do
  let owner := (draft.type field.owner).name
  match draft.byName.lookup field.target.typeName with
  | none => .error (.unknownType field.target.typeName (owner ++ "." ++ field.name))
  | some target =>
    checkParameters draft owner field
    pure target

/-- A declared field as one of the schema. A list is read as a list and anything else as its first
item, unless the declaration says otherwise. -/
def completeField (id : FieldId) (field : DraftField) (target : TypeId) : Field where
  id := id
  name := field.name
  declaring := field.owner
  target := target
  isList := field.target.isList
  parameters := field.parameters
  resolution := field.resolution?.getD (if field.target.isList then .toList else .firstOrDefault)
  resolver := field.resolver
  cost? := field.cost?
  store? := field.store?
  description? := field.description?

/-- The fields of the schema. -/
def completeFields (draft : Draft) : Except SchemaError (List Field) := do
  let targets ← draft.fields.mapM (resolveTarget draft)
  pure (((List.range draft.fields.length).zip (draft.fields.zip targets)).map
    fun (id, field, target) => completeField id field target)

/-- The types that have another one as a parent, as often as they have. -/
def childrenOf (relations : List Relations) (parent : TypeId) : List TypeId :=
  (List.range relations.length).flatMap fun id =>
    ((relations.getD id default).parents.filter (· == parent)).map fun _ => id

/-- All proper subtypes of a type. -/
def subtypesOf (supertypes : List (List TypeId)) (type : TypeId) : List TypeId :=
  (List.range supertypes.length).filter fun id => (supertypes.getD id []).contains type

/-- The shapes of a type and of its subtypes. -/
def shapesOf (context : Merge.Context) (type : TypeId) : List String :=
  (type :: context.subtypesOf type).map fun id => (context.draft.type id).shape.name

/-- The object types among the subtypes of a type, those with most supertypes first. -/
def concreteSubtypes (context : Merge.Context) (type : TypeId) : List TypeId :=
  let objects := (context.subtypesOf type).filter fun id => (context.draft.type id).kind == .object
  Sort.stable
    (fun a b => (context.supertypesOf b).length < (context.supertypesOf a).length) objects

/-- The plan that names the type of a row: the first of these subtypes whose shapes the row has, else
the type itself. -/
def typenamePlan (context : Merge.Context) (type : TypeId) (concrete : List TypeId) : Plan :=
  concrete.foldr
    (fun id otherwise =>
      .cond (.typeIs .row (shapesOf context id)) (.const (.string (context.nameOf id))) otherwise)
    (.const (.string (context.nameOf type)))

/-- A declared type as one of the schema. -/
def completeType (context : Merge.Context) (id : TypeId) : Except SchemaError SchemaType := do
  let type := context.draft.type id
  let relations := context.relations.getD id default
  let concrete := concreteSubtypes context id
  let merged ←
    if type.kind.isLeaf then pure ⟨[], .empty type.name⟩ else Merge.fields context id
  pure {
    id := id
    name := type.name
    shape := type.shape
    kind := type.kind
    description? := type.description?
    ownFields := type.fields
    fields := merged.lookup
    included := childrenOf context.relations id
    ancestor? := relations.ancestor?
    interfaces := relations.interfaces
    supertypes := context.supertypesOf id
    descendants := concrete
    shapes := shapesOf context id
    projection := merged.projection
    typename := typenamePlan context id concrete }

/-- The schema that the declarations of a draft make. -/
def build (draft : Draft) : Except SchemaError Schema := do
  let fields ← completeFields draft
  let relations ← Hierarchy.relations draft
  let supertypes ← Hierarchy.supertypes draft relations
  let ids := List.range draft.types.length
  let context : Merge.Context :=
    ⟨draft, fields, relations, supertypes, ids.map (subtypesOf supertypes)⟩
  let types ← ids.mapM (completeType context)
  pure ⟨types, fields, draft.byName, draft.query, draft.mutation, draft.rules.freeze⟩

end Completion

namespace Draft

open Completion in
/-- Completes a draft. Afterwards it takes no more declarations, whether completion succeeds or fails. -/
def complete (draft : Draft) : Except SchemaError Schema × Draft :=
  match draft.ensureOpen with
  | .error error => (.error error, draft)
  | .ok () =>
    let steps : DraftM Unit := do
      registerIntrospection
      addTypenames
    match steps.run { draft with completed := true } with
    | (.error error, grown) => (.error error, grown)
    | (.ok (), grown) =>
      match build grown with
      | .error error => (.error error, grown)
      | .ok schema =>
        let complete := Introspection.attach schema
        (.ok complete, { grown with schema? := some complete })

end Draft

end GraphQuery
