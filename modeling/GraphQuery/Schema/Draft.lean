import GraphQuery.Schema.Basic

/-! Drafts: the declarations of a schema that is not completed yet. A declaration that fails leaves the
draft as it was. -/

namespace GraphQuery

/-- A declared type. -/
structure DraftType where
  shape : Shape
  description? : Option String
  fields : List FieldId
  interfaces : List TypeId
  members : List TypeId
deriving Inhabited

/-- A declared field. -/
structure DraftField where
  owner : TypeId
  name : String
  target : Target
  parameters : List Parameter
  resolver : Resolver
  resolution? : Option Resolution
  cost? : Option Cost
  store? : Option String
  description? : Option String

/-- The declarations so far, and the schema that their completion has led to. -/
structure Draft where
  types : List DraftType
  byShape : List (String × TypeId)
  byName : List (String × TypeId)
  fields : List DraftField
  rules : RuleRegistry
  query : TypeId
  mutation : TypeId
  completed : Bool
  schema? : Option Schema

namespace DraftType

/-- The name of the type for queries. -/
def name (type : DraftType) : String :=
  type.shape.typeName

def kind (type : DraftType) : TypeKind :=
  type.shape.kind

end DraftType

namespace Draft

/-- The scalars that every schema has. -/
def builtInScalars : List String :=
  ["Int", "Float", "String", "Boolean", "ID"]

def queryName : String :=
  "Query"

def mutationName : String :=
  "Mutation"

/-- The place of the next type. -/
def nextType (draft : Draft) : TypeId :=
  draft.types.length

/-- Adds a type without any check. -/
def pushType (draft : Draft) (shape : Shape) : Draft :=
  { draft with
    types := draft.types ++ [⟨shape, none, [], [], []⟩]
    byShape := draft.byShape ++ [(shape.name, draft.nextType)]
    byName := draft.byName ++ [(shape.typeName, draft.nextType)] }

/-- A draft with the scalars that every schema has and the two roots. -/
def start : Draft :=
  let bare : Draft := ⟨[], [], [], [], .builtIn, 5, 6, false, none⟩
  let scalars := builtInScalars.foldl (fun draft name => draft.pushType (.ofKind .scalar name)) bare
  (scalars.pushType (.ofKind .object queryName)).pushType (.ofKind .object mutationName)

/-- The place of the type of a name. -/
def typeId? (draft : Draft) (name : String) : Option TypeId :=
  draft.byName.lookup name

def type (draft : Draft) (id : TypeId) : DraftType :=
  draft.types.getD id default

/-- Refuses all declarations once the draft has been completed. -/
def ensureOpen (draft : Draft) : Except SchemaError Unit :=
  if draft.completed then .error .alreadyCompleted else .ok ()

/-- The declared type at a place. -/
def declared (draft : Draft) (id : TypeId) : Except SchemaError DraftType :=
  match draft.types[id]? with
  | some type => .ok type
  | none => .error (.invalidRelation (.undeclared id))

/-- Puts another declaration at the place of a type. -/
def setType (draft : Draft) (id : TypeId) (type : DraftType) : Draft :=
  { draft with types := draft.types.set id type }

/-- Declares a type whose name may be a reserved one. -/
def declareShape (draft : Draft) (shape : Shape) : Except SchemaError (TypeId × Draft) :=
  if !Text.isName shape.name then .error (.invalidName shape.name)
  else if !Text.isName shape.typeName then .error (.invalidName shape.typeName)
  else if (draft.byShape.lookup shape.name).isSome || (draft.byName.lookup shape.typeName).isSome then
    .error (.duplicateType shape.typeName)
  else .ok (draft.nextType, draft.pushType shape)

/-- Declares a type. -/
def declareType (draft : Draft) (shape : Shape) : Except SchemaError (TypeId × Draft) := do
  draft.ensureOpen
  if Text.isReserved shape.typeName then .error (.invalidName shape.typeName)
  else draft.declareShape shape

/-- Describes a type. -/
def describeType (draft : Draft) (id : TypeId) (text : String) : Except SchemaError Draft := do
  draft.ensureOpen
  let type ← draft.declared id
  pure (draft.setType id { type with description? := some text })

/-- Has a type declared a field of this name? -/
def hasField (draft : Draft) (type : DraftType) (name : String) : Bool :=
  type.fields.any fun id => (draft.fields[id]?).any (·.name == name)

/-- Declares a field whose name may be a reserved one. -/
def insertField (draft : Draft) (owner : TypeId) (spec : FieldSpec) :
    Except SchemaError (FieldId × Draft) := do
  if !Text.isName spec.name then .error (.invalidName spec.name)
  else
    let type ← draft.declared owner
    if type.kind.isLeaf then .error (.invalidRelation (.leafWithFields type.name))
    else if draft.hasField type spec.name then .error (.duplicateField type.name spec.name)
    else
      let parameters ← Parameter.resolveAll spec.parameters
      let target ← Target.parse spec.target
      let id := draft.fields.length
      let field : DraftField := {
        owner := owner
        name := spec.name
        target := target
        parameters := parameters
        resolver := spec.resolver?.getD (.member spec.name)
        resolution? := spec.resolution?
        cost? := spec.cost?
        store? := spec.store?
        description? := spec.description? }
      let grown := draft.setType owner { type with fields := type.fields ++ [id] }
      pure (id, { grown with fields := draft.fields ++ [field] })

/-- Declares a field. -/
def addField (draft : Draft) (owner : TypeId) (spec : FieldSpec) :
    Except SchemaError (FieldId × Draft) := do
  draft.ensureOpen
  if Text.isReserved spec.name then .error (.invalidName spec.name)
  else draft.insertField owner spec

/-- Declares a post field. -/
def addComputedField (draft : Draft) (owner : TypeId) (spec : FieldSpec) (compute : ComputeFunction) :
    Except SchemaError (FieldId × Draft) :=
  draft.addField owner (spec.computed compute)

/-- Declares a field of the mutation root. -/
def addMutation (draft : Draft) (spec : FieldSpec) (effect : Effect) :
    Except SchemaError (FieldId × Draft) :=
  draft.addField draft.mutation (spec.mutation effect)

/-- Declares that a type conforms to an interface. -/
def addInterface (draft : Draft) (interface implementer : TypeId) : Except SchemaError Draft := do
  draft.ensureOpen
  let conformed ← draft.declared interface
  if !conformed.kind.isImplementable then .error (.invalidRelation (.notImplementable conformed.name))
  else
    let type ← draft.declared implementer
    if type.kind.isLeaf || interface == implementer then
      .error (.invalidRelation (.cannotImplement type.name conformed.name))
    else if type.interfaces.contains interface then pure draft
    else pure (draft.setType implementer { type with interfaces := type.interfaces ++ [interface] })

/-- Declares that a type is a member of a union. -/
def addUnionMember (draft : Draft) (union member : TypeId) : Except SchemaError Draft := do
  draft.ensureOpen
  let joined ← draft.declared member
  let type ← draft.declared union
  if type.kind ≠ .union ∨ joined.kind ≠ .object then
    .error (.invalidRelation (.cannotBeMember joined.name type.name))
  else if type.members.contains member then pure draft
  else pure (draft.setType union { type with members := type.members ++ [member] })

/-- Declares a leaf type with its rule. -/
def addLeaf (draft : Draft) (kind : TypeKind) (name : String) (rule : Rule) :
    Except SchemaError (TypeId × Draft) := do
  let (id, grown) ← draft.declareType (.ofKind kind name)
  let rules ← grown.rules.register name rule
  pure (id, { grown with rules := rules })

/-- Declares a scalar with its rule. -/
def addScalar (draft : Draft) (name : String) (rule : Rule) : Except SchemaError (TypeId × Draft) :=
  draft.addLeaf .scalar name rule

/-- Declares an enumeration. -/
def addEnum (draft : Draft) (name : String) (values : List String) :
    Except SchemaError (TypeId × Draft) :=
  draft.addLeaf .enum name (.enumeration values)

end Draft

end GraphQuery
