import GraphQuery.Schema.Completion

/-! Sessions: the operations of a caller on a draft that is there all the time. Each makes its checks and
its writes one after another, and what it has written stays when a later check fails. -/

namespace GraphQuery

/-- Has completion filled the place that all handles to the schema of a draft share? -/
def Draft.isCompleted (draft : Draft) : Bool :=
  draft.schema?.isSome

namespace Session

open Completion (DraftM)

/-- Refuses all declarations once the draft has been completed. -/
def ensureOpen : DraftM Unit := do
  (← get).ensureOpen

/-- The declared type at a place. -/
def declared (id : TypeId) : DraftM DraftType := do
  (← get).declared id

/-- Puts another declaration at the place of a type. -/
def setType (id : TypeId) (type : DraftType) : DraftM Unit :=
  modify fun draft => draft.setType id type

/-- Adds a type without any check: its two names, then the type itself. -/
def pushType (shape : Shape) : DraftM TypeId := do
  let draft ← get
  let id := draft.nextType
  modify fun draft => { draft with byShape := draft.byShape ++ [(shape.name, id)] }
  modify fun draft => { draft with byName := draft.byName ++ [(shape.typeName, id)] }
  modify fun draft => { draft with types := draft.types ++ [⟨shape, none, [], [], []⟩] }
  pure id

/-- Declares a type whose name may be a reserved one. -/
def declareShape (shape : Shape) : DraftM TypeId := do
  if !Text.isName shape.name then throw (.invalidName shape.name)
  else if !Text.isName shape.typeName then throw (.invalidName shape.typeName)
  else
    let draft ← get
    if (draft.byShape.lookup shape.name).isSome || (draft.byName.lookup shape.typeName).isSome then
      throw (.duplicateType shape.typeName)
    else pushType shape

/-- Declares a type. -/
def declareType (shape : Shape) : DraftM TypeId := do
  ensureOpen
  if Text.isReserved shape.typeName then throw (.invalidName shape.typeName)
  else declareShape shape

/-- Describes a type. -/
def describeType (id : TypeId) (text : String) : DraftM Unit := do
  ensureOpen
  let type ← declared id
  setType id { type with description? := some text }

/-- Declares a field whose name may be a reserved one: the field first, then the place of it on its
owner. -/
def insertField (owner : TypeId) (spec : FieldSpec) : DraftM FieldId := do
  if !Text.isName spec.name then throw (.invalidName spec.name)
  else
    let type ← declared owner
    let draft ← get
    if type.kind.isLeaf then throw (.invalidRelation (.leafWithFields type.name))
    else if draft.hasField type spec.name then throw (.duplicateField type.name spec.name)
    else
      let parameters ← Parameter.resolveAll spec.parameters
      let target ← Target.parse spec.target
      let id := draft.fields.length
      let field : DraftField := {
        owner := owner
        name := spec.name
        target := target
        parameters := parameters
        resolver := spec.resolver?.getD (.member spec.name)
        resolution? := spec.resolution?
        cost? := spec.cost?
        store? := spec.store?
        description? := spec.description? }
      modify fun draft => { draft with fields := draft.fields ++ [field] }
      let type ← declared owner
      setType owner { type with fields := type.fields ++ [id] }
      pure id

/-- Declares a field. -/
def addField (owner : TypeId) (spec : FieldSpec) : DraftM FieldId := do
  ensureOpen
  if Text.isReserved spec.name then throw (.invalidName spec.name)
  else insertField owner spec

/-- Declares a post field. -/
def addComputedField (owner : TypeId) (spec : FieldSpec) (compute : ComputeFunction) : DraftM FieldId :=
  addField owner (spec.computed compute)

/-- Declares a field of the mutation root. -/
def addMutation (spec : FieldSpec) (effect : Effect) : DraftM FieldId := do
  let draft ← get
  addField draft.mutation (spec.mutation effect)

/-- Declares that a type conforms to an interface. -/
def addInterface (interface implementer : TypeId) : DraftM Unit := do
  ensureOpen
  let conformed ← declared interface
  if !conformed.kind.isImplementable then throw (.invalidRelation (.notImplementable conformed.name))
  else
    let type ← declared implementer
    if type.kind.isLeaf || interface == implementer then
      throw (.invalidRelation (.cannotImplement type.name conformed.name))
    else if type.interfaces.contains interface then pure ()
    else setType implementer { type with interfaces := type.interfaces ++ [interface] }

/-- Declares that a type is a member of a union. -/
def addUnionMember (union member : TypeId) : DraftM Unit := do
  ensureOpen
  let joined ← declared member
  let type ← declared union
  if type.kind ≠ .union ∨ joined.kind ≠ .object then
    throw (.invalidRelation (.cannotBeMember joined.name type.name))
  else if type.members.contains member then pure ()
  else setType union { type with members := type.members ++ [member] }

/-- Declares a leaf type, then registers its rule. The type stays where the rule is refused. -/
def addLeaf (kind : TypeKind) (name : String) (rule : Rule) : DraftM TypeId := do
  let id ← declareType (.ofKind kind name)
  let draft ← get
  let rules ← draft.rules.register name rule
  modify fun draft => { draft with rules := rules }
  pure id

/-- Declares a scalar with its rule. -/
def addScalar (name : String) (rule : Rule) : DraftM TypeId :=
  addLeaf .scalar name rule

/-- Declares an enumeration. -/
def addEnum (name : String) (values : List String) : DraftM TypeId :=
  addLeaf .enum name (.enumeration values)

/-- Completes the draft. -/
def complete : DraftM Schema :=
  Draft.complete

end Session

end GraphQuery
