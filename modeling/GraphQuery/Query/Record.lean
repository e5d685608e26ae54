import GraphQuery.Plan.Tier
import GraphQuery.Query.Selection
import GraphQuery.Query.Trace

/-! Compiling selections: the plan of a field and its selections become one plan whose answer holds a
record for each row. -/

namespace GraphQuery

namespace Schema

/-- The key of a selection in records, after those of earlier selections: the slot of the field for the
first response key under which the field is selected, and for every other one a key that adds it. -/
def recordKey (claimed : List (FieldId × String × String)) (slot : Slot) (output : String) : String :=
  match claimed.find? fun (field, name, _) => field == slot.field && name == output with
  | some (_, _, key) => key
  | none =>
    if claimed.any fun (field, _, _) => field == slot.field then slot.key ++ "#" ++ output
    else slot.key

/-- The keys of selections in the records of a type, after some earlier ones. -/
def recordKeysFrom (schema : Schema) (type : SchemaType) :
    List (FieldId × String × String) → List BoundSelection → Except EngineError (List (Option String))
  | _, [] => .ok []
  | claimed, selection :: rest =>
    let field := schema.field selection.field
    if field.isTypename || field.isPost then
      (recordKeysFrom schema type claimed rest).map (none :: ·)
    else
      match type.projection.slotFor? field.id with
      | none => .error (.fieldNotFound type.name field.name)
      | some slot =>
        let key := recordKey claimed slot selection.outputName
        (recordKeysFrom schema type (claimed ++ [(field.id, selection.outputName, key)]) rest).map
          (some key :: ·)

/-- The keys of selections in the records of a type; there is none for what no plan brings. -/
def recordKeys (schema : Schema) (type : SchemaType) (selections : List BoundSelection) :
    Except EngineError (List (Option String)) :=
  schema.recordKeysFrom type [] selections

end Schema

/-- What compiling needs to know. -/
structure Compiler where
  schema : Schema
  tier : Tier
  data? : Option Value

namespace Compiler

/-- A sequence as the value of a field; what is no sequence stays as it is. -/
def materialize (field : Field) (plan : Plan) : Plan :=
  if !plan.isSequence then plan
  else
    match field.resolution with
    | .toList => .toList plan
    | .first => .first plan
    | .firstOrDefault => .firstOrDefault plan
    | .unmodified => if field.isList then .toList plan else .firstOrDefault plan

/-- Each row of a list as a record. -/
def listOf (compiler : Compiler) (plan : Plan) (target : SchemaType) (record : Plan) : Plan :=
  if compiler.tier.guardsNulls then
    .nullGuard plan (.toList (.project .row record)) target.name
  else .toList (.project plan record)

/-- The plan of a field whose rows become a record. -/
def project (compiler : Compiler) (field : Field) (plan record : Plan) : Plan :=
  let target := compiler.schema.type field.target
  if field.isList then compiler.listOf plan target record
  else if plan.isSequence then materialize field (.project plan record)
  else .nullGuard plan record target.name

/-- Does a selection need the name of the type of its row? -/
def needsTypename (schema : Schema) (selection : BoundSelection) : Bool :=
  selection.condition?.isSome || (schema.field selection.field).isTypename

/-- The record of some bindings. The name of the type comes first where a selection needs it. -/
def recordOf (compiler : Compiler) (type : SchemaType) (selections : List BoundSelection)
    (bindings : List (String × Plan)) : Plan :=
  let all :=
    if selections.any (needsTypename compiler.schema) then
      (typenameKey, type.typename) :: bindings.filter fun entry => entry.1 != typenameKey
    else bindings
  .record type.projection.name all

/-- Are there rows of a type that do not have a field? -/
def isPartial (compiler : Compiler) (owner : SchemaType) (field : Field) : Bool :=
  !compiler.schema.isSubtype owner.id field.declaring

/-- The row that a nested field is resolved on: cast where not every row has the field. -/
def rowOf (compiler : Compiler) (owner : SchemaType) (field : Field) : Plan :=
  let declaring := compiler.schema.type field.declaring
  if compiler.isPartial owner field && compiler.tier.casts then
    .cast .row declaring.name declaring.shapes
  else .row

/-- A nested field on rows of which not every one has it. -/
def guardPartial (compiler : Compiler) (owner : SchemaType) (field : Field) (plan : Plan) : Plan :=
  let declaring := compiler.schema.type field.declaring
  if compiler.isPartial owner field && compiler.tier.casts && compiler.tier.guardsNulls then
    .cond (.typeIs .row declaring.shapes) plan (.null (compiler.schema.type field.target).name)
  else plan

/-- The name under which the plans of fields at some depth find their parent. -/
def parentName (depth : Nat) : String :=
  "parent" ++ toString depth

/-- Does a field find its parent as the row itself? The operators of any other plan bind rows of their
own, so that it needs a name for its parent. -/
def seesRow (field : Field) : Bool :=
  field.resolution == .unmodified || field.isMember

/-- The value on which a nested field is resolved. -/
def parentOf (field : Field) (base : Plan) (depth : Nat) : Plan :=
  if seesRow field then base else .var (parentName depth)

/-- A nested field with the name of its parent bound, where it has one. -/
def bindParent (field : Field) (base : Plan) (depth : Nat) (plan : Plan) : Plan :=
  if seesRow field then plan else .bind (parentName depth) base plan

mutual

/-- Adds the binding of a selection under its key to those of the records of a type. The first selection
of a key counts. -/
def bindSelection (compiler : Compiler) (owner : SchemaType) (depth : Nat) (key : String)
    (bound : List (String × Plan)) : BoundSelection → Traced (List (String × Plan))
  | ⟨_, _, id, _, arguments, children⟩ =>
    if (bound.lookup key).isSome then pure bound
    else do
      let field := compiler.schema.field id
      let target := compiler.schema.type field.target
      let base := compiler.rowOf owner field
      let plan ← field.tracedPlan ⟨parentOf field base depth, none, compiler.data?⟩ arguments
      let composed ←
        if target.isLeaf then pure (materialize field plan)
        else do
          let keys ← Traced.ofExcept (compiler.schema.recordKeys target children)
          let nested ← bindSelections compiler target (depth + 1) keys [] children
          pure (compiler.project field plan (compiler.recordOf target children nested))
      pure (bound ++ [(key, compiler.guardPartial owner field (bindParent field base depth composed))])

/-- Adds the bindings of selections, each with its key, to those of the records of a type. -/
def bindSelections (compiler : Compiler) (owner : SchemaType) (depth : Nat) (keys : List (Option String))
    (bound : List (String × Plan)) : List BoundSelection → Traced (List (String × Plan))
  | [] => pure bound
  | selection :: rest =>
    match keys with
    | [] => pure bound
    | none :: keys => bindSelections compiler owner depth keys bound rest
    | some key :: keys => do
      let bound ← bindSelection compiler owner depth key bound selection
      bindSelections compiler owner depth keys bound rest

end

/-- The record of selections on rows of a type. -/
def record (compiler : Compiler) (type : SchemaType) (selections : List BoundSelection)
    (depth : Nat) : Traced Plan := do
  let keys ← Traced.ofExcept (compiler.schema.recordKeys type selections)
  let bound ← compiler.bindSelections type depth keys [] selections
  pure (compiler.recordOf type selections bound)

/-- The plan of a field with the records of its selections. -/
def compose (compiler : Compiler) (field : Field) (plan : Plan) (children : List BoundSelection)
    (depth : Nat) : Traced Plan :=
  let target := compiler.schema.type field.target
  if target.isLeaf then pure (materialize field plan)
  else do
    let record ← compiler.record target children depth
    pure (compiler.project field plan record)

end Compiler

end GraphQuery
