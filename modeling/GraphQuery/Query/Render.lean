import GraphQuery.Query.Record

/-! Rendering: records become the objects of a response. Post fields are computed here, once for each
row on which they are selected. -/

namespace GraphQuery

namespace Value

mutual

/-- Replaces the objects that a value is, or that its arrays hold at any depth. -/
def mapObjects (change : Members → Traced Members) : Value → Traced Value
  | .array items => do
    let items ← mapObjectsAll change items
    pure (.array items)
  | .object members => do
    let members ← change members
    pure (.object members)
  | value => pure value

/-- Replaces the objects in a list of values. -/
def mapObjectsAll (change : Members → Traced Members) : List Value → Traced (List Value)
  | [] => pure []
  | item :: rest => do
    let item ← mapObjects change item
    let others ← mapObjectsAll change rest
    pure (item :: others)

end

end Value

/-- What rendering needs to know. -/
structure Renderer where
  schema : Schema
  data? : Option Value

namespace Renderer

/-- The compiler for values that are at hand already. -/
def compiler (renderer : Renderer) : Compiler :=
  ⟨renderer.schema, .enumerable, renderer.data?⟩

/-- The type that a record names as the one of its row. -/
def runtimeType? (renderer : Renderer) (row : Members) : Option TypeId :=
  (((Members.get? typenameKey row).bind Value.asString?).bind renderer.schema.typeNamed?).map
    SchemaType.id

/-- Does a selection under a condition apply to a row of some type? -/
def applies (renderer : Renderer) (runtime? condition? : Option TypeId) : Bool :=
  match condition?, runtime? with
  | none, _ => true
  | some condition, some actual => renderer.schema.isSubtype actual condition
  | some _, none => false

/-- The value of a post field, its own children projected into records. -/
def postRecord (renderer : Renderer) (field : Field) (arguments : Arguments)
    (children : List BoundSelection) : Traced Value := do
  let computed ← field.tracedValue arguments
  if (renderer.schema.type field.target).isLeaf then pure computed
  else
    let plan ← renderer.compiler.compose field (.const computed) children 1
    Traced.ofExcept ((plan.run .inProcess).mapError .backend)

/-- What the record of a row holds for a selection, nothing when it has no such member. -/
def entry (renderer : Renderer) (type : SchemaType) (row : Members) (field : Field)
    (arguments : Arguments) (key? : Option String) (children : List BoundSelection) :
    Traced (Option Value) :=
  if field.isPost then do
    let value ← renderer.postRecord field arguments children
    pure (some value)
  else if field.isTypename then
    pure (some ((Members.get? typenameKey row).getD (.string type.name)))
  else pure (key?.bind fun key => Members.get? key row)

mutual

/-- Adds the value of a selection on a row to an object, unless its response key is there already or its
condition does not hold for the row. -/
def renderEntry (renderer : Renderer) (type : SchemaType) (row : Members) (key? : Option String)
    (out : Members) : BoundSelection → Traced Members
  | ⟨name, alias?, id, condition?, arguments, children⟩ =>
    let output := alias?.getD name
    if (Members.get? output out).isSome then pure out
    else if !renderer.applies (renderer.runtimeType? row) condition? then pure out
    else do
      let field := renderer.schema.field id
      let target := renderer.schema.type field.target
      match ← renderer.entry type row field arguments key? children with
      | none => pure out
      | some raw =>
        let value ←
          if field.isTypename || target.isLeaf then pure raw
          else
            raw.mapObjects fun inner => do
              let keys ← Traced.ofExcept (renderer.schema.recordKeys target children)
              renderEntries renderer target inner keys [] children
        pure (Members.insert output value out)

/-- Adds the values of selections on a row, each with its key in the record, to an object. -/
def renderEntries (renderer : Renderer) (type : SchemaType) (row : Members)
    (keys : List (Option String)) (out : Members) : List BoundSelection → Traced Members
  | [] => pure out
  | selection :: rest =>
    match keys with
    | [] => pure out
    | key? :: keys => do
      let out ← renderEntry renderer type row key? out selection
      renderEntries renderer type row keys out rest

end

/-- The object of a row. -/
def renderRow (renderer : Renderer) (type : SchemaType) (selections : List BoundSelection)
    (row : Members) : Traced Members := do
  let keys ← Traced.ofExcept (renderer.schema.recordKeys type selections)
  renderer.renderEntries type row keys [] selections

/-- The value of a field in a response. -/
def renderField (renderer : Renderer) (field : Field) (children : List BoundSelection)
    (value : Value) : Traced Value :=
  let target := renderer.schema.type field.target
  if target.isLeaf then pure value
  else value.mapObjects (renderer.renderRow target children)

/-- The value of a post field in a response. -/
def renderPost (renderer : Renderer) (field : Field) (selection : BoundSelection) : Traced Value := do
  let value ← renderer.postRecord field selection.arguments selection.children
  renderer.renderField field selection.children value

end Renderer

end GraphQuery
