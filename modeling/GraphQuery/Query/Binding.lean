import GraphQuery.Document.Basic
import GraphQuery.Error
import GraphQuery.Query.Selection

/-! Binding: the selections of an operation become selections of fields of the schema, and every spread
gives way to what its fragment selects. All that can be wrong with a query is found here, before any
store is asked. -/

namespace GraphQuery

/-- What comes with a document: the operation to run, where there are several, the values of variables,
and data for the plans of fields. -/
structure Request where
  operation? : Option String
  vars : Members
  data? : Option Value

namespace Request

/-- A request of a document alone. -/
def plain : Request :=
  ⟨none, [], none⟩

end Request

/-- What binding needs to know. -/
structure Binder where
  schema : Schema
  fragments : List Fragment
  vars : Members
  maxDepth : Option Nat

namespace Binder

/-- The type that a condition names. -/
def conditionType (binder : Binder) (name : String) : Except EngineError TypeId :=
  match binder.schema.typeNamed? name with
  | some type => .ok type.id
  | none => .error (.typeNotFound name)

/-- Refuses selections below the depth allowed. -/
def checkDepth (binder : Binder) (depth : Nat) : Except EngineError Unit :=
  match binder.maxDepth with
  | some maxDepth =>
    if maxDepth < depth then .error (.document (.tooDeep maxDepth)) else .ok ()
  | none => .ok ()

/-- The field of a name on a type, which rows of the parent must be able to carry. -/
def resolveField (binder : Binder) (owner scope : TypeId) (name : String) :
    Except EngineError Field :=
  let notFound (type : TypeId) : Except EngineError Field :=
    .error (.fieldNotFound (binder.schema.type type).name name)
  match binder.schema.lookupField? scope name with
  | none => notFound scope
  | some field =>
    if field.isPost || field.isTypename ||
        ((binder.schema.type owner).projection.slotFor? field.id).isSome then .ok field
    else notFound owner

/-- Binds the arguments of a selection. -/
def bindArguments (binder : Binder) (field : Field) (supplied : List (String × Literal)) :
    Except EngineError Arguments :=
  (binder.schema.rules.bindArguments field.name field.parameters supplied binder.vars).mapError .argument

/-- Binds a spread of a fragment: what it selects on a parent type at a depth. -/
abbrev SpreadBinding :=
  TypeId → Nat → String → Except EngineError (List BoundSelection)

mutual

/-- Binds a selection on a parent type, inside a fragment on a condition. -/
def bindSelection (binder : Binder) (spread : SpreadBinding) (owner : TypeId)
    (condition? : Option TypeId) (depth : Nat) : Selection → Except EngineError (List BoundSelection)
  | .field alias? name supplied selections => do
    binder.checkDepth depth
    let condition? := condition?.filter (· != owner)
    let field ← binder.resolveField owner (condition?.getD owner) name
    let arguments ← binder.bindArguments field supplied
    let children ←
      if (binder.schema.type field.target).isLeaf then pure []
      else bindSelections binder spread field.target none (depth + 1) selections
    pure [⟨name, alias?, field.id, condition?, arguments, BoundSelection.merge children⟩]
  | .inline none selections => bindSelections binder spread owner condition? depth selections
  | .inline (some name) selections => do
    let type ← binder.conditionType name
    bindSelections binder spread owner (some type) depth selections
  | .spread fragment => spread owner depth fragment

/-- Binds selections in their order. -/
def bindSelections (binder : Binder) (spread : SpreadBinding) (owner : TypeId)
    (condition? : Option TypeId) (depth : Nat) :
    List Selection → Except EngineError (List BoundSelection)
  | [] => .ok []
  | selection :: rest => do
    let bound ← bindSelection binder spread owner condition? depth selection
    let others ← bindSelections binder spread owner condition? depth rest
    pure (bound ++ others)

end

/-- Binds a spread inside the fragments that are being bound already. A fragment inside itself, at any
distance, selects nothing there. Fragments inside each other are all different, so their number bounds
how deep they lie. -/
def bindSpread (binder : Binder) : Nat → List String → SpreadBinding
  | fuel, active, owner, depth, name =>
    match Fragment.named? binder.fragments name with
    | none => .error (.document (.unknownFragment name))
    | some fragment =>
      if active.contains name then .ok []
      else
        match fuel with
        | 0 => .ok []
        | fuel + 1 => do
          let type ← binder.conditionType fragment.condition
          bindSelections binder (bindSpread binder fuel (name :: active)) owner (some type) depth
            fragment.selections

/-- Binds the selections of a root type. -/
def bind (binder : Binder) (root : TypeId) (selections : List Selection) :
    Except EngineError (List BoundSelection) :=
  let spread := binder.bindSpread binder.fragments.length []
  (binder.bindSelections spread root none 1 selections).map BoundSelection.merge

end Binder

namespace Document

/-- The operation to run: the one of a name, else the first one. -/
def selectOperation (document : Document) (name? : Option String) : Except EngineError Operation :=
  match name? with
  | some name =>
    match document.operations.find? (·.name? == some name) with
    | some operation => .ok operation
    | none => .error (.document (.unknownOperation name))
  | none =>
    match document.operations with
    | operation :: _ => .ok operation
    | [] => .error (.document .noOperation)

end Document

namespace Operation

/-- The type that the selections of an operation start from. -/
def root (operation : Operation) (schema : Schema) : Except EngineError TypeId :=
  match operation.kind with
  | .query => .ok schema.query
  | .mutation => .ok schema.mutation
  | .subscription => .error (.document (.unsupported "Subscriptions"))

/-- Adds the default of a declared variable that has no value yet. -/
def addDefault (vars : Members) (decl : VariableDecl) : Except EngineError Members :=
  match Members.get? decl.name vars, decl.default? with
  | none, some default =>
    match default.evaluate [] with
    | .ok value => .ok (Members.insert decl.name value vars)
    | .error name => .error (.argument ⟨decl.name, .undefinedVariable name⟩)
  | _, _ => .ok vars

/-- The values of variables: those of the request, then the defaults of the operation. -/
def withDefaults (operation : Operation) (supplied : Members) : Except EngineError Members :=
  operation.vars.foldlM addDefault supplied

end Operation

/-- Binds the operation of a document that a request asks for. -/
def Schema.bind (schema : Schema) (maxDepth : Option Nat) (document : Document) (request : Request) :
    Except EngineError (List BoundSelection) := do
  let operation ← document.selectOperation request.operation?
  let root ← operation.root schema
  let vars ← operation.withDefaults request.vars
  Binder.bind ⟨schema, document.fragments, vars, maxDepth⟩ root operation.selections

end GraphQuery
