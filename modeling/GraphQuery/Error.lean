import GraphQuery.Input.Coercion
import GraphQuery.Store.Error

/-! Everything that can go wrong between a request and its answer. -/

namespace GraphQuery

/-- What is wrong with a document. -/
inductive DocumentError where
  | parse (text : String)
  | noOperation
  | unknownOperation (name : String)
  | unknownFragment (name : String)
  | unsupported (operation : String)
  | tooDeep (maxDepth : Nat)
deriving DecidableEq, Repr

/-- Why a request has no answer. -/
inductive EngineError where
  | schema (error : SchemaError)
  | notCompleted
  | fieldNotFound (typeName field : String)
  | typeNotFound (typeName : String)
  | argument (error : ArgumentError)
  | document (error : DocumentError)
  | backend (error : StoreError)
  | resolver (field text : String)

namespace DocumentError

/-- The wording of a fault. -/
def message : DocumentError → String
  | .parse text => "Failed to parse query: " ++ text
  | .noOperation => "No operation found in query"
  | .unknownOperation name => s!"Unknown operation named '{name}'"
  | .unknownFragment name => s!"Unknown fragment '{name}'"
  | .unsupported operation => operation ++ " are not supported"
  | .tooDeep maxDepth => s!"Query exceeds the maximum depth of {maxDepth}"

end DocumentError

namespace EngineError

/-- The wording of an error. -/
def message : EngineError → String
  | .schema error => error.message
  | .notCompleted => "Schema must be completed before executing queries"
  | .fieldNotFound typeName field => s!"Field '{field}' not found on type '{typeName}'"
  | .typeNotFound typeName => s!"Type '{typeName}' not found in schema"
  | .argument error => error.message
  | .document error => error.message
  | .backend error => "Backend execution failed: " ++ error.message
  | .resolver field text => s!"Failed to resolve field '{field}': " ++ text

/-- The code that programs match on. -/
def code : EngineError → String
  | .schema error => error.code
  | .notCompleted => "SCHEMA_NOT_COMPLETED"
  | .fieldNotFound .. => "SCHEMA_FIELD_NOT_FOUND"
  | .typeNotFound .. => "SCHEMA_TYPE_NOT_FOUND"
  | .argument .. => "ARGUMENT_ERROR"
  | .document .. => "DOCUMENT_ERROR"
  | .backend .. => "BACKEND_EXECUTION_ERROR"
  | .resolver .. => "RESOLVER_ERROR"

/-- The wording of the error behind this one. -/
def cause? : EngineError → Option String
  | .schema error => some error.message
  | .argument error => some error.message
  | .document error => some error.message
  | .backend error => some error.message
  | .resolver _ text => some text
  | .notCompleted => none
  | .fieldNotFound .. => none
  | .typeNotFound .. => none

/-- The names that an error is about, for programs. -/
def details? : EngineError → Option Value
  | .fieldNotFound typeName field =>
    some (.ofEntries [("type", .string typeName), ("field", .string field)])
  | .argument error => some (.ofEntries [("field", .string error.field)])
  | _ => none

end EngineError

end GraphQuery
