import GraphQuery.Document.Literal
import GraphQuery.Schema.TypeRef

/-! Documents: operations and the named fragments that they use. Directives are no part of them. -/

namespace GraphQuery

/-- What a selection set asks for. -/
inductive Selection where
  | field (alias? : Option String) (name : String) (arguments : List (String × Literal))
      (selections : List Selection)
  | inline (condition? : Option String) (selections : List Selection)
  | spread (fragment : String)

instance : Inhabited Selection :=
  ⟨.spread ""⟩

/-- What an operation does to the stores. -/
inductive OperationKind where
  | query
  | mutation
  | subscription
deriving DecidableEq, Repr

/-- A variable that an operation declares. -/
structure VariableDecl where
  name : String
  type : TypeRef
  default? : Option Literal

/-- An operation. -/
structure Operation where
  kind : OperationKind
  name? : Option String
  vars : List VariableDecl
  selections : List Selection

/-- A named fragment with the type on which it applies. -/
structure Fragment where
  name : String
  condition : String
  selections : List Selection

/-- The fragment of a name; the one defined last counts. -/
def Fragment.named? (fragments : List Fragment) (name : String) : Option Fragment :=
  fragments.reverse.find? (·.name == name)

/-- The operations and the fragments of a document, each in their order. -/
structure Document where
  operations : List Operation
  fragments : List Fragment

end GraphQuery
