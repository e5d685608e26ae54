/-! Shapes: what the documents of a type look like to the stores, and how a type shows one to queries. -/

namespace GraphQuery

/-- The kinds of types. -/
inductive TypeKind where
  | object
  | interface
  | union
  | scalar
  | enum
deriving DecidableEq, Repr, Inhabited

namespace TypeKind

/-- Scalars and enumerations have no fields. -/
def isLeaf : TypeKind → Bool
  | .scalar => true
  | .enum => true
  | _ => false

/-- Interfaces and unions have no documents of their own. -/
def isAbstract : TypeKind → Bool
  | .interface => true
  | .union => true
  | _ => false

/-- Only interfaces and objects can be implemented. -/
def isImplementable : TypeKind → Bool
  | .interface => true
  | .object => true
  | _ => false

/-- The name of a kind in introspection. -/
def text : TypeKind → String
  | .object => "OBJECT"
  | .interface => "INTERFACE"
  | .union => "UNION"
  | .scalar => "SCALAR"
  | .enum => "ENUM"

end TypeKind

/-- A shape: its own name, the name under which queries know it where that is another one, the shape
that it extends and those that it conforms to, and its kind. -/
structure Shape where
  name : String
  exposedAs? : Option String
  parent? : Option String
  interfaces : List String
  kind : TypeKind
deriving DecidableEq, Repr, Inhabited

namespace Shape

/-- A shape without relations, shown under its own name. -/
def ofKind (kind : TypeKind) (name : String) : Shape :=
  ⟨name, none, none, [], kind⟩

/-- The name of the type that shows a shape. -/
def typeName (shape : Shape) : String :=
  shape.exposedAs?.getD shape.name

end Shape

end GraphQuery
