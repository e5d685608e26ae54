/-! What can be wrong with the declarations of a schema. -/

namespace GraphQuery

/-- A relation between two types that their kinds, or a missing declaration, rule out. -/
inductive RelationFault where
  | undeclared (index : Nat)
  | leafWithFields (name : String)
  | notImplementable (name : String)
  | cannotImplement (name interface : String)
  | cannotBeMember (name union : String)
  | extendsLeaf (name leaf : String)
  | stated (text : String)
deriving DecidableEq, Repr

/-- A fault of a declaration or of the completion of a schema. -/
inductive SchemaError where
  | duplicateType (name : String)
  | duplicateField (typeName field : String)
  | fieldTypeConflict (typeName field existing conflicting : String)
  | unknownType (name referencedBy : String)
  | cyclicHierarchy (typeName : String)
  | invalidName (name : String)
  | invalidRelation (fault : RelationFault)
  | alreadyCompleted
deriving DecidableEq, Repr

namespace RelationFault

def text : RelationFault → String
  | .undeclared index => s!"type #{index} is not declared"
  | .leafWithFields name => s!"'{name}' is a leaf type and cannot have fields"
  | .notImplementable name => s!"'{name}' cannot be implemented"
  | .cannotImplement name interface => s!"'{name}' cannot implement '{interface}'"
  | .cannotBeMember name union => s!"'{name}' cannot be a member of '{union}'"
  | .extendsLeaf name leaf => s!"'{name}' cannot extend leaf type '{leaf}'"
  | .stated text => text

end RelationFault

namespace SchemaError

/-- The wording of a fault. -/
def message : SchemaError → String
  | .duplicateType name => s!"Type '{name}' is already declared"
  | .duplicateField typeName field => s!"Field '{field}' is already declared on '{typeName}'"
  | .fieldTypeConflict typeName field existing conflicting =>
    s!"Field '{field}' on '{typeName}' has conflicting types '{existing}' and '{conflicting}'"
  | .unknownType name referencedBy => s!"Unknown type '{name}' referenced by '{referencedBy}'"
  | .cyclicHierarchy typeName => s!"Type hierarchy of '{typeName}' contains a cycle"
  | .invalidName name => s!"'{name}' is not a valid name"
  | .invalidRelation fault => "Invalid type relation: " ++ fault.text
  | .alreadyCompleted => "Schema is already completed"

/-- The code that programs match on. -/
def code : SchemaError → String
  | .duplicateType .. => "DUPLICATE_TYPE"
  | .duplicateField .. => "DUPLICATE_FIELD"
  | .fieldTypeConflict .. => "FIELD_TYPE_CONFLICT"
  | .unknownType .. => "UNKNOWN_TYPE"
  | .cyclicHierarchy .. => "CYCLIC_HIERARCHY"
  | .invalidName .. => "INVALID_NAME"
  | .invalidRelation .. => "INVALID_RELATION"
  | .alreadyCompleted => "ALREADY_COMPLETED"

end SchemaError

end GraphQuery
