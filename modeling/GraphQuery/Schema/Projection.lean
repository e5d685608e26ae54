import GraphQuery.Schema.Field

/-! Projections: the records into which the rows of a type are read, with one slot for each field that a
row may have to carry. -/

namespace GraphQuery

/-- The key of the name of the type of a row, in records and in responses. -/
def typenameKey : String :=
  "__typename"

/-- A place in a record. -/
structure Slot where
  key : String
  field : FieldId
  declaring : TypeId
  typeName : String
  isList : Bool
deriving DecidableEq, Repr

/-- The slots of the records of a type. -/
structure Projection where
  name : String
  slots : List Slot
deriving DecidableEq, Repr, Inhabited

namespace Projection

/-- A projection without slots. -/
def empty (name : String) : Projection :=
  ⟨name, []⟩

/-- The slot of a key. -/
def get? (projection : Projection) (key : String) : Option Slot :=
  projection.slots.find? (·.key == key)

/-- The slot of a field. -/
def slotFor? (projection : Projection) (field : FieldId) : Option Slot :=
  projection.slots.find? (·.field == field)

/-- Adds a slot for a field that has none. Its key is the name of the field, with the name of the
declaring type in front where that key is taken. -/
def push (projection : Projection) (name declaringName : String) (field : FieldId)
    (declaring : TypeId) (typeName : String) (isList : Bool) : Projection :=
  if (projection.slotFor? field).isSome then projection
  else
    let key := if (projection.get? name).isSome then declaringName ++ "." ++ name else name
    { projection with slots := projection.slots ++ [⟨key, field, declaring, typeName, isList⟩] }

end Projection

end GraphQuery
