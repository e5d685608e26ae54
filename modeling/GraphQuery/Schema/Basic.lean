import GraphQuery.Input.Rule
import GraphQuery.Schema.Projection
import GraphQuery.Schema.Shape

/-! Completed schemas: types and fields in the order of their declaration, with all that queries need to
know of them worked out. -/

namespace GraphQuery

/-- A type of a schema. -/
structure SchemaType where
  id : TypeId
  name : String
  shape : Shape
  kind : TypeKind
  description? : Option String
  /-- The fields declared on the type itself. -/
  ownFields : List FieldId
  /-- The fields visible on the type by name: its own, inherited ones and those of its subtypes. -/
  fields : List (String × FieldId)
  /-- The types that name this one as a parent, and the members of a union. -/
  included : List TypeId
  ancestor? : Option TypeId
  interfaces : List TypeId
  /-- All types that this one is a proper subtype of. -/
  supertypes : List TypeId
  /-- The object types that are proper subtypes, those with most supertypes first. -/
  descendants : List TypeId
  /-- The shapes that make a document one of this type. -/
  shapes : List String
  projection : Projection
  /-- The plan that names the type of a row. -/
  typename : Plan

instance : Inhabited SchemaType :=
  ⟨⟨0, "", default, .object, none, [], [], [], none, [], [], [], [], default, .row⟩⟩

namespace SchemaType

/-- Leaf types have values but no fields. -/
def isLeaf (type : SchemaType) : Bool :=
  type.kind.isLeaf

def hasSubtypes (type : SchemaType) : Bool :=
  !type.descendants.isEmpty

end SchemaType

/-- A completed schema. -/
structure Schema where
  types : List SchemaType
  fields : List Field
  byName : List (String × TypeId)
  query : TypeId
  mutation : TypeId
  rules : RuleRegistry

namespace Schema

def type (schema : Schema) (id : TypeId) : SchemaType :=
  schema.types.getD id default

def field (schema : Schema) (id : FieldId) : Field :=
  schema.fields.getD id default

/-- The type of a name. -/
def typeNamed? (schema : Schema) (name : String) : Option SchemaType :=
  (schema.byName.lookup name).map schema.type

/-- The field that is visible on a type by some name. -/
def lookupField? (schema : Schema) (owner : TypeId) (name : String) : Option Field :=
  ((schema.type owner).fields.lookup name).map schema.field

/-- Is a type another one or a subtype of it? -/
def isSubtype (schema : Schema) (sub sup : TypeId) : Bool :=
  sub == sup || (schema.type sub).supertypes.contains sup

end Schema

end GraphQuery
