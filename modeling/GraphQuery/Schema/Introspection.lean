import GraphQuery.Schema.Draft

/-! Introspection: the description of a schema as a JSON value, and the types and fields that show it to
queries. -/

namespace GraphQuery.Introspection

def schemaField : String :=
  "__schema"

def typeField : String :=
  "__type"

/-- The types that describe a schema, with their fields. -/
def types : List (String × List (String × String)) :=
  [("__Schema", [("queryType", "__Type!"), ("mutationType", "__Type"), ("types", "[__Type!]!")]),
    ("__Type",
      [("kind", "String!"), ("name", "String"), ("description", "String"), ("fields", "[__Field!]"),
        ("interfaces", "[__Type!]"), ("possibleTypes", "[__Type!]"), ("enumValues", "[String!]"),
        ("ofType", "__Type")]),
    ("__Field",
      [("name", "String!"), ("description", "String"), ("type", "__Type!"),
        ("args", "[__InputValue!]!")]),
    ("__InputValue",
      [("name", "String!"), ("description", "String"), ("type", "__Type!"),
        ("defaultValue", "String")])]

/-- The plan of the field that shows a whole schema. -/
def schemaPlan (description : Value) : PlanBuilder :=
  fun _ _ => .ok (.const description)

/-- The plan of the field that shows the type of a name, null when there is none. -/
def typePlan (description : Value) : PlanBuilder :=
  fun _ arguments =>
    let name := ((arguments.get? "name").bind Value.asString?).getD ""
    let types := ((description.get? "types").bind Value.asArray?).getD []
    let found := types.find? fun type => (type.get? "name").bind Value.asString? == some name
    .ok (.const (found.getD .null))

/-- The root fields that show the schema of a description. -/
def rootFields (description : Value) : List FieldSpec :=
  [{ FieldSpec.plain schemaField "__Schema!" with
      resolver? := some (.plan (schemaPlan description))
      resolution? := some .unmodified },
    { FieldSpec.plain typeField "__Type" with
      parameters := [⟨"name", "String!", none⟩]
      resolver? := some (.plan (typePlan description))
      resolution? := some .unmodified }]

/-- The reference to a type by name. -/
def namedRef (type : SchemaType) : Value :=
  .ofEntries [("kind", .string type.kind.text), ("name", .string type.name), ("ofType", .null)]

/-- The reference to a type inside a wrapper. -/
def wrapperRef (kind : String) (inner : Value) : Value :=
  .ofEntries [("kind", .string kind), ("name", .null), ("ofType", inner)]

/-- The reference to the type of an argument. -/
def inputRef (schema : Schema) : TypeRef → Value
  | .named name =>
    let kind := (schema.typeNamed? name).elim "SCALAR" fun type => type.kind.text
    .ofEntries [("kind", .string kind), ("name", .string name), ("ofType", .null)]
  | .list item => wrapperRef "LIST" (inputRef schema item)
  | .nonNull inner => wrapperRef "NON_NULL" (inputRef schema inner)

private def optionalText (text : Option String) : Value :=
  text.elim .null .string

def describeParameter (schema : Schema) (parameter : Parameter) : Value :=
  .ofEntries
    [("name", .string parameter.name), ("description", .null),
      ("type", inputRef schema parameter.type),
      ("defaultValue", optionalText (parameter.default?.map Value.text))]

def describeField (schema : Schema) (field : Field) : Value :=
  let target := namedRef (schema.type field.target)
  .ofEntries
    [("name", .string field.name), ("description", optionalText field.description?),
      ("type", if field.isList then wrapperRef "LIST" target else target),
      ("args", .array (field.parameters.map (describeParameter schema)))]

/-- The fields visible on a type, those of introspection aside. -/
def visibleFields (schema : Schema) (type : SchemaType) : List Field :=
  (type.fields.map fun entry => schema.field entry.2).filter fun field => !Text.isReserved field.name

private def whereKind (holds : Bool) (items : List Value) : Value :=
  if holds then .array items else .null

def describeType (schema : Schema) (type : SchemaType) : Value :=
  let composite := type.kind.isImplementable
  let enumValues := (schema.rules.find? type.name).bind Rule.enumValues
  .ofEntries
    [("kind", .string type.kind.text), ("name", .string type.name),
      ("description", optionalText type.description?),
      ("fields", whereKind composite ((visibleFields schema type).map (describeField schema))),
      ("interfaces", whereKind composite (type.interfaces.map fun id => namedRef (schema.type id))),
      ("possibleTypes",
        whereKind type.kind.isAbstract (type.descendants.map fun id => namedRef (schema.type id))),
      ("enumValues", enumValues.elim .null fun values => .array (values.map .string)),
      ("ofType", .null)]

/-- The description of a schema. A mutation root without fields is none. -/
def describe (schema : Schema) : Value :=
  let mutation := schema.type schema.mutation
  .ofEntries
    [("queryType", describeType schema (schema.type schema.query)),
      ("mutationType",
        if (visibleFields schema mutation).isEmpty then .null else describeType schema mutation),
      ("types", .array (schema.types.map (describeType schema)))]

/-- The resolver of a root field of introspection over a description; any other field keeps its own. -/
def resolverOver (description : Value) (field : Field) : Resolver :=
  if field.name == schemaField then .plan (schemaPlan description)
  else if field.name == typeField then .plan (typePlan description)
  else field.resolver

/-- The schema whose root fields of introspection show its own description. -/
def attach (schema : Schema) : Schema :=
  let description := describe schema
  { schema with
    fields := schema.fields.map fun field =>
      { field with resolver := resolverOver description field } }

end GraphQuery.Introspection
