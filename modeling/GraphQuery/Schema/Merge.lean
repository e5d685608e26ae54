import GraphQuery.Schema.Hierarchy

/-! Merging fields: on a type, its own fields, inherited ones and those of its subtypes are visible.
Where several have one name the first counts, and the others must have a compatible type. -/

namespace GraphQuery.Merge

/-- What merging needs to know of a draft. -/
structure Context where
  draft : Draft
  fields : List Field
  relations : List Relations
  supertypes : List (List TypeId)
  /-- All proper subtypes of each type, in the order of their declaration. -/
  subtypes : List (List TypeId)

namespace Context

def supertypesOf (context : Context) (id : TypeId) : List TypeId :=
  context.supertypes.getD id []

def subtypesOf (context : Context) (id : TypeId) : List TypeId :=
  context.subtypes.getD id []

def nameOf (context : Context) (id : TypeId) : String :=
  (context.draft.type id).name

end Context

/-- Keeps the first of each. -/
def distinct (ids : List TypeId) : List TypeId :=
  ids.foldl Hierarchy.addNew []

/-- The types whose fields are visible on a type, those with precedence first: the type itself, what it
extends, its other supertypes, its subtypes and the supertypes of these. A union passes on nothing. -/
def sources (context : Context) (owner : TypeId) : List TypeId :=
  let chain := Hierarchy.ancestors context.relations context.relations.length []
    (context.relations.getD owner default).ancestor?
  let below := context.subtypesOf owner
  let all := owner :: chain ++ context.supertypesOf owner ++ below ++
    below.flatMap context.supertypesOf
  (distinct all).filter fun id => id == owner || (context.draft.type id).kind != .union

/-- The type of a field as it is written. -/
def describe (context : Context) (field : Field) : String :=
  let target := context.nameOf field.target
  if field.isList then "[" ++ target ++ "]" else target

/-- May two fields share a name? Both yield lists or neither does, and one target is the other or a
subtype of it. -/
def compatible (context : Context) (a b : Field) : Bool :=
  a.isList == b.isList &&
    (a.target == b.target || (context.supertypesOf a.target).contains b.target ||
      (context.supertypesOf b.target).contains a.target)

/-- The visible fields so far and the slots for them. -/
structure Merged where
  lookup : List (String × FieldId)
  projection : Projection

/-- Gives a field a slot, if it has a place in plans. -/
def pushSlot (context : Context) (projection : Projection) (field : Field) : Projection :=
  if field.isPost then projection
  else
    projection.push field.name (context.nameOf field.declaring) field.id field.declaring
      (context.nameOf field.target) field.isList

/-- Adds a field of one of the sources. -/
def addField (context : Context) (owner source : TypeId) (merged : Merged) (id : FieldId) :
    Except SchemaError Merged :=
  let field := context.fields.getD id default
  if field.isTypename && source != owner then .ok merged
  else
    match merged.lookup.lookup field.name with
    | none =>
      .ok ⟨merged.lookup ++ [(field.name, id)], pushSlot context merged.projection field⟩
    | some known =>
      let existing := context.fields.getD known default
      if known == id then .ok merged
      else if compatible context existing field then
        .ok { merged with projection := pushSlot context merged.projection field }
      else
        .error (.fieldTypeConflict (context.nameOf owner) field.name (describe context existing)
          (describe context field))

/-- Adds the fields of one of the sources. -/
def addSource (context : Context) (owner : TypeId) (merged : Merged) (source : TypeId) :
    Except SchemaError Merged :=
  (context.draft.type source).fields.foldlM (addField context owner source) merged

/-- The slots in their final order: that of the type name first. -/
def arrange (context : Context) (projection : Projection) : Projection :=
  let first := projection.slots.filter (·.key == typenameKey)
  let others := projection.slots.filter (·.key != typenameKey)
  (first ++ others).foldl
    (fun arranged slot => pushSlot context arranged (context.fields.getD slot.field default))
    (.empty projection.name)

/-- The fields visible on a type and the slots of its records. -/
def fields (context : Context) (owner : TypeId) : Except SchemaError Merged := do
  let start : Merged := ⟨[], .empty (context.nameOf owner)⟩
  let merged ← (sources context owner).foldlM (addSource context owner) start
  pure { merged with projection := arrange context merged.projection }

end GraphQuery.Merge
