import GraphQuery.Schema.Draft

/-! The type hierarchy of a draft: parents by name become parents by place, and each type learns all its
supertypes. A type that is its own supertype is refused. -/

namespace GraphQuery

/-- The relations of one type: the type that it extends, its interfaces, and all its parents, to which
the unions that it is a member of belong. -/
structure Relations where
  ancestor? : Option TypeId
  interfaces : List TypeId
  parents : List TypeId
deriving Inhabited

namespace Hierarchy

/-- Adds a place to a list that does not hold it yet. -/
def addNew (ids : List TypeId) (id : TypeId) : List TypeId :=
  if ids.contains id then ids else ids ++ [id]

/-- The type that a name stands for: a shape of this name comes before a type that shows another one. -/
def resolve? (draft : Draft) (name : String) : Option TypeId :=
  (draft.byShape.lookup name).or (draft.byName.lookup name)

/-- The place of a type that another one names as a parent. -/
def resolve (draft : Draft) (type : DraftType) (name : String) : Except SchemaError TypeId :=
  match resolve? draft name with
  | some id => .ok id
  | none => .error (.unknownType name type.name)

/-- The type that another one extends. -/
def resolveAncestor (draft : Draft) (type : DraftType) : Except SchemaError (Option TypeId) :=
  match type.shape.parent? with
  | none => .ok none
  | some parent => do
    let id ← resolve draft type parent
    if (draft.type id).kind.isLeaf then .error (.invalidRelation (.extendsLeaf type.name parent))
    else pure (some id)

/-- Adds the interface of a name to those of a type. -/
def resolveInterface (draft : Draft) (type : DraftType) (known : List TypeId) (name : String) :
    Except SchemaError (List TypeId) := do
  let id ← resolve draft type name
  if (draft.type id).kind.isImplementable then pure (addNew known id)
  else .error (.invalidRelation (.cannotImplement type.name name))

/-- The relations that a type itself declares, its parents left out. -/
def relationsOf (draft : Draft) (type : DraftType) : Except SchemaError Relations := do
  let ancestor? ← resolveAncestor draft type
  let interfaces ← type.shape.interfaces.foldlM (resolveInterface draft type) type.interfaces
  pure ⟨ancestor?, interfaces, []⟩

/-- Makes a union a parent of one of its members. -/
def addMember (union : TypeId) (parents : List (List TypeId)) (member : TypeId) :
    List (List TypeId) :=
  parents.modify member fun known => addNew known union

/-- The parents of a type with those that it declares itself: the type that it extends in any case, an
interface only where it is none yet. -/
def addParents (own : Relations) (known : List TypeId) : List TypeId :=
  own.interfaces.foldl addNew (known ++ own.ancestor?.toList)

/-- Goes through the types in their order: each adds its own parents, and a union adds itself to the
parents of its members. -/
def relationsStep (draft : Draft) (state : List Relations × List (List TypeId)) (id : TypeId) :
    Except SchemaError (List Relations × List (List TypeId)) := do
  let type := draft.type id
  let own ← relationsOf draft type
  let parents := state.2.modify id (addParents own)
  pure (state.1 ++ [own], type.members.foldl (addMember id) parents)

/-- The relations of all types. -/
def relations (draft : Draft) : Except SchemaError (List Relations) := do
  let count := draft.types.length
  let (own, parents) ←
    (List.range count).foldlM (relationsStep draft) ([], List.replicate count [])
  pure ((own.zip parents).map fun (own, parents) => { own with parents := parents })

/-- Collects the supertypes of a type from those still to be looked at, the next one first. Meeting the
type itself ends the search without an answer. -/
def closure (parents : TypeId → List TypeId) (start : TypeId) :
    Nat → List TypeId → List TypeId → Option (List TypeId)
  | _, seen, [] => some seen
  | 0, seen, _ :: _ => some seen
  | fuel + 1, seen, next :: rest =>
    if next = start then none
    else if seen.contains next then closure parents start fuel seen rest
    else closure parents start fuel (seen ++ [next]) ((parents next).reverse ++ rest)

/-- All supertypes of a type. No type is looked at more often than it is named as a parent. -/
def supertypes? (relations : List Relations) (id : TypeId) : Option (List TypeId) :=
  let parents (type : TypeId) : List TypeId := (relations.getD type default).parents
  let named := relations.foldl (fun count r => count + r.parents.length) 0
  let steps := named + (parents id).length
  closure parents id steps [] (parents id).reverse

/-- The supertypes of all types. -/
def supertypes (draft : Draft) (relations : List Relations) : Except SchemaError (List (List TypeId)) :=
  (List.range relations.length).mapM fun id =>
    match supertypes? relations id with
    | some supertypes => .ok supertypes
    | none => .error (.cyclicHierarchy (draft.type id).name)

/-- The types that another one extends, the nearest first. -/
def ancestors (relations : List Relations) : Nat → List TypeId → Option TypeId → List TypeId
  | 0, chain, _ => chain
  | _, chain, none => chain
  | fuel + 1, chain, some id =>
    if chain.contains id then chain
    else ancestors relations fuel (chain ++ [id]) (relations.getD id default).ancestor?

end Hierarchy

end GraphQuery
