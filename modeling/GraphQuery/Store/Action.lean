import GraphQuery.Store.World

/-! Actions: operations on the documents of stores, one after the other, each of which may depend on what
those before it have found. An action changes documents only: logs, counts and the ways to the stores
stay as they are. -/

namespace GraphQuery

/-- A tree of operations on documents. It ends with a result, or with the reason why there is none. -/
inductive Action where
  | done (result : Except String Value)
  | insert (store collection : String) (document : Value) (next : Action)
  | find (store collection : String) (id : Value) (next : Option Value → Action)
  | update (store collection : String) (id patch : Value) (next : Option Value → Action)
  | remove (store collection : String) (id : Value) (next : Option Value → Action)

namespace Action

instance : Inhabited Action :=
  ⟨.done (.ok .null)⟩

/-- The end of an action at a name that no store has. -/
def withoutStore (name : String) (world : World) : Except String Value × World :=
  (.error (StoreError.unknownStore name).message, world)

/-- Runs an action. What it has changed stays also when it fails later. -/
def run : Action → World → Except String Value × World
  | .done result, world => (result, world)
  | .insert name collection document next, world =>
    match world.operate? name fun store => ((), store.insert collection document) with
    | some ((), changed) => run next changed
    | none => withoutStore name world
  | .find name collection id next, world =>
    match world.operate? name fun store => (store.find? collection id, store) with
    | some (found, changed) => run (next found) changed
    | none => withoutStore name world
  | .update name collection id patch next, world =>
    match world.operate? name fun store => store.update collection id patch with
    | some (found, changed) => run (next found) changed
    | none => withoutStore name world
  | .remove name collection id next, world =>
    match world.operate? name fun store => store.remove collection id with
    | some (found, changed) => run (next found) changed
    | none => withoutStore name world

end Action

end GraphQuery
