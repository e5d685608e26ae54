import GraphQuery.Store.Basic

/-! The stores within reach of an execution by their names, and the sessions that it holds on them: one
at most for each name, opened when the first plan is sent and closed at the end. -/

namespace GraphQuery

/-- A way to a store: its settings and the place of the store. -/
structure Endpoint where
  settings : StoreSettings
  store : Nat

/-- All stores, and the names under which they are reached; two names may lead to one store. -/
structure World where
  stores : List Store
  endpoints : List (String × Endpoint)

namespace World

/-- A world without stores. -/
def empty : World :=
  ⟨[], []⟩

/-- Adds a store under a name. -/
def add (world : World) (name : String) (settings : StoreSettings) (store : Store) : World :=
  ⟨world.stores ++ [store], Keyed.put name ⟨settings, world.stores.length⟩ world.endpoints⟩

/-- The way to the store of a name; one that leads to no store is none. -/
def endpoint? (world : World) (name : String) : Option Endpoint :=
  (world.endpoints.lookup name).filter fun endpoint => endpoint.store < world.stores.length

/-- The store at a place. -/
def storeAt (world : World) (place : Nat) : Store :=
  world.stores.getD place .empty

/-- Puts another store at a place. -/
def setStore (world : World) (place : Nat) (store : Store) : World :=
  { world with stores := world.stores.set place store }

/-- The store of a name. -/
def store? (world : World) (name : String) : Option Store :=
  (world.endpoint? name).map fun endpoint => world.storeAt endpoint.store

/-- Applies an operation to the store of a name, if there is one. -/
def operate? {α : Type} (world : World) (name : String) (operation : Store → α × Store) :
    Option (α × World) :=
  (world.endpoint? name).map fun endpoint =>
    let (result, store) := operation (world.storeAt endpoint.store)
    (result, world.setStore endpoint.store store)

/-- What the store of a name reports of itself. -/
def capabilities (world : World) (name : String) : Except StoreError Capabilities :=
  match world.endpoint? name with
  | some endpoint => .ok endpoint.settings.capabilities
  | none => .error (.unknownStore name)

end World

/-- The stores during an execution, the sessions that it has opened, in their order, and the number of
plans that it has sent. -/
structure Connections where
  world : World
  sessions : List (String × Endpoint)
  dispatches : Nat

namespace Connections

/-- No session is open yet. -/
def start (world : World) : Connections :=
  ⟨world, [], 0⟩

/-- The session of a name, opened if there is none yet. -/
def session (connections : Connections) (name : String) :
    Except StoreError Endpoint × Connections :=
  match connections.sessions.lookup name with
  | some endpoint => (.ok endpoint, connections)
  | none =>
    match connections.world.endpoint? name with
    | none => (.error (.unknownStore name), connections)
    | some endpoint =>
      let opened := (connections.world.storeAt endpoint.store).openSession
      (.ok endpoint,
        { connections with
          world := connections.world.setStore endpoint.store opened
          sessions := connections.sessions ++ [(name, endpoint)] })

/-- Sends a plan over a session. -/
def send (connections : Connections) (endpoint : Endpoint) (plan : Plan) :
    Except StoreError Value × Connections :=
  let (answer, store) :=
    (connections.world.storeAt endpoint.store).dispatch endpoint.settings plan
  (answer,
    { connections with
      world := connections.world.setStore endpoint.store store
      dispatches := connections.dispatches + 1 })

/-- Sends a plan to the store of a name. -/
def dispatch (connections : Connections) (name : String) (plan : Plan) :
    Except StoreError Value × Connections :=
  match connections.session name with
  | (.error error, connections) => (.error error, connections)
  | (.ok endpoint, connections) => connections.send endpoint plan

/-- The stores when all sessions are closed. -/
def release (connections : Connections) : World :=
  connections.sessions.foldl
    (fun world session =>
      world.setStore session.2.store (world.storeAt session.2.store).closeSession)
    connections.world

end Connections

end GraphQuery
