import GraphQuery.Plan.Eval
import GraphQuery.Plan.Tier

/-! Stores of JSON documents in memory. A collection holds its documents in the order in which they
were inserted; a document is found by its member `id`, the earliest of several with one id. -/

namespace GraphQuery

/-- What a way to a store fixes: what the store reports of itself, the value of the context of plans,
and whether plans are kept in its log. -/
structure StoreSettings where
  capabilities : Capabilities
  context : Value
  logsPlans : Bool

namespace StoreSettings

/-- A store understands casts and null guards, has no context and keeps no log. -/
def standard : StoreSettings :=
  ⟨.enumerable, .null, false⟩

end StoreSettings

/-- The content of a store, the log of its plans, oldest first, and the counts of plans sent to it and
of sessions open on it. -/
structure Store where
  collections : List (String × List Value)
  plans : List Plan
  dispatches : Nat
  openSessions : Nat

/-- Does a document have this id? -/
def Value.hasId (document id : Value) : Bool :=
  match document.get? "id" with
  | some found => found == id
  | none => false

/-- A document with the members of a patch put over its own; only objects take and give members. -/
def Value.patched : Value → Value → Value
  | .object members, .object changes => .object (Members.overlay members changes)
  | document, _ => document

namespace Documents

/-- Patches the first document of an id and gives it as it is then. -/
def patchFirst (id patch : Value) : List Value → Option (Value × List Value)
  | [] => none
  | document :: rest =>
    if document.hasId id then
      let patched := document.patched patch
      some (patched, patched :: rest)
    else (patchFirst id patch rest).map fun (found, rest) => (found, document :: rest)

/-- Takes out the first document of an id. -/
def removeFirst (id : Value) : List Value → Option (Value × List Value)
  | [] => none
  | document :: rest =>
    if document.hasId id then some (document, rest)
    else (removeFirst id rest).map fun (found, rest) => (found, document :: rest)

end Documents

namespace Store

/-- A store without collections. -/
def empty : Store :=
  ⟨[], [], 0, 0⟩

instance : Inhabited Store :=
  ⟨empty⟩

/-- The name under which a store reports failures. -/
def name : String :=
  "in-memory store"

/-- Sets the documents of a collection, whatever it held. -/
def seed (store : Store) (collection : String) (documents : List Value) : Store :=
  { store with collections := Keyed.put collection documents store.collections }

/-- The documents of a collection. -/
def documents (store : Store) (collection : String) : Except StoreError (List Value) :=
  match store.collections.lookup collection with
  | some documents => .ok documents
  | none => .error (.unknownCollection collection)

/-- Adds a document behind the others of a collection, which then exists. -/
def insert (store : Store) (collection : String) (document : Value) : Store :=
  store.seed collection ((store.collections.lookup collection).getD [] ++ [document])

/-- The document of an id. -/
def find? (store : Store) (collection : String) (id : Value) : Option Value :=
  (store.collections.lookup collection).bind fun documents => documents.find? (·.hasId id)

private def change (store : Store) (collection : String)
    (step : List Value → Option (Value × List Value)) : Option Value × Store :=
  match (store.collections.lookup collection).bind step with
  | some (found, documents) => (some found, store.seed collection documents)
  | none => (none, store)

/-- Patches the document of an id, if there is one. -/
def update (store : Store) (collection : String) (id patch : Value) : Option Value × Store :=
  store.change collection (Documents.patchFirst id patch)

/-- Removes the document of an id, if there is one. -/
def remove (store : Store) (collection : String) (id : Value) : Option Value × Store :=
  store.change collection (Documents.removeFirst id)

/-- What plans on a store are evaluated against. -/
def source (store : Store) (settings : StoreSettings) : Source where
  collection := store.documents
  context := settings.context

def openSession (store : Store) : Store :=
  { store with openSessions := store.openSessions + 1 }

def closeSession (store : Store) : Store :=
  { store with openSessions := store.openSessions - 1 }

/-- Sends a plan to a store: it is counted, logged where a log is kept, refused when it casts and the
store reports that it cannot, and else evaluated. -/
def dispatch (store : Store) (settings : StoreSettings) (plan : Plan) :
    Except StoreError Value × Store :=
  let plans := if settings.logsPlans then store.plans ++ [plan] else store.plans
  let answer :=
    if !settings.capabilities.supportsCast && plan.any Plan.isCast then
      .error (.unsupported name "cast")
    else plan.run (store.source settings)
  (answer, { store with dispatches := store.dispatches + 1, plans := plans })

end Store

end GraphQuery
