import GraphQuery.Document.Parser
import GraphQuery.Query.Binding
import GraphQuery.Query.Estimate
import GraphQuery.Query.Render

/-! Execution: the root fields of an operation are answered one after the other. Each costs at most one
plan sent to a store, and the effect of a mutation comes before the plan that reads what it left. -/

namespace GraphQuery

/-- The state of an execution: its connections to the stores, and the calls of functions of fields. -/
structure Run where
  connections : Connections
  calls : List Call

namespace Run

/-- Nothing has happened yet. -/
def start (world : World) : Run :=
  ⟨.start world, []⟩

end Run

/-- A step of an execution; what it has done stays also when it fails. -/
abbrev Execution := ExceptT EngineError (StateM Run)

namespace Execution

/-- A computation that uses no store. -/
def ofTraced {α : Type} (traced : Traced α) : Execution α :=
  fun run => (traced.outcome, { run with calls := run.calls ++ traced.calls })

/-- A computation without calls. -/
def ofExcept {α : Type} (outcome : Except EngineError α) : Execution α :=
  fun run => (outcome, run)

/-- Runs the effect of a mutation. -/
def runEffect (field : Field) (effect : Effect) (arguments : Arguments) : Execution Value :=
  fun run =>
    let (answer, world) := (effect arguments).run run.connections.world
    (answer.mapError (.resolver field.name),
      { connections := { run.connections with world := world }
        calls := run.calls ++ [⟨.effect, field.id, arguments⟩] })

/-- What the store of a name reports of itself. -/
def capabilities (store : String) : Execution Capabilities :=
  fun run => ((run.connections.world.capabilities store).mapError .backend, run)

/-- Sends a plan to the store of a name. -/
def dispatch (store : String) (plan : Plan) : Execution Value :=
  fun run =>
    let (answer, connections) := run.connections.dispatch store plan
    (answer.mapError .backend, { run with connections := connections })

end Execution

/-- An engine: a schema, which may not be completed yet, and settings. -/
structure Engine where
  schema? : Option Schema
  config : Config

/-- The answer to a request, the stores afterwards, and the calls of functions of fields. -/
structure Report where
  answer : Except EngineError Value
  world : World
  calls : List Call

namespace Engine

open Execution

/-- The completed schema of an engine. -/
def schema (engine : Engine) : Except EngineError Schema :=
  match engine.schema? with
  | some schema => .ok schema
  | none => .error .notCompleted

/-- The bound selections of a request. -/
def bind (engine : Engine) (document : Document) (request : Request) :
    Except EngineError (List BoundSelection) := do
  let schema ← engine.schema
  schema.bind engine.config.maxDepth document request

/-- The advisory cost of a request. -/
def estimate (engine : Engine) (document : Document) (request : Request) :
    Except EngineError Cost := do
  let schema ← engine.schema
  let selections ← engine.bind document request
  pure (schema.totalCost engine.config.cost selections)

/-- The result of the effect of a field, if it has one. -/
def effectResult (field : Field) (arguments : Arguments) : Execution (Option Value) :=
  match field.resolver with
  | .mutation effect _ => do
    let result ← runEffect field effect arguments
    pure (some result)
  | _ => pure none

/-- The value of the plan of a root field, its rows as records: an unmodified plan is evaluated here, and
any other is sent to its store. -/
def fetch (schema : Schema) (config : Config) (data? : Option Value) (field : Field) (plan : Plan)
    (children : List BoundSelection) : Execution Value :=
  if field.resolution = .unmodified then do
    let compiled ← ofTraced (Compiler.compose ⟨schema, .enumerable, data?⟩ field plan children 1)
    Execution.ofExcept ((compiled.run .inProcess).mapError .backend)
  else do
    let store := field.store?.getD config.defaultStore
    let tier := Tier.ofCapabilities (← capabilities store)
    let compiled ← ofTraced (Compiler.compose ⟨schema, tier, data?⟩ field plan children 1)
    dispatch store compiled

/-- The value of a root selection in the response. -/
def resolveRoot (schema : Schema) (config : Config) (data? : Option Value)
    (selection : BoundSelection) : Execution Value :=
  let field := schema.field selection.field
  let renderer : Renderer := ⟨schema, data?⟩
  if field.isTypename then pure (.string (schema.type field.declaring).name)
  else if field.isPost then ofTraced (renderer.renderPost field selection)
  else do
    let result? ← effectResult field selection.arguments
    let plan ← ofTraced (field.tracedPlan ⟨.context, result?, data?⟩ selection.arguments)
    let raw ← fetch schema config data? field plan selection.children
    ofTraced (renderer.renderField field selection.children raw)

/-- Adds root selections to a response. The first selection of a key counts. -/
def resolveRoots (schema : Schema) (config : Config) (data? : Option Value) :
    Members → List BoundSelection → Execution Members
  | out, [] => pure out
  | out, selection :: rest =>
    if (Members.get? selection.outputName out).isSome then resolveRoots schema config data? out rest
    else do
      let value ← resolveRoot schema config data? selection
      resolveRoots schema config data? (Members.insert selection.outputName value out) rest

/-- Answers a request: all of it is bound before anything runs. -/
def run (engine : Engine) (document : Document) (request : Request) : Execution Value := do
  let schema ← Execution.ofExcept engine.schema
  let selections ← Execution.ofExcept (engine.bind document request)
  let out ← resolveRoots schema engine.config request.data? [] selections
  pure (.object out)

/-- Answers a request on some stores and closes the sessions that this took. -/
def execute (engine : Engine) (document : Document) (request : Request) (world : World) : Report :=
  let (answer, run) := (engine.run document request).run (.start world)
  ⟨answer, run.connections.release, run.calls⟩

/-- The document of a text. -/
def parse (text : String) : Except EngineError Document :=
  match Document.ofText? text with
  | some document => .ok document
  | none => .error (.document (.parse "no document"))

/-- Answers a request for the document of a text. -/
def executeText (engine : Engine) (text : String) (request : Request) (world : World) : Report :=
  match parse text with
  | .ok document => engine.execute document request world
  | .error error => ⟨.error error, world, []⟩

end Engine

end GraphQuery
