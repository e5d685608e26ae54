import GraphQuery.Error
import GraphQuery.Schema.Field

/-! Computations that call functions of fields, with a record of the calls in their order. A call is
recorded before the function answers, also when the answer is a failure. -/

namespace GraphQuery

/-- The kinds of functions that a field may bring. -/
inductive CallKind where
  | plan
  | compute
  | effect
deriving DecidableEq, Repr

/-- A call of a function of a field. -/
structure Call where
  kind : CallKind
  field : FieldId
  arguments : Arguments

/-- The outcome of a computation and the calls that it has made. -/
structure Traced (α : Type) where
  outcome : Except EngineError α
  calls : List Call

namespace Traced

/-- A computation without calls. -/
def ofExcept {α : Type} (outcome : Except EngineError α) : Traced α :=
  ⟨outcome, []⟩

/-- One computation after another; the first failure ends both. -/
def andThen {α β : Type} (first : Traced α) (next : α → Traced β) : Traced β :=
  match first.outcome with
  | .error error => ⟨.error error, first.calls⟩
  | .ok value => ⟨(next value).outcome, first.calls ++ (next value).calls⟩

instance : Monad Traced where
  pure value := ⟨.ok value, []⟩
  bind := andThen

/-- A call of a function of a field, which fails for the field. -/
def call {α : Type} (kind : CallKind) (field : Field) (arguments : Arguments)
    (answer : Except String α) : Traced α :=
  ⟨answer.mapError (.resolver field.name), [⟨kind, field.id, arguments⟩]⟩

end Traced

namespace Field

/-- Does a field bring a function that builds its plan? -/
def bringsPlan (field : Field) : Bool :=
  match field.resolver with
  | .plan _ => true
  | .mutation _ (some _) => true
  | _ => false

/-- The plan of a field, with the call of the function that builds it. -/
def tracedPlan (field : Field) (scope : PlanScope) (arguments : Arguments) : Traced Plan :=
  let plan := field.buildPlan scope arguments
  if field.bringsPlan then Traced.call .plan field arguments plan
  else .ofExcept (plan.mapError (.resolver field.name))

/-- The value of a post field, with the call of the function that computes it. -/
def tracedValue (field : Field) (arguments : Arguments) : Traced Value :=
  let value := field.compute arguments
  if field.isPost then Traced.call .compute field arguments value
  else .ofExcept (value.mapError (.resolver field.name))

end Field

end GraphQuery
