import GraphQuery.Config
import GraphQuery.Query.Selection

/-! The advisory cost of bound selections: each field costs something of its own, and its children cost
what they do once for every row that it is expected to yield. -/

namespace GraphQuery

namespace Field

/-- The rows that a field is expected to yield: one, or for lists without an argument `id` what the
settings say. -/
def expectedRows (field : Field) (settings : CostSettings) : Cost :=
  if field.isList && (Parameter.find? field.parameters "id").isNone then
    .ofBounds settings.listLow settings.listHigh
  else .one

/-- The cost of a field itself: the declared one, else nothing for values at hand and the expected rows
for all others. -/
def ownCost (field : Field) (schema : Schema) (settings : CostSettings) : Cost :=
  match field.cost? with
  | some cost => cost
  | none =>
    if field.isTypename || field.isPost || (schema.type field.target).isLeaf then .zero
    else field.expectedRows settings

end Field

namespace Schema

mutual

/-- The cost of a selection. -/
def cost (schema : Schema) (settings : CostSettings) : BoundSelection → Cost
  | ⟨_, _, id, _, _, children⟩ =>
    let field := schema.field id
    (field.ownCost schema settings).plus
      ((field.expectedRows settings).times (costFrom schema settings .zero children))

/-- The cost of selections on top of some other cost. -/
def costFrom (schema : Schema) (settings : CostSettings) (total : Cost) : List BoundSelection → Cost
  | [] => total
  | selection :: rest => costFrom schema settings (total.plus (cost schema settings selection)) rest

end

/-- The cost of all selections of an operation. -/
def totalCost (schema : Schema) (settings : CostSettings) (selections : List BoundSelection) : Cost :=
  schema.costFrom settings .zero selections

end Schema

end GraphQuery
