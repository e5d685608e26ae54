import GraphQuery.Proofs.Query.Arrangement
import GraphQuery.Proofs.Query.Reading
import GraphQuery.Proofs.Query.Root

/-! What stands for rows in a response. A field takes rows from the value of its plan, and what the response has
for the field stands for them: null for null, the object of a single row, or an array with an object for each
item. So it is at the root, on rows, and for post fields, whose rows are at hand. The record of a row may be
compiled from other selections than those it is rendered for, where one selection is shown with the answer of
another. -/

namespace GraphQuery

theorem Value.mapObjects_array_ok {change : Members → Traced Members} {items : List Value}
    {shown : Value} (h : (Value.mapObjects change (.array items)).outcome = .ok shown) :
    ∃ values, shown = .array values ∧
      List.Forall₂ (fun item value => (Value.mapObjects change item).outcome = .ok value) items values := by
  rw [Value.mapObjects, Value.mapObjectsAll_eq] at h
  obtain ⟨values, hvalues, hpure⟩ := Traced.bind_ok_iff.mp h
  cases hpure
  rw [Traced.outcome_mapM] at hvalues
  exact ⟨values, rfl, Outcome.mapM_ok_iff.mp hvalues⟩

/-- Does a selection ask for what is inside rows? -/
def Schema.Nests (schema : Schema) (selection : BoundSelection) : Prop :=
  (schema.field selection.field).isTypename = false ∧
    (schema.type (schema.field selection.field).target).isLeaf = false

/-- What the rows of a post field are found with. -/
def Renderer.frame (renderer : Renderer) : RowContext :=
  ⟨renderer.compiler, 1, .inProcess, [], .null⟩

namespace RowContext

/-- The context of another row. -/
def on (context : RowContext) (row : Value) : RowContext :=
  { context with row := row }

section

variable (context : RowContext) (owner : TypeId) (selection : BoundSelection)

/-- The value on which the field of a selection is resolved. -/
def parent : Value :=
  context.compiler.parentValue context.row (context.schema.type owner)
    (context.schema.field selection.field)

/-- What the rows of a selection are found with: those of a post field stand in a value that is at hand,
and any others come from a plan that knows the parent. -/
def inside : RowContext :=
  let field := context.schema.field selection.field
  if field.isPost then context.renderer.frame
  else
    { context with
      depth := context.depth + 1
      vars := Compiler.around context.vars field context.depth (context.parent owner selection) }

/-- The value of a plan for the field of a selection on the row. -/
def resolve (plan : Plan) : Except StoreError Value :=
  let field := context.schema.field selection.field
  let type := context.schema.type owner
  let base := context.compiler.rowOf type field
  (context.compiler.guardPartial type field (Compiler.bindParent field base context.depth plan)).evalIn
    context.source context.vars context.row

/-- The rows of a selection on the row: the value of a post field, or what the field takes from the value
of its plan. -/
inductive Yields : Value → Prop where
  | computed {rows : Value} (hpost : (context.schema.field selection.field).isPost = true)
      (hrows : ((context.schema.field selection.field).tracedValue selection.arguments).outcome =
        .ok rows) : Yields rows
  | planned {plan : Plan} {value : Value}
      (hpost : (context.schema.field selection.field).isPost = false)
      (hplan : ((context.schema.field selection.field).tracedPlan
        ⟨Compiler.parentOf (context.schema.field selection.field)
          (context.compiler.rowOf (context.schema.type owner) (context.schema.field selection.field))
          context.depth, none, context.compiler.data?⟩ selection.arguments).outcome = .ok plan)
      (hvalue : context.resolve owner selection plan = .ok value) :
      Yields ((context.schema.field selection.field).pick plan.isSequence value)

end

/-- The object of a row whose record is compiled from some selections and rendered for some. These differ where
a selection is shown with the answer of another one. -/
def ShownAs (context : RowContext) (owner : TypeId) (compiled rendered : List BoundSelection)
    (out : Members) : Prop :=
  ∃ members, context.record (context.schema.type owner) compiled = .ok (.object members) ∧
    (context.renderer.renderRow (context.schema.type owner) rendered members).outcome = .ok out

/-- An element that stands for an item: its object. -/
def Element (frame : RowContext) (owner : TypeId) (compiled rendered : List BoundSelection)
    (item element : Value) : Prop :=
  ∃ out, element = .object out ∧ (frame.on item).ShownAs owner compiled rendered out

/-- What a response shows of what a field takes from its plan: null for null, the object of a row, or an array
with an element for each item, in their order. -/
inductive Stands (frame : RowContext) (field : Field) (compiled rendered : List BoundSelection) :
    Value → Value → Prop where
  | null : Stands frame field compiled rendered .null .null
  | row {row : Value} {out : Members} (hsingle : field.isList = false)
      (hout : (frame.on row).ShownAs field.target compiled rendered out) :
      Stands frame field compiled rendered row (.object out)
  | list {items elements : List Value}
      (helements : List.Forall₂ (frame.Element field.target compiled rendered) items elements) :
      Stands frame field compiled rendered (.array items) (.array elements)

variable {context frame : RowContext} {owner : TypeId} {field : Field} {compiled rendered : List BoundSelection}

end RowContext

namespace Engine

/-- The rows of a root selection, and what they are found with. -/
inductive Yields (schema : Schema) (data? : Option Value) (selection : BoundSelection) :
    RowContext → Value → Prop where
  | computed {rows : Value} (hpost : (schema.field selection.field).isPost = true)
      (hrows : ((schema.field selection.field).tracedValue selection.arguments).outcome = .ok rows) :
      Yields schema data? selection (Renderer.frame ⟨schema, data?⟩) rows
  | planned {result? : Option Value} {plan : Plan} {tier : Tier} {source : Source} {value : Value}
      (hpost : (schema.field selection.field).isPost = false)
      (hresult : (schema.field selection.field).isMutation = false → result? = none)
      (hplan : ((schema.field selection.field).tracedPlan ⟨.context, result?, data?⟩
        selection.arguments).outcome = .ok plan)
      (hvalue : plan.run source = .ok value) :
      Yields schema data? selection ⟨⟨schema, tier, data?⟩, 1, source, [], .null⟩
        ((schema.field selection.field).pick plan.isSequence value)

end Engine

end GraphQuery
