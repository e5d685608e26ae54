import GraphQuery.Proofs.Query.Standing

/-! The objects of a response. Where all that is asked for under one response key of one field stands
under one condition, each selection is shown with an answer of its own. Every object that stands for a row
then has the response keys of the selections that apply to the row and no others, and so have the objects
inside it, at any depth. -/

namespace GraphQuery

/-- Levels on which selections of one field and one response key stand under one condition. -/
inductive BoundSelection.Aligned : List BoundSelection → Prop where
  | level {selections : List BoundSelection}
      (alike : ∀ a ∈ selections, ∀ b ∈ selections, a.alike b = true → a.condition? = b.condition?)
      (children : ∀ selection ∈ selections, Aligned selection.children) : Aligned selections

namespace BoundSelection.Aligned

variable {level : List BoundSelection}

theorem nil : Aligned [] :=
  level (fun _ hmem => absurd hmem List.not_mem_nil) (fun _ hmem => absurd hmem List.not_mem_nil)

theorem children (h : Aligned level) : ∀ selection ∈ level, Aligned selection.children := by
  cases h with
  | level _ hchildren => exact hchildren

end BoundSelection.Aligned

namespace RowContext

/-- What a response shows of rows on which a level is selected: null, an array of such values, or the
object of a row, which has the response keys of the selections whose condition holds for the row. The
values of these selections show the rows of their fields in turn. -/
inductive Displays : RowContext → TypeId → List BoundSelection → Value → Value → Prop where
  | null (frame : RowContext) (owner : TypeId) (level : List BoundSelection) :
      Displays frame owner level .null .null
  | list {frame : RowContext} {owner : TypeId} {level : List BoundSelection} {rows shown : List Value}
      (length : rows.length = shown.length)
      (each : ∀ row value, (row, value) ∈ rows.zip shown → Displays frame owner level row value) :
      Displays frame owner level (.array rows) (.array shown)
  | row {frame : RowContext} {owner : TypeId} {level : List BoundSelection} {row : Value} {out : Members}
      (rows inner : BoundSelection → Value) (rendered : (frame.on row).rendered owner level = .ok out)
      (keys : ∀ key, (Members.get? key out).isSome = true ↔ ∃ selection ∈ level,
        selection.outputName = key ∧ frame.schema.admits owner row selection.condition? = true)
      (yields : ∀ selection ∈ (frame.on row).winners owner level, frame.schema.Nests selection →
        (frame.on row).Yields owner selection (rows selection))
      (shows : ∀ selection ∈ (frame.on row).winners owner level, frame.schema.Nests selection →
        Members.get? selection.outputName out = some (inner selection))
      (below : ∀ selection ∈ (frame.on row).winners owner level, frame.schema.Nests selection →
        Displays ((frame.on row).inside owner selection) (frame.schema.field selection.field).target
          selection.children (rows selection) (inner selection)) :
      Displays frame owner level row (.object out)

variable {context frame : RowContext} {owner : TypeId} {level : List BoundSelection}

end RowContext

namespace Engine

/-- What a response shows of the rows of a root selection, if it asks for what is inside them. -/
def Shows (schema : Schema) (data? : Option Value) (selection : BoundSelection) (value : Value) : Prop :=
  schema.Nests selection → ∃ frame rows, Yields schema data? selection frame rows ∧
    frame.Displays (schema.field selection.field).target selection.children rows value

end Engine

end GraphQuery
