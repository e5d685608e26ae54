import GraphQuery.Schema.Basic

/-! Bound selections: fields of the schema with their arguments, and the merging of those that answer one
key of a response. -/

namespace GraphQuery

/-- A field that a query selects. A condition is there only where it narrows the type of the parent. -/
structure BoundSelection where
  name : String
  alias? : Option String
  field : FieldId
  condition? : Option TypeId
  arguments : Arguments
  children : List BoundSelection

namespace BoundSelection

/-- The key of the selection in a response. -/
def outputName (selection : BoundSelection) : String :=
  selection.alias?.getD selection.name

/-- Do two selections ask for the same field under the same condition and key? -/
def repeats (a b : BoundSelection) : Bool :=
  a.field == b.field && a.condition? == b.condition? && a.outputName == b.outputName

/-- Changes the first selection that another one repeats, or adds that one where there is none. -/
def updateFirst (selection : BoundSelection) (change : BoundSelection → BoundSelection) :
    List BoundSelection → List BoundSelection
  | [] => [selection]
  | earlier :: rest =>
    if earlier.repeats selection then change earlier :: rest
    else earlier :: updateFirst selection change rest

mutual

/-- Adds a selection to merged ones: the children of one that repeats an earlier one become children of
that, which keeps its own arguments. -/
def absorbOne (merged : List BoundSelection) : BoundSelection → List BoundSelection
  | ⟨name, alias?, field, condition?, arguments, children⟩ =>
    updateFirst ⟨name, alias?, field, condition?, arguments, children⟩
      (fun earlier => { earlier with children := absorb earlier.children children }) merged

/-- Adds selections to merged ones in their order. -/
def absorb (merged : List BoundSelection) : List BoundSelection → List BoundSelection
  | [] => merged
  | selection :: rest => absorb (absorbOne merged selection) rest

end

/-- Merges selections that repeat each other. -/
def merge (selections : List BoundSelection) : List BoundSelection :=
  absorb [] selections

end BoundSelection

end GraphQuery
