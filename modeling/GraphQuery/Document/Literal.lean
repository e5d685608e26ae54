import GraphQuery.Value.Basic

/-! Values as a document writes them, with variables in any place. -/

namespace GraphQuery

/-- A value in a document. A decimal beyond the range of a double has no number. -/
inductive Literal where
  | null
  | bool (value : Bool)
  | int (value : Int)
  | float (value : Option Binary64)
  | string (text : String)
  | enum (name : String)
  | list (items : List Literal)
  | object (members : List (String × Literal))
  | variable (name : String)

namespace Literal

instance : Inhabited Literal :=
  ⟨.null⟩

/-- The name of a literal that is one variable as a whole. -/
def asVariable? : Literal → Option String
  | .variable name => some name
  | _ => none

mutual

/-- The value of a literal when variables are replaced by theirs, or the first variable that has none. -/
def evaluate (vars : Members) : Literal → Except String Value
  | .null => .ok .null
  | .bool b => .ok (.bool b)
  | .int i => .ok (.int i)
  | .float (some x) => .ok (.number (.float x))
  | .float none => .ok .null
  | .string s => .ok (.string s)
  | .enum name => .ok (.string name)
  | .list items => (evaluateItems vars items).map .array
  | .object members => (evaluateMembers vars members).map .ofEntries
  | .variable name =>
    match vars.get? name with
    | some value => .ok value
    | none => .error name

/-- The values of list items. -/
def evaluateItems (vars : Members) : List Literal → Except String (List Value)
  | [] => .ok []
  | item :: rest => do
    let value ← evaluate vars item
    let values ← evaluateItems vars rest
    pure (value :: values)

/-- The values of object members. -/
def evaluateMembers (vars : Members) :
    List (String × Literal) → Except String (List (String × Value))
  | [] => .ok []
  | (key, item) :: rest => do
    let value ← evaluate vars item
    let entries ← evaluateMembers vars rest
    pure ((key, value) :: entries)

end

end Literal

end GraphQuery
