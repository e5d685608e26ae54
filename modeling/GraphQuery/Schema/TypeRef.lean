import GraphQuery.Schema.Error
import GraphQuery.Text.Blank
import GraphQuery.Text.Name

/-! References to types, such as `Int`, `[String!]` or `ID!`: reading them, with blanks allowed around
every part, and writing them back. -/

namespace GraphQuery

namespace Text

theorem length_trimLeft_le (cs : List Char) : (trimLeft cs).length ≤ cs.length :=
  (List.dropWhile_sublist _).length_le

theorem length_trim_le (cs : List Char) : (trim cs).length ≤ cs.length := by
  have h := (List.dropWhile_sublist isBlank (l := (trimLeft cs).reverse)).length_le
  simp only [trim, trimRight, List.length_reverse] at h ⊢
  exact Nat.le_trans h (length_trimLeft_le cs)

end Text

/-- A reference to a type. -/
inductive TypeRef where
  | named (name : String)
  | list (item : TypeRef)
  | nonNull (inner : TypeRef)
deriving DecidableEq, Repr, Inhabited

namespace TypeRef

open Text

/-- The type that a text refers to. A mark `!` never follows another. -/
def read? (input : List Char) : Option TypeRef :=
  match _trimmed : trim input with
  | [] => none
  | first :: rest =>
    if (first :: rest).getLast? = some '!' then
      match read? (first :: rest).dropLast with
      | some (.nonNull _) => none
      | some inner => some (.nonNull inner)
      | none => none
    else if first = '[' then
      if rest.getLast? = some ']' then (read? rest.dropLast).map .list else none
    else if isNameChars (first :: rest) then some (.named (String.ofList (first :: rest)))
    else none
termination_by input.length
decreasing_by
  all_goals
    have h := length_trim_le input
    rw [_trimmed] at h
    simp only [List.length_dropLast, List.length_cons] at h ⊢
    omega

/-- The type that a text refers to; a text that refers to none is an invalid name as a whole. -/
def parse (text : String) : Except SchemaError TypeRef :=
  match read? text.toList with
  | some type => .ok type
  | none => .error (.invalidName text)

/-- The reference without blanks. -/
def text : TypeRef → String
  | .named name => name
  | .list item => "[" ++ item.text ++ "]"
  | .nonNull inner => inner.text ++ "!"

def isNonNull : TypeRef → Bool
  | .nonNull _ => true
  | _ => false

def isList : TypeRef → Bool
  | .list _ => true
  | _ => false

/-- The name inside all wrappers. -/
def innermost : TypeRef → String
  | .named name => name
  | .list item => item.innermost
  | .nonNull inner => inner.innermost

end TypeRef

/-- The type of a field: the name of what it yields and whether it yields a list of it. -/
structure Target where
  typeName : String
  isList : Bool
deriving DecidableEq, Repr

namespace Target

/-- What a type reference means for a field: lists inside lists and null marks do not count. -/
def ofTypeRef (type : TypeRef) : Target :=
  match type with
  | .list _ => ⟨type.innermost, true⟩
  | .nonNull inner => ⟨type.innermost, inner.isList⟩
  | .named name => ⟨name, false⟩

/-- The type of a field from its text. -/
def parse (text : String) : Except SchemaError Target :=
  (TypeRef.parse text).map ofTypeRef

end Target

end GraphQuery
