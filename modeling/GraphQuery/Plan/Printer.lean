import GraphQuery.Plan.Basic

/-! Plans written as JSON values, as logs show them: each node is an array of its tag and
its parts. -/

namespace GraphQuery

/-- The tag of a comparison. -/
def Comparison.tag : Comparison → String
  | .eq => "eq"
  | .ne => "ne"
  | .lt => "lt"
  | .le => "le"
  | .gt => "gt"
  | .ge => "ge"

namespace Plan

/-- A node of a tag and some parts. -/
def node (tag : String) (parts : List Value) : Value :=
  .array (.string tag :: parts)

/-- A list of names as a value. -/
def nameList (names : List String) : Value :=
  .array (names.map .string)

mutual

/-- A plan as a value. -/
def toValue : Plan → Value
  | .context => node "context" []
  | .row => node "row" []
  | .const value => node "const" [value]
  | .null typeName => node "null" [.string typeName]
  | .collection name => node "collection" [.string name]
  | .var name => node "var" [.string name]
  | .bind name value body => node "let" [.string name, toValue value, toValue body]
  | .member target name => node "member" [toValue target, .string name]
  | .compare comparison left right =>
    node "compare" [.string comparison.tag, toValue left, toValue right]
  | .and terms => node "and" [.array (toValues terms)]
  | .or terms => node "or" [.array (toValues terms)]
  | .not operand => node "not" [toValue operand]
  | .isNull operand => node "is_null" [toValue operand]
  | .typeIs target shapes => node "type_is" [toValue target, nameList shapes]
  | .cast target typeName shapes =>
    node "cast" [toValue target, .string typeName, nameList shapes]
  | .cond test yes no => node "if" [toValue test, toValue yes, toValue no]
  | .nullGuard value body typeName =>
    node "null_guard" [toValue value, toValue body, .string typeName]
  | .record shape bindings => node "record" [.string shape, .array (bindingValues bindings)]
  | .filter source predicate => node "filter" [toValue source, toValue predicate]
  | .project source body => node "project" [toValue source, toValue body]
  | .orderBy source key descending =>
    node "order_by" [toValue source, toValue key, .bool descending]
  | .skip source count => node "skip" [toValue source, .nat count]
  | .take source count => node "take" [toValue source, .nat count]
  | .toList source => node "to_list" [toValue source]
  | .first source => node "first" [toValue source]
  | .firstOrDefault source => node "first_or_default" [toValue source]

/-- Plans as values. -/
def toValues : List Plan → List Value
  | [] => []
  | plan :: rest => toValue plan :: toValues rest

/-- The bindings of a record as pairs of a key and a plan. -/
def bindingValues : List (String × Plan) → List Value
  | [] => []
  | (key, plan) :: rest => .array [.string key, toValue plan] :: bindingValues rest

end

end Plan

end GraphQuery
