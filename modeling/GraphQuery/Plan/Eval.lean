import GraphQuery.Plan.Order
import GraphQuery.Store.Error

/-! Evaluating plans over JSON values. A sequence operation on null is null; on any other value that is
no array it fails. -/

namespace GraphQuery

/-- What a plan is evaluated against: the collections it may name and the value of its context. -/
structure Source where
  collection : String → Except StoreError (List Value)
  context : Value

/-- Evaluation without any collections. -/
def Source.inProcess : Source where
  collection name := .error (.unsupported "in-process evaluator" s!"collection '{name}'")
  context := .null

namespace Value

/-- The member under which a document carries the shape that it has. -/
def shapeKey : String :=
  "__shape"

/-- The shape that a document carries. -/
def shape? (value : Value) : Option String :=
  (value.get? shapeKey).bind asString?

/-- Does a document carry one of these shapes? -/
def hasShape (value : Value) (shapes : List String) : Bool :=
  match value.shape? with
  | some shape => shapes.contains shape
  | none => false

/-- Only the truth value itself counts as true. -/
def isTrue : Value → Bool
  | .bool true => true
  | _ => false

/-- The name of the kind of a value. -/
def kindName : Value → String
  | .null => "null"
  | .bool _ => "boolean"
  | .number _ => "number"
  | .string _ => "string"
  | .array _ => "array"
  | .object _ => "object"

/-- The items that an operation works on, none for null. -/
def sequence (operation : String) : Value → Except StoreError (Option (List Value))
  | .array items => .ok (some items)
  | .null => .ok none
  | other => .error (.notASequence operation other.kindName)

/-- Applies a step to the items of a sequence; null stays null. -/
def mapSequence (operation : String) (step : List Value → Except StoreError (List Value))
    (value : Value) : Except StoreError Value := do
  match ← value.sequence operation with
  | some items => (step items).map .array
  | none => pure .null

end Value

namespace Plan

/-- The items that pass a test, in their order. -/
def keepWhere (test : Value → Except StoreError Bool) :
    List Value → Except StoreError (List Value)
  | [] => .ok []
  | item :: rest => do
    let kept ← test item
    let others ← keepWhere test rest
    pure (if kept then item :: others else others)

/-- Each item with its key. -/
def withKeys (key : Value → Except StoreError Value) :
    List Value → Except StoreError (List (Value × Value))
  | [] => .ok []
  | item :: rest => do
    let itemKey ← key item
    let others ← withKeys key rest
    pure ((itemKey, item) :: others)

mutual

/-- The value of a plan on a row, with the values of its variables, the innermost first. -/
def evalIn (source : Source) (vars : List (String × Value)) (row : Value) :
    Plan → Except StoreError Value
  | .context => .ok source.context
  | .row => .ok row
  | .const value => .ok value
  | .null _ => .ok .null
  | .collection name => (source.collection name).map .array
  | .var name =>
    match vars.lookup name with
    | some value => .ok value
    | none => .error (.unboundVariable name)
  | .bind name value body => do
    let value ← evalIn source vars row value
    evalIn source ((name, value) :: vars) row body
  | .member target name => do
    let value ← evalIn source vars row target
    pure ((value.get? name).getD .null)
  | .compare comparison left right => do
    let left ← evalIn source vars row left
    let right ← evalIn source vars row right
    pure (.bool (comparison.holds left right))
  | .and terms => (evalAll source vars row terms).map .bool
  | .or terms => (evalAny source vars row terms).map .bool
  | .not operand => do
    let value ← evalIn source vars row operand
    pure (.bool !value.isTrue)
  | .isNull operand => do
    let value ← evalIn source vars row operand
    pure (.bool value.isNull)
  | .typeIs target shapes => do
    let value ← evalIn source vars row target
    pure (.bool (value.hasShape shapes))
  | .cast target _ shapes => do
    let value ← evalIn source vars row target
    pure (if value.hasShape shapes then value else .null)
  | .cond test yes no => do
    let value ← evalIn source vars row test
    if value.isTrue then evalIn source vars row yes else evalIn source vars row no
  | .nullGuard value body _ => do
    let value ← evalIn source vars row value
    if value.isNull then pure .null else evalIn source vars value body
  | .record _ bindings => (evalBindings source vars row bindings).map .ofEntries
  | .filter items predicate => do
    let value ← evalIn source vars row items
    value.mapSequence "filter" (keepWhere fun item => (evalIn source vars item predicate).map Value.isTrue)
  | .project items body => do
    let value ← evalIn source vars row items
    value.mapSequence "project" fun items => items.mapM fun item => evalIn source vars item body
  | .orderBy items key descending => do
    let value ← evalIn source vars row items
    value.mapSequence "order_by" fun items => do
      let keyed ← withKeys (fun item => evalIn source vars item key) items
      pure ((Sort.byKey descending keyed).map Prod.snd)
  | .skip items count => do
    let value ← evalIn source vars row items
    value.mapSequence "skip" fun items => pure (items.drop count)
  | .take items count => do
    let value ← evalIn source vars row items
    value.mapSequence "take" fun items => pure (items.take count)
  | .toList items => do
    let value ← evalIn source vars row items
    value.mapSequence "to_list" pure
  | .first items => do
    let value ← evalIn source vars row items
    let items ← value.sequence "first"
    pure ((items.bind List.head?).getD .null)
  | .firstOrDefault items => do
    let value ← evalIn source vars row items
    let items ← value.sequence "first"
    pure ((items.bind List.head?).getD .null)

/-- Are all terms true? Evaluation stops at the first that is not. -/
def evalAll (source : Source) (vars : List (String × Value)) (row : Value) :
    List Plan → Except StoreError Bool
  | [] => .ok true
  | term :: rest => do
    let value ← evalIn source vars row term
    if value.isTrue then evalAll source vars row rest else pure false

/-- Is some term true? Evaluation stops at the first that is. -/
def evalAny (source : Source) (vars : List (String × Value)) (row : Value) :
    List Plan → Except StoreError Bool
  | [] => .ok false
  | term :: rest => do
    let value ← evalIn source vars row term
    if value.isTrue then pure true else evalAny source vars row rest

/-- The members of a record. -/
def evalBindings (source : Source) (vars : List (String × Value)) (row : Value) :
    List (String × Plan) → Except StoreError (List (String × Value))
  | [] => .ok []
  | (key, binding) :: rest => do
    let value ← evalIn source vars row binding
    let entries ← evalBindings source vars row rest
    pure ((key, value) :: entries)

end

/-- The value of a plan on a row. -/
def eval (source : Source) (row : Value) (plan : Plan) : Except StoreError Value :=
  plan.evalIn source [] row

/-- The value of a complete plan. -/
def run (source : Source) (plan : Plan) : Except StoreError Value :=
  plan.eval source .null

end Plan

end GraphQuery
