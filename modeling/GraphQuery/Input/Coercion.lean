import GraphQuery.Document.Literal
import GraphQuery.Input.Arguments
import GraphQuery.Input.Rule

/-! Binding the arguments of a selection: what the query wrote, with its variables, is checked against
the declared types and brought into the form of their rules. -/

namespace GraphQuery

/-- What is wrong with one argument. -/
inductive ArgumentFault where
  | missing (argument : String)
  | unknown (argument : String)
  | undefinedVariable (name : String)
  | invalid (argument : String) (rejection : Rejection)
  | unknownType (argument typeName : String)

/-- A fault in the arguments of a field. -/
structure ArgumentError where
  field : String
  fault : ArgumentFault

namespace ArgumentError

/-- The wording of a fault. -/
def message (error : ArgumentError) : String :=
  let field := error.field
  match error.fault with
  | .missing argument => s!"Missing required argument '{argument}' on '{field}'"
  | .unknown argument => s!"Unknown argument '{argument}' on '{field}'"
  | .undefinedVariable name => s!"Variable '${name}' used by '{field}' is not defined"
  | .invalid argument rejection =>
    s!"Invalid value for argument '{argument}' on '{field}': " ++ rejection.text
  | .unknownType argument typeName =>
    s!"Argument '{argument}' on '{field}' has unknown input type '{typeName}'"

end ArgumentError

namespace RuleRegistry

/-- The rule of the type of an argument. -/
def rule (registry : RuleRegistry) (argument name : String) : Except ArgumentFault Rule :=
  match registry.find? name with
  | some rule => .ok rule
  | none => .error (.unknownType argument name)

/-- A value as a value of a type: null passes where it may, a single value where a list is wanted
becomes the list of it, and the rules apply to what is inside. -/
def coerce (registry : RuleRegistry) (argument : String) :
    TypeRef → Value → Except ArgumentFault Value
  | .nonNull inner, value =>
    if value.isNull then .error (.invalid argument (.nullForNonNull (.nonNull inner)))
    else registry.coerce argument inner value
  | .list item, value =>
    match value with
    | .null => .ok .null
    | .array values => (values.mapM (registry.coerce argument item)).map .array
    | single => (registry.coerce argument item single).map fun value => .array [value]
  | .named name, value =>
    if value.isNull then .ok .null
    else do
      let rule ← registry.rule argument name
      match rule.apply value with
      | .ok accepted => .ok accepted
      | .error rejection => .error (.invalid argument rejection)

/-- The value of an optional argument that is left out. -/
def zeroValue (registry : RuleRegistry) (argument : String) : TypeRef → Except ArgumentFault Value
  | .nonNull inner => registry.zeroValue argument inner
  | .list _ => .ok (.array [])
  | .named name => (registry.rule argument name).map Rule.zero

/-- The value that a query gives for an argument; a variable without a value gives none. -/
def given (vars : Members) : Option Literal → Except ArgumentFault (Option Value)
  | none => .ok none
  | some literal =>
    match literal.asVariable? with
    | some name => .ok (vars.get? name)
    | none =>
      match literal.evaluate vars with
      | .ok value => .ok (some value)
      | .error name => .error (.undefinedVariable name)

/-- The value of an argument that the query leaves out: the declared default, else nothing where the
type needs a value, else the zero of the type. -/
def omitted (registry : RuleRegistry) (parameter : Parameter) (literal : Option Literal) :
    Except ArgumentFault Value :=
  match parameter.default? with
  | some default => registry.coerce parameter.name parameter.type default
  | none =>
    if parameter.type.isNonNull then
      match literal.bind Literal.asVariable? with
      | some name => .error (.undefinedVariable name)
      | none => .error (.missing parameter.name)
    else registry.zeroValue parameter.name parameter.type

/-- Binds one declared argument. -/
def bindParameter (registry : RuleRegistry) (supplied : List (String × Literal))
    (vars : Members) (bound : Arguments) (parameter : Parameter) :
    Except ArgumentFault Arguments := do
  let literal := supplied.lookup parameter.name
  match ← given vars literal with
  | some value =>
    let value ← registry.coerce parameter.name parameter.type value
    pure (bound.insert parameter.name value)
  | none =>
    let value ← registry.omitted parameter literal
    pure (bound.bind parameter.name value)

/-- Binds the arguments of a selection to those that the field declares, in their order. -/
def bindArguments (registry : RuleRegistry) (field : String) (parameters : List Parameter)
    (supplied : List (String × Literal)) (vars : Members) : Except ArgumentError Arguments :=
  let undeclared := supplied.find? fun entry => (Parameter.find? parameters entry.1).isNone
  let outcome : Except ArgumentFault Arguments :=
    match undeclared with
    | some (name, _) => .error (.unknown name)
    | none => parameters.foldlM (registry.bindParameter supplied vars) Arguments.empty
  outcome.mapError fun fault => ⟨field, fault⟩

end RuleRegistry

end GraphQuery
