import GraphQuery.Schema.TypeRef
import GraphQuery.Text.Timestamp
import GraphQuery.Text.Uuid
import GraphQuery.Value.Printer

/-! Rules that check the values given for a scalar or an enumeration and bring them into the form that
plans work with. -/

namespace GraphQuery

/-- Why a value is no value of a type. -/
inductive Rejection where
  | nullForNonNull (type : TypeRef)
  | unexpected (expected : String) (found : Value)
  | beyondInt32 (value : Int)
  | malformedUuid
  | malformedTimestamp
  | custom (text : String)

namespace Rejection

/-- The wording of a rejection. -/
def text : Rejection → String
  | .nullForNonNull type => "null given for non-null type " ++ type.text
  | .unexpected expected found => "expected " ++ expected ++ ", found " ++ found.text
  | .beyondInt32 value => toString value ++ " does not fit in a 32-bit Int"
  | .malformedUuid => "invalid UUID"
  | .malformedTimestamp => "invalid timestamp"
  | .custom text => text

end Rejection

/-- The rule of a scalar or an enumeration: the value that it makes of a given one, and the value that
stands for an optional argument that is left out. -/
structure Rule where
  apply : Value → Except Rejection Value
  zero : Value
  enumValues : Option (List String)

namespace Rule

/-- A rule of a caller's own. -/
def custom (zero : Value) (apply : Value → Except Rejection Value) : Rule :=
  ⟨apply, zero, none⟩

/-- Whole numbers of 32 bits. -/
def int : Rule :=
  custom (.int 0) fun value =>
    match value.asInt64? with
    | some i =>
      if -0x80000000 ≤ i ∧ i < 0x80000000 then .ok (.int i) else .error (.beyondInt32 i)
    | none => .error (.unexpected "Int" value)

/-- Numbers, each as its nearest double. -/
def float : Rule :=
  custom (.number (.float .zero)) fun value =>
    match value.asNumber? with
    | some n => .ok (.number (.float n.toBinary64))
    | none => .error (.unexpected "Float" value)

def string : Rule :=
  custom (.string "") fun value =>
    match value with
    | .string _ => .ok value
    | _ => .error (.unexpected "String" value)

def boolean : Rule :=
  custom (.bool false) fun value =>
    match value with
    | .bool _ => .ok value
    | _ => .error (.unexpected "Boolean" value)

/-- Strings and whole numbers, all as strings. -/
def id : Rule :=
  custom (.string "") fun value =>
    match value with
    | .string _ => .ok value
    | .number (.int i) => .ok (.string (toString i))
    | _ => .error (.unexpected "ID" value)

/-- Spellings of a UUID, all in the lower-case hyphenated one. -/
def uuid : Rule :=
  custom .null fun value =>
    match value with
    | .string s =>
      match Text.Uuid.normalize? s with
      | some normal => .ok (.string normal)
      | none => .error .malformedUuid
    | _ => .error (.unexpected "UUID string" value)

/-- Timestamps, all in universal time. -/
def dateTime : Rule :=
  custom .null fun value =>
    match value with
    | .string s =>
      match Text.Timestamp.normalize? s with
      | some normal => .ok (.string normal)
      | none => .error .malformedTimestamp
    | _ => .error (.unexpected "DateTime string" value)

/-- One of the listed values. -/
def enumeration (values : List String) : Rule where
  zero := .null
  enumValues := some values
  apply value :=
    let refused : Except Rejection Value :=
      .error (.unexpected ("one of [" ++ String.intercalate ", " values ++ "]") value)
    match value with
    | .string s => if values.contains s then .ok value else refused
    | _ => refused

end Rule

/-- The rules by the name of their type. Once frozen, a registry takes no more of them. -/
structure RuleRegistry where
  rules : List (String × Rule)
  frozen : Bool

namespace RuleRegistry

/-- The rules of the scalars that every schema has. -/
def builtIn : RuleRegistry where
  rules := [("Int", .int), ("Float", .float), ("String", .string), ("Boolean", .boolean), ("ID", .id)]
  frozen := false

/-- The rule of a type; the one registered last counts. -/
def find? (registry : RuleRegistry) (name : String) : Option Rule :=
  registry.rules.lookup name

def contains (registry : RuleRegistry) (name : String) : Bool :=
  (registry.find? name).isSome

def register (registry : RuleRegistry) (name : String) (rule : Rule) :
    Except SchemaError RuleRegistry :=
  if registry.frozen then .error .alreadyCompleted
  else .ok { registry with rules := (name, rule) :: registry.rules }

def freeze (registry : RuleRegistry) : RuleRegistry :=
  { registry with frozen := true }

end RuleRegistry

end GraphQuery
