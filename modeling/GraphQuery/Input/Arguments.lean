import GraphQuery.Keyed
import GraphQuery.Schema.TypeRef
import GraphQuery.Value.Basic

/-! The arguments that a field declares, and the values bound to them for one selection. -/

namespace GraphQuery

/-- An argument as it is declared, its type still a text. -/
structure ParameterSpec where
  name : String
  type : String
  default? : Option Value

/-- A declared argument. -/
structure Parameter where
  name : String
  type : TypeRef
  default? : Option Value

namespace Parameter

/-- The parameter of a name. -/
def find? (parameters : List Parameter) (name : String) : Option Parameter :=
  List.find? (fun parameter => parameter.name == name) parameters

/-- Checks one declaration against those before it. -/
def resolve (earlier : List Parameter) (spec : ParameterSpec) : Except SchemaError Parameter :=
  if !Text.isName spec.name then .error (.invalidName spec.name)
  else if (find? earlier spec.name).isSome then .error (.duplicateField "argument list" spec.name)
  else (TypeRef.parse spec.type).map fun type => ⟨spec.name, type, spec.default?⟩

/-- Checks declarations in their order. -/
def resolveAll (specs : List ParameterSpec) : Except SchemaError (List Parameter) :=
  specs.foldlM (fun earlier spec => (resolve earlier spec).map fun p => earlier ++ [p]) []

end Parameter

/-- Values by the name of their argument, in the order in which the names came, and the names that the
query itself gave a value. -/
structure Arguments where
  values : List (String × Value)
  supplied : List String

namespace Arguments

/-- No arguments. -/
def empty : Arguments :=
  ⟨[], []⟩

instance : Inhabited Arguments :=
  ⟨empty⟩

def get? (arguments : Arguments) (name : String) : Option Value :=
  arguments.values.lookup name

/-- The value of an argument, null when there is none. -/
def value (arguments : Arguments) (name : String) : Value :=
  (arguments.get? name).getD .null

def isSupplied (arguments : Arguments) (name : String) : Bool :=
  arguments.supplied.contains name

/-- Binds a name that was not given by the query; a name that is bound already keeps its place. -/
def bind (arguments : Arguments) (name : String) (value : Value) : Arguments :=
  { arguments with values := Keyed.put name value arguments.values }

/-- Binds a name as the query gave it. -/
def insert (arguments : Arguments) (name : String) (value : Value) : Arguments :=
  ⟨Keyed.put name value arguments.values, name :: arguments.supplied⟩

/-- All arguments as an object. -/
def toValue (arguments : Arguments) : Value :=
  .ofEntries arguments.values

/-- A page of a listing: how many rows at most, and how many are left out in front. -/
structure Page where
  limit : Int
  offset? : Option Int
deriving DecidableEq, Repr

/-- The page that arguments ask for: a limit is a whole number, an offset may be null or left out. -/
def page? (arguments : Arguments) : Option Page := do
  let limit ← (← arguments.get? "limit").asInt64?
  match (arguments.get? "offset").bind Value.nonNull? with
  | none => pure ⟨limit, none⟩
  | some offset => (offset.asInt64?).map fun offset => ⟨limit, some offset⟩

end Arguments

end GraphQuery
