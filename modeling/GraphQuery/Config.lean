import GraphQuery.Yaml.Basic

/-! The settings of an engine, and how a document sets them. What a document leaves out keeps its
standard value; what it says of anything else does not count. -/

namespace GraphQuery

/-- How many rows a list is expected to have, and above which cost of a query a warning is due. -/
structure CostSettings where
  listLow : Nat
  listHigh : Nat
  warnAbove : Option Nat
deriving DecidableEq, Repr

/-- The settings of an engine. -/
structure Config where
  defaultStore : String
  cost : CostSettings
  maxDepth : Option Nat
  logFilter : Option String
deriving DecidableEq, Repr

namespace CostSettings

def standard : CostSettings :=
  ⟨1, 100, none⟩

end CostSettings

namespace Config

def standard : Config :=
  ⟨"default", .standard, none, none⟩

/-- The log filter in effect. -/
def filterDirective (config : Config) : String :=
  config.logFilter.getD "info"

end Config

namespace Yaml

/-- Plain scalars that mean that there is no value. -/
def isNull : Yaml → Bool
  | .scalar true text => ["", "~", "null", "Null", "NULL"].contains text
  | _ => false

private def digitsIn (base : Nat) (cs : List Char) : Option Nat := do
  let values ← cs.mapM Text.hexValue?
  if cs.isEmpty || values.any (base ≤ ·) then none
  else some (values.foldl (fun n d => base * n + d) 0)

/-- The number that a plain scalar writes: decimal without zeros in front, or with a mark of its base. -/
private def unsigned? (cs : List Char) : Option Nat :=
  let bare := match cs with
    | '+' :: rest => rest
    | _ => cs
  match bare with
  | '0' :: 'x' :: rest => digitsIn 16 rest
  | '0' :: 'o' :: rest => digitsIn 8 rest
  | '0' :: 'b' :: rest => digitsIn 2 rest
  | '0' :: _ :: _ => none
  | _ => digitsIn 10 bare

/-- A whole number of 64 bits without a sign. -/
def toNat? : Yaml → Option Nat
  | .scalar true text => (unsigned? text.toList).filter (· < 0x10000000000000000)
  | _ => none

/-- The text of a scalar. -/
def toText? : Yaml → Option String
  | .scalar _ text => some text
  | _ => none

/-- A value that may be left empty. -/
def optional {α : Type} (read : Yaml → Option α) (node : Yaml) : Option (Option α) :=
  if node.isNull then some none else (read node).map some

/-- The entries of a mapping by the text of their keys; where nothing is written there are none. -/
def entries? : Yaml → Option (List (String × Yaml))
  | .mapping entries => entries.mapM fun (key, value) => key.toText?.map (·, value)
  | .scalar true "" => some []
  | _ => none

/-- What the entry of a name says, or a standard value when there is none. A name must not be there
twice. -/
def field {α : Type} (entries : List (String × Yaml)) (name : String) (standard : α)
    (read : Yaml → Option α) : Option α :=
  match entries.filter (·.1 == name) with
  | [] => some standard
  | [(_, node)] => read node
  | _ => none

end Yaml

/-- The cost settings that a node writes. -/
def CostSettings.ofYaml? (node : Yaml) : Option CostSettings := do
  let entries ← node.entries?
  let listLow ← Yaml.field entries "list_low" standard.listLow Yaml.toNat?
  let listHigh ← Yaml.field entries "list_high" standard.listHigh Yaml.toNat?
  let warnAbove ← Yaml.field entries "warn_above" standard.warnAbove (Yaml.optional Yaml.toNat?)
  pure ⟨listLow, listHigh, warnAbove⟩

/-- The settings that a document writes. -/
def Config.ofText? (text : String) : Option Config := do
  let entries ← (← Yaml.ofText? text).entries?
  let defaultStore ← Yaml.field entries "default_store" standard.defaultStore Yaml.toText?
  let cost ← Yaml.field entries "complexity" standard.cost CostSettings.ofYaml?
  let maxDepth ← Yaml.field entries "max_depth" standard.maxDepth (Yaml.optional Yaml.toNat?)
  let logFilter ← Yaml.field entries "log_filter" standard.logFilter (Yaml.optional Yaml.toText?)
  pure ⟨defaultStore, cost, maxDepth, logFilter⟩

end GraphQuery
