import GraphQuery.Cost
import GraphQuery.Input.Arguments
import GraphQuery.Store.Action

/-! Fields: their declarations and the ways in which they come by their values. -/

namespace GraphQuery

/-- The place of a type in its schema. -/
abbrev TypeId := Nat

/-- The place of a field in its schema. -/
abbrev FieldId := Nat

/-- How the plan of a field becomes its value. An unmodified plan is that value and goes to no store. -/
inductive Resolution where
  | unmodified
  | first
  | firstOrDefault
  | toList
deriving DecidableEq, Repr, Inhabited

/-- The name of a resolution. -/
def Resolution.text : Resolution → String
  | .unmodified => "unmodified"
  | .first => "first"
  | .firstOrDefault => "first_or_default"
  | .toList => "to_list"

/-- What a field may use to build its plan: the value that it is resolved on, the result of the effect
of a mutation, and the data that came with the request. -/
structure PlanScope where
  parent : Plan
  effectResult? : Option Value
  data? : Option Value

/-- Builds the plan of a field, or tells why there is none. -/
abbrev PlanBuilder := PlanScope → Arguments → Except String Plan

/-- Computes the value of a post field. -/
abbrev ComputeFunction := Arguments → Except String Value

/-- What a mutation does to the documents of stores. -/
abbrev Effect := Arguments → Action

/-- How a field comes by its value: from a member of its parent, by a plan of its own, in process after
the plan has run, by an effect whose result a plan may then read, or as the name of the type. -/
inductive Resolver where
  | member (name : String)
  | plan (build : PlanBuilder)
  | computed (compute : ComputeFunction)
  | mutation (effect : Effect) (read? : Option PlanBuilder)
  | typename

instance : Inhabited Resolver :=
  ⟨.typename⟩

/-- The declaration of a field. Without a resolver it reads the member of its own name. -/
structure FieldSpec where
  name : String
  target : String
  parameters : List ParameterSpec
  resolver? : Option Resolver
  resolution? : Option Resolution
  cost? : Option Cost
  store? : Option String
  description? : Option String

namespace FieldSpec

/-- The declaration of a field that has a name and a target only. -/
def plain (name target : String) : FieldSpec :=
  ⟨name, target, [], none, none, none, none, none⟩

/-- The field computed in process instead. -/
def computed (spec : FieldSpec) (compute : ComputeFunction) : FieldSpec :=
  { spec with resolver? := some (.computed compute), resolution? := some .unmodified }

/-- The field as a mutation: a plan of the declaration reads what the effect left; without one the
result of the effect is the value. -/
def mutation (spec : FieldSpec) (effect : Effect) : FieldSpec :=
  match spec.resolver? with
  | some (.plan build) => { spec with resolver? := some (.mutation effect (some build)) }
  | _ =>
    { spec with
      resolver? := some (.mutation effect none)
      resolution? := some (spec.resolution?.getD .unmodified) }

end FieldSpec

/-- A field of a schema. -/
structure Field where
  id : FieldId
  name : String
  declaring : TypeId
  target : TypeId
  isList : Bool
  parameters : List Parameter
  resolution : Resolution
  resolver : Resolver
  cost? : Option Cost
  store? : Option String
  description? : Option String

instance : Inhabited Field :=
  ⟨⟨0, "", 0, 0, false, [], .unmodified, .typename, none, none, none⟩⟩

namespace Field

/-- Post fields are computed in process and have no place in plans. -/
def isPost (field : Field) : Bool :=
  match field.resolver with
  | .computed _ => true
  | _ => false

def isMutation (field : Field) : Bool :=
  match field.resolver with
  | .mutation _ _ => true
  | _ => false

def isTypename (field : Field) : Bool :=
  match field.resolver with
  | .typename => true
  | _ => false

def isMember (field : Field) : Bool :=
  match field.resolver with
  | .member _ => true
  | _ => false

/-- The plan of a field for one selection. -/
def buildPlan (field : Field) (scope : PlanScope) (arguments : Arguments) : Except String Plan :=
  match field.resolver with
  | .member name => .ok (.member scope.parent name)
  | .plan build => build scope arguments
  | .mutation _ (some build) => build scope arguments
  | .mutation _ none => .ok (.const (scope.effectResult?.getD .null))
  | .computed _ => .error ("post field '" ++ field.name ++ "' has no backend plan")
  | .typename => .error ("'" ++ field.name ++ "' is resolved from the type's typename binding")

/-- The value of a post field. -/
def compute (field : Field) (arguments : Arguments) : Except String Value :=
  match field.resolver with
  | .computed compute => compute arguments
  | _ => .error ("'" ++ field.name ++ "' is not a post field")

end Field

end GraphQuery
