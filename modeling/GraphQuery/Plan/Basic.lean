import GraphQuery.Keyed
import GraphQuery.Value.Basic

/-! Plans: what a store is asked to compute, as a tree. The row is the innermost one that a filter, a
projection, a sort key or a null guard binds; outer rows stay within reach under names. -/

namespace GraphQuery

/-- How two values are compared. -/
inductive Comparison where
  | eq
  | ne
  | lt
  | le
  | gt
  | ge
deriving DecidableEq, Repr

/-- A plan. -/
inductive Plan where
  | context
  | row
  | const (value : Value)
  | null (typeName : String)
  | collection (name : String)
  | var (name : String)
  | bind (name : String) (value body : Plan)
  | member (target : Plan) (name : String)
  | compare (comparison : Comparison) (left right : Plan)
  | and (terms : List Plan)
  | or (terms : List Plan)
  | not (operand : Plan)
  | isNull (operand : Plan)
  | typeIs (target : Plan) (shapes : List String)
  | cast (target : Plan) (typeName : String) (shapes : List String)
  | cond (test yes no : Plan)
  | nullGuard (value body : Plan) (typeName : String)
  | record (shape : String) (bindings : List (String × Plan))
  | filter (source predicate : Plan)
  | project (source body : Plan)
  | orderBy (source key : Plan) (descending : Bool)
  | skip (source : Plan) (count : Nat)
  | take (source : Plan) (count : Nat)
  | toList (source : Plan)
  | first (source : Plan)
  | firstOrDefault (source : Plan)

namespace Plan

instance : Inhabited Plan :=
  ⟨.row⟩

/-- A conjunction with one more term: a conjunction on the left takes the term as its last one. -/
def andAlso : Plan → Plan → Plan
  | .and terms, term => .and (terms ++ [term])
  | left, term => .and [left, term]

/-- Does this node yield a sequence whatever its parts yield? -/
def isSequence : Plan → Bool
  | .collection _ => true
  | .filter _ _ => true
  | .project _ _ => true
  | .orderBy _ _ _ => true
  | .skip _ _ => true
  | .take _ _ => true
  | .toList _ => true
  | _ => false

/-- The parts of a node in the order in which they are evaluated. -/
def children : Plan → List Plan
  | .context => []
  | .row => []
  | .const _ => []
  | .null _ => []
  | .collection _ => []
  | .var _ => []
  | .bind _ value body => [value, body]
  | .member target _ => [target]
  | .compare _ left right => [left, right]
  | .and terms => terms
  | .or terms => terms
  | .not operand => [operand]
  | .isNull operand => [operand]
  | .typeIs target _ => [target]
  | .cast target _ _ => [target]
  | .cond test yes no => [test, yes, no]
  | .nullGuard value body _ => [value, body]
  | .record _ bindings => bindings.map Prod.snd
  | .filter source predicate => [source, predicate]
  | .project source body => [source, body]
  | .orderBy source key _ => [source, key]
  | .skip source _ => [source]
  | .take source _ => [source]
  | .toList source => [source]
  | .first source => [source]
  | .firstOrDefault source => [source]

mutual

/-- Does some node of a plan satisfy a test? -/
def any (test : Plan → Bool) : Plan → Bool
  | .bind name value body => test (.bind name value body) || any test value || any test body
  | .member target name => test (.member target name) || any test target
  | .compare op left right => test (.compare op left right) || any test left || any test right
  | .and terms => test (.and terms) || anyTerm test terms
  | .or terms => test (.or terms) || anyTerm test terms
  | .not operand => test (.not operand) || any test operand
  | .isNull operand => test (.isNull operand) || any test operand
  | .typeIs target shapes => test (.typeIs target shapes) || any test target
  | .cast target name shapes => test (.cast target name shapes) || any test target
  | .cond condition yes no =>
    test (.cond condition yes no) || any test condition || any test yes || any test no
  | .nullGuard value body name =>
    test (.nullGuard value body name) || any test value || any test body
  | .record shape bindings => test (.record shape bindings) || anyBinding test bindings
  | .filter source predicate =>
    test (.filter source predicate) || any test source || any test predicate
  | .project source body => test (.project source body) || any test source || any test body
  | .orderBy source key descending =>
    test (.orderBy source key descending) || any test source || any test key
  | .skip source count => test (.skip source count) || any test source
  | .take source count => test (.take source count) || any test source
  | .toList source => test (.toList source) || any test source
  | .first source => test (.first source) || any test source
  | .firstOrDefault source => test (.firstOrDefault source) || any test source
  | leaf => test leaf

/-- Does some node of a list of plans satisfy a test? -/
def anyTerm (test : Plan → Bool) : List Plan → Bool
  | [] => false
  | term :: rest => any test term || anyTerm test rest

/-- Does some node of the bindings of a record satisfy a test? -/
def anyBinding (test : Plan → Bool) : List (String × Plan) → Bool
  | [] => false
  | (_, binding) :: rest => any test binding || anyBinding test rest

end

/-- Is this node a cast? -/
def isCast : Plan → Bool
  | .cast _ _ _ => true
  | _ => false

end Plan

end GraphQuery
