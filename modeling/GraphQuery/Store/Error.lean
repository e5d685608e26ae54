/-! Failures of a store, or of the evaluation of a plan. -/

namespace GraphQuery

/-- Why a store did not answer. -/
inductive StoreError where
  | unknownStore (name : String)
  | unknownCollection (name : String)
  | notASequence (operation found : String)
  | unboundVariable (name : String)
  | unsupported (backend node : String)
  | lockPoisoned (access : String)
  | backend (backend text : String)
deriving DecidableEq, Repr

/-- The wording of a failure. -/
def StoreError.message : StoreError → String
  | .unknownStore name => s!"No store registered under the name '{name}'"
  | .unknownCollection name => s!"Collection '{name}' does not exist"
  | .notASequence operation found => s!"'{operation}' expects a sequence but found {found}"
  | .unboundVariable name => s!"Variable '{name}' is not bound by an enclosing let"
  | .unsupported name node => s!"Plan node not supported by {name}: {node}"
  | .lockPoisoned access => s!"Failed to acquire {access} lock"
  | .backend name text => s!"{name} failed: {text}"

end GraphQuery
