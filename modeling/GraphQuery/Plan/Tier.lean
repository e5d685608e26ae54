/-! What stores understand, and the tier of plans that this allows. -/

namespace GraphQuery

/-- What a store tells about itself: whether plans may hold casts, and whether it fails on null where
a sequence is wanted unless the plan guards it. -/
structure Capabilities where
  supportsCast : Bool
  supportsNullGuard : Bool
deriving DecidableEq, Repr

namespace Capabilities

def default : Capabilities :=
  ⟨true, false⟩

def enumerable : Capabilities :=
  ⟨true, true⟩

def strictTyped : Capabilities :=
  ⟨false, false⟩

end Capabilities

/-- The ways in which plans are compiled. -/
inductive Tier where
  | default
  | enumerable
  | strictTyped
deriving DecidableEq, Repr

namespace Tier

/-- The tier for a store: without casts it is the strict one, whatever else the store can do. -/
def ofCapabilities (capabilities : Capabilities) : Tier :=
  if !capabilities.supportsCast then .strictTyped
  else if capabilities.supportsNullGuard then .enumerable
  else .default

/-- The name of a tier. -/
def text : Tier → String
  | .default => "default"
  | .enumerable => "enumerable"
  | .strictTyped => "strict"

/-- Do plans of this tier cast? -/
def casts : Tier → Bool
  | .strictTyped => false
  | _ => true

/-- Do plans of this tier guard lists against null? -/
def guardsNulls : Tier → Bool
  | .enumerable => true
  | _ => false

end Tier

end GraphQuery
