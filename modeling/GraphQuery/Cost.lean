/-! Advisory costs: bounds on the number of rows that an answer takes, cut off at the largest number of
64 bits. -/

namespace GraphQuery

/-- A cost; a range counts from its low to its high bound. -/
inductive Cost where
  | zero
  | one
  | range (low high : Nat)
deriving DecidableEq, Repr

namespace Cost

/-- The largest bound. -/
def limit : Nat :=
  0xFFFFFFFFFFFFFFFF

/-- A number cut off at the largest bound. -/
def saturate (n : Nat) : Nat :=
  min limit n

/-- The cost of two bounds, in its plain form. -/
def ofBounds (low high : Nat) : Cost :=
  if low = 0 ∧ high = 0 then .zero
  else if low = 1 ∧ high = 1 then .one
  else .range low high

def low : Cost → Nat
  | .zero => 0
  | .one => 1
  | .range low _ => low

def high : Cost → Nat
  | .zero => 0
  | .one => 1
  | .range _ high => high

@[simp] theorem low_ofBounds (low high : Nat) : (ofBounds low high).low = low := by
  unfold ofBounds
  split
  · next h => exact h.1.symm
  · split
    · next h => exact h.1.symm
    · rfl

@[simp] theorem high_ofBounds (low high : Nat) : (ofBounds low high).high = high := by
  unfold ofBounds
  split
  · next h => exact h.2.symm
  · split
    · next h => exact h.2.symm
    · rfl

/-- The cost of two things. -/
def plus (a b : Cost) : Cost :=
  ofBounds (saturate (a.low + b.low)) (saturate (a.high + b.high))

/-- The cost of one thing for every row of another. -/
def times (a b : Cost) : Cost :=
  ofBounds (saturate (a.low * b.low)) (saturate (a.high * b.high))

end Cost

end GraphQuery
