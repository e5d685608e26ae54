import GraphQuery.Number.Binary64

/-! The shortest decimal that reads back as a given double: for one digit, two digits and so on the
two neighbours of the number on that decimal grid are tried in exact arithmetic, and the first grid
with a hit wins. -/

namespace GraphQuery.Binary64

/-- The exponent of the leading decimal digit of `num / den`, for positive `num` and `den`. -/
def decimalExponent (num den : Nat) : Int :=
  if den ≤ num then (digitCount (num / den) : Int) - 1
  else -(digitCount ((den + num - 1) / num - 1) : Int)

/-- Does `digits * 10 ^ exponent` round to these bits? -/
def readsBack (bits digits : Nat) (exponent : Int) : Bool :=
  roundBits (digits * Nat.pow 10 exponent.toNat) (Nat.pow 10 (-exponent).toNat) == bits

/-- The neighbour of `num / den` that reads back, among the multiples of `10 ^ exponent`; of two the
nearer one, and of two equally near ones the even one. -/
def onGrid? (bits num den : Nat) (exponent : Int) : Option Nat :=
  let scaledNum := num * Nat.pow 10 (-exponent).toNat
  let scaledDen := den * Nat.pow 10 exponent.toNat
  let below := scaledNum / scaledDen
  let near := divNearest scaledNum scaledDen
  let far := if near = below then below + 1 else below
  if readsBack bits near exponent then some near
  else if readsBack bits far exponent then some far
  else none

/-- The shortest digits of a positive magnitude with the power of ten of the last one. Seventeen
digits always suffice. -/
def shortest (magnitude : Nat) : Nat × Int :=
  let (significand, power) := decompose magnitude
  let num := significand * Nat.pow 2 power.toNat
  let den := Nat.pow 2 (-power).toNat
  let lead := decimalExponent num den
  let attempt (count : Nat) : Option (Nat × Int) :=
    let exponent := lead - count
    (onGrid? magnitude num den exponent).map fun digits =>
      if digits = Nat.pow 10 (count + 1) then (1, exponent + count + 1) else (digits, exponent)
  ((List.range 17).findSome? attempt).getD (num, 0)

end GraphQuery.Binary64
