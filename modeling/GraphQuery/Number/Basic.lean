import GraphQuery.Number.Shortest

/-! Numbers of a JSON value: whole numbers and doubles, which stay different values also when they
denote the same number, with their text and the order between them. -/

namespace GraphQuery

/-- How a decimal is laid out: the exponents of the leading digit that are written positionally. -/
structure DecimalLayout where
  lowest : Int
  highest : Int

/-- A JSON number. -/
inductive Number where
  | int (value : Int)
  | float (value : Binary64)
deriving DecidableEq, Repr

namespace Number

instance : Inhabited Number :=
  ⟨.int 0⟩

/-- Doubles are written positionally from `0.00001` up to sixteen digits before the point. -/
def layout : DecimalLayout :=
  ⟨-5, 15⟩

private def zeros (count : Nat) : String :=
  String.ofList (List.replicate count '0')

/-- A decimal of given digits whose first one counts `10 ^ lead`: positional with at least one digit
behind the point, else with a signed exponent. -/
def decimalText (form : DecimalLayout) (digits : List Char) (lead : Int) : String :=
  let count := digits.length
  if lead < form.lowest ∨ form.highest < lead then
    let sign := if lead < 0 then "-" else "+"
    let mantissa :=
      match digits with
      | first :: second :: rest => String.ofList (first :: '.' :: second :: rest)
      | short => String.ofList short
    mantissa ++ "e" ++ sign ++ toString lead.natAbs
  else if lead < 0 then
    "0." ++ zeros (lead.natAbs - 1) ++ String.ofList digits
  else if count ≤ lead.toNat + 1 then
    String.ofList digits ++ zeros (lead.toNat + 1 - count) ++ ".0"
  else
    String.ofList (digits.take (lead.toNat + 1)) ++ "." ++ String.ofList (digits.drop (lead.toNat + 1))

/-- The text of a double: the shortest decimal that reads back. -/
def floatText (x : Binary64) : String :=
  let sign := if x.negative then "-" else ""
  if x.magnitude = 0 then sign ++ "0.0"
  else
    let (digits, exponent) := Binary64.shortest x.magnitude
    let written := Nat.toDigits 10 digits
    sign ++ decimalText layout written (exponent + (written.length : Int) - 1)

/-- The text of a number. -/
def text : Number → String
  | .int i => toString i
  | .float x => floatText x

/-- The double nearest to a number. -/
def toBinary64 : Number → Binary64
  | .int i => .ofInt i
  | .float x => x

/-- The place of a number in the order of numbers, each taken as its nearest double. -/
def rank (n : Number) : Int :=
  n.toBinary64.rank

/-- A whole number that fits 64 bits with a sign. -/
def toInt64? : Number → Option Int
  | .int i => if -0x8000000000000000 ≤ i ∧ i < 0x8000000000000000 then some i else none
  | .float _ => none

/-- Equality of JSON numbers: never between a whole number and a double; the two zeros of a double
are equal. -/
protected def beq : Number → Number → Bool
  | .int i, .int j => i == j
  | .float x, .float y => x.rank == y.rank
  | _, _ => false

instance : BEq Number :=
  ⟨Number.beq⟩

/-- The number of a whole literal: one that no 64-bit integer holds becomes a double, and so does a
zero with a sign. -/
def ofWhole? (negative : Bool) (digits : Nat) : Option Number :=
  if negative then
    if digits = 0 ∨ 0x8000000000000000 < digits then (Binary64.ofDecimal? true digits 0).map .float
    else some (.int (-digits))
  else if digits < 0x10000000000000000 then some (.int digits)
  else (Binary64.ofDecimal? false digits 0).map .float

end Number

end GraphQuery
