/-! Finite double-precision numbers, held as a sign and the 63 bits below it, and the exact rounding
of fractions and decimals to them. All arithmetic is on natural numbers, so every value and every
rounding is decided without floating point. -/

namespace GraphQuery

/-- A finite double: its sign, and the exponent and fraction bits read as one number, which grows
with the absolute value. -/
structure Binary64 where
  negative : Bool
  magnitude : Nat
  finite : magnitude < 0x7FF0000000000000
deriving DecidableEq, Repr

namespace Binary64

/-- The zero without a sign. -/
def zero : Binary64 :=
  ⟨false, 0, by decide⟩

instance : Inhabited Binary64 :=
  ⟨zero⟩

/-- Whole quotient rounded to the nearest, a tie to the even one. -/
def divNearest (num den : Nat) : Nat :=
  let quotient := num / den
  let rest := num % den
  if 2 * rest < den ∨ (2 * rest = den ∧ quotient % 2 = 0) then quotient else quotient + 1

/-- The exponent `e` with `2 ^ e ≤ num / den < 2 ^ (e + 1)`, for positive `num` and `den`. -/
def binaryExponent (num den : Nat) : Int :=
  let guess : Int := (Nat.log2 num : Int) - (Nat.log2 den : Int)
  if den * Nat.pow 2 guess.toNat ≤ num * Nat.pow 2 (-guess).toNat then guess else guess - 1

/-- The bits of the double nearest to `num / den`, a tie to the even one. Above the largest finite
double the bits go on as if the exponent had no end. -/
def roundBits (num den : Nat) : Nat :=
  if num = 0 then 0
  else
    let scale := max (-1074) (binaryExponent num den - 52)
    let mantissa := divNearest (num * Nat.pow 2 (-scale).toNat) (den * Nat.pow 2 scale.toNat)
    (scale + 1074).toNat * 0x10000000000000 + mantissa

/-- The double with a sign and bits, if those are finite. -/
def ofBits? (negative : Bool) (bits : Nat) : Option Binary64 :=
  if h : bits < 0x7FF0000000000000 then some ⟨negative, bits, h⟩ else none

/-- Number of decimal digits, one for zero. -/
def digitCount (n : Nat) : Nat :=
  (Nat.toDigits 10 n).length

/-- The double nearest to `± digits * 10 ^ exponent`, if that is finite. Beyond the range of the
format the answer is known without computing the power. -/
def ofDecimal? (negative : Bool) (digits : Nat) (exponent : Int) : Option Binary64 :=
  let top := (digitCount digits : Int) + exponent
  if digits = 0 ∨ top < -330 then some ⟨negative, 0, by decide⟩
  else if 320 < top then none
  else ofBits? negative (roundBits (digits * Nat.pow 10 exponent.toNat) (Nat.pow 10 (-exponent).toNat))

/-- The double nearest to an integer; the largest finite one for integers beyond the range. -/
def ofInt (i : Int) : Binary64 :=
  (ofBits? (decide (i < 0)) (roundBits i.natAbs 1)).getD
    ⟨decide (i < 0), 0x7FEFFFFFFFFFFFFF, by decide⟩

/-- The place of a double among all doubles: ordered as the numbers are, both zeros alike. -/
def rank (x : Binary64) : Int :=
  if x.negative then -(x.magnitude : Int) else x.magnitude

/-- The significand and the power of two that it counts. -/
def decompose (magnitude : Nat) : Nat × Int :=
  if magnitude < 0x10000000000000 then (magnitude, -1074)
  else (0x10000000000000 + magnitude % 0x10000000000000, (magnitude / 0x10000000000000 : Nat) - 1075)

end Binary64

end GraphQuery
