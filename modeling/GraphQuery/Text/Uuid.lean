/-! Universally unique identifiers: the accepted spellings and the one that is written. -/

namespace GraphQuery.Text.Uuid

/-- Lengths of the digit groups between the hyphens. -/
def groups : List Nat :=
  [8, 4, 4, 4, 12]

def isHexDigit (c : Char) : Bool :=
  c.isDigit || ('a' ≤ c && c ≤ 'f') || ('A' ≤ c && c ≤ 'F')

/-- So many digits at the start of the input, in lower case, and what follows them. -/
def readGroup (count : Nat) (input : List Char) : Option (List Char × List Char) :=
  let digits := input.take count
  if digits.length = count ∧ digits.all isHexDigit then
    some (digits.map Char.toLower, input.drop count)
  else none

/-- The digits of groups with a hyphen between any two, when nothing else follows. -/
def readGroups : List Nat → List Char → Option (List Char)
  | [], _ => none
  | [count], input =>
    match readGroup count input with
    | some (digits, []) => some digits
    | _ => none
  | count :: rest, input =>
    match readGroup count input with
    | some (digits, '-' :: tail) => (readGroups rest tail).map (digits ++ ·)
    | _ => none

/-- The mark in front of a spelling, in any case. -/
def mark : List Char :=
  ['u', 'r', 'n', ':', 'u', 'u', 'i', 'd', ':']

/-- The hyphenated spelling inside braces or behind the mark. -/
def unwrapped (input : List Char) : List Char :=
  if (input.take mark.length).map Char.toLower = mark then input.drop mark.length
  else
    match input with
    | '\x7b' :: rest => if rest.getLast? = some '\x7d' then rest.dropLast else input
    | _ => input

/-- The 32 digits that a text spells: bare, or in hyphenated groups that may be wrapped. -/
def digits? (input : List Char) : Option (List Char) :=
  (readGroups [32] input).or (readGroups groups (unwrapped input))

/-- Digits in groups with hyphens between them. -/
def hyphenate : List Nat → List Char → List Char
  | [], _ => []
  | [count], digits => digits.take count
  | count :: rest, digits => digits.take count ++ '-' :: hyphenate rest (digits.drop count)

/-- The hyphenated lower-case spelling of the identifier that a text spells. -/
def normalize? (s : String) : Option String :=
  (digits? s.toList).map fun digits => String.ofList (hyphenate groups digits)

end GraphQuery.Text.Uuid
