import GraphQuery.Value.Basic
import GraphQuery.Text.Digits

/-! Reading JSON text. Each step of the reader consumes at least one character, so the number of
characters bounds the steps. -/

namespace GraphQuery.Value

open Text (ofDigits hexValue? charOfCode?)

private def isJsonBlank (c : Char) : Bool :=
  c == ' ' || c == '\t' || c == '\n' || c == '\r'

private def skipJsonBlanks (cs : List Char) : List Char :=
  cs.dropWhile isJsonBlank

private def hex4? (a b c d : Char) : Option Nat := do
  let a ← hexValue? a
  let b ← hexValue? b
  let c ← hexValue? c
  let d ← hexValue? d
  pure (((a * 16 + b) * 16 + c) * 16 + d)

private def simpleEscape? : Char → Option Char
  | '"' => some '"'
  | '\\' => some '\\'
  | '/' => some '/'
  | 'b' => some '\x08'
  | 'f' => some '\x0c'
  | 'n' => some '\n'
  | 'r' => some '\r'
  | 't' => some '\t'
  | _ => none

/-- The rest of a string behind its opening quote; two escapes may form one character. -/
private def readQuoted : Nat → List Char → List Char → Option (String × List Char)
  | 0, _, _ => none
  | fuel + 1, reversed, input =>
    match input with
    | '"' :: rest => some (String.ofList reversed.reverse, rest)
    | '\\' :: 'u' :: a :: b :: c :: d :: rest => do
      let unit ← hex4? a b c d
      if 0xD800 ≤ unit ∧ unit < 0xDC00 then
        match rest with
        | '\\' :: 'u' :: a :: b :: c :: d :: rest => do
          let low ← hex4? a b c d
          if 0xDC00 ≤ low ∧ low < 0xE000 then
            let c ← charOfCode? (0x10000 + (unit - 0xD800) * 0x400 + (low - 0xDC00))
            readQuoted fuel (c :: reversed) rest
          else none
        | _ => none
      else
        let c ← charOfCode? unit
        readQuoted fuel (c :: reversed) rest
    | '\\' :: c :: rest => do
      let c ← simpleEscape? c
      readQuoted fuel (c :: reversed) rest
    | c :: rest => if c.toNat < 0x20 then none else readQuoted fuel (c :: reversed) rest
    | [] => none

/-- Digits behind a point or an exponent mark. -/
private def readDigits (input : List Char) : Option (List Char × List Char) :=
  match input.takeWhile Char.isDigit with
  | [] => none
  | digits => some (digits, input.dropWhile Char.isDigit)

private def readFraction (input : List Char) : Option (Option (List Char) × List Char) :=
  match input with
  | '.' :: rest => (readDigits rest).map fun (digits, rest) => (some digits, rest)
  | _ => some (none, input)

private def readExponent (input : List Char) : Option (Option Int × List Char) :=
  let signed (rest : List Char) : Option (Option Int × List Char) :=
    match rest with
    | '-' :: rest => (readDigits rest).map fun (digits, rest) => (some (-(ofDigits digits : Int)), rest)
    | '+' :: rest => (readDigits rest).map fun (digits, rest) => (some (ofDigits digits : Int), rest)
    | rest => (readDigits rest).map fun (digits, rest) => (some (ofDigits digits : Int), rest)
  match input with
  | 'e' :: rest => signed rest
  | 'E' :: rest => signed rest
  | _ => some (none, input)

/-- A number: a fraction or an exponent makes it a double. -/
private def readNumber (input : List Char) : Option (Number × List Char) := do
  let (negative, unsigned) : Bool × List Char :=
    match input with
    | '-' :: rest => (true, rest)
    | _ => (false, input)
  let (whole, rest) ← readDigits unsigned
  if whole.length > 1 ∧ whole.head? = some '0' then none
  else
    let (fraction, rest) ← readFraction rest
    let (exponent, rest) ← readExponent rest
    match fraction, exponent with
    | none, none => (Number.ofWhole? negative (ofDigits whole)).map (·, rest)
    | _, _ =>
      let places := fraction.getD []
      let power : Int := exponent.getD 0 - places.length
      (Binary64.ofDecimal? negative (ofDigits (whole ++ places)) power).map (.float ·, rest)

mutual

/-- One value at the start of the input. -/
private def readValue : Nat → List Char → Option (Value × List Char)
  | 0, _ => none
  | fuel + 1, input =>
    match skipJsonBlanks input with
    | 'n' :: 'u' :: 'l' :: 'l' :: rest => some (.null, rest)
    | 't' :: 'r' :: 'u' :: 'e' :: rest => some (.bool true, rest)
    | 'f' :: 'a' :: 'l' :: 's' :: 'e' :: rest => some (.bool false, rest)
    | '"' :: rest => (readQuoted (rest.length + 1) [] rest).map fun (s, rest) => (.string s, rest)
    | '[' :: rest =>
      match skipJsonBlanks rest with
      | ']' :: rest => some (.array [], rest)
      | rest => (readItems fuel rest).map fun (items, rest) => (.array items, rest)
    | '\x7b' :: rest =>
      match skipJsonBlanks rest with
      | '\x7d' :: rest => some (.object [], rest)
      | rest => (readMembers fuel rest).map fun (entries, rest) => (ofEntries entries, rest)
    | input => (readNumber input).map fun (n, rest) => (.number n, rest)

/-- The items of an array that has at least one, up to its closing bracket. -/
private def readItems : Nat → List Char → Option (List Value × List Char)
  | 0, _ => none
  | fuel + 1, input => do
    let (item, rest) ← readValue fuel input
    match skipJsonBlanks rest with
    | ']' :: rest => some ([item], rest)
    | ',' :: rest =>
      let (items, rest) ← readItems fuel rest
      some (item :: items, rest)
    | _ => none

/-- The members of an object that has at least one, up to its closing brace. -/
private def readMembers : Nat → List Char → Option (List (String × Value) × List Char)
  | 0, _ => none
  | fuel + 1, input =>
    match skipJsonBlanks input with
    | '"' :: rest => do
      let (key, rest) ← readQuoted (rest.length + 1) [] rest
      match skipJsonBlanks rest with
      | ':' :: rest =>
        let (value, rest) ← readValue fuel rest
        match skipJsonBlanks rest with
        | '\x7d' :: rest => some ([(key, value)], rest)
        | ',' :: rest =>
          let (entries, rest) ← readMembers fuel rest
          some ((key, value) :: entries, rest)
        | _ => none
      | _ => none
    | _ => none

end

/-- The value that a text writes. -/
def ofText? (s : String) : Option Value := do
  let input := s.toList
  let (value, rest) ← readValue (input.length + 1) input
  match skipJsonBlanks rest with
  | [] => some value
  | _ => none

end GraphQuery.Value
