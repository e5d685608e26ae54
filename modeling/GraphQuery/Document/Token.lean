import GraphQuery.Number.Basic
import GraphQuery.Text.Blank
import GraphQuery.Text.Digits
import GraphQuery.Text.Name

/-! The tokens of a document: marks, names, numbers and strings. Blanks, commas, the byte order mark and
comments stand between them. -/

namespace GraphQuery

/-- A token. A decimal beyond the range of a double has no number. -/
inductive Token where
  | mark (c : Char)
  | spread
  | name (text : String)
  | int (value : Int)
  | float (value : Option Binary64)
  | string (text : String)
deriving DecidableEq

namespace Token

/-- Brackets may be nested this deep. -/
def nestingLimit : Nat :=
  50

private def isIgnored (c : Char) : Bool :=
  [' ', ',', '\t', '\n', '\r', '\uFEFF'].contains c

/-- Does a number end in front of this character? -/
private def endsNumber (c : Char) : Bool :=
  " \n\r\t,#!$:=@|&()[]\x7b\x7d".toList.contains c

private def isOpening (c : Char) : Bool :=
  ['(', '[', '\x7b'].contains c

private def isClosing (c : Char) : Bool :=
  [')', ']', '\x7d'].contains c

private def isMark (c : Char) : Bool :=
  ['!', '$', ':', '=', '@', '|', '&'].contains c

/-- A text around the last character of some kind. -/
private def splitAtLast (p : Char → Bool) (cs : List Char) : Option (List Char × List Char) :=
  let tail := cs.reverse.takeWhile fun c => !p c
  match cs.reverse.dropWhile fun c => !p c with
  | _ :: front => some (front.reverse, tail.reverse)
  | [] => none

/-- Is this a whole number without a zero in front? -/
private def isWhole (cs : List Char) : Bool :=
  let digits := match cs with
    | '-' :: rest => rest
    | _ => cs
  match digits with
  | [] => false
  | ['0'] => true
  | first :: _ => first != '0' && digits.all Char.isDigit

private def isDecimals (cs : List Char) : Bool :=
  !cs.isEmpty && cs.all Char.isDigit

/-- The exponent that a text writes: with a sign, or with a first digit from one to eight. -/
private def exponent? (cs : List Char) : Option Int :=
  match cs with
  | '-' :: digits => if isDecimals digits then some (-(Text.ofDigits digits : Int)) else none
  | '+' :: digits => if isDecimals digits then some (Text.ofDigits digits : Int) else none
  | first :: rest =>
    if '0' < first ∧ first < '9' ∧ rest.all Char.isDigit then some (Text.ofDigits cs : Int) else none
  | [] => none

/-- The sign of a whole number and its digits. -/
private def signed (cs : List Char) : Bool × List Char :=
  match cs with
  | '-' :: digits => (true, digits)
  | _ => (false, cs)

private def decimal? (whole places : List Char) (power : Int) : Option Token :=
  if isWhole whole then
    let (negative, digits) := signed whole
    let number := Binary64.ofDecimal? negative (Text.ofDigits (digits ++ places)) (power - places.length)
    some (.float number)
  else none

/-- A whole number must fit 64 bits with a sign. -/
private def int? (cs : List Char) : Option Token :=
  if isWhole cs then
    let (negative, digits) := signed cs
    let value : Int := if negative then -(Text.ofDigits digits : Int) else Text.ofDigits digits
    if -0x8000000000000000 ≤ value ∧ value < 0x8000000000000000 then some (.int value) else none
  else none

/-- The number that a text writes: digits must follow a point. -/
private def number? (cs : List Char) : Option Token :=
  match splitAtLast (· == '.') cs, splitAtLast (fun c => c == 'e' || c == 'E') cs with
  | none, none => int? cs
  | some (whole, places), none => if isDecimals places then decimal? whole places 0 else none
  | none, some (whole, power) => (exponent? power).bind (decimal? whole [])
  | some (whole, _), some (front, power) =>
    let places := front.drop (whole.length + 1)
    if front.length ≤ whole.length || !isDecimals places then none
    else (exponent? power).bind (decimal? whole places)

/-- The character of four digits of a code point; a sign may stand in place of the first. -/
private def codeChar? (digits : List Char) : Option Char := do
  let digits := match digits with
    | '+' :: rest => rest
    | _ => digits
  let values ← digits.mapM Text.hexValue?
  Text.charOfCode? (values.foldl (fun n d => 16 * n + d) 0)

private def escape? : Char → Option Char
  | '"' => some '"'
  | '\\' => some '\\'
  | '/' => some '/'
  | 'b' => some '\x10'
  | 'f' => some '\x0c'
  | 'n' => some '\n'
  | 'r' => some '\r'
  | 't' => some '\t'
  | _ => none

/-- The text of a string without its quotes. -/
private def unescaped : List Char → Option (List Char)
  | '\\' :: 'u' :: a :: b :: c :: d :: rest => do
    let first ← codeChar? [a, b, c, d]
    let others ← unescaped rest
    pure (first :: others)
  | '\\' :: c :: rest => do
    let first ← escape? c
    let others ← unescaped rest
    pure (first :: others)
  | c :: rest => (unescaped rest).map (c :: ·)
  | [] => some []

/-- The inside of a string up to its closing quote, and what follows. A string ends on its line. -/
private def stringBody : Bool → List Char → Option (List Char × List Char)
  | _, [] => none
  | escaped, c :: rest =>
    if c = '"' ∧ !escaped then some ([], rest)
    else if c = '\n' then none
    else (stringBody (!escaped && c == '\\') rest).map fun (body, rest) => (c :: body, rest)

/-- The inside of a block string up to three quotes that no backslash stands in front of. -/
private def blockBody : Bool → List Char → Option (List Char × List Char)
  | escaped, '"' :: '"' :: '"' :: rest =>
    if escaped then (blockBody false rest).map fun (body, rest) => ('"' :: '"' :: '"' :: body, rest)
    else some ([], rest)
  | _, c :: rest => (blockBody (c == '\\') rest).map fun (body, rest) => (c :: body, rest)
  | _, [] => none

/-- The lines of a text; a line break at the end begins no other line. -/
private def linesOf : List Char → List Char → List (List Char)
  | reversed, '\n' :: rest =>
    let line := match reversed with
      | '\r' :: front => front.reverse
      | _ => reversed.reverse
    line :: linesOf [] rest
  | reversed, c :: rest => linesOf (c :: reversed) rest
  | [], [] => []
  | reversed, [] => [reversed.reverse]

private def unquoted : List Char → List Char
  | '\\' :: '"' :: '"' :: '"' :: rest => '"' :: '"' :: '"' :: unquoted rest
  | c :: rest => c :: unquoted rest
  | [] => []

private def isBlankLine (line : List Char) : Bool :=
  line.all Text.isBlank

/-- The indentation that all lines share, blank ones aside. It counts the bytes of the blanks. -/
private def sharedIndent (lines : List (List Char)) : Nat :=
  let indents := (lines.filter fun line => !isBlankLine line).map fun line =>
    (line.takeWhile Text.isBlank).foldl (fun count c => count + c.utf8Size) 0
  indents.min?.getD 0

/-- A line without so many bytes at its start, if it has them. -/
private def dropBytes? : Nat → List Char → Option (List Char)
  | 0, line => some line
  | _, [] => none
  | count, c :: rest => if c.utf8Size ≤ count then dropBytes? (count - c.utf8Size) rest else none

/-- Lines without the blank ones in front of all others and behind all others. -/
private def withoutBlankEnds (lines : List (List Char)) : List (List Char) :=
  ((lines.dropWhile isBlankLine).reverse.dropWhile isBlankLine).reverse

/-- The text of a block string: the lines behind the first lose the indentation that they share, unless
they are shorter, and blank lines at both ends are left out. -/
private def blockText (body : List Char) : List Char :=
  match linesOf [] body with
  | [] => []
  | first :: rest =>
    let indent := sharedIndent rest
    let lines := first :: rest.map fun line => (dropBytes? indent line).getD line
    ['\n'].intercalate ((withoutBlankEnds lines).map unquoted)

/-- The tokens of an input, with the number of brackets that may still be opened. -/
private def scan : Nat → Nat → List Char → Option (List Token)
  | _, _, [] => some []
  | 0, _, _ => none
  | fuel + 1, depth, c :: rest =>
    if isIgnored c then scan fuel depth rest
    else if c = '#' then scan fuel depth (rest.dropWhile fun c => c != '\n' && c != '\r')
    else if isOpening c then
      match depth with
      | 0 => none
      | depth + 1 => (scan fuel depth rest).map (.mark c :: ·)
    else if isClosing c then (scan fuel (depth + 1) rest).map (.mark c :: ·)
    else if isMark c then (scan fuel depth rest).map (.mark c :: ·)
    else if Text.isNameStart c then
      let text := c :: rest.takeWhile Text.isNamePart
      (scan fuel depth (rest.dropWhile Text.isNamePart)).map (.name (String.ofList text) :: ·)
    else if c = '-' || c.isDigit then do
      let token ← number? (c :: rest.takeWhile fun c => !endsNumber c)
      let tokens ← scan fuel depth (rest.dropWhile fun c => !endsNumber c)
      pure (token :: tokens)
    else
      match c, rest with
      | '.', '.' :: '.' :: rest => (scan fuel depth rest).map (.spread :: ·)
      | '"', '"' :: '"' :: rest => do
        let (body, rest) ← blockBody false rest
        let tokens ← scan fuel depth rest
        pure (.string (String.ofList (blockText body)) :: tokens)
      | '"', rest => do
        let (body, rest) ← stringBody false rest
        let text ← unescaped body
        let tokens ← scan fuel depth rest
        pure (.string (String.ofList text) :: tokens)
      | _, _ => none

/-- The tokens of a text. -/
def ofText? (text : String) : Option (List Token) :=
  let input := text.toList
  scan (input.length + 1) nestingLimit input

end Token

end GraphQuery
