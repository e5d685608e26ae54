import GraphQuery.Value.Basic

/-! The compact text of a JSON value: no blanks, members in the order of their keys, and in strings
only the quote, the backslash and the control characters escaped. -/

namespace GraphQuery.Value

private def hexDigit (n : Nat) : Char :=
  if n < 10 then Char.ofNat (48 + n) else Char.ofNat (87 + n)

/-- A character of a string as it is written. -/
def escapedChar (c : Char) : String :=
  match c with
  | '"' => "\\\""
  | '\\' => "\\\\"
  | '\x08' => "\\b"
  | '\x0c' => "\\f"
  | '\n' => "\\n"
  | '\r' => "\\r"
  | '\t' => "\\t"
  | c =>
    if c.toNat < 0x20 then
      "\\u00" ++ String.ofList [hexDigit (c.toNat / 16), hexDigit (c.toNat % 16)]
    else String.singleton c

/-- A string in quotes. -/
def quoted (s : String) : String :=
  s.foldl (fun text c => text ++ escapedChar c) "\"" ++ "\""

private def separated (texts : List String) : String :=
  String.intercalate "," texts

mutual

/-- The compact text of a value. -/
def text : Value → String
  | .null => "null"
  | .bool b => if b then "true" else "false"
  | .number n => n.text
  | .string s => quoted s
  | .array items => "[" ++ separated (itemTexts items) ++ "]"
  | .object members => "\x7b" ++ separated (memberTexts members) ++ "\x7d"

/-- The text of each item. -/
def itemTexts : List Value → List String
  | [] => []
  | item :: rest => text item :: itemTexts rest

/-- The text of each member with its key. -/
def memberTexts : List (String × Value) → List String
  | [] => []
  | (key, value) :: rest => (quoted key ++ ":" ++ text value) :: memberTexts rest

end

end GraphQuery.Value
