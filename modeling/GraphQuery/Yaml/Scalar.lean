import GraphQuery.Text.Digits
import GraphQuery.Yaml.Cursor

/-! Scalars of YAML: plain ones, quoted ones, and blocks of lines. A scalar that goes on over several
lines is folded: a single line break is a space, and of several the first one does not count. -/

namespace GraphQuery.Yaml

/-- Blanks and line breaks inside a scalar, the last one first. Once a line break is met, blanks do not
count. The first break may be escaped, and is missing then. -/
inductive Gap where
  | blanks (reversed : List Char)
  | breaks (first? : Option Char) (reversed : List Char)

namespace Gap

def empty : Gap :=
  .blanks []

def isEmpty : Gap → Bool
  | .blanks [] => true
  | _ => false

def hasBreak : Gap → Bool
  | .blanks _ => false
  | .breaks _ _ => true

/-- The gap with one more blank or line break. -/
def push (c : Char) : Gap → Gap
  | .blanks reversed => if isBreak c then .breaks (some c) [] else .blanks (c :: reversed)
  | .breaks first? reversed => if isBreak c then .breaks first? (c :: reversed) else .breaks first? reversed

/-- What a gap between two words stands for. -/
def folded : Gap → List Char
  | .blanks reversed => reversed.reverse
  | .breaks none reversed => reversed.reverse
  | .breaks (some first) reversed =>
    if first != '\n' then first :: reversed.reverse
    else if reversed.isEmpty then [' ']
    else reversed.reverse

end Gap

/-- A scalar that was read: its text, whether a line break follows it, and what is left. -/
structure Reading where
  text : String
  crossed : Bool
  rest : Cursor

private def reading (reversed : List Char) (gap : Gap) (cursor : Cursor) : Reading :=
  ⟨String.ofList reversed.reverse, gap.hasBreak, cursor⟩

/-- Reads a plain scalar. It ends in front of a comment, a line that is indented less than the column
asked for, a colon that ends a key, and inside brackets in front of any mark of these. -/
def readPlain (inFlow : Bool) (least : Nat) (reversed : List Char) (gap : Gap) (cursor : Cursor) :
    Option Reading :=
  match _h : cursor.next? with
  | none => some (reading reversed gap cursor)
  | some (c, next) =>
    if isBlank c || isBreak c then
      if c == '\t' && gap.hasBreak && cursor.column < least then none
      else readPlain inFlow least reversed (gap.push c) next
    else if !gap.isEmpty && (c == '#' || (!inFlow && cursor.column < least)) then
      some (reading reversed gap cursor)
    else if cursor.isDocumentMark || (c == ':' && cursor.isBlankAt 1) then
      some (reading reversed gap cursor)
    else if inFlow && c == ':' && next.rest.head?.any (fun c => isFlowMark c || c == '?') then none
    else if inFlow && isFlowMark c then some (reading reversed gap cursor)
    else readPlain inFlow least (c :: (gap.folded.reverse ++ reversed)) .empty next
termination_by cursor.rest.length
decreasing_by all_goals exact Cursor.length_next? _h

/-- Reads the rest of a single-quoted scalar; a quote inside is written twice. -/
def readSingleQuoted (reversed : List Char) (gap : Gap) (cursor : Cursor) : Option Reading :=
  match _h : cursor.next? with
  | none => none
  | some (c, next) =>
    if isBlank c || isBreak c then readSingleQuoted reversed (gap.push c) next
    else if cursor.isDocumentMark then none
    else
      let reversed := gap.folded.reverse ++ reversed
      if c != '\'' then readSingleQuoted (c :: reversed) .empty next
      else if next.rest.head? == some '\'' then
        readSingleQuoted ('\'' :: reversed) .empty (next.advance 1)
      else some (reading reversed .empty next)
termination_by cursor.rest.length
decreasing_by
  all_goals
    have := Cursor.length_next? _h
    have := Cursor.length_advance_le 1 next
    omega

/-- The character that an escape of one letter stands for. -/
def escaped? : Char → Option Char
  | '0' => some '\x00'
  | 'a' => some '\x07'
  | 'b' => some '\x08'
  | 't' => some '\t'
  | '\t' => some '\t'
  | 'n' => some '\n'
  | 'v' => some '\x0b'
  | 'f' => some '\x0c'
  | 'r' => some '\r'
  | 'e' => some '\x1b'
  | ' ' => some ' '
  | '"' => some '"'
  | '/' => some '/'
  | '\\' => some '\\'
  | 'N' => some '\u0085'
  | '_' => some '\u00a0'
  | 'L' => some '\u2028'
  | 'P' => some '\u2029'
  | _ => none

/-- How many digits of a code point follow a letter. -/
def codeLength? : Char → Option Nat
  | 'x' => some 2
  | 'u' => some 4
  | 'U' => some 8
  | _ => none

/-- The character that an escape stands for, and how long the escape is without its backslash. -/
def escape? (input : List Char) : Option (Char × Nat) :=
  match input with
  | [] => none
  | c :: rest =>
    match codeLength? c with
    | none => (escaped? c).map (·, 1)
    | some count => do
      let digits := rest.take count
      let values ← digits.mapM Text.hexValue?
      let code ← Text.charOfCode? (values.foldl (fun n d => 16 * n + d) 0)
      if digits.length = count then some (code, count + 1) else none

/-- Reads the rest of a double-quoted scalar. A backslash at the end of a line joins it to the next. -/
def readDoubleQuoted (reversed : List Char) (gap : Gap) (cursor : Cursor) : Option Reading :=
  match _h : cursor.next? with
  | none => none
  | some (c, next) =>
    if isBlank c || isBreak c then readDoubleQuoted reversed (gap.push c) next
    else if cursor.isDocumentMark then none
    else
      let reversed := gap.folded.reverse ++ reversed
      if c == '"' then some (reading reversed .empty next)
      else if c != '\\' then readDoubleQuoted (c :: reversed) .empty next
      else if next.rest.head?.any isBreak then
        match _h' : next.next? with
        | none => none
        | some (_, after) => readDoubleQuoted reversed (.breaks none []) after
      else
        match escape? next.rest with
        | none => none
        | some (c, count) => readDoubleQuoted (c :: reversed) .empty (next.advance count)
termination_by cursor.rest.length
decreasing_by
  · exact Cursor.length_next? _h
  · exact Cursor.length_next? _h
  · exact Nat.lt_trans (Cursor.length_next? _h') (Cursor.length_next? _h)
  · exact Nat.lt_of_le_of_lt (Cursor.length_advance_le count next) (Cursor.length_next? _h)

/-- What becomes of the line breaks at the end of a block. -/
inductive Chomping where
  | strip
  | clip
  | keep

/-- The marks behind the sign of a block: how its end is cut, and how deep it is indented. -/
def readBlockHeader (cursor : Cursor) : Option (Chomping × Option Nat × Cursor) :=
  let chomping? : List Char → Option Chomping
    | '+' :: _ => some .keep
    | '-' :: _ => some .strip
    | _ => none
  let digit? : List Char → Option Nat
    | c :: _ => if c.isDigit then some (c.toNat - 48) else none
    | [] => none
  let header : Chomping × Option Nat × Cursor :=
    match chomping? cursor.rest, digit? cursor.rest with
    | some chomping, _ =>
      let next := cursor.advance 1
      match digit? next.rest with
      | some digit => (chomping, some digit, next.advance 1)
      | none => (chomping, none, next)
    | none, some digit =>
      let next := cursor.advance 1
      match chomping? next.rest with
      | some chomping => (chomping, some digit, next.advance 1)
      | none => (.clip, some digit, next)
    | none, none => (.clip, none, cursor)
  let (chomping, digit?, cursor) := header
  let line := cursor.restOfLine.dropWhile isBlank
  if digit? == some 0 || !(line.isEmpty || line.head? == some '#') then none
  else
    let cursor := cursor.lineEnd
    some (chomping, digit?, match cursor.next? with
      | some (_, next) => next
      | none => cursor)

/-- Skips indentation and empty lines in front of a line of a block: the deepest indentation met, the
line breaks with the last one first, and the start of the line. -/
def readIndent (indent? : Option Nat) (deepest : Nat) (reversed : List Char) (cursor : Cursor) :
    Option (Nat × List Char × Cursor) :=
  match _h : cursor.next? with
  | none => some (max deepest cursor.column, reversed, cursor)
  | some (c, next) =>
    let isOpen := indent?.all (cursor.column < ·)
    if c == ' ' && isOpen then readIndent indent? deepest reversed next
    else if c == '\t' && isOpen then none
    else if isBreak c then readIndent indent? (max deepest cursor.column) (c :: reversed) next
    else some (max deepest cursor.column, reversed, cursor)
termination_by cursor.rest.length
decreasing_by all_goals exact Cursor.length_next? _h

/-- The state of reading a block: the text so far, the break of the last line, whether that line began
with a blank, and the line breaks behind it, all with the last one first. -/
structure BlockText where
  reversed : List Char
  lastBreak : List Char
  wasBlank : Bool
  breaks : List Char

/-- The text in front of the next line. A folded block joins two lines that do not begin with blanks. -/
def BlockText.joined (text : BlockText) (isLiteral nextBlank : Bool) : List Char :=
  if !isLiteral && text.lastBreak == ['\n'] && !text.wasBlank && !nextBlank then
    if text.breaks.isEmpty then ' ' :: text.reversed else text.breaks ++ text.reversed
  else text.breaks ++ (text.lastBreak ++ text.reversed)

/-- Reads the lines of a block of some indentation. Every line takes a character at least. -/
def readBlockLines (isLiteral : Bool) (indent : Nat) : Nat → BlockText → Cursor →
    Option (BlockText × Cursor)
  | 0, text, cursor => some (text, cursor)
  | fuel + 1, text, cursor =>
    if cursor.column != indent || cursor.rest.isEmpty then some (text, cursor)
    else do
      let line := cursor.restOfLine
      let nextBlank := line.head?.any isBlank
      let (lastBreak, next) := match cursor.lineEnd.next? with
        | some (c, next) => ([c], next)
        | none => ([], cursor.lineEnd)
      let (_, breaks, next) ← readIndent (some indent) 0 [] next
      let reversed := line.reverse ++ text.joined isLiteral nextBlank
      readBlockLines isLiteral indent fuel ⟨reversed, lastBreak, nextBlank, breaks⟩ next

/-- Reads a block behind its sign. Its lines are indented as the first of them, or by the number written
behind the sign; the column that the block may begin at is the least. -/
def readBlock (isLiteral : Bool) (least : Nat) (cursor : Cursor) : Option Reading := do
  let (chomping, digit?, cursor) ← readBlockHeader cursor
  let (deepest, breaks, cursor) ← readIndent (digit?.map (least - 1 + ·)) 0 [] cursor
  let indent := match digit? with
    | some digit => least - 1 + digit
    | none => max (max deepest least) 1
  let (text, cursor) ←
    readBlockLines isLiteral indent cursor.rest.length ⟨[], [], false, breaks⟩ cursor
  let reversed := match chomping with
    | .strip => text.reversed
    | .clip => text.lastBreak ++ text.reversed
    | .keep => text.breaks ++ (text.lastBreak ++ text.reversed)
  some ⟨String.ofList reversed.reverse, true, cursor⟩

end GraphQuery.Yaml
