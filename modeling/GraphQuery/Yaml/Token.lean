import GraphQuery.Yaml.Scalar

/-! The tokens of a text of YAML. Blocks begin and end by indentation alone, so tokens for their ends are
put in where a line is indented less; a key is only known by the colon behind it, so the token in front
of a key is put in when that is found. Anchors, tags and directives are not read. -/

namespace GraphQuery.Yaml

/-- A token. Only a plain scalar can mean null or a number. -/
inductive Token where
  | documentStart
  | documentEnd
  | blockSequence
  | blockMapping
  | blockEnd
  | flowSequence
  | flowSequenceEnd
  | flowMapping
  | flowMappingEnd
  | blockEntry
  | flowEntry
  | key
  | value
  | scalar (plain : Bool) (text : String)
deriving DecidableEq

/-- The start of what may turn out to be a key: where its token stands, where it is written, and
whether it has to be a key. -/
structure KeyStart where
  position : Nat
  start : Cursor
  required : Bool

/-- May a colon at a place still make this a key? A key is on one line, and it is not long. -/
def KeyStart.isOpen (start : KeyStart) (cursor : Cursor) : Bool :=
  start.start.line == cursor.line && cursor.index ≤ start.start.index + 1024

/-- The state of reading tokens: the open blocks by the least column of what they hold, the innermost
first; the possible key at this level of brackets and at those around it; and whether a key may begin
here. -/
structure Scanner where
  cursor : Cursor
  tokens : Array Token
  blocks : List Nat
  key? : Option KeyStart
  outerKeys : List (Option KeyStart)
  keyAllowed : Bool

namespace Scanner

def ofText (text : String) : Scanner :=
  ⟨.ofText text, #[], [], none, [], true⟩

def inFlow (scanner : Scanner) : Bool :=
  !scanner.outerKeys.isEmpty

/-- The least column of what the innermost block holds. -/
def least (scanner : Scanner) : Nat :=
  scanner.blocks.headD 0

def emit (token : Token) (scanner : Scanner) : Scanner :=
  { scanner with tokens := scanner.tokens.push token }

/-- Adds a token of so many characters. -/
def take (token : Token) (length : Nat) (scanner : Scanner) : Scanner :=
  { scanner.emit token with cursor := scanner.cursor.advance length }

/-- Puts tokens in front of the one at a position. -/
def insert (position : Nat) (tokens : Array Token) (scanner : Scanner) : Scanner :=
  let all := scanner.tokens
  { scanner with tokens := all.extract 0 position ++ tokens ++ all.extract position all.size }

/-- Opens a block at a column with a token at a position, if that is deeper than the open blocks. -/
def openBlock (token : Token) (column position : Nat) (scanner : Scanner) : Scanner :=
  if scanner.inFlow || column < scanner.least then scanner
  else { scanner.insert position #[token] with blocks := (column + 1) :: scanner.blocks }

/-- Ends the blocks that hold nothing in front of a column. -/
def closeBlocks (column : Nat) (scanner : Scanner) : Scanner :=
  if scanner.inFlow then scanner
  else
    let closed := scanner.blocks.takeWhile (column < ·)
    { scanner with
      blocks := scanner.blocks.drop closed.length
      tokens := scanner.tokens ++ Array.replicate closed.length Token.blockEnd }

/-- Gives up the possible key at this level. -/
def dropKey (scanner : Scanner) : Option Scanner :=
  if scanner.key?.any (·.required) then none else some { scanner with key? := none }

/-- Gives up the possible key at this level if no colon can make it one any more. -/
def checkKey (scanner : Scanner) : Option Scanner :=
  if scanner.key?.all (·.isOpen scanner.cursor) then some scanner else scanner.dropKey

/-- Notes that what follows may be a key. In a block it has to be one where the block's keys begin. -/
def noteKey (scanner : Scanner) : Option Scanner :=
  if scanner.keyAllowed then do
    let scanner ← scanner.dropKey
    let required := !scanner.inFlow && scanner.least == scanner.cursor.column + 1
    some { scanner with key? := some ⟨scanner.tokens.size, scanner.cursor, required⟩ }
  else some scanner

/-- Skips blanks, comments and line breaks, and tells whether a key may begin behind them. Tabs do not
count as blanks where a key may begin in a block. -/
def skipGaps (inFlow keyAllowed : Bool) (cursor : Cursor) : Cursor × Bool :=
  match _h : cursor.next? with
  | none => (cursor, keyAllowed)
  | some (c, next) =>
    if c == ' ' || (c == '\t' && (inFlow || !keyAllowed)) || (c == '\uFEFF' && cursor.column == 0) then
      skipGaps inFlow keyAllowed next
    else if c == '#' then
      match _h' : cursor.lineEnd.next? with
      | none => (cursor.lineEnd, keyAllowed)
      | some (_, next) => skipGaps inFlow (keyAllowed || !inFlow) next
    else if isBreak c then skipGaps inFlow (keyAllowed || !inFlow) next
    else (cursor, keyAllowed)
termination_by cursor.rest.length
decreasing_by
  · exact Cursor.length_next? _h
  · exact Nat.lt_of_lt_of_le (Cursor.length_next? _h') (Cursor.length_advance_le _ cursor)
  · exact Cursor.length_next? _h

/-- Adds a scalar that was read. Behind a line break, a key may begin. -/
def addScalar (plain : Bool) (reading : Reading) (scanner : Scanner) : Scanner :=
  { scanner.emit (.scalar plain reading.text) with
    cursor := reading.rest
    keyAllowed := reading.crossed }

def addDocumentMark (token : Token) (scanner : Scanner) : Option Scanner := do
  let scanner ← (scanner.closeBlocks 0).dropKey
  some { scanner.take token 3 with keyAllowed := false }

/-- Opens a bracket or a brace, which may begin a key. -/
def openFlow (token : Token) (scanner : Scanner) : Option Scanner := do
  let scanner ← scanner.noteKey
  some { scanner.take token 1 with
    key? := none
    outerKeys := scanner.key? :: scanner.outerKeys
    keyAllowed := true }

/-- Closes a bracket or a brace. -/
def closeFlow (token : Token) (scanner : Scanner) : Option Scanner := do
  let scanner ← scanner.dropKey
  some { scanner.take token 1 with
    key? := scanner.outerKeys.head?.getD none
    outerKeys := scanner.outerKeys.tail
    keyAllowed := false }

def addFlowEntry (scanner : Scanner) : Option Scanner := do
  let scanner ← scanner.dropKey
  some { scanner.take .flowEntry 1 with keyAllowed := true }

/-- Adds the sign of an item or of a key of its own, which may open a block. -/
def addBlockSign (token blockToken : Token) (keyAllowed : Bool) (scanner : Scanner) : Option Scanner :=
  if !scanner.inFlow && !scanner.keyAllowed then none
  else do
    let opened := scanner.openBlock blockToken scanner.cursor.column scanner.tokens.size
    let scanner ← opened.dropKey
    some { scanner.take token 1 with keyAllowed }

/-- Adds the colon in front of a value. What may be a key in front of it becomes one. -/
def addValue (scanner : Scanner) : Option Scanner :=
  match scanner.key? with
  | some key =>
    let withKey := scanner.insert key.position #[.key]
    let opened := withKey.openBlock .blockMapping key.start.column key.position
    some { opened.take .value 1 with key? := none, keyAllowed := false }
  | none =>
    if !scanner.inFlow && !scanner.keyAllowed then none
    else
      let opened := scanner.openBlock .blockMapping scanner.cursor.column scanner.tokens.size
      some { opened.take .value 1 with keyAllowed := !scanner.inFlow }

/-- Adds a scalar behind a quote, or in front of the cursor when it is plain. It may be a key. -/
def addInline (plain : Bool) (read : Cursor → Option Reading) (scanner : Scanner) : Option Scanner := do
  let scanner ← scanner.noteKey
  let reading ← read (if plain then scanner.cursor else scanner.cursor.advance 1)
  some (scanner.addScalar plain reading)

/-- Adds a block scalar behind its sign. -/
def addBlock (isLiteral : Bool) (scanner : Scanner) : Option Scanner := do
  let scanner ← scanner.dropKey
  let reading ← readBlock isLiteral scanner.least (scanner.cursor.advance 1)
  some (scanner.addScalar false reading)

/-- May a plain scalar begin with this character? -/
def startsPlain (scanner : Scanner) (c : Char) : Bool :=
  if c == '-' then !scanner.cursor.isBlankAt 1
  else if c == '?' || c == ':' then !scanner.inFlow && !scanner.cursor.isBlankAt 1
  else !(isBlank c || isFlowMark c || "#&*!|>'\"%@\x60".toList.contains c)

/-- Adds the token that begins with the next character. -/
def addToken (c : Char) (scanner : Scanner) : Option Scanner :=
  let cursor := scanner.cursor
  let isSign := cursor.isBlankAt 1
  if cursor.column == 0 && c == '%' then none
  else if cursor.isDocumentMark then
    scanner.addDocumentMark (if c == '-' then .documentStart else .documentEnd)
  else if c == '[' then scanner.openFlow .flowSequence
  else if c == '\x7b' then scanner.openFlow .flowMapping
  else if c == ']' then scanner.closeFlow .flowSequenceEnd
  else if c == '\x7d' then scanner.closeFlow .flowMappingEnd
  else if c == ',' then scanner.addFlowEntry
  else if c == '-' && isSign then scanner.addBlockSign .blockEntry .blockSequence true
  else if c == '?' && (scanner.inFlow || isSign) then
    scanner.addBlockSign .key .blockMapping (!scanner.inFlow)
  else if c == ':' && (scanner.inFlow || isSign) then scanner.addValue
  else if c == '|' && !scanner.inFlow then scanner.addBlock true
  else if c == '>' && !scanner.inFlow then scanner.addBlock false
  else if c == '\'' then scanner.addInline false (readSingleQuoted [] .empty)
  else if c == '"' then scanner.addInline false (readDoubleQuoted [] .empty)
  else if scanner.startsPlain c then
    scanner.addInline true (readPlain scanner.inFlow scanner.least [] .empty)
  else none

/-- Adds all tokens up to the end of the text. Every token takes a character at least. -/
def finish : Nat → Scanner → Option (Array Token)
  | 0, _ => none
  | fuel + 1, scanner => do
    let (cursor, keyAllowed) := skipGaps scanner.inFlow scanner.keyAllowed scanner.cursor
    let scanner ← { scanner with cursor, keyAllowed }.checkKey
    match cursor.rest with
    | [] =>
      let scanner ← (scanner.closeBlocks 0).dropKey
      some scanner.tokens
    | c :: _ =>
      let scanner ← (scanner.closeBlocks (cursor.column + 1)).addToken c
      finish fuel scanner

end Scanner

/-- The tokens of a text. -/
def Token.ofText? (text : String) : Option (List Token) :=
  if text.toList.all isAllowed then
    ((Scanner.ofText text).finish (text.length + 1)).map Array.toList
  else none

end GraphQuery.Yaml
