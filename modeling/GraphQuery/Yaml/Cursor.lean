/-! Places in a text of YAML. A place knows its line and its column, as indentation and the ends of lines
carry meaning. -/

namespace GraphQuery.Yaml

/-- Characters that a text may hold: those that can be printed, tabs and line breaks. -/
def isAllowed (c : Char) : Bool :=
  let n := c.toNat
  n == 0x09 || n == 0x0A || n == 0x0D || (0x20 ≤ n && n ≤ 0x7E) || n == 0x85 ||
    (0xA0 ≤ n && n ≤ 0xFFFD) || 0x10000 ≤ n

def isBlank (c : Char) : Bool :=
  c == ' ' || c == '\t'

def isBreak (c : Char) : Bool :=
  ['\n', '\r', '\u0085', '\u2028', '\u2029'].contains c

/-- Brackets, braces and the comma, which divide collections on a line. -/
def isFlowMark (c : Char) : Bool :=
  [',', '[', ']', '\x7b', '\x7d'].contains c

/-- What is left of a text, and where that begins. -/
structure Cursor where
  rest : List Char
  index : Nat
  line : Nat
  column : Nat

namespace Cursor

def ofText (text : String) : Cursor :=
  ⟨text.toList, 0, 0, 0⟩

/-- The next character and the place behind it. A line break of any spelling is a line feed, apart from
the separators of lines and of paragraphs, which stay what they are. -/
def next? (cursor : Cursor) : Option (Char × Cursor) :=
  match cursor.rest with
  | [] => none
  | '\r' :: '\n' :: rest => some ('\n', ⟨rest, cursor.index + 2, cursor.line + 1, 0⟩)
  | c :: rest =>
    if c == '\u2028' || c == '\u2029' then some (c, ⟨rest, cursor.index + 1, cursor.line + 1, 0⟩)
    else if isBreak c then some ('\n', ⟨rest, cursor.index + 1, cursor.line + 1, 0⟩)
    else some (c, ⟨rest, cursor.index + 1, cursor.line, cursor.column + 1⟩)

theorem length_next? {cursor next : Cursor} {c : Char} (h : cursor.next? = some (c, next)) :
    next.rest.length < cursor.rest.length := by
  unfold next? at h
  split at h
  · simp at h
  · grind
  · grind

/-- The place so many characters ahead on the same line. -/
def advance (count : Nat) (cursor : Cursor) : Cursor :=
  { cursor with
    rest := cursor.rest.drop count
    index := cursor.index + count
    column := cursor.column + count }

theorem length_advance_le (count : Nat) (cursor : Cursor) :
    (cursor.advance count).rest.length ≤ cursor.rest.length := by
  simp [advance]

/-- What is left of the line. -/
def restOfLine (cursor : Cursor) : List Char :=
  cursor.rest.takeWhile fun c => !isBreak c

/-- The end of the line. -/
def lineEnd (cursor : Cursor) : Cursor :=
  cursor.advance cursor.restOfLine.length

/-- Is the character so far ahead a blank, a line break or the end of the text? -/
def isBlankAt (offset : Nat) (cursor : Cursor) : Bool :=
  match cursor.rest.drop offset with
  | [] => true
  | c :: _ => isBlank c || isBreak c

/-- Does a line begin here that divides documents? -/
def isDocumentMark (cursor : Cursor) : Bool :=
  cursor.column == 0 && ["---".toList, "...".toList].contains (cursor.rest.take 3) &&
    cursor.isBlankAt 3

end Cursor

end GraphQuery.Yaml
