import GraphQuery.Document.Basic
import GraphQuery.Document.Token

/-! Reading documents from their tokens. One token tells which rule applies, so no rule goes back, and
every rule that repeats another bounds it by the number of tokens. -/

namespace GraphQuery.Document

private def isMarkToken (c : Char) : List Token → Bool
  | .mark found :: _ => found == c
  | _ => false

private def expectMark (c : Char) : List Token → Option (List Token)
  | .mark found :: rest => if found = c then some rest else none
  | _ => none

private def expectName : List Token → Option (String × List Token)
  | .name text :: rest => some (text, rest)
  | _ => none

private def expectWord (word : String) : List Token → Option (List Token)
  | .name text :: rest => if text = word then some rest else none
  | _ => none

/-- The value of a token that is a value by itself. -/
private def plainLiteral? : Token → Option Literal
  | .name "true" => some (.bool true)
  | .name "false" => some (.bool false)
  | .name "null" => some .null
  | .name text => some (.enum text)
  | .int value => some (.int value)
  | .float value => some (.float value)
  | .string text => some (.string text)
  | _ => none

/-- Members in the order of their names; of several with one name the last counts. -/
private def insertMember (key : String) (value : Literal) :
    List (String × Literal) → List (String × Literal)
  | [] => [(key, value)]
  | (name, old) :: rest =>
    if key = name then (key, value) :: rest
    else if key < name then (key, value) :: (name, old) :: rest
    else (name, old) :: insertMember key value rest

mutual

/-- A value; variables stand in it only where they may. -/
private def readLiteral (withVars : Bool) : Nat → List Token → Option (Literal × List Token)
  | 0, _ => none
  | fuel + 1, tokens =>
    match tokens with
    | .mark '$' :: rest =>
      if withVars then (expectName rest).map fun (name, rest) => (.variable name, rest) else none
    | .mark '[' :: rest =>
      (readLiterals withVars fuel rest).map fun (items, rest) => (.list items, rest)
    | .mark '\x7b' :: rest =>
      (readMembers withVars fuel rest).map fun (members, rest) =>
        (.object (members.foldl (fun sorted member => insertMember member.1 member.2 sorted) []), rest)
    | token :: rest => (plainLiteral? token).map fun literal => (literal, rest)
    | [] => none

/-- The items of a list up to its closing bracket. -/
private def readLiterals (withVars : Bool) : Nat → List Token → Option (List Literal × List Token)
  | 0, _ => none
  | fuel + 1, tokens =>
    match tokens with
    | .mark ']' :: rest => some ([], rest)
    | tokens => do
      let (item, rest) ← readLiteral withVars fuel tokens
      let (items, rest) ← readLiterals withVars fuel rest
      pure (item :: items, rest)

/-- The members of an object up to its closing brace. -/
private def readMembers (withVars : Bool) :
    Nat → List Token → Option (List (String × Literal) × List Token)
  | 0, _ => none
  | fuel + 1, tokens =>
    match tokens with
    | .mark '\x7d' :: rest => some ([], rest)
    | tokens => do
      let (key, rest) ← expectName tokens
      let (value, rest) ← readLiteral withVars fuel (← expectMark ':' rest)
      let (members, rest) ← readMembers withVars fuel rest
      pure ((key, value) :: members, rest)

end

/-- A rule once and then as often as it goes, up to a closing mark. -/
private def readMany {α : Type} (close : Char) (item : List Token → Option (α × List Token)) :
    Nat → List Token → Option (List α × List Token)
  | 0, _ => none
  | fuel + 1, tokens => do
    let (first, rest) ← item tokens
    if isMarkToken close rest then pure ([first], rest.drop 1)
    else
      let (others, rest) ← readMany close item fuel rest
      pure (first :: others, rest)

private def readArgument (fuel : Nat) (tokens : List Token) :
    Option ((String × Literal) × List Token) := do
  let (name, rest) ← expectName tokens
  let (value, rest) ← readLiteral true fuel (← expectMark ':' rest)
  pure ((name, value), rest)

/-- Arguments in parentheses, at least one, or none at all. -/
private def readArguments (fuel : Nat) (tokens : List Token) :
    Option (List (String × Literal) × List Token) :=
  match tokens with
  | .mark '(' :: rest => readMany ')' (readArgument fuel) fuel rest
  | tokens => some ([], tokens)

/-- What follows any directives. -/
private def skipDirectives : Nat → List Token → Option (List Token)
  | 0, _ => none
  | fuel + 1, tokens =>
    match tokens with
    | .mark '@' :: rest => do
      let (_, rest) ← expectName rest
      let (_, rest) ← readArguments fuel rest
      skipDirectives fuel rest
    | tokens => some tokens

mutual

/-- A selection set in braces. -/
private def readSelections : Nat → List Token → Option (List Selection × List Token)
  | 0, _ => none
  | fuel + 1, tokens => do
    readRest fuel (← expectMark '\x7b' tokens)

/-- The selections up to the closing brace, at least one. -/
private def readRest : Nat → List Token → Option (List Selection × List Token)
  | 0, _ => none
  | fuel + 1, tokens => do
    let (first, rest) ← readSelection fuel tokens
    if isMarkToken '\x7d' rest then pure ([first], rest.drop 1)
    else
      let (others, rest) ← readRest fuel rest
      pure (first :: others, rest)

/-- A field, an inline fragment or a spread. -/
private def readSelection : Nat → List Token → Option (Selection × List Token)
  | 0, _ => none
  | fuel + 1, tokens =>
    match tokens with
    | .spread :: .name "on" :: rest => do
      let (condition, rest) ← expectName rest
      let (selections, rest) ← readSelections fuel (← skipDirectives fuel rest)
      pure (.inline (some condition) selections, rest)
    | .spread :: .name fragment :: rest => do
      let rest ← skipDirectives fuel rest
      pure (.spread fragment, rest)
    | .spread :: rest => do
      let (selections, rest) ← readSelections fuel (← skipDirectives fuel rest)
      pure (.inline none selections, rest)
    | .name first :: rest => do
      let (alias?, name, rest) ←
        if isMarkToken ':' rest then
          (expectName (rest.drop 1)).map fun (name, rest) => (some first, name, rest)
        else some (none, first, rest)
      let (arguments, rest) ← readArguments fuel rest
      let rest ← skipDirectives fuel rest
      if isMarkToken '\x7b' rest then
        let (selections, rest) ← readSelections fuel rest
        pure (.field alias? name arguments selections, rest)
      else pure (.field alias? name arguments [], rest)
    | _ => none

end

/-- A type reference. -/
private def readType : Nat → List Token → Option (TypeRef × List Token)
  | 0, _ => none
  | fuel + 1, tokens => do
    let (type, rest) ← match tokens with
      | .name text :: rest => some (TypeRef.named text, rest)
      | .mark '[' :: rest => do
        let (item, rest) ← readType fuel rest
        let rest ← expectMark ']' rest
        some (TypeRef.list item, rest)
      | _ => none
    if isMarkToken '!' rest then pure (.nonNull type, rest.drop 1) else pure (type, rest)

private def readVariable (fuel : Nat) (tokens : List Token) : Option (VariableDecl × List Token) := do
  let (name, rest) ← expectName (← expectMark '$' tokens)
  let (type, rest) ← readType fuel (← expectMark ':' rest)
  if isMarkToken '=' rest then
    let (default, rest) ← readLiteral false fuel (rest.drop 1)
    pure (⟨name, type, some default⟩, rest)
  else pure (⟨name, type, none⟩, rest)

/-- What follows the kind of an operation. -/
private def readOperation (fuel : Nat) (kind : OperationKind) (tokens : List Token) :
    Option (Operation × List Token) := do
  let (name?, rest) := match tokens with
    | .name text :: rest => (some text, rest)
    | _ => (none, tokens)
  let (vars, rest) ← match rest with
    | .mark '(' :: rest => readMany ')' (readVariable fuel) fuel rest
    | rest => some ([], rest)
  let (selections, rest) ← readSelections fuel (← skipDirectives fuel rest)
  pure (⟨kind, name?, vars, selections⟩, rest)

/-- What follows the word that begins a fragment. -/
private def readFragment (fuel : Nat) (tokens : List Token) : Option (Fragment × List Token) := do
  let (name, rest) ← expectName tokens
  let (condition, rest) ← expectName (← expectWord "on" rest)
  let (selections, rest) ← readSelections fuel (← skipDirectives fuel rest)
  pure (⟨name, condition, selections⟩, rest)

/-- Definitions up to the end. -/
private def readDefinitions : Nat → List Token → Option Document
  | 0, _ => none
  | _, [] => some ⟨[], []⟩
  | fuel + 1, tokens =>
    let operation (found : Option (Operation × List Token)) : Option Document := do
      let (operation, rest) ← found
      let others ← readDefinitions fuel rest
      pure { others with operations := operation :: others.operations }
    match tokens with
    | .mark '\x7b' :: _ =>
      operation ((readSelections fuel tokens).map fun (selections, rest) =>
        (⟨.query, none, [], selections⟩, rest))
    | .name "query" :: rest => operation (readOperation fuel .query rest)
    | .name "mutation" :: rest => operation (readOperation fuel .mutation rest)
    | .name "subscription" :: rest => operation (readOperation fuel .subscription rest)
    | .name "fragment" :: rest => do
      let (fragment, rest) ← readFragment fuel rest
      let others ← readDefinitions fuel rest
      pure { others with fragments := fragment :: others.fragments }
    | _ => none

/-- The document that a text writes; it has at least one definition. -/
def ofText? (text : String) : Option Document := do
  let tokens ← Token.ofText? text
  if tokens.isEmpty then none else readDefinitions (3 * tokens.length + 3) tokens

end GraphQuery.Document
