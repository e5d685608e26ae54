import GraphQuery.Yaml.Token

/-! Nodes of YAML, and the node that a text holds. -/

namespace GraphQuery

/-- A node. A plain scalar is told from a quoted one, as only plain ones can mean null or a number. -/
inductive Yaml where
  | scalar (plain : Bool) (text : String)
  | sequence (items : List Yaml)
  | mapping (entries : List (Yaml × Yaml))

namespace Yaml

/-- What stands where a node is left out. -/
def empty : Yaml :=
  .scalar true ""

/-- Where a node may stand: between brackets, as an item of a block, or as a key or a value of one.
Between brackets there are no blocks, and only an entry can be a sequence that is not indented. -/
inductive Place where
  | flow
  | item
  | entry
deriving DecidableEq

/-- Is one of these tokens the next one? -/
private def isNext (stops : List Token) (tokens : List Token) : Bool :=
  tokens.head?.any stops.contains

mutual

/-- Reads a node. -/
private def readNode : Nat → Place → List Token → Option (Yaml × List Token)
  | 0, _, _ => none
  | fuel + 1, place, tokens =>
    match tokens with
    | .scalar plain text :: rest => some (.scalar plain text, rest)
    | .flowSequence :: rest =>
      (readFlowItems fuel true rest).map fun (items, rest) => (.sequence items, rest)
    | .flowMapping :: rest =>
      (readFlowEntries fuel true rest).map fun (entries, rest) => (.mapping entries, rest)
    | .blockSequence :: rest =>
      if place = .flow then none
      else (readItems fuel true rest).map fun (items, rest) => (.sequence items, rest)
    | .blockMapping :: rest =>
      if place = .flow then none
      else (readEntries fuel rest).map fun (entries, rest) => (.mapping entries, rest)
    | .blockEntry :: _ =>
      if place = .entry then
        (readItems fuel false tokens).map fun (items, rest) => (.sequence items, rest)
      else none
    | _ => none

/-- Reads a node that may be left out in front of some tokens. -/
private def readOptional : Nat → Place → List Token → List Token → Option (Yaml × List Token)
  | 0, _, _, _ => none
  | fuel + 1, place, stops, tokens =>
    if isNext stops tokens then some (empty, tokens) else readNode fuel place tokens

/-- Reads the value of an entry, if there is a colon. -/
private def readValue : Nat → Place → List Token → List Token → Option (Yaml × List Token)
  | 0, _, _, _ => none
  | fuel + 1, place, stops, tokens =>
    match tokens with
    | .value :: rest => readOptional fuel place stops rest
    | _ => some (empty, tokens)

/-- Reads the items of a block up to its end. A sequence that is not indented has no end of its own. -/
private def readItems : Nat → Bool → List Token → Option (List Yaml × List Token)
  | 0, _, _ => none
  | fuel + 1, indented, tokens =>
    match tokens with
    | .blockEntry :: rest => do
      let stops := if indented then [.blockEntry, .blockEnd] else [.blockEntry, .key, .value, .blockEnd]
      let (item, rest) ← readOptional fuel .item stops rest
      let (items, rest) ← readItems fuel indented rest
      some (item :: items, rest)
    | .blockEnd :: rest => some ([], if indented then rest else tokens)
    | _ => if indented then none else some ([], tokens)

/-- Reads the entries of a block up to its end. -/
private def readEntries : Nat → List Token → Option (List (Yaml × Yaml) × List Token)
  | 0, _ => none
  | fuel + 1, tokens =>
    match tokens with
    | .key :: rest => do
      let (key, rest) ← readOptional fuel .entry [.key, .value, .blockEnd] rest
      let (value, rest) ← readValue fuel .entry [.key, .value, .blockEnd] rest
      let (entries, rest) ← readEntries fuel rest
      some ((key, value) :: entries, rest)
    | .blockEnd :: rest => some ([], rest)
    | _ => none

/-- Reads an item between brackets, which may be a single entry. A mark in place of its key is lost. -/
private def readFlowItem : Nat → List Token → Option (Yaml × List Token)
  | 0, _ => none
  | fuel + 1, tokens =>
    match tokens with
    | .key :: rest => do
      let (key, rest) ←
        if isNext [.value, .flowEntry, .flowSequenceEnd] rest then some (empty, rest.tail)
        else readNode fuel .flow rest
      let (value, rest) ← readValue fuel .flow [.flowEntry, .flowSequenceEnd] rest
      some (.mapping [(key, value)], rest)
    | _ => readNode fuel .flow tokens

/-- Reads the items between brackets up to the closing one. -/
private def readFlowItems : Nat → Bool → List Token → Option (List Yaml × List Token)
  | 0, _, _ => none
  | fuel + 1, isFirst, tokens =>
    match isFirst, tokens with
    | _, .flowSequenceEnd :: rest => some ([], rest)
    | false, .flowEntry :: .flowSequenceEnd :: rest => some ([], rest)
    | false, .flowEntry :: rest => do
      let (item, rest) ← readFlowItem fuel rest
      let (items, rest) ← readFlowItems fuel false rest
      some (item :: items, rest)
    | true, tokens => do
      let (item, rest) ← readFlowItem fuel tokens
      let (items, rest) ← readFlowItems fuel false rest
      some (item :: items, rest)
    | _, _ => none

/-- Reads an entry between braces. -/
private def readFlowEntry : Nat → List Token → Option ((Yaml × Yaml) × List Token)
  | 0, _ => none
  | fuel + 1, tokens =>
    match tokens with
    | .key :: rest => do
      let (key, rest) ← readOptional fuel .flow [.value, .flowEntry, .flowMappingEnd] rest
      let (value, rest) ← readValue fuel .flow [.flowEntry, .flowMappingEnd] rest
      some ((key, value), rest)
    | _ => (readNode fuel .flow tokens).map fun (key, rest) => ((key, empty), rest)

/-- Reads the entries between braces up to the closing one. -/
private def readFlowEntries : Nat → Bool → List Token → Option (List (Yaml × Yaml) × List Token)
  | 0, _, _ => none
  | fuel + 1, isFirst, tokens =>
    match isFirst, tokens with
    | _, .flowMappingEnd :: rest => some ([], rest)
    | false, .flowEntry :: .flowMappingEnd :: rest => some ([], rest)
    | false, .flowEntry :: rest => do
      let (entry, rest) ← readFlowEntry fuel rest
      let (entries, rest) ← readFlowEntries fuel false rest
      some (entry :: entries, rest)
    | true, tokens => do
      let (entry, rest) ← readFlowEntry fuel tokens
      let (entries, rest) ← readFlowEntries fuel false rest
      some (entry :: entries, rest)
    | _, _ => none

end

/-- Reads the node of a document; behind the mark of its start, it may be left out. -/
private def readDocument (tokens : List Token) : Option (Yaml × List Token) :=
  let fuel := 4 * tokens.length + 4
  match tokens with
  | [] => some (empty, [])
  | .documentStart :: rest =>
    if rest.isEmpty then some (empty, []) else readOptional fuel .item [.documentStart, .documentEnd] rest
  | _ => readNode fuel .item tokens

/-- The node that a text of one document holds. -/
def ofText? (text : String) : Option Yaml := do
  let tokens ← Token.ofText? text
  let (node, rest) ← readDocument tokens
  if rest.all (· == .documentEnd) then some node else none

end Yaml

end GraphQuery
