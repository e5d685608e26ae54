/-! Names of a schema: a letter or an underscore, then letters, digits and underscores, all ASCII. -/

namespace GraphQuery.Text

def isNameStart (c : Char) : Bool :=
  c.isAlpha || c == '_'

def isNamePart (c : Char) : Bool :=
  c.isAlphanum || c == '_'

/-- Is this text a name? -/
def isNameChars : List Char → Bool
  | [] => false
  | first :: rest => isNameStart first && rest.all isNamePart

def isName (s : String) : Bool :=
  isNameChars s.toList

/-- Names with two underscores in front belong to introspection. -/
def isReserved (s : String) : Bool :=
  match s.toList with
  | '_' :: '_' :: _ => true
  | _ => false

end GraphQuery.Text
