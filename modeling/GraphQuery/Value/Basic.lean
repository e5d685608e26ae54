import GraphQuery.Number.Basic

/-! JSON values. The members of an object are kept in the order of their keys with each key once, so
that two objects with the same members are the same list. -/

namespace GraphQuery

/-- A JSON value. -/
inductive Value where
  | null
  | bool (value : Bool)
  | number (value : Number)
  | string (text : String)
  | array (items : List Value)
  | object (members : List (String × Value))

/-- The members of an object. -/
abbrev Members := List (String × Value)

namespace Members

/-- The value under a key. -/
def get? (key : String) : Members → Option Value
  | [] => none
  | (name, value) :: rest => if name = key then some value else get? key rest

/-- Puts a value under a key, in place of an earlier one. -/
def insert (key : String) (value : Value) : Members → Members
  | [] => [(key, value)]
  | (name, old) :: rest =>
    if key = name then (key, value) :: rest
    else if key < name then (key, value) :: (name, old) :: rest
    else (name, old) :: insert key value rest

/-- A value that is inserted under a key is found there, and nothing else changes. -/
theorem get?_insert (key name : String) (value : Value) (members : Members) :
    get? name (insert key value members) = if name = key then some value else get? name members := by
  induction members with
  | nil => by_cases h : key = name <;> simp [insert, get?, h, eq_comm]
  | cons entry rest ih =>
    obtain ⟨other, old⟩ := entry
    unfold insert
    split
    · next h =>
      subst h
      by_cases hn : name = key
      · simp [get?, hn]
      · simp [get?, hn, Ne.symm hn]
    · next h =>
      split
      · by_cases hn : name = key
        · simp [get?, hn]
        · simp [get?, hn, Ne.symm hn]
      · by_cases hn : name = key
        · subst hn
          simp [get?, Ne.symm h, ih]
        · simp [get?, hn, ih]

/-- The members of a list of entries; the last entry of a key counts. -/
def ofList (entries : List (String × Value)) : Members :=
  entries.foldl (fun members entry => insert entry.1 entry.2 members) []

/-- Overlays members by others, which win. -/
def overlay (members others : Members) : Members :=
  others.foldl (fun merged entry => insert entry.1 entry.2 merged) members

end Members

namespace Value

instance : Inhabited Value :=
  ⟨.null⟩

/-- A whole number. -/
def int (i : Int) : Value :=
  .number (.int i)

/-- A count. -/
def nat (n : Nat) : Value :=
  .number (.int n)

/-- An object of entries; the last entry of a key counts. -/
def ofEntries (entries : List (String × Value)) : Value :=
  .object (Members.ofList entries)

def isNull : Value → Bool
  | .null => true
  | _ => false

def asBool? : Value → Option Bool
  | .bool b => some b
  | _ => none

def asNumber? : Value → Option Number
  | .number n => some n
  | _ => none

def asString? : Value → Option String
  | .string s => some s
  | _ => none

def asArray? : Value → Option (List Value)
  | .array items => some items
  | _ => none

def asObject? : Value → Option Members
  | .object members => some members
  | _ => none

/-- A whole number that fits 64 bits with a sign. -/
def asInt64? : Value → Option Int
  | .number n => n.toInt64?
  | _ => none

/-- The member of an object. -/
def get? (key : String) : Value → Option Value
  | .object members => Members.get? key members
  | _ => none

/-- The value, or nothing for null. -/
def nonNull? : Value → Option Value
  | .null => none
  | value => some value

mutual

/-- Equality of JSON values, which tells whole numbers from doubles at every depth. -/
protected def beq : Value → Value → Bool
  | .null, .null => true
  | .bool a, .bool b => a == b
  | .number m, .number n => m == n
  | .string s, .string t => s == t
  | .array xs, .array ys => beqItems xs ys
  | .object ms, .object ns => beqMembers ms ns
  | _, _ => false

/-- Equality item by item. -/
def beqItems : List Value → List Value → Bool
  | [], [] => true
  | x :: xs, y :: ys => x.beq y && beqItems xs ys
  | _, _ => false

/-- Equality member by member. -/
def beqMembers : List (String × Value) → List (String × Value) → Bool
  | [], [] => true
  | (k, x) :: ms, (l, y) :: ns => k == l && x.beq y && beqMembers ms ns
  | _, _ => false

end

instance : BEq Value :=
  ⟨Value.beq⟩

end Value

end GraphQuery
