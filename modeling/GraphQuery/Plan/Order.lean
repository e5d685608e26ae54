import GraphQuery.Plan.Basic

/-! Comparing values in plans: equality that takes whole numbers and doubles alike, an order within one
kind of values, and the sort by keys. -/

namespace GraphQuery.Value

/-- Equality of two numbers is that of their nearest doubles; any other two values are compared as
they are. -/
def looselyEqual : Value → Value → Bool
  | .number m, .number n => m.rank == n.rank
  | left, right => left == right

/-- Are these two numbers, two strings or two truth values? -/
def comparable : Value → Value → Bool
  | .number _, .number _ => true
  | .string _, .string _ => true
  | .bool _, .bool _ => true
  | _, _ => false

/-- The order of sort keys: null comes first, values of one comparable kind in their order, and any
two others count as equal. -/
def order : Value → Value → Ordering
  | .null, .null => .eq
  | .null, _ => .lt
  | _, .null => .gt
  | .number m, .number n => Ord.compare m.rank n.rank
  | .string s, .string t => Ord.compare s t
  | .bool a, .bool b => Ord.compare a.toNat b.toNat
  | _, _ => .eq

end GraphQuery.Value

namespace GraphQuery.Comparison

/-- The answer of a comparison; order is asked only within one comparable kind. -/
def holds (comparison : Comparison) (left right : Value) : Bool :=
  match comparison with
  | .eq => left.looselyEqual right
  | .ne => !left.looselyEqual right
  | .lt => left.comparable right && left.order right == .lt
  | .le => left.comparable right && left.order right != .gt
  | .gt => left.comparable right && left.order right == .gt
  | .ge => left.comparable right && left.order right != .lt

end GraphQuery.Comparison

namespace GraphQuery.Sort

/-- Puts an item into a sorted list that is held from its end: the item moves past those before which
it belongs and stops at the first other one. -/
def insertFromEnd {α : Type} (before : α → α → Bool) (item : α) : List α → List α
  | [] => [item]
  | last :: rest =>
    if before item last then last :: insertFromEnd before item rest else item :: last :: rest

/-- Sorts by inserting one item after the other; equal items keep their order. -/
def inserted {α : Type} (before : α → α → Bool) (items : List α) : List α :=
  (items.foldl (fun sorted item => insertFromEnd before item sorted) []).reverse

/-- Up to so many items are sorted by insertion. -/
def insertionLimit : Nat :=
  20

/-- Sorts, and equal items keep their order: a few items by insertion, more of them by merging sorted
halves. The two agree wherever the items stand in an order; they may not where keys of several kinds
count as equal. -/
def stable {α : Type} (before : α → α → Bool) (items : List α) : List α :=
  if items.length ≤ insertionLimit then inserted before items
  else items.mergeSort fun left right => !before right left

/-- Does an item of one key belong before an item of another? -/
def keyBefore (descending : Bool) (left right : Value) : Bool :=
  if descending then left.order right == .gt else left.order right == .lt

/-- Items with their keys, sorted by key. -/
def byKey (descending : Bool) (keyed : List (Value × Value)) : List (Value × Value) :=
  stable (fun left right => keyBefore descending left.1 right.1) keyed

end GraphQuery.Sort
