import GraphQuery.Value.Basic

/-! Places in values. A path leads through members of objects and items of arrays to a value inside. -/

namespace GraphQuery

/-- A step into a value. -/
inductive Step where
  | member (key : String)
  | item (place : Nat)
deriving DecidableEq, Repr

namespace Value

/-- The value that a step leads to, where it leads anywhere. -/
def step? : Value → Step → Option Value
  | .object members, .member key => Members.get? key members
  | .array items, .item place => items[place]?
  | _, _ => none

/-- The value at the end of a path. -/
def at? (value : Value) : List Step → Option Value
  | [] => some value
  | step :: rest => (value.step? step).bind fun inner => inner.at? rest

variable {value inner : Value}

theorem at?_cons (value : Value) (step : Step) (rest : List Step) :
    value.at? (step :: rest) = (value.step? step).bind fun inner => inner.at? rest := by
  rw [at?]

theorem at?_cons_of_step {step : Step} (h : value.step? step = some inner) (rest : List Step) :
    value.at? (step :: rest) = inner.at? rest := by
  rw [at?, h, Option.bind_some]

/-- The places in an array are the places in its items. -/
theorem at?_array_iff {items : List Value} {places : List Nat} {members : Members} :
    (Value.array items).at? (places.map Step.item) = some (.object members) ↔
      ∃ place rest item, places = place :: rest ∧ items[place]? = some item ∧
        item.at? (rest.map Step.item) = some (.object members) := by
  cases places with
  | nil =>
      constructor
      · intro h
        cases h
      · rintro ⟨_, _, _, h, _⟩
        cases h
  | cons place rest =>
      rw [List.map_cons, at?_cons, step?, Option.bind_eq_some_iff]
      constructor
      · rintro ⟨item, hitem, hrest⟩
        exact ⟨place, rest, item, rfl, hitem, hrest⟩
      · rintro ⟨_, _, item, hsame, hitem, hrest⟩
        cases hsame
        exact ⟨item, hitem, hrest⟩

/-- Where a value is no array, its places are the value itself. -/
theorem at?_items_of_step (h : ∀ place, value.step? (.item place) = none) {places : List Nat} :
    value.at? (places.map Step.item) = some inner ↔ places = [] ∧ value = inner := by
  cases places with
  | nil => simp [at?]
  | cons place rest => simp [at?, h]

end Value

end GraphQuery
