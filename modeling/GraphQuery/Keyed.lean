/-! Lists of entries in the order in which their keys first came, each key once. -/

namespace GraphQuery.Keyed

/-- Puts a value under a key: a key that is there keeps its place, a new one goes to the end. -/
def put {α : Type} (key : String) (value : α) : List (String × α) → List (String × α)
  | [] => [(key, value)]
  | (name, old) :: rest =>
    if name = key then (key, value) :: rest else (name, old) :: put key value rest

theorem lookup_entry {α : Type} (name key : String) (value : α) (entries : List (String × α)) :
    ((key, value) :: entries).lookup name = if name = key then some value else entries.lookup name := by
  by_cases h : name = key
  · simp [h]
  · have hb : (name == key) = false := beq_eq_false_iff_ne.mpr h
    simp [List.lookup_cons, h, hb]

/-- A value that is put under a key is found there, and nothing else changes. -/
theorem lookup_put {α : Type} (key name : String) (value : α) (entries : List (String × α)) :
    (put key value entries).lookup name = if name = key then some value else entries.lookup name := by
  induction entries with
  | nil => exact lookup_entry name key value []
  | cons entry rest ih =>
    obtain ⟨other, old⟩ := entry
    by_cases h : other = key
    · subst h
      by_cases hn : name = other <;> simp [put, lookup_entry, hn]
    · by_cases hn : name = other
      · simp [put, h, hn]
      · simp [put, lookup_entry, h, hn, ih]

/-- The entries of a list in which keys may repeat; the last value of a key counts. -/
def ofList {α : Type} (entries : List (String × α)) : List (String × α) :=
  entries.foldl (fun kept entry => put entry.1 entry.2 kept) []

end GraphQuery.Keyed
