import GraphQuery.Proofs.Store.Documents

/-! The counts of stores, of the plans that were sent to them and of the sessions that are open on them.
An action edits collections, so that it leaves all counts as they are. -/

namespace GraphQuery

namespace World

/-- The number of plans that were sent to the stores of a world. -/
def dispatches (world : World) : Nat :=
  world.stores.foldr (fun store others => store.dispatches + others) 0

/-- The number of sessions that are open on the store at a place. -/
def openAt (world : World) (place : Nat) : Nat :=
  (world.storeAt place).openSessions

theorem dispatches_setStore (world : World) {place : Nat} (h : place < world.stores.length)
    (store : Store) : (world.setStore place store).dispatches + (world.storeAt place).dispatches =
      world.dispatches + store.dispatches := by
  obtain ⟨stores, ways⟩ := world
  change (stores.set place store).foldr _ 0 + (stores.getD place .empty).dispatches =
    stores.foldr _ 0 + store.dispatches
  induction stores generalizing place with
  | nil => cases h
  | cons first rest ih =>
      cases place with
      | zero =>
          simp only [List.set_cons_zero, List.foldr_cons, List.getD_cons_zero]
          omega
      | succ place =>
          have hrest := ih (Nat.lt_of_succ_lt_succ h)
          simp only [List.set_cons_succ, List.foldr_cons, List.getD_cons_succ]
          omega

/-- A store that was sent as many plans leaves their number as it was. -/
theorem dispatches_setStore_of_eq (world : World) (place : Nat) {store : Store}
    (h : store.dispatches = (world.storeAt place).dispatches) :
    (world.setStore place store).dispatches = world.dispatches := by
  by_cases hplace : place < world.stores.length
  · have hsum := world.dispatches_setStore hplace store
    omega
  · rw [setStore, List.set_eq_of_length_le (Nat.le_of_not_lt hplace)]

theorem openAt_setStore (world : World) (place other : Nat) (store : Store) :
    (world.setStore place store).openAt other =
      if other = place ∧ place < world.stores.length then store.openSessions else world.openAt other := by
  rw [openAt, storeAt_setStore]
  split <;> rfl

/-- A store on which as many sessions are open leaves their number as it was everywhere. -/
theorem openAt_setStore_of_eq (world : World) (place other : Nat) {store : Store}
    (h : store.openSessions = world.openAt place) :
    (world.setStore place store).openAt other = world.openAt other := by
  rw [openAt_setStore]
  split
  · next hplace => rw [h, hplace.1]
  · rfl

/-- A world with as many open sessions at each place and as many plans sent to its stores. -/
structure SameCounts (world other : World) : Prop where
  endpoints : world.endpoints = other.endpoints
  stores : world.stores.length = other.stores.length
  openAt : ∀ place, world.openAt place = other.openAt place
  dispatches : world.dispatches = other.dispatches

/-- An action leaves all counts as they are. -/
theorem sameCounts_run (world : World) (action : Action) : (action.run world).2.SameCounts world := by
  have hedit (current : World) (place : Nat) (edited : Store) (h : current.SameCounts world)
      (hedits : (current.storeAt place).Edits edited) : (current.setStore place edited).SameCounts world := by
    refine ⟨h.endpoints, List.length_set.trans h.stores, fun other => ?_, ?_⟩
    · rw [current.openAt_setStore_of_eq place other hedits.openSessions, h.openAt]
    · rw [current.dispatches_setStore_of_eq place hedits.dispatches, h.dispatches]
  exact action.run_keeps hedit world ⟨rfl, rfl, fun _ => rfl, rfl⟩

end World

end GraphQuery
