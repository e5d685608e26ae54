import GraphQuery.Proofs.Outcome
import GraphQuery.Store.Action
import Mathlib.Data.Option.Basic

/-! The documents of stores. Logs of plans and counts of sessions change with every plan that is sent, but
no plan and no action can see them: on worlds with the same documents behind the same names, plans have the
same answers, and actions have the same results and leave worlds with the same documents. All that an action
does to a world is to edit the collections of its stores. -/

namespace GraphQuery

namespace World

theorem storeAt_setStore (world : World) (place other : Nat) (store : Store) :
    (world.setStore place store).storeAt other =
      if other = place ∧ place < world.stores.length then store else world.storeAt other := by
  simp only [storeAt, setStore, List.getD_eq_getElem?_getD, List.getElem?_set]
  split <;> rename_i h
  · subst h
    split <;> simp_all
  · rw [if_neg fun hsame => h hsame.1.symm]

/-- Two worlds with the same ways to stores of the same documents. -/
structure SameDocuments (world other : World) : Prop where
  endpoints : world.endpoints = other.endpoints
  stores : world.stores.length = other.stores.length
  collections : ∀ place, (world.storeAt place).collections = (other.storeAt place).collections

/-- What the store of a name answers to a plan that is sent to it. -/
def answer (world : World) (name : String) (plan : Plan) : Except StoreError Value :=
  match world.endpoint? name with
  | some endpoint => ((world.storeAt endpoint.store).dispatch endpoint.settings plan).1
  | none => .error (.unknownStore name)

end World

/-- An operation on stores that finds and changes nothing but documents. -/
def Store.OnDocuments {α : Type} (operation : Store → α × Store) : Prop :=
  ∀ store other : Store, store.collections = other.collections →
    (operation store).1 = (operation other).1 ∧
      (operation store).2.collections = (operation other).2.collections

namespace Store

variable {store other : Store} (h : store.collections = other.collections)

include h

theorem source_congr {settings others : StoreSettings} (hcontext : settings.context = others.context) :
    store.source settings = other.source others := by
  simp only [source, hcontext]
  congr 1
  funext name
  rw [documents, documents, h]

/-- Stores with the same documents answer alike. -/
theorem dispatch_congr (settings : StoreSettings) (plan : Plan) :
    (store.dispatch settings plan).1 = (other.dispatch settings plan).1 := by
  show (if _ then _ else _) = (if _ then _ else _)
  rw [source_congr h rfl]

omit h

theorem onDocuments_insert (collection : String) (document : Value) :
    OnDocuments fun store => ((), store.insert collection document) := by
  intro store other h
  exact ⟨rfl, by simp only [insert, seed, h]⟩

theorem onDocuments_find (collection : String) (id : Value) :
    OnDocuments fun store => (store.find? collection id, store) := by
  intro store other h
  exact ⟨by simp only [find?, h], h⟩

/-- Both changes of documents by their id are steps on the documents of one collection. -/
theorem onDocuments_change {operation : Store → Option Value × Store} (collection : String)
    (step : List Value → Option (Value × List Value))
    (hoperation : ∀ store, operation store = match (store.collections.lookup collection).bind step with
      | some (found, documents) => (some found, store.seed collection documents)
      | none => (none, store)) : OnDocuments operation := by
  intro store other h
  rw [hoperation, hoperation, h]
  cases (other.collections.lookup collection).bind step with
  | none => exact ⟨rfl, h⟩
  | some changed => exact ⟨rfl, by simp only [seed, h]⟩

theorem onDocuments_update (collection : String) (id patch : Value) :
    OnDocuments fun store => store.update collection id patch :=
  onDocuments_change collection (Documents.patchFirst id patch) fun _ => rfl

theorem onDocuments_remove (collection : String) (id : Value) :
    OnDocuments fun store => store.remove collection id :=
  onDocuments_change collection (Documents.removeFirst id) fun _ => rfl

end Store

namespace World.SameDocuments

variable {world other : World}

theorem refl (world : World) : world.SameDocuments world :=
  ⟨rfl, rfl, fun _ => rfl⟩

theorem trans {third : World} (h : world.SameDocuments other) (hother : other.SameDocuments third) :
    world.SameDocuments third :=
  ⟨h.endpoints.trans hother.endpoints, h.stores.trans hother.stores,
    fun place => (h.collections place).trans (hother.collections place)⟩

variable (h : world.SameDocuments other)

include h

theorem symm : other.SameDocuments world :=
  ⟨h.endpoints.symm, h.stores.symm, fun place => (h.collections place).symm⟩

theorem endpoint? (name : String) : world.endpoint? name = other.endpoint? name := by
  rw [World.endpoint?, World.endpoint?, h.endpoints, h.stores]

theorem capabilities (name : String) : world.capabilities name = other.capabilities name := by
  rw [World.capabilities, World.capabilities, h.endpoint?]

theorem setStore (place : Nat) {store store' : Store} (hstore : store.collections = store'.collections) :
    (world.setStore place store).SameDocuments (other.setStore place store') where
  endpoints := h.endpoints
  stores := by simp only [World.setStore, List.length_set, h.stores]
  collections := by
    intro place'
    rw [storeAt_setStore, storeAt_setStore, h.stores]
    split
    · exact hstore
    · exact h.collections place'

/-- Worlds with the same documents answer plans alike. -/
theorem answer (name : String) (plan : Plan) : world.answer name plan = other.answer name plan := by
  rw [World.answer, World.answer, h.endpoint?]
  cases other.endpoint? name with
  | none => rfl
  | some endpoint => exact Store.dispatch_congr (h.collections endpoint.store) endpoint.settings plan

theorem operate? {α : Type} {operation : Store → α × Store} (hoperation : Store.OnDocuments operation)
    (name : String) :
    Option.Rel (fun a b : α × World => a.1 = b.1 ∧ a.2.SameDocuments b.2) (world.operate? name operation)
      (other.operate? name operation) := by
  rw [World.operate?, World.operate?, h.endpoint?]
  cases other.endpoint? name with
  | none => exact .none
  | some endpoint =>
      obtain ⟨hresult, hstore⟩ := hoperation _ _ (h.collections endpoint.store)
      exact .some ⟨hresult, h.setStore endpoint.store hstore⟩

end World.SameDocuments

/-- A store that differs from another one in its collections at most. -/
structure Store.Edits (store edited : Store) : Prop where
  plans : edited.plans = store.plans
  dispatches : edited.dispatches = store.dispatches
  openSessions : edited.openSessions = store.openSessions

namespace Store

theorem edits_change {operation : Store → Option Value × Store} (collection : String)
    (step : List Value → Option (Value × List Value))
    (hoperation : ∀ store, operation store = match (store.collections.lookup collection).bind step with
      | some (found, documents) => (some found, store.seed collection documents)
      | none => (none, store)) (store : Store) : store.Edits (operation store).2 := by
  rw [hoperation]
  cases (store.collections.lookup collection).bind step <;> exact ⟨rfl, rfl, rfl⟩

theorem edits_update (collection : String) (id patch : Value) (store : Store) :
    store.Edits (store.update collection id patch).2 :=
  edits_change collection (Documents.patchFirst id patch) (fun _ => rfl) store

theorem edits_remove (collection : String) (id : Value) (store : Store) :
    store.Edits (store.remove collection id).2 :=
  edits_change collection (Documents.removeFirst id) (fun _ => rfl) store

end Store

namespace Action

open World (SameDocuments)

/-- What comes of an operation on the store of a name and of the action after it. -/
def runAfter {α : Type} (name : String) (operation : Store → α × Store) (next : α → Action)
    (world : World) : Except String Value × World :=
  match world.operate? name operation with
  | some (found, changed) => (next found).run changed
  | none => withoutStore name world

theorem run_insert (name collection : String) (document : Value) (next : Action) (world : World) :
    (insert name collection document next).run world =
      runAfter name (fun store => ((), store.insert collection document)) (fun _ => next) world := by
  rw [run, runAfter]
  cases world.operate? name fun store => ((), store.insert collection document) <;> rfl

theorem run_find (name collection : String) (id : Value) (next : Option Value → Action) (world : World) :
    (find name collection id next).run world =
      runAfter name (fun store => (store.find? collection id, store)) next world := by
  rw [run, runAfter]
  cases world.operate? name fun store => (store.find? collection id, store) <;> rfl

theorem run_update (name collection : String) (id patch : Value) (next : Option Value → Action)
    (world : World) : (update name collection id patch next).run world =
      runAfter name (fun store => store.update collection id patch) next world := by
  rw [run, runAfter]
  cases world.operate? name fun store => store.update collection id patch <;> rfl

theorem run_remove (name collection : String) (id : Value) (next : Option Value → Action)
    (world : World) : (remove name collection id next).run world =
      runAfter name (fun store => store.remove collection id) next world := by
  rw [run, runAfter]
  cases world.operate? name fun store => store.remove collection id <;> rfl

theorem runAfter_same {α : Type} {world other : World} (h : world.SameDocuments other) (name : String)
    {operation : Store → α × Store} (hoperation : Store.OnDocuments operation) {next : α → Action}
    (hnext : ∀ found {world other : World}, world.SameDocuments other →
      ((next found).run world).1 = ((next found).run other).1 ∧
        ((next found).run world).2.SameDocuments ((next found).run other).2) :
    (runAfter name operation next world).1 = (runAfter name operation next other).1 ∧
      (runAfter name operation next world).2.SameDocuments (runAfter name operation next other).2 := by
  have hsame := h.operate? hoperation name
  unfold runAfter
  generalize world.operate? name operation = one at hsame
  generalize other.operate? name operation = two at hsame
  cases hsame with
  | none => exact ⟨rfl, h⟩
  | @some a b hchanged =>
      obtain ⟨hfound, hdocuments⟩ := hchanged
      dsimp only
      rw [hfound]
      exact hnext b.1 hdocuments

/-- An action has the same result on the same documents, and leaves the same documents. -/
theorem run_same (action : Action) : ∀ {world other : World}, world.SameDocuments other →
    (action.run world).1 = (action.run other).1 ∧
      (action.run world).2.SameDocuments (action.run other).2 := by
  induction action with
  | done result => exact fun h => ⟨rfl, h⟩
  | insert name collection document next ih =>
      intro world other h
      rw [run_insert, run_insert]
      exact runAfter_same h name (Store.onDocuments_insert collection document)
        fun _ => ih
  | find name collection id next ih =>
      intro world other h
      rw [run_find, run_find]
      exact runAfter_same h name (Store.onDocuments_find collection id) ih
  | update name collection id patch next ih =>
      intro world other h
      rw [run_update, run_update]
      exact runAfter_same h name (Store.onDocuments_update collection id patch) ih
  | remove name collection id next ih =>
      intro world other h
      rw [run_remove, run_remove]
      exact runAfter_same h name (Store.onDocuments_remove collection id) ih

/-- What holds of a world when a store is edited holds of it after every action. -/
theorem run_keeps {holds : World → Prop}
    (hedit : ∀ (world : World) (place : Nat) (edited : Store), holds world →
      (world.storeAt place).Edits edited → holds (world.setStore place edited))
    (action : Action) : ∀ world, holds world → holds (action.run world).2 := by
  have hafter {α : Type} (name : String) (operation : Store → α × Store) {next : α → Action}
      (hoperation : ∀ store : Store, store.Edits (operation store).2)
      (ih : ∀ found world, holds world → holds ((next found).run world).2) (world : World)
      (hworld : holds world) : holds (runAfter name operation next world).2 := by
    unfold runAfter World.operate?
    cases world.endpoint? name with
    | none => exact hworld
    | some endpoint => exact ih _ _ (hedit world endpoint.store _ hworld (hoperation _))
  induction action with
  | done result => exact fun _ hworld => hworld
  | insert name collection document next ih =>
      intro world
      rw [run_insert]
      exact hafter name _ (fun _ => ⟨rfl, rfl, rfl⟩) (fun _ => ih) world
  | find name collection id next ih =>
      intro world
      rw [run_find]
      exact hafter name _ (fun _ => ⟨rfl, rfl, rfl⟩) ih world
  | update name collection id patch next ih =>
      intro world
      rw [run_update]
      exact hafter name _ (Store.edits_update collection id patch) ih world
  | remove name collection id next ih =>
      intro world
      rw [run_remove]
      exact hafter name _ (Store.edits_remove collection id) ih world

/-- The ways to stores are out of the reach of actions. -/
theorem run_ways (action : Action) (world : World) : (action.run world).2.endpoints = world.endpoints ∧
    (action.run world).2.stores.length = world.stores.length := by
  refine @run_keeps (fun other => other.endpoints = world.endpoints ∧
    other.stores.length = world.stores.length) ?_ action world ⟨rfl, rfl⟩
  rintro current place edited ⟨hways, hstores⟩ _
  exact ⟨hways, List.length_set.trans hstores⟩

end Action

end GraphQuery
