import GraphQuery.Proofs.Query.Casting
import GraphQuery.Proofs.Query.Root
import GraphQuery.Proofs.Store.Documents

/-! What stores report of themselves. It decides the tier of plans, and with it the records that come back,
but not the response: two executions of a query that both succeed give the same answer, whatever the
stores report, where no selection is touched by casts. A query leaves the documents of the stores as they
are, so that both see the same ones. -/

namespace GraphQuery

/-- A world whose stores report other capabilities. -/
def World.reporting (world : World) (capabilities : String → Capabilities) : World :=
  { world with
    endpoints := world.endpoints.map fun entry =>
      (entry.1, { entry.2 with
        settings := { entry.2.settings with capabilities := capabilities entry.1 } }) }

/-- Connections to a world whose documents and ways to stores are as they were. -/
structure Connections.Serves (world : World) (connections : Connections) : Prop where
  endpoints : connections.world.endpoints = world.endpoints
  stores : connections.world.stores.length = world.stores.length
  collections : ∀ place,
    (connections.world.storeAt place).collections = (world.storeAt place).collections
  sessions : ∀ name endpoint, connections.sessions.lookup name = some endpoint →
    world.endpoint? name = some endpoint

namespace World

theorem endpoint?_reporting (world : World) (capabilities : String → Capabilities) (name : String) :
    (world.reporting capabilities).endpoint? name = (world.endpoint? name).map fun endpoint =>
      { endpoint with settings := { endpoint.settings with capabilities := capabilities name } } := by
  have hlookup (entries : List (String × Endpoint)) :
      (entries.map fun entry => (entry.1, { entry.2 with
        settings := { entry.2.settings with capabilities := capabilities entry.1 } })).lookup name =
      (entries.lookup name).map fun endpoint =>
        { endpoint with settings := { endpoint.settings with capabilities := capabilities name } } := by
    induction entries with
    | nil => rfl
    | cons entry rest ih =>
        obtain ⟨other, endpoint⟩ := entry
        rw [List.map_cons, Keyed.lookup_entry, Keyed.lookup_entry, ih]
        by_cases hname : name = other <;> simp [hname]
  rw [endpoint?, endpoint?, reporting, hlookup]
  cases world.endpoints.lookup name with
  | none => rfl
  | some endpoint =>
      simp only [Option.map_some, Option.filter_some]
      split <;> rfl

end World

namespace Connections

variable {world : World} {connections : Connections}

theorem serves_start (world : World) : (start world).Serves world :=
  ⟨rfl, rfl, fun _ => rfl, fun _ _ h => (by cases h)⟩

namespace Serves

/-- Putting a store back with the same documents leaves all as it was. -/
theorem setStore (h : connections.Serves world) {place : Nat} {store : Store}
    (hstore : store.collections = (connections.world.storeAt place).collections) :
    Serves world { connections with world := connections.world.setStore place store } where
  endpoints := h.endpoints
  stores := List.length_set.trans h.stores
  collections := by
    intro other
    dsimp only
    rw [World.storeAt_setStore]
    split
    · next hsame => rw [hstore, hsame.1, h.collections]
    · exact h.collections other
  sessions := h.sessions

theorem endpoint? (h : connections.Serves world) (name : String) :
    connections.world.endpoint? name = world.endpoint? name := by
  rw [World.endpoint?, World.endpoint?, h.endpoints, h.stores]

theorem session (h : connections.Serves world) {name : String} {answer : Except StoreError Endpoint}
    {opened : Connections} (hsession : connections.session name = (answer, opened)) :
    opened.Serves world ∧ ∀ endpoint, answer = .ok endpoint → world.endpoint? name = some endpoint := by
  unfold Connections.session at hsession
  cases hlookup : connections.sessions.lookup name with
  | some found =>
      rw [hlookup] at hsession
      cases hsession
      refine ⟨h, fun endpoint hanswer => ?_⟩
      cases hanswer
      exact h.sessions name found hlookup
  | none =>
      rw [hlookup] at hsession
      cases hfound : connections.world.endpoint? name with
      | none =>
          rw [hfound] at hsession
          cases hsession
          exact ⟨h, fun endpoint hanswer => (by cases hanswer)⟩
      | some found =>
          rw [hfound] at hsession
          cases hsession
          have hworld : world.endpoint? name = some found := by rw [← h.endpoint?, hfound]
          refine ⟨?_, fun endpoint hanswer => ?_⟩
          · have hset := @setStore _ _ h found.store
              (connections.world.storeAt found.store).openSession rfl
            refine ⟨hset.endpoints, hset.stores, hset.collections, ?_⟩
            intro other endpoint hother
            rw [List.lookup_append, Option.or_eq_some_iff] at hother
            rcases hother with hother | ⟨_, hother⟩
            · exact h.sessions other endpoint hother
            · rw [Keyed.lookup_entry] at hother
              split at hother
              · next hname =>
                  cases hother
                  rw [hname, hworld]
              · cases hother
          · cases hanswer
            exact hworld

theorem dispatch (h : connections.Serves world) (name : String) (plan : Plan) :
    (connections.dispatch name plan).2.Serves world ∧
      ∀ value, (connections.dispatch name plan).1 = .ok value → ∃ endpoint,
        world.endpoint? name = some endpoint ∧
        plan.run ((world.storeAt endpoint.store).source endpoint.settings) = .ok value := by
  cases hsession : connections.session name with
  | mk answer opened =>
      obtain ⟨hopened, hendpoint⟩ := h.session hsession
      unfold Connections.dispatch
      rw [hsession]
      cases answer with
      | error error => exact ⟨hopened, fun value hvalue => (by cases hvalue)⟩
      | ok endpoint =>
          have hset := @setStore _ _ hopened endpoint.store
            ((opened.world.storeAt endpoint.store).dispatch endpoint.settings plan).2 rfl
          refine ⟨⟨hset.endpoints, hset.stores, hset.collections, hset.sessions⟩, ?_⟩
          intro value hvalue
          refine ⟨endpoint, hendpoint endpoint rfl, ?_⟩
          rw [← Store.source_congr (hopened.collections endpoint.store) rfl]
          exact Store.run_of_dispatch hvalue

end Serves

end Connections

namespace Engine

/-- What the plans of a field are evaluated with where the stores of a world serve. -/
inductive Served (config : Config) (world : World) (field : Field) : Tier → Source → Prop where
  | inProcess (h : field.resolution = .unmodified) : Served config world field .enumerable .inProcess
  | store (h : field.resolution ≠ .unmodified) {tier : Tier} {endpoint : Endpoint}
      (hendpoint : world.endpoint? (storeOf config field) = some endpoint) :
      Served config world field tier ((world.storeAt endpoint.store).source endpoint.settings)

theorem resolves_of_query {config : Config} {world : World} {field : Field}
    (h : field.isMutation = false) :
    Resolves config (Connections.Serves world) (Served config world field) field where
  inProcess := .inProcess
  effect := by
    intro hmutation
    rw [h] at hmutation
    cases hmutation
  sent := fun _ _ hserves plan => (hserves.dispatch _ plan).1
  answered := by
    intro hresolution connections hserves capabilities _ plan value hvalue
    obtain ⟨endpoint, hendpoint, hrun⟩ := (hserves.dispatch _ plan).2 value hvalue
    exact ⟨_, .store hresolution hendpoint, hrun⟩

/-- What stores report has no part in what plans are evaluated with. -/
theorem Served.source_eq {config : Config} {world : World} {field : Field}
    {first second : String → Capabilities} {tier tier' : Tier} {source source' : Source}
    (h : Served config (world.reporting first) field tier source)
    (h' : Served config (world.reporting second) field tier' source') : source = source' := by
  cases h with
  | inProcess h =>
      cases h' with
      | inProcess => rfl
      | store hne => exact absurd h hne
  | store hne hendpoint =>
      cases h' with
      | inProcess h => exact absurd h hne
      | store _ hendpoint' =>
          rw [World.endpoint?_reporting, Option.map_eq_some_iff] at hendpoint hendpoint'
          obtain ⟨endpoint, hendpoint, rfl⟩ := hendpoint
          obtain ⟨endpoint', hendpoint', rfl⟩ := hendpoint'
          cases hendpoint.symm.trans hendpoint'
          rfl

/-- Answers of one root selection from two worlds that differ in what their stores report are the same. -/
theorem Answers.unique {schema : Schema} (hschema : schema.WellFormed)
    (hhierarchy : schema.Hierarchical) {config : Config} {data? : Option Value} {world : World}
    {first second : String → Capabilities} {selection : BoundSelection}
    (hquery : (schema.field selection.field).isMutation = false)
    (htarget : (schema.field selection.field).target < schema.types.length)
    (hbound : schema.Bound (schema.field selection.field).target selection.children)
    (huntouched : schema.Throughout (schema.Untouched data?) (schema.field selection.field).target
      selection.children) {a b : Value}
    (h : Answers schema data? (Served config (world.reporting first) (schema.field selection.field))
      selection a)
    (h' : Answers schema data? (Served config (world.reporting second) (schema.field selection.field))
      selection b) : a = b := by
  cases h with
  | typename htypename =>
      cases h' with
      | typename => rfl
      | post hother => simp_all
      | plan hother => simp_all
  | post htypename hpost hrendered =>
      cases h' with
      | typename hother => simp_all
      | post _ _ hrendered' => exact Except.ok.inj (hrendered.symm.trans hrendered')
      | plan _ hother => simp_all
  | plan htypename hpost hresult hplan hserved hcompiled hraw hrendered =>
      cases h' with
      | typename hother => simp_all
      | post _ hother => simp_all
      | plan _ _ hresult' hplan' hserved' hcompiled' hraw' hrendered' =>
          rw [hresult hquery] at hplan
          rw [hresult' hquery, hplan, Except.ok.injEq] at hplan'
          subst hplan'
          cases hserved.source_eq hserved'
          have hagree := @Plan.AgreesOn.refl (fun _ => True)
          obtain ⟨hleaf, hcomposite⟩ := Compiler.compose_shown (hagree _) hcompiled hcompiled' trivial
            (fun record record' hrecord hrecord' row members members' hrow hrow' =>
              Renderer.renderRow_of_tiers hschema hhierarchy _ htarget hbound hbound huntouched
                huntouched hrecord hrecord' hrow hrow') hraw hraw'
          unfold Renderer.renderField at hrendered hrendered'
          cases htype : (schema.type (schema.field selection.field).target).isLeaf with
          | true =>
              rw [hleaf htype] at hrendered
              exact Except.ok.inj (hrendered.symm.trans hrendered')
          | false =>
              simp only [htype, Bool.false_eq_true, if_false] at hrendered hrendered'
              rw [hcomposite htype] at hrendered
              exact Except.ok.inj (hrendered.symm.trans hrendered')

/-- Two successful executions of a query whose selections no cast touches have one answer, whatever the
stores report of themselves. -/
theorem execute_reporting_unique {engine : Engine} {schema : Schema}
    (hsome : engine.schema? = some schema) (hcompleted : schema.Completed) {document : Document}
    {request : Request} {selections : List BoundSelection}
    (hbind : engine.bind document request = .ok selections)
    (hquery : ∀ selection ∈ selections, (schema.field selection.field).isMutation = false)
    (huntouched : ∀ selection ∈ selections, schema.Throughout (schema.Untouched request.data?)
      (schema.field selection.field).target selection.children)
    (world : World) (first second : String → Capabilities) {a b : Value}
    (ha : (engine.execute document request (world.reporting first)).answer = .ok a)
    (hb : (engine.execute document request (world.reporting second)).answer = .ok b) : a = b := by
  have hschema := hcompleted.wellFormed
  obtain ⟨root, hbound⟩ := exists_bound hsome hschema hbind
  obtain ⟨shown, rfl, hshown⟩ := execute_ok hsome hbind (Connections.serves_start _)
    (fun selection hmem => resolves_of_query (hquery selection hmem)) ha
  obtain ⟨shown', rfl, hshown'⟩ := execute_ok hsome hbind (Connections.serves_start _)
    (fun selection hmem => resolves_of_query (hquery selection hmem)) hb
  refine congrArg Value.ofEntries (hshown.unique hshown' fun selection hfirst a b ha hb => ?_)
  have hmem := (Keyed.mem_firsts hfirst).1
  exact Answers.unique hschema hcompleted.hierarchical (hquery selection hmem)
    (hschema.target_lt _ (hbound.field_mem hschema hmem)) (hbound.children selection hmem)
    (huntouched selection hmem) ha hb

/-- The animals of a kennel and whether they bark, without casts and with them: what the animal without
a shape has is in the records of the strict tier only, and in no response. -/
theorem kennel_barks_unique :
    let engine : Engine := ⟨some .kennel, .standard⟩
    let document := kennelQuery [.field none "id" [] [],
      .inline (some "Dog") [.field none "barks" [] []]]
    ∃ selections, engine.bind document .plain = .ok selections ∧
      (∀ selection ∈ selections, (Schema.kennel.field selection.field).isMutation = false) ∧
      (∀ selection ∈ selections, Schema.kennel.Throughout (Schema.kennel.Untouched none)
        (Schema.kennel.field selection.field).target selection.children) ∧
      ∃ a b, (engine.execute document .plain
          (kennelWorld.reporting fun _ => .strictTyped)).answer = .ok a ∧
        (engine.execute document .plain
          (kennelWorld.reporting fun _ => .enumerable)).answer = .ok b ∧ a = b := by
  intro engine document
  have hconcrete : (engine.bind document .plain).isOk = true ∧
      (∀ selection ∈ (engine.bind document .plain).toOption.getD [],
        (Schema.kennel.field selection.field).isMutation = false ∧
        Schema.kennel.Throughout (fun owner selection => Schema.kennel.Declared owner selection ∧
          (Schema.kennel.field selection.field).isMember = true)
          (Schema.kennel.field selection.field).target selection.children) ∧
      (engine.execute document .plain
        (kennelWorld.reporting fun _ => .strictTyped)).answer.isOk = true ∧
      (engine.execute document .plain
        (kennelWorld.reporting fun _ => .enumerable)).answer.isOk = true := by
    decide +kernel
  obtain ⟨hbound, hall, hstrict, henumerable⟩ := hconcrete
  obtain ⟨selections, hbind⟩ := Outcome.exists_of_isOk hbound
  obtain ⟨a, ha⟩ := Outcome.exists_of_isOk hstrict
  obtain ⟨b, hb⟩ := Outcome.exists_of_isOk henumerable
  rw [hbind] at hall
  have huntouched (selection : BoundSelection) (hmem : selection ∈ selections) :
      Schema.kennel.Throughout (Schema.kennel.Untouched none)
        (Schema.kennel.field selection.field).target selection.children := by
    refine (hall selection hmem).2.mono fun owner selection h => ⟨h.1, fun _ hmember => ?_⟩
    rw [h.2] at hmember
    cases hmember
  have hquery := fun selection hmem => (hall selection hmem).1
  exact ⟨selections, hbind, hquery, huntouched, a, b, ha, hb, execute_reporting_unique rfl
    Schema.kennel_completed hbind hquery huntouched kennelWorld _ _ ha hb⟩

/-- The number of toys that the dog of the kennel shows. -/
def kennelToys (response : Value) : Option Nat := do
  let animals ← (response.get? "animals").bind Value.asArray?
  let dog ← animals[1]?
  let toys ← (dog.get? "toys").bind Value.asArray?
  pure toys.length

/-- The toys of a dog are found by a plan that gets the row of the dog as it is, and uses it inside a
filter of its own. There the row is a toy: without casts the toy is compared with itself, and with casts
it is no dog and has no number. -/
theorem kennel_toys_differ :
    let engine : Engine := ⟨some .kennel, .standard⟩
    let document := kennelQuery [.inline (some "Dog") [.field none "toys" [] [.field none "label" [] []]]]
    Schema.kennel.Completed ∧ ∃ selections, engine.bind document .plain = .ok selections ∧
      (∀ selection ∈ selections, (Schema.kennel.field selection.field).isMutation = false) ∧
      Schema.kennel.Throughout Schema.kennel.Declared Schema.kennel.query selections ∧
      ∃ a b c, (engine.execute document .plain
          (kennelWorld.reporting fun _ => .strictTyped)).answer = .ok a ∧
        (engine.execute document .plain
          (kennelWorld.reporting fun _ => .enumerable)).answer = .ok b ∧
        (engine.execute document .plain
          (kennelWorld.reporting fun _ => .default)).answer = .ok c ∧
        kennelToys a = some 1 ∧ kennelToys b = some 0 ∧ kennelToys c = some 0 := by
  intro engine document
  let answer (capabilities : Capabilities) : Except EngineError Value :=
    (engine.execute document .plain (kennelWorld.reporting fun _ => capabilities)).answer
  have hconcrete : (engine.bind document .plain).isOk = true ∧
      (∀ selection ∈ (engine.bind document .plain).toOption.getD [],
        (Schema.kennel.field selection.field).isMutation = false) ∧
      Schema.kennel.Throughout Schema.kennel.Declared Schema.kennel.query
        ((engine.bind document .plain).toOption.getD []) ∧
      (answer .strictTyped).toOption.map kennelToys = some (some 1) ∧
      (answer .enumerable).toOption.map kennelToys = some (some 0) ∧
      (answer .default).toOption.map kennelToys = some (some 0) := by
    decide +kernel
  obtain ⟨hbound, hquery, hdeclared, hstrict, henumerable, hdefault⟩ := hconcrete
  obtain ⟨selections, hbind⟩ := Outcome.exists_of_isOk hbound
  rw [hbind] at hquery hdeclared
  obtain ⟨a, ha, htoys⟩ := Option.map_eq_some_iff.mp hstrict
  obtain ⟨b, hb, htoys'⟩ := Option.map_eq_some_iff.mp henumerable
  obtain ⟨c, hc, htoys''⟩ := Option.map_eq_some_iff.mp hdefault
  exact ⟨Schema.kennel_completed, selections, hbind, hquery, hdeclared, a, b, c,
    Outcome.ok_of_toOption ha, Outcome.ok_of_toOption hb, Outcome.ok_of_toOption hc, htoys, htoys',
    htoys''⟩

end Engine

end GraphQuery
