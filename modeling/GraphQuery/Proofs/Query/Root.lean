import GraphQuery.Proofs.Keyed
import GraphQuery.Proofs.Query.Failure
import GraphQuery.Query.Execution

/-! The root of a response. A response holds, for each key, what the first root selection of that key
answers: the name of a type, the value of a post field, or the records of a plan that was evaluated
against some source, here or at a store. -/

namespace GraphQuery

/-- A store answers with the value of the plan sent to it. -/
theorem Store.run_of_dispatch {store : Store} {settings : StoreSettings} {plan : Plan} {value : Value}
    (h : (store.dispatch settings plan).1 = .ok value) : plan.run (store.source settings) = .ok value := by
  change (if _ then _ else _) = _ at h
  split at h
  · cases h
  · exact h

theorem Connections.run_of_dispatch {connections : Connections} {name : String} {plan : Plan}
    {value : Value} (h : (connections.dispatch name plan).1 = .ok value) :
    ∃ source, plan.run source = .ok value := by
  unfold Connections.dispatch at h
  split at h
  · cases h
  · exact ⟨_, Store.run_of_dispatch h⟩

namespace Engine

open Outcome (Ensures)

/-- What a root selection may answer, by the tiers and sources that its field may be evaluated with. -/
inductive Answers (schema : Schema) (data? : Option Value) (reaches : Tier → Source → Prop)
    (selection : BoundSelection) : Value → Prop where
  | typename (htypename : (schema.field selection.field).isTypename = true) :
      Answers schema data? reaches selection
        (.string (schema.type (schema.field selection.field).declaring).name)
  | post {value : Value} (htypename : (schema.field selection.field).isTypename = false)
      (hpost : (schema.field selection.field).isPost = true)
      (hrendered : (Renderer.renderPost ⟨schema, data?⟩ (schema.field selection.field)
        selection).outcome = .ok value) : Answers schema data? reaches selection value
  | plan {result? : Option Value} {plan compiled : Plan} {tier : Tier} {source : Source}
      {raw value : Value} (htypename : (schema.field selection.field).isTypename = false)
      (hpost : (schema.field selection.field).isPost = false)
      (hresult : (schema.field selection.field).isMutation = false → result? = none)
      (hplan : ((schema.field selection.field).tracedPlan ⟨.context, result?, data?⟩
        selection.arguments).outcome = .ok plan)
      (hreaches : reaches tier source)
      (hcompiled : (Compiler.compose ⟨schema, tier, data?⟩ (schema.field selection.field) plan
        selection.children 1).outcome = .ok compiled)
      (hraw : compiled.run source = .ok raw)
      (hrendered : (Renderer.renderField ⟨schema, data?⟩ (schema.field selection.field)
        selection.children raw).outcome = .ok value) : Answers schema data? reaches selection value

/-- The store that a field is sent to. -/
abbrev storeOf (config : Config) (field : Field) : String :=
  field.store?.getD config.defaultStore

/-- Connections that keep a condition while a field is resolved, and what the plans of the field are
evaluated with meanwhile. -/
structure Resolves (config : Config) (holds : Connections → Prop) (reaches : Tier → Source → Prop)
    (field : Field) : Prop where
  inProcess : field.resolution = .unmodified → reaches .enumerable .inProcess
  effect : field.isMutation = true → ∀ connections, holds connections →
    ∀ world, holds { connections with world := world }
  sent : field.resolution ≠ .unmodified → ∀ connections, holds connections → ∀ plan,
    holds (connections.dispatch (storeOf config field) plan).2
  answered : field.resolution ≠ .unmodified → ∀ connections, holds connections → ∀ capabilities,
    connections.world.capabilities (storeOf config field) = .ok capabilities → ∀ plan value,
      (connections.dispatch (storeOf config field) plan).1 = .ok value →
      ∃ source, reaches (.ofCapabilities capabilities) source ∧ plan.run source = .ok value

section

variable {schema : Schema} {config : Config} {data? : Option Value} {holds : Connections → Prop}
  {reaches : Tier → Source → Prop}

/-- A step of an execution that keeps a condition on the connections. -/
abbrev Keeps {α : Type} (holds : Connections → Prop) (post : α → Prop) (step : Execution α) : Prop :=
  Ensures (fun run : Run => holds run.connections) post (fun _ => True) step

theorem keeps_ofTraced {α : Type} (traced : Traced α) :
    Keeps holds (fun value => traced.outcome = .ok value) (Execution.ofTraced traced) := by
  intro run hrun
  refine ⟨hrun, ?_⟩
  change Outcome.Meets _ _ traced.outcome
  cases traced.outcome with
  | ok value => exact rfl
  | error error => exact trivial

theorem keeps_effectResult {field : Field} (arguments : Arguments)
    (h : Resolves config holds reaches field) :
    Keeps holds (fun result? => field.isMutation = false → result? = none)
      (effectResult field arguments) := by
  unfold effectResult
  split
  · next effect read? hresolver =>
      have hmutation : field.isMutation = true := by rw [Field.isMutation, hresolver]
      have heffect : Keeps holds (fun _ => True) (Execution.runEffect field effect arguments) := by
        intro run hrun
        refine ⟨h.effect hmutation _ hrun _, ?_⟩
        change Outcome.Meets _ _ (((effect arguments).run run.connections.world).1.mapError
          (EngineError.resolver field.name))
        cases ((effect arguments).run run.connections.world).1 <;> exact trivial
      refine heffect.bind fun result _ => Ensures.pure fun hnone => ?_
      rw [hmutation] at hnone
      cases hnone
  · exact Ensures.pure fun _ => rfl

theorem run_ofTraced {α : Type} (traced : Traced α) (run : Run) :
    (Execution.ofTraced traced).run run =
      (traced.outcome, { run with calls := run.calls ++ traced.calls }) := rfl

theorem run_capabilities (store : String) (run : Run) : (Execution.capabilities store).run run =
    ((run.connections.world.capabilities store).mapError .backend, run) := rfl

theorem run_dispatch (store : String) (plan : Plan) (run : Run) : (Execution.dispatch store plan).run run =
    ((run.connections.dispatch store plan).1.mapError .backend,
      { run with connections := (run.connections.dispatch store plan).2 }) := rfl

/-- What is fetched for a field is the value of what is composed from its plan. -/
theorem keeps_fetch {field : Field} (plan : Plan) (children : List BoundSelection)
    (h : Resolves config holds reaches field) :
    Keeps holds (fun raw => ∃ tier source compiled, reaches tier source ∧
      (Compiler.compose ⟨schema, tier, data?⟩ field plan children 1).outcome = .ok compiled ∧
      compiled.run source = .ok raw) (fetch schema config data? field plan children) := by
  unfold fetch
  split
  · next hresolution =>
      refine (keeps_ofTraced _).bind fun compiled hcompiled => ?_
      intro run hrun
      refine ⟨hrun, ?_⟩
      change Outcome.Meets _ _ ((compiled.run .inProcess).mapError EngineError.backend)
      cases hraw : compiled.run .inProcess with
      | error error => exact trivial
      | ok raw => exact ⟨_, _, compiled, h.inProcess hresolution, hcompiled, hraw⟩
  · next hresolution =>
      intro run hrun
      -- the store tells its capabilities and takes the plan over the same connections
      dsimp only
      rw [Outcome.run_bind, run_capabilities]
      cases hcapabilities : run.connections.world.capabilities (storeOf config field) with
      | error error => exact ⟨hrun, trivial⟩
      | ok capabilities =>
          simp only [Except.mapError, Outcome.run_bind, run_ofTraced]
          cases hcompiled : (Compiler.compose ⟨schema, .ofCapabilities capabilities, data?⟩ field plan
              children 1).outcome with
          | error error => exact ⟨hrun, trivial⟩
          | ok compiled =>
              simp only [run_dispatch]
              refine ⟨h.sent hresolution _ hrun compiled, ?_⟩
              cases hraw : (run.connections.dispatch (storeOf config field) compiled).1 with
              | error error => exact trivial
              | ok raw =>
                  obtain ⟨source, hreaches, hrun⟩ :=
                    h.answered hresolution _ hrun _ hcapabilities compiled raw hraw
                  exact ⟨_, source, compiled, hreaches, hcompiled, hrun⟩

theorem keeps_resolveRoot {selection : BoundSelection}
    (h : Resolves config holds reaches (schema.field selection.field)) :
    Keeps holds (Answers schema data? reaches selection) (resolveRoot schema config data? selection) := by
  unfold resolveRoot
  dsimp only
  split
  · next htypename => exact Ensures.pure (.typename htypename)
  · next htypename =>
      split
      · next hpost =>
          exact (keeps_ofTraced _).mono fun value hvalue =>
            .post (eq_false_of_ne_true htypename) hpost hvalue
      · next hpost =>
          refine (keeps_effectResult _ h).bind fun result? hresult => ?_
          refine (keeps_ofTraced _).bind fun plan hplan => ?_
          refine (keeps_fetch plan _ h).bind fun raw hraw => (keeps_ofTraced _).mono fun value hvalue => ?_
          obtain ⟨tier, source, compiled, hreaches, hcompiled, hraw⟩ := hraw
          exact .plan (eq_false_of_ne_true htypename) (eq_false_of_ne_true hpost) hresult hplan hreaches
            hcompiled hraw hvalue

/-- The root selections that a response shows. -/
abbrev roots (taken : String → Bool) (level : List BoundSelection) : List BoundSelection :=
  Keyed.firsts (some ∘ BoundSelection.outputName) taken level

/-- Entries for the root selections that a response shows, each with an answer. -/
abbrev Entries (answers : BoundSelection → Value → Prop) :
    List BoundSelection → List (String × Value) → Prop :=
  List.Forall₂ fun selection entry => entry.1 = selection.outputName ∧ answers selection entry.2

/-- Entries for the same selections are the same where answers are unique. -/
theorem Entries.unique {answers others : BoundSelection → Value → Prop}
    {selections : List BoundSelection} {shown shown' : List (String × Value)}
    (h : Entries answers selections shown) (h' : Entries others selections shown')
    (hunique : ∀ selection ∈ selections, ∀ a b, answers selection a → others selection b → a = b) :
    shown = shown' := by
  induction h generalizing shown' with
  | nil =>
      cases h'
      rfl
  | cons hhead _ ih =>
      cases h' with
      | cons hhead' hrest' =>
          have hvalue := hunique _ List.mem_cons_self _ _ hhead.2 hhead'.2
          rw [ih hrest' fun selection hmem => hunique selection (List.mem_cons_of_mem _ hmem),
            Prod.ext (hhead.1.trans hhead'.1.symm) hvalue]

theorem keeps_resolveRoots {answers : BoundSelection → Value → Prop} {level : List BoundSelection}
    (h : ∀ selection ∈ level,
      Keeps holds (answers selection) (resolveRoot schema config data? selection)) (out : Members) :
    Keeps holds (fun result => ∃ shown : List (String × Value),
        Entries answers (roots (fun key => (Members.get? key out).isSome) level) shown ∧
        result = shown.foldl (fun out entry => Members.insert entry.1 entry.2 out) out)
      (resolveRoots schema config data? out level) := by
  induction level generalizing out with
  | nil => exact Ensures.pure ⟨[], .nil, rfl⟩
  | cons selection rest ih =>
      have hrest := ih fun other hmem => h other (List.mem_cons_of_mem _ hmem)
      have hkey : (some ∘ BoundSelection.outputName) selection = some selection.outputName := rfl
      unfold resolveRoots
      split
      · next htaken =>
          rw [roots, Keyed.firsts_cons_taken hkey htaken]
          exact hrest out
      · next htaken =>
          rw [roots, Keyed.firsts_cons_new hkey (eq_false_of_ne_true htaken)]
          refine (h selection List.mem_cons_self).bind fun value hvalue => ?_
          refine (hrest _).mono fun result => ?_
          rintro ⟨shown, hshown, rfl⟩
          rw [Members.isSome_insert] at hshown
          exact ⟨(selection.outputName, value) :: shown, .cons ⟨rfl, hvalue⟩ hshown, rfl⟩

end

/-- The response of an execution, when each field of the root can be resolved over connections that keep a
condition. -/
theorem execute_ok {engine : Engine} {schema : Schema} (hschema : engine.schema? = some schema)
    {document : Document} {request : Request} {level : List BoundSelection}
    (hbind : engine.bind document request = .ok level) {world : World} {holds : Connections → Prop}
    (hstart : holds (.start world)) {reaches : BoundSelection → Tier → Source → Prop}
    (hroots : ∀ selection ∈ level,
      Resolves engine.config holds (reaches selection) (schema.field selection.field))
    {value : Value} (h : (engine.execute document request world).answer = .ok value) :
    ∃ shown, value = .ofEntries shown ∧ Entries (fun selection =>
      Answers schema request.data? (reaches selection) selection) (roots (fun _ => false) level) shown := by
  have hkeeps : Keeps holds (fun value => ∃ shown : List (String × Value), value = .ofEntries shown ∧
      Entries (fun selection => Answers schema request.data? (reaches selection) selection)
        (roots (fun _ => false) level) shown) (do
          let out ← resolveRoots schema engine.config request.data? [] level
          pure (.object out) : Execution Value) := by
    have hroot (selection : BoundSelection) (hmem : selection ∈ level) :
        Keeps holds (Answers schema request.data? (reaches selection) selection)
          (resolveRoot schema engine.config request.data? selection) :=
      keeps_resolveRoot (hroots selection hmem)
    refine (keeps_resolveRoots hroot []).bind fun out hout => Ensures.pure ?_
    obtain ⟨shown, hshown, rfl⟩ := hout
    exact ⟨shown, rfl, hshown⟩
  have hmeets := (hkeeps (.start world) hstart).2
  rw [← run_of_bind_ok hschema hbind] at hmeets
  change ((engine.run document request).run (.start world)).1 = _ at h
  rw [h] at hmeets
  exact hmeets

theorem bind_eq {engine : Engine} {schema : Schema} (hsome : engine.schema? = some schema)
    (document : Document) (request : Request) :
    engine.bind document request = schema.bind engine.config.maxDepth document request := by
  rw [Engine.bind, Engine.schema, hsome]
  rfl

theorem exists_bound {engine : Engine} {schema : Schema} (hsome : engine.schema? = some schema)
    (hschema : schema.WellFormed) {document : Document} {request : Request} {level : List BoundSelection}
    (hbind : engine.bind document request = .ok level) : ∃ root, schema.Bound root level := by
  rw [bind_eq hsome] at hbind
  obtain ⟨_, root, _, _, hbound⟩ := Schema.bound_of_bind hschema hbind
  exact ⟨root, hbound⟩

/-- Any connections will do: what is sent is a plan that is evaluated somewhere. -/
theorem resolves_anyhow (config : Config) (field : Field) :
    Resolves config (fun _ => True) (fun _ _ => True) field where
  inProcess _ := trivial
  effect _ _ _ _ := trivial
  sent _ _ _ _ := trivial
  answered _ _ _ _ _ _ _ h := by
    obtain ⟨source, hvalue⟩ := Connections.run_of_dispatch h
    exact ⟨source, trivial, hvalue⟩

/-- What a root selection may show, wherever its plan is evaluated. -/
abbrev MayShow (schema : Schema) (data? : Option Value) (selection : BoundSelection) : Value → Prop :=
  Answers schema data? (fun _ _ => True) selection

/-- A response has an entry for each root selection that it shows. -/
theorem entries_of_answer {engine : Engine} {schema : Schema} (hsome : engine.schema? = some schema)
    {document : Document} {request : Request} {level : List BoundSelection}
    (hbind : engine.bind document request = .ok level) {world : World} {value : Value}
    (h : (engine.execute document request world).answer = .ok value) :
    ∃ shown, value = .ofEntries shown ∧ Entries (fun selection value =>
      selection ∈ level ∧ MayShow schema request.data? selection value)
        (roots (fun _ => false) level) shown := by
  obtain ⟨shown, hvalue, hshown⟩ := execute_ok hsome hbind (trivial : (fun _ => True) _)
    (fun selection _ => resolves_anyhow engine.config (schema.field selection.field)) h
  have hmem : ∀ selection ∈ roots (fun _ => false) level, selection ∈ level :=
    fun _ hfirst => (Keyed.mem_firsts hfirst).1
  refine ⟨shown, hvalue, ((List.forall₂_and_left _ _).mpr ⟨hmem, hshown⟩).imp ?_⟩
  rintro selection entry ⟨hmem, hkey, hanswers⟩
  exact ⟨hkey, hmem, hanswers⟩

/-- A query on the animals of a kennel. -/
def kennelQuery (selections : List Selection) : Document :=
  ⟨[⟨.query, none, [], [.field none "animals" [] selections]⟩], []⟩

/-- A kennel with an animal that does not tell its shape and a dog, and a toy that bears its own number as
that of its owner. -/
def kennelWorld : World :=
  World.empty.add "default" .standard ((Store.empty.seed "animals"
    [.ofEntries [("id", .number (.int 1)), ("barks", .bool true)],
      .ofEntries [(Value.shapeKey, .string "Dog"), ("id", .number (.int 2)), ("barks", .bool true)]]).seed
    "toys" [.ofEntries [("id", .number (.int 7)), ("owner", .number (.int 7)),
      ("label", .string "Ball")]])

end Engine

end GraphQuery
