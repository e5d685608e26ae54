import GraphQuery.Proofs.Query.Capability

/-! Turns. An execution answers its root selections one after the other. The turn of a selection is first
its effect, then the plan that reads what the effect left, then the rendering of what was read; it sees of
the stores nothing but their documents, which only effects change. An execution is therefore a sequence of
turns, each of which begins with the documents that the effects before it have left, and it ends with its
first turn that fails. -/

namespace GraphQuery

namespace Connections

variable {world : World} {connections : Connections}

namespace Serves

variable (h : connections.Serves world)

include h

theorem documents : connections.world.SameDocuments world :=
  ⟨h.endpoints, h.stores, h.collections⟩

/-- After an action, connections serve what the action makes of the world that they served. -/
theorem run_action (action : Action) : Serves (action.run world).2
    { connections with world := (action.run connections.world).2 } := by
  have hsame := (action.run_same h.documents).2
  obtain ⟨hways, hstores⟩ := action.run_ways world
  refine ⟨hsame.endpoints, hsame.stores, hsame.collections, fun name endpoint hsession => ?_⟩
  rw [World.endpoint?, hways, hstores]
  exact h.sessions name endpoint hsession

/-- A session leads where its name leads. -/
theorem session_eq (name : String) : (connections.session name).1 = match world.endpoint? name with
    | some endpoint => .ok endpoint
    | none => .error (.unknownStore name) := by
  unfold Connections.session
  cases hlookup : connections.sessions.lookup name with
  | some endpoint => rw [h.sessions name endpoint hlookup]
  | none =>
      rw [← h.endpoint?]
      cases connections.world.endpoint? name <;> rfl

/-- A plan that is sent has the answer that the world gives. -/
theorem answer (name : String) (plan : Plan) :
    (connections.dispatch name plan).1 = world.answer name plan := by
  have hsession := h.session_eq name
  unfold Connections.dispatch World.answer
  cases hopened : connections.session name with
  | mk found opened =>
      rw [hopened] at hsession
      obtain ⟨hserves, _⟩ := h.session hopened
      dsimp only at hsession
      subst hsession
      cases world.endpoint? name with
      | none => rfl
      | some endpoint => exact Store.dispatch_congr (hserves.collections endpoint.store) _ plan

/-- Closing the sessions changes no documents. -/
theorem release : connections.release.SameDocuments world := by
  have hclosed (sessions : List (String × Endpoint)) {current : World}
      (hcurrent : current.SameDocuments world) :
      (sessions.foldl (fun world session => world.setStore session.2.store
        (world.storeAt session.2.store).closeSession) current).SameDocuments world := by
    induction sessions generalizing current with
    | nil => exact hcurrent
    | cons session rest ih =>
        apply ih
        refine ⟨hcurrent.endpoints, List.length_set.trans hcurrent.stores, fun place => ?_⟩
        rw [World.storeAt_setStore]
        split
        · next hplace => rw [hplace.1]; exact hcurrent.collections session.2.store
        · exact hcurrent.collections place
  exact hclosed connections.sessions h.documents

end Serves

end Connections

theorem Field.isMutation_of_isTypename {field : Field} (h : field.isTypename = true) :
    field.isMutation = false := by
  rw [isMutation, resolver_of_isTypename h]

theorem Field.isMutation_of_isPost {field : Field} (h : field.isPost = true) :
    field.isMutation = false := by
  unfold isPost at h
  unfold isMutation
  split at h
  · next hresolver => rw [hresolver]
  · cases h

namespace Engine

section

variable (schema : Schema) (config : Config) (data? : Option Value)

/-- The world after the effect of a root selection; fields without an effect leave it as it is. -/
def afterEffect (world : World) (selection : BoundSelection) : World :=
  match (schema.field selection.field).resolver with
  | .mutation effect _ => ((effect selection.arguments).run world).2
  | _ => world

/-- The world after the effects of root selections in their order. -/
def afterEffects (world : World) (selections : List BoundSelection) : World :=
  selections.foldl (afterEffect schema) world

/-- The result of the effect of a field on a world, if it has one. -/
def effectOn (field : Field) (arguments : Arguments) (world : World) : Traced (Option Value) :=
  match field.resolver with
  | .mutation effect _ => do
    let result ← Traced.call .effect field arguments ((effect arguments).run world).1
    pure (some result)
  | _ => pure none

/-- What the plan of a root field, with the records of its selections, finds in a world. -/
def readFrom (field : Field) (plan : Plan) (children : List BoundSelection) (world : World) :
    Traced Value :=
  if field.resolution = .unmodified then do
    let compiled ← Compiler.compose ⟨schema, .enumerable, data?⟩ field plan children 1
    Traced.ofExcept ((compiled.run .inProcess).mapError .backend)
  else do
    let store := storeOf config field
    let capabilities ← Traced.ofExcept ((world.capabilities store).mapError .backend)
    let compiled ← Compiler.compose ⟨schema, .ofCapabilities capabilities, data?⟩ field plan children 1
    Traced.ofExcept ((world.answer store compiled).mapError .backend)

/-- The turn of a root selection that begins with some world: the effect comes first, and the plan reads
the world that the effect has left. -/
def turn (world : World) (selection : BoundSelection) : Traced Value :=
  let field := schema.field selection.field
  let renderer : Renderer := ⟨schema, data?⟩
  if field.isTypename then pure (.string (schema.type field.declaring).name)
  else if field.isPost then renderer.renderPost field selection
  else do
    let result? ← effectOn field selection.arguments world
    let plan ← field.tracedPlan ⟨.context, result?, data?⟩ selection.arguments
    let raw ← readFrom schema config data? field plan selection.children (afterEffect schema world selection)
    renderer.renderField field selection.children raw

/-- Root selections in their order, each with the world that the effects of those before it leave. -/
def stages (world : World) : List BoundSelection → List (World × BoundSelection)
  | [] => []
  | selection :: rest => (world, selection) :: stages (afterEffect schema world selection) rest

/-- The turns of root selections, one after the other: what each of them answers under its response key. -/
def turns (world : World) (selections : List BoundSelection) : Traced (List (String × Value)) :=
  (stages schema world selections).mapM fun stage => do
    let value ← turn schema config data? stage.1 stage.2
    pure (stage.2.outputName, value)

/-- The world after the turns of root selections, the last of which is the first one that fails. -/
def afterTurns (world : World) : List BoundSelection → World
  | [] => world
  | selection :: rest =>
    let after := afterEffect schema world selection
    if (turn schema config data? world selection).outcome.isOk then afterTurns after rest else after

end

/-! ### Steps of an execution over connections that serve a world -/

/-- A step does, over connections that serve one world, what a computation on the documents of that world
does, and leaves connections that serve another one. -/
def Plays {α : Type} (world after : World) (traced : Traced α) (step : Execution α) : Prop :=
  ∀ run : Run, run.connections.Serves world → ∃ connections : Connections, connections.Serves after ∧
    step.run run = (traced.outcome, ⟨connections, run.calls ++ traced.calls⟩)

namespace Plays

variable {α β : Type} {world after last : World}

theorem ofTraced (traced : Traced α) : Plays world world traced (Execution.ofTraced traced) :=
  fun run hserves => ⟨run.connections, hserves, rfl⟩

theorem pure (value : α) : Plays world world (Pure.pure value) (Pure.pure value : Execution α) := by
  intro run hserves
  refine ⟨run.connections, hserves, ?_⟩
  show (Except.ok value, run) = (Except.ok value, (⟨run.connections, run.calls ++ []⟩ : Run))
  rw [List.append_nil]

theorem ofExcept (outcome : Except EngineError α) :
    Plays world world (Traced.ofExcept outcome) (Execution.ofExcept outcome) := by
  intro run hserves
  refine ⟨run.connections, hserves, ?_⟩
  show (outcome, run) = (outcome, (⟨run.connections, run.calls ++ []⟩ : Run))
  rw [List.append_nil]

/-- Steps after one that has reached a world stay with it. -/
theorem bind {traced : Traced α} {next : α → Traced β} {step : Execution α} {then' : α → Execution β}
    (h : Plays world after traced step) (hnext : ∀ value, Plays after after (next value) (then' value)) :
    Plays world after (traced >>= next) (step >>= then') := by
  intro run hserves
  obtain ⟨connections, hafter, hrun⟩ := h run hserves
  rw [Outcome.run_bind, hrun]
  cases houtcome : traced.outcome with
  | error error =>
      refine ⟨connections, hafter, ?_⟩
      rw [Traced.bind_of_error houtcome]
  | ok value =>
      obtain ⟨connections', hlast, hrun'⟩ := hnext value ⟨connections, run.calls ++ traced.calls⟩ hafter
      refine ⟨connections', hlast, ?_⟩
      rw [Traced.bind_of_ok houtcome]
      dsimp only
      rw [hrun', List.append_assoc]

theorem capabilities (store : String) : Plays world world
    (Traced.ofExcept ((world.capabilities store).mapError .backend)) (Execution.capabilities store) := by
  intro run hserves
  refine ⟨run.connections, hserves, ?_⟩
  rw [run_capabilities, hserves.documents.capabilities]
  show (_, run) = (_, (⟨run.connections, run.calls ++ []⟩ : Run))
  rw [List.append_nil]
  rfl

theorem dispatch (store : String) (plan : Plan) : Plays world world
    (Traced.ofExcept ((world.answer store plan).mapError .backend)) (Execution.dispatch store plan) := by
  intro run hserves
  refine ⟨_, (hserves.dispatch store plan).1, ?_⟩
  rw [run_dispatch, hserves.answer]
  show (_, _) = (_, (⟨_, run.calls ++ []⟩ : Run))
  rw [List.append_nil]
  rfl

end Plays

section

variable (schema : Schema) (config : Config) (data? : Option Value) (world : World)

theorem afterEffect_of_plain {selection : BoundSelection}
    (hplain : (schema.field selection.field).isMutation = false) :
    afterEffect schema world selection = world := by
  rw [Field.isMutation] at hplain
  unfold afterEffect
  split
  · next hresolver =>
      rw [hresolver] at hplain
      cases hplain
  · rfl

/-- The effect of a selection is run on the world that the connections serve. -/
theorem plays_effectResult (selection : BoundSelection) :
    Plays world (afterEffect schema world selection)
      (effectOn (schema.field selection.field) selection.arguments world)
      (effectResult (schema.field selection.field) selection.arguments) := by
  unfold effectOn effectResult afterEffect
  cases (schema.field selection.field).resolver with
  | mutation effect read? =>
      refine Plays.bind ?_ fun result => Plays.pure (some result)
      intro run hserves
      refine ⟨_, hserves.run_action (effect selection.arguments), ?_⟩
      have hresult := ((effect selection.arguments).run_same hserves.documents).1
      show (Except.mapError _ ((effect selection.arguments).run run.connections.world).1, _) = _
      rw [hresult]
      rfl
  | _ => exact Plays.pure none

theorem plays_fetch (field : Field) (plan : Plan) (children : List BoundSelection) :
    Plays world world (readFrom schema config data? field plan children world)
      (fetch schema config data? field plan children) := by
  unfold readFrom fetch
  split
  · exact (Plays.ofTraced _).bind fun compiled => Plays.ofExcept _
  · exact (Plays.capabilities _).bind fun _ => (Plays.ofTraced _).bind fun compiled =>
      Plays.dispatch _ compiled

/-- A root selection is answered by its turn. -/
theorem plays_resolveRoot (selection : BoundSelection) :
    Plays world (afterEffect schema world selection) (turn schema config data? world selection)
      (resolveRoot schema config data? selection) := by
  unfold turn resolveRoot
  dsimp only
  split
  · next htypename =>
      rw [afterEffect_of_plain schema world (Field.isMutation_of_isTypename htypename)]
      exact Plays.pure _
  · split
    · next hpost =>
        rw [afterEffect_of_plain schema world (Field.isMutation_of_isPost hpost)]
        exact Plays.ofTraced _
    · refine (plays_effectResult schema world selection).bind fun result? => ?_
      refine (Plays.ofTraced _).bind fun plan => ?_
      exact (plays_fetch schema config data? _ _ plan _).bind fun raw => Plays.ofTraced _

end

/-! ### Sequences of turns -/

section

variable (schema : Schema) (config : Config) (data? : Option Value)

/-- The same turn on the same documents answers the same. -/
theorem turn_same {world other : World} (h : world.SameDocuments other) (selection : BoundSelection) :
    turn schema config data? world selection = turn schema config data? other selection := by
  have heffect : effectOn (schema.field selection.field) selection.arguments world =
      effectOn (schema.field selection.field) selection.arguments other := by
    unfold effectOn
    split
    · next effect _ _ => rw [((effect selection.arguments).run_same h).1]
    · rfl
  have hafter : (afterEffect schema world selection).SameDocuments
      (afterEffect schema other selection) := by
    unfold afterEffect
    split
    · next effect _ _ => exact ((effect selection.arguments).run_same h).2
    · exact h
  have hread (plan : Plan) : readFrom schema config data? (schema.field selection.field) plan
      selection.children (afterEffect schema world selection) =
        readFrom schema config data? (schema.field selection.field) plan selection.children
          (afterEffect schema other selection) := by
    unfold readFrom
    simp only [hafter.capabilities, hafter.answer]
  unfold turn
  simp only [heffect, hread]

theorem map_stages (world : World) (level : List BoundSelection) :
    (stages schema world level).map Prod.snd = level := by
  induction level generalizing world with
  | nil => rfl
  | cons selection rest ih => exact congrArg (selection :: ·) (ih _)

theorem mem_of_stages {world : World} {level : List BoundSelection} {stage : World × BoundSelection}
    (h : stage ∈ stages schema world level) : stage.2 ∈ level :=
  map_stages schema world level ▸ List.mem_map_of_mem h

theorem turns_cons (world : World) (selection : BoundSelection) (rest : List BoundSelection) :
    turns schema config data? world (selection :: rest) = (do
      let value ← turn schema config data? world selection
      let others ← turns schema config data? (afterEffect schema world selection) rest
      pure ((selection.outputName, value) :: others)) := by
  rw [turns, stages, List.mapM_cons]
  simp only [bind_assoc, pure_bind]
  rfl

/-- The turns of a query all begin with the same world. -/
theorem turns_of_query {selections : List BoundSelection}
    (hquery : ∀ selection ∈ selections, (schema.field selection.field).isMutation = false)
    (world : World) : (turns schema config data? world selections).outcome =
      selections.mapM fun selection =>
        (turn schema config data? world selection).outcome.map (selection.outputName, ·) := by
  induction selections with
  | nil => rfl
  | cons selection rest ih =>
      rw [turns_cons, afterEffect_of_plain schema world (hquery selection List.mem_cons_self),
        Traced.outcome_bind, List.mapM_cons,
        ← ih fun other hmem => hquery other (List.mem_cons_of_mem _ hmem)]
      cases (turn schema config data? world selection).outcome with
      | error error => rfl
      | ok value => exact Traced.outcome_bind _ _

/-- What is read for a field from a world is evaluated in one tier against one source. -/
theorem readFrom_ok (field : Field) (world : World) : ∃ (tier : Tier) (source : Source),
    ∀ plan children raw, (readFrom schema config data? field plan children world).outcome = .ok raw →
      ∃ compiled, (Compiler.compose ⟨schema, tier, data?⟩ field plan children 1).outcome = .ok compiled ∧
        compiled.run source = .ok raw := by
  by_cases hresolution : field.resolution = .unmodified
  · refine ⟨.enumerable, .inProcess, fun plan children raw hraw => ?_⟩
    rw [readFrom, if_pos hresolution] at hraw
    obtain ⟨compiled, hcompiled, hrun⟩ := Traced.bind_ok_iff.mp hraw
    exact ⟨compiled, hcompiled, Outcome.mapError_ok_iff.mp hrun⟩
  · unfold readFrom
    simp only [if_neg hresolution]
    rw [World.capabilities]
    cases hendpoint : world.endpoint? (storeOf config field) with
    | none =>
        refine ⟨.enumerable, .inProcess, fun plan children raw hraw => ?_⟩
        cases hraw
    | some endpoint =>
        refine ⟨.ofCapabilities endpoint.settings.capabilities,
          (world.storeAt endpoint.store).source endpoint.settings, fun plan children raw hraw => ?_⟩
        obtain ⟨_, hcapabilities, hraw⟩ := Traced.bind_ok_iff.mp hraw
        cases hcapabilities
        obtain ⟨compiled, hcompiled, hrun⟩ := Traced.bind_ok_iff.mp hraw
        refine ⟨compiled, hcompiled, ?_⟩
        rw [World.answer, hendpoint] at hrun
        exact Store.run_of_dispatch (Outcome.mapError_ok_iff.mp hrun)

/-- The root selections that have no answer yet take their turns. -/
theorem resolveRoots_turns (level : List BoundSelection) : ∀ (out : Members) (world : World) (run : Run),
    run.connections.Serves world →
    ∃ connections : Connections,
      connections.Serves (afterTurns schema config data? world
        (roots (fun key => (Members.get? key out).isSome) level)) ∧
      (resolveRoots schema config data? out level).run run =
        ((turns schema config data? world
            (roots (fun key => (Members.get? key out).isSome) level)).outcome.map fun shown =>
              shown.foldl (fun out entry => Members.insert entry.1 entry.2 out) out,
          ⟨connections, run.calls ++ (turns schema config data? world
            (roots (fun key => (Members.get? key out).isSome) level)).calls⟩) := by
  induction level with
  | nil =>
      intro out world run hserves
      refine ⟨run.connections, hserves, ?_⟩
      show (Except.ok out, run) = (Except.ok out, (⟨run.connections, run.calls ++ []⟩ : Run))
      rw [List.append_nil]
  | cons selection rest ih =>
      intro out world run hserves
      have hkey : (some ∘ BoundSelection.outputName) selection = some selection.outputName := rfl
      unfold resolveRoots
      cases htaken : (Members.get? selection.outputName out).isSome with
      | true =>
          rw [if_pos rfl, roots, Keyed.firsts_cons_taken hkey htaken]
          exact ih out world run hserves
      | false =>
          rw [if_neg Bool.false_ne_true, roots, Keyed.firsts_cons_new hkey htaken, turns_cons, afterTurns,
            Outcome.run_bind]
          obtain ⟨connections, hafter, hrun⟩ :=
            plays_resolveRoot schema config data? world selection run hserves
          rw [hrun]
          cases hanswer : (turn schema config data? world selection).outcome with
          | error error =>
              refine ⟨connections, hafter, ?_⟩
              rw [Traced.bind_of_error hanswer]
              rfl
          | ok value =>
              have hrest := ih (Members.insert selection.outputName value out)
                (afterEffect schema world selection)
                ⟨connections, run.calls ++ (turn schema config data? world selection).calls⟩ hafter
              rw [Members.isSome_insert] at hrest
              obtain ⟨connections', hlast, hrun'⟩ := hrest
              refine ⟨connections', hlast, ?_⟩
              show (resolveRoots schema config data? (Members.insert selection.outputName value out)
                rest).run _ = _
              rw [hrun', Traced.bind_of_ok hanswer]
              generalize turns schema config data? (afterEffect schema world selection) _ = others
              rw [← List.append_assoc]
              cases houtcome : others.outcome with
              | error error =>
                  rw [Traced.bind_of_error houtcome]
                  rfl
              | ok shown =>
                  rw [Traced.bind_of_ok houtcome]
                  simp only [Traced.calls_pure, List.append_nil]
                  rfl

/-- An execution is the sequence of the turns of its root selections. -/
theorem execute_turns {engine : Engine} (hsome : engine.schema? = some schema) {document : Document}
    {request : Request} {level : List BoundSelection} (hbind : engine.bind document request = .ok level)
    (world : World) :
    let played := turns schema engine.config request.data? world (roots (fun _ => false) level)
    let report := engine.execute document request world
    report.answer = played.outcome.map Value.ofEntries ∧ report.calls = played.calls ∧
      report.world.SameDocuments (afterTurns schema engine.config request.data? world
        (roots (fun _ => false) level)) := by
  intro played report
  obtain ⟨connections, hserves, hrun⟩ := resolveRoots_turns schema engine.config request.data? level []
    world (.start world) (Connections.serves_start world)
  have hreport : (engine.run document request).run (.start world) =
      (played.outcome.map Value.ofEntries, ⟨connections, played.calls⟩) := by
    have hplayed : turns schema engine.config request.data? world
        (roots (fun key => (Members.get? key []).isSome) level) = played := rfl
    rw [run_of_bind_ok hsome hbind, Outcome.run_bind, hrun, hplayed]
    cases played.outcome <;> rfl
  have hparts : report = ⟨((engine.run document request).run (.start world)).1,
      ((engine.run document request).run (.start world)).2.connections.release,
      ((engine.run document request).run (.start world)).2.calls⟩ := rfl
  rw [hparts, hreport]
  exact ⟨rfl, rfl, hserves.release⟩

end

end Engine

end GraphQuery
