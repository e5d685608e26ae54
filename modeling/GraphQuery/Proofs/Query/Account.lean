import GraphQuery.Proofs.Query.Mutation
import GraphQuery.Proofs.Store.Count

/-! The account of an execution. Sessions are opened when the first plan is sent to a name and closed at the
end, whatever the answer is; in between, each store has as many sessions open as names lead to it that a plan
was sent to. A turn sends at most one plan, whatever its selections nest: the one of its root field, when the
effect has not failed and the plan was built and compiled for a store that is there. -/

namespace GraphQuery

theorem World.lt_of_endpoint? {world : World} {name : String} {endpoint : Endpoint}
    (h : world.endpoint? name = some endpoint) : endpoint.store < world.stores.length := by
  obtain ⟨_, hlt⟩ := Option.filter_eq_some_iff.mp h
  exact of_decide_eq_true hlt

namespace Connections

/-- Connections that account for what has been done since some world: the sessions that were opened are open,
one for each name, and the plans that were sent are counted. -/
structure Accounts (world : World) (connections : Connections) : Prop where
  endpoints : connections.world.endpoints = world.endpoints
  stores : connections.world.stores.length = world.stores.length
  names : (connections.sessions.map Prod.fst).Nodup
  reached : ∀ session ∈ connections.sessions, world.endpoint? session.1 = some session.2
  openAt : ∀ place, connections.world.openAt place =
    world.openAt place + connections.sessions.countP fun session => session.2.store == place
  dispatches : connections.world.dispatches = world.dispatches + connections.dispatches

theorem accounts_start (world : World) : (start world).Accounts world :=
  ⟨rfl, rfl, List.nodup_nil, fun _ hmem => absurd hmem List.not_mem_nil, fun _ => rfl, rfl⟩

namespace Accounts

variable {world : World} {connections : Connections} (h : connections.Accounts world)

include h

theorem endpoint? (name : String) : connections.world.endpoint? name = world.endpoint? name := by
  rw [World.endpoint?, World.endpoint?, h.endpoints, h.stores]

theorem run_action (action : Action) :
    Accounts world { connections with world := (action.run connections.world).2 } := by
  have hcounts := connections.world.sameCounts_run action
  exact ⟨hcounts.endpoints.trans h.endpoints, hcounts.stores.trans h.stores, h.names, h.reached,
    fun place => (hcounts.openAt place).trans (h.openAt place), hcounts.dispatches.trans h.dispatches⟩

/-- A session that is opened is the only one of its name, and is counted at its store. -/
theorem session (name : String) : (connections.session name).2.Accounts world ∧
    (connections.session name).1.toOption = world.endpoint? name ∧
      (connections.session name).2.dispatches = connections.dispatches := by
  unfold Connections.session
  cases hlookup : connections.sessions.lookup name with
  | some found => exact ⟨h, (h.reached _ (Keyed.mem_of_lookup hlookup)).symm, rfl⟩
  | none =>
      rw [h.endpoint?]
      cases hfound : world.endpoint? name with
      | none => exact ⟨h, rfl, rfl⟩
      | some found =>
          refine ⟨⟨h.endpoints, List.length_set.trans h.stores, ?_, ?_, fun place => ?_, ?_⟩, rfl, rfl⟩
          · have hnew : name ∉ connections.sessions.map Prod.fst := by
              intro hmem
              obtain ⟨session, hsession, hname⟩ := List.mem_map.mp hmem
              have hne := List.lookup_eq_none_iff.mp hlookup session hsession
              rw [hname, bne_self_eq_false] at hne
              cases hne
            rw [List.map_append, List.nodup_append_comm]
            exact List.nodup_cons.mpr ⟨hnew, h.names⟩
          · intro session hsession
            rcases List.mem_append.mp hsession with hsession | hsession
            · exact h.reached session hsession
            · rw [List.mem_singleton.mp hsession, hfound]
          · have hlt : found.store < connections.world.stores.length := h.stores ▸ World.lt_of_endpoint? hfound
            rw [List.countP_append, List.countP_singleton, ← Nat.add_assoc, ← h.openAt, World.openAt_setStore]
            by_cases hplace : place = found.store
            · rw [if_pos ⟨hplace, hlt⟩, hplace, if_pos (beq_self_eq_true _)]
              rfl
            · rw [if_neg fun hsame => hplace hsame.1, if_neg fun hsame => hplace (beq_iff_eq.mp hsame).symm]
              rfl
          · rw [← h.dispatches]
            exact connections.world.dispatches_setStore_of_eq found.store rfl

theorem send {endpoint : Endpoint} (hplace : endpoint.store < world.stores.length) (plan : Plan) :
    (connections.send endpoint plan).2.Accounts world ∧
      (connections.send endpoint plan).2.dispatches = connections.dispatches + 1 := by
  refine ⟨⟨h.endpoints, List.length_set.trans h.stores, h.names, h.reached, fun place => ?_, ?_⟩, rfl⟩
  · have hsame : (connections.send endpoint plan).2.world.openAt place = connections.world.openAt place :=
      connections.world.openAt_setStore_of_eq endpoint.store place rfl
    exact hsame.trans (h.openAt place)
  · have hsum : (connections.send endpoint plan).2.world.dispatches +
        (connections.world.storeAt endpoint.store).dispatches =
          connections.world.dispatches + ((connections.world.storeAt endpoint.store).dispatches + 1) :=
      connections.world.dispatches_setStore (h.stores ▸ hplace) _
    have hsent := h.dispatches
    have hmore : (connections.send endpoint plan).2.dispatches = connections.dispatches + 1 := rfl
    omega

/-- A plan that is sent to a name counts when a store is there. -/
theorem dispatch (name : String) (plan : Plan) : (connections.dispatch name plan).2.Accounts world ∧
    (connections.dispatch name plan).2.dispatches = connections.dispatches +
      if (world.endpoint? name).isSome then 1 else 0 := by
  obtain ⟨hopened, hanswer, hsame⟩ := h.session name
  unfold Connections.dispatch
  generalize connections.session name = found at hopened hanswer hsame
  obtain ⟨answer, opened⟩ := found
  cases answer with
  | error error =>
      rw [← hanswer]
      exact ⟨hopened, hsame⟩
  | ok endpoint =>
      obtain ⟨hsent, hcount⟩ := hopened.send (World.lt_of_endpoint? hanswer.symm) plan
      rw [← hanswer, ← hsame]
      exact ⟨hsent, hcount⟩

omit h

theorem closed (sessions : List (String × Endpoint)) {current : World}
    (hreach : ∀ session ∈ sessions, session.2.store < world.stores.length)
    (hstores : current.stores.length = world.stores.length)
    (hopen : ∀ place, current.openAt place =
      world.openAt place + sessions.countP fun session => session.2.store == place) :
    (∀ place, (sessions.foldl (fun world session => world.setStore session.2.store
        (world.storeAt session.2.store).closeSession) current).openAt place = world.openAt place) ∧
      (sessions.foldl (fun world session => world.setStore session.2.store
        (world.storeAt session.2.store).closeSession) current).dispatches = current.dispatches := by
  induction sessions generalizing current with
  | nil => exact ⟨hopen, rfl⟩
  | cons session rest ih =>
      have hplace := hreach session List.mem_cons_self
      have hcurrent : session.2.store < current.stores.length := hstores ▸ hplace
      obtain ⟨hclosed, hsent⟩ := @ih
        (current.setStore session.2.store (current.storeAt session.2.store).closeSession)
        (fun other hmem => hreach other (List.mem_cons_of_mem _ hmem)) (List.length_set.trans hstores) fun place => by
          have hbefore := hopen place
          rw [List.countP_cons] at hbefore
          rw [World.openAt_setStore]
          by_cases hsame : place = session.2.store
          · rw [if_pos (beq_iff_eq.mpr hsame.symm)] at hbefore
            rw [if_pos ⟨hsame, hcurrent⟩, ← hsame]
            show current.openAt place - 1 = _
            omega
          · rw [if_neg fun hother => hsame (beq_iff_eq.mp hother).symm] at hbefore
            rw [if_neg fun hother => hsame hother.1]
            exact hbefore
      exact ⟨hclosed, hsent.trans (current.dispatches_setStore_of_eq _ rfl)⟩

include h

/-- When all sessions are closed, as many are open as there were, and no plan was sent meanwhile. -/
theorem release : (∀ place, connections.release.openAt place = world.openAt place) ∧
    connections.release.dispatches = world.dispatches + connections.dispatches := by
  have hreach (session : String × Endpoint) (hmem : session ∈ connections.sessions) :=
    World.lt_of_endpoint? (h.reached session hmem)
  obtain ⟨hclosed, hsent⟩ := closed connections.sessions hreach h.stores h.openAt
  exact ⟨hclosed, hsent.trans h.dispatches⟩

end Accounts

end Connections

namespace Engine

/-! ### Turns -/

section

variable (schema : Schema) (config : Config) (data? : Option Value)

/-- The plan that the turn of a root selection sends to the store of its field: it is built after the effect
and compiled for what the store reports of itself. -/
def planSent (world : World) (selection : BoundSelection) : Traced Plan := do
  let field := schema.field selection.field
  let result? ← effectOn field selection.arguments world
  let plan ← field.tracedPlan ⟨.context, result?, data?⟩ selection.arguments
  let capabilities ← Traced.ofExcept
    (((afterEffect schema world selection).capabilities (storeOf config field)).mapError .backend)
  Compiler.compose ⟨schema, .ofCapabilities capabilities, data?⟩ field plan selection.children 1

/-- Does the turn of a root selection send a plan? The names of types, post fields and unmodified plans never
take one; any other field does when its plan was built and compiled. -/
def sends (world : World) (selection : BoundSelection) : Bool :=
  let field := schema.field selection.field
  !field.isTypename && !field.isPost && decide (field.resolution ≠ .unmodified) &&
    (planSent schema config data? world selection).outcome.isOk

/-- The steps of an execution up to the plan that is sent. -/
def prepare (selection : BoundSelection) : Execution Plan := do
  let field := schema.field selection.field
  let result? ← effectResult field selection.arguments
  let plan ← Execution.ofTraced (field.tracedPlan ⟨.context, result?, data?⟩ selection.arguments)
  let capabilities ← Execution.capabilities (storeOf config field)
  Execution.ofTraced
    (Compiler.compose ⟨schema, .ofCapabilities capabilities, data?⟩ field plan selection.children 1)

theorem plays_prepare (world : World) (selection : BoundSelection) :
    Plays world (afterEffect schema world selection) (planSent schema config data? world selection)
      (prepare schema config data? selection) := by
  refine (plays_effectResult schema world selection).bind fun result? => ?_
  refine (Plays.ofTraced _).bind fun plan => ?_
  exact (Plays.capabilities _).bind fun _ => Plays.ofTraced _

theorem resolveRoot_of_sent {selection : BoundSelection}
    (htypename : (schema.field selection.field).isTypename = false)
    (hpost : (schema.field selection.field).isPost = false)
    (hresolution : (schema.field selection.field).resolution ≠ .unmodified) :
    resolveRoot schema config data? selection = (do
      let compiled ← prepare schema config data? selection
      let raw ← Execution.dispatch (storeOf config (schema.field selection.field)) compiled
      Execution.ofTraced (Renderer.renderField ⟨schema, data?⟩ (schema.field selection.field)
        selection.children raw)) := by
  unfold resolveRoot prepare fetch
  dsimp only
  rw [if_neg (ne_true_of_eq_false htypename), if_neg (ne_true_of_eq_false hpost)]
  simp only [if_neg hresolution, bind_assoc]

end

/-- A step that keeps the account of the connections since some world and sends some number of plans. -/
def Spends {α : Type} (start : World) (count : Nat) (step : Execution α) : Prop :=
  ∀ run : Run, run.connections.Accounts start → (step.run run).2.connections.Accounts start ∧
    (step.run run).2.connections.dispatches = run.connections.dispatches + count

namespace Spends

variable {α β : Type} {start : World}

theorem of_connections {step : Execution α} (h : ∀ run : Run, (step.run run).2.connections = run.connections) :
    Spends start 0 step := by
  intro run haccounts
  rw [h run]
  exact ⟨haccounts, rfl⟩

theorem bind {count : Nat} {first : Execution α} {next : α → Execution β} (hfirst : Spends start count first)
    (hnext : ∀ value, Spends start 0 (next value)) : Spends start count (first >>= next) := by
  intro run haccounts
  obtain ⟨hafter, hcount⟩ := hfirst run haccounts
  rw [Outcome.run_bind]
  generalize first.run run = done at hafter hcount
  obtain ⟨outcome, after⟩ := done
  cases outcome with
  | error error => exact ⟨hafter, hcount⟩
  | ok value =>
      obtain ⟨hlast, hsame⟩ := hnext value after hafter
      exact ⟨hlast, hsame.trans hcount⟩

theorem ofTraced (traced : Traced α) : Spends start 0 (Execution.ofTraced traced) :=
  of_connections fun _ => rfl

theorem effectResult (field : Field) (arguments : Arguments) :
    Spends start 0 (Engine.effectResult field arguments) := by
  unfold Engine.effectResult
  split
  · next effect _ _ =>
      refine bind (fun run haccounts => ?_) fun result => of_connections fun _ => rfl
      exact ⟨haccounts.run_action (effect arguments), rfl⟩
  · exact of_connections fun _ => rfl

theorem dispatch (store : String) (plan : Plan) :
    Spends start (if (start.endpoint? store).isSome then 1 else 0) (Execution.dispatch store plan) :=
  fun _ haccounts => haccounts.dispatch store plan

end Spends

section

variable (schema : Schema) (config : Config) (data? : Option Value) {start : World}

theorem spends_prepare (selection : BoundSelection) :
    Spends start 0 (prepare schema config data? selection) := by
  refine (Spends.effectResult _ _).bind fun result? => (Spends.ofTraced _).bind fun plan => ?_
  exact (Spends.of_connections fun _ => rfl).bind fun _ => Spends.ofTraced _

/-- A root selection that takes no store sends nothing. -/
theorem spends_resolveRoot {selection : BoundSelection}
    (h : (schema.field selection.field).isTypename = true ∨ (schema.field selection.field).isPost = true ∨
      (schema.field selection.field).resolution = .unmodified) :
    Spends start 0 (resolveRoot schema config data? selection) := by
  unfold resolveRoot
  dsimp only
  split
  · exact Spends.of_connections fun _ => rfl
  · next htypename =>
      split
      · exact Spends.ofTraced _
      · next hpost =>
          have hresolution := (h.resolve_left htypename).resolve_left hpost
          simp only [fetch, if_pos hresolution]
          refine (Spends.effectResult _ _).bind fun result? => (Spends.ofTraced _).bind fun plan => ?_
          refine Spends.bind ?_ fun raw => Spends.ofTraced _
          exact (Spends.ofTraced _).bind fun compiled => Spends.of_connections fun _ => rfl

/-- A turn keeps the account, and sends one plan or none. -/
theorem resolveRoot_accounts {world : World} {run : Run} (hserves : run.connections.Serves world)
    (haccounts : run.connections.Accounts start) (selection : BoundSelection) :
    ((resolveRoot schema config data? selection).run run).2.connections.Accounts start ∧
      ((resolveRoot schema config data? selection).run run).2.connections.dispatches =
        run.connections.dispatches + if sends schema config data? world selection then 1 else 0 := by
  by_cases hlocal : (schema.field selection.field).isTypename = true ∨
      (schema.field selection.field).isPost = true ∨ (schema.field selection.field).resolution = .unmodified
  · have hnone : sends schema config data? world selection = false := by
      unfold sends
      rcases hlocal with h | h | h <;> simp [h]
    rw [hnone]
    exact spends_resolveRoot schema config data? hlocal run haccounts
  · obtain ⟨htypename, hlocal⟩ := not_or.mp hlocal
    obtain ⟨hpost, hresolution⟩ := not_or.mp hlocal
    have htypename := eq_false_of_ne_true htypename
    have hpost := eq_false_of_ne_true hpost
    have hsends : sends schema config data? world selection =
        (planSent schema config data? world selection).outcome.isOk := by
      simp [sends, htypename, hpost, hresolution]
    obtain ⟨connections, hafter, hrun⟩ := plays_prepare schema config data? world selection run hserves
    have hprepared := spends_prepare schema config data? selection run haccounts
    rw [resolveRoot_of_sent schema config data? htypename hpost hresolution, Outcome.run_bind, hsends]
    rw [hrun] at hprepared ⊢
    cases hplan : (planSent schema config data? world selection).outcome with
    | error error => exact hprepared
    | ok compiled =>
        -- a plan is compiled for a store that is there
        have hstore : (start.endpoint? (storeOf config (schema.field selection.field))).isSome = true := by
          obtain ⟨_, _, hplan⟩ := Traced.bind_ok_iff.mp hplan
          obtain ⟨_, _, hplan⟩ := Traced.bind_ok_iff.mp hplan
          obtain ⟨capabilities, hcapabilities, _⟩ := Traced.bind_ok_iff.mp hplan
          have hfound := Outcome.mapError_ok_iff.mp hcapabilities
          rw [← hprepared.1.endpoint?, hafter.endpoint?]
          unfold World.capabilities at hfound
          split at hfound
          · next hendpoint => exact Option.isSome_of_eq_some hendpoint
          · cases hfound
        have hdispatch := @Spends.dispatch start (storeOf config (schema.field selection.field)) compiled
        rw [hstore] at hdispatch
        have hsent := hdispatch.bind fun raw => Spends.ofTraced (Renderer.renderField ⟨schema, data?⟩
          (schema.field selection.field) selection.children raw)
        obtain ⟨hlast, hcount⟩ := hsent _ hprepared.1
        refine ⟨hlast, hcount.trans ?_⟩
        rw [hprepared.2]
        rfl

/-- The number of plans that the turns of root selections send, up to the first one that fails. -/
def plansSent (world : World) : List BoundSelection → Nat
  | [] => 0
  | selection :: rest =>
    let own := if sends schema config data? world selection then 1 else 0
    if (turn schema config data? world selection).outcome.isOk then
      own + plansSent (afterEffect schema world selection) rest
    else own

theorem plansSent_append {world : World} {answered : List BoundSelection}
    (h : ∀ stage ∈ stages schema world answered, (turn schema config data? stage.1 stage.2).outcome.isOk)
    (rest : List BoundSelection) : plansSent schema config data? world (answered ++ rest) =
      ((stages schema world answered).countP fun stage => sends schema config data? stage.1 stage.2) +
        plansSent schema config data? (afterEffects schema world answered) rest := by
  induction answered generalizing world with
  | nil => exact (Nat.zero_add _).symm
  | cons selection others ih =>
      obtain ⟨hfirst, hothers⟩ := List.forall_mem_cons.mp h
      have hafter : afterEffects schema world (selection :: others) =
          afterEffects schema (afterEffect schema world selection) others := rfl
      rw [List.cons_append, plansSent, stages, List.countP_cons, if_pos hfirst, ih hothers, hafter]
      dsimp only
      omega

/-- The turns that begin send their plans, and no others do. -/
theorem plansSent_eq {world : World} {begun others : List BoundSelection}
    {outcome : Except EngineError (List (String × Value))}
    (h : Ends schema config data? world begun others outcome) :
    plansSent schema config data? world (begun ++ others) =
      (stages schema world begun).countP fun stage => sends schema config data? stage.1 stage.2 := by
  cases h with
  | all values hall hvalues =>
      have hanswered (stage : World × BoundSelection) (hstage : stage ∈ stages schema world begun) :
          (turn schema config data? stage.1 stage.2).outcome.isOk = true := by
        obtain ⟨value, _, hvalue⟩ := Outcome.ok_of_mapM (Outcome.mapM_ok_iff.mpr hvalues) hstage
        rw [hvalue]
        rfl
      rw [hall, plansSent_append schema config data? hanswered]
      rfl
  | failed answered selection error hbegun hanswered herror =>
      rw [hbegun, List.append_assoc, plansSent_append schema config data? hanswered, stages_append,
        List.countP_append, List.singleton_append, plansSent, herror, stages, stages, List.countP_singleton]
      rfl

theorem resolveRoots_accounts (level : List BoundSelection) :
    ∀ (out : Members) (world : World) (run : Run), run.connections.Serves world →
      run.connections.Accounts start →
      ((resolveRoots schema config data? out level).run run).2.connections.Accounts start ∧
        ((resolveRoots schema config data? out level).run run).2.connections.dispatches =
          run.connections.dispatches + plansSent schema config data? world
            (roots (fun key => (Members.get? key out).isSome) level) := by
  induction level with
  | nil => exact fun _ _ _ _ haccounts => ⟨haccounts, rfl⟩
  | cons selection rest ih =>
      intro out world run hserves haccounts
      have hkey : (some ∘ BoundSelection.outputName) selection = some selection.outputName := rfl
      unfold resolveRoots
      cases htaken : (Members.get? selection.outputName out).isSome with
      | true =>
          rw [if_pos rfl, roots, Keyed.firsts_cons_taken hkey htaken]
          exact ih out world run hserves haccounts
      | false =>
          rw [if_neg Bool.false_ne_true, roots, Keyed.firsts_cons_new hkey htaken, plansSent, Outcome.run_bind]
          have hone := resolveRoot_accounts schema config data? hserves haccounts selection
          obtain ⟨connections, hafter, hrun⟩ :=
            plays_resolveRoot schema config data? world selection run hserves
          rw [hrun] at hone ⊢
          cases hanswer : (turn schema config data? world selection).outcome with
          | error error => exact hone
          | ok value =>
              have hrest := ih (Members.insert selection.outputName value out)
                (afterEffect schema world selection)
                ⟨connections, run.calls ++ (turn schema config data? world selection).calls⟩ hafter hone.1
              rw [Members.isSome_insert] at hrest
              refine ⟨hrest.1, hrest.2.trans ?_⟩
              rw [hone.2, Nat.add_assoc]
              rfl

end

/-- The connections of an execution before its sessions are closed. -/
def connections (engine : Engine) (document : Document) (request : Request) (world : World) : Connections :=
  ((engine.run document request).run (.start world)).2.connections

/-- An execution keeps the account, and sends what the turns of its root selections send, or nothing when
nothing is bound. -/
theorem connections_accounts (engine : Engine) (document : Document) (request : Request) (world : World) :
    (engine.connections document request world).Accounts world ∧
      (engine.connections document request world).dispatches =
        match engine.schema?, engine.bind document request with
        | some schema, .ok level =>
          plansSent schema engine.config request.data? world (roots (fun _ => false) level)
        | _, _ => 0 := by
  cases hbind : engine.bind document request with
  | error error =>
      have hrun := run_of_bind_error hbind (.start world)
      unfold connections
      rw [hrun]
      refine ⟨Connections.accounts_start world, ?_⟩
      cases engine.schema? <;> rfl
  | ok level =>
      obtain ⟨schema, hsome⟩ := schema_of_bind hbind
      have hrun := run_of_bind_ok hsome hbind (.start world)
      have hroots := resolveRoots_accounts schema engine.config request.data? level [] world (.start world)
        (Connections.serves_start world) (Connections.accounts_start world)
      unfold connections
      rw [hrun, hsome, Outcome.run_bind]
      generalize (resolveRoots schema engine.config request.data? [] level).run (.start world) = done at hroots
      obtain ⟨outcome, after⟩ := done
      have hcount : after.connections.dispatches =
          plansSent schema engine.config request.data? world (roots (fun _ => false) level) :=
        hroots.2.trans (Nat.zero_add _)
      cases outcome <;> exact ⟨hroots.1, hcount⟩

/-- Whatever an execution answers, each store has as many open sessions afterwards as before. Each name was
given one session at most, which led to its store, and meanwhile these were the only ones that were open in
addition. The stores were sent one plan for each root selection that had begun, one for each response key and
the last one the first that failed, whose turn sends a plan; what is selected below it costs none. A request
that does not bind sends nothing. -/
theorem execute_accounts (engine : Engine) (document : Document) (request : Request) (world : World) :
    let report := engine.execute document request world
    let held := engine.connections document request world
    report.world = held.release ∧
    (∀ place, report.world.openAt place = world.openAt place) ∧
    (held.sessions.map Prod.fst).Nodup ∧
    (∀ session ∈ held.sessions, world.endpoint? session.1 = some session.2) ∧
    (∀ place, held.world.openAt place =
      world.openAt place + held.sessions.countP fun session => session.2.store == place) ∧
    match engine.schema?, engine.bind document request with
    | some schema, .ok level =>
      ∃ begun others outcome, roots (fun _ => false) level = begun ++ others ∧
        Ends schema engine.config request.data? world begun others outcome ∧
        report.answer = outcome.map Value.ofEntries ∧
        report.world.dispatches = world.dispatches + (stages schema world begun).countP fun stage =>
          sends schema engine.config request.data? stage.1 stage.2
    | _, _ => report.world.dispatches = world.dispatches := by
  intro report held
  obtain ⟨haccounts, hcount⟩ := engine.connections_accounts document request world
  obtain ⟨hclosed, hsent⟩ := haccounts.release
  refine ⟨rfl, hclosed, haccounts.names, haccounts.reached, haccounts.openAt, ?_⟩
  rw [hcount] at hsent
  cases hbind : engine.bind document request with
  | error error =>
      rw [hbind] at hsent
      cases hsome : engine.schema? <;> (rw [hsome] at hsent; exact hsent)
  | ok level =>
      cases hsome : engine.schema? with
      | none =>
          rw [hsome] at hsent
          exact hsent
      | some schema =>
          obtain ⟨hanswer, _, _⟩ := execute_turns schema hsome hbind world
          obtain ⟨begun, others, hselections, _, _, hends⟩ :=
            turns_prefix schema engine.config request.data? world (roots (fun _ => false) level)
          refine ⟨begun, others, _, hselections, hends, hanswer, ?_⟩
          rw [← plansSent_eq schema engine.config request.data? hends, ← hselections]
          rw [hsome, hbind] at hsent
          exact hsent

/-- A shelter that admits two animals, refuses the third, and would admit again: two plans are sent over one
session, which is closed although the execution fails. -/
theorem shelter_execute_accounts :
    let engine : Engine := ⟨some .shelter, .standard⟩
    let name : List Selection := [.field none "name" [] []]
    let document : Document := ⟨[⟨.mutation, none, [], [.field none "admit" [] name,
      .field (some "another") "admit" [] name, .field none "refuse" [] name,
      .field (some "last") "admit" [] name]⟩], []⟩
    let world := World.empty.add "default" .standard .empty
    let report := engine.execute document .plain world
    let held := engine.connections document .plain world
    report.answer.isOk = false ∧ held.sessions.map Prod.fst = ["default"] ∧ held.world.openAt 0 = 1 ∧
      report.world.openAt 0 = world.openAt 0 ∧ report.world.dispatches = 2 ∧
      ∃ level begun others outcome, engine.bind document .plain = .ok level ∧
        roots (fun _ => false) level = begun ++ others ∧ Ends .shelter .standard none world begun others outcome ∧
        report.answer = outcome.map Value.ofEntries ∧
        ((stages .shelter world begun).countP fun stage => sends .shelter .standard none stage.1 stage.2) = 2 := by
  intro engine name document world report held
  have hconcrete : (engine.bind document .plain).isOk = true ∧ report.answer.isOk = false ∧
      held.sessions.map Prod.fst = ["default"] ∧ held.world.openAt 0 = 1 ∧ report.world.dispatches = 2 := by
    decide +kernel
  obtain ⟨hbound, hfails, hsessions, hopen, hsent⟩ := hconcrete
  obtain ⟨level, hbind⟩ := Outcome.exists_of_isOk hbound
  obtain ⟨_, hclosed, _, _, _, hturns⟩ := execute_accounts engine document .plain world
  rw [hbind] at hturns
  obtain ⟨begun, others, outcome, hroots, hends, hanswer, hcount⟩ := hturns
  refine ⟨hfails, hsessions, hopen, hclosed 0, hsent, level, begun, others, outcome, hbind, hroots, hends,
    hanswer, ?_⟩
  have hbefore : world.dispatches = 0 := rfl
  rw [hbefore, Nat.zero_add] at hcount
  exact hcount.symm.trans hsent

end Engine

end GraphQuery
