import GraphQuery.Proofs.Query.Failure
import GraphQuery.Proofs.Store.Documents

/-! The logs of stores. An execution adds plans to them and takes none away. Each plan that it adds was composed
for a root selection, of a field that neither names a type nor is computed afterwards. -/

namespace GraphQuery

namespace World

/-- The logs of all stores hold what they held in some world, and expected plans after it. -/
def LogsSince (start : World) (expected : Plan → Prop) (world : World) : Prop :=
  ∀ place, ∃ sent, (world.storeAt place).plans = (start.storeAt place).plans ++ sent ∧ ∀ plan ∈ sent, expected plan

variable {start world : World} {expected : Plan → Prop}

theorem logsSince_start : start.LogsSince expected start :=
  fun _ => ⟨[], (List.append_nil _).symm, fun _ hmem => absurd hmem List.not_mem_nil⟩

/-- A store whose log has grown by expected plans may take the place of the one that was there. -/
theorem LogsSince.setStore (h : start.LogsSince expected world) {place : Nat} {store : Store} {added : List Plan}
    (hplans : store.plans = (world.storeAt place).plans ++ added) (hadded : ∀ plan ∈ added, expected plan) :
    start.LogsSince expected (world.setStore place store) := by
  intro other
  rw [storeAt_setStore]
  split
  · next hplace =>
      obtain ⟨sent, hsent, hexpected⟩ := h place
      refine ⟨sent ++ added, ?_, fun plan hmem => ?_⟩
      · rw [hplans, hsent, List.append_assoc, hplace.1]
      · rcases List.mem_append.mp hmem with hmem | hmem
        · exact hexpected plan hmem
        · exact hadded plan hmem
  · exact h other

/-- So it may when its log is the same. -/
theorem LogsSince.setStore_of_eq (h : start.LogsSince expected world) {place : Nat} {store : Store}
    (hplans : store.plans = (world.storeAt place).plans) : start.LogsSince expected (world.setStore place store) := by
  apply h.setStore (hplans.trans (List.append_nil _).symm)
  simp

theorem LogsSince.run_action (h : start.LogsSince expected world) (action : Action) :
    start.LogsSince expected (action.run world).2 :=
  action.run_keeps (fun _ _ _ hbefore hedits => hbefore.setStore_of_eq hedits.plans) world h

end World

open World (LogsSince logsSince_start)

namespace Connections

variable {start : World} {expected : Plan → Prop} {connections : Connections}

theorem logsSince_session (h : start.LogsSince expected connections.world) (name : String) :
    start.LogsSince expected (connections.session name).2.world := by
  unfold session
  split
  · exact h
  · split
    · exact h
    · exact h.setStore_of_eq rfl

theorem logsSince_dispatch (h : start.LogsSince expected connections.world) (name : String) {plan : Plan}
    (hplan : expected plan) : start.LogsSince expected (connections.dispatch name plan).2.world := by
  have hopened := logsSince_session h name
  unfold dispatch
  generalize connections.session name = found at hopened
  obtain ⟨answer, opened⟩ := found
  cases answer with
  | error error => exact hopened
  | ok endpoint =>
      cases hlogs : endpoint.settings.logsPlans with
      | true =>
          have hplans : ((opened.world.storeAt endpoint.store).dispatch endpoint.settings plan).2.plans =
              (opened.world.storeAt endpoint.store).plans ++ [plan] := if_pos hlogs
          exact hopened.setStore hplans fun _ hmem => by rwa [List.mem_singleton.mp hmem]
      | false =>
          have hplans : ((opened.world.storeAt endpoint.store).dispatch endpoint.settings plan).2.plans =
              (opened.world.storeAt endpoint.store).plans := if_neg (ne_true_of_eq_false hlogs)
          exact hopened.setStore_of_eq hplans

theorem logsSince_release (h : start.LogsSince expected connections.world) :
    start.LogsSince expected connections.release := by
  have hclosed (sessions : List (String × Endpoint)) {world : World} (hworld : start.LogsSince expected world) :
      start.LogsSince expected (sessions.foldl (fun world session => world.setStore session.2.store
        (world.storeAt session.2.store).closeSession) world) := by
    induction sessions generalizing world with
    | nil => exact hworld
    | cons session rest ih => exact ih (hworld.setStore_of_eq rfl)
  exact hclosed connections.sessions h

end Connections

namespace Engine

open Connections (logsSince_dispatch logsSince_release)
open Outcome (Ensures)

/-- A step adds nothing but expected plans to the logs, and says something of its result. -/
abbrev Writes {α : Type} (start : World) (expected : Plan → Prop) (post : α → Prop) (step : Execution α) : Prop :=
  Ensures (fun run => start.LogsSince expected run.connections.world) post (fun _ => True) step

variable {α : Type} {start : World} {expected : Plan → Prop}

/-- A step that leaves all stores alone says of its result that it has it. -/
theorem writes_of_same {step : Execution α} {outcome : Except EngineError α}
    (hworld : ∀ run : Run, (step.run run).2.connections.world = run.connections.world)
    (houtcome : ∀ run : Run, (step.run run).1 = outcome) :
    Writes start expected (fun value => outcome = .ok value) step := by
  intro run hlogs
  dsimp only
  rw [hworld, houtcome]
  refine ⟨hlogs, ?_⟩
  cases outcome <;> trivial

theorem writes_ofTraced (traced : Traced α) :
    Writes start expected (fun value => traced.outcome = .ok value) (Execution.ofTraced traced) :=
  writes_of_same (fun _ => rfl) fun _ => rfl

theorem writes_any {post : α → Prop} {step : Execution α} (h : Writes start expected post step) :
    Writes start expected (fun _ => True) step :=
  h.mono fun _ _ => trivial

theorem writes_effectResult (field : Field) (arguments : Arguments) :
    Writes start expected (fun _ => True) (effectResult field arguments) := by
  unfold effectResult
  split
  · next effect _ _ =>
      have heffect : Writes start expected (fun _ => True) (Execution.runEffect field effect arguments) := by
        intro run hlogs
        refine ⟨hlogs.run_action (effect arguments), ?_⟩
        cases ((Execution.runEffect field effect arguments).run run).1 <;> trivial
      exact heffect.bind fun result _ => Ensures.pure trivial
  · exact Ensures.pure trivial

theorem writes_dispatch (store : String) {plan : Plan} (hplan : expected plan) :
    Writes start expected (fun _ => True) (Execution.dispatch store plan) := by
  intro run hlogs
  refine ⟨logsSince_dispatch hlogs store hplan, ?_⟩
  cases ((Execution.dispatch store plan).run run).1 <;> trivial

variable (schema : Schema) (config : Config) (data? : Option Value)

/-- A plan that was composed, for some tier, for a selection whose field takes a plan. -/
def ComposedFor (level : List BoundSelection) (plan : Plan) : Prop :=
  ∃ selection ∈ level, schema.keyed selection = true ∧ ∃ tier built,
    (Compiler.compose ⟨schema, tier, data?⟩ (schema.field selection.field) built selection.children 1).outcome =
      .ok plan

variable {schema data?}

/-- Nothing is sent before it is composed. -/
theorem writes_fetch {field : Field} {plan : Plan} {children : List BoundSelection}
    (hcomposed : ∀ tier composed, (Compiler.compose ⟨schema, tier, data?⟩ field plan children 1).outcome =
      .ok composed → expected composed) :
    Writes start expected (fun _ => True) (fetch schema config data? field plan children) := by
  unfold fetch
  split
  · refine (writes_ofTraced _).bind fun compiled _ => ?_
    exact writes_any (writes_of_same (fun _ => rfl) fun _ => rfl)
  · dsimp only
    have hcapabilities (store : String) :
        Writes start expected (fun _ => True) (Execution.capabilities store) := by
      intro run hlogs
      refine ⟨hlogs, ?_⟩
      cases ((Execution.capabilities store).run run).1 <;> trivial
    refine (hcapabilities _).bind fun capabilities _ => ?_
    refine (writes_ofTraced _).bind fun compiled hcompiled => ?_
    exact writes_dispatch _ (hcomposed _ compiled hcompiled)

theorem writes_resolveRoot {selection : BoundSelection}
    (hcomposed : schema.keyed selection = true → ∀ tier built composed,
      (Compiler.compose ⟨schema, tier, data?⟩ (schema.field selection.field) built selection.children 1).outcome =
        .ok composed → expected composed) :
    Writes start expected (fun _ => True) (resolveRoot schema config data? selection) := by
  unfold resolveRoot
  dsimp only
  split
  · exact Ensures.pure trivial
  · next htypename =>
      split
      · exact writes_any (writes_ofTraced _)
      · next hpost =>
          have hkeyed : schema.keyed selection = true :=
            Schema.keyed_iff.mpr ⟨eq_false_of_ne_true htypename, eq_false_of_ne_true hpost⟩
          refine (writes_effectResult _ _).bind fun result? _ => ?_
          refine (writes_ofTraced _).bind fun plan _ => ?_
          refine (writes_fetch config fun tier => hcomposed hkeyed tier plan).bind fun raw _ => ?_
          exact writes_any (writes_ofTraced _)

/-- The turns of root selections send the plans that are composed for them. -/
theorem writes_resolveRoots {level rest : List BoundSelection} (hrest : rest ⊆ level) (out : Members) :
    Writes start (ComposedFor schema data? level) (fun _ => True)
      (resolveRoots schema config data? out rest) := by
  induction rest generalizing out with
  | nil => exact Ensures.pure trivial
  | cons selection rest ih =>
      obtain ⟨hmem, hrest⟩ := List.cons_subset.mp hrest
      unfold resolveRoots
      split
      · exact ih hrest out
      · refine (writes_resolveRoot config fun hkeyed tier built composed hcomposed => ?_).bind fun value _ => ih hrest _
        exact ⟨selection, hmem, hkeyed, tier, built, hcomposed⟩

/-- The logs after an execution hold what they held before, and plans that were composed for its root selections. -/
theorem execute_logs {engine : Engine} (hsome : engine.schema? = some schema) {document : Document} {request : Request}
    {level : List BoundSelection} (hbind : engine.bind document request = .ok level) (world : World) :
    world.LogsSince (ComposedFor schema request.data? level) (engine.execute document request world).world := by
  have hwrites : Writes world (ComposedFor schema request.data? level) (fun _ => True) (do
      let out ← resolveRoots schema engine.config request.data? [] level
      pure (.object out) : Execution Value) :=
    (writes_resolveRoots engine.config (List.Subset.refl level) []).bind fun _ _ => Ensures.pure trivial
  apply logsSince_release
  have hlogs := (hwrites (.start world) logsSince_start).1
  rwa [← run_of_bind_ok hsome hbind] at hlogs

end Engine

end GraphQuery
