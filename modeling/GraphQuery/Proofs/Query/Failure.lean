import GraphQuery.Proofs.Query.Binding
import GraphQuery.Proofs.Query.Render
import GraphQuery.Query.Execution

/-! How requests fail. Until a request is bound nothing has run, so that one that is refused leaves no
trace. Afterwards the keys of every level are there, and only stores and the functions of fields can
fail: no error of binding comes back from compiling or rendering, at any depth. -/

namespace GraphQuery

/-- An error of a store or of a function of a field. -/
def EngineError.OfExecution : EngineError → Prop
  | .backend _ => True
  | .resolver _ _ => True
  | _ => False

/-- An error with which a request is refused. -/
def EngineError.OfRefusal : EngineError → Prop
  | .notCompleted => True
  | .fieldNotFound _ _ => True
  | .typeNotFound _ => True
  | .argument _ => True
  | .document _ => True
  | _ => False

instance EngineError.decidableOfRefusal : (error : EngineError) → Decidable error.OfRefusal
  | .notCompleted => isTrue trivial
  | .fieldNotFound _ _ => isTrue trivial
  | .typeNotFound _ => isTrue trivial
  | .argument _ => isTrue trivial
  | .document _ => isTrue trivial
  | .schema _ => isFalse id
  | .backend _ => isFalse id
  | .resolver _ _ => isFalse id

theorem EngineError.not_refusal {error : EngineError} (h : error.OfExecution) : ¬error.OfRefusal := by
  cases error <;> simp_all [EngineError.OfExecution, EngineError.OfRefusal]

namespace Traced

variable {α β : Type}

/-- All errors of a computation satisfy a condition. -/
def Fails (fails : EngineError → Prop) (traced : Traced α) : Prop :=
  ∀ error, traced.outcome = .error error → fails error

variable {fails : EngineError → Prop}

theorem Fails.pure (value : α) : Fails fails (Pure.pure value) := by
  intro error h
  cases h

theorem Fails.bind_of_ok {first : Traced α} {next : α → Traced β} (hfirst : first.Fails fails)
    (hnext : ∀ value, first.outcome = .ok value → (next value).Fails fails) : (first >>= next).Fails fails := by
  intro error h
  rcases bind_error_iff.mp h with h | ⟨value, hvalue, h⟩
  · exact hfirst error h
  · exact hnext value hvalue error h

theorem Fails.bind {first : Traced α} {next : α → Traced β} (hfirst : first.Fails fails)
    (hnext : ∀ value, (next value).Fails fails) : (first >>= next).Fails fails :=
  hfirst.bind_of_ok fun value _ => hnext value

theorem Fails.mapM {step : α → Traced β} {items : List α}
    (hstep : ∀ item ∈ items, (step item).Fails fails) : (items.mapM step).Fails fails := by
  induction items with
  | nil => exact Fails.pure []
  | cons item rest ih =>
      rw [List.mapM_cons]
      refine (hstep item List.mem_cons_self).bind fun result => ?_
      refine (ih fun other hmem => hstep other (List.mem_cons_of_mem _ hmem)).bind fun results => ?_
      exact Fails.pure _

theorem fails_backend {answer : Except StoreError α} (h : ∀ error, answer = .error error → fails (.backend error)) :
    (ofExcept (answer.mapError .backend)).Fails fails := by
  intro error herror
  obtain ⟨cause, hcause, rfl⟩ := Outcome.mapError_error_iff.mp herror
  exact h cause hcause

variable (hresolver : ∀ name text, fails (.resolver name text))

include hresolver

theorem fails_call {kind : CallKind} {field : Field} {arguments : Arguments} {answer : Except String α} :
    (call kind field arguments answer).Fails fails := by
  intro error h
  obtain ⟨text, _, rfl⟩ := Outcome.mapError_error_iff.mp h
  exact hresolver field.name text

theorem fails_resolver {name : String} {answer : Except String α} :
    (ofExcept (answer.mapError (.resolver name))).Fails fails := by
  intro error h
  obtain ⟨text, _, rfl⟩ := Outcome.mapError_error_iff.mp h
  exact hresolver name text

end Traced

open Traced (Fails)

section

variable {fails : EngineError → Prop} (hresolver : ∀ name text, fails (.resolver name text))

include hresolver

theorem Field.tracedPlan_fails (field : Field) (scope : PlanScope) (arguments : Arguments) :
    (field.tracedPlan scope arguments).Fails fails := by
  unfold tracedPlan
  dsimp only
  split
  · exact Traced.fails_call hresolver
  · exact Traced.fails_resolver hresolver

theorem Field.tracedValue_fails (field : Field) (arguments : Arguments) :
    (field.tracedValue arguments).Fails fails := by
  unfold tracedValue
  dsimp only
  split
  · exact Traced.fails_call hresolver
  · exact Traced.fails_resolver hresolver

/-! ### Compiling -/

namespace Compiler

variable {compiler : Compiler}

omit hresolver in
theorem compose_fails {field : Field} {plan : Plan} {children : List BoundSelection} {depth : Nat}
    (hrecord : (compiler.record (compiler.schema.type field.target) children depth).Fails
      fails) :
    (compiler.compose field plan children depth).Fails fails := by
  unfold compose
  dsimp only
  split
  · exact Fails.pure _
  · exact hrecord.bind fun _ => Fails.pure _

/-- Compiling a bound level fails only when a function of a field does. -/
theorem record_fails (hschema : compiler.schema.WellFormed) (level : List BoundSelection) :
    ∀ {owner : TypeId} (depth : Nat), compiler.schema.Bound owner level →
      (compiler.record (compiler.schema.type owner) level depth).Fails fails := by
  induction level using BoundSelection.level_induction with
  | step level below =>
      intro owner depth hlevel
      obtain ⟨key?, hkeys, _⟩ := Schema.recordKeys_ok hschema hlevel.carries
      rw [record_eq hkeys]
      refine Fails.bind (Fails.mapM fun selection hfirst => ?_) fun _ => Fails.pure _
      have hmem := (Keyed.mem_firsts hfirst).1
      refine Fails.bind ?_ fun _ => Fails.pure _
      refine Fails.bind (Field.tracedPlan_fails hresolver _ _ _) fun plan => ?_
      refine Fails.bind ?_ fun _ => Fails.pure _
      exact compose_fails (below selection hmem (depth + 1) (hlevel.children selection hmem))

end Compiler

end

/-! ### Rendering -/

namespace Value

mutual

theorem mapObjects_fails {change : Members → Traced Members} {fails : EngineError → Prop}
    (hchange : ∀ members, (change members).Fails fails) :
    ∀ value : Value, (value.mapObjects change).Fails fails
  | .null => Fails.pure _
  | .bool _ => Fails.pure _
  | .number _ => Fails.pure _
  | .string _ => Fails.pure _
  | .array items => (mapObjectsAll_fails hchange items).bind fun _ => Fails.pure _
  | .object members => (hchange members).bind fun _ => Fails.pure _

theorem mapObjectsAll_fails {change : Members → Traced Members} {fails : EngineError → Prop}
    (hchange : ∀ members, (change members).Fails fails) :
    ∀ items : List Value, (mapObjectsAll change items).Fails fails
  | [] => Fails.pure _
  | item :: rest => (mapObjects_fails hchange item).bind fun _ =>
      (mapObjectsAll_fails hchange rest).bind fun _ => Fails.pure _

end

end Value

namespace Renderer

variable {renderer : Renderer} (hschema : renderer.schema.WellFormed) {fails : EngineError → Prop}
  (hresolver : ∀ name text, fails (.resolver name text))
  (hrun : ∀ (plan : Plan) (error : StoreError), plan.run .inProcess = .error error → fails (.backend error))

include hschema hresolver hrun

theorem postRecord_fails {field : Field} {arguments : Arguments} {children : List BoundSelection}
    (hchildren : renderer.schema.Bound field.target children) :
    (renderer.postRecord field arguments children).Fails fails := by
  unfold postRecord
  refine Fails.bind (Field.tracedValue_fails hresolver field arguments) fun computed => ?_
  split
  · exact Fails.pure _
  · refine Fails.bind ?_ fun plan => Traced.fails_backend (hrun plan)
    exact Compiler.compose_fails (Compiler.record_fails hresolver hschema children 1 hchildren)

/-- Rendering a bound level on any row fails only when a post field does. -/
theorem renderRow_fails (level : List BoundSelection) :
    ∀ {owner : TypeId} (row : Members), renderer.schema.Bound owner level →
      (renderer.renderRow (renderer.schema.type owner) level row).Fails fails := by
  induction level using BoundSelection.level_induction with
  | step level below =>
      intro owner row hlevel
      obtain ⟨key?, hkeys, _⟩ := Schema.recordKeys_ok hschema hlevel.carries
      have hpresent (selection : BoundSelection) (hmem : selection ∈ level) (raw : Value) :
          (renderer.present selection raw).Fails fails := by
        unfold present
        dsimp only
        split
        · exact Fails.pure _
        · exact Value.mapObjects_fails
            (fun inner => below selection hmem inner (hlevel.children selection hmem)) raw
      have hentry (selection : BoundSelection) (hmem : selection ∈ level) (key? : Option String) :
          (renderer.entry (renderer.schema.type owner) row (renderer.schema.field selection.field)
            selection.arguments key? selection.children).Fails fails := by
        unfold entry
        split
        · exact (postRecord_fails hschema hresolver hrun (hlevel.children selection hmem)).bind fun _ => Fails.pure _
        · split <;> exact Fails.pure _
      have hentries (keys : List (Option String)) (rest : List BoundSelection) (hrest : rest ⊆ level)
          (out : Members) : (renderer.renderEntries (renderer.schema.type owner) row keys out rest).Fails
            fails := by
        induction rest generalizing keys out with
        | nil => exact Fails.pure _
        | cons selection rest ih =>
            cases keys with
            | nil => exact Fails.pure _
            | cons key? keys =>
                have hmem := hrest List.mem_cons_self
                rw [renderEntries, renderEntry_eq]
                refine Fails.bind ?_ fun out => ih keys (fun _ h => hrest (List.mem_cons_of_mem _ h)) out
                split
                · exact Fails.pure _
                · split
                  · exact Fails.pure _
                  · refine (hentry selection hmem key?).bind fun raw? => ?_
                    cases raw? with
                    | none => exact Fails.pure _
                    | some raw => exact (hpresent selection hmem raw).bind fun _ => Fails.pure _
      rw [renderRow, hkeys, Traced.ofExcept_ok, pure_bind]
      exact hentries _ level (List.Subset.refl _) []

theorem renderField_fails {field : Field} {children : List BoundSelection} (value : Value)
    (hchildren : renderer.schema.Bound field.target children) :
    (renderer.renderField field children value).Fails fails := by
  unfold renderField
  dsimp only
  split
  · exact Fails.pure _
  · exact Value.mapObjects_fails (fun row => renderRow_fails hschema hresolver hrun children row hchildren) value

end Renderer

/-! ### Executing -/

namespace Engine

open Outcome (Ensures Meets)

/-- A step of an execution whose errors are all of stores or of functions of fields. -/
abbrev Runs {α : Type} (step : Execution α) : Prop :=
  Ensures (fun _ => True) (fun _ => True) EngineError.OfExecution step

theorem meets_of_fails {α : Type} {outcome : Except EngineError α}
    (h : ∀ error, outcome = .error error → error.OfExecution) :
    Meets (fun _ => True) EngineError.OfExecution outcome := by
  cases outcome with
  | ok value => exact trivial
  | error error => exact h error rfl

theorem runs_of_fails {α : Type} {step : Execution α}
    (h : ∀ run error, (step.run run).1 = .error error → error.OfExecution) : Runs step :=
  fun run _ => ⟨trivial, meets_of_fails (h run)⟩

theorem runs_ofTraced {α : Type} {traced : Traced α} (h : traced.Fails EngineError.OfExecution) :
    Runs (Execution.ofTraced traced) :=
  runs_of_fails fun _ error herror => h error herror

theorem runs_ofExcept {α : Type} {answer : Except StoreError α} :
    Runs (Execution.ofExcept (answer.mapError .backend)) := by
  refine runs_of_fails fun _ error herror => ?_
  obtain ⟨_, _, rfl⟩ := Outcome.mapError_error_iff.mp herror
  exact trivial

theorem runs_capabilities (store : String) : Runs (Execution.capabilities store) := by
  refine runs_of_fails fun _ error herror => ?_
  obtain ⟨_, _, rfl⟩ := Outcome.mapError_error_iff.mp herror
  exact trivial

theorem runs_dispatch (store : String) (plan : Plan) : Runs (Execution.dispatch store plan) := by
  refine runs_of_fails fun _ error herror => ?_
  obtain ⟨_, _, rfl⟩ := Outcome.mapError_error_iff.mp herror
  exact trivial

theorem runs_runEffect (field : Field) (effect : Effect) (arguments : Arguments) :
    Runs (Execution.runEffect field effect arguments) := by
  refine runs_of_fails fun _ error herror => ?_
  obtain ⟨_, _, rfl⟩ := Outcome.mapError_error_iff.mp herror
  exact trivial

section

variable {schema : Schema} (hschema : schema.WellFormed) (config : Config) (data? : Option Value)

include hschema

theorem runs_fetch {field : Field} {children : List BoundSelection} (plan : Plan)
    (hchildren : schema.Bound field.target children) :
    Runs (fetch schema config data? field plan children) := by
  have hcompose (tier : Tier) :
      (Compiler.compose ⟨schema, tier, data?⟩ field plan children 1).Fails EngineError.OfExecution :=
    Compiler.compose_fails (Compiler.record_fails (fun _ _ => trivial) hschema children 1 hchildren)
  unfold fetch
  split
  · exact (runs_ofTraced (hcompose .enumerable)).bind fun compiled _ => runs_ofExcept
  · dsimp only
    refine (runs_capabilities _).bind fun capabilities _ => ?_
    exact (runs_ofTraced (hcompose _)).bind fun compiled _ => runs_dispatch _ compiled

theorem runs_resolveRoot {selection : BoundSelection}
    (hchildren : schema.Bound (schema.field selection.field).target selection.children) :
    Runs (resolveRoot schema config data? selection) := by
  unfold resolveRoot
  dsimp only
  split
  · exact Ensures.pure trivial
  · split
    · refine runs_ofTraced (Fails.bind ?_ fun value => ?_)
      · exact @Renderer.postRecord_fails ⟨schema, data?⟩ hschema _ (fun _ _ => trivial) (fun _ _ _ => trivial) _ _ _ hchildren
      · exact @Renderer.renderField_fails ⟨schema, data?⟩ hschema _ (fun _ _ => trivial) (fun _ _ _ => trivial) _ _ value hchildren
    · have heffect : Runs (effectResult (schema.field selection.field) selection.arguments) := by
        unfold effectResult
        split
        · exact (runs_runEffect _ _ _).bind fun result _ => Ensures.pure trivial
        · exact Ensures.pure trivial
      refine heffect.bind fun result? _ => ?_
      refine (runs_ofTraced (Field.tracedPlan_fails (fun _ _ => trivial) _ _ _)).bind fun plan _ => ?_
      refine (runs_fetch hschema config data? plan hchildren).bind fun raw _ => runs_ofTraced ?_
      exact @Renderer.renderField_fails ⟨schema, data?⟩ hschema _ (fun _ _ => trivial) (fun _ _ _ => trivial) _ _ raw hchildren

theorem runs_resolveRoots {level : List BoundSelection}
    (hlevel : ∀ selection ∈ level,
      schema.Bound (schema.field selection.field).target selection.children) (out : Members) :
    Runs (resolveRoots schema config data? out level) := by
  induction level generalizing out with
  | nil => exact Ensures.pure trivial
  | cons selection rest ih =>
      have hrest := ih fun other hmem => hlevel other (List.mem_cons_of_mem _ hmem)
      unfold resolveRoots
      split
      · exact hrest out
      · refine (runs_resolveRoot hschema config data? (hlevel selection List.mem_cons_self)).bind ?_
        exact fun value _ => hrest _

end

variable {engine : Engine} {document : Document} {request : Request}

theorem run_of_bind_error {error : EngineError} (h : engine.bind document request = .error error)
    (run : Run) : (engine.run document request).run run = (.error error, run) := by
  unfold Engine.run
  rw [Outcome.run_bind]
  cases hschema : engine.schema with
  | error cause =>
      rw [bind, hschema] at h
      cases h
      rfl
  | ok schema =>
      change ((Execution.ofExcept (engine.bind document request) >>= _) : Execution Value).run run = _
      rw [h]
      rfl

theorem run_of_bind_ok {schema : Schema} {selections : List BoundSelection}
    (hschema : engine.schema? = some schema) (h : engine.bind document request = .ok selections)
    (run : Run) : (engine.run document request).run run = (do
      let out ← resolveRoots schema engine.config request.data? [] selections
      pure (.object out) : Execution Value).run run := by
  have hcompleted : engine.schema = .ok schema := by rw [Engine.schema, hschema]
  unfold Engine.run
  rw [hcompleted, h]
  rfl

/-- What binds a request has a schema. -/
theorem schema_of_bind {level : List BoundSelection} (h : engine.bind document request = .ok level) :
    ∃ schema, engine.schema? = some schema := by
  cases hsome : engine.schema? with
  | some schema => exact ⟨schema, rfl⟩
  | none =>
      rw [bind, Engine.schema, hsome] at h
      cases h

/-- Once a request is bound, only stores and the functions of fields can fail. -/
theorem ofExecution_of_bound {schema : Schema} (hschema : schema.WellFormed) (hsome : engine.schema? = some schema)
    {selections : List BoundSelection} (hbind : engine.bind document request = .ok selections) {root : TypeId}
    (hlevel : schema.Bound root selections) {world : World} {error : EngineError}
    (herror : (engine.execute document request world).answer = .error error) : error.OfExecution := by
  have hruns : Runs (do
      let out ← resolveRoots schema engine.config request.data? [] selections
      pure (.object out) : Execution Value) :=
    (runs_resolveRoots hschema engine.config request.data? hlevel.children []).bind
      fun _ _ => Ensures.pure trivial
  have hmeets := (hruns (.start world) trivial).2
  rw [← run_of_bind_ok hsome hbind] at hmeets
  change ((engine.run document request).run (.start world)).1 = _ at herror
  rw [herror] at hmeets
  exact hmeets

/-- A request that is refused has run nothing, opened no session and sent no plan. Once a request is
bound, keys are found for every level of it, and only stores and the functions of fields can fail. -/
theorem refused_or_executed (engine : Engine)
    (hcompleted : ∀ schema, engine.schema? = some schema → schema.Completed) (document : Document)
    (request : Request) (world : World) :
    (∀ error, (engine.execute document request world).answer = .error error → error.OfRefusal →
      ((engine.run document request).run (.start world)).2 = .start world ∧
        (engine.execute document request world).world = world ∧
        (engine.execute document request world).calls = []) ∧
    ∀ selections, engine.bind document request = .ok selections →
      (∀ error, (engine.execute document request world).answer = .error error → error.OfExecution) ∧
      ∀ schema operation root, engine.schema? = some schema →
        document.selectOperation request.operation? = .ok operation →
        operation.root schema = .ok root → ∀ owner level, schema.Below root selections owner level →
          ∃ keys, schema.recordKeys (schema.type owner) level = .ok keys := by
  have hbound (selections : List BoundSelection) (hbind : engine.bind document request = .ok selections) :
      ∃ schema operation root, engine.schema? = some schema ∧
        document.selectOperation request.operation? = .ok operation ∧
        operation.root schema = .ok root ∧ schema.Bound root selections ∧ schema.WellFormed := by
    obtain ⟨schema, hschema, hbind⟩ := Outcome.bind_ok_iff.mp hbind
    have hsome : engine.schema? = some schema := by
      unfold Engine.schema at hschema
      split at hschema
      · next found hfound =>
          cases hschema
          exact hfound
      · cases hschema
    have hwell := (hcompleted schema hsome).wellFormed
    obtain ⟨operation, root, hoperation, hroot, hlevel⟩ := Schema.bound_of_bind hwell hbind
    exact ⟨schema, operation, root, hsome, hoperation, hroot, hlevel, hwell⟩
  have hexecution (selections : List BoundSelection)
      (hbind : engine.bind document request = .ok selections) (error : EngineError)
      (herror : (engine.execute document request world).answer = .error error) :
      error.OfExecution := by
    obtain ⟨schema, _, root, hsome, _, _, hlevel, hwell⟩ := hbound selections hbind
    exact ofExecution_of_bound hwell hsome hbind hlevel herror
  constructor
  · intro error herror hrefusal
    cases hbind : engine.bind document request with
    | error cause =>
        have hrun := run_of_bind_error hbind (.start world)
        refine ⟨congrArg Prod.snd hrun, ?_, ?_⟩
        · change ((engine.run document request).run (.start world)).2.connections.release = world
          rw [hrun]
          rfl
        · change ((engine.run document request).run (.start world)).2.calls = []
          rw [hrun]
          rfl
    | ok selections =>
        exact absurd hrefusal (EngineError.not_refusal (hexecution selections hbind error herror))
  · intro selections hbind
    refine ⟨hexecution selections hbind, ?_⟩
    intro schema operation root hschema hoperation hroot owner level hbelow
    obtain ⟨schema', operation', root', hschema', hoperation', hroot', hlevel, hwell⟩ :=
      hbound selections hbind
    rw [hschema, Option.some.injEq] at hschema'
    rw [hoperation, Except.ok.injEq] at hoperation'
    subst hschema' hoperation'
    rw [hroot, Except.ok.injEq] at hroot'
    subst hroot'
    obtain ⟨key?, hkeys, _⟩ := Schema.recordKeys_ok hwell (hlevel.of_below hbelow).carries
    exact ⟨_, hkeys⟩

/-- Animals have no visitors: who asks for them is refused and leaves no trace. -/
theorem animals_refuse_visitors :
    let engine : Engine := ⟨some .animals, .standard⟩
    let document : Document := ⟨[⟨.query, none, [], [.field none "visitors" [] []]⟩], []⟩
    (∀ schema, engine.schema? = some schema → schema.Completed) ∧
      ∃ error, (engine.execute document .plain .empty).answer = .error error ∧ error.OfRefusal ∧
        ((engine.run document .plain).run (.start .empty)).2 = .start .empty := by
  intro engine document
  have hcompleted : ∀ schema, engine.schema? = some schema → schema.Completed := by
    rintro schema hschema
    cases hschema
    exact Schema.animals_completed
  refine ⟨hcompleted, ?_⟩
  have hrefused : (match (engine.execute document .plain .empty).answer with
      | .error error => decide error.OfRefusal
      | .ok _ => false) = true := by
    decide +kernel
  cases hanswer : (engine.execute document .plain .empty).answer with
  | ok value =>
      rw [hanswer] at hrefused
      cases hrefused
  | error error =>
      rw [hanswer] at hrefused
      have hkind := of_decide_eq_true hrefused
      have htrace := (refused_or_executed engine hcompleted document .plain .empty).1 error hanswer hkind
      exact ⟨error, rfl, hkind, htrace.1⟩

end Engine

end GraphQuery
