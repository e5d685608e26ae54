import GraphQuery.Proofs.Query.Frame
import GraphQuery.Proofs.Schema.Session

/-! Safety. The graph of a completed schema is well formed, and so nothing that is asked of it can go wrong
inside it: no argument has a type without a rule, and no read goes past its types and fields. -/

namespace GraphQuery

/-- A fault in an argument whose type has a rule. -/
def ArgumentFault.Typed : ArgumentFault → Prop
  | .unknownType _ _ => False
  | _ => True

/-- An error that does not come from an argument whose type has no rule. -/
def EngineError.Typed : EngineError → Prop
  | .argument error => error.fault.Typed
  | _ => True

theorem EngineError.OfExecution.typed {error : EngineError} (h : error.OfExecution) : error.Typed := by
  cases error with
  | argument _ => cases h
  | _ => exact trivial

/-! ### Arguments -/

namespace RuleRegistry

variable {registry : RuleRegistry} {argument : String} {fault : ArgumentFault}

/-- The type of a value has a rule inside all of its wrappers. -/
def Rules (registry : RuleRegistry) (type : TypeRef) : Prop :=
  ∃ rule, registry.find? type.innermost = some rule

theorem coerce_typed {type : TypeRef} (hrule : registry.Rules type) {value : Value}
    (h : registry.coerce argument type value = .error fault) : fault.Typed := by
  induction type generalizing value with
  | named name =>
      obtain ⟨rule, hrule⟩ := hrule
      unfold coerce at h
      split at h
      · cases h
      · rcases Outcome.bind_error_iff.mp h with h | ⟨_, _, h⟩
        · unfold RuleRegistry.rule at h
          rw [show registry.find? name = some rule from hrule] at h
          cases h
        · split at h
          · cases h
          · cases h
            exact trivial
  | list item ih =>
      unfold coerce at h
      split at h
      · cases h
      · obtain ⟨_, _, h⟩ := Outcome.error_of_mapM (Outcome.map_error_iff.mp h)
        exact ih hrule h
      · exact ih hrule (Outcome.map_error_iff.mp h)
  | nonNull inner ih =>
      unfold coerce at h
      split at h
      · cases h
        exact trivial
      · exact ih hrule h

theorem zeroValue_ok {type : TypeRef} (hrule : registry.Rules type) :
    ∃ value, registry.zeroValue argument type = .ok value := by
  induction type with
  | named name =>
      obtain ⟨rule, hrule⟩ := hrule
      unfold zeroValue RuleRegistry.rule
      rw [show registry.find? name = some rule from hrule]
      exact ⟨rule.zero, rfl⟩
  | list item _ => exact ⟨_, rfl⟩
  | nonNull inner ih => exact ih hrule

theorem given_typed {vars : Members} {literal? : Option Literal} (h : given vars literal? = .error fault) :
    fault.Typed := by
  unfold given at h
  split at h
  · cases h
  · split at h
    · cases h
    · split at h
      · cases h
      · cases h
        exact trivial

theorem omitted_typed {parameter : Parameter} (hrule : registry.Rules parameter.type) {literal? : Option Literal}
    (h : registry.omitted parameter literal? = .error fault) : fault.Typed := by
  unfold omitted at h
  split at h
  · exact coerce_typed hrule h
  · split at h
    · split at h
      · cases h
        exact trivial
      · cases h
        exact trivial
    · obtain ⟨value, hvalue⟩ := zeroValue_ok hrule
      rw [hvalue] at h
      cases h

theorem bindParameter_typed {supplied : List (String × Literal)} {vars : Members} {bound : Arguments}
    {parameter : Parameter} (hrule : registry.Rules parameter.type)
    (h : registry.bindParameter supplied vars bound parameter = .error fault) : fault.Typed := by
  rcases Outcome.bind_error_iff.mp h with h | ⟨value?, _, h⟩
  · exact given_typed h
  · cases value? with
    | none =>
        rcases Outcome.bind_error_iff.mp h with h | ⟨_, _, h⟩
        · exact omitted_typed hrule h
        · cases h
    | some value =>
        rcases Outcome.bind_error_iff.mp h with h | ⟨_, _, h⟩
        · exact coerce_typed hrule h
        · cases h

theorem bindArguments_typed {field : String} {parameters : List Parameter}
    (hrules : ∀ parameter ∈ parameters, registry.Rules parameter.type) {supplied : List (String × Literal)}
    {vars : Members} {error : ArgumentError}
    (h : registry.bindArguments field parameters supplied vars = .error error) : error.fault.Typed := by
  obtain ⟨fault, hfault, rfl⟩ := Outcome.mapError_error_iff.mp h
  split at hfault
  · cases hfault
    exact trivial
  · obtain ⟨_, parameter, hmem, hfault⟩ := Outcome.error_of_foldlM hfault
    exact bindParameter_typed (hrules parameter hmem) hfault

end RuleRegistry

/-! ### Binding -/

namespace Binder

variable {binder : Binder} {error : EngineError}

theorem checkDepth_typed {depth : Nat} (h : binder.checkDepth depth = .error error) : error.Typed := by
  unfold checkDepth at h
  split at h
  · split at h
    · cases h
      exact trivial
    · cases h
  · cases h

theorem conditionType_typed {name : String} (h : binder.conditionType name = .error error) : error.Typed := by
  unfold conditionType at h
  split at h
  · cases h
  · cases h
    exact trivial

theorem resolveField_typed {owner scope : TypeId} {name : String}
    (h : binder.resolveField owner scope name = .error error) : error.Typed := by
  unfold resolveField at h
  dsimp only at h
  split at h
  · cases h
    exact trivial
  · split at h
    · cases h
    · cases h
      exact trivial

variable (hclosed : binder.schema.Closed)

include hclosed

theorem bindArguments_typed {owner : TypeId} {name : String} {field : Field}
    (hlookup : binder.schema.lookupField? owner name = some field) {supplied : List (String × Literal)}
    (h : binder.bindArguments field supplied = .error error) : error.Typed := by
  obtain ⟨fault, hfault, rfl⟩ := Outcome.mapError_error_iff.mp h
  exact RuleRegistry.bindArguments_typed (hclosed.parameter_rule field (hclosed.mem_of_lookup hlookup)) hfault

/-- Selections of which no spread fails for a type without a rule do not either. -/
theorem bindSelections_typed {spread : SpreadBinding}
    (hspread : ∀ owner depth name error, spread owner depth name = .error error → error.Typed)
    (selections : List Selection) : ∀ {owner : TypeId} {condition? : Option TypeId} {depth : Nat}
      {error : EngineError},
      binder.bindSelections spread owner condition? depth selections = .error error → error.Typed := by
  induction selections using Selection.set_induction with
  | step set below =>
      intro owner condition? depth error h
      induction set with
      | nil => cases h
      | cons selection rest ih =>
          rcases Outcome.bind_error_iff.mp h with h | ⟨_, _, h⟩
          · have hbelow := @below selection List.mem_cons_self
            cases selection with
            | field alias? name supplied selections =>
                rw [bindSelection_field] at h
                rcases Outcome.bind_error_iff.mp h with h | ⟨_, _, h⟩
                · exact checkDepth_typed h
                rcases Outcome.bind_error_iff.mp h with h | ⟨field, hfield, h⟩
                · exact resolveField_typed h
                rcases Outcome.bind_error_iff.mp h with h | ⟨_, _, h⟩
                · exact bindArguments_typed hclosed (resolveField_ok hfield).1 h
                rcases Outcome.bind_error_iff.mp h with h | ⟨_, _, h⟩
                · unfold bindInside at h
                  split at h
                  · cases h
                  · exact hbelow h
                · cases h
            | inline name? selections =>
                cases name? with
                | none => exact hbelow h
                | some name =>
                    rcases Outcome.bind_error_iff.mp h with h | ⟨_, _, h⟩
                    · exact conditionType_typed h
                    · exact hbelow h
            | spread name => exact hspread owner depth name error h
          · rcases Outcome.bind_error_iff.mp h with h | ⟨_, _, h⟩
            · exact ih (fun other hmem => below other (List.mem_cons_of_mem _ hmem)) h
            · cases h

theorem bindSpread_typed (fuel : Nat) (active : List String) (owner : TypeId) (depth : Nat) (name : String)
    (error : EngineError) (h : binder.bindSpread fuel active owner depth name = .error error) : error.Typed := by
  induction fuel generalizing active owner depth name error with
  | zero =>
      unfold bindSpread at h
      split at h
      · cases h
        exact trivial
      · split at h <;> cases h
  | succ fuel ih =>
      unfold bindSpread at h
      split at h
      · cases h
        exact trivial
      · next fragment _ =>
        split at h
        · cases h
        · rcases Outcome.bind_error_iff.mp h with h | ⟨_, _, h⟩
          · exact conditionType_typed h
          · exact bindSelections_typed hclosed (ih (name :: active)) fragment.selections h

theorem bind_typed {root : TypeId} {selections : List Selection} (h : binder.bind root selections = .error error) :
    error.Typed :=
  bindSelections_typed hclosed (bindSpread_typed hclosed _ _) selections (Outcome.map_error_iff.mp h)

end Binder

theorem Operation.addDefault_typed {vars : Members} {decl : VariableDecl} {error : EngineError}
    (h : addDefault vars decl = .error error) : error.Typed := by
  unfold addDefault at h
  split at h
  · split at h
    · cases h
    · cases h
      exact trivial
  · cases h

theorem Schema.bind_typed {schema : Schema} (hclosed : schema.Closed) {maxDepth : Option Nat} {document : Document}
    {request : Request} {error : EngineError} (h : schema.bind maxDepth document request = .error error) :
    error.Typed := by
  rcases Outcome.bind_error_iff.mp h with h | ⟨operation, _, h⟩
  · unfold Document.selectOperation at h
    split at h <;> split at h <;> cases h <;> exact trivial
  rcases Outcome.bind_error_iff.mp h with h | ⟨root, _, h⟩
  · unfold Operation.root at h
    split at h <;> cases h
    exact trivial
  rcases Outcome.bind_error_iff.mp h with h | ⟨vars, _, h⟩
  · obtain ⟨_, _, _, h⟩ := Outcome.error_of_foldlM h
    exact Operation.addDefault_typed h
  · exact Binder.bind_typed hclosed h

/-! ### Requests -/

namespace Engine

variable {schema : Schema} (hcompleted : schema.Completed) {config : Config} {document : Document}
  {request : Request} {error : EngineError}

include hcompleted

theorem bind_typed (h : bind ⟨some schema, config⟩ document request = .error error) : error.Typed :=
  Schema.bind_typed hcompleted.closed h

theorem estimate_typed (h : estimate ⟨some schema, config⟩ document request = .error error) : error.Typed := by
  change (bind ⟨some schema, config⟩ document request >>= _) = _ at h
  rcases Outcome.bind_error_iff.mp h with h | ⟨_, _, h⟩
  · exact bind_typed hcompleted h
  · cases h

theorem execute_typed {world : World}
    (h : (execute ⟨some schema, config⟩ document request world).answer = .error error) : error.Typed := by
  cases hbind : bind ⟨some schema, config⟩ document request with
  | error cause =>
      change ((run ⟨some schema, config⟩ document request).run (.start world)).1 = _ at h
      rw [run_of_bind_error hbind] at h
      cases h
      exact bind_typed hcompleted hbind
  | ok level =>
      obtain ⟨root, hbound⟩ := exists_bound rfl hcompleted.wellFormed hbind
      exact (ofExecution_of_bound hcompleted.wellFormed rfl hbind hbound h).typed

end Engine

namespace Session

/-- The graph that a session gets is well formed, and nothing that is asked of it goes wrong inside it: no
request fails for an argument whose type has no rule, all that a request binds to bears places of the graph,
and what it binds to, costs and answers depends on nothing past them. -/
theorem completed_graph_safe (calls : List Call) (schema : Schema)
    (h : reply (after .start calls) .complete = .ok (.schema schema)) :
    schema.Closed ∧ ∀ (config : Config) (document : Document) (request : Request) (world : World),
      let engine : Engine := ⟨some schema, config⟩
      (∀ field argument typeName,
        let error : EngineError := .argument ⟨field, .unknownType argument typeName⟩
        engine.bind document request ≠ .error error ∧ engine.estimate document request ≠ .error error ∧
          (engine.execute document request world).answer ≠ .error error) ∧
      (∀ level, engine.bind document request = .ok level →
        ∃ root < schema.types.length, schema.PlacedLevel root level) ∧
      ∀ other, schema.Agrees other →
        Engine.bind ⟨some other, config⟩ document request = engine.bind document request ∧
        Engine.estimate ⟨some other, config⟩ document request = engine.estimate document request ∧
        Engine.execute ⟨some other, config⟩ document request world = engine.execute document request world := by
  have hcompleted := completed_of_reply h
  refine ⟨hcompleted.closed, fun config document request world => ⟨?_, ?_, ?_⟩⟩
  · intro field argument typeName
    exact ⟨Engine.bind_typed hcompleted, Engine.estimate_typed hcompleted, Engine.execute_typed hcompleted⟩
  · exact fun level => Engine.placed_of_bind hcompleted config document request
  · intro other hagrees
    exact ⟨Engine.bind_agrees hcompleted config document request hagrees,
      Engine.estimate_agrees hcompleted config document request hagrees,
      Engine.execute_agrees hcompleted config document request hagrees world⟩

/-- A kennel whose dogs are declared once more, which is refused: its graph is well formed, and with any
types and fields behind its own ones a query of its animals is answered in the same way. -/
theorem kennel_graph_safe :
    let calls : List Call := (Declaration.kennel ++ [Declaration.type (.ofKind .object "Dog")]).map .declaration
    let document := Engine.kennelQuery [.field none "id" [] []]
    ((transcript .start calls).map fun entry => entry.2.isOk) = List.replicate 10 true ++ [false] ∧
      ∃ schema, reply (after .start calls) .complete = .ok (.schema schema) ∧ schema.Closed ∧
        ∀ types fields,
          Engine.execute ⟨some (schema.extend types fields), .standard⟩ document .plain Engine.kennelWorld =
            Engine.execute ⟨some schema, .standard⟩ document .plain Engine.kennelWorld := by
  intro calls document
  refine ⟨by decide +kernel, ?_⟩
  have hcomplete : (after .start calls).complete.1.isOk = true := by decide +kernel
  obtain ⟨schema, hschema⟩ := Outcome.exists_of_isOk hcomplete
  have hreply : reply (after .start calls) .complete = .ok (.schema schema) := by
    rw [reply_complete, hschema]
    rfl
  obtain ⟨hclosed, hsafe⟩ := completed_graph_safe calls schema hreply
  refine ⟨schema, hreply, hclosed, fun types fields => ?_⟩
  obtain ⟨_, _, hagrees⟩ := hsafe .standard document .plain Engine.kennelWorld
  exact (hagrees _ (schema.agrees_extend types fields)).2.2

end Session

end GraphQuery
