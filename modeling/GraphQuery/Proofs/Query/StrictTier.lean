import GraphQuery.Proofs.Plan.Part
import GraphQuery.Proofs.Query.ParentScope
import GraphQuery.Proofs.Query.Turn

/-! The strict tier never casts. Compiling puts plans of builders, names of types and wrappers together, and
in the strict tier none of the wrappers is a cast. A store that refuses casts therefore refuses no plan of
this tier, provided that its check looks at every node; evaluation has no failure of its own that looks like
such a refusal. -/

namespace GraphQuery

open Plan (CastFree castFree_iff_any)
open Traced (Fails)

namespace Plan

variable {source : Source} {operation node : String}

/-- A plan is unsupported only where one of its collections is. -/
theorem run_ne_unsupported
    (hsource : ∀ collection, source.collection collection ≠ .error (.unsupported operation node)) (plan : Plan) :
    plan.run source ≠ .error (.unsupported operation node) := by
  have hsequence (operation' found : String) :
      StoreError.unsupported operation node ≠ .notASequence operation' found := nofun
  exact evalIn_avoids hsequence hsource (fun _ hname => by cases hname) .null

end Plan

namespace Store

variable (store : Store) (settings : StoreSettings) {plan : Plan}

theorem documents_ne_unsupported (backend node collection : String) :
    (store.source settings).collection collection ≠ .error (.unsupported backend node) := by
  show store.documents collection ≠ _
  unfold documents
  split <;> exact nofun

/-- A store evaluates a plan without casts, whether or not it supports them. -/
theorem dispatch_of_castFree (h : plan.CastFree) :
    (store.dispatch settings plan).1 = plan.run (store.source settings) := by
  show (if !settings.capabilities.supportsCast && plan.any Plan.isCast then _ else _) = _
  rw [castFree_iff_any.mp h, Bool.and_false, if_neg Bool.false_ne_true]

/-- A store refuses casts only where it does not support them and there is one. -/
theorem dispatch_ne_unsupported (h : settings.capabilities.supportsCast = false → plan.CastFree) (node : String) :
    (store.dispatch settings plan).1 ≠ .error (.unsupported name node) := by
  have hrun := Plan.run_ne_unsupported (store.documents_ne_unsupported settings name node) plan
  cases hsupports : settings.capabilities.supportsCast with
  | true =>
      show (if !settings.capabilities.supportsCast && plan.any Plan.isCast then _ else _) ≠ _
      rwa [hsupports, Bool.not_true, Bool.false_and, if_neg Bool.false_ne_true]
  | false => rwa [store.dispatch_of_castFree settings (h hsupports)]

end Store

/-! ### Compiling -/

namespace Field

/-- Does the plan that a field builds in a scope cast? There may be no such plan. -/
def castsIn (field : Field) (scope : PlanScope) (arguments : Arguments) : Bool :=
  (field.tracedPlan scope arguments).outcome.toOption.any (Plan.any Plan.isCast)

theorem castFree_of_castsIn {field : Field} {scope : PlanScope} {arguments : Arguments} {plan : Plan}
    (hcasts : field.castsIn scope arguments = false) (hplan : (field.tracedPlan scope arguments).outcome = .ok plan) :
    plan.CastFree := by
  rw [castsIn, hplan] at hcasts
  exact castFree_iff_any.mpr hcasts

end Field

namespace Schema

/-- The plans that a selection builds on rows, as these are or under the name of a parent, do not cast. -/
def BuildsCastFree (schema : Schema) (data? : Option Value) (selection : BoundSelection) : Prop :=
  let field := schema.field selection.field
  ∀ depth plan, (field.tracedPlan ⟨Compiler.parentOf field .row depth, none, data?⟩ selection.arguments).outcome =
    .ok plan → plan.CastFree

/-- The plans that a root selection builds, whatever the result of its effect if it has one, do not cast. -/
def StartsCastFree (schema : Schema) (data? : Option Value) (selection : BoundSelection) : Prop :=
  let field := schema.field selection.field
  ∀ result? plan, (field.isMutation = false → result? = none) →
    (field.tracedPlan ⟨.context, result?, data?⟩ selection.arguments).outcome = .ok plan → plan.CastFree

/-- A builder that sees its row need be tried on a row only. -/
theorem buildsCastFree_of_row {schema : Schema} {data? : Option Value} {selection : BoundSelection}
    (hsees : Compiler.seesRow (schema.field selection.field) = true)
    (hcasts : (schema.field selection.field).castsIn ⟨.row, none, data?⟩ selection.arguments = false) :
    schema.BuildsCastFree data? selection := by
  intro depth plan hplan
  rw [Compiler.parentOf, if_pos hsees] at hplan
  exact Field.castFree_of_castsIn hcasts hplan

/-- A builder of a query need be tried without the result of an effect only. -/
theorem startsCastFree_of_query {schema : Schema} {data? : Option Value} {selection : BoundSelection}
    (hquery : (schema.field selection.field).isMutation = false)
    (hcasts : (schema.field selection.field).castsIn ⟨.context, none, data?⟩ selection.arguments = false) :
    schema.StartsCastFree data? selection := by
  intro result? plan hresult hplan
  rw [hresult hquery] at hplan
  exact Field.castFree_of_castsIn hcasts hplan

end Schema

/-- Naming the type of a row takes tests of its shape, but no casts. -/
theorem Completion.castFree_typenamePlan (context : Merge.Context) (type : TypeId) (concrete : List TypeId) :
    (typenamePlan context type concrete).CastFree := by
  rw [castFree_iff_any, typenamePlan]
  induction concrete with
  | nil => rfl
  | cons id rest ih => simp only [List.foldr_cons, Plan.any, Plan.isCast, ih, Bool.or_false]

theorem Schema.Completed.castFree_typename {schema : Schema} (h : schema.Completed) (id : TypeId) :
    (schema.type id).typename.CastFree := by
  by_cases hlt : id < schema.types.length
  · obtain ⟨context, built, horigin, rfl⟩ := h.exists_origin
    show (built.type id).typename.CastFree
    rw [(horigin.typeOf hlt).typename_eq]
    exact Completion.castFree_typenamePlan context id _
  · have hdefault : schema.type id = default := by
      rw [Schema.type, List.getD_eq_default _ _ (Nat.le_of_not_lt hlt)]
    rw [hdefault]
    exact castFree_iff_any.mpr rfl

namespace Compiler

section

variable {schema : Schema} {data? : Option Value} {field : Field} {plan record : Plan}

theorem castFree_project {compiler : Compiler} (hplan : plan.CastFree) (hrecord : record.CastFree) :
    (compiler.project field plan record).CastFree := by
  rw [castFree_iff_any] at hplan hrecord ⊢
  unfold project
  split
  · unfold listOf
    split <;> simp [Plan.any, Plan.isCast, hplan, hrecord]
  · split
    · simp [any_materialize, Plan.any, Plan.isCast, hplan, hrecord]
    · simp [Plan.any, Plan.isCast, hplan, hrecord]

theorem castFree_recordOf {compiler : Compiler} {type : SchemaType} {level : List BoundSelection}
    {bindings : List (String × Plan)} (htypename : type.typename.CastFree)
    (hbindings : ∀ entry ∈ bindings, entry.2.CastFree) : (compiler.recordOf type level bindings).CastFree := by
  refine Plan.castFree_node_iff.mpr ⟨rfl, fun part hmem => ?_⟩
  obtain ⟨entry, hentry, rfl⟩ := List.mem_map.mp hmem
  split at hentry
  · rcases List.mem_cons.mp hentry with rfl | hentry
    · exact htypename
    · exact hbindings entry (List.mem_of_mem_filter hentry)
  · exact hbindings entry hentry

theorem castFree_bindParent {base : Plan} {depth : Nat} (hbase : base.CastFree) (hplan : plan.CastFree) :
    (bindParent field base depth plan).CastFree := by
  unfold bindParent
  split
  · exact hplan
  · rw [castFree_iff_any] at hbase hplan ⊢
    simp [Plan.any, Plan.isCast, hbase, hplan]

/-- Rows are never cast in the strict tier. -/
theorem rowOf_strict (owner : SchemaType) : rowOf ⟨schema, .strictTyped, data?⟩ owner field = .row := by
  show (if _ && false then _ else _) = _
  rw [Bool.and_false, if_neg Bool.false_ne_true]

theorem guardPartial_strict (owner : SchemaType) :
    guardPartial ⟨schema, .strictTyped, data?⟩ owner field plan = plan := by
  show (if _ && false && _ then _ else _) = _
  rw [Bool.and_false, Bool.false_and, if_neg Bool.false_ne_true]

theorem castFree_compose {compiler : Compiler} {children : List BoundSelection} {depth : Nat} (hplan : plan.CastFree)
    (hrecord : ∀ record, (compiler.record (compiler.schema.type field.target) children depth).outcome = .ok record →
      record.CastFree) {composed : Plan}
    (hcomposed : (compiler.compose field plan children depth).outcome = .ok composed) : composed.CastFree := by
  unfold compose at hcomposed
  dsimp only at hcomposed
  split at hcomposed
  · cases hcomposed
    rwa [castFree_iff_any, any_materialize, ← castFree_iff_any]
  · obtain ⟨record, hok, hpure⟩ := Traced.bind_ok_iff.mp hcomposed
    cases hpure
    exact castFree_project hplan (hrecord record hok)

end

variable {schema : Schema} (hcompleted : schema.Completed) {data? : Option Value}

include hcompleted

/-- Records of the strict tier do not cast where no builder of a plan in them does. -/
theorem castFree_record (level : List BoundSelection) : ∀ {owner : TypeId} (depth : Nat),
    schema.Throughout (fun _ => schema.BuildsCastFree data?) owner level → ∀ record,
      (Compiler.record ⟨schema, .strictTyped, data?⟩ (schema.type owner) level depth).outcome = .ok record →
        record.CastFree := by
  induction level using BoundSelection.level_induction with
  | step level below =>
      intro owner depth hbuilds record h
      obtain ⟨keys, _, h⟩ := Traced.bind_ok_iff.mp h
      obtain ⟨bound, hbound, hpure⟩ := Traced.bind_ok_iff.mp h
      cases hpure
      refine castFree_recordOf (hcompleted.castFree_typename owner) (forall_bindSelections ?_ hbound)
      intro selection hmem plan hplan
      obtain ⟨built, hbuilt, hplan⟩ := Traced.bind_ok_iff.mp hplan
      obtain ⟨composed, hcomposed, hpure⟩ := Traced.bind_ok_iff.mp hplan
      cases hpure
      dsimp only at hbuilt hcomposed ⊢
      rw [rowOf_strict] at hbuilt ⊢
      rw [guardPartial_strict]
      have hfree := hbuilds.here selection hmem depth built hbuilt
      apply castFree_bindParent (castFree_iff_any.mpr rfl)
      exact castFree_compose hfree (below selection hmem (depth + 1) (hbuilds.children hmem)) hcomposed

end Compiler

/-! ### Executing -/

/-- An error other than the refusal of a store to cast. -/
def EngineError.NotUncast (error : EngineError) : Prop :=
  error ≠ .backend (.unsupported Store.name "cast")

namespace EngineError

theorem notUncast_resolver (name text : String) : NotUncast (.resolver name text) := nofun

theorem notUncast_inProcess (plan : Plan) (error : StoreError) (h : plan.run .inProcess = .error error) :
    NotUncast (.backend error) := by
  have hsource (collection : String) :
      Source.inProcess.collection collection ≠ .error (.unsupported Store.name "cast") := by
    intro h
    exact absurd (StoreError.unsupported.inj (Except.error.inj h)).1 (by decide)
  intro herror
  cases herror
  exact Plan.run_ne_unsupported hsource plan h

end EngineError

open EngineError (NotUncast notUncast_resolver notUncast_inProcess)

namespace Engine

variable {schema : Schema} (hcompleted : schema.Completed) (config : Config) {data? : Option Value}

include hcompleted

/-- Reading fails for no cast: a store that does not support casts is sent none. -/
theorem readFrom_notUncast {field : Field} {plan : Plan} {children : List BoundSelection} (hplan : plan.CastFree)
    (hbuilds : schema.Throughout (fun _ => schema.BuildsCastFree data?) field.target children)
    (hbound : schema.Bound field.target children) (world : World) :
    (readFrom schema config data? field plan children world).Fails NotUncast := by
  have hcompose (tier : Tier) : (Compiler.compose ⟨schema, tier, data?⟩ field plan children 1).Fails NotUncast :=
    Compiler.compose_fails (Compiler.record_fails notUncast_resolver hcompleted.wellFormed children 1 hbound)
  unfold readFrom
  split
  · exact (hcompose .enumerable).bind fun compiled => Traced.fails_backend (notUncast_inProcess compiled)
  · dsimp only
    rw [World.capabilities]
    cases hendpoint : world.endpoint? (storeOf config field) with
    | none =>
        refine Fails.bind_of_ok (Traced.fails_backend ?_) fun _ hnone => by cases hnone
        rintro _ h hsame
        cases h
        cases hsame
    | some endpoint =>
        refine Fails.bind_of_ok (fun _ h => by cases h) fun capabilities hcapabilities => ?_
        cases hcapabilities
        refine (hcompose _).bind_of_ok fun compiled hcompiled => Traced.fails_backend fun error herror => ?_
        have hstrict : endpoint.settings.capabilities.supportsCast = false → compiled.CastFree := by
          intro hsupports
          have htier : Tier.ofCapabilities endpoint.settings.capabilities = .strictTyped := by
            rw [Tier.ofCapabilities, hsupports]
            rfl
          rw [htier] at hcompiled
          have hrecord := Compiler.castFree_record hcompleted children 1 hbuilds
          exact Compiler.castFree_compose hplan hrecord hcompiled
        rw [World.answer, hendpoint] at herror
        intro hsame
        cases hsame
        exact Store.dispatch_ne_unsupported _ _ hstrict "cast" herror

omit hcompleted in
theorem effectOn_of_plain {field : Field} {arguments : Arguments} {world : World} {result? : Option Value}
    (h : (effectOn field arguments world).outcome = .ok result?) (hplain : field.isMutation = false) :
    result? = none := by
  unfold Field.isMutation at hplain
  unfold effectOn at h
  split at h
  · next hresolver =>
      rw [hresolver] at hplain
      cases hplain
  · cases h
    rfl

/-- So it is with the turn of a root selection. -/
theorem turn_notUncast {selection : BoundSelection} (hstarts : schema.StartsCastFree data? selection)
    (hbuilds : schema.Throughout (fun _ => schema.BuildsCastFree data?)
      (schema.field selection.field).target selection.children)
    (hbound : schema.Bound (schema.field selection.field).target selection.children) (world : World) :
    (turn schema config data? world selection).Fails NotUncast := by
  have hwell := hcompleted.wellFormed
  have hrender (value : Value) : (Renderer.renderField ⟨schema, data?⟩ (schema.field selection.field)
      selection.children value).Fails NotUncast :=
    @Renderer.renderField_fails ⟨schema, data?⟩ hwell _ notUncast_resolver notUncast_inProcess _ _ value hbound
  unfold turn
  dsimp only
  split
  · exact Fails.pure _
  · split
    · refine Fails.bind ?_ hrender
      exact @Renderer.postRecord_fails ⟨schema, data?⟩ hwell _ notUncast_resolver notUncast_inProcess _ _ _ hbound
    · have heffect : (effectOn (schema.field selection.field) selection.arguments world).Fails NotUncast := by
        unfold effectOn
        split
        · exact (Traced.fails_call notUncast_resolver).bind fun _ => Fails.pure _
        · exact Fails.pure _
      refine heffect.bind_of_ok fun result? hresult => ?_
      refine (Field.tracedPlan_fails notUncast_resolver _ _ _).bind_of_ok fun plan hplan => ?_
      have hfree : plan.CastFree := hstarts result? plan (effectOn_of_plain hresult) hplan
      exact (readFrom_notUncast hcompleted config hfree hbuilds hbound _).bind hrender

/-- No execution fails for a cast. -/
theorem execute_notUncast {engine : Engine} (hsome : engine.schema? = some schema) {document : Document}
    {request : Request} {level : List BoundSelection} (hbind : engine.bind document request = .ok level)
    (hstarts : ∀ selection ∈ level, schema.StartsCastFree request.data? selection)
    (hbuilds : ∀ selection ∈ level, schema.Throughout (fun _ => schema.BuildsCastFree request.data?)
      (schema.field selection.field).target selection.children) (world : World) :
    (engine.execute document request world).answer ≠ .error (.backend (.unsupported Store.name "cast")) := by
  obtain ⟨root, hbound⟩ := exists_bound hsome hcompleted.wellFormed hbind
  obtain ⟨hanswer, _, _⟩ := execute_turns schema hsome hbind world
  intro herror
  rw [hanswer] at herror
  have hturns : (turns schema engine.config request.data? world (roots (fun _ => false) level)).Fails NotUncast := by
    refine Fails.mapM fun stage hstage => Fails.bind ?_ fun _ => Fails.pure _
    have hmem := (Keyed.mem_firsts (mem_of_stages schema hstage)).1
    exact turn_notUncast hcompleted engine.config (hstarts _ hmem) (hbuilds _ hmem) (hbound.children _ hmem) stage.1
  exact hturns _ (Outcome.map_error_iff.mp herror) rfl

end Engine

/-- The strict tier never casts. The parts of a node are the plans in all places that it has, so that a search
finds a node if and only if it stands in the plan at some depth. Where neither a plan nor the builders of the
selections below it cast, nothing that the strict tier makes of them does, and a store evaluates it whatever it
supports. So no store ever refuses to cast for a query whose builders do not cast. -/
theorem Schema.strict_tier_never_casts {schema : Schema} (hcompleted : schema.Completed) (data? : Option Value) :
    (∀ part plan : Plan, part ∈ plan.children ↔ Plan.Part part plan) ∧
    (∀ (plan : Plan) (test : Plan → Bool),
      plan.any test = true ↔ ∃ node, Plan.Within node plan ∧ test node = true) ∧
    (∀ (field : Field) (plan : Plan) (children : List BoundSelection) (depth : Nat) (composed : Plan),
      plan.CastFree → schema.Throughout (fun _ => schema.BuildsCastFree data?) field.target children →
      (Compiler.compose ⟨schema, .strictTyped, data?⟩ field plan children depth).outcome = .ok composed →
      composed.CastFree ∧ ∀ (store : Store) (settings : StoreSettings),
        (store.dispatch settings composed).1 = composed.run (store.source settings) ∧
          (store.dispatch settings composed).1 ≠ .error (.unsupported Store.name "cast")) ∧
    ∀ (engine : Engine) (document : Document) (request : Request) (level : List BoundSelection),
      engine.schema? = some schema → request.data? = data? → engine.bind document request = .ok level →
      (∀ selection ∈ level, schema.StartsCastFree data? selection ∧
        schema.Throughout (fun _ => schema.BuildsCastFree data?) (schema.field selection.field).target
          selection.children) →
      ∀ world : World,
        (engine.execute document request world).answer ≠ .error (.backend (.unsupported Store.name "cast")) := by
  refine ⟨fun part plan => Plan.mem_children_iff, fun plan test => Plan.any_iff_within, ?_, ?_⟩
  · intro field plan children depth composed hplan hbuilds hcomposed
    have hrecord := Compiler.castFree_record hcompleted children depth hbuilds
    have hfree : composed.CastFree := Compiler.castFree_compose hplan hrecord hcomposed
    refine ⟨hfree, fun store settings => ⟨store.dispatch_of_castFree settings hfree, ?_⟩⟩
    exact store.dispatch_ne_unsupported settings (fun _ => hfree) "cast"
  · rintro engine document request level hsome rfl hbind hfree world
    exact Engine.execute_notUncast hcompleted hsome hbind (fun selection hmem => (hfree selection hmem).1)
      (fun selection hmem => (hfree selection hmem).2) world

/-- The toys of the dogs in a kennel, whose store does not support casts. Not every animal is a dog, so that the
row of the toys is cast in another tier. -/
theorem Schema.kennel_strict_tier :
    let engine : Engine := ⟨some .kennel, .standard⟩
    let document := Engine.kennelQuery [.field none "id" [] [],
      .inline (some "Dog") [.field none "toys" [] [.field none "label" [] []]]]
    let compiled (tier : Tier) (selection : BoundSelection) := (Compiler.compose ⟨.kennel, tier, none⟩
      (Schema.kennel.field selection.field) (.collection "animals") selection.children 1).outcome
    ∃ level, engine.bind document .plain = .ok level ∧
      (∀ selection ∈ level, ∃ composed,
        compiled .strictTyped selection = .ok composed ∧ composed.CastFree) ∧
      (∀ selection ∈ level, ∃ composed,
        compiled .default selection = .ok composed ∧ composed.any Plan.isCast = true) ∧
      (engine.execute document .plain (Engine.kennelWorld.reporting fun _ => .strictTyped)).answer ≠
        .error (.backend (.unsupported Store.name "cast")) := by
  intro engine document compiled
  have hconcrete : (engine.bind document .plain).isOk = true ∧
      ∀ selection ∈ (engine.bind document .plain).toOption.getD [],
        (Schema.kennel.field selection.field).isMutation = false ∧
        (Schema.kennel.field selection.field).castsIn ⟨.context, none, none⟩ selection.arguments = false ∧
        Schema.kennel.Throughout (fun _ selection =>
          Compiler.seesRow (Schema.kennel.field selection.field) = true ∧
            (Schema.kennel.field selection.field).castsIn ⟨.row, none, none⟩ selection.arguments = false)
          (Schema.kennel.field selection.field).target selection.children ∧
        (compiled .strictTyped selection).isOk = true ∧
        (compiled .default selection).toOption.any (Plan.any Plan.isCast) = true := by
    decide +kernel
  obtain ⟨hbound, hconcrete⟩ := hconcrete
  obtain ⟨level, hbind⟩ := Outcome.exists_of_isOk hbound
  rw [hbind] at hconcrete
  obtain ⟨_, _, hcompose, hexecute⟩ := strict_tier_never_casts kennel_completed none
  have hbuilds (selection : BoundSelection) (hmem : selection ∈ level) :
      Schema.kennel.Throughout (fun _ => Schema.kennel.BuildsCastFree none)
        (Schema.kennel.field selection.field).target selection.children :=
    (hconcrete selection hmem).2.2.1.mono fun _ _ h => buildsCastFree_of_row h.1 h.2
  refine ⟨level, hbind, ?_, ?_, ?_⟩
  · intro selection hmem
    obtain ⟨_, _, _, hstrict, _⟩ := hconcrete selection hmem
    obtain ⟨composed, hcomposed⟩ := Outcome.exists_of_isOk hstrict
    have hfree := hcompose _ _ _ 1 composed (castFree_iff_any.mpr rfl) (hbuilds selection hmem) hcomposed
    exact ⟨composed, hcomposed, hfree.1⟩
  · intro selection hmem
    obtain ⟨_, _, _, _, hcasts⟩ := hconcrete selection hmem
    obtain ⟨composed, hcomposed, hcast⟩ := (Option.any_eq_true _ _).mp hcasts
    exact ⟨composed, Outcome.ok_of_toOption hcomposed, hcast⟩
  · refine hexecute engine document .plain level rfl rfl hbind (fun selection hmem => ⟨?_, hbuilds selection hmem⟩) _
    obtain ⟨hquery, hcasts, _⟩ := hconcrete selection hmem
    exact startsCastFree_of_query hquery hcasts

end GraphQuery
