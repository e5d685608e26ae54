import GraphQuery.Proofs.Query.Account
import GraphQuery.Proofs.Query.PlanLog
import GraphQuery.Proofs.Query.PostRecord
import GraphQuery.Proofs.Query.StrictTier

/-! Plans do not show post fields. Whether a query has post fields below a root selection or not, a store answers
its plan alike, and the records that come back hold the same values; some of them name the types of their rows in
addition, for the conditions of post fields. What a store logs has no binding for a post field. -/

namespace GraphQuery

open BoundSelection (levelWithoutPost)
open Traced (Related)

namespace Value

/-- Values that are the same but for records in the first one that name the types of their rows, where those of
the second one do not. -/
inductive NamesMore : Value → Value → Prop where
  | same (value : Value) : NamesMore value value
  | array {values others : List Value} (items : List.Forall₂ NamesMore values others) :
      NamesMore (.array values) (.array others)
  | object {members others : Members}
      (typename : Members.get? typenameKey members = Members.get? typenameKey others ∨
        Members.get? typenameKey others = none ∧ ∃ name, Members.get? typenameKey members = some (.string name))
      (rest : ∀ key, key ≠ typenameKey → Option.Rel NamesMore (Members.get? key members) (Members.get? key others)) :
      NamesMore (.object members) (.object others)

/-- Entries of records, with the name of the type in front of them or without. -/
def named (name : String) (isNamed : Bool) (entries : List (String × Value)) : List (String × Value) :=
  if isNamed then (typenameKey, .string name) :: entries else entries

/-- Entries of the same keys to values of which the first ones name more. -/
abbrev EntriesNameMore : List (String × Value) → List (String × Value) → Prop :=
  List.Forall₂ fun one other => one.1 = other.1 ∧ one.1 ≠ typenameKey ∧ NamesMore one.2 other.2

variable {entries others : List (String × Value)}

theorem get?_named (hentries : typenameKey ∉ entries.map Prod.fst) (name : String) (isNamed : Bool) :
    Members.get? typenameKey (.ofList (named name isNamed entries)) =
      if isNamed then some (.string name) else none := by
  unfold named
  cases isNamed with
  | true =>
      rw [if_pos rfl, if_pos rfl, Members.get?_ofList_cons hentries, if_pos rfl]
  | false =>
      rw [if_neg Bool.false_ne_true, if_neg Bool.false_ne_true, Members.get?_ofList_of_notMem hentries]

theorem get?_named_of_ne (hentries : typenameKey ∉ entries.map Prod.fst) (name : String) (isNamed : Bool)
    {key : String} (hkey : key ≠ typenameKey) :
    Members.get? key (.ofList (named name isNamed entries)) = Members.get? key (.ofList entries) := by
  unfold named
  split
  · rw [Members.get?_ofList_cons hentries, if_neg hkey]
  · rfl

theorem EntriesNameMore.notMem (h : EntriesNameMore entries others) :
    typenameKey ∉ entries.map Prod.fst ∧ typenameKey ∉ others.map Prod.fst := by
  induction h with
  | nil => simp
  | cons hentry _ ih =>
      obtain ⟨hkey, hne, _⟩ := hentry
      rw [List.map_cons, List.map_cons, List.mem_cons, List.mem_cons, ← hkey]
      exact ⟨not_or.mpr ⟨hne.symm, ih.1⟩, not_or.mpr ⟨hne.symm, ih.2⟩⟩

/-- Objects of such entries, of which both name the type or the first one alone. -/
theorem EntriesNameMore.object (h : EntriesNameMore entries others) (name : String) (isNamed more : Bool) :
    NamesMore (.ofEntries (named name (isNamed || more) entries)) (.ofEntries (named name isNamed others)) := by
  obtain ⟨hentries, hothers⟩ := h.notMem
  refine .object ?_ fun key hkey => ?_
  · rw [get?_named hentries, get?_named hothers]
    cases isNamed with
    | true => exact Or.inl rfl
    | false =>
        cases more with
        | true => exact Or.inr ⟨rfl, name, rfl⟩
        | false => exact Or.inl rfl
  · rw [get?_named_of_ne hentries name _ hkey, get?_named_of_ne hothers name _ hkey]
    have hpairs : List.Forall₂ (fun one other : String × Value => one.1 = other.1 ∧ NamesMore one.2 other.2)
        entries others := h.imp fun _ _ hentry => ⟨hentry.1, hentry.2.2⟩
    have hunique : Relator.BiUnique fun key other : String => key = other :=
      Keyed.biUnique_graph Function.injective_id
    exact @Members.get?_ofList_related _ _ _ hunique (fun _ _ => NamesMore) hpairs key key rfl

end Value

open Value (NamesMore EntriesNameMore)

/-! ### Plans -/

namespace SchemaType

variable {type : SchemaType} {bindings others : List (String × Plan)}

theorem any_recordOf (hcasts : type.typename.CastFree) (named : Bool) :
    (type.recordOf named bindings).any Plan.isCast = bindings.any fun binding => binding.2.any Plan.isCast := by
  rw [recordOf, Plan.any, Plan.anyBinding_eq, List.any_map]
  split
  · rw [List.any_cons, Function.comp, Plan.castFree_iff_any.mp hcasts]
    rfl
  · rfl

theorem evalIn_recordOf {source : Source} {vars : List (String × Value)} {row : Value} {name : String}
    (hname : type.typename.evalIn source vars row = .ok (.string name)) (isNamed : Bool) :
    (type.recordOf isNamed bindings).evalIn source vars row =
      (Plan.evalBindings source vars row bindings).map fun entries => .ofEntries (Value.named name isNamed entries) := by
  rw [recordOf, Plan.evalIn]
  cases isNamed with
  | true =>
      rw [if_pos rfl, Plan.evalBindings, hname]
      cases Plan.evalBindings source vars row bindings <;> rfl
  | false => rfl

/-- Records of bindings that are alike are, although one of them names its type and the other one may not. -/
theorem recordOf_alike (hcasts : type.typename.CastFree)
    (hname : ∀ source vars row, ∃ name, type.typename.evalIn source vars row = .ok (.string name))
    (h : List.Forall₂ (fun one other : String × Plan =>
      one.1 = other.1 ∧ one.1 ≠ typenameKey ∧ one.2.Alike NamesMore other.2) bindings others) (named more : Bool) :
    (type.recordOf (named || more) bindings).Alike NamesMore (type.recordOf named others) := by
  refine ⟨?_, fun source vars row => ?_⟩
  · rw [any_recordOf hcasts, any_recordOf hcasts]
    induction h with
    | nil => rfl
    | cons hbinding _ ih => rw [List.any_cons, List.any_cons, hbinding.2.2.casts, ih]
  · obtain ⟨name, hname⟩ := hname source vars row
    rw [evalIn_recordOf hname, evalIn_recordOf hname]
    have hentries : Outcome.Agree EntriesNameMore (Plan.evalBindings source vars row bindings)
        (Plan.evalBindings source vars row others) := by
      induction h with
      | nil => exact .ok .nil
      | @cons one other _ _ hbinding _ ih =>
          obtain ⟨key, plan⟩ := one
          obtain ⟨key', plan'⟩ := other
          obtain ⟨hkey, hne, hplan⟩ := hbinding
          rw [Plan.evalBindings, Plan.evalBindings]
          refine (hplan.values source vars row).bind fun value value' hvalue => ?_
          exact ih.bind fun _ _ hrest => .ok (.cons ⟨hkey, hne, hvalue⟩ hrest)
    exact hentries.map fun _ _ h => h.object name named more

end SchemaType

namespace Compiler

variable {compiler : Compiler} {field : Field} {plan other : Plan}

theorem Composed.alike {records : Plan → Plan → Prop} (h : compiler.Composed field records plan other)
    (hrecords : ∀ record record', records record record' → record.Alike Value.NamesMore record') :
    plan.Alike Value.NamesMore other := by
  cases h with
  | leaf _ => exact .self .same _
  | rows _ hinside => exact project_alike (.same .null) (fun _ _ => .array) (hrecords _ _ hinside)

/-- A record is alike with the one that has no more than the same bindings. -/
theorem NamesMore.alike (hcompleted : compiler.schema.Completed) {owner : TypeId} {level : List BoundSelection}
    {depth : Nat} (h : compiler.NamesMore owner level depth plan other)
    (howner : owner < compiler.schema.types.length) : plan.Alike Value.NamesMore other := by
  have hschema := hcompleted.wellFormed
  induction h with
  | @record owner level depth named bindings others records same _ ih =>
      have hname (source : Source) (vars : List (String × Value)) (row : Value) :
          ∃ name, (compiler.schema.type owner).typename.evalIn source vars row = .ok (.string name) :=
        ⟨_, hschema.evalIn_typename (Schema.type_mem howner) source vars row⟩
      refine SchemaType.recordOf_alike (hcompleted.castFree_typename owner) hname ?_ _ _
      refine same.imp ?_
      rintro ⟨key, _⟩ ⟨_, _⟩ ⟨rfl, hne, selection, hmem, hkeyed, plan, plan', hcomposed, rfl, rfl⟩
      refine ⟨rfl, hne, guardPartial_alike (.same .null) (bindParent_alike ?_)⟩
      exact hcomposed.alike fun record record' hrecord =>
        ih selection record record' hrecord (hschema.target_lt_of_keyed hkeyed)

/-- The record of a level, and the one of the level without its post fields. -/
theorem record_invisible (hcompleted : compiler.schema.Completed) {owner : TypeId}
    (howner : owner < compiler.schema.types.length) (level : List BoundSelection) (depth : Nat) :
    Related (fun record bare => compiler.NamesMore owner level depth record bare ∧ record.Alike Value.NamesMore bare)
      (compiler.record (compiler.schema.type owner) level depth)
      (compiler.record (compiler.schema.type owner) (levelWithoutPost compiler.schema level) depth) :=
  (record_namesMore hcompleted.wellFormed level owner depth).mono fun _ _ h => ⟨h, h.alike hcompleted howner⟩

/-- What is composed with the record of a level, and with the one of the level without its post fields. -/
theorem compose_invisible (hcompleted : compiler.schema.Completed)
    (hfield : field.target < compiler.schema.types.length) (plan : Plan) (children : List BoundSelection)
    (depth : Nat) :
    Related (fun composed bare =>
        compiler.Composed field (compiler.NamesMore field.target children depth) composed bare ∧
          composed.Alike Value.NamesMore bare)
      (compiler.compose field plan children depth)
      (compiler.compose field plan (levelWithoutPost compiler.schema children) depth) :=
  (compose_composed (record_namesMore hcompleted.wellFormed children field.target depth) plan).mono
    fun _ _ h => ⟨h, h.alike fun _ _ hrecord => hrecord.alike hcompleted hfield⟩

end Compiler

namespace Engine

variable {schema : Schema} (config : Config) (data? : Option Value)

theorem afterEffect_withoutPost (world : World) (selection : BoundSelection) :
    afterEffect schema world (selection.withoutPost schema) = afterEffect schema world selection := by
  rw [afterEffect, afterEffect, BoundSelection.field_withoutPost, BoundSelection.arguments_withoutPost]

/-- The plan that a turn sends, and the one that it sends without post fields below its selection. -/
theorem planSent_invisible (hcompleted : schema.Completed) {selection : BoundSelection}
    (hkeyed : schema.keyed selection = true) (world : World) :
    Related (Plan.Alike Value.NamesMore) (planSent schema config data? world selection)
      (planSent schema config data? world (selection.withoutPost schema)) := by
  have htarget := hcompleted.wellFormed.target_lt_of_keyed hkeyed
  unfold planSent
  rw [afterEffect_withoutPost, BoundSelection.field_withoutPost, BoundSelection.arguments_withoutPost,
    BoundSelection.children_withoutPost]
  refine (Related.refl _).bind ?_
  rintro result? _ _ _ rfl
  refine (Related.refl _).bind ?_
  rintro plan _ _ _ rfl
  refine (Related.refl _).bind ?_
  rintro capabilities _ _ _ rfl
  exact (Compiler.compose_invisible hcompleted htarget plan selection.children 1).mono fun _ _ h => h.2

end Engine

/-- Plans do not show post fields. In every tier a level compiles to the record of the level without its post
fields and all that is selected on them: it fails with the same failure after the same calls, or has the same
bindings under the same keys, here and in all records below, but for names of types where a condition of a post
field needs one. Such records hold the same values on every row, so that a store answers the plan of a turn alike
with post fields and without. What stores log was composed for root selections that are no post fields, and binds
nothing else. -/
theorem Schema.post_fields_invisible {schema : Schema} (hcompleted : schema.Completed) :
    (∀ (tier : Tier) (data? : Option Value) (owner : TypeId) (level : List BoundSelection) (depth : Nat),
      owner < schema.types.length →
      let compiler : Compiler := ⟨schema, tier, data?⟩
      Related (fun record bare =>
          compiler.NamesMore owner level depth record bare ∧ record.Alike Value.NamesMore bare)
        (compiler.record (schema.type owner) level depth)
        (compiler.record (schema.type owner) (levelWithoutPost schema level) depth)) ∧
    (∀ (config : Config) (data? : Option Value) (selection : BoundSelection) (world : World),
      schema.keyed selection = true →
      Related (fun sent bare => ∀ (name : String) (other : World),
          Outcome.Agree Value.NamesMore (other.answer name sent) (other.answer name bare))
        (Engine.planSent schema config data? world selection)
        (Engine.planSent schema config data? world (selection.withoutPost schema))) ∧
    ∀ (engine : Engine) (document : Document) (request : Request) (level : List BoundSelection),
      engine.schema? = some schema → engine.bind document request = .ok level → ∀ (world : World) (place : Nat),
        ∃ sent, ((engine.execute document request world).world.storeAt place).plans =
            (world.storeAt place).plans ++ sent ∧
          ∀ plan ∈ sent, ∃ selection ∈ level, schema.keyed selection = true ∧ ∃ tier built bare,
            let compiler : Compiler := ⟨schema, tier, request.data?⟩
            let field := schema.field selection.field
            (compiler.compose field built selection.children 1).outcome = .ok plan ∧
              (compiler.compose field built (levelWithoutPost schema selection.children) 1).outcome = .ok bare ∧
              compiler.Composed field (compiler.NamesMore field.target selection.children 1) plan bare := by
  refine ⟨fun tier data? owner level depth howner => ?_, fun config data? selection world hkeyed => ?_, ?_⟩
  · exact @Compiler.record_invisible ⟨schema, tier, data?⟩ hcompleted owner howner level depth
  · exact (Engine.planSent_invisible config data? hcompleted hkeyed world).mono
      fun _ _ h name other => other.answer_alike h name
  · intro engine document request level hsome hbind world place
    obtain ⟨sent, hsent, hcomposed⟩ := Engine.execute_logs hsome hbind world place
    refine ⟨sent, hsent, fun plan hmem => ?_⟩
    obtain ⟨selection, hselection, hkeyed, tier, built, hplan⟩ := hcomposed plan hmem
    have htarget := hcompleted.wellFormed.target_lt_of_keyed hkeyed
    have hrelated := @Compiler.compose_invisible ⟨schema, tier, request.data?⟩ (schema.field selection.field)
      hcompleted htarget built selection.children 1
    obtain ⟨bare, hbare, hsame⟩ := hrelated.outcome.exists_of_ok hplan
    exact ⟨selection, hselection, hkeyed, tier, built, bare, hplan, hbare, hsame.1⟩

/-- Declarations of a studio, which paints the dogs among the animals that it knows. Its portraits and their titles
are not stored. -/
def Declaration.studio : List Declaration :=
  [.type (.ofKind .interface "Animal"), .type ⟨"Dog", none, none, ["Animal"], .object⟩,
    .type (.ofKind .object "Portrait"),
    .field 7 (.plain "id" "Int"), .field 7 (.plain "friends" "[Animal]"),
    .field 8 ((FieldSpec.plain "portraits" "[Portrait]").computed fun _ =>
      .ok (.array [.ofEntries [("style", .string "oil")], .ofEntries [("style", .string "ink")]])),
    .field 9 (.plain "style" "String"),
    .field 9 (FieldSpec.computed { FieldSpec.plain "title" "String" with
        parameters := [⟨"text", "String", some (.string "Untitled")⟩] }
      fun arguments => .ok (arguments.value "text")),
    .field 5 { FieldSpec.plain "animals" "[Animal]" with
      resolver? := some (.plan fun _ _ => .ok (.collection "animals")) },
    .field 5 ((FieldSpec.plain "greeting" "String").computed fun _ => .ok (.string "Welcome"))]

/-- The schema of a studio: types 7 to 9 are animals, dogs and portraits. -/
def Schema.studio : Schema :=
  ((Draft.start.declareAll Declaration.studio).bind fun draft => draft.complete.1).toOption.get
    (by decide +kernel)

theorem Schema.studio_completed : Schema.studio.Completed :=
  Schema.completed_of_toOption (Option.some_get _).symm

namespace Engine

/-- The portraits of a dog, with their titles. -/
def studioPortraits : Selection :=
  .inline (some "Dog") [.field none "portraits" [] [.field none "style" [] [], .field none "title" [] [],
    .field (some "again") "title" [("text", .string "Again")] []]]

/-- Asks a studio for a greeting, and for its animals and the friends of these, with portraits at both levels. -/
def studioQuery : Document :=
  ⟨[⟨.query, none, [], [.field none "greeting" [] [], .field none "animals" []
    [studioPortraits, .field none "id" [] [], .field (some "number") "id" [] [],
      .field none "friends" [] [.field none "id" [] [], studioPortraits]]]⟩], []⟩

/-- A studio that knows a dog with a friend, and an animal that does not tell its shape. Its store keeps a log. -/
def studioWorld : World :=
  World.empty.add "default" { StoreSettings.standard with logsPlans := true } (Store.empty.seed "animals"
    [.ofEntries [(Value.shapeKey, .string "Dog"), ("id", .number (.int 1)), ("friends", .array
        [.ofEntries [(Value.shapeKey, .string "Dog"), ("id", .number (.int 2))]])],
      .ofEntries [("id", .number (.int 3))]])

/-- Do the records of a list that a studio answers name their types? -/
def studioNames (plan : Plan) : Bool :=
  match studioWorld.answer "default" plan with
  | .ok (.array records) => !records.isEmpty && records.all fun record => (record.get? typenameKey).isSome
  | _ => false

end Engine

open Engine (studioQuery studioWorld studioNames planSent)

/-- The animals of a studio name their types for the portraits of dogs alone. One plan is logged. -/
theorem Schema.studio_post_fields_invisible :
    let engine : Engine := ⟨some .studio, .standard⟩
    ∃ level selection sent bare logged, engine.bind studioQuery .plain = .ok level ∧
      selection ∈ level ∧ Schema.studio.keyed selection = true ∧
      (planSent .studio .standard none studioWorld selection).outcome = .ok sent ∧
      (planSent .studio .standard none studioWorld (selection.withoutPost .studio)).outcome = .ok bare ∧
      studioNames sent = true ∧ studioNames bare = false ∧
      Outcome.Agree Value.NamesMore (studioWorld.answer "default" sent) (studioWorld.answer "default" bare) ∧
      ((engine.execute studioQuery .plain studioWorld).world.storeAt 0).plans = logged ∧ logged.length = 1 ∧
      ∀ plan ∈ logged, ∃ selection ∈ level, Schema.studio.keyed selection = true ∧ ∃ tier bare,
        let compiler : Compiler := ⟨.studio, tier, none⟩
        let field := Schema.studio.field selection.field
        compiler.Composed field (compiler.NamesMore field.target selection.children 1) plan bare := by
  intro engine
  have hconcrete : (engine.bind studioQuery .plain).isOk = true ∧
      (∃ selection ∈ (engine.bind studioQuery .plain).toOption.getD [], Schema.studio.keyed selection = true ∧
        (planSent .studio .standard none studioWorld selection).outcome.toOption.any studioNames = true ∧
        (planSent .studio .standard none studioWorld (selection.withoutPost .studio)).outcome.toOption.any
          (fun plan => !studioNames plan) = true) ∧
      ((engine.execute studioQuery .plain studioWorld).world.storeAt 0).plans.length = 1 := by
    decide +kernel
  obtain ⟨hbound, ⟨selection, hmem, hkeyed, hnames, hnone⟩, hlogged⟩ := hconcrete
  obtain ⟨level, hbind⟩ := Outcome.exists_of_isOk hbound
  rw [hbind] at hmem
  obtain ⟨sent, hsent, hnames⟩ := (Option.any_eq_true _ _).mp hnames
  obtain ⟨bare, hbare, hnone⟩ := (Option.any_eq_true _ _).mp hnone
  have hsent := Outcome.ok_of_toOption hsent
  have hbare := Outcome.ok_of_toOption hbare
  obtain ⟨_, hturns, hlogs⟩ := post_fields_invisible studio_completed
  have hanswers := (hturns .standard none selection studioWorld hkeyed).outcome
  rw [hsent, hbare] at hanswers
  obtain ⟨logged, hplans, hcomposed⟩ := hlogs engine studioQuery .plain level rfl hbind studioWorld 0
  have hbefore : (studioWorld.storeAt 0).plans = [] := rfl
  rw [hbefore, List.nil_append] at hplans
  refine ⟨level, selection, sent, bare, logged, hbind, hmem, hkeyed, hsent, hbare, hnames,
    (Bool.not_eq_true' _).mp hnone, ?_, hplans, hplans ▸ hlogged, fun plan hplan => ?_⟩
  · cases hanswers with
    | ok hanswers => exact hanswers "default" studioWorld
  · obtain ⟨origin, horigin, hkeyed, tier, _, bare, _, _, hsame⟩ := hcomposed plan hplan
    exact ⟨origin, horigin, hkeyed, tier, bare, hsame⟩

end GraphQuery
