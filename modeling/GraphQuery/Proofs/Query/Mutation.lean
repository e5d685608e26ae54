import GraphQuery.Proofs.Query.Render
import GraphQuery.Proofs.Query.Turn

/-! Mutations. Compiling and rendering call no effects, so that the only effect of a turn is the one of its
own field, which it calls before anything else. An execution therefore runs the effects of a prefix of its
root selections, each once and in their order, and leaves the documents that those effects leave. -/

namespace GraphQuery

namespace Traced

variable {α β : Type}

/-- A computation that calls functions of some kinds only. -/
def Makes (kinds : CallKind → Prop) (traced : Traced α) : Prop :=
  ∀ call ∈ traced.calls, kinds call.kind

/-- A computation that calls no effect. -/
def Effectless (traced : Traced α) : Prop :=
  ∀ call ∈ traced.calls, call.kind ≠ .effect

variable {kinds : CallKind → Prop}

namespace Makes

theorem pure (value : α) : Makes kinds (Pure.pure value) := by
  intro call hcall
  cases hcall

theorem ofExcept (outcome : Except EngineError α) : Makes kinds (Traced.ofExcept outcome) := by
  intro call hcall
  cases hcall

theorem call {kind : CallKind} {field : Field} {arguments : Arguments} {answer : Except String α}
    (hkind : kinds kind) : Makes kinds (Traced.call kind field arguments answer) := by
  intro call hcall
  rw [List.mem_singleton.mp hcall]
  exact hkind

theorem bind {first : Traced α} {next : α → Traced β} (hfirst : first.Makes kinds)
    (hnext : ∀ value, (next value).Makes kinds) : (first >>= next).Makes kinds := by
  intro call hcall
  cases houtcome : first.outcome with
  | error error =>
      rw [bind_of_error houtcome] at hcall
      exact hfirst call hcall
  | ok value =>
      rw [bind_of_ok houtcome] at hcall
      rcases List.mem_append.mp hcall with hcall | hcall
      · exact hfirst call hcall
      · exact hnext value call hcall

theorem mono {other : CallKind → Prop} {traced : Traced α} (h : traced.Makes kinds)
    (himp : ∀ kind, kinds kind → other kind) : traced.Makes other :=
  fun call hcall => himp _ (h call hcall)

/-- Functions of other kinds are not called. -/
theorem filter_eq_nil {traced : Traced α} (h : traced.Makes kinds) {kind : CallKind} (hkind : ¬kinds kind) :
    traced.calls.filter (fun call => call.kind = kind) = [] := by
  rw [List.filter_eq_nil_iff]
  intro call hcall
  rw [decide_eq_true_eq]
  rintro rfl
  exact hkind (h call hcall)

end Makes

namespace Effectless

theorem pure (value : α) : Effectless (Pure.pure value) :=
  @Makes.pure _ (· ≠ .effect) value

theorem ofExcept (outcome : Except EngineError α) : Effectless (Traced.ofExcept outcome) :=
  @Makes.ofExcept _ (· ≠ .effect) outcome

theorem bind {first : Traced α} {next : α → Traced β} (hfirst : first.Effectless)
    (hnext : ∀ value, (next value).Effectless) : (first >>= next).Effectless :=
  @Makes.bind _ _ (· ≠ .effect) _ _ hfirst hnext

end Effectless

theorem Makes.effectless {traced : Traced α} (h : traced.Makes kinds) (hkinds : ¬kinds .effect) :
    traced.Effectless := by
  intro call hcall heffect
  apply hkinds
  rw [← heffect]
  exact h call hcall

end Traced

open Traced (Effectless Makes)

theorem Field.tracedPlan_makes (field : Field) (scope : PlanScope) (arguments : Arguments) :
    (field.tracedPlan scope arguments).Makes (· = .plan) := by
  unfold tracedPlan
  dsimp only
  split
  · exact Makes.call rfl
  · exact Makes.ofExcept _

theorem Field.tracedValue_makes (field : Field) (arguments : Arguments) :
    (field.tracedValue arguments).Makes (· = .compute) := by
  unfold tracedValue
  dsimp only
  split
  · exact Makes.call rfl
  · exact Makes.ofExcept _

/-! ### Compiling -/

namespace Compiler

variable (compiler : Compiler)

/-- Compiling a level calls the functions that build plans only. -/
theorem bindSelections_makes (level : List BoundSelection) :
    ∀ (owner : SchemaType) (depth : Nat) (keys : List (Option String)) (bound : List (String × Plan)),
      (compiler.bindSelections owner depth keys bound level).Makes (· = .plan) := by
  induction level using BoundSelection.level_induction with
  | step level below =>
      intro owner depth
      have hrecord (selection : BoundSelection) (hmem : selection ∈ level) (type : SchemaType) :
          (compiler.record type selection.children (depth + 1)).Makes (· = .plan) :=
        (Makes.ofExcept _).bind fun keys =>
          (below selection hmem type (depth + 1) keys []).bind fun _ => Makes.pure _
      have hselection (selection : BoundSelection) (hmem : selection ∈ level) (key : String)
          (bound : List (String × Plan)) :
          (compiler.bindSelection owner depth key bound selection).Makes (· = .plan) := by
        rw [bindSelection_eq]
        split
        · exact Makes.pure _
        · refine Makes.bind ?_ fun _ => Makes.pure _
          refine Makes.bind (Field.tracedPlan_makes _ _ _) fun plan => ?_
          refine Makes.bind ?_ fun _ => Makes.pure _
          unfold compose
          dsimp only
          split
          · exact Makes.pure _
          · exact (hrecord selection hmem _).bind fun _ => Makes.pure _
      have hrest (rest : List BoundSelection) (hsubset : rest ⊆ level) (keys : List (Option String))
          (bound : List (String × Plan)) :
          (compiler.bindSelections owner depth keys bound rest).Makes (· = .plan) := by
        induction rest generalizing keys bound with
        | nil => exact Makes.pure _
        | cons selection rest ih =>
            have htail := fun keys bound => ih (fun _ h => hsubset (List.mem_cons_of_mem _ h)) keys bound
            cases keys with
            | nil => exact Makes.pure _
            | cons key? keys =>
                cases key? with
                | none => exact htail keys bound
                | some key =>
                    exact (hselection selection (hsubset List.mem_cons_self) key bound).bind fun bound =>
                      htail keys bound
      exact hrest level (List.Subset.refl _)

theorem compose_makes (field : Field) (plan : Plan) (children : List BoundSelection) (depth : Nat) :
    (compiler.compose field plan children depth).Makes (· = .plan) := by
  unfold compose
  dsimp only
  split
  · exact Makes.pure _
  · refine Makes.bind ?_ fun _ => Makes.pure _
    refine (Makes.ofExcept _).bind fun keys => ?_
    exact (compiler.bindSelections_makes children _ _ keys []).bind fun _ => Makes.pure _

end Compiler

/-! ### Rendering -/

namespace Value

mutual

theorem mapObjects_effectless {change : Members → Traced Members}
    (hchange : ∀ members, (change members).Effectless) :
    ∀ value : Value, (value.mapObjects change).Effectless
  | .null => Effectless.pure _
  | .bool _ => Effectless.pure _
  | .number _ => Effectless.pure _
  | .string _ => Effectless.pure _
  | .array items => (mapObjectsAll_effectless hchange items).bind fun _ => Effectless.pure _
  | .object members => (hchange members).bind fun _ => Effectless.pure _

theorem mapObjectsAll_effectless {change : Members → Traced Members}
    (hchange : ∀ members, (change members).Effectless) :
    ∀ items : List Value, (mapObjectsAll change items).Effectless
  | [] => Effectless.pure _
  | item :: rest => (mapObjects_effectless hchange item).bind fun _ =>
      (mapObjectsAll_effectless hchange rest).bind fun _ => Effectless.pure _

end

end Value

namespace Renderer

variable (renderer : Renderer)

theorem postRecord_effectless (field : Field) (arguments : Arguments) (children : List BoundSelection) :
    (renderer.postRecord field arguments children).Effectless := by
  unfold postRecord
  refine Effectless.bind ((field.tracedValue_makes arguments).effectless nofun) fun computed => ?_
  split
  · exact Effectless.pure _
  · exact ((renderer.compiler.compose_makes _ _ _ _).effectless nofun).bind fun plan => Effectless.ofExcept _

theorem entry_effectless (type : SchemaType) (row : Members) (field : Field) (arguments : Arguments)
    (key? : Option String) (children : List BoundSelection) :
    (renderer.entry type row field arguments key? children).Effectless := by
  unfold entry
  split
  · exact (renderer.postRecord_effectless _ _ _).bind fun _ => Effectless.pure _
  · split <;> exact Effectless.pure _

/-- Rendering a level calls the functions that compute post fields, and those that build the plans below
them. -/
theorem renderEntries_effectless (level : List BoundSelection) :
    ∀ (type : SchemaType) (row : Members) (keys : List (Option String)) (out : Members),
      (renderer.renderEntries type row keys out level).Effectless := by
  induction level using BoundSelection.level_induction with
  | step level below =>
      intro type row
      have hpresent (selection : BoundSelection) (hmem : selection ∈ level) (raw : Value) :
          (renderer.present selection raw).Effectless := by
        unfold present
        dsimp only
        split
        · exact Effectless.pure _
        · refine Value.mapObjects_effectless (fun inner => ?_) raw
          exact (Effectless.ofExcept _).bind fun keys => below selection hmem _ inner keys []
      have hrest (rest : List BoundSelection) (hsubset : rest ⊆ level) (keys : List (Option String))
          (out : Members) : (renderer.renderEntries type row keys out rest).Effectless := by
        induction rest generalizing keys out with
        | nil => exact Effectless.pure _
        | cons selection rest ih =>
            cases keys with
            | nil => exact Effectless.pure _
            | cons key? keys =>
                rw [renderEntries, renderEntry_eq]
                refine Effectless.bind ?_ fun out =>
                  ih (fun _ h => hsubset (List.mem_cons_of_mem _ h)) keys out
                split
                · exact Effectless.pure _
                · split
                  · exact Effectless.pure _
                  · refine (renderer.entry_effectless _ _ _ _ _ _).bind fun raw? => ?_
                    cases raw? with
                    | none => exact Effectless.pure _
                    | some raw =>
                        exact (hpresent selection (hsubset List.mem_cons_self) raw).bind
                          fun _ => Effectless.pure _
      exact hrest level (List.Subset.refl _)

theorem renderField_effectless (field : Field) (children : List BoundSelection) (value : Value) :
    (renderer.renderField field children value).Effectless := by
  unfold renderField
  dsimp only
  split
  · exact Effectless.pure _
  · refine Value.mapObjects_effectless (fun row => ?_) value
    exact (Effectless.ofExcept _).bind fun keys => renderer.renderEntries_effectless children _ row keys []

end Renderer

/-! ### Executing -/

namespace Engine

section

variable (schema : Schema) (config : Config) (data? : Option Value)

/-- The call of the effect of a root selection, if its field has one. -/
def effectCall? (selection : BoundSelection) : Option Call :=
  let field := schema.field selection.field
  if field.isMutation then some ⟨.effect, field.id, selection.arguments⟩ else none

theorem effectCall?_of_plain {selection : BoundSelection}
    (hplain : (schema.field selection.field).isMutation = false) :
    effectCall? schema selection = none := by
  simp only [effectCall?, hplain, Bool.false_eq_true, if_false]

theorem effectOn_calls (selection : BoundSelection) (world : World) :
    (effectOn (schema.field selection.field) selection.arguments world).calls =
      (effectCall? schema selection).toList := by
  cases hresolver : (schema.field selection.field).resolver with
  | mutation effect read? =>
      simp only [effectOn, effectCall?, Field.isMutation, hresolver, if_true]
      cases hanswer : (Traced.call .effect (schema.field selection.field) selection.arguments
          ((effect selection.arguments).run world).1).outcome with
      | error error =>
          rw [Traced.bind_of_error hanswer]
          rfl
      | ok value =>
          rw [Traced.bind_of_ok hanswer]
          rfl
  | _ =>
      simp only [effectOn, effectCall?, Field.isMutation, hresolver, Bool.false_eq_true, if_false]
      rfl

theorem readFrom_makes (field : Field) (plan : Plan) (children : List BoundSelection)
    (world : World) : (readFrom schema config data? field plan children world).Makes (· = .plan) := by
  unfold readFrom
  split
  · exact (Compiler.compose_makes _ _ _ _ _).bind fun _ => Makes.ofExcept _
  · refine (Makes.ofExcept _).bind fun capabilities => ?_
    exact (Compiler.compose_makes _ _ _ _ _).bind fun _ => Makes.ofExcept _

/-- A turn calls the effect of its own field, if it has one, before anything else, and no other effect. -/
theorem turn_calls (world : World) (selection : BoundSelection) :
    ∃ others, (turn schema config data? world selection).calls =
        (effectCall? schema selection).toList ++ others ∧ ∀ call ∈ others, call.kind ≠ .effect := by
  unfold turn
  dsimp only
  split
  · next htypename =>
      rw [effectCall?_of_plain schema (Field.isMutation_of_isTypename htypename)]
      exact ⟨[], rfl, fun call hcall => absurd hcall List.not_mem_nil⟩
  · split
    · next hpost =>
        rw [effectCall?_of_plain schema (Field.isMutation_of_isPost hpost)]
        refine ⟨_, (List.nil_append _).symm, ?_⟩
        exact (Renderer.postRecord_effectless _ _ _ _).bind fun value =>
          Renderer.renderField_effectless _ _ _ value
    · rw [← effectOn_calls schema selection world]
      cases heffect : (effectOn (schema.field selection.field) selection.arguments world).outcome with
      | error error =>
          rw [Traced.bind_of_error heffect]
          exact ⟨[], (List.append_nil _).symm, fun call hcall => absurd hcall List.not_mem_nil⟩
      | ok result? =>
          rw [Traced.bind_of_ok heffect]
          refine ⟨_, rfl, ?_⟩
          refine Effectless.bind ((Field.tracedPlan_makes _ _ _).effectless nofun) fun plan => ?_
          exact ((readFrom_makes schema config data? _ plan _ _).effectless nofun).bind fun raw =>
            Renderer.renderField_effectless _ _ _ raw

/-- The effects that a turn calls are the one of its own field. -/
theorem turn_effects (world : World) (selection : BoundSelection) :
    (turn schema config data? world selection).calls.filter (fun call => call.kind = .effect) =
      (effectCall? schema selection).toList := by
  obtain ⟨others, hcalls, hothers⟩ := turn_calls schema config data? world selection
  have hnone : others.filter (fun call => call.kind = .effect) = [] := by
    rw [List.filter_eq_nil_iff]
    intro call hcall
    rw [decide_eq_true_eq]
    exact hothers call hcall
  rw [hcalls, List.filter_append, hnone, List.append_nil]
  unfold effectCall?
  dsimp only
  split <;> rfl

/-! ### Prefixes of turns -/

/-- The stages of more selections begin after the effects of those before them. -/
theorem stages_append (world : World) (before after : List BoundSelection) :
    stages schema world (before ++ after) =
      stages schema world before ++ stages schema (afterEffects schema world before) after := by
  induction before generalizing world with
  | nil => rfl
  | cons selection rest ih =>
      rw [List.cons_append, stages, stages, ih, List.cons_append]
      rfl

theorem stages_effects (world : World) (selections : List BoundSelection) :
    ((stages schema world selections).flatMap fun stage =>
        (turn schema config data? stage.1 stage.2).calls).filter (fun call => call.kind = .effect) =
      selections.filterMap (effectCall? schema) := by
  induction selections generalizing world with
  | nil => rfl
  | cons selection rest ih =>
      rw [stages, List.flatMap_cons, List.filter_append, turn_effects, ih]
      cases hcall : effectCall? schema selection with
      | none => rw [List.filterMap_cons_none hcall, Option.toList_none, List.nil_append]
      | some call => rw [List.filterMap_cons_some hcall, Option.toList_some, List.singleton_append]

/-- How turns end: all of them have an answer, or the last one that has begun fails. -/
inductive Ends (world : World) (begun others : List BoundSelection) :
    Except EngineError (List (String × Value)) → Prop where
  | all (values : List Value) (hall : others = [])
      (hvalues : List.Forall₂ (fun stage value =>
        (turn schema config data? stage.1 stage.2).outcome = .ok value) (stages schema world begun) values) :
      Ends world begun others (.ok ((begun.map BoundSelection.outputName).zip values))
  | failed (answered : List BoundSelection) (selection : BoundSelection) (error : EngineError)
      (hbegun : begun = answered ++ [selection])
      (hanswered : ∀ stage ∈ stages schema world answered,
        (turn schema config data? stage.1 stage.2).outcome.isOk)
      (herror : (turn schema config data? (afterEffects schema world answered) selection).outcome =
        .error error) :
      Ends world begun others (.error error)

/-- Turns run as a prefix of their selections. -/
theorem turns_prefix (world : World) (selections : List BoundSelection) :
    ∃ begun others, selections = begun ++ others ∧
      (turns schema config data? world selections).calls =
        (stages schema world begun).flatMap (fun stage =>
          (turn schema config data? stage.1 stage.2).calls) ∧
      afterTurns schema config data? world selections = afterEffects schema world begun ∧
      Ends schema config data? world begun others (turns schema config data? world selections).outcome := by
  induction selections generalizing world with
  | nil => exact ⟨[], [], rfl, rfl, rfl, .all [] rfl .nil⟩
  | cons selection rest ih =>
      rw [turns_cons, afterTurns]
      cases hanswer : (turn schema config data? world selection).outcome with
      | error error =>
          refine ⟨[selection], rest, rfl, ?_, rfl, ?_⟩
          · rw [Traced.bind_of_error hanswer]
            exact (List.append_nil _).symm
          · rw [Traced.bind_of_error hanswer]
            exact .failed [] selection error rfl (fun stage hstage => absurd hstage List.not_mem_nil) hanswer
      | ok value =>
          obtain ⟨begun, others, hrest, hcalls, hafter, hends⟩ := ih (afterEffect schema world selection)
          rw [Traced.bind_of_ok hanswer]
          generalize turns schema config data? (afterEffect schema world selection) rest = played at hcalls hends
          refine ⟨selection :: begun, others, congrArg (selection :: ·) hrest, ?_, hafter, ?_⟩
          · rw [stages, List.flatMap_cons, ← hcalls]
            cases houtcome : played.outcome with
            | error error => rw [Traced.bind_of_error houtcome]
            | ok shown =>
                rw [Traced.bind_of_ok houtcome]
                simp only [Traced.calls_pure, List.append_nil]
          · rw [Traced.outcome_bind]
            generalize played.outcome = outcome at hends
            cases hends with
            | all values hall hvalues => exact .all (value :: values) hall (.cons hanswer hvalues)
            | failed answered last error hbegun hanswered herror =>
                refine .failed (selection :: answered) last error ?_ ?_ herror
                · rw [hbegun]
                  rfl
                · intro stage hstage
                  rcases List.mem_cons.mp hstage with rfl | hstage
                  · rw [hanswer]
                    rfl
                  · exact hanswered stage hstage

end

/-- An execution runs its root selections, one for each response key, as a prefix of them: it calls what
their turns call, one turn after the other, among that the effects of the prefix, each once and in their
order, and it leaves the documents that those effects leave. A turn begins with the world that the effects
before it have left, and calls its own effect first. The execution answers with the values of all turns,
or with the error of the last turn that has begun. -/
theorem effects_run_in_order {engine : Engine} {schema : Schema} (hsome : engine.schema? = some schema)
    {document : Document} {request : Request} {level : List BoundSelection}
    (hbind : engine.bind document request = .ok level) (world : World) :
    let selections := roots (fun _ => false) level
    let report := engine.execute document request world
    let answered := turn schema engine.config request.data?
    (selections.map BoundSelection.outputName).Nodup ∧
    ∃ begun others outcome, selections = begun ++ others ∧
      Ends schema engine.config request.data? world begun others outcome ∧
      report.answer = outcome.map Value.ofEntries ∧
      report.calls = (stages schema world begun).flatMap (fun stage => (answered stage.1 stage.2).calls) ∧
      report.calls.filter (fun call => call.kind = .effect) = begun.filterMap (effectCall? schema) ∧
      report.world.SameDocuments (afterEffects schema world begun) ∧
      ∀ before selection after, begun = before ++ selection :: after →
        stages schema world begun = stages schema world before ++
          (afterEffects schema world before, selection) ::
            stages schema (afterEffects schema world (before ++ [selection])) after ∧
        ∃ own, (answered (afterEffects schema world before) selection).calls =
          (effectCall? schema selection).toList ++ own ∧ ∀ call ∈ own, call.kind ≠ .effect := by
  intro selections report answered
  obtain ⟨hanswer, hcalls, hworld⟩ := execute_turns schema hsome hbind world
  obtain ⟨begun, others, hselections, hturns, hafter, hends⟩ :=
    turns_prefix schema engine.config request.data? world selections
  have hreport := hcalls.trans hturns
  refine ⟨?_, begun, others, _, hselections, hends, hanswer, hreport, ?_, ?_, ?_⟩
  · exact List.pairwise_map.mpr (Keyed.firsts_apart.imp fun hne hsame => hne (congrArg some hsame))
  · rw [hreport]
    exact stages_effects schema engine.config request.data? world begun
  · rw [← hafter]
    exact hworld
  · intro before selection after hbegun
    refine ⟨?_, turn_calls schema engine.config request.data? _ selection⟩
    rw [hbegun, stages_append, stages]
    simp only [afterEffects, List.foldl_append, List.foldl_cons, List.foldl_nil]

end Engine

/-- Declarations of a shelter: it admits Rex and shows its animals, and it notes whom it refuses. -/
def Declaration.shelter : List Declaration :=
  [.type (.ofKind .object "Animal"), .field 7 (.plain "name" "String"),
    .mutation { FieldSpec.plain "admit" "[Animal]" with
        resolver? := some (.plan fun _ _ => .ok (.collection "animals")) }
      fun _ => .insert "default" "animals" (.ofEntries [("name", .string "Rex")]) (.done (.ok .null)),
    .mutation (.plain "refuse" "Animal") fun _ => .insert "default" "refused"
      (.ofEntries [("name", .string "Tom")]) (.done (.error "no room"))]

/-- The schema of a shelter: type 7 are animals. -/
def Schema.shelter : Schema :=
  ((Draft.start.declareAll Declaration.shelter).bind fun draft => draft.complete.1).toOption.get
    (by decide +kernel)

namespace Engine

/-- A shelter that admits, refuses, and would admit again: the refusal is the last effect, and what it has
noted stays. -/
theorem shelter_ends_with_refusal :
    let engine : Engine := ⟨some .shelter, .standard⟩
    let name : List Selection := [.field none "name" [] []]
    let document : Document := ⟨[⟨.mutation, none, [], [.field none "admit" [] name,
      .field none "refuse" [] name, .field (some "again") "admit" [] name]⟩], []⟩
    let world := World.empty.add "default" .standard .empty
    let report := engine.execute document .plain world
    ∃ level, engine.bind document .plain = .ok level ∧ (roots (fun _ => false) level).length = 3 ∧
      ∃ begun others outcome, roots (fun _ => false) level = begun ++ others ∧
        Ends .shelter .standard none world begun others outcome ∧
        report.answer = outcome.map Value.ofEntries ∧ report.answer.isOk = false ∧
        report.calls.filter (fun call => call.kind = .effect) = begun.filterMap (effectCall? .shelter) ∧
        (begun.filterMap (effectCall? .shelter)).length = 2 ∧
        report.world.SameDocuments (afterEffects .shelter world begun) := by
  intro engine name document world report
  have hconcrete : (engine.bind document .plain).isOk = true ∧
      (roots (fun _ => false) ((engine.bind document .plain).toOption.getD [])).length = 3 ∧
      report.answer.isOk = false ∧
      (report.calls.filter fun call => call.kind = .effect).length = 2 := by
    decide +kernel
  obtain ⟨hbound, hlength, hfails, heffects⟩ := hconcrete
  obtain ⟨level, hbind⟩ := Outcome.exists_of_isOk hbound
  rw [hbind] at hlength
  obtain ⟨_, begun, others, outcome, hroots, hends, hanswer, _, hcalls, hworld, _⟩ :=
    @effects_run_in_order engine _ rfl _ _ _ hbind world
  refine ⟨level, hbind, hlength, begun, others, outcome, hroots, hends, hanswer, hfails, hcalls, ?_,
    hworld⟩
  rw [← hcalls]
  exact heffects

end Engine

end GraphQuery
