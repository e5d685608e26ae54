import GraphQuery.Proofs.Query.AliasResponse
import GraphQuery.Proofs.Query.Turn

/-! Executions under new aliases. The turn of a root selection calls the same functions, has the same effect
and fails with the same error whatever aliases there are; so does the execution of a document, and its
response is the old one with new names for its keys. -/

namespace GraphQuery

namespace Engine

open Traced (Related)

section

variable {schema : Schema} (config : Config) (data? : Option Value) {rename : String → String}
  (hschema : schema.WellFormed) (hrename : Function.Injective rename)

theorem afterEffect_realias (world : World) (selection : BoundSelection) :
    afterEffect schema world (selection.realias rename) = afterEffect schema world selection := by
  rw [afterEffect, afterEffect, BoundSelection.field_realias, BoundSelection.arguments_realias]

include hschema hrename

theorem readFrom_realias (field : Field) (plan : Plan) (children : List BoundSelection) (world : World) :
    Related (schema.Rerecorded rename field.target)
      (readFrom schema config data? field plan children world)
      (readFrom schema config data? field plan (children.map (BoundSelection.realias rename)) world) := by
  have hcomposed (tier : Tier) := Compiler.compose_replanned
    (@Compiler.record_replanned ⟨schema, tier, data?⟩ rename hschema hrename children field.target 1) plan
  unfold readFrom
  split
  · exact (hcomposed .enumerable).bind fun _ _ _ _ h => .ofExcept ((h.alike.run .inProcess).mapError EngineError.backend)
  · refine (Related.refl _).bind ?_
    rintro capabilities _ _ _ rfl
    refine (hcomposed (.ofCapabilities capabilities)).bind fun _ _ _ _ h => .ofExcept ?_
    exact (world.answer_alike h.alike _).mapError EngineError.backend

theorem turn_realias (world : World) (selection : BoundSelection) :
    Related (fun value renamed => Renderer.Alike ⟨schema, data?⟩ rename ⟨selection, value, renamed⟩)
      (turn schema config data? world selection)
      (turn schema config data? world (selection.realias rename)) := by
  unfold turn
  rw [afterEffect_realias, BoundSelection.field_realias, BoundSelection.arguments_realias,
    BoundSelection.children_realias]
  dsimp only
  cases htypename : (schema.field selection.field).isTypename with
  | true =>
      refine .pure ⟨fun _ => rfl, fun hnests => ?_⟩
      rw [hnests.1] at htypename
      cases htypename
  | false =>
      rw [if_neg Bool.false_ne_true, if_neg Bool.false_ne_true]
      have hshown {raw other : Value}
          (h : schema.Rerecorded rename (schema.field selection.field).target raw other) :=
        @Renderer.renderField_reshown ⟨schema, data?⟩ rename hschema hrename selection raw other htypename h
      split
      · unfold Renderer.renderPost
        rw [BoundSelection.arguments_realias, BoundSelection.children_realias]
        exact (@Renderer.postRecord_renamed ⟨schema, data?⟩ rename hschema hrename _ _ _).bind
          fun _ _ _ _ h => hshown h
      · refine (Related.refl _).bind ?_
        rintro result? _ _ _ rfl
        refine (Related.refl _).bind ?_
        rintro plan _ _ _ rfl
        exact (readFrom_realias config data? hschema hrename _ plan _ _).bind fun _ _ _ _ h => hshown h

/-- Sequences of turns make the same calls, and answer alike under old and new names of response keys. -/
theorem turns_realias (selections : List BoundSelection) : ∀ world : World,
    Related (fun shown shown' => ∃ twins : List Twin, twins.map Twin.selection = selections ∧
        shown = twins.map Twin.entry ∧ shown' = twins.map (Twin.entryAs rename) ∧
        ∀ twin ∈ twins, Renderer.Alike ⟨schema, data?⟩ rename twin)
      (turns schema config data? world selections)
      (turns schema config data? world (selections.map (BoundSelection.realias rename))) := by
  induction selections with
  | nil => exact fun _ => .pure ⟨[], rfl, rfl, rfl, fun _ hmem => absurd hmem List.not_mem_nil⟩
  | cons selection rest ih =>
      intro world
      rw [List.map_cons, turns_cons, turns_cons, afterEffect_realias, BoundSelection.outputName_realias]
      refine (turn_realias config data? hschema hrename world selection).bind fun value renamed _ _ halike => ?_
      refine (ih _).bind ?_
      rintro _ _ _ _ ⟨twins, hselections, rfl, rfl, htwins⟩
      exact .pure ⟨⟨selection, value, renamed⟩ :: twins, by rw [List.map_cons, hselections], rfl, rfl,
        List.forall_mem_cons.mpr ⟨halike, htwins⟩⟩

theorem afterTurns_realias (selections : List BoundSelection) : ∀ world : World,
    afterTurns schema config data? world (selections.map (BoundSelection.realias rename)) =
      afterTurns schema config data? world selections := by
  induction selections with
  | nil => exact fun _ => rfl
  | cons selection rest ih =>
      intro world
      have hsame : (turn schema config data? world (selection.realias rename)).outcome.isOk =
          (turn schema config data? world selection).outcome.isOk := by
        have hturn := (turn_realias config data? hschema hrename world selection).outcome
        generalize (turn schema config data? world selection).outcome = one at hturn ⊢
        generalize (turn schema config data? world (selection.realias rename)).outcome = other at hturn ⊢
        cases hturn <;> rfl
      rw [List.map_cons, afterTurns, afterTurns, hsame, afterEffect_realias, ih]

omit hschema in
theorem roots_realias (level : List BoundSelection) :
    roots (fun _ => false) (level.map (BoundSelection.realias rename)) =
      (roots (fun _ => false) level).map (BoundSelection.realias rename) := by
  have hlevel : List.Forall₂ (fun selection other => selection.realias rename = other) level
      (level.map (BoundSelection.realias rename)) := by
    rw [List.forall₂_map_right_iff, List.forall₂_same]
    exact fun _ _ => rfl
  have hkeys (selection other : BoundSelection) (hother : selection.realias rename = other) :
      Option.Rel (fun key key' => rename key = key') ((some ∘ BoundSelection.outputName) selection)
        ((some ∘ BoundSelection.outputName) other) := by
    rw [← hother]
    exact .some (BoundSelection.outputName_realias selection).symm
  have hroots : List.Forall₂ (fun selection other => selection.realias rename = other)
      (roots (fun _ => false) level)
      (roots (fun _ => false) (level.map (BoundSelection.realias rename))) :=
    Keyed.firsts_related (Keyed.biUnique_graph hrename) hkeys hlevel fun _ _ _ => rfl
  exact (List.forall₂_eq_eq_eq ▸ List.forall₂_map_left_iff.mpr hroots : _ = _).symm

end

/-- A request that does not bind runs nothing. -/
theorem execute_of_bind_error {engine : Engine} {document : Document} {request : Request}
    {error : EngineError} (h : engine.bind document request = .error error) (world : World) :
    engine.execute document request world = ⟨.error error, world, []⟩ := by
  have hparts : engine.execute document request world =
      ⟨((engine.run document request).run (.start world)).1,
        ((engine.run document request).run (.start world)).2.connections.release,
        ((engine.run document request).run (.start world)).2.calls⟩ := rfl
  rw [hparts, run_of_bind_error h]
  rfl

/-- The response `other` is `value` with the new names of its response keys, in the root object and in the
objects of the rows inside it. -/
def Renames (schema : Schema) (data? : Option Value) (rename : String → String) (level : List BoundSelection)
    (value other : Value) : Prop :=
  ∃ twins : List Twin, twins.map Twin.selection = roots (fun _ => false) level ∧
    value = .ofEntries (twins.map Twin.entry) ∧ other = .ofEntries (twins.map (Twin.entryAs rename)) ∧
    ∀ twin ∈ twins, Renderer.Alike ⟨schema, data?⟩ rename twin

/-- A document whose fields have the new names of their response keys as aliases, no two keys one name, is
refused with the same error, fails with the same error, or has the same response but for these names; it
calls the same functions of fields in the same order, and leaves the same documents. -/
theorem execute_realias {engine : Engine} {schema : Schema} (hsome : engine.schema? = some schema)
    (hcompleted : schema.Completed) {rename : String → String} (hrename : Function.Injective rename)
    (document : Document) (request : Request) (world : World) :
    let report := engine.execute document request world
    let renamed := engine.execute (document.realias rename) request world
    Outcome.Agree (fun value other => ∃ level, engine.bind document request = .ok level ∧
        Renames schema request.data? rename level value other) report.answer renamed.answer ∧
      renamed.calls = report.calls ∧ renamed.world.SameDocuments report.world := by
  intro report renamed
  have hschema := hcompleted.wellFormed
  have hbind' : engine.bind (document.realias rename) request =
      (engine.bind document request).map (List.map (BoundSelection.realias rename)) := by
    rw [bind_eq hsome, bind_eq hsome, Schema.bind_realias hrename]
  cases hbind : engine.bind document request with
  | error error =>
      rw [hbind] at hbind'
      have hreport : report = ⟨.error error, world, []⟩ := execute_of_bind_error hbind world
      have hrenamed : renamed = ⟨.error error, world, []⟩ := execute_of_bind_error hbind' world
      rw [hreport, hrenamed]
      exact ⟨.error error, rfl, .refl world⟩
  | ok level =>
      rw [hbind] at hbind'
      obtain ⟨hanswer, hcalls, hworld⟩ := execute_turns schema hsome hbind world
      obtain ⟨hanswer', hcalls', hworld'⟩ := execute_turns schema hsome hbind' world
      rw [roots_realias hrename] at hanswer' hcalls' hworld'
      have hturns := turns_realias engine.config request.data? hschema hrename
        (roots (fun _ => false) level) world
      refine ⟨?_, ?_, ?_⟩
      · rw [hanswer, hanswer']
        refine hturns.outcome.map ?_
        rintro _ _ ⟨twins, hselections, rfl, rfl, htwins⟩
        exact ⟨level, rfl, twins, hselections, rfl, rfl, htwins⟩
      · rw [hcalls, hcalls', hturns.calls]
      · rw [afterTurns_realias engine.config request.data? hschema hrename] at hworld'
        exact hworld'.trans hworld.symm

/-- The animals of a kennel, with their numbers under the key of the name of their type, whether dogs bark
under the key of their numbers, and their numbers under that key for all others. -/
theorem kennel_execute_realias :
    let engine : Engine := ⟨some .kennel, .standard⟩
    let document := kennelQuery [.field (some "__typename") "id" [] [],
      .inline (some "Dog") [.field (some "id") "barks" [] []], .field none "id" [] []]
    let rename (key : String) : String := "their_" ++ key
    let report := engine.execute document .plain kennelWorld
    let renamed := engine.execute (document.realias rename) .plain kennelWorld
    engine.schema? = some .kennel ∧ Schema.kennel.Completed ∧ Function.Injective rename ∧
      report.answer.isOk = true ∧ (renamed.answer.toOption.bind (·.get? "their_animals")).isSome = true ∧
      Outcome.Agree (fun value other => ∃ level, engine.bind document .plain = .ok level ∧
        Renames .kennel none rename level value other) report.answer renamed.answer ∧
      renamed.calls = report.calls ∧ renamed.world.SameDocuments report.world := by
  intro engine document rename report renamed
  have hconcrete : report.answer.isOk = true ∧
      (renamed.answer.toOption.bind (·.get? "their_animals")).isSome = true := by
    decide +kernel
  have hrename : Function.Injective rename := by
    intro key key' hsame
    have hlist := congrArg String.toList hsame
    rw [String.toList_append, String.toList_append] at hlist
    exact String.toList_injective (List.append_cancel_left hlist)
  exact ⟨rfl, Schema.kennel_completed, hrename, hconcrete.1, hconcrete.2,
    execute_realias rfl Schema.kennel_completed hrename document .plain kennelWorld⟩

end Engine

end GraphQuery
