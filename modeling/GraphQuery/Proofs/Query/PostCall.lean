import GraphQuery.Proofs.Query.PostEntry
import GraphQuery.Proofs.Query.PostPlan
import GraphQuery.Proofs.Query.RootCondition

/-! Calls of post functions. What the turn of a root selection finds is rendered, and the function of a post field
is called for each entry that it has in what is shown: at the root for the answer itself, and below it once for each
row on which the field is shown. An execution calls no other post function. -/

namespace GraphQuery

open Traced (Makes)

namespace Engine

section

variable (schema : Schema) (config : Config) (data? : Option Value)

/-- What the turn of a root selection finds, before it is rendered: a computed value, or what its plan reads. -/
def found (world : World) (selection : BoundSelection) : Traced Value :=
  let field := schema.field selection.field
  if field.isPost then Renderer.postRecord ⟨schema, data?⟩ field selection.arguments selection.children
  else do
    let result? ← effectOn field selection.arguments world
    let plan ← field.tracedPlan ⟨.context, result?, data?⟩ selection.arguments
    readFrom schema config data? field plan selection.children (afterEffect schema world selection)

/-- The entries for post fields of the answers to root selections, of each response key the first one. -/
def PostAnswer (world : World) (level : List BoundSelection) (entry : PostEntry) : Prop :=
  ∃ stage ∈ stages schema world (roots (fun _ => false) level), ∃ inner,
    Renderer.PostOf ⟨schema, data?⟩ stage.2
      (fun raw => (found schema config data? stage.1 stage.2).outcome = .ok raw) inner ∧
    entry = inner.beneath [.member stage.2.outputName]

variable {schema}

/-- A turn renders what it finds. -/
theorem turn_of_found {selection : BoundSelection} (htypename : (schema.field selection.field).isTypename = false)
    (world : World) : turn schema config data? world selection =
      found schema config data? world selection >>= Renderer.present ⟨schema, data?⟩ selection := by
  have hpresent : Renderer.present ⟨schema, data?⟩ selection =
      Renderer.renderField ⟨schema, data?⟩ (schema.field selection.field) selection.children :=
    funext fun raw => Renderer.present_of_plain htypename raw
  rw [hpresent]
  unfold turn found
  dsimp only
  rw [htypename, if_neg Bool.false_ne_true]
  split
  · rfl
  · simp only [bind_assoc]

theorem effectOn_makes (field : Field) (arguments : Arguments) (world : World) :
    (effectOn field arguments world).Makes (· = .effect) := by
  unfold effectOn
  split
  · exact Makes.bind (Makes.call rfl) fun _ => Makes.pure _
  · exact Makes.pure _

/-- What a turn finds, it has found without the functions of other post fields. -/
theorem filter_found (world : World) (selection : BoundSelection) :
    (found schema config data? world selection).calls.filter (fun call => call.kind = .compute) =
      if (schema.field selection.field).isPost then
        [⟨.compute, (schema.field selection.field).id, selection.arguments⟩] else [] := by
  unfold found
  dsimp only
  cases hpost : (schema.field selection.field).isPost with
  | true => exact Renderer.filter_postRecord hpost _ _
  | false =>
      rw [if_neg Bool.false_ne_true, if_neg Bool.false_ne_true]
      have hplan {kind : CallKind} (h : kind = .plan) : kind ≠ .compute := h ▸ nofun
      refine Makes.filter_eq_nil (show Makes (· ≠ .compute) _ from ?_) (not_not_intro rfl)
      refine ((effectOn_makes _ _ _).mono fun kind hkind => hkind ▸ nofun).bind fun result? => ?_
      refine ((Field.tracedPlan_makes _ _ _).mono fun _ => hplan).bind fun plan => ?_
      exact (readFrom_makes schema config data? _ plan _ _).mono fun _ => hplan

/-- A turn calls the post functions of the entries of its answer. -/
theorem posts_of_turn {world : World} {selection : BoundSelection} {answer : Value}
    (h : (turn schema config data? world selection).outcome = .ok answer) :
    Renderer.Posts ⟨schema, data?⟩
      (Renderer.PostOf ⟨schema, data?⟩ selection
        fun raw => (found schema config data? world selection).outcome = .ok raw)
      (turn schema config data? world selection).calls answer := by
  cases htypename : (schema.field selection.field).isTypename with
  | true =>
      unfold turn
      dsimp only
      rw [if_pos htypename]
      refine Renderer.Posts.none rfl ?_
      rintro entry (⟨hpost, _⟩ | ⟨hnests, _⟩)
      · rw [Field.isTypename_of_isPost hpost] at htypename
        cases htypename
      · rw [hnests.1] at htypename
        cases htypename
  | false =>
      rw [turn_of_found config data? htypename] at h ⊢
      refine Renderer.posts_of_held (fun row out hrow => ?_) h (filter_found config data? world selection) fun hpost => ?_
      · exact Renderer.posts_of_renderRow _ _ _ _ hrow
      · exact congrArg Traced.outcome (if_pos hpost)

/-- The turns of root selections call the post functions of the entries of their answers. -/
theorem posts_of_turns {world : World} {level : List BoundSelection} {shown : List (String × Value)}
    (h : (turns schema config data? world (roots (fun _ => false) level)).outcome = .ok shown) :
    Renderer.Posts ⟨schema, data?⟩ (PostAnswer schema config data? world level)
      (turns schema config data? world (roots (fun _ => false) level)).calls (.ofEntries shown) := by
  have hnames : ((stages schema world (roots (fun _ => false) level)).map fun stage => stage.2.outputName).Nodup := by
    show ((stages schema world (roots (fun _ => false) level)).map (BoundSelection.outputName ∘ Prod.snd)).Nodup
    rw [← List.map_map, map_stages]
    exact Keyed.firsts_nodup fun _ _ => Option.some.inj
  exact Renderer.Posts.members hnames h fun stage _ answer hanswer => posts_of_turn config data? hanswer

end

end Engine

/-- Post functions are called once for each entry that they have in a response. The calls of an execution that
answers are those for a list of entries, no two of which have one place: the answers of post fields at the root, and
below it the members of the objects in the response that stand for post fields, one for each row on which the field
is shown, whatever rows and selections are around it. A post field is shown on a row if its condition applies to the
row, and no selection before it is shown there under its response key. Each entry is called for with the arguments
of its selection, and holds what is rendered of the value that is computed for these. -/
theorem Engine.posts_called_once {engine : Engine} {document : Document} {request : Request} {world : World}
    {response : Value} (h : (engine.execute document request world).answer = .ok response) :
    ∃ schema level, engine.schema? = some schema ∧ engine.bind document request = .ok level ∧
      Renderer.Posts ⟨schema, request.data?⟩ (PostAnswer schema engine.config request.data? world level)
        (engine.execute document request world).calls response := by
  obtain ⟨level, hbind⟩ := bound_of_answer h
  obtain ⟨schema, hsome⟩ := schema_of_bind hbind
  obtain ⟨hanswer, hcalls, _⟩ := execute_turns schema hsome hbind world
  rw [hanswer] at h
  obtain ⟨shown, hshown, rfl⟩ := Outcome.map_ok_iff.mp h
  refine ⟨schema, level, hsome, hbind, ?_⟩
  rw [hcalls]
  exact posts_of_turns engine.config request.data? hshown

open Engine (studioQuery studioWorld)

/-- A studio computes its greeting, the portraits of a dog and of its friend, and two titles for each of the four
portraits, with their own texts. It computes none for an animal that does not tell its shape. -/
theorem Schema.studio_posts_called_once :
    let engine : Engine := ⟨some .studio, .standard⟩
    let report := engine.execute studioQuery .plain studioWorld
    ∃ response level, report.answer = .ok response ∧ engine.bind studioQuery .plain = .ok level ∧
      Renderer.Posts ⟨.studio, none⟩ (Engine.PostAnswer .studio .standard none studioWorld level) report.calls
        response ∧
      (report.calls.filter fun call => call.kind = .compute).length = 11 ∧
      (response.at? [.member "animals", .item 0, .member "friends", .item 0, .member "portraits", .item 1,
        .member "again"]).bind Value.asString? = some "Again" ∧
      (response.at? [.member "animals", .item 1, .member "portraits"]).isNone = true := by
  intro engine report
  have hconcrete : report.answer.isOk = true ∧ (report.calls.filter fun call => call.kind = .compute).length = 11 ∧
      (report.answer.toOption.bind fun response => (response.at? [.member "animals", .item 0, .member "friends",
        .item 0, .member "portraits", .item 1, .member "again"]).bind Value.asString?) = some "Again" ∧
      (report.answer.toOption.all fun response =>
        (response.at? [.member "animals", .item 1, .member "portraits"]).isNone) = true := by
    decide +kernel
  obtain ⟨hok, hcalls, hshown, hnone⟩ := hconcrete
  obtain ⟨response, hanswer⟩ := Outcome.exists_of_isOk hok
  rw [hanswer] at hshown hnone
  obtain ⟨schema, level, hsome, hbind, hposts⟩ := Engine.posts_called_once hanswer
  cases hsome
  exact ⟨response, level, hanswer, hbind, hposts, hcalls, hshown, hnone⟩

end GraphQuery
