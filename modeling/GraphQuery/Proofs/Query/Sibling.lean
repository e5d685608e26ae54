import GraphQuery.Proofs.Query.Rearrangement
import GraphQuery.Proofs.Query.Turn

/-! Siblings at the root and below it. Two queries, of which one has the siblings of some level of the other
in another order or leaves some of them out, give responses that agree on what both select there, in all
rows to which the path of the level leads. -/

namespace GraphQuery

namespace Engine

open BoundSelection (Shown Named Rearranged)

section

variable {schema : Schema} (config : Config) (data? : Option Value) (world : World)

/-- A root selection that asks for nothing inside rows has one turn, whatever its children are. -/
theorem turn_of_flat {selection : BoundSelection} (hflat : ¬schema.Nests selection)
    (children : List BoundSelection) :
    turn schema config data? world { selection with children := children } =
      turn schema config data? world selection := by
  unfold turn
  dsimp only
  cases htypename : (schema.field selection.field).isTypename with
  | true => rfl
  | false =>
      have hleaf : (schema.type (schema.field selection.field).target).isLeaf = true := by
        by_contra hcomposite
        exact hflat ⟨htypename, eq_false_of_ne_true hcomposite⟩
      have hcompose (tier : Tier) (plan : Plan) (level : List BoundSelection) :
          Compiler.compose ⟨schema, tier, data?⟩ (schema.field selection.field) plan level 1 =
            pure (Compiler.materialize (schema.field selection.field) plan) :=
        Compiler.compose_leaf hleaf
      simp only [Renderer.renderPost, Renderer.renderField, readFrom, hcompose, hleaf, if_true,
        @RowContext.postRecord_leaf ⟨schema, data?⟩ _ hleaf selection.arguments children
          selection.children]
      rfl

section

variable {config data? world} {kept path : List String} {selection : BoundSelection}
  {children : List BoundSelection} {value value' : Value}
  (hrows : ∀ frame : RowContext, frame.schema = schema → ∀ row out out',
    (frame.on row).rendered (schema.field selection.field).target selection.children = .ok out →
    (frame.on row).rendered (schema.field selection.field).target children = .ok out' →
    Value.AgreesAt kept path (.object out) (.object out'))

include hrows

/-- The turns of a root selection that nests rows agree under two levels where the rows do. -/
theorem agrees_of_nesting_turn (hnests : schema.Nests selection)
    (h : (turn schema config data? world selection).outcome = .ok value)
    (h' : (turn schema config data? world { selection with children := children }).outcome = .ok value') :
    value.AgreesAt kept path value' := by
  unfold turn at h h'
  dsimp only at h h'
  rw [hnests.1, if_neg Bool.false_ne_true] at h h'
  unfold Renderer.renderPost Renderer.renderField at h h'
  simp only [hnests.2, if_neg Bool.false_ne_true] at h h'
  split at h
  · next hpost =>
      rw [if_pos hpost] at h'
      obtain ⟨raw, hraw, hshown⟩ := Traced.bind_ok_iff.mp h
      obtain ⟨raw', hraw', hshown'⟩ := Traced.bind_ok_iff.mp h'
      exact @RowContext.agrees_of_postRecord ⟨schema, data?⟩ _ _ _ _ _ hnests.2 (hrows _ rfl) _ _ _ _ _
        hraw hraw' hshown hshown'
  · next hpost =>
      rw [if_neg hpost] at h'
      obtain ⟨result?, hresult, h⟩ := Traced.bind_ok_iff.mp h
      obtain ⟨_, hresult', h'⟩ := Traced.bind_ok_iff.mp h'
      cases hresult.symm.trans hresult'
      obtain ⟨plan, hplan, h⟩ := Traced.bind_ok_iff.mp h
      obtain ⟨_, hplan', h'⟩ := Traced.bind_ok_iff.mp h'
      cases hplan.symm.trans hplan'
      obtain ⟨raw, hraw, hshown⟩ := Traced.bind_ok_iff.mp h
      obtain ⟨raw', hraw', hshown'⟩ := Traced.bind_ok_iff.mp h'
      obtain ⟨tier, source, hread⟩ := readFrom_ok schema config data?
        (schema.field selection.field) (afterEffect schema world selection)
      obtain ⟨compiled, hcompiled, hrun⟩ := hread _ _ _ hraw
      obtain ⟨compiled', hcompiled', hrun'⟩ := hread _ _ _ hraw'
      exact @RowContext.agrees_of_composed ⟨⟨schema, tier, data?⟩, 1, source, [], .null⟩ _ _ _ _ _
        hnests.2 (hrows _ rfl) _ _ _ hcompiled hcompiled' _ _ _ _ _ hrun hrun' hshown hshown'

end

/-- The turns of one root selection with different children agree on the keys that are kept. -/
theorem agrees_of_turn (hschema : schema.WellFormed) {kept path : List String}
    {selection : BoundSelection} {children : List BoundSelection}
    (hinner : Rearranged schema.Alone kept path selection.children children)
    (htarget : (schema.field selection.field).target < schema.types.length)
    (hbound : schema.Bound (schema.field selection.field).target selection.children)
    (hbound' : schema.Bound (schema.field selection.field).target children) {value value' : Value}
    (h : (turn schema config data? world selection).outcome = .ok value)
    (h' : (turn schema config data? world { selection with children := children }).outcome = .ok value') :
    value.AgreesAt kept path value' := by
  by_cases hnests : schema.Nests selection
  · refine agrees_of_nesting_turn (fun frame hframe row out out' hout hout' => ?_) hnests h h'
    exact @RowContext.agrees_of_rendered _ hschema _ _ _ _ hinner (frame.on row) _ _ _ hframe htarget
      hbound hbound' hout hout'
  · rw [turn_of_flat config data? world hnests, h, Except.ok.injEq] at h'
    rw [h']
    exact .same path value'

end

theorem fields_of_rearranged {through : List BoundSelection → BoundSelection → Prop}
    {kept path : List String} {level others : List BoundSelection}
    (h : Rearranged through kept path level others) :
    ∀ other ∈ others, ∃ selection ∈ level, selection.field = other.field := by
  cases h with
  | here _ hpart => exact fun other hmem => ⟨other, hpart.subset hmem, rfl⟩
  | @deeper _ _ before after _ selection _ _ =>
      intro other hmem
      rcases List.mem_append.mp hmem with hbefore | hrest
      · exact ⟨other, List.mem_append_left _ hbefore, rfl⟩
      · rcases List.mem_cons.mp hrest with rfl | hafter
        · exact ⟨selection, List.mem_append_right _ List.mem_cons_self, rfl⟩
        · exact ⟨other, List.mem_append_right _ (List.mem_cons_of_mem _ hafter), rfl⟩

/-- The response of a query shows its root selections with the answers of their turns. -/
theorem shown_of_query {engine : Engine} {schema : Schema} (hsome : engine.schema? = some schema)
    {document : Document} {request : Request} {level : List BoundSelection}
    (hbind : engine.bind document request = .ok level)
    (hquery : ∀ selection ∈ level, (schema.field selection.field).isMutation = false) {world : World}
    {value : Value} (h : (engine.execute document request world).answer = .ok value) :
    ∃ out, value = .object out ∧ Shown (some ∘ BoundSelection.outputName) (fun selection =>
      (turn schema engine.config request.data? world selection).outcome) level out := by
  have hanswer := (execute_turns schema hsome hbind world).1
  rw [h, turns_of_query schema engine.config request.data?
    (fun selection hfirst => hquery selection (Keyed.mem_firsts hfirst).1)] at hanswer
  obtain ⟨shown, hshown, hvalue⟩ := Outcome.map_ok_iff.mp hanswer.symm
  exact ⟨Members.ofList shown, hvalue.symm, shown, rfl, hshown⟩

/-- Two queries of which one has the siblings of one level of the other, in another order or not all of
them, show the same values under the response keys of that level, in every row, where the selections on the
way to it share their places in records with no siblings. -/
theorem siblings_independent {engine : Engine} {schema : Schema} (hsome : engine.schema? = some schema)
    (hcompleted : schema.Completed) {document other : Document} {request : Request}
    {level others : List BoundSelection} (hbind : engine.bind document request = .ok level)
    (hbind' : engine.bind other request = .ok others)
    (hquery : ∀ selection ∈ level, (schema.field selection.field).isMutation = false)
    {kept path : List String} (hrearranged : Rearranged schema.Alone kept path level others)
    {world world' : World} (hworld : world.SameDocuments world') {value value' : Value}
    (h : (engine.execute document request world).answer = .ok value)
    (h' : (engine.execute other request world').answer = .ok value') : value.AgreesAt kept path value' := by
  have hschema := hcompleted.wellFormed
  have hquery' : ∀ selection ∈ others, (schema.field selection.field).isMutation = false := by
    intro selection hmem
    obtain ⟨origin, horigin, hfield⟩ := fields_of_rearranged hrearranged selection hmem
    rw [← hfield]
    exact hquery origin horigin
  have hnamed : Named (some ∘ BoundSelection.outputName) := fun _ _ hkey => Option.some.inj hkey
  obtain ⟨root, hbound⟩ := exists_bound hsome hschema hbind
  obtain ⟨root', hbound'⟩ := exists_bound hsome hschema hbind'
  obtain ⟨out, rfl, hshown⟩ := shown_of_query hsome hbind hquery h
  obtain ⟨out', rfl, hshown'⟩ := shown_of_query hsome hbind' hquery' h'
  simp only [← turn_same schema engine.config request.data? hworld] at hshown'
  cases hrearranged with
  | here hdistinct hpart => exact .row (hshown.rearranged hnamed hshown' hdistinct hpart fun _ _ => rfl)
  | @deeper _ _ before after children selection _ hinner =>
      have hmem : selection ∈ before ++ selection :: after :=
        List.mem_append_right _ List.mem_cons_self
      refine hshown.replaced hshown' rfl rfl (fun _ _ => rfl) fun value value' hvalue hvalue' => ?_
      exact agrees_of_turn engine.config request.data? world hschema hinner
        (hschema.target_lt _ (hbound.field_mem hschema hmem)) (hbound.children selection hmem)
        (hbound'.children _ (List.mem_append_right before List.mem_cons_self)) hvalue hvalue'

end Engine

namespace BoundSelection

mutual

/-- Are two selections, none of which has arguments, the same? -/
def same : BoundSelection → BoundSelection → Bool
  | ⟨name, alias?, field, condition?, arguments, children⟩, other =>
    name == other.name && alias? == other.alias? && field == other.field &&
      condition? == other.condition? && arguments.values.isEmpty && other.arguments.values.isEmpty &&
      arguments.supplied == other.arguments.supplied && sameAll children other.children

/-- Are two levels, none of whose selections have arguments, the same? -/
def sameAll : List BoundSelection → List BoundSelection → Bool
  | [], [] => true
  | selection :: rest, other :: others => same selection other && sameAll rest others
  | _, _ => false

end

mutual

theorem eq_of_same : ∀ {selection other : BoundSelection}, same selection other = true → selection = other
  | ⟨_, _, _, _, ⟨_, _⟩, _⟩, ⟨_, _, _, _, ⟨_, _⟩, _⟩, h => by
      simp only [same, Bool.and_eq_true, beq_iff_eq, List.isEmpty_iff] at h
      obtain ⟨⟨⟨⟨⟨⟨⟨rfl, rfl⟩, rfl⟩, rfl⟩, rfl⟩, rfl⟩, rfl⟩, hchildren⟩ := h
      rw [eq_of_sameAll hchildren]

theorem eq_of_sameAll : ∀ {level others : List BoundSelection}, sameAll level others = true → level = others
  | [], [], _ => rfl
  | _ :: _, _ :: _, h => by
      simp only [sameAll, Bool.and_eq_true] at h
      rw [eq_of_same h.1, eq_of_sameAll h.2]

end

end BoundSelection

namespace Engine

open BoundSelection (Rearranged)

/-- What a request binds to, when all that it selects goes without arguments. -/
theorem bind_of_same {engine : Engine} {document : Document} {request : Request}
    {level : List BoundSelection}
    (h : (engine.bind document request).toOption.map (BoundSelection.sameAll · level) = some true) :
    engine.bind document request = .ok level := by
  obtain ⟨bound, hbound, hsame⟩ := Option.map_eq_some_iff.mp h
  rw [Outcome.ok_of_toOption hbound, BoundSelection.eq_of_sameAll hsame]

/-- A selection of a field of animals without arguments. -/
def ofAnimals (alias? : Option String) (name : String) (field : FieldId) (condition? : Option TypeId)
    (children : List BoundSelection) : BoundSelection :=
  ⟨name, alias?, field, condition?, .empty, children⟩

/-- The animals of a kennel under two names for their numbers, once with what only dogs have and once in
another order without it. -/
theorem kennel_siblings_independent :
    let engine : Engine := ⟨some .kennel, .standard⟩
    let document := kennelQuery [.field none "id" [] [], .field (some "number") "id" [] [],
      .inline (some "Dog") [.field none "barks" [] []]]
    let other := kennelQuery [.field (some "number") "id" [] [], .field none "id" [] []]
    ∃ level others, engine.bind document .plain = .ok level ∧ engine.bind other .plain = .ok others ∧
      (∀ selection ∈ level, (Schema.kennel.field selection.field).isMutation = false) ∧
      Rearranged Schema.kennel.Alone ["number", "id"] ["animals"] level others ∧
      ∃ value value', (engine.execute document .plain kennelWorld).answer = .ok value ∧
        (engine.execute other .plain kennelWorld).answer = .ok value' ∧
        value.AgreesAt ["number", "id"] ["animals"] value' := by
  intro engine document other
  let id := ofAnimals none "id" 0 none []
  let number := ofAnimals (some "number") "id" 0 none []
  let barks := ofAnimals none "barks" 1 (some 8) []
  let animals (children : List BoundSelection) := ofAnimals none "animals" 4 none children
  have hconcrete : (engine.bind document .plain).toOption.map
        (BoundSelection.sameAll · [animals [id, number, barks]]) = some true ∧
      (engine.bind other .plain).toOption.map (BoundSelection.sameAll · [animals [number, id]]) =
        some true ∧ (Schema.kennel.field 4).isMutation = false ∧
      (engine.execute document .plain kennelWorld).answer.isOk = true ∧
      (engine.execute other .plain kennelWorld).answer.isOk = true := by
    decide +kernel
  obtain ⟨hsame, hsame', hmutation, hanswered, hanswered'⟩ := hconcrete
  have hbind := bind_of_same hsame
  have hbind' := bind_of_same hsame'
  obtain ⟨value, hvalue⟩ := Outcome.exists_of_isOk hanswered
  obtain ⟨value', hvalue'⟩ := Outcome.exists_of_isOk hanswered'
  have hquery : ∀ selection ∈ [animals [id, number, barks]],
      (Schema.kennel.field selection.field).isMutation = false := by
    intro selection hmem
    rw [List.mem_singleton.mp hmem]
    exact hmutation
  have hrearranged : Rearranged Schema.kennel.Alone ["number", "id"] ["animals"]
      [animals [id, number, barks]] [animals [number, id]] := by
    have hdistinct : ([id, number, barks].map BoundSelection.outputName).Nodup := by decide
    refine @Rearranged.deeper _ _ _ [] [] [number, id] (animals [id, number, barks])
      (fun _ other hmem => absurd hmem List.not_mem_nil)
      (@Rearranged.here _ [id, number, barks] [number, id] hdistinct ?_)
    exact ⟨[id, number], .swap _ _ _, .cons_cons _ (.cons_cons _ (.cons _ .slnil))⟩
  exact ⟨_, _, hbind, hbind', hquery, hrearranged, value, value', hvalue, hvalue',
    siblings_independent rfl Schema.kennel_completed hbind hbind' hquery hrearranged
      (World.SameDocuments.refl kennelWorld) hvalue hvalue'⟩

/-- The friend of the first animal that a response shows. -/
def firstFriend (response : Value) : Option Value :=
  ((response.get? "animals").bind fun animals => animals.asArray?.bind (·[0]?)).bind (·.get? "friend")

theorem kept_of_firstFriend {kept : List String} {response other : Value}
    (h : response.AgreesAt kept ["animals", "friend"] other) {key : String} (hkey : key ∈ kept) :
    (firstFriend response).bind (·.get? key) = (firstFriend other).bind (·.get? key) := by
  unfold firstFriend
  have hanimals := h.get?
  generalize response.get? "animals" = one at hanimals
  generalize other.get? "animals" = two at hanimals
  cases hanimals with
  | none => rfl
  | @some animals animals' hanimals =>
      have hfirst := hanimals.item 0
      simp only [Option.bind_some]
      generalize animals.asArray?.bind (·[0]?) = one at hfirst
      generalize animals'.asArray?.bind (·[0]?) = two at hfirst
      cases hfirst with
      | none => rfl
      | @some animal animal' hanimal =>
          have hfriend := hanimal.get?
          simp only [Option.bind_some]
          generalize animal.get? "friend" = one at hfriend
          generalize animal'.get? "friend" = two at hfriend
          cases hfriend with
          | none => rfl
          | some hfriend => exact hfriend.kept_eq hkey

/-- Where dogs are asked for the name of their friend twice, and all animals are as well, the friend of a
cat loses its name when the two selections of the latter change places. -/
theorem friend_of_cat_loses_its_name :
    let engine : Engine := ⟨some .animals, .standard⟩
    let query (selections : List Selection) : Document :=
      ⟨[⟨.query, none, [], [.field none "animals" [] selections]⟩], []⟩
    let name : Selection := .field none "name" [] []
    let again : Selection := .field (some "again") "name" [] []
    let ofDogs : Selection := .inline (some "Dog") [.field none "friend" [] [name, again]]
    let document := query [ofDogs, .field none "friend" [] [name, again]]
    let other := query [ofDogs, .field none "friend" [] [again, name]]
    let world := World.empty.add "default" .standard (Store.empty.seed "animals"
      [.animal "Cat" "Tom" [("friend", .animal "Dog" "Rex" [])]])
    Schema.animals.Completed ∧ ∃ level others, engine.bind document .plain = .ok level ∧
      engine.bind other .plain = .ok others ∧
      (∀ selection ∈ level, (Schema.animals.field selection.field).isMutation = false) ∧
      Rearranged (fun _ _ => True) ["again", "name"] ["animals", "friend"] level others ∧
      ∃ value value', (engine.execute document .plain world).answer = .ok value ∧
        (engine.execute other .plain world).answer = .ok value' ∧
        ¬value.AgreesAt ["again", "name"] ["animals", "friend"] value' := by
  intro engine query name again ofDogs document other world
  let nameOf := ofAnimals none "name" 0 none []
  let againOf := ofAnimals (some "again") "name" 0 none []
  let friends (children : List BoundSelection) := ofAnimals none "friend" 2 none children
  let ofDog := ofAnimals none "friend" 2 (some 8) [nameOf, againOf]
  let animals (children : List BoundSelection) := ofAnimals none "animals" 3 none children
  let nameShown (answer : Except EngineError Value) : Option (Option String) :=
    answer.toOption.map fun response =>
      ((firstFriend response).bind fun friend => friend.get? "name").bind Value.asString?
  have hconcrete : (engine.bind document .plain).toOption.map
        (BoundSelection.sameAll · [animals [ofDog, friends [nameOf, againOf]]]) = some true ∧
      (engine.bind other .plain).toOption.map
        (BoundSelection.sameAll · [animals [ofDog, friends [againOf, nameOf]]]) = some true ∧
      (Schema.animals.field 3).isMutation = false ∧
      nameShown (engine.execute document .plain world).answer = some (some "Rex") ∧
      nameShown (engine.execute other .plain world).answer = some none := by
    decide +kernel
  obtain ⟨hsame, hsame', hmutation, hshown, hshown'⟩ := hconcrete
  obtain ⟨value, hvalue, hname⟩ := Option.map_eq_some_iff.mp hshown
  obtain ⟨value', hvalue', hname'⟩ := Option.map_eq_some_iff.mp hshown'
  refine ⟨Schema.animals_completed, _, _, bind_of_same hsame, bind_of_same hsame', ?_, ?_, value, value',
    Outcome.ok_of_toOption hvalue, Outcome.ok_of_toOption hvalue', fun hagrees => ?_⟩
  · intro selection hmem
    rw [List.mem_singleton.mp hmem]
    exact hmutation
  · have hdistinct : ([nameOf, againOf].map BoundSelection.outputName).Nodup := by decide
    refine @Rearranged.deeper _ _ _ [] [] [ofDog, friends [againOf, nameOf]]
      (animals [ofDog, friends [nameOf, againOf]]) trivial ?_
    refine @Rearranged.deeper _ _ _ [ofDog] [] [againOf, nameOf] (friends [nameOf, againOf]) trivial ?_
    exact @Rearranged.here _ [nameOf, againOf] [againOf, nameOf] hdistinct (List.Perm.swap _ _ _).subperm
  · have hfriend := kept_of_firstFriend hagrees (List.mem_cons_of_mem _ List.mem_cons_self)
    rw [← hfriend, hname] at hname'
    cases hname'

end Engine

end GraphQuery
