import GraphQuery.Proofs.Query.Condition
import GraphQuery.Proofs.Query.Root

/-! Conditions at the root. No row stands behind the root, and no condition around its fields is looked
at again once they are bound: a response shows the first field of each response key, wherever it is
selected, and what names the type of the root names the innermost condition around it instead. -/

namespace GraphQuery

/-- The selections of an operation start from a type that is there. -/
theorem Operation.root_lt {schema : Schema} (hschema : schema.WellFormed) {operation : Operation}
    {root : TypeId} (h : operation.root schema = .ok root) : root < schema.types.length := by
  unfold Operation.root at h
  split at h
  · cases h
    exact hschema.roots_lt.1
  · cases h
    exact hschema.roots_lt.2
  · cases h

namespace Engine

/-- The fields that a response shows of those that its operation encloses: the first of each response
key. -/
def shownFields (found : List Enclosed) : List Enclosed :=
  Keyed.firsts (fun enclosed => some enclosed.outputName) (fun _ => false) found

/-- An entry of a response and the field that it is for. -/
structure EntryOf (schema : Schema) (data? : Option Value) (root : TypeId) (level : List BoundSelection)
    (enclosed : Enclosed) (entry : String × Value) : Prop where
  key : entry.1 = enclosed.outputName
  answered : ∃ selection ∈ level, selection.signature = enclosed.mark root ∧
    MayShow schema data? selection entry.2
  carried : (schema.field enclosed.field).isPost = true ∨
    (schema.field enclosed.field).isTypename = true ∨
    ((schema.type root).projection.slotFor? enclosed.field).isSome = true
  typename : (schema.field enclosed.field).isTypename = true →
    entry.2 = .string (schema.type ((enclosed.kept root).getD root)).name
  named_iff : (schema.field enclosed.field).isTypename = true →
    (entry.2 = .string (schema.type root).name ↔ enclosed.kept root = none)

/-- Is a field, with this signature, enclosed in conditions all of which hold at the root? -/
def Permits (schema : Schema) (root : TypeId) (found : List Enclosed) (enclosed : Enclosed) : Prop :=
  ∃ other ∈ found, other.mark root = enclosed.mark root ∧
    ∀ condition ∈ other.conditions, schema.isSubtype root condition = true

/-- An entry as the conditions around its field would have it. -/
def Honest (schema : Schema) (root : TypeId) (found : List Enclosed) (enclosed : Enclosed)
    (entry : String × Value) : Prop :=
  Permits schema root found enclosed ∧ ((schema.field enclosed.field).isTypename = true →
    entry.2 = .string (schema.type root).name)

variable {schema : Schema} {data? : Option Value} {root : TypeId} {level : List BoundSelection}

theorem entryOf_selection (hschema : schema.WellFormed) (hroot : root < schema.types.length)
    (hlevel : schema.Bound root level) {selection : BoundSelection} (hmem : selection ∈ level)
    {enclosed : Enclosed} (hsame : selection.signature = enclosed.mark root) {value : Value}
    (hvalue : MayShow schema data? selection value) :
    EntryOf schema data? root level enclosed (selection.outputName, value) := by
  have hselects := hlevel.selects selection hmem
  obtain ⟨hfield, hcondition, hname⟩ : selection.field = enclosed.field ∧
      selection.condition? = enclosed.kept root ∧ selection.outputName = enclosed.outputName := by
    simpa [BoundSelection.signature, Enclosed.mark] using hsame
  obtain ⟨field, hlookup, hid⟩ := hselects.resolves
  obtain ⟨hscope, hplace, hdeclaring⟩ := hschema.shown_of_lookup hlookup
  rw [hid] at hplace
  rw [← Schema.field_eq hplace, hcondition] at hdeclaring
  rw [hcondition] at hscope
  have hshows (htypename : (schema.field selection.field).isTypename = true) :
      value = .string (schema.type ((enclosed.kept root).getD root)).name := by
    cases hvalue with
    | typename _ => rw [hdeclaring htypename]
    | post hother => exact absurd htypename (by rw [hother]; exact Bool.false_ne_true)
    | plan hother => exact absurd htypename (by rw [hother]; exact Bool.false_ne_true)
  rw [hfield] at hshows
  refine ⟨hname, ⟨selection, hmem, hsame, hvalue⟩, ?_, hshows, fun htypename => ?_⟩
  · rw [← hfield]
    exact hselects.carried
  · rw [hshows htypename, Value.string.injEq]
    constructor
    · intro hnames
      have heq := hschema.eq_of_name hscope hroot hnames
      have hnarrows := hselects.narrows
      rw [hcondition] at hnarrows
      cases hkept : enclosed.kept root with
      | none => rfl
      | some condition =>
          rw [hkept, Option.getD_some] at heq
          rw [hkept, heq] at hnarrows
          exact absurd rfl hnarrows
    · intro hkept
      rw [hkept]
      rfl

theorem honest_iff {fields found : List Enclosed} {shown : List (String × Value)}
    (h : List.Forall₂ (EntryOf schema data? root level) fields shown) :
    List.Forall₂ (Honest schema root found) fields shown ↔
      ∀ enclosed ∈ fields, Permits schema root found enclosed ∧
        ((schema.field enclosed.field).isTypename = true → enclosed.kept root = none) := by
  induction h with
  | nil => simp
  | @cons enclosed entry _ _ hentry _ ih =>
      have hnamed : ((schema.field enclosed.field).isTypename = true →
          entry.2 = .string (schema.type root).name) ↔
          ((schema.field enclosed.field).isTypename = true → enclosed.kept root = none) :=
        forall_congr' hentry.named_iff
      rw [List.forall₂_cons, List.forall_mem_cons, ih, Honest, hnamed]

/-- What is answered has been bound. -/
theorem bound_of_answer {engine : Engine} {document : Document} {request : Request} {world : World}
    {value : Value} (h : (engine.execute document request world).answer = .ok value) :
    ∃ level, engine.bind document request = .ok level := by
  cases hbind : engine.bind document request with
  | ok level => exact ⟨level, rfl⟩
  | error error =>
      change ((engine.run document request).run (.start world)).1 = _ at h
      rw [run_of_bind_error hbind] at h
      cases h

/-- What a response shows of the fields that its operation encloses: of each response key the first one,
a root field by its own plan or value, and the name of the type as that of the innermost condition. All
is as the conditions would have it exactly when these fields are selected, under what is kept of their
conditions, where all conditions hold, and no name of the type keeps one. -/
theorem roots_honour_conditions_iff {engine : Engine} {schema : Schema}
    (hsome : engine.schema? = some schema) (hcompleted : schema.Completed) {document : Document}
    {request : Request} {world : World} {value : Value}
    (h : (engine.execute document request world).answer = .ok value) :
    ∃ operation root vars level found shown,
      document.selectOperation request.operation? = .ok operation ∧
      operation.root schema = .ok root ∧ operation.withDefaults request.vars = .ok vars ∧
      Binder.bind ⟨schema, document.fragments, vars, engine.config.maxDepth⟩ root operation.selections =
        .ok level ∧
      Binder.EnclosesAll ⟨schema, document.fragments, vars, engine.config.maxDepth⟩ root [] []
        operation.selections found ∧
      value = .ofEntries shown ∧
      List.Forall₂ (EntryOf schema request.data? root level) (shownFields found) shown ∧
      (List.Forall₂ (Honest schema root found) (shownFields found) shown ↔
        ∀ enclosed ∈ shownFields found, Permits schema root found enclosed ∧
          ((schema.field enclosed.field).isTypename = true → enclosed.kept root = none)) := by
  have hschema := hcompleted.wellFormed
  obtain ⟨level, hbound⟩ := bound_of_answer h
  have hbind := hbound
  rw [bind_eq hsome] at hbind
  obtain ⟨operation, hoperation, hbind⟩ := Outcome.bind_ok_iff.mp hbind
  obtain ⟨root, hroot, hbind⟩ := Outcome.bind_ok_iff.mp hbind
  obtain ⟨vars, hvars, hbind⟩ := Outcome.bind_ok_iff.mp hbind
  obtain ⟨found, hfound, hunfolds⟩ := Binder.unfolds_of_bind hschema hbind
  obtain ⟨shown, hvalue, hshown⟩ := entries_of_answer hsome hbound h
  have hmarks := List.forall₂_eq_eq_eq ▸
    (Enclosed.firsts_marks hunfolds.marks fun mark => some mark.2.2).symm
  rw [List.forall₂_map_left_iff, List.forall₂_map_right_iff] at hmarks
  have hentries : List.Forall₂ (EntryOf schema request.data? root level) (shownFields found) shown := by
    refine (Outcome.forall₂_comp hmarks hshown).imp ?_
    rintro enclosed ⟨key, value⟩ ⟨selection, hsame, hkey, hmem, hvalue⟩
    dsimp only at hkey
    subst hkey
    exact entryOf_selection hschema (Operation.root_lt hschema hroot) (Binder.bound_of_bind hschema hbind)
      hmem hsame.symm hvalue
  exact ⟨operation, root, vars, level, found, shown, hoperation, hroot, hvars, hbind, hfound, hvalue,
    hentries, honest_iff hentries⟩

/-- The root of a kennel asked for the name of its type, and for that of the node that it is. -/
theorem kennel_roots_honour_conditions :
    let engine : Engine := ⟨some .kennel, .standard⟩
    let document : Document := ⟨[⟨.query, none, [], [.field none "__typename" [] [],
      .inline (some "Node") [.field (some "node") "__typename" [] []]]⟩], []⟩
    engine.schema? = some .kennel ∧ Schema.kennel.Completed ∧
      ∃ value, (engine.execute document .plain .empty).answer = .ok value ∧
      ∃ root level found shown, value = .ofEntries shown ∧
        List.Forall₂ (EntryOf .kennel none root level) (shownFields found) shown := by
  intro engine document
  have hanswered : (engine.execute document .plain .empty).answer.isOk = true := by
    decide +kernel
  obtain ⟨value, hvalue⟩ := Outcome.exists_of_isOk hanswered
  obtain ⟨_, root, _, level, found, shown, _, _, _, _, _, hshown, hentries, _⟩ :=
    @roots_honour_conditions_iff engine _ rfl Schema.kennel_completed _ _ _ _ hvalue
  exact ⟨rfl, Schema.kennel_completed, value, hvalue, root, level, found, shown, hshown, hentries⟩

/-- The root of queries on a kennel is a node, and names itself one when it is asked as a node; asked as a
dog, which it is not, it answers as well. -/
theorem kennel_names_the_node :
    let engine : Engine := ⟨some .kennel, .standard⟩
    let document (type : String) : Document :=
      ⟨[⟨.query, none, [], [.inline (some type) [.field none "__typename" [] []]]⟩], []⟩
    let holds (condition : String) : Option Bool :=
      (Schema.kennel.typeNamed? condition).map fun type =>
        Schema.kennel.isSubtype Schema.kennel.query type.id
    Schema.kennel.Completed ∧ (Schema.kennel.type Schema.kennel.query).name = "Query" ∧
      holds "Node" = some true ∧ holds "Dog" = some false ∧
      ∃ node dog, (engine.execute (document "Node") .plain .empty).answer = .ok node ∧
        (engine.execute (document "Dog") .plain .empty).answer = .ok dog ∧
        (node.get? "__typename").bind Value.asString? = some "Node" ∧
        (dog.get? "__typename").bind Value.asString? = some "Dog" := by
  intro engine document holds
  let name (type : String) : Option (Option String) :=
    (engine.execute (document type) .plain .empty).answer.toOption.map fun value =>
      (value.get? "__typename").bind Value.asString?
  have hconcrete : (Schema.kennel.type Schema.kennel.query).name = "Query" ∧
      holds "Node" = some true ∧ holds "Dog" = some false ∧
      name "Node" = some (some "Node") ∧ name "Dog" = some (some "Dog") := by
    decide +kernel
  obtain ⟨hname, hisNode, hisDog, hnode, hdog⟩ := hconcrete
  obtain ⟨node, hnode, hnodeName⟩ := Option.map_eq_some_iff.mp hnode
  obtain ⟨dog, hdog, hdogName⟩ := Option.map_eq_some_iff.mp hdog
  exact ⟨Schema.kennel_completed, hname, hisNode, hisDog, node, dog, Outcome.ok_of_toOption hnode,
    Outcome.ok_of_toOption hdog, hnodeName, hdogName⟩

end Engine

end GraphQuery
