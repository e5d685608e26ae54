import GraphQuery.Proofs.Query.Render

/-! Rows from end to end: a level is compiled to a record, the record is evaluated on a row, and the
object of the row is rendered from it. The object shows the first selection of each response key that
applies to the type of the row, and each of these with the answer of its leader: the first selection of
the level that asks for the same field under the same response key. -/

namespace GraphQuery

namespace BoundSelection

/-- Do two selections ask for one field under one response key? Their conditions do not count. -/
def alike (a b : BoundSelection) : Bool :=
  a.field == b.field && a.outputName == b.outputName

/-- The selection of a level whose answer a selection is shown with. -/
def leader (level : List BoundSelection) (selection : BoundSelection) : BoundSelection :=
  (level.find? fun other => other.alike selection).getD selection

theorem alike_iff {a b : BoundSelection} :
    a.alike b = true ↔ a.field = b.field ∧ a.outputName = b.outputName := by
  rw [alike, Bool.and_eq_true, beq_iff_eq, beq_iff_eq]

theorem alike_self (a : BoundSelection) : a.alike a = true :=
  alike_iff.mpr ⟨rfl, rfl⟩

/-- Two selections that are like a third one are alike. -/
theorem alike_of_alike {a b c : BoundSelection} (ha : a.alike c = true) (hb : b.alike c = true) :
    a.alike b = true := by
  obtain ⟨hfield, houtput⟩ := alike_iff.mp ha
  obtain ⟨hfield', houtput'⟩ := alike_iff.mp hb
  exact alike_iff.mpr ⟨hfield.trans hfield'.symm, houtput.trans houtput'.symm⟩

theorem find?_leader {level : List BoundSelection} {selection : BoundSelection}
    (hmem : selection ∈ level) :
    (level.find? fun other => other.alike selection) = some (leader level selection) := by
  rw [leader]
  cases hfind : level.find? fun other => other.alike selection with
  | some first => rfl
  | none => exact absurd (alike_self selection) (List.find?_eq_none.mp hfind selection hmem)

theorem leader_mem {level : List BoundSelection} {selection : BoundSelection}
    (hmem : selection ∈ level) : leader level selection ∈ level :=
  List.mem_of_find?_eq_some (find?_leader hmem)

theorem leader_alike {level : List BoundSelection} {selection : BoundSelection}
    (hmem : selection ∈ level) : (leader level selection).alike selection = true := by
  have htest := List.find?_some (find?_leader hmem)
  exact htest

/-- Where no selections repeat each other, alike ones under one condition are one. -/
theorem eq_of_apart {level : List BoundSelection} (hapart : (level.map signature).Nodup)
    {a b : BoundSelection} (ha : a ∈ level) (hb : b ∈ level) (halike : a.alike b = true)
    (hcondition : a.condition? = b.condition?) : a = b := by
  obtain ⟨hfield, houtput⟩ := alike_iff.mp halike
  refine List.inj_on_of_nodup_map hapart ha hb ?_
  rw [signature, signature, hfield, houtput, hcondition]

end BoundSelection

open BoundSelection (leader)

/-- The leader of a selection is bound, under the key of the selection. -/
theorem Schema.Keying.leader {schema : Schema} {level : List BoundSelection}
    {key? : BoundSelection → Option String} (hkeying : schema.Keying level key?)
    {selection : BoundSelection} (hmem : selection ∈ level) (hkeyed : schema.keyed selection = true) :
    leader level selection ∈ Keyed.firsts key? (fun _ => false) level ∧
      key? (leader level selection) = key? selection := by
  have hsame : ∀ other ∈ level, other.alike selection = true ↔ key? other = key? selection := by
    intro other hother
    rw [BoundSelection.alike_iff, eq_comm, @eq_comm _ other.outputName,
      ← hkeying.same_iff selection hmem other hother hkeyed, eq_comm]
  have hkey := (hsame _ (BoundSelection.leader_mem hmem)).mp (BoundSelection.leader_alike hmem)
  refine ⟨?_, hkey⟩
  have hsome := hkeying.isSome selection hmem
  rw [hkeyed] at hsome
  obtain ⟨key, hkey⟩ := Option.isSome_iff_exists.mp hsome
  rw [hkey] at hsame
  exact Keyed.mem_firsts_of_find? rfl hsame (BoundSelection.find?_leader hmem)

namespace RowContext

variable (context : RowContext) (owner : TypeId)

/-- What the row is rendered with. -/
def renderer : Renderer :=
  ⟨context.schema, context.compiler.data?⟩

/-- The type of the row, by the name that the plan of a type gives to it. -/
def runtimeType? : Option TypeId :=
  (context.schema.typeNamed? ((context.schema.type owner).rowTypeName context.row)).map SchemaType.id

/-- The object of the row for a level. -/
def rendered (level : List BoundSelection) : Except EngineError Members := do
  let record ← context.record (context.schema.type owner) level
  (context.renderer.renderRow (context.schema.type owner) level (record.asObject?.getD [])).outcome

/-- The value of the field of a selection, with the answer of another selection where it has one. -/
def raw (leader selection : BoundSelection) : Except EngineError Value :=
  let field := context.schema.field selection.field
  if field.isPost then
    (context.renderer.postRecord field selection.arguments selection.children).outcome
  else if field.isTypename then
    .ok (.string ((context.schema.type owner).rowTypeName context.row))
  else context.answer (context.schema.type owner) leader

/-- What is shown for a selection with the answer of another one. -/
def value (leader selection : BoundSelection) : Except EngineError Value := do
  let raw ← context.raw owner leader selection
  (context.renderer.present selection raw).outcome

/-- The selections that the object of the row shows. -/
def winners (level : List BoundSelection) : List BoundSelection :=
  Keyed.firsts (context.renderer.responseKey? (context.runtimeType? owner)) (fun _ => false) level

variable {context owner} {level : List BoundSelection} {key? : BoundSelection → Option String}

/-- The answer of a selection is that of its field, its arguments and its children. -/
theorem answer_congr {type : SchemaType} {a b : BoundSelection} (hfield : a.field = b.field)
    (harguments : a.arguments = b.arguments) (hchildren : a.children = b.children) :
    context.answer type a = context.answer type b := by
  simp only [answer, Compiler.binding, hfield, harguments, hchildren]

/-- So is its value. -/
theorem value_congr {first second a b : BoundSelection}
    (hanswer : context.answer (context.schema.type owner) first =
      context.answer (context.schema.type owner) second)
    (hfield : a.field = b.field) (harguments : a.arguments = b.arguments)
    (hchildren : a.children = b.children) :
    context.value owner first a = context.value owner second b := by
  simp only [value, raw, Renderer.present, hanswer, hfield, harguments, hchildren]

section

variable (hkeying : context.schema.Keying level key?)

include hkeying

theorem entries_nodup :
    ((context.entries (context.schema.type owner) key? level).map Prod.fst).Nodup := by
  have hanswers : (((Keyed.firsts key? (fun _ => false) level).map fun selection =>
      ((key? selection).getD "", context.answered (context.schema.type owner) selection)).map
        Prod.fst).Nodup := by
    rw [List.map_map]
    exact Keyed.firsts_keys_nodup ""
  rw [entries, List.map_append, typenameEntries]
  split
  · refine List.nodup_append.mpr ⟨List.nodup_singleton _, hanswers, ?_⟩
    intro a ha b hb hsame
    simp only [List.map_cons, List.map_nil, List.mem_singleton] at ha
    simp only [List.map_map, List.mem_map, Function.comp] at hb
    obtain ⟨selection, hmem, rfl⟩ := hb
    obtain ⟨_, key, hkey, hne⟩ := keyed_of_mem_firsts hkeying hmem
    rw [hkey, Option.getD_some] at hsame
    exact hne (hsame.symm.trans ha)
  · exact hanswers

/-- The record of a level holds the answer of the leader of each selection that has a key. -/
theorem get?_entries {selection : BoundSelection} (hmem : selection ∈ level)
    (hkeyed : context.schema.keyed selection = true) :
    ((key? selection).bind fun key =>
      Members.get? key (.ofList (context.entries (context.schema.type owner) key? level))) =
        some (context.answered (context.schema.type owner) (leader level selection)) := by
  obtain ⟨hleader, hsame⟩ := hkeying.leader hmem hkeyed
  obtain ⟨_, key, hkey, _⟩ := keyed_of_mem_firsts hkeying hleader
  rw [← hsame, hkey, Option.bind_some]
  refine Members.get?_of_mem (entries_nodup hkeying) (List.mem_append_right _ ?_)
  refine List.mem_map.mpr ⟨leader level selection, hleader, ?_⟩
  rw [hkey, Option.getD_some]

/-- The record of a level names the type of the row where a selection needs it. -/
theorem get?_typename {selection : BoundSelection} (hmem : selection ∈ level)
    (hneeds : Compiler.needsTypename context.schema selection = true) :
    Members.get? typenameKey (.ofList (context.entries (context.schema.type owner) key? level)) =
      some (.string ((context.schema.type owner).rowTypeName context.row)) := by
  refine Members.get?_of_mem (entries_nodup hkeying) (List.mem_append_left _ ?_)
  have hany : level.any (Compiler.needsTypename context.schema) = true :=
    List.any_eq_true.mpr ⟨selection, hmem, hneeds⟩
  rw [typenameEntries, hany]
  exact List.mem_singleton.mpr rfl

/-- A condition is decided alike by the record of a row and by the type of the row. -/
theorem responseKey?_eq {selection : BoundSelection} (hmem : selection ∈ level) :
    context.renderer.responseKey? (context.renderer.runtimeType?
        (.ofList (context.entries (context.schema.type owner) key? level))) selection =
      context.renderer.responseKey? (context.runtimeType? owner) selection := by
  cases hcondition : selection.condition? with
  | none => rw [Renderer.responseKey?, Renderer.responseKey?, hcondition, Renderer.applies,
      Renderer.applies]
  | some condition =>
      have hneeds : Compiler.needsTypename context.schema selection = true := by
        rw [Compiler.needsTypename, hcondition]
        rfl
      have hruntime : context.renderer.runtimeType?
          (.ofList (context.entries (context.schema.type owner) key? level)) =
            context.runtimeType? owner := by
        rw [Renderer.runtimeType?, get?_typename hkeying hmem hneeds]
        rfl
      rw [hruntime]

end

section

variable (hkeying : context.schema.Keying level key?)
  (hanswers : ∀ selection ∈ Keyed.firsts key? (fun _ => false) level,
    ∃ answer, context.answer (context.schema.type owner) selection = .ok answer)

include hkeying hanswers

/-- The record of a row has an entry for each selection of its level. -/
theorem entry_outcome {selection : BoundSelection} (hmem : selection ∈ level) :
    (context.renderer.entry (context.schema.type owner)
        (.ofList (context.entries (context.schema.type owner) key? level))
        (context.schema.field selection.field) selection.arguments (key? selection)
        selection.children).outcome =
      (context.raw owner (leader level selection) selection).map some := by
  unfold Renderer.entry raw
  dsimp only
  split
  · rw [Traced.outcome_bind]
    rfl
  · next hpost =>
      split
      · next htypename =>
          have hneeds : Compiler.needsTypename context.schema selection = true := by
            rw [Compiler.needsTypename, htypename, Bool.or_true]
          rw [get?_typename hkeying hmem hneeds]
          rfl
      · next htypename =>
          have hkeyed : context.schema.keyed selection = true := by
            rw [Schema.keyed, eq_false_of_ne_true hpost, eq_false_of_ne_true htypename]
            rfl
          obtain ⟨answer, hanswer⟩ := hanswers _ (hkeying.leader hmem hkeyed).1
          rw [get?_entries hkeying hmem hkeyed, answered_eq hanswer, hanswer]
          rfl

/-- What the record of a row shows for a selection is its value with the answer of its leader. -/
theorem keyedShown_outcome {selection : BoundSelection} (hmem : selection ∈ level) :
    (context.renderer.keyedShown (context.schema.type owner)
        (.ofList (context.entries (context.schema.type owner) key? level)) key? selection).outcome =
      (context.value owner (leader level selection) selection).map (selection.outputName, ·) := by
  have hshown : (context.renderer.shown (context.schema.type owner)
      (.ofList (context.entries (context.schema.type owner) key? level)) (key? selection)
        selection).outcome = context.value owner (leader level selection) selection := by
    have hentry := entry_outcome hkeying hanswers hmem
    rw [Renderer.shown, Traced.outcome_bind]
    change (context.renderer.entry _ _ (context.schema.field selection.field) _ _ _).outcome >>= _ = _
    rw [hentry, value]
    cases context.raw owner (leader level selection) selection <;> rfl
  rw [Renderer.keyedShown, Traced.outcome_bind, hshown]
  cases context.value owner (leader level selection) selection <;> rfl

end

section

variable (hschema : context.schema.WellFormed) (howner : owner < context.schema.types.length)
  (hcarries : ∀ selection ∈ level, context.schema.Carries owner selection)

include hschema howner hcarries

/-- The object of a row shows the winners of the level with the answers of their leaders. -/
theorem rendered_eq {record : Value}
    (hrecord : context.record (context.schema.type owner) level = .ok record) :
    context.rendered owner level = (do
      let shown ← (context.winners owner level).mapM fun selection =>
        (context.value owner (leader level selection) selection).map (selection.outputName, ·)
      pure (Members.ofList shown)) := by
  obtain ⟨key?, hkeys, hkeying⟩ := Schema.recordKeys_ok hschema hcarries
  have hanswers := answer_of_record hschema (Schema.type_mem howner) hkeys hkeying hrecord
  have hmembers := record_ok hschema (Schema.type_mem howner) hkeys hkeying hanswers
  have hholds : context.renderer.Holds
      (.ofList (context.entries (context.schema.type owner) key? level)) key? level := by
    intro selection hmem hkeyed
    have hget := @get?_entries context owner level key? hkeying selection hmem hkeyed
    rw [hget]
    rfl
  rw [rendered, hmembers]
  change (context.renderer.renderRow _ level (.ofList _)).outcome = _
  rw [Renderer.renderRow_eq hkeys hholds, Traced.outcome_bind, Traced.outcome_mapM,
    Keyed.firsts_congr fun selection hmem => responseKey?_eq hkeying hmem]
  have hshown : ∀ selection ∈ context.winners owner level, _ := fun selection hmem =>
    keyedShown_outcome hkeying hanswers (Keyed.mem_firsts hmem).1
  rw [← Outcome.mapM_congr hshown]
  rfl

/-- The record of a level is there exactly when all selections that lead have answers. -/
theorem record_isOk_iff : (∃ record, context.record (context.schema.type owner) level = .ok record) ↔
    ∀ selection ∈ level, context.schema.keyed selection = true →
      ∃ answer, context.answer (context.schema.type owner) (leader level selection) = .ok answer := by
  obtain ⟨key?, hkeys, hkeying⟩ := Schema.recordKeys_ok hschema hcarries
  constructor
  · rintro ⟨record, hrecord⟩ selection hmem hkeyed
    exact answer_of_record hschema (Schema.type_mem howner) hkeys hkeying hrecord _
      (hkeying.leader hmem hkeyed).1
  · intro hanswers
    refine ⟨_, record_ok hschema (Schema.type_mem howner) hkeys hkeying fun selection hfirst => ?_⟩
    obtain ⟨hmem, key, hkey, _⟩ := keyed_of_mem_firsts hkeying hfirst
    have hkeyed : context.schema.keyed selection = true := by
      rw [← hkeying.isSome selection hmem, hkey, Option.isSome_some]
    obtain ⟨hleader, hsame⟩ := hkeying.leader hmem hkeyed
    have hself := Keyed.eq_of_mem_firsts hleader hfirst hsame
    rw [← hself]
    exact hanswers selection hmem hkeyed

/-- The object of a row, by what it shows for each winner. -/
theorem rendered_ok_iff {out : Members} : context.rendered owner level = .ok out ↔
    (∃ record, context.record (context.schema.type owner) level = .ok record) ∧
      ∃ shown, Members.ofList shown = out ∧
        (context.winners owner level).mapM (fun selection =>
          (context.value owner (leader level selection) selection).map (selection.outputName, ·)) =
            .ok shown := by
  constructor
  · intro hout
    obtain ⟨record, hrecord, _⟩ := Outcome.bind_ok_iff.mp hout
    rw [rendered_eq hschema howner hcarries hrecord] at hout
    obtain ⟨shown, hshown, hpure⟩ := Outcome.bind_ok_iff.mp hout
    cases hpure
    exact ⟨⟨record, hrecord⟩, shown, rfl, hshown⟩
  · rintro ⟨⟨record, hrecord⟩, shown, rfl, hshown⟩
    rw [rendered_eq hschema howner hcarries hrecord, hshown]
    rfl

end

theorem outputs_nodup : ((context.winners owner level).map BoundSelection.outputName).Nodup :=
  Keyed.firsts_nodup fun _ _ hkey => (Renderer.responseKey?_eq_some.mp hkey).2

theorem isSome_get?_iff (hschema : context.schema.WellFormed)
    (howner : owner < context.schema.types.length)
    (hcarries : ∀ selection ∈ level, context.schema.Carries owner selection) {out : Members}
    (hout : context.rendered owner level = .ok out) (key : String) :
    (Members.get? key out).isSome = true ↔
      ∃ winner ∈ context.winners owner level, winner.outputName = key := by
  obtain ⟨_, shown, rfl, hshown⟩ := (rendered_ok_iff hschema howner hcarries).mp hout
  have hnames := Outcome.names_of_mapM hshown
  have hnodup : (shown.map Prod.fst).Nodup := by
    rw [hnames]
    exact outputs_nodup
  rw [Members.isSome_get?_ofList hnodup, hnames, List.mem_map]

/-- A row of the schema of animals. -/
def ofAnimal (row : Value) : RowContext :=
  ⟨⟨.animals, .enumerable, none⟩, 1, .inProcess, [], row⟩

end RowContext

/-- An animal and what else is known of it. -/
def Value.animal (kind name : String) (others : List (String × Value)) : Value :=
  .ofEntries ((shapeKey, .string kind) :: ("name", .string name) :: others)

end GraphQuery
