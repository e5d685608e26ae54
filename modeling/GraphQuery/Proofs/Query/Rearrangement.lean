import GraphQuery.Proofs.Query.ResponseKey
import GraphQuery.Proofs.Query.Shown
import Mathlib.Data.List.Perm.Subperm

/-! Siblings. Reordering or leaving out selections of one level gives other keys in records to those that
stay, and brings or takes the name of the type, but the responses show the same values for them: each
selection has the answer of its own plan, whatever key it has. This needs that the selections on the way to
the level have records of their own; two siblings that share a field and a response key share one, and are
both read with the keys that each of them computes for itself. -/

namespace GraphQuery

/-- Two values with the same values under some keys, in all rows to which a path of response keys leads. -/
inductive Value.AgreesAt (kept : List String) : List String → Value → Value → Prop where
  | same (path : List String) (value : Value) : AgreesAt kept path value value
  | list {path : List String} {values others : List Value} (length : values.length = others.length)
      (each : ∀ value other, (value, other) ∈ values.zip others → AgreesAt kept path value other) :
      AgreesAt kept path (.array values) (.array others)
  | row {members others : Members}
      (keys : ∀ key ∈ kept, Members.get? key members = Members.get? key others) :
      AgreesAt kept [] (.object members) (.object others)
  | inside {key : String} {path : List String} {members others : Members}
      (apart : ∀ name, name ≠ key → Members.get? name members = Members.get? name others)
      (present : (Members.get? key members).isSome = (Members.get? key others).isSome)
      (below : ∀ value other, Members.get? key members = some value →
        Members.get? key others = some other → AgreesAt kept path value other) :
      AgreesAt kept (key :: path) (.object members) (.object others)

namespace Value.AgreesAt

variable {kept path : List String} {value other : Value}

theorem get? {key : String} (h : AgreesAt kept (key :: path) value other) :
    Option.Rel (AgreesAt kept path) (value.get? key) (other.get? key) := by
  cases h with
  | same =>
      cases value.get? key with
      | none => exact .none
      | some inner => exact .some (.same path inner)
  | list => exact .none
  | @inside _ _ members others _ hpresent hbelow =>
      change Option.Rel _ (Members.get? key members) (Members.get? key others)
      cases hone : Members.get? key members with
      | none =>
          cases hother : Members.get? key others with
          | none => exact .none
          | some inner =>
              rw [hone, hother] at hpresent
              cases hpresent
      | some inner =>
          cases hother : Members.get? key others with
          | none =>
              rw [hone, hother] at hpresent
              cases hpresent
          | some inner' => exact .some (hbelow inner inner' hone hother)

theorem item (h : AgreesAt kept path value other) (i : Nat) : Option.Rel (AgreesAt kept path)
    (value.asArray?.bind (·[i]?)) (other.asArray?.bind (·[i]?)) := by
  cases h with
  | same =>
      cases value.asArray?.bind (·[i]?) with
      | none => exact .none
      | some inner => exact .some (.same path inner)
  | @list _ values others hlength heach =>
      change Option.Rel _ values[i]? others[i]?
      cases hone : values[i]? with
      | none =>
          rw [List.getElem?_eq_none (hlength ▸ List.getElem?_eq_none_iff.mp hone)]
          exact .none
      | some inner =>
          obtain ⟨hlt, _⟩ := List.getElem?_eq_some_iff.mp hone
          rw [List.getElem?_eq_getElem (hlength ▸ hlt)]
          refine .some (heach _ _ (List.mem_iff_getElem?.mpr ⟨i, ?_⟩))
          rw [List.getElem?_zip_eq_some]
          exact ⟨hone, List.getElem?_eq_getElem _⟩
  | row => exact .none
  | inside => exact .none

theorem kept_eq (h : AgreesAt kept [] value other) {key : String} (hkey : key ∈ kept) :
    value.get? key = other.get? key := by
  cases h with
  | same => rfl
  | list => rfl
  | row hkeys => exact hkeys key hkey

end Value.AgreesAt

/-- Two levels of which one has a level, found along a path of response keys, rearranged: its siblings have
response keys of their own, and the other level has some of them in any order. A condition says which
selections the path may take among their siblings. -/
inductive BoundSelection.Rearranged (through : List BoundSelection → BoundSelection → Prop) :
    List String → List String → List BoundSelection → List BoundSelection → Prop where
  | here {level others : List BoundSelection} (distinct : (level.map outputName).Nodup)
      (part : others.Subperm level) : Rearranged through (others.map outputName) [] level others
  | deeper {kept path : List String} {before after children : List BoundSelection}
      {selection : BoundSelection} (taken : through (before ++ after) selection)
      (inner : Rearranged through kept path selection.children children) :
      Rearranged through kept (selection.outputName :: path) (before ++ selection :: after)
        (before ++ { selection with children := children } :: after)

/-- Does no sibling of a selection share its place in records? -/
def Schema.Alone (schema : Schema) (siblings : List BoundSelection) (selection : BoundSelection) : Prop :=
  schema.keyed selection = true → ∀ other ∈ siblings, other.alike selection = false

namespace BoundSelection

theorem distinct_of_subperm {level others : List BoundSelection}
    (hdistinct : (level.map outputName).Nodup) (hpart : others.Subperm level) :
    (others.map outputName).Nodup := by
  obtain ⟨arranged, hperm, hsub⟩ := hpart
  exact (hperm.map outputName).nodup_iff.mp (hdistinct.sublist (hsub.map outputName))

section

variable {key? : BoundSelection → Option String} (hnamed : Named key?)
  {answer other : BoundSelection → Except EngineError Value} {level others : List BoundSelection}
  {out out' : Members}

include hnamed

/-- Objects of siblings, some of them in another order, agree on the keys that both may have. -/
theorem Shown.rearranged (h : Shown key? answer level out) (h' : Shown key? other others out')
    (hdistinct : (level.map outputName).Nodup) (hpart : others.Subperm level)
    (hanswer : ∀ selection ∈ others, answer selection = other selection) :
    ∀ key ∈ others.map outputName, Members.get? key out = Members.get? key out' := by
  intro key hkey
  obtain ⟨selection, hmem, rfl⟩ := List.mem_map.mp hkey
  refine Option.ext fun value => ?_
  rw [h.get?_of_distinct hnamed hdistinct (hpart.subset hmem),
    h'.get?_of_distinct hnamed (distinct_of_subperm hdistinct hpart) hmem, hanswer selection hmem]

end

/-! ### One selection for another -/

/-- A selection of a level, or the one that replaces another. -/
def Replaced (siblings : List BoundSelection) (selection other : BoundSelection) :
    BoundSelection → BoundSelection → Prop :=
  fun a b => (a ∈ siblings ∧ a = b) ∨ (a = selection ∧ b = other)

theorem replaced_level (before after : List BoundSelection) (selection other : BoundSelection) :
    List.Forall₂ (Replaced (before ++ after) selection other) (before ++ selection :: after)
      (before ++ other :: after) := by
  have hsame (items : List BoundSelection) (hsubset : items ⊆ before ++ after) :
      List.Forall₂ (Replaced (before ++ after) selection other) items items :=
    List.forall₂_same.mpr fun item hmem => Or.inl ⟨hsubset hmem, rfl⟩
  exact List.rel_append (hsame before (List.subset_append_left _ _))
    (.cons (Or.inr ⟨rfl, rfl⟩) (hsame after (List.subset_append_right _ _)))

section

variable {key? : BoundSelection → Option String}
  {answer answer' : BoundSelection → Except EngineError Value} {before after : List BoundSelection}
  {selection other : BoundSelection} {out out' : Members}

/-- Objects of siblings of which one is replaced agree on the keys of the others. -/
theorem Shown.replaced (h : Shown key? answer (before ++ selection :: after) out)
    (h' : Shown key? answer' (before ++ other :: after) out') (hkey : key? other = key? selection)
    (houtput : other.outputName = selection.outputName)
    (hanswer : ∀ sibling ∈ before ++ after, answer sibling = answer' sibling) {kept path : List String}
    (hinner : ∀ value value', answer selection = .ok value → answer' other = .ok value' →
      value.AgreesAt kept path value') :
    Value.AgreesAt kept (selection.outputName :: path) (.object out) (.object out') := by
  have hrelated := h.related h' (replaced_level before after selection other) (by
    rintro a b (⟨_, rfl⟩ | ⟨rfl, rfl⟩)
    · exact ⟨rfl, rfl⟩
    · exact ⟨hkey, houtput⟩)
  refine .inside (fun name hname => ?_) ?_ fun value value' hvalue hvalue' => ?_
  · have hname' := hrelated name
    generalize Members.get? name out = one at hname'
    generalize Members.get? name out' = two at hname'
    cases hname' with
    | none => rfl
    | some hpair =>
        obtain ⟨a, b, ⟨hmem, rfl⟩ | ⟨rfl, rfl⟩, hsame, hone, htwo⟩ := hpair
        · rw [hanswer a hmem, htwo, Except.ok.injEq] at hone
          rw [hone]
        · exact absurd hsame.symm hname
  · have hpresent := hrelated selection.outputName
    generalize Members.get? selection.outputName out = one at hpresent
    generalize Members.get? selection.outputName out' = two at hpresent
    cases hpresent <;> rfl
  · have hpair := hrelated selection.outputName
    rw [hvalue, hvalue'] at hpair
    cases hpair with
    | some hpair =>
        obtain ⟨a, b, ⟨hmem, rfl⟩ | ⟨rfl, rfl⟩, _, hone, htwo⟩ := hpair
        · rw [hanswer a hmem, htwo, Except.ok.injEq] at hone
          rw [hone]
          exact .same path value
        · exact hinner value value' hone htwo

end

theorem leader_of_distinct {level : List BoundSelection} (hdistinct : (level.map outputName).Nodup)
    {selection : BoundSelection} (hmem : selection ∈ level) : leader level selection = selection :=
  List.inj_on_of_nodup_map hdistinct (leader_mem hmem) hmem (alike_iff.mp (leader_alike hmem)).2

section

variable {before after : List BoundSelection} {selection other sibling : BoundSelection}

theorem leader_alone (h : ∀ sibling ∈ before ++ after, sibling.alike selection = false) :
    leader (before ++ selection :: after) selection = selection := by
  have hmem : selection ∈ before ++ selection :: after := List.mem_append_right _ List.mem_cons_self
  have halike := leader_alike hmem
  rcases List.mem_append.mp (leader_mem hmem) with hbefore | hrest
  · rw [h _ (List.mem_append_left _ hbefore)] at halike
    cases halike
  · rcases List.mem_cons.mp hrest with hself | hafter
    · exact hself
    · rw [h _ (List.mem_append_right _ hafter)] at halike
      cases halike

theorem leader_replaced (h : selection.alike sibling = false) (hother : other.alike sibling = false) :
    leader (before ++ selection :: after) sibling = leader (before ++ other :: after) sibling := by
  rw [leader, leader, List.find?_append, List.find?_append, List.find?_cons, List.find?_cons, h, hother]

end

end BoundSelection

/-- Nor is a selection that has a place in records alike to one that is alone among its siblings. -/
theorem Schema.Alone.not_alike {schema : Schema} {siblings : List BoundSelection}
    {selection sibling : BoundSelection} (h : schema.Alone siblings selection) (hmem : sibling ∈ siblings)
    (hkeyed : schema.keyed sibling = true) : selection.alike sibling = false := by
  rw [Bool.eq_false_iff]
  intro halike
  obtain ⟨hfield, houtput⟩ := BoundSelection.alike_iff.mp halike
  have hself : schema.keyed selection = true := by
    rw [Schema.keyed, hfield]
    exact hkeyed
  have hother := h hself sibling hmem
  rw [BoundSelection.alike_iff.mpr ⟨hfield.symm, houtput.symm⟩] at hother
  cases hother

/-! ### Rows -/

namespace RowContext

open BoundSelection (Shown Named Rearranged leader)

theorem named_responseKey (renderer : Renderer) (runtime? : Option TypeId) :
    Named (renderer.responseKey? runtime?) :=
  fun _ _ h => (Renderer.responseKey?_eq_some.mp h).2

/-- What has no place in records is shown without the answer of a leader. -/
theorem value_unkeyed {context : RowContext} {owner : TypeId} {selection : BoundSelection}
    (h : context.schema.keyed selection = false) (first second : BoundSelection) :
    context.value owner first selection = context.value owner second selection := by
  rw [Schema.keyed, Bool.not_eq_false', Bool.or_eq_true] at h
  unfold value raw
  dsimp only
  rcases h with htypename | hpost
  · rw [htypename]
    rfl
  · rw [hpost]
    rfl

/-- A selection that shares its place with no sibling leads itself, if it has one. -/
theorem value_alone {context : RowContext} {owner : TypeId} {before after : List BoundSelection}
    {selection : BoundSelection} (halone : context.schema.Alone (before ++ after) selection) :
    context.value owner (leader (before ++ selection :: after) selection) selection =
      context.value owner selection selection := by
  cases hkeyed : context.schema.keyed selection with
  | false => exact value_unkeyed hkeyed _ _
  | true => rw [BoundSelection.leader_alone (halone hkeyed)]

theorem shown_of_rendered {context : RowContext} {owner : TypeId} {level : List BoundSelection}
    {out : Members} (hschema : context.schema.WellFormed) (howner : owner < context.schema.types.length)
    (hcarries : ∀ selection ∈ level, context.schema.Carries owner selection)
    (h : context.rendered owner level = .ok out) :
    Shown (context.renderer.responseKey? (context.runtimeType? owner))
      (fun selection => context.value owner (leader level selection) selection) level out := by
  obtain ⟨_, shown, hout, hshown⟩ := (rendered_ok_iff hschema howner hcarries).mp h
  exact ⟨shown, hout, hshown⟩

section

variable {frame : RowContext} {kept path : List String} {field : Field}
  {children others : List BoundSelection} (hcomposite : (frame.schema.type field.target).isLeaf = false)
  (hrows : ∀ row out out', (frame.on row).rendered field.target children = .ok out →
    (frame.on row).rendered field.target others = .ok out' →
    Value.AgreesAt kept path (.object out) (.object out'))

include hcomposite hrows

/-- What two levels show of the value of one plan agrees where they agree on every row. -/
theorem agrees_of_composed {plan composed composed' : Plan}
    (hcomposed : (frame.compiler.compose field plan children frame.depth).outcome = .ok composed)
    (hcomposed' : (frame.compiler.compose field plan others frame.depth).outcome = .ok composed')
    {row raw raw' shown shown' : Value} (hraw : composed.evalIn frame.source frame.vars row = .ok raw)
    (hraw' : composed'.evalIn frame.source frame.vars row = .ok raw')
    (hshown : (raw.mapObjects (frame.renderer.renderRow (frame.schema.type field.target)
      children)).outcome = .ok shown)
    (hshown' : (raw'.mapObjects (frame.renderer.renderRow (frame.schema.type field.target)
      others)).outcome = .ok shown') : shown.AgreesAt kept path shown' := by
  unfold Compiler.compose at hcomposed hcomposed'
  dsimp only at hcomposed hcomposed'
  rw [hcomposite, if_neg Bool.false_ne_true] at hcomposed hcomposed'
  obtain ⟨record, hrecord, hpure⟩ := Traced.bind_ok_iff.mp hcomposed
  cases hpure
  obtain ⟨record', hrecord', hpure⟩ := Traced.bind_ok_iff.mp hcomposed'
  cases hpure
  rw [Compiler.evalIn_project] at hraw hraw'
  obtain ⟨value, hvalue, hraw⟩ := Outcome.bind_ok_iff.mp hraw
  obtain ⟨value', hvalue', hraw'⟩ := Outcome.bind_ok_iff.mp hraw'
  cases hvalue.symm.trans hvalue'
  refine @Field.arrange_related field plan.isSequence _ _ (fun raw raw' => ∀ shown shown',
    (raw.mapObjects (frame.renderer.renderRow (frame.schema.type field.target) children)).outcome =
      .ok shown →
    (raw'.mapObjects (frame.renderer.renderRow (frame.schema.type field.target) others)).outcome =
      .ok shown' → shown.AgreesAt kept path shown') ?_ ?_ ?_ value raw raw' hraw hraw' shown shown' hshown
      hshown'
  · intro row one other hone hother shown shown' hshown hshown'
    obtain ⟨members, rfl⟩ := Compiler.object_of_record hrecord hone
    obtain ⟨members', rfl⟩ := Compiler.object_of_record hrecord' hother
    rw [Value.mapObjects] at hshown hshown'
    obtain ⟨out, hout, hpure⟩ := Traced.bind_ok_iff.mp hshown
    cases hpure
    obtain ⟨out', hout', hpure⟩ := Traced.bind_ok_iff.mp hshown'
    cases hpure
    have hrendered {level : List BoundSelection} {record : Plan} {members out : Members}
        (hrecord : (frame.compiler.record (frame.schema.type field.target) level frame.depth).outcome =
          .ok record) (hone : record.evalIn frame.source frame.vars row = .ok (.object members))
        (hout : (frame.renderer.renderRow (frame.schema.type field.target) level members).outcome =
          .ok out) : (frame.on row).rendered field.target level = .ok out :=
      Outcome.bind_ok_iff.mpr ⟨.object members,
        Outcome.bind_ok_iff.mpr ⟨record, hrecord, Outcome.mapError_ok_iff.mpr hone⟩, hout⟩
    exact hrows row out out' (hrendered hrecord hone hout) (hrendered hrecord' hother hout')
  · intro shown shown' hshown hshown'
    cases hshown
    cases hshown'
    exact .same path .null
  · intro ones others' hall shown shown' hshown hshown'
    obtain ⟨values, rfl, hvalues⟩ := Value.mapObjects_array_ok hshown
    obtain ⟨values', rfl, hvalues'⟩ := Value.mapObjects_array_ok hshown'
    obtain ⟨hlength, heach⟩ := List.forall₂_iff_zip.mp
      (Outcome.forall₂_comp (Outcome.forall₂_comp hvalues.flip hall) hvalues')
    refine .list hlength fun value value' hmem => ?_
    obtain ⟨other, ⟨one, hone, hpair⟩, hother⟩ := heach hmem
    exact hpair value value' hone hother

end

/-- What two levels show of the value of one post field agrees where they agree on every row. -/
theorem agrees_of_postRecord {renderer : Renderer} {kept path : List String} {field : Field}
    {children others : List BoundSelection}
    (hcomposite : (renderer.schema.type field.target).isLeaf = false)
    (hrows : ∀ row out out', (renderer.frame.on row).rendered field.target children = .ok out →
      (renderer.frame.on row).rendered field.target others = .ok out' →
      Value.AgreesAt kept path (.object out) (.object out')) {arguments : Arguments}
    {raw raw' shown shown' : Value}
    (hraw : (renderer.postRecord field arguments children).outcome = .ok raw)
    (hraw' : (renderer.postRecord field arguments others).outcome = .ok raw')
    (hshown : (raw.mapObjects (renderer.renderRow (renderer.schema.type field.target)
      children)).outcome = .ok shown)
    (hshown' : (raw'.mapObjects (renderer.renderRow (renderer.schema.type field.target)
      others)).outcome = .ok shown') : shown.AgreesAt kept path shown' := by
  obtain ⟨computed, hcomputed, hraw⟩ := Traced.bind_ok_iff.mp hraw
  obtain ⟨computed', hcomputed', hraw'⟩ := Traced.bind_ok_iff.mp hraw'
  cases hcomputed.symm.trans hcomputed'
  rw [hcomposite, if_neg Bool.false_ne_true] at hraw hraw'
  obtain ⟨composed, hcomposed, hraw⟩ := Traced.bind_ok_iff.mp hraw
  obtain ⟨composed', hcomposed', hraw'⟩ := Traced.bind_ok_iff.mp hraw'
  have hvalue : composed.evalIn renderer.frame.source renderer.frame.vars .null = .ok raw :=
    Outcome.mapError_ok_iff.mp hraw
  have hvalue' : composed'.evalIn renderer.frame.source renderer.frame.vars .null = .ok raw' :=
    Outcome.mapError_ok_iff.mp hraw'
  exact @agrees_of_composed renderer.frame kept path field children others hcomposite hrows _ _ _ hcomposed
    hcomposed' _ _ _ _ _ hvalue hvalue' hshown hshown'

theorem postRecord_leaf {renderer : Renderer} {field : Field}
    (hleaf : (renderer.schema.type field.target).isLeaf = true) (arguments : Arguments)
    (children others : List BoundSelection) :
    renderer.postRecord field arguments children = renderer.postRecord field arguments others := by
  unfold Renderer.postRecord
  simp only [hleaf, if_true]

/-- A selection that asks for nothing inside rows has one value, whatever its children are. -/
theorem value_of_flat {context : RowContext} {owner : TypeId} {selection : BoundSelection}
    (hflat : ¬context.schema.Nests selection) (children : List BoundSelection) :
    context.value owner { selection with children := children }
        { selection with children := children } = context.value owner selection selection := by
  cases htypename : (context.schema.field selection.field).isTypename with
  | true =>
      have hunkeyed (children : List BoundSelection) :
          context.schema.keyed { selection with children := children } = false := by
        rw [Schema.keyed, htypename]
        rfl
      rw [value_unkeyed (hunkeyed children) _ selection]
      unfold value raw Renderer.present
      dsimp only
      simp only [Field.isPost, Field.resolver_of_isTypename htypename, htypename]
      rfl
  | false =>
      have hleaf : (context.schema.type (context.schema.field selection.field).target).isLeaf = true := by
        by_contra hcomposite
        exact hflat ⟨htypename, eq_false_of_ne_true hcomposite⟩
      have hanswer : context.answer (context.schema.type owner) { selection with children := children } =
          context.answer (context.schema.type owner) selection := by
        simp only [answer, Compiler.binding, Compiler.compose_leaf hleaf]
      unfold value raw
      dsimp only
      rw [hanswer, @postRecord_leaf context.renderer _ hleaf selection.arguments children
        selection.children]
      refine congrArg (_ >>= ·) (funext fun raw => ?_)
      rw [present_eq rfl, present_eq rfl, hleaf, Bool.or_true, if_pos rfl, if_pos rfl]

section

variable {context : RowContext} {owner : TypeId} {selection : BoundSelection}
  {children : List BoundSelection} {kept path : List String}
  (hrows : ∀ row out out', ((context.inside owner selection).on row).rendered
      (context.schema.field selection.field).target selection.children = .ok out →
    ((context.inside owner selection).on row).rendered
      (context.schema.field selection.field).target children = .ok out' →
    Value.AgreesAt kept path (.object out) (.object out'))
  {shown shown' : Value}

include hrows

/-- So does what they show of the answers of one selection. -/
theorem agrees_of_answer (hnests : context.schema.Nests selection)
    (hpost : (context.schema.field selection.field).isPost = false) {answer answer' : Value}
    (hanswer : context.answer (context.schema.type owner) selection = .ok answer)
    (hanswer' : context.answer (context.schema.type owner) { selection with children := children } =
      .ok answer')
    (hshown : (answer.mapObjects (context.renderer.renderRow
      (context.schema.type (context.schema.field selection.field).target) selection.children)).outcome =
        .ok shown)
    (hshown' : (answer'.mapObjects (context.renderer.renderRow
      (context.schema.type (context.schema.field selection.field).target) children)).outcome =
        .ok shown') : shown.AgreesAt kept path shown' := by
  have hinside : context.inside owner selection = { context with
      depth := context.depth + 1
      vars := Compiler.around context.vars (context.schema.field selection.field) context.depth
        (context.parent owner selection) } := by
    rw [inside, hpost]
    rfl
  obtain ⟨bound, hbound, hanswer⟩ := Outcome.bind_ok_iff.mp hanswer
  obtain ⟨bound', hbound', hanswer'⟩ := Outcome.bind_ok_iff.mp hanswer'
  have hanswer := Outcome.mapError_ok_iff.mp hanswer
  have hanswer' := Outcome.mapError_ok_iff.mp hanswer'
  unfold Compiler.binding at hbound hbound'
  obtain ⟨plan, hplan, hbound⟩ := Traced.bind_ok_iff.mp hbound
  obtain ⟨composed, hcomposed, hpure⟩ := Traced.bind_ok_iff.mp hbound
  cases hpure
  obtain ⟨plan', hplan', hbound'⟩ := Traced.bind_ok_iff.mp hbound'
  obtain ⟨composed', hcomposed', hpure⟩ := Traced.bind_ok_iff.mp hbound'
  cases hpure
  cases hplan.symm.trans hplan'
  rw [Compiler.evalIn_guardPartial_eq, Compiler.evalIn_bindParent] at hanswer hanswer'
  split at hanswer
  · next hguarded =>
      rw [if_pos hguarded] at hanswer'
      cases hanswer
      cases hanswer'
      cases hshown
      cases hshown'
      exact .same path .null
  · next hguarded =>
      rw [if_neg hguarded] at hanswer'
      rw [hinside] at hrows
      exact @agrees_of_composed { context with
          depth := context.depth + 1
          vars := Compiler.around context.vars (context.schema.field selection.field) context.depth
            (context.parent owner selection) } kept path _ _ _ hnests.2 hrows _ _ _ hcomposed hcomposed' _
        _ _ _ _ hanswer hanswer' hshown hshown'

/-- Two levels under one selection have values that agree where their rows do. -/
theorem agrees_of_value (hvalue : context.value owner selection selection = .ok shown)
    (hvalue' : context.value owner { selection with children := children }
      { selection with children := children } = .ok shown') : shown.AgreesAt kept path shown' := by
  by_cases hnests : context.schema.Nests selection
  · obtain ⟨answer, hraw, hshown⟩ := Outcome.bind_ok_iff.mp hvalue
    obtain ⟨answer', hraw', hshown'⟩ := Outcome.bind_ok_iff.mp hvalue'
    unfold raw at hraw hraw'
    dsimp only at hraw hraw'
    rw [hnests.1, if_neg Bool.false_ne_true] at hraw hraw'
    rw [present_eq rfl, hnests.1, hnests.2, Bool.or_false, if_neg Bool.false_ne_true] at hshown hshown'
    cases hpost : (context.schema.field selection.field).isPost with
    | false =>
        rw [hpost, if_neg Bool.false_ne_true] at hraw hraw'
        exact agrees_of_answer hrows hnests hpost hraw hraw' hshown hshown'
    | true =>
        rw [hpost, if_pos rfl] at hraw hraw'
        have hinside : context.inside owner selection = context.renderer.frame := by
          rw [inside, hpost]
          rfl
        rw [hinside] at hrows
        exact agrees_of_postRecord hnests.2 hrows hraw hraw' hshown hshown'
  · rw [value_of_flat hnests, hvalue, Except.ok.injEq] at hvalue'
    rw [hvalue']
    exact .same path shown'

end

theorem schema_inside (context : RowContext) (owner : TypeId) (selection : BoundSelection) :
    (context.inside owner selection).schema = context.schema := by
  unfold inside
  dsimp only
  split <;> rfl

/-- The objects of every row agree on the keys that are kept, also inside them. -/
theorem agrees_of_rendered {schema : Schema} (hschema : schema.WellFormed) {kept path : List String}
    {level others : List BoundSelection} (h : Rearranged schema.Alone kept path level others) :
    ∀ {frame : RowContext} {owner : TypeId} {out out' : Members}, frame.schema = schema →
      owner < schema.types.length → schema.Bound owner level → schema.Bound owner others →
      frame.rendered owner level = .ok out → frame.rendered owner others = .ok out' →
      Value.AgreesAt kept path (.object out) (.object out') := by
  induction h with
  | @here level others hdistinct hpart =>
      intro frame owner out out' hframe howner hbound hbound' hout hout'
      subst hframe
      have hshown := shown_of_rendered hschema howner hbound.carries hout
      have hshown' := shown_of_rendered hschema howner hbound'.carries hout'
      refine .row (hshown.rearranged (named_responseKey _ _) hshown' hdistinct hpart fun selection hmem => ?_)
      rw [BoundSelection.leader_of_distinct hdistinct (hpart.subset hmem),
        BoundSelection.leader_of_distinct (BoundSelection.distinct_of_subperm hdistinct hpart) hmem]
  | @deeper kept path before after children selection halone _ ih =>
      intro frame owner out out' hframe howner hbound hbound' hout hout'
      subst hframe
      have hmem : selection ∈ before ++ selection :: after :=
        List.mem_append_right _ List.mem_cons_self
      have hshown := shown_of_rendered hschema howner hbound.carries hout
      have hshown' := shown_of_rendered hschema howner hbound'.carries hout'
      refine hshown.replaced hshown' rfl rfl (fun sibling hsibling => ?_)
        fun value value' hvalue hvalue' => ?_
      · cases hkeyed : frame.schema.keyed sibling with
        | false => exact value_unkeyed hkeyed _ _
        | true =>
            -- a sibling with a place in records is alike neither to the selection nor to what replaces it
            have hother := halone.not_alike hsibling hkeyed
            rw [@BoundSelection.leader_replaced before after selection
              { selection with children := children } sibling hother hother]
      · have hvalue : frame.value owner selection selection = .ok value :=
          (value_alone halone).symm.trans hvalue
        have hvalue' : frame.value owner { selection with children := children }
            { selection with children := children } = .ok value' :=
          (@value_alone frame owner before after { selection with children := children } halone).symm.trans
            hvalue'
        refine agrees_of_value (fun row out out' hrow hrow' => ?_) hvalue hvalue'
        refine ih ?_ ?_ ?_ ?_ hrow hrow'
        · exact schema_inside frame owner selection
        · exact hschema.target_lt _ (hbound.field_mem hschema hmem)
        · exact hbound.children selection hmem
        · exact hbound'.children _ (List.mem_append_right before List.mem_cons_self)

end RowContext

end GraphQuery
