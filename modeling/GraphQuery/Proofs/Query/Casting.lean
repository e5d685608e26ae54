import GraphQuery.Proofs.Query.Arrangement
import GraphQuery.Proofs.Query.Reading
import GraphQuery.Proofs.Query.Tier
import GraphQuery.Proofs.Schema.Subtype

/-! What casts hide. Without casts a field is read also on rows that do not have it, so that the records
of the tiers differ. They differ only in slots that no response shows: where a selection applies to a row
and its condition implies that the row has the field, the row is the same with and without the cast, and
all that is made of it is shown alike. -/

namespace GraphQuery

/-- Plans that are sequences alike and have the same values on some rows. -/
structure Plan.AgreesOn (holds : Value → Prop) (first second : Plan) : Prop where
  sequence : first.isSequence = second.isSequence
  value : ∀ source vars row, holds row → ∀ a b, first.evalIn source vars row = .ok a →
    second.evalIn source vars row = .ok b → a = b

namespace Plan.AgreesOn

variable {holds more : Value → Prop} {first second : Plan}

theorem refl (plan : Plan) : AgreesOn holds plan plan :=
  ⟨rfl, fun _ _ _ _ _ _ ha hb => Except.ok.inj (ha.symm.trans hb)⟩

theorem symm (h : AgreesOn holds first second) : AgreesOn holds second first :=
  ⟨h.sequence.symm, fun source vars row hrow a b ha hb => (h.value source vars row hrow b a hb ha).symm⟩

theorem mono (h : AgreesOn holds first second) (hmore : ∀ row, more row → holds row) :
    AgreesOn more first second :=
  ⟨h.sequence, fun source vars row hrow => h.value source vars row (hmore row hrow)⟩

end Plan.AgreesOn

namespace Schema

/-- Is the field of a selection declared by the type that it selects on, or by a supertype of that? -/
def Declared (schema : Schema) (owner : TypeId) (selection : BoundSelection) : Prop :=
  schema.isSubtype (selection.condition?.getD owner) (schema.field selection.field).declaring = true

instance decidableDeclared (schema : Schema) (owner : TypeId) (selection : BoundSelection) :
    Decidable (schema.Declared owner selection) :=
  inferInstanceAs (Decidable (_ = _))

/-- A plan that finds its parent as the row itself, and that is not a member, may come to different values
for the bare row and for the cast row. Here it does not on rows that have the field. -/
def CastFree (schema : Schema) (data? : Option Value) (owner : TypeId) (selection : BoundSelection) :
    Prop :=
  let field := schema.field selection.field
  let declaring := schema.type field.declaring
  field.resolution = .unmodified → field.isMember = false →
    schema.isSubtype owner field.declaring = false → ∀ bare cast,
      field.buildPlan ⟨.row, none, data?⟩ selection.arguments = .ok bare →
      field.buildPlan ⟨.cast .row declaring.name declaring.shapes, none, data?⟩ selection.arguments =
        .ok cast →
      bare.AgreesOn (fun row => row.hasShape declaring.shapes = true) cast

/-- What lets a selection be shown alike with and without casts. -/
structure Untouched (schema : Schema) (data? : Option Value) (owner : TypeId)
    (selection : BoundSelection) : Prop where
  declared : schema.Declared owner selection
  castFree : schema.CastFree data? owner selection

/-- A row to which a selection applies has its field. -/
theorem hasField_of_admits {schema : Schema} (hschema : schema.WellFormed)
    (hhierarchy : schema.Hierarchical) {owner : TypeId} (howner : owner < schema.types.length)
    {selection : BoundSelection} (hdeclared : schema.Declared owner selection)
    (hlt : (schema.field selection.field).declaring < schema.types.length) {row : Value}
    (hadmits : schema.admits owner row selection.condition? = true) :
    schema.hasField owner (schema.field selection.field) row = true := by
  unfold Declared at hdeclared
  cases hcondition : selection.condition? with
  | none =>
      rw [hcondition, Option.getD_none] at hdeclared
      rw [hasField, hdeclared, Bool.true_or]
  | some condition =>
      obtain ⟨actual, hactual, hshape, hname⟩ := hhierarchy.typename _ (type_mem howner) row
      rw [hcondition, Option.getD_some] at hdeclared
      have hruntime : (schema.type owner).rowTypeName row = actual.name := by
        unfold SchemaType.rowTypeName
        rw [hname]
      unfold admits at hadmits
      rw [hcondition, hruntime, hschema.typeNamed hactual] at hadmits
      have hsub := hhierarchy.trans hadmits hdeclared
      rcases hshape with rfl | hshape
      · rw [hschema.id_of_lt howner] at hsub
        rw [hasField, hsub, Bool.true_or]
      · obtain ⟨id, hget⟩ := List.mem_iff_getElem?.mp hactual
        have hshapes := hhierarchy.shapes hsub hlt
        rw [hschema.type_id id actual hget, type_eq hget] at hshapes
        rw [hasField, Bool.or_eq_true]
        refine Or.inr ?_
        unfold Value.hasShape at hshape ⊢
        split at hshape
        · exact List.contains_iff_mem.mpr (hshapes (List.contains_iff_mem.mp hshape))
        · cases hshape

end Schema

namespace RowContext

variable {context : RowContext} {owner : TypeId} {field : Field}

/-! ### Rows that have a field -/

theorem lacks_of_has (hid : (context.schema.type owner).id = owner)
    (hhas : context.schema.hasField owner field context.row = true) :
    context.compiler.lacks context.row (context.schema.type owner) field = false := by
  rw [Compiler.lacks_eq hid, hhas, Bool.not_true]

/-- The answer of a selection on a row that has its field is the value of what is composed from the plan
of the field. -/
theorem answer_ok_of_has (hid : (context.schema.type owner).id = owner) {selection : BoundSelection}
    (hhas : context.schema.hasField owner (context.schema.field selection.field) context.row = true)
    {answer : Value} (h : context.answer (context.schema.type owner) selection = .ok answer) :
    ∃ plan composed,
      (context.schema.field selection.field).buildPlan
        ⟨Compiler.parentOf (context.schema.field selection.field)
          (context.compiler.rowOf (context.schema.type owner) (context.schema.field selection.field))
          context.depth, none, context.compiler.data?⟩ selection.arguments = .ok plan ∧
      (context.schema.field selection.field).isTypename = false ∧
      (context.compiler.compose (context.schema.field selection.field) plan selection.children
        (context.depth + 1)).outcome = .ok composed ∧
      composed.evalIn context.source (Compiler.around context.vars
        (context.schema.field selection.field) context.depth context.row) context.row = .ok answer := by
  obtain ⟨bound, hbound, hvalue⟩ := Outcome.bind_ok_iff.mp h
  have hvalue := Outcome.mapError_ok_iff.mp hvalue
  unfold Compiler.binding at hbound
  dsimp only at hbound
  obtain ⟨plan, hplan, hbound⟩ := Traced.bind_ok_iff.mp hbound
  obtain ⟨composed, hcomposed, hpure⟩ := Traced.bind_ok_iff.mp hbound
  cases hpure
  rw [Compiler.evalIn_guardPartial_eq, Compiler.evalIn_bindParent, Compiler.parentValue,
    lacks_of_has hid hhas, Bool.and_false, Bool.and_false, if_neg Bool.false_ne_true,
    if_neg Bool.false_ne_true] at hvalue
  obtain ⟨hbuilt, _, htypename⟩ := Compiler.of_tracedPlan_ok hplan
  exact ⟨plan, composed, hbuilt, htypename, hcomposed, hvalue⟩

end RowContext

theorem Value.mapObjects_array_congr {change : Members → Traced Members} {ones others : List Value}
    (h : List.Forall₂ (fun a b => Value.mapObjects change a = Value.mapObjects change b) ones others) :
    Value.mapObjects change (.array ones) = Value.mapObjects change (.array others) := by
  have hall : Value.mapObjectsAll change ones = Value.mapObjectsAll change others := by
    induction h with
    | nil => rfl
    | cons hhead _ ih => rw [Value.mapObjectsAll, Value.mapObjectsAll, hhead, ih]
  rw [Value.mapObjects, Value.mapObjects, hall]

/-! ### Two tiers on one row -/

namespace Compiler

variable {schema : Schema} {data? : Option Value} {one other : Tier}

theorem evalIn_member_row {row : Value} {shapes : List String}
    (hshape : row.hasShape shapes = true) (source : Source) (vars : List (String × Value))
    (typeName name : String) :
    (Plan.member (.cast .row typeName shapes) name).evalIn source vars row =
      (Plan.member .row name).evalIn source vars row := by
  simp only [Plan.evalIn]
  change Except.ok (((if row.hasShape shapes then row else Value.null).get? name).getD .null) = _
  rw [hshape]
  rfl

/-- The plans that two tiers build for a field have the same values on rows that have the field. -/
theorem plans_agree {owner : TypeId} (hid : (schema.type owner).id = owner)
    {selection : BoundSelection} (hfree : schema.CastFree data? owner selection) {depth : Nat}
    {first second : Plan}
    (hfirst : (schema.field selection.field).buildPlan ⟨parentOf (schema.field selection.field)
      (Compiler.rowOf ⟨schema, one, data?⟩ (schema.type owner) (schema.field selection.field)) depth,
        none, data?⟩ selection.arguments = .ok first)
    (hsecond : (schema.field selection.field).buildPlan ⟨parentOf (schema.field selection.field)
      (Compiler.rowOf ⟨schema, other, data?⟩ (schema.type owner) (schema.field selection.field)) depth,
        none, data?⟩ selection.arguments = .ok second) :
    first.AgreesOn (fun row => schema.hasField owner (schema.field selection.field) row = true)
      second := by
  generalize hfield : schema.field selection.field = field at hfirst hsecond
  have hsame (hscope : parentOf field (Compiler.rowOf ⟨schema, one, data?⟩ (schema.type owner) field)
      depth = parentOf field (Compiler.rowOf ⟨schema, other, data?⟩ (schema.type owner) field) depth) :
      first.AgreesOn (fun row => schema.hasField owner field row = true) second := by
    rw [hscope, hsecond] at hfirst
    cases hfirst
    exact .refl _
  cases hsees : seesRow field with
  | false => exact hsame (by rw [parentOf, parentOf, hsees]; rfl)
  | true =>
      cases hpartial : schema.isSubtype owner field.declaring with
      | true => exact hsame (by simp [rowOf, isPartial, hid, hpartial])
      | false =>
          have hrow {row : Value} (hhas : schema.hasField owner field row = true) :
              row.hasShape (schema.type field.declaring).shapes = true := by
            simpa [Schema.hasField, hpartial] using hhas
          -- what a tier that casts builds against what one that does not builds
          have hcast {bare cast : Plan}
              (hbare : field.buildPlan ⟨.row, none, data?⟩ selection.arguments = .ok bare)
              (hcast : field.buildPlan ⟨.cast .row (schema.type field.declaring).name
                (schema.type field.declaring).shapes, none, data?⟩ selection.arguments = .ok cast) :
              bare.AgreesOn (fun row => schema.hasField owner field row = true) cast := by
            cases hmember : field.isMember with
            | true =>
                obtain ⟨name, hresolver⟩ := Field.resolver_of_isMember hmember
                rw [Field.buildPlan, hresolver] at hbare hcast
                cases hbare
                cases hcast
                refine ⟨rfl, fun source vars row hhas a b ha hb => ?_⟩
                rw [evalIn_member_row (hrow hhas), ha] at hb
                exact Except.ok.inj hb
            | false =>
                have hunmodified : field.resolution = .unmodified := by
                  simpa [seesRow, hmember] using hsees
                subst hfield
                exact (hfree hunmodified hmember hpartial bare cast hbare hcast).mono fun row => hrow
          rw [parentOf, if_pos hsees, rowOf, isPartial, hid, hpartial] at hfirst hsecond
          cases hone : one.casts <;> cases hother : other.casts <;>
            simp only [hone, hother, Bool.not_false, Bool.true_and, Bool.false_eq_true, if_false,
              if_true] at hfirst hsecond
          · cases hfirst.symm.trans hsecond
            exact .refl _
          · exact hcast hfirst hsecond
          · exact (hcast hsecond hfirst).symm
          · cases hfirst.symm.trans hsecond
            exact .refl _

/-- What two tiers compose from plans that agree is the same for a leaf, and else is changed alike as far
as the records of its rows are. -/
theorem compose_shown {field : Field} {children : List BoundSelection} {depth : Nat}
    {holds : Value → Prop} {first second composed composed' : Plan}
    (hagree : first.AgreesOn holds second)
    (hcomposed : (Compiler.compose ⟨schema, one, data?⟩ field first children depth).outcome =
      .ok composed)
    (hcomposed' : (Compiler.compose ⟨schema, other, data?⟩ field second children depth).outcome =
      .ok composed')
    {source : Source} {vars : List (String × Value)} {row : Value} (hrow : holds row)
    {change : Members → Traced Members}
    (hrecords : ∀ record record',
      (Compiler.record ⟨schema, one, data?⟩ (schema.type field.target) children depth).outcome =
        .ok record →
      (Compiler.record ⟨schema, other, data?⟩ (schema.type field.target) children depth).outcome =
        .ok record' →
      ∀ row members members', record.evalIn source vars row = .ok (.object members) →
        record'.evalIn source vars row = .ok (.object members') → change members = change members')
    {a b : Value} (ha : composed.evalIn source vars row = .ok a)
    (hb : composed'.evalIn source vars row = .ok b) :
    ((schema.type field.target).isLeaf = true → a = b) ∧
      ((schema.type field.target).isLeaf = false → a.mapObjects change = b.mapObjects change) := by
  have hvalues {x y : Value} (hx : first.evalIn source vars row = .ok x)
      (hy : second.evalIn source vars row = .ok y) : x = y :=
    hagree.value source vars row hrow x y hx hy
  cases hleaf : (schema.type field.target).isLeaf with
  | true =>
      refine ⟨fun _ => ?_, fun h => (by cases h)⟩
      rw [compose_leaf hleaf] at hcomposed hcomposed'
      cases hcomposed
      cases hcomposed'
      rw [evalIn_materialize] at ha hb
      obtain ⟨x, hx, ha⟩ := Outcome.bind_ok_iff.mp ha
      obtain ⟨y, hy, hb⟩ := Outcome.bind_ok_iff.mp hb
      rw [← hvalues hx hy, ← hagree.sequence, ha] at hb
      exact Except.ok.inj hb
  | false =>
      refine ⟨fun h => (by cases h), fun _ => ?_⟩
      unfold compose at hcomposed hcomposed'
      dsimp only at hcomposed hcomposed'
      rw [hleaf, if_neg Bool.false_ne_true] at hcomposed hcomposed'
      obtain ⟨record, hrecord, hpure⟩ := Traced.bind_ok_iff.mp hcomposed
      obtain ⟨record', hrecord', hpure'⟩ := Traced.bind_ok_iff.mp hcomposed'
      cases hpure
      cases hpure'
      rw [evalIn_project] at ha hb
      obtain ⟨x, hx, ha⟩ := Outcome.bind_ok_iff.mp ha
      obtain ⟨y, hy, hb⟩ := Outcome.bind_ok_iff.mp hb
      rw [← hvalues hx hy, ← hagree.sequence] at hb
      refine @Field.arrange_related field _ _ _ (fun x y => x.mapObjects change = y.mapObjects change)
        ?_ rfl (fun _ _ => Value.mapObjects_array_congr) _ _ _ ha hb
      intro row item item' hitem hitem'
      obtain ⟨members, rfl⟩ := object_of_record hrecord hitem
      obtain ⟨members', rfl⟩ := object_of_record hrecord' hitem'
      rw [Value.mapObjects, Value.mapObjects, hrecords record record' hrecord hrecord' row members
        members' hitem hitem']

end Compiler

namespace RowContext

variable {context : RowContext} {owner : TypeId} {level : List BoundSelection}
  {key? : BoundSelection → Option String}

/-- What a record holds under some key. -/
theorem get?_entries_eq (hkeying : context.schema.Keying level key?) (key : String) :
    Members.get? key (.ofList (context.entries (context.schema.type owner) key? level)) =
      ((context.typenameEntries (context.schema.type owner) level).lookup key).or
        (((Keyed.firsts key? (fun _ => false) level).find? fun selection =>
          key == (key? selection).getD "").map
            (context.answered (context.schema.type owner))) := by
  rw [Members.get?_ofList (entries_nodup hkeying), entries, List.lookup_append, Members.lookup_map]

/-- A record that is there holds the answers of all that it binds. -/
theorem entries_of_record (hschema : context.schema.WellFormed)
    (howner : owner < context.schema.types.length)
    (hkeys : context.schema.recordKeys (context.schema.type owner) level = .ok (level.map key?))
    (hkeying : context.schema.Keying level key?) {members : Members}
    (h : context.record (context.schema.type owner) level = .ok (.object members)) :
    (∀ selection ∈ Keyed.firsts key? (fun _ => false) level, ∃ answer,
      context.answer (context.schema.type owner) selection = .ok answer) ∧
      Members.ofList (context.entries (context.schema.type owner) key? level) = members := by
  have hmem := Schema.type_mem howner
  have hanswers := answer_of_record hschema hmem hkeys hkeying h
  exact ⟨hanswers, Value.object.inj (Except.ok.inj
    ((record_ok hschema hmem hkeys hkeying hanswers).symm.trans h))⟩

theorem typename_of_entries (hkeying : context.schema.Keying level key?) {value : Value}
    (h : Members.get? typenameKey (.ofList (context.entries (context.schema.type owner) key? level)) =
      some value) : value = .string ((context.schema.type owner).rowTypeName context.row) := by
  rw [get?_entries_eq hkeying, typenameEntries] at h
  split at h
  · exact (Option.some.inj h).symm
  · obtain ⟨selection, hfind, _⟩ := Option.map_eq_some_iff.mp h
    have htest := List.find?_some hfind
    obtain ⟨_, key, hkey, hne⟩ := keyed_of_mem_firsts hkeying (List.mem_of_find?_eq_some hfind)
    rw [hkey, Option.getD_some] at htest
    exact absurd (beq_iff_eq.mp htest).symm hne

/-- A condition that holds by the record of a row holds for the row. -/
theorem admits_of_applies (hkeying : context.schema.Keying level key?) {condition? : Option TypeId}
    (h : context.renderer.applies (context.renderer.runtimeType?
      (.ofList (context.entries (context.schema.type owner) key? level))) condition? = true) :
    context.schema.admits owner context.row condition? = true := by
  cases condition? with
  | none => rfl
  | some condition =>
      rw [← applies_eq_admits]
      have hruntime : context.renderer.runtimeType?
          (.ofList (context.entries (context.schema.type owner) key? level)) =
            context.runtimeType? owner := by
        cases hget : Members.get? typenameKey
            (.ofList (context.entries (context.schema.type owner) key? level)) with
        | none =>
            rw [Renderer.runtimeType?, hget] at h
            cases h
        | some value =>
            rw [Renderer.runtimeType?, hget, typename_of_entries hkeying hget]
            rfl
      rw [← hruntime]
      exact h

/-- What a record that is there holds under some key. -/
theorem get?_of_record (hschema : context.schema.WellFormed)
    (howner : owner < context.schema.types.length)
    (hkeys : context.schema.recordKeys (context.schema.type owner) level = .ok (level.map key?))
    (hkeying : context.schema.Keying level key?) {members : Members}
    (h : context.record (context.schema.type owner) level = .ok (.object members)) (key : String) :
    Members.get? key members =
      ((context.typenameEntries (context.schema.type owner) level).lookup key).or
        (((Keyed.firsts key? (fun _ => false) level).find? fun selection =>
          key == (key? selection).getD "").map
            (context.answered (context.schema.type owner))) := by
  rw [← (entries_of_record hschema howner hkeys hkeying h).2, get?_entries_eq hkeying]

/-- Records of two tiers for one row differ in the answers of selections only: under each key they hold
the same, or answers of one selection. -/
theorem get?_of_tiers {schema : Schema} {data? : Option Value} {one other : Tier} {depth : Nat}
    {source : Source} {vars : List (String × Value)} {row : Value} (hschema : schema.WellFormed)
    (howner : owner < schema.types.length)
    (hkeys : schema.recordKeys (schema.type owner) level = .ok (level.map key?))
    (hkeying : schema.Keying level key?) {members members' : Members}
    (hrecord : RowContext.record ⟨⟨schema, one, data?⟩, depth, source, vars, row⟩ (schema.type owner)
      level = .ok (.object members))
    (hrecord' : RowContext.record ⟨⟨schema, other, data?⟩, depth, source, vars, row⟩ (schema.type owner)
      level = .ok (.object members')) (key : String) :
    Members.get? key members = Members.get? key members' ∨
      key ≠ typenameKey ∧ ∃ selection ∈ level, key? selection = some key ∧ ∃ a b,
        Members.get? key members = some a ∧ Members.get? key members' = some b ∧
        RowContext.answer ⟨⟨schema, one, data?⟩, depth, source, vars, row⟩ (schema.type owner)
          selection = .ok a ∧
        RowContext.answer ⟨⟨schema, other, data?⟩, depth, source, vars, row⟩ (schema.type owner)
          selection = .ok b := by
  have hget := get?_of_record hschema howner hkeys hkeying hrecord key
  have hget' := get?_of_record hschema howner hkeys hkeying hrecord' key
  have hanswers := (entries_of_record hschema howner hkeys hkeying hrecord).1
  have hanswers' := (entries_of_record hschema howner hkeys hkeying hrecord').1
  have hnames (one : Tier) : RowContext.typenameEntries
      ⟨⟨schema, one, data?⟩, depth, source, vars, row⟩ (schema.type owner) level =
        if level.any (Compiler.needsTypename schema) then
          [(typenameKey, .string ((schema.type owner).rowTypeName row))]
        else [] := rfl
  rw [hnames] at hget hget'
  cases hfind : (Keyed.firsts key? (fun _ => false) level).find? fun selection =>
      key == (key? selection).getD "" with
  | none =>
      rw [hfind, Option.map_none] at hget hget'
      exact Or.inl (hget.trans hget'.symm)
  | some selection =>
      have hfirst := List.mem_of_find?_eq_some hfind
      obtain ⟨hlevel, name, hselection, hne⟩ :=
        @keyed_of_mem_firsts ⟨⟨schema, one, data?⟩, depth, source, vars, row⟩ _ _ hkeying _ hfirst
      obtain ⟨a, ha⟩ := hanswers selection hfirst
      obtain ⟨b, hb⟩ := hanswers' selection hfirst
      have hkey : key = (key? selection).getD "" := by
        have htest := List.find?_some hfind
        exact beq_iff_eq.mp htest
      rw [hselection, Option.getD_some] at hkey
      subst hkey
      have hlookup : List.lookup key (if level.any (Compiler.needsTypename schema) then
          [(typenameKey, Value.string ((schema.type owner).rowTypeName row))] else []) = none := by
        split
        · rw [Keyed.lookup_entry, if_neg hne]
          rfl
        · rfl
      rw [hfind, Option.map_some, hlookup, Option.none_or, answered_eq ha] at hget
      rw [hfind, Option.map_some, hlookup, Option.none_or, answered_eq hb] at hget'
      exact Or.inr ⟨hne, selection, hlevel, hselection, a, b, hget, hget', ha, hb⟩

end RowContext

namespace Renderer

variable {renderer : Renderer} {type : SchemaType} {row row' : Members}

/-- Do two records show the same for a selection that has a place in them? -/
def ShownAlike (renderer : Renderer) (row row' : Members) (selection : BoundSelection) (key : String) :
    Prop :=
  Members.get? key row = Members.get? key row' ∨ ∃ a b, Members.get? key row = some a ∧
    Members.get? key row' = some b ∧ renderer.present selection a = renderer.present selection b

theorem renderEntry_congr {selection : BoundSelection} {key? : Option String}
    (hname : Members.get? typenameKey row = Members.get? typenameKey row')
    (hshown : renderer.applies (renderer.runtimeType? row) selection.condition? = true →
      ∀ key, key? = some key → renderer.ShownAlike row row' selection key) (out : Members) :
    renderer.renderEntry type row key? out selection =
      renderer.renderEntry type row' key? out selection := by
  have hruntime : renderer.runtimeType? row' = renderer.runtimeType? row := by
    rw [runtimeType?, runtimeType?, hname]
  rw [renderEntry_eq, renderEntry_eq, hruntime]
  split
  · rfl
  · split
    · rfl
    · next happlies =>
        rw [Bool.not_eq_true', Bool.not_eq_false] at happlies
        unfold entry
        rw [hname]
        split
        · rfl
        · split
          · rfl
          · cases key? with
            | none => rfl
            | some key =>
                simp only [Option.bind_some, pure_bind]
                rcases hshown happlies key rfl with hsame | ⟨a, b, ha, hb, hpresent⟩
                · rw [hsame]
                · rw [ha, hb]
                  dsimp only
                  rw [hpresent]

theorem renderRow_congr {level : List BoundSelection} {key? : BoundSelection → Option String}
    (hkeys : renderer.schema.recordKeys type level = .ok (level.map key?))
    (hname : Members.get? typenameKey row = Members.get? typenameKey row')
    (hshown : ∀ selection ∈ level,
      renderer.applies (renderer.runtimeType? row) selection.condition? = true →
        ∀ key, key? selection = some key → renderer.ShownAlike row row' selection key) :
    renderer.renderRow type level row = renderer.renderRow type level row' := by
  have hall : ∀ rest, rest ⊆ level → ∀ out,
      renderer.renderEntries type row (rest.map key?) out rest =
        renderer.renderEntries type row' (rest.map key?) out rest := by
    intro rest hrest
    induction rest with
    | nil => exact fun _ => rfl
    | cons selection rest ih =>
        obtain ⟨hmem, hrest⟩ := List.cons_subset.mp hrest
        intro out
        rw [List.map_cons, renderEntries, renderEntries,
          renderEntry_congr hname (hshown selection hmem)]
        exact congrArg (_ >>= ·) (funext (ih hrest))
  rw [renderRow, renderRow, hkeys, Traced.ofExcept_ok, pure_bind, pure_bind]
  exact hall level (List.Subset.refl _) []

end Renderer

/-- On a row that has the field, the answers of two tiers to one selection are presented alike as far as
the records of the rows in them are rendered alike. -/
theorem RowContext.present_of_tiers {schema : Schema} {data? : Option Value} {one other : Tier}
    {depth : Nat} {source : Source} {vars : List (String × Value)} {row : Value} {owner : TypeId}
    (hid : (schema.type owner).id = owner) {selection leader : BoundSelection}
    (hfield : selection.field = leader.field)
    (hhas : schema.hasField owner (schema.field leader.field) row = true)
    (hfree : schema.CastFree data? owner leader)
    (hrecords : ∀ record record',
      (Compiler.record ⟨schema, one, data?⟩ (schema.type (schema.field leader.field).target)
        leader.children (depth + 1)).outcome = .ok record →
      (Compiler.record ⟨schema, other, data?⟩ (schema.type (schema.field leader.field).target)
        leader.children (depth + 1)).outcome = .ok record' →
      ∀ vars row members members', record.evalIn source vars row = .ok (.object members) →
        record'.evalIn source vars row = .ok (.object members') →
        Renderer.renderRow ⟨schema, data?⟩ (schema.type (schema.field leader.field).target)
            selection.children members =
          Renderer.renderRow ⟨schema, data?⟩ (schema.type (schema.field leader.field).target)
            selection.children members')
    {a b : Value}
    (ha : RowContext.answer ⟨⟨schema, one, data?⟩, depth, source, vars, row⟩ (schema.type owner)
      leader = .ok a)
    (hb : RowContext.answer ⟨⟨schema, other, data?⟩, depth, source, vars, row⟩ (schema.type owner)
      leader = .ok b) :
    Renderer.present ⟨schema, data?⟩ selection a = Renderer.present ⟨schema, data?⟩ selection b := by
  obtain ⟨plan, composed, hplan, htypename, hcomposed, ha⟩ := answer_ok_of_has hid hhas ha
  obtain ⟨plan', composed', hplan', _, hcomposed', hb⟩ := answer_ok_of_has hid hhas hb
  have hagree := Compiler.plans_agree hid hfree hplan hplan'
  obtain ⟨hleaf, hcomposite⟩ := Compiler.compose_shown hagree hcomposed hcomposed' hhas
    (fun record record' hrecord hrecord' row => hrecords record record' hrecord hrecord' _ row) ha hb
  unfold Renderer.present
  dsimp only
  rw [hfield]
  cases htarget : (schema.type (schema.field leader.field).target).isLeaf with
  | true => rw [hleaf htarget]
  | false =>
      rw [htypename, Bool.or_false, if_neg Bool.false_ne_true, if_neg Bool.false_ne_true]
      exact hcomposite htarget

open RowContext in
/-- Records of two tiers for one row are rendered alike, also for another level than theirs, as it is
where a selection is shown with the answer of one that has other children. -/
theorem Renderer.renderRow_of_tiers {schema : Schema} (hschema : schema.WellFormed)
    (hhierarchy : schema.Hierarchical) {data? : Option Value} {one other : Tier}
    (level : List BoundSelection) :
    ∀ {owner : TypeId} {bound : List BoundSelection} {depth : Nat} {source : Source}
      {vars : List (String × Value)} {row : Value} {record record' : Plan} {members members' : Members},
      owner < schema.types.length → schema.Bound owner level → schema.Bound owner bound →
      schema.Throughout (schema.Untouched data?) owner level →
      schema.Throughout (schema.Untouched data?) owner bound →
      (Compiler.record ⟨schema, one, data?⟩ (schema.type owner) bound depth).outcome = .ok record →
      (Compiler.record ⟨schema, other, data?⟩ (schema.type owner) bound depth).outcome = .ok record' →
      record.evalIn source vars row = .ok (.object members) →
      record'.evalIn source vars row = .ok (.object members') →
      Renderer.renderRow ⟨schema, data?⟩ (schema.type owner) level members =
        Renderer.renderRow ⟨schema, data?⟩ (schema.type owner) level members' := by
  induction level using BoundSelection.level_induction with
  | step level below =>
      intro owner bound depth source vars row record record' members members' howner hlevel hbound
        huntouched huntouched' hrecord hrecord' hmembers hmembers'
      obtain ⟨key?, hkeys, hkeying⟩ := Schema.recordKeys_ok hschema hlevel.carries
      obtain ⟨bound?, hbound?, hbounds⟩ := Schema.recordKeys_ok hschema hbound.carries
      have hvalue : RowContext.record ⟨⟨schema, one, data?⟩, depth, source, vars, row⟩
          (schema.type owner) bound = .ok (.object members) := by
        rw [RowContext.record, hrecord]
        exact Outcome.mapError_ok_iff.mpr hmembers
      have hvalue' : RowContext.record ⟨⟨schema, other, data?⟩, depth, source, vars, row⟩
          (schema.type owner) bound = .ok (.object members') := by
        rw [RowContext.record, hrecord']
        exact Outcome.mapError_ok_iff.mpr hmembers'
      have hget := get?_of_tiers hschema howner hbound? hbounds hvalue hvalue'
      refine renderRow_congr hkeys ((hget typenameKey).resolve_right fun h => h.1 rfl) ?_
      intro selection hmem happlies key hkey
      refine (hget key).imp_right ?_
      rintro ⟨_, leader, hleader, hkey', a, b, ha, hb, hanswer, hanswer'⟩
      refine ⟨a, b, ha, hb, ?_⟩
      have hfield : selection.field = leader.field :=
        Schema.field_of_recordKey hschema hlevel.carries hbound.carries hkeys hbound? hmem hleader hkey
          hkey'
      have hadmits : schema.admits owner row selection.condition? = true := by
        rw [← (entries_of_record hschema howner hbound? hbounds hvalue).2] at happlies
        exact admits_of_applies hbounds happlies
      have hhas : schema.hasField owner (schema.field selection.field) row = true :=
        Schema.hasField_of_admits hschema hhierarchy howner (huntouched.here selection hmem).declared
          (hhierarchy.declaring_lt _ (hlevel.field_mem hschema hmem)) hadmits
      have hchildren := hlevel.children selection hmem
      have hbelow := huntouched.children hmem
      rw [hfield] at hhas hchildren hbelow
      refine present_of_tiers (hschema.id_of_lt howner) hfield hhas
        (huntouched'.here leader hleader).castFree ?_ hanswer hanswer'
      intro inner inner' hinner hinner' vars row members members' hrow hrow'
      exact below selection hmem (hbound.owner_lt hschema howner (.child .refl hleader)) hchildren
        (hbound.children leader hleader) hbelow (huntouched'.children hleader) hinner hinner' hrow hrow'

end GraphQuery
