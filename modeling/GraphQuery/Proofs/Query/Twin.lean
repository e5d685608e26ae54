import GraphQuery.Proofs.Query.Casting
import GraphQuery.Proofs.Query.OwnMember

/-! Members of one target and cardinality on a row. What they answer depends on what they read from the row
and on nothing else, so that a member shows the same as one of a fragment that reads the same; where a row
does not have the field, it is null. -/

namespace GraphQuery

open BoundSelection (leader)

namespace RowContext

variable {context : RowContext} {owner : TypeId}

section

variable (hschema : context.schema.WellFormed) (howner : owner < context.schema.types.length)
  (hcasts : context.compiler.tier.casts = true)

include hschema howner hcasts

/-- The answer of a member is made of what it reads from the row, whatever the tier. -/
theorem answer_eq_of_member {selection : BoundSelection} {field : Field}
    (hfield : context.schema.field selection.field = field) {name : String}
    (hresolver : field.resolver = .member name) :
    context.answer (context.schema.type owner) selection =
      if (context.schema.type field.target).isLeaf then .ok (context.schema.readMember owner field name context.row)
      else (do
        let record ← (context.compiler.record (context.schema.type field.target) selection.children
          (context.depth + 1)).outcome
        (field.arrange false (fun item => record.evalIn context.source context.vars item)
          (context.schema.readMember owner field name context.row)).mapError .backend) := by
  have hplan := @evalIn_memberPlan context owner hschema howner hcasts field name
  cases hleaf : (context.schema.type field.target).isLeaf with
  | true =>
      have hcomposed : (context.compiler.compose field (context.memberPlan owner field name)
          selection.children (context.depth + 1)).outcome = .ok (context.memberPlan owner field name) :=
        congrArg Traced.outcome (Compiler.compose_leaf hleaf)
      exact answer_member hschema howner hfield hresolver hcomposed hplan id
  | false =>
      rw [if_neg Bool.false_ne_true]
      cases hrecord : (context.compiler.record (context.schema.type field.target) selection.children
          (context.depth + 1)).outcome with
      | error error =>
          rw [answer, binding_of_member hfield hresolver, Compiler.compose, hleaf, if_neg Bool.false_ne_true,
            Traced.outcome_bind, hrecord]
          rfl
      | ok record =>
          have hcomposed := Compiler.compose_composite hleaf hrecord (context.memberPlan owner field name)
          rw [answer, binding_member hfield hresolver hcomposed]
          change ((context.compiler.guardPartial _ field _).evalIn _ _ _).mapError _ =
            (field.arrange false _ _).mapError _
          rw [Compiler.evalIn_guardPartial_of_null, Compiler.evalIn_project, hplan]
          · rfl
          · intro hlacks
            exact Compiler.evalIn_compose_null hcomposed (Compiler.evalIn_member_of_cast hcasts hlacks name)

end

section

variable (hschema : context.schema.WellFormed) (howner : owner < context.schema.types.length)

include hschema howner

/-- The object of a row for a single member shows its answer, if its condition holds for the row. -/
theorem rendered_single_iff {selection : BoundSelection} (hcarries : context.schema.Carries owner selection)
    (hmember : (context.schema.field selection.field).isMember = true) {out : Members} :
    context.rendered owner [selection] = .ok out ↔
      ∃ answer, context.answer (context.schema.type owner) selection = .ok answer ∧
        if context.schema.admits owner context.row selection.condition? then
          ∃ value, (context.renderer.present selection answer).outcome = .ok value ∧
            out = [(selection.outputName, value)]
        else out = [] := by
  obtain ⟨name, hresolver⟩ := Field.resolver_of_isMember hmember
  have hkeyed : context.schema.keyed selection = true := by
    rw [Schema.keyed, Field.isTypename, Field.isPost, hresolver]
    rfl
  have hleader : leader [selection] selection = selection := by
    rw [leader, List.find?_cons, BoundSelection.alike_self]
    rfl
  have hlevel : ∀ other ∈ [selection], context.schema.Carries owner other :=
    List.forall_mem_singleton.mpr hcarries
  have hvalue : context.value owner selection selection =
      (context.answer (context.schema.type owner) selection) >>= fun raw =>
        (context.renderer.present selection raw).outcome := by
    rw [value, raw_member rfl hresolver]
  rw [rendered_ok_iff hschema howner hlevel, record_isOk_iff hschema howner hlevel, List.forall_mem_singleton,
    hleader, imp_iff_right hkeyed, winners]
  cases hadmits : context.schema.admits owner context.row selection.condition? with
  | false =>
      have hkey := Renderer.responseKey?_of_fails ((applies_eq_admits selection.condition?).trans hadmits)
      rw [Keyed.firsts_cons_none hkey]
      simp only [if_neg Bool.false_ne_true]
      constructor
      · rintro ⟨⟨answer, hanswer⟩, _, rfl, hpure⟩
        cases hpure
        exact ⟨answer, hanswer, rfl⟩
      · rintro ⟨answer, hanswer, rfl⟩
        exact ⟨⟨answer, hanswer⟩, [], rfl, rfl⟩
  | true =>
      have hkey := Renderer.responseKey?_of_applies ((applies_eq_admits selection.condition?).trans hadmits)
      rw [Keyed.firsts_cons_new hkey rfl]
      simp only [Keyed.firsts, List.mapM_cons, List.mapM_nil, hleader, hvalue, if_true]
      constructor
      · rintro ⟨⟨answer, hanswer⟩, shown, rfl, hshown⟩
        rw [hanswer] at hshown
        obtain ⟨entry, hentry, hpure⟩ := Outcome.bind_ok_iff.mp hshown
        obtain ⟨value, hvalue, rfl⟩ := Outcome.map_ok_iff.mp hentry
        cases hpure
        exact ⟨answer, hanswer, value, hvalue, rfl⟩
      · rintro ⟨answer, hanswer, value, hvalue, rfl⟩
        refine ⟨⟨answer, hanswer⟩, [(selection.outputName, value)], rfl, ?_⟩
        rw [hanswer]
        change (context.renderer.present selection answer).outcome.map _ >>= _ = _
        rw [hvalue]
        rfl

end

end RowContext

/-- Two selections of members that yield the same, with one response key and the same children. -/
structure Schema.Twins (schema : Schema) (a b : BoundSelection) : Prop where
  outputName : a.outputName = b.outputName
  children : a.children = b.children
  isMember : (schema.field a.field).isMember = true
  isMember' : (schema.field b.field).isMember = true
  target : (schema.field a.field).target = (schema.field b.field).target
  isList : (schema.field a.field).isList = (schema.field b.field).isList

namespace RowContext

variable {context : RowContext} {owner : TypeId}

section

variable (hschema : context.schema.WellFormed) (howner : owner < context.schema.types.length)
  (hcasts : context.compiler.tier.casts = true) {a b : BoundSelection} (htwins : context.schema.Twins a b)

include htwins

theorem present_twin (raw : Value) : context.renderer.present a raw = context.renderer.present b raw := by
  obtain ⟨_, hresolver⟩ := Field.resolver_of_isMember htwins.isMember
  obtain ⟨_, hresolver'⟩ := Field.resolver_of_isMember htwins.isMember'
  rw [present_eq rfl, present_eq rfl, Field.isTypename, Field.isTypename, hresolver, hresolver', htwins.target,
    htwins.children]

include hschema howner hcasts

/-- Twins that read the same from a row have the same answer. -/
theorem answer_twin {name name' : String} (hresolver : (context.schema.field a.field).resolver = .member name)
    (hresolver' : (context.schema.field b.field).resolver = .member name')
    (hread : context.schema.readMember owner (context.schema.field a.field) name context.row =
      context.schema.readMember owner (context.schema.field b.field) name' context.row) :
    context.answer (context.schema.type owner) a = context.answer (context.schema.type owner) b := by
  have harrange (record : Value → Except StoreError Value) :
      (context.schema.field a.field).arrange false record = (context.schema.field b.field).arrange false record := by
    funext value
    rw [Field.arrange, Field.arrange, htwins.isList]
    rfl
  rw [answer_eq_of_member hschema howner hcasts rfl hresolver, answer_eq_of_member hschema howner hcasts rfl hresolver',
    hread, htwins.target, htwins.children]
  simp only [harrange]

/-- Where one of two twins reads nothing from a row, it is null if the other one has an answer at all. -/
theorem answer_null {name : String} (hresolver : (context.schema.field a.field).resolver = .member name)
    (hread : context.schema.readMember owner (context.schema.field a.field) name context.row = .null) :
    (∀ answer, context.answer (context.schema.type owner) a = .ok answer → answer = .null) ∧
      ((∃ answer, context.answer (context.schema.type owner) b = .ok answer) →
        context.answer (context.schema.type owner) a = .ok .null) := by
  obtain ⟨_, hresolver'⟩ := Field.resolver_of_isMember htwins.isMember'
  rw [answer_eq_of_member hschema howner hcasts rfl hresolver, answer_eq_of_member hschema howner hcasts rfl hresolver',
    hread, htwins.target, htwins.children]
  cases (context.schema.type (context.schema.field b.field).target).isLeaf with
  | true => exact ⟨fun _ hanswer => (Except.ok.inj hanswer).symm, fun _ => rfl⟩
  | false =>
      simp only [Field.arrange_null]
      cases (context.compiler.record _ b.children (context.depth + 1)).outcome with
      | error error => exact ⟨fun _ hanswer => (by cases hanswer), fun ⟨_, hanswer⟩ => (by cases hanswer)⟩
      | ok record => exact ⟨fun _ hanswer => (Except.ok.inj hanswer).symm, fun _ => rfl⟩

end

end RowContext

/-- A selection on a type, and the same inside a fragment on a concrete subtype, which declares the field. -/
structure Schema.Fragmented (schema : Schema) (owner actual : TypeId) (direct fragment : BoundSelection) : Prop
    extends schema.Twins direct fragment where
  descendant : actual ∈ (schema.type owner).descendants
  carries : schema.Carries owner direct
  carries' : schema.Carries owner fragment
  bare : direct.condition? = none
  condition : fragment.condition? = some actual
  declaring_lt : (schema.field direct.field).declaring < schema.types.length
  declaring : (schema.field fragment.field).declaring = actual

namespace RowContext

variable {context : RowContext} {owner actual : TypeId}

section

variable (hcompleted : context.schema.Completed) (howner : owner < context.schema.types.length)
  {direct fragment : BoundSelection} (h : context.schema.Fragmented owner actual direct fragment)
  (hshape : context.row.shape? = some (context.schema.type actual).shape.name)

include hcompleted howner h hshape

/-- A row of a concrete subtype has a field if and only if that declares it or inherits it. -/
theorem hasField_iff {field : Field} (hlt : field.declaring < context.schema.types.length) :
    context.schema.hasField owner field context.row = true ↔
      context.schema.isSubtype actual field.declaring = true := by
  obtain ⟨hactual, _, hbelow⟩ := Schema.of_descendant hcompleted howner h.descendant
  rw [Schema.hasField, Bool.or_eq_true, Schema.hasShape_iff hcompleted hactual hlt hshape]
  exact or_iff_right_of_imp (hcompleted.hierarchical.trans hbelow)

/-- The fragment applies to the row. -/
theorem admits_actual : context.schema.admits owner context.row fragment.condition? = true := by
  obtain ⟨hactual, _, _⟩ := Schema.of_descendant hcompleted howner h.descendant
  have hschema := hcompleted.wellFormed
  unfold Schema.admits
  rw [h.condition, Schema.rowTypeName_of_shape hcompleted howner h.descendant hshape,
    hschema.typeNamed (Schema.type_mem hactual)]
  dsimp only
  rw [hschema.id_of_lt hactual, Schema.isSubtype, beq_self_eq_true, Bool.true_or]

/-- What the fragment shows of the row is one member of an object. -/
theorem rendered_actual {out : Members} (hout : context.rendered owner [fragment] = .ok out) :
    ∃ value, out = [(fragment.outputName, value)] := by
  rw [rendered_single_iff hcompleted.wellFormed howner h.carries' h.isMember',
    admits_actual hcompleted howner h hshape] at hout
  obtain ⟨_, _, value, _, rfl⟩ := hout
  exact ⟨value, rfl⟩

variable (hcasts : context.compiler.tier.casts = true)

include hcasts

/-- On a row that has the field which is selected directly, the fragment shows the same if it reads the same
member. -/
theorem rendered_of_native
    (hnative : context.schema.isSubtype actual (context.schema.field direct.field).declaring = true) {name : String}
    (hresolver : (context.schema.field direct.field).resolver = .member name)
    (hresolver' : (context.schema.field fragment.field).resolver = .member name) (out : Members) :
    context.rendered owner [direct] = .ok out ↔ context.rendered owner [fragment] = .ok out := by
  have hschema := hcompleted.wellFormed
  obtain ⟨hactual, _, _⟩ := Schema.of_descendant hcompleted howner h.descendant
  have hself : context.schema.isSubtype actual (context.schema.field fragment.field).declaring = true := by
    rw [h.declaring, Schema.isSubtype, beq_self_eq_true, Bool.true_or]
  have hread : context.schema.readMember owner (context.schema.field direct.field) name context.row =
      context.schema.readMember owner (context.schema.field fragment.field) name context.row := by
    rw [Schema.readMember, Schema.readMember,
      if_pos ((hasField_iff hcompleted howner h hshape h.declaring_lt).mpr hnative),
      if_pos ((hasField_iff hcompleted howner h hshape (h.declaring.symm ▸ hactual)).mpr hself)]
  rw [rendered_single_iff hschema howner h.carries h.isMember,
    rendered_single_iff hschema howner h.carries' h.isMember', admits_actual hcompleted howner h hshape, h.bare,
    answer_twin hschema howner hcasts h.toTwins hresolver hresolver' hread, h.outputName]
  simp only [present_twin h.toTwins]
  rfl

/-- On a row that does not have the field which is selected directly, this shows null. -/
theorem rendered_of_foreign
    (hforeign : context.schema.isSubtype actual (context.schema.field direct.field).declaring = false) :
    (∀ out, context.rendered owner [direct] = .ok out → out = [(direct.outputName, .null)]) ∧
      ((∃ out, context.rendered owner [fragment] = .ok out) →
        context.rendered owner [direct] = .ok [(direct.outputName, .null)]) := by
  have hschema := hcompleted.wellFormed
  obtain ⟨name, hresolver⟩ := Field.resolver_of_isMember h.isMember
  have hlacks : context.schema.hasField owner (context.schema.field direct.field) context.row = false := by
    rw [← Bool.not_eq_true, hasField_iff hcompleted howner h hshape h.declaring_lt, hforeign]
    exact Bool.false_ne_true
  have hread : context.schema.readMember owner (context.schema.field direct.field) name context.row = .null := by
    rw [Schema.readMember, hlacks]
    rfl
  obtain ⟨hnull, hanswer⟩ := answer_null hschema howner hcasts h.toTwins hresolver hread
  have hpresent : (context.renderer.present direct .null).outcome = .ok .null := by
    rw [Renderer.present]
    split <;> rfl
  constructor
  · intro out hout
    rw [rendered_single_iff hschema howner h.carries h.isMember, h.bare] at hout
    obtain ⟨answer, hdirect, value, hvalue, rfl⟩ := hout
    cases hnull answer hdirect
    cases hpresent.symm.trans hvalue
    rfl
  · rintro ⟨out, hout⟩
    obtain ⟨answer, hfragment, _⟩ := (rendered_single_iff hschema howner h.carries' h.isMember').mp hout
    rw [rendered_single_iff hschema howner h.carries h.isMember, h.bare]
    exact ⟨.null, hanswer ⟨answer, hfragment⟩, .null, hpresent, rfl⟩

end

end RowContext

end GraphQuery
