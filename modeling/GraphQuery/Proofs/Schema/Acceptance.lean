import GraphQuery.Proofs.Schema.Declaration
import GraphQuery.Proofs.Schema.Parent

/-! What accepted declarations leave in a draft. Each changes little: it adds a type or a field, or it
replaces a type by one of the same name. A draft therefore stays open, keeps reserved names free and holds
exactly the conformances and members that have been declared. -/

namespace GraphQuery

namespace Draft

/-- What a draft holds of the declarations that it has accepted. -/
structure Recorded (declarations : List Declaration) (draft : Draft) : Prop where
  still_open : draft.completed = false
  shape_declared : ∀ entry ∈ draft.byShape, Text.isReserved entry.1 = true →
    ∃ shape, Declaration.type shape ∈ declarations ∧ shape.name = entry.1
  typeName_free : ∀ name ∈ draft.typeNames, Text.isReserved name = false
  fieldName_free : ∀ field ∈ draft.fields, Text.isReserved field.name = false
  interface_iff : ∀ interface id, interface ∈ (draft.type id).interfaces ↔
    Declaration.conformance interface id ∈ declarations
  member_iff : ∀ union id, id ∈ (draft.type union).members ↔
    Declaration.unionMember union id ∈ declarations
  member_lt : ∀ type ∈ draft.types, ∀ member ∈ type.members, member < draft.types.length
  string_type : "String" ∈ draft.typeNames
  string_rule : draft.rules.contains "String" = true
  query_composite : ∃ type, draft.types[draft.query]? = some type ∧ type.kind.isLeaf = false

theorem type_eq {draft : Draft} {id : TypeId} {type : DraftType} (h : draft.types[id]? = some type) :
    draft.type id = type := by
  rw [Draft.type, List.getD_eq_getElem?_getD, h]
  rfl

theorem type_setType {draft : Draft} {id : TypeId} {type : DraftType} (h : id < draft.types.length)
    (other : TypeId) : (draft.setType id type).type other = if other = id then type else draft.type other := by
  rw [Draft.type, setType, List.getD_eq_getElem?_getD, List.getElem?_set]
  by_cases heq : id = other
  · subst heq
    rw [if_pos rfl, if_pos h, if_pos rfl]
    rfl
  · rw [if_neg heq, if_neg (Ne.symm heq), ← List.getD_eq_getElem?_getD]
    rfl

/-- A type that is added has no relations, like one that is not there. -/
theorem type_pushType {draft : Draft} {shape : Shape} (id : TypeId) :
    ((draft.pushType shape).type id).interfaces = (draft.type id).interfaces ∧
      ((draft.pushType shape).type id).members = (draft.type id).members := by
  rcases Nat.lt_trichotomy id draft.types.length with hlt | rfl | hgt
  · have hkept : (draft.pushType shape).type id = draft.type id := by
      rw [Draft.type, pushType, List.getD_append _ _ _ _ hlt]
      rfl
    rw [hkept]
    exact ⟨rfl, rfl⟩
  · have hadded : (draft.pushType shape).type draft.types.length = ⟨shape, none, [], [], []⟩ := by
      rw [Draft.type, pushType, List.getD_append_right _ _ _ _ (Nat.le_refl _), Nat.sub_self]
      rfl
    rw [hadded, type_of_le (Nat.le_refl _)]
    exact ⟨rfl, rfl⟩
  · rw [type_of_le (Nat.le_of_lt hgt), type_of_le (by rw [pushType, List.length_append]; exact hgt)]
    exact ⟨rfl, rfl⟩

namespace Recorded

variable {declarations : List Declaration} {draft : Draft} {added : Declaration}

theorem pushType (h : draft.Recorded declarations) {shape : Shape}
    (hname : Text.isReserved shape.typeName = false)
    (hshape : Text.isReserved shape.name = true → added = .type shape)
    (hconformance : ∀ interface id, added ≠ .conformance interface id)
    (hmember : ∀ union id, added ≠ .unionMember union id) :
    (draft.pushType shape).Recorded (declarations ++ [added]) where
  still_open := h.still_open
  shape_declared entry hmem hreserved := by
    rcases List.mem_append.mp hmem with hmem | hmem
    · obtain ⟨declared, hdeclared, hsame⟩ := h.shape_declared entry hmem hreserved
      exact ⟨declared, List.mem_append_left _ hdeclared, hsame⟩
    · cases List.mem_singleton.mp hmem
      refine ⟨shape, ?_, rfl⟩
      rw [hshape hreserved]
      exact List.mem_append_right _ List.mem_cons_self
  typeName_free name hmem := by
    rw [typeNames_pushType] at hmem
    rcases List.mem_append.mp hmem with hmem | hmem
    · exact h.typeName_free name hmem
    · rw [List.mem_singleton.mp hmem]
      exact hname
  fieldName_free := h.fieldName_free
  interface_iff interface id := by
    rw [(type_pushType id).1, h.interface_iff, List.mem_append, List.mem_singleton, or_iff_left]
    exact fun heq => hconformance interface id heq.symm
  member_iff union id := by
    rw [(type_pushType union).2, h.member_iff, List.mem_append, List.mem_singleton, or_iff_left]
    exact fun heq => hmember union id heq.symm
  member_lt type hmem member hmember := by
    rw [Draft.pushType, List.length_append]
    rcases List.mem_append.mp hmem with hmem | hmem
    · exact Nat.lt_succ_of_lt (h.member_lt type hmem member hmember)
    · rw [List.mem_singleton.mp hmem] at hmember
      cases hmember
  string_type := by
    rw [typeNames_pushType]
    exact List.mem_append_left _ h.string_type
  string_rule := h.string_rule
  query_composite := by
    obtain ⟨type, htype, hkind⟩ := h.query_composite
    refine ⟨type, ?_, hkind⟩
    rw [Draft.pushType, List.getElem?_append_left (List.getElem?_eq_some_iff.mp htype).1]
    exact htype

/-- Replacing a type by one of the same shape that has just the relations added that are declared. -/
theorem setType (h : draft.Recorded declarations) {id : TypeId} {old type : DraftType}
    (hold : draft.types[id]? = some old) (hshape : type.shape = old.shape)
    (hinterface : ∀ interface other, added = .conformance interface other → other = id)
    (hinterfaces : ∀ interface, interface ∈ type.interfaces ↔
      interface ∈ old.interfaces ∨ added = .conformance interface id)
    (hmember : ∀ union member, added = .unionMember union member →
      union = id ∧ member < draft.types.length)
    (hmembers : ∀ member, member ∈ type.members ↔ member ∈ old.members ∨ added = .unionMember id member) :
    (draft.setType id type).Recorded (declarations ++ [added]) where
  still_open := h.still_open
  shape_declared entry hmem hreserved := by
    obtain ⟨declared, hdeclared, hsame⟩ := h.shape_declared entry hmem hreserved
    exact ⟨declared, List.mem_append_left _ hdeclared, hsame⟩
  typeName_free := by
    rw [typeNames_setType hold (congrArg Shape.typeName hshape)]
    exact h.typeName_free
  fieldName_free := h.fieldName_free
  interface_iff interface other := by
    rw [type_setType (List.getElem?_eq_some_iff.mp hold).1, List.mem_append, List.mem_singleton,
      ← h.interface_iff]
    split
    · next heq =>
        rw [heq, hinterfaces, type_eq hold, eq_comm (a := added)]
    · next hne => exact (or_iff_left fun heq => hne (hinterface _ _ heq.symm)).symm
  member_iff union member := by
    rw [type_setType (List.getElem?_eq_some_iff.mp hold).1, List.mem_append, List.mem_singleton,
      ← h.member_iff]
    split
    · next heq =>
        rw [heq, hmembers, type_eq hold, eq_comm (a := added)]
    · next hne => exact (or_iff_left fun heq => hne (hmember _ _ heq.symm).1).symm
  member_lt other hmem member hin := by
    rw [Draft.setType, List.length_set]
    rcases List.mem_or_eq_of_mem_set hmem with hmem | rfl
    · exact h.member_lt other hmem member hin
    · rcases (hmembers member).mp hin with hin | hadded
      · exact h.member_lt old (List.mem_of_getElem? hold) member hin
      · exact (hmember _ _ hadded).2
  string_type := by
    rw [typeNames_setType hold (congrArg Shape.typeName hshape)]
    exact h.string_type
  string_rule := h.string_rule
  query_composite := by
    obtain ⟨root, hroot, hkind⟩ := h.query_composite
    by_cases heq : id = draft.query
    · subst heq
      cases hold.symm.trans hroot
      refine ⟨type, List.getElem?_set_self (List.getElem?_eq_some_iff.mp hold).1, ?_⟩
      rw [DraftType.kind, hshape]
      exact hkind
    · exact ⟨root, (List.getElem?_set_ne heq).trans hroot, hkind⟩

theorem pushField (h : draft.Recorded declarations) {field : DraftField}
    (hname : Text.isReserved field.name = false) :
    { draft with fields := draft.fields ++ [field] }.Recorded declarations :=
  { h with
    fieldName_free := by
      intro other hmem
      rcases List.mem_append.mp hmem with hmem | hmem
      · exact h.fieldName_free other hmem
      · rw [List.mem_singleton.mp hmem]
        exact hname }

theorem register (h : draft.Recorded declarations) (name : String) (rule : Rule) :
    { draft with rules := { draft.rules with rules := (name, rule) :: draft.rules.rules } }.Recorded
      declarations :=
  { h with
    string_rule := by
      have hknown := h.string_rule
      simp only [RuleRegistry.contains, RuleRegistry.find?, Keyed.lookup_entry] at hknown ⊢
      split
      · rfl
      · exact hknown }

theorem change {grown : Draft} (h : draft.Recorded declarations) (hchange : added.Change draft grown) :
    grown.Recorded (declarations ++ [added]) := by
  cases hchange with
  | type hname hshape =>
      obtain ⟨_, _, _, _, _, rfl⟩ := declareShape_ok hshape
      exact h.pushType hname (fun _ => rfl) nofun nofun
  | @leaf _ kind name rule _ _ hleaf hname hshape =>
      obtain ⟨_, _, _, _, _, rfl⟩ := declareShape_ok hshape
      have hfree : Text.isReserved (Shape.ofKind kind name).typeName = false := hname
      refine (h.pushType hfree ?_ ?_ ?_).register name rule
      · exact fun hreserved => absurd (hname.symm.trans hreserved) Bool.false_ne_true
      · rintro _ _ rfl
        cases hleaf
      · rintro _ _ rfl
        cases hleaf
  | @field _ owner spec _ _ hfield hname hok =>
      obtain ⟨type, parameters, target, _, htype, _, _, _, _, _, rfl⟩ := insertField_ok hok
      have hconformance (interface id : TypeId) : added ≠ .conformance interface id := by
        rintro rfl
        cases hfield
      have hmember (union id : TypeId) : added ≠ .unionMember union id := by
        rintro rfl
        cases hfield
      have hfree : Text.isReserved (fieldOf owner spec parameters target).name = false := hname
      have howner : (draft.setType owner { type with fields := type.fields ++ [draft.fields.length] }).Recorded
          (declarations ++ [added]) := by
        refine h.setType htype rfl ?_ ?_ ?_ ?_
        · exact fun _ _ heq => absurd heq (hconformance _ _)
        · exact fun interface => (or_iff_left (hconformance interface owner)).symm
        · exact fun _ _ heq => absurd heq (hmember _ _)
        · exact fun member => (or_iff_left (hmember owner member)).symm
      exact howner.pushField hfree
  | @description _ _ _ htype =>
      refine h.setType htype rfl nofun (fun _ => ?_) nofun fun _ => ?_ <;> simp
  | @conformance interface implementer type htype =>
      refine h.setType htype rfl ?_ (fun other => ?_) nofun fun _ => by simp
      · rintro _ _ ⟨⟩
        rfl
      · rw [Hierarchy.mem_addNew, Declaration.conformance.injEq, and_iff_left rfl, eq_comm (a := interface)]
  | @unionMember union member type htype hlt =>
      refine h.setType htype rfl nofun (fun _ => by simp) ?_ fun other => ?_
      · rintro _ _ ⟨⟩
        exact ⟨rfl, hlt⟩
      · rw [Hierarchy.mem_addNew, Declaration.unionMember.injEq, and_iff_right rfl, eq_comm (a := member)]

end Recorded

theorem recorded_start : start.Recorded [] := by
  have hbare : ∀ type ∈ start.types, type.interfaces = [] ∧ type.members = [] := by decide
  have htype (id : TypeId) : (start.type id).interfaces = [] ∧ (start.type id).members = [] := by
    by_cases hid : id < start.types.length
    · exact hbare _ (type_mem hid)
    · rw [type_of_le (Nat.le_of_not_lt hid)]
      exact ⟨rfl, rfl⟩
  constructor
  · rfl
  · have hnames : ∀ entry ∈ start.byShape, Text.isReserved entry.1 = false := by decide
    intro entry hmem hreserved
    exact absurd ((hnames entry hmem).symm.trans hreserved) Bool.false_ne_true
  · decide
  · exact fun _ hmem => absurd hmem List.not_mem_nil
  · intro interface id
    rw [(htype id).1]
    exact iff_of_false List.not_mem_nil List.not_mem_nil
  · intro union id
    rw [(htype union).2]
    exact iff_of_false List.not_mem_nil List.not_mem_nil
  · intro type hmem member hin
    rw [(hbare type hmem).2] at hin
    cases hin
  · decide
  · decide
  · exact ⟨_, rfl, rfl⟩

/-- A draft holds what has been declared, in whatever order. -/
theorem recorded_declareAll {declarations : List Declaration} {draft : Draft}
    (h : start.declareAll declarations = .ok draft) : draft.Recorded declarations :=
  Outcome.foldlM_records (fun before state => state.Recorded before)
    (fun _ _ _ _ hbefore hnext => hbefore.change (Declaration.change_of_ok hnext).2) recorded_start h

end Draft

end GraphQuery
