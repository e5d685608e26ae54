import GraphQuery.Proofs.Query.OwnMember

/-! Arenas. Types and fields refer to each other by their places. Every declaration keeps the places that it
writes down inside the draft, and all that completion works out of them stays inside the schema: whatever a
completed type or field refers to is there. -/

namespace GraphQuery

/-! ### Drafts -/

/-- The places that a declared type refers to lie among some types and fields, and it lists each of its
fields once. -/
structure DraftType.Within (types fields : Nat) (type : DraftType) : Prop where
  interface_lt : ∀ id ∈ type.interfaces, id < types
  member_lt : ∀ id ∈ type.members, id < types
  own_lt : ∀ id ∈ type.fields, id < fields
  own_nodup : type.fields.Nodup

theorem DraftType.Within.mono {types fields moreTypes moreFields : Nat} {type : DraftType}
    (h : type.Within types fields) (htypes : types ≤ moreTypes) (hfields : fields ≤ moreFields) :
    type.Within moreTypes moreFields where
  interface_lt id hmem := Nat.lt_of_lt_of_le (h.interface_lt id hmem) htypes
  member_lt id hmem := Nat.lt_of_lt_of_le (h.member_lt id hmem) htypes
  own_lt id hmem := Nat.lt_of_lt_of_le (h.own_lt id hmem) hfields
  own_nodup := h.own_nodup

namespace Draft

/-- The places that the types of a draft refer to lie in it. -/
def Within (draft : Draft) : Prop :=
  ∀ type ∈ draft.types, type.Within draft.types.length draft.fields.length

namespace Within

variable {draft grown : Draft}

theorem pushType (h : draft.Within) (shape : Shape) : (draft.pushType shape).Within := by
  intro type hmem
  have hlength : (draft.pushType shape).types.length = draft.types.length + 1 := List.length_append
  rw [hlength]
  rcases List.mem_append.mp hmem with hmem | hmem
  · exact (h type hmem).mono (Nat.le_succ _) (Nat.le_refl _)
  · rw [List.mem_singleton.mp hmem]
    exact ⟨fun _ hnone => absurd hnone List.not_mem_nil, fun _ hnone => absurd hnone List.not_mem_nil,
      fun _ hnone => absurd hnone List.not_mem_nil, List.nodup_nil⟩

theorem setType (h : draft.Within) (id : TypeId) {type : DraftType}
    (htype : type.Within draft.types.length draft.fields.length) : (draft.setType id type).Within := by
  intro found hmem
  rw [Draft.setType, List.length_set]
  rcases List.mem_or_eq_of_mem_set hmem with hmem | rfl
  · exact h found hmem
  · exact htype

theorem insertField (h : draft.Within) {owner : TypeId} {spec : FieldSpec} {id : FieldId}
    (hok : draft.insertField owner spec = .ok (id, grown)) : grown.Within := by
  obtain ⟨type, parameters, target, _, htype, _, _, _, _, _, rfl⟩ := insertField_ok hok
  have hold := h type (List.mem_of_getElem? htype)
  have hmore : ∀ type ∈ draft.types, type.Within draft.types.length (draft.fields.length + 1) :=
    fun type hmem => (h type hmem).mono (Nat.le_refl _) (Nat.le_succ _)
  have hnew : { type with fields := type.fields ++ [draft.fields.length] }.Within draft.types.length
      (draft.fields.length + 1) := by
    refine ⟨hold.interface_lt, hold.member_lt, ?_, ?_⟩
    · rw [List.forall_mem_append, List.forall_mem_singleton]
      exact ⟨fun id hmem => Nat.lt_succ_of_lt (hold.own_lt id hmem), Nat.lt_succ_self _⟩
    · rw [List.nodup_append_comm]
      exact List.nodup_cons.mpr ⟨fun hmem => Nat.lt_irrefl _ (hold.own_lt _ hmem), hold.own_nodup⟩
  intro found hmem
  change found ∈ draft.types.set owner _ at hmem
  change found.Within (draft.types.set owner _).length (draft.fields ++ [_]).length
  rw [List.length_set, List.length_append, List.length_singleton]
  rcases List.mem_or_eq_of_mem_set hmem with hmem | rfl
  · exact hmore found hmem
  · exact hnew

/-- A type may be given one more of the places of its draft. -/
theorem addNew_lt {ids : List TypeId} {id count : Nat} (hids : ∀ other ∈ ids, other < count) (hid : id < count) :
    ∀ other ∈ Hierarchy.addNew ids id, other < count := by
  intro other hmem
  rcases Hierarchy.mem_addNew.mp hmem with hmem | rfl
  · exact hids other hmem
  · exact hid

theorem change {declaration : Declaration} (h : draft.Within) (hchange : declaration.Change draft grown)
    (hinterface : ∀ interface implementer, declaration = .conformance interface implementer →
      interface < draft.types.length) : grown.Within := by
  cases hchange with
  | type _ hshape =>
      obtain ⟨_, _, _, _, _, rfl⟩ := declareShape_ok hshape
      exact h.pushType _
  | leaf _ _ hshape =>
      obtain ⟨_, _, _, _, _, rfl⟩ := declareShape_ok hshape
      exact h.pushType _
  | field _ _ hok => exact h.insertField hok
  | description htype =>
      have hold := h _ (List.mem_of_getElem? htype)
      exact h.setType _ ⟨hold.interface_lt, hold.member_lt, hold.own_lt, hold.own_nodup⟩
  | conformance htype =>
      have hold := h _ (List.mem_of_getElem? htype)
      exact h.setType _ ⟨addNew_lt hold.interface_lt (hinterface _ _ rfl), hold.member_lt, hold.own_lt,
        hold.own_nodup⟩
  | unionMember htype hmember =>
      have hold := h _ (List.mem_of_getElem? htype)
      exact h.setType _ ⟨hold.interface_lt, addNew_lt hold.member_lt hmember, hold.own_lt, hold.own_nodup⟩

/-- The interface of an accepted conformance is a type of the draft. -/
theorem apply {declaration : Declaration} (h : draft.Within) (hok : declaration.apply draft = .ok grown) :
    grown.Within := by
  refine h.change (Declaration.change_of_ok hok).2 ?_
  rintro interface implementer rfl
  obtain ⟨_, _, hok⟩ := Outcome.bind_ok_iff.mp hok
  obtain ⟨_, hconformed, _⟩ := Outcome.bind_ok_iff.mp hok
  exact (List.getElem?_eq_some_iff.mp (declared_ok hconformed)).1

end Within

theorem within_start : start.Within := by
  have hempty : ∀ type ∈ start.types, type.interfaces = [] ∧ type.members = [] ∧ type.fields = [] := by decide
  intro type hmem
  obtain ⟨hinterfaces, hmembers, hfields⟩ := hempty type hmem
  constructor <;> simp [hinterfaces, hmembers, hfields]

theorem within_declareAll {declarations : List Declaration} {draft : Draft}
    (h : start.declareAll declarations = .ok draft) : draft.Within :=
  Outcome.foldlM_preserves Within (fun _ _ _ _ hstate hnext => hstate.apply hnext) within_start h

end Draft

theorem Completion.stable_within : Stable Draft.Within where
  shape h hok := by
    obtain ⟨_, _, _, _, _, rfl⟩ := Draft.declareShape_ok hok
    exact h.pushType _
  field h _ hok := h.insertField hok

/-! ### Relations -/

namespace Hierarchy

variable {draft : Draft}

/-- The relations that are worked out are those that the types declare themselves, with their parents. -/
theorem relations_own (h : draft.Resolved) {found : List Relations} (hfound : relations draft = .ok found)
    {id : TypeId} (hid : id < draft.types.length) :
    (found.getD id default).ancestor? = (ownRelations draft (draft.type id)).ancestor? ∧
      (found.getD id default).interfaces = (ownRelations draft (draft.type id)).interfaces := by
  obtain ⟨parents, hsteps, hlength, _⟩ := relations_upto h (Nat.le_refl _)
  rw [relations, hsteps] at hfound
  cases hfound
  rw [List.getD_eq_getElem?_getD, List.getElem?_map, List.getElem?_eq_getElem (by simp [hlength, hid]),
    List.getElem_zip, List.getElem_map, List.getElem_range]
  exact ⟨rfl, rfl⟩

end Hierarchy

/-! ### Completed types -/

/-- The places that a type refers to lie among some types and fields. -/
structure SchemaType.Within (types fields : Nat) (type : SchemaType) : Prop where
  own_lt : ∀ id ∈ type.ownFields, id < fields
  visible_lt : ∀ entry ∈ type.fields, entry.2 < fields
  included_lt : ∀ id ∈ type.included, id < types
  ancestor_lt : ∀ id ∈ type.ancestor?, id < types
  interface_lt : ∀ id ∈ type.interfaces, id < types
  supertype_lt : ∀ id ∈ type.supertypes, id < types
  descendant_lt : ∀ id ∈ type.descendants, id < types
  slot_lt : ∀ slot ∈ type.projection.slots, slot.field < fields ∧ slot.declaring < types

/-- Slots bear the places of the types that declare their fields. -/
theorem Merge.slot_declaring_lt {context : Context} (hdraft : context.draft.Consistent)
    (hfields : Completion.FieldsOf context.draft context.fields) {owner : TypeId} {merged : Merged}
    (h : Merge.fields context owner = .ok merged) :
    ∀ slot ∈ merged.projection.slots, slot.declaring < context.draft.types.length := by
  obtain ⟨collected, hsound, rfl⟩ := collected_sound hdraft hfields h
  have hall : ∀ slot ∈ collected.projection.slots.filter (·.key == typenameKey) ++
      collected.projection.slots.filter (·.key != typenameKey), slot ∈ collected.projection.slots := by
    intro slot hmem
    rcases List.mem_append.mp hmem with hmem | hmem <;> exact List.mem_of_mem_filter hmem
  change ∀ slot ∈ (List.foldl _ _ _ : Projection).slots, _
  refine List.foldlRecOn _ _ (motive := fun projection : Projection =>
    ∀ slot ∈ projection.slots, slot.declaring < context.draft.types.length)
    (fun _ hmem => absurd hmem List.not_mem_nil) fun arranged harranged place hplace => ?_
  obtain ⟨field, hfield, _⟩ := hsound.slots.named place (hall place hplace)
  obtain ⟨declared, _, hdeclared, _, rfl⟩ := hfields.declared _ _ hfield
  rw [List.getD_eq_getElem?_getD, hfield, Option.getD_some]
  unfold pushSlot Projection.push
  split
  · exact harranged
  · split
    · exact harranged
    · rw [List.forall_mem_append, List.forall_mem_singleton]
      exact ⟨harranged, hdraft.owner_lt declared (List.mem_of_getElem? hdeclared)⟩

namespace Completion

open Relation (TransGen ReflTransGen)
open Hierarchy (Names parentsOf)

/-- What a completed type keeps of its declaration and of its relations. -/
structure RelatedOf (context : Merge.Context) (id : TypeId) (type : SchemaType) : Prop where
  own_eq : type.ownFields = (context.draft.type id).fields
  included_eq : type.included = childrenOf context.relations id
  ancestor_eq : type.ancestor? = (context.relations.getD id default).ancestor?
  interfaces_eq : type.interfaces = (context.relations.getD id default).interfaces
  leaf : (context.draft.type id).kind.isLeaf = true → type.fields = []
  slots : type.projection.slots = [] ∨ ∃ merged, Merge.fields context id = .ok merged ∧
    type.projection = merged.projection

theorem relatedOf {context : Merge.Context} {id : TypeId} {type : SchemaType}
    (h : completeType context id = .ok type) : RelatedOf context id type := by
  unfold completeType at h
  dsimp only at h
  split at h
  · cases h
    exact ⟨rfl, rfl, rfl, rfl, fun _ => rfl, Or.inl rfl⟩
  · next hcomposite =>
    obtain ⟨merged, hmerged, hpure⟩ := Outcome.bind_ok_iff.mp h
    cases hpure
    exact ⟨rfl, rfl, rfl, rfl, fun hleaf => absurd hleaf hcomposite, Or.inr ⟨merged, hmerged, rfl⟩⟩

namespace Origin

variable {context : Merge.Context} {built : Schema} (h : Origin context built)

include h

/-- A name of a parent stands for a type of the schema. -/
theorem resolve_lt {name : String} {id : TypeId} (hname : Hierarchy.resolve? context.draft name = some id) :
    id < built.types.length := by
  have hplaced (names : List String) (hlength : names.length = context.draft.types.length)
      (hget : names[id]? = some name) : id < built.types.length := by
    rw [h.length, ← hlength]
    exact (List.getElem?_eq_some_iff.mp hget).1
  rcases Option.or_eq_some_iff.mp hname with hshape | ⟨_, htype⟩
  · exact hplaced context.draft.shapeNames (List.length_map _) ((h.shapes name id).mp hshape)
  · exact hplaced context.draft.typeNames (List.length_map _) ((h.draft.byName_iff name id).mp htype)

variable (hwithin : context.draft.Within)

include hwithin

/-- The types that a type itself refers to as its parents are types of the schema. -/
theorem own_parent_lt {id : TypeId} (hid : id < built.types.length) :
    (∀ parent ∈ (Hierarchy.ownRelations context.draft (context.draft.type id)).ancestor?,
      parent < built.types.length) ∧
    ∀ parent ∈ (Hierarchy.ownRelations context.draft (context.draft.type id)).interfaces,
      parent < built.types.length := by
  constructor
  · intro parent hparent
    obtain ⟨name, _, hname⟩ := Option.bind_eq_some_iff.mp hparent
    exact h.resolve_lt hname
  · intro parent hparent
    rcases Hierarchy.mem_foldl_addNew.mp hparent with hmem | hmem
    · rw [h.length] at hid ⊢
      exact (hwithin _ (Draft.type_mem hid)).interface_lt parent hmem
    · obtain ⟨name, _, hname⟩ := List.mem_filterMap.mp hmem
      exact h.resolve_lt hname

/-- Parents are types of the schema. -/
theorem parent_lt {id parent : TypeId} (hparent : parent ∈ parentsOf context.relations id) :
    parent < built.types.length := by
  obtain ⟨found, hfound, _, hparents⟩ := Hierarchy.relations_ok h.prepared.resolved
    fun type hmem => (hwithin type hmem).member_lt
  cases hfound.symm.trans h.prepared.relations
  rcases (hparents id parent).mp hparent with hnames | hmember
  · rcases hnames with ⟨_, _, hname⟩ | ⟨_, _, hname⟩ | hmem
    · exact h.resolve_lt hname
    · exact h.resolve_lt hname
    · have hid : id < context.draft.types.length := by
        by_contra hge
        rw [Draft.type_of_le (Nat.le_of_not_lt hge)] at hmem
        cases hmem
      rw [h.length]
      exact (hwithin _ (Draft.type_mem hid)).interface_lt parent hmem
  · rw [h.length]
    exact Draft.lt_of_member hmember

theorem supertype_lt {id sup : TypeId} (hsup : sup ∈ context.supertypesOf id) : sup < built.types.length := by
  obtain ⟨_, _, hparent⟩ := TransGen.tail'_iff.mp (h.prepared.mem_supertypesOf_iff.mp hsup)
  exact h.parent_lt hwithin hparent

theorem type_within {id : TypeId} {type : SchemaType} (htype : built.types[id]? = some type) :
    type.Within built.types.length built.fields.length := by
  have hid := (List.getElem?_eq_some_iff.mp htype).1
  have hof := h.types id type htype
  have hrelated := relatedOf (h.completed id type htype)
  obtain ⟨hancestor, hinterfaces⟩ :=
    Hierarchy.relations_own h.prepared.resolved h.prepared.relations (h.length ▸ hid)
  obtain ⟨hancestors, hconformed⟩ := h.own_parent_lt hwithin hid
  constructor
  · rw [hrelated.own_eq, h.fields_eq, h.fields.length]
    exact (hwithin _ (Draft.type_mem (h.length ▸ hid))).own_lt
  · intro entry hentry
    obtain ⟨field, hfield, _⟩ := hof.sound.lookup entry hentry
    rw [h.fields_eq]
    exact (List.getElem?_eq_some_iff.mp hfield).1
  · intro child hchild
    rw [hrelated.included_eq] at hchild
    obtain ⟨place, hplace, hchild⟩ := List.mem_flatMap.mp hchild
    obtain ⟨_, _, rfl⟩ := List.mem_map.mp hchild
    exact Nat.lt_of_lt_of_le (List.mem_range.mp hplace) h.relations_le
  · rw [hrelated.ancestor_eq, hancestor]
    exact hancestors
  · rw [hrelated.interfaces_eq, hinterfaces]
    exact hconformed
  · rw [hof.supertypes_eq]
    exact fun _ => h.supertype_lt hwithin
  · rw [hof.descendants_eq]
    exact fun _ => h.lt_of_concrete
  · intro slot hslot
    obtain ⟨field, hfield, _⟩ := hof.sound.slots.named slot hslot
    rw [h.fields_eq, h.length]
    refine ⟨(List.getElem?_eq_some_iff.mp hfield).1, ?_⟩
    rcases hrelated.slots with hnone | ⟨merged, hmerged, heq⟩
    · rw [hnone] at hslot
      cases hslot
    · rw [heq] at hslot
      exact Merge.slot_declaring_lt h.draft h.fields hmerged slot hslot

end Origin

/-- A schema is built with the rules that have been registered. -/
theorem build_rules {draft : Draft} {built : Schema} (h : build draft = .ok built) :
    built.rules = draft.rules.freeze := by
  obtain ⟨_, _, h⟩ := Outcome.bind_ok_iff.mp h
  obtain ⟨_, _, h⟩ := Outcome.bind_ok_iff.mp h
  obtain ⟨_, _, h⟩ := Outcome.bind_ok_iff.mp h
  obtain ⟨_, _, hpure⟩ := Outcome.bind_ok_iff.mp h
  cases hpure
  rfl

end Completion

/-! ### Completed schemas -/

/-- A field is merged into a type by its declaring type: the type itself, a supertype or a subtype of it, or
a supertype of a subtype. -/
def Schema.MergedFrom (schema : Schema) (owner declaring : TypeId) : Prop :=
  declaring = owner ∨ declaring ∈ (schema.type owner).supertypes ∨ owner ∈ (schema.type declaring).supertypes ∨
    ∃ sub, owner ∈ (schema.type sub).supertypes ∧ declaring ∈ (schema.type sub).supertypes

/-- The graph of a schema is well formed: whatever its types and fields refer to is there, under its own
place and name. -/
structure Schema.Closed (schema : Schema) : Prop where
  type_id : ∀ (id : TypeId) (type : SchemaType), schema.types[id]? = some type → type.id = id
  field_id : ∀ (id : FieldId) (field : Field), schema.fields[id]? = some field → field.id = id
  byName_iff : ∀ (name : String) (id : TypeId), schema.byName.lookup name = some id ↔
    ∃ type, schema.types[id]? = some type ∧ type.name = name
  query_lt : schema.query < schema.types.length
  mutation_lt : schema.mutation < schema.types.length
  type_within : ∀ type ∈ schema.types, type.Within schema.types.length schema.fields.length
  target_lt : ∀ field ∈ schema.fields, field.target < schema.types.length
  declaring_lt : ∀ field ∈ schema.fields, field.declaring < schema.types.length
  own_declaring : ∀ type ∈ schema.types, ∀ id ∈ type.ownFields, (schema.field id).declaring = type.id
  own_names : ∀ type ∈ schema.types, (type.ownFields.map fun id => (schema.field id).name).Nodup
  visible : ∀ type ∈ schema.types, ∀ entry ∈ type.fields, (schema.field entry.2).name = entry.1 ∧
    schema.MergedFrom type.id (schema.field entry.2).declaring
  parameter_rule : ∀ field ∈ schema.fields, ∀ parameter ∈ field.parameters,
    ∃ rule, schema.rules.find? parameter.type.innermost = some rule

namespace Completion.Origin

open Relation (TransGen ReflTransGen)
open Hierarchy (Names parentsOf)

variable {context : Merge.Context} {built : Schema} (h : Origin context built)

include h

theorem attached_of_get? {id : FieldId} {field : Field}
    (hfield : (Introspection.attach built).fields[id]? = some field) :
    ∃ declared target, context.draft.fields[id]? = some declared ∧ field = { completeField id declared target with
      resolver := Introspection.resolverOver (Introspection.describe built) (completeField id declared target) } := by
  obtain ⟨origin, horigin, rfl⟩ := Option.map_eq_some_iff.mp ((List.getElem?_map ..).symm.trans hfield)
  rw [h.fields_eq] at horigin
  obtain ⟨declared, target, hdeclared, _, rfl⟩ := h.fields.declared id origin horigin
  exact ⟨declared, target, hdeclared, rfl⟩

/-- A field of a draft is the completed one at its place. -/
theorem attached_of_declared {id : FieldId} {declared : DraftField}
    (hdeclared : context.draft.fields[id]? = some declared) :
    ((Introspection.attach built).field id).name = declared.name ∧
      ((Introspection.attach built).field id).declaring = declared.owner := by
  have hlt := (List.getElem?_eq_some_iff.mp hdeclared).1
  have hget : (Introspection.attach built).fields[id]? = some _ := List.getElem?_eq_getElem
    (by rwa [Introspection.attach, List.length_map, h.fields_eq, h.fields.length])
  obtain ⟨same, target, hsame, heq⟩ := h.attached_of_get? hget
  cases hdeclared.symm.trans hsame
  rw [Schema.field_eq hget, heq]
  exact ⟨rfl, rfl⟩

/-- Only a composite type shows fields. -/
theorem composite_of_visible {owner : TypeId} (howner : owner < built.types.length) {entry : String × FieldId}
    (hentry : entry ∈ (built.type owner).fields) : (built.type owner).isLeaf = false := by
  have hget := List.getElem?_eq_getElem howner
  cases hleaf : (built.type owner).isLeaf with
  | false => rfl
  | true =>
      rw [SchemaType.isLeaf, (h.typeOf howner).kind_eq] at hleaf
      rw [Schema.type_eq hget, (relatedOf (h.completed owner _ hget)).leaf hleaf] at hentry
      cases hentry

/-- The fields visible on a type are those of types that it merges from. -/
theorem mergedFrom_of_visible {owner : TypeId} (howner : owner < built.types.length) {entry : String × FieldId}
    (hentry : entry ∈ (built.type owner).fields) :
    ((Introspection.attach built).field entry.2).name = entry.1 ∧
      (Introspection.attach built).MergedFrom owner ((Introspection.attach built).field entry.2).declaring := by
  have hget := List.getElem?_eq_getElem howner
  have hcomposite := h.composite_of_visible howner hentry
  have hlookup : (built.type owner).fields.lookup entry.1 = some entry.2 := by
    rw [Schema.type_eq hget] at hentry ⊢
    exact Keyed.lookup_of_mem (nodup_fields (h.completed owner _ hget)) hentry
  rw [(h.folded howner hcomposite).lookup] at hlookup
  obtain ⟨hoffered, hname⟩ := Merge.firstOf_mem hlookup
  obtain ⟨source, hsource, hown, _⟩ := Merge.mem_offered_iff.mp hoffered
  obtain ⟨declared, hdeclared, rfl⟩ := h.draft.mem_own_iff.mp hown
  obtain ⟨hsame, hdeclaring⟩ := h.attached_of_declared hdeclared
  rw [Merge.name_declared h.fields hdeclared] at hname
  refine ⟨hsame.trans hname, ?_⟩
  rw [hdeclaring]
  obtain ⟨⟨sub, hbelow, habove⟩, _⟩ := (h.prepared.mem_sources_iff (h.length ▸ howner)).mp hsource
  have hsup {a b : TypeId} (hproper : TransGen (Names (parentsOf context.relations)) a b) :
      b ∈ ((Introspection.attach built).type a).supertypes := by
    change b ∈ (built.type a).supertypes
    rw [h.supertypesOf_eq]
    exact h.prepared.mem_supertypesOf_iff.mpr hproper
  rcases Relation.reflTransGen_iff_eq_or_transGen.mp hbelow with rfl | hbelow
  · rcases Relation.reflTransGen_iff_eq_or_transGen.mp habove with heq | habove
    · exact Or.inl heq
    · exact Or.inr (Or.inl (hsup habove))
  · rcases Relation.reflTransGen_iff_eq_or_transGen.mp habove with rfl | habove
    · exact Or.inr (Or.inr (Or.inl (hsup hbelow)))
    · exact Or.inr (Or.inr (Or.inr ⟨sub, hsup hbelow, hsup habove⟩))

theorem closed (hwithin : context.draft.Within) (hrules : built.rules = context.draft.rules.freeze) :
    (Introspection.attach built).Closed where
  type_id := h.wellFormed.type_id
  field_id := h.wellFormed.field_id
  byName_iff _ _ := h.byName_iff
  query_lt := h.wellFormed.roots_lt.1
  mutation_lt := h.wellFormed.roots_lt.2
  type_within type hmem := by
    obtain ⟨id, htype⟩ := List.mem_iff_getElem?.mp hmem
    rw [Introspection.attach, List.length_map]
    exact h.type_within hwithin htype
  target_lt := h.wellFormed.target_lt
  declaring_lt := h.hierarchical.declaring_lt
  own_declaring type hmem own hown := by
    obtain ⟨id, htype⟩ := List.mem_iff_getElem?.mp hmem
    rw [(relatedOf (h.completed id type htype)).own_eq] at hown
    obtain ⟨declared, hdeclared, howner⟩ := h.draft.mem_own_iff.mp hown
    rw [(h.attached_of_declared hdeclared).2, howner, (h.types id type htype).id_eq]
  own_names type hmem := by
    obtain ⟨id, htype⟩ := List.mem_iff_getElem?.mp hmem
    have hid := (List.getElem?_eq_some_iff.mp htype).1
    rw [(relatedOf (h.completed id type htype)).own_eq]
    refine List.Nodup.map_on ?_ (hwithin _ (Draft.type_mem (h.length ▸ hid))).own_nodup
    intro first hfirst second hsecond hsame
    obtain ⟨a, ha, howner⟩ := h.draft.mem_own_iff.mp hfirst
    obtain ⟨b, hb, howner'⟩ := h.draft.mem_own_iff.mp hsecond
    rw [(h.attached_of_declared ha).1, (h.attached_of_declared hb).1] at hsame
    exact h.draft.own_names _ _ a b ha hb (howner.trans howner'.symm) hsame
  visible type hmem entry hentry := by
    obtain ⟨id, htype⟩ := List.mem_iff_getElem?.mp hmem
    have hid := (List.getElem?_eq_some_iff.mp htype).1
    rw [(h.types id type htype).id_eq]
    rw [← Schema.type_eq htype] at hentry
    exact h.mergedFrom_of_visible hid hentry
  parameter_rule field hmem parameter hparameter := by
    obtain ⟨id, hfield⟩ := List.mem_iff_getElem?.mp hmem
    obtain ⟨declared, target, hdeclared, rfl⟩ := h.attached_of_get? hfield
    have hrule := h.prepared.resolved.parameter declared (List.mem_of_getElem? hdeclared) parameter hparameter
    refine Option.isSome_iff_exists.mp ?_
    rw [Introspection.attach, hrules]
    exact hrule

end Completion.Origin

/-- The graph of every completed schema is well formed. -/
theorem Schema.Completed.closed {schema : Schema} (h : schema.Completed) : schema.Closed := by
  obtain ⟨declarations, draft, context, built, hdeclared, hrun, hbuilt, horigin, rfl⟩ := h.exists_run
  have hwithin : draft.Within := Draft.within_declareAll hdeclared
  have hsteps := Completion.ensures_declarations Completion.stable_within { draft with completed := true } hwithin
  rw [hrun] at hsteps
  exact horigin.closed hsteps.1 (Completion.build_rules hbuilt)

end GraphQuery
