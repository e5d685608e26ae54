import GraphQuery.Proofs.Query.Inheritance

/-! The layout of records. Records of a composite type start with its name. They have one slot for each field that
the type merges and that has a place in plans, under a key of its own, and the keys that selections get are told
apart by field and response key. -/

namespace GraphQuery

open Relation (TransGen ReflTransGen)

/-- A type has been declared a field for its name. -/
def Draft.HasTypename (owner : TypeId) (draft : Draft) : Prop :=
  ∃ field ∈ draft.fields, field.owner = owner ∧ field.name = typenameKey

namespace Completion

open Outcome (Ensures)

/-! ### The names of types -/

theorem stable_hasTypename (owner : TypeId) : Stable (Draft.HasTypename owner) where
  shape h hok := by
    obtain ⟨_, _, _, _, _, rfl⟩ := Draft.declareShape_ok hok
    exact h
  field h _ hok := by
    obtain ⟨_, _, _, _, _, _, _, _, _, _, rfl⟩ := Draft.insertField_ok hok
    obtain ⟨field, hmem, hfield⟩ := h
    exact ⟨field, List.mem_append_left _ hmem, hfield⟩

theorem hasTypename_of_insertField {draft grown : Draft} {owner : TypeId} {id : FieldId}
    (h : draft.insertField owner typenameSpec = .ok (id, grown)) : grown.HasTypename owner := by
  obtain ⟨_, parameters, target, _, _, _, _, _, _, _, rfl⟩ := Draft.insertField_ok h
  exact ⟨Draft.fieldOf owner typenameSpec parameters target, List.mem_append_right _ List.mem_cons_self, rfl, rfl⟩

/-- Declares the type name on one type after another. -/
def declareTypenames (owners : List TypeId) : DraftM Unit :=
  owners.forM fun owner => do
    let _ ← declaring fun draft => draft.insertField owner typenameSpec

/-- Types for which the type name is declared have it in the end. -/
theorem hasTypename_of_run {owners : List TypeId} {draft grown : Draft}
    (h : (declareTypenames owners).run draft = (.ok (), grown)) : ∀ owner ∈ owners, grown.HasTypename owner := by
  refine Outcome.each_of_forM (fun owner _ before next hfirst => ?_) (fun owner _ other _ => ?_) h
  · obtain ⟨_, _, hfirst, hpure⟩ := Outcome.run_bind_ok hfirst
    cases hpure
    exact hasTypename_of_insertField (run_declaring_ok hfirst)
  · exact Ensures.bind (ensures_insertField (stable_hasTypename owner) .typename) fun _ _ => Ensures.pure trivial

/-- What types there are, and of which kinds, stays as it is. -/
theorem kinds_of_run {owners : List TypeId} {draft grown : Draft}
    (h : (declareTypenames owners).run draft = (.ok (), grown)) :
    grown.types.map DraftType.kind = draft.types.map DraftType.kind := by
  have hsteps : Ensures (fun other : Draft => other.types.map DraftType.kind = draft.types.map DraftType.kind)
      (fun _ => True) (fun _ => True) (declareTypenames owners) := by
    refine Ensures.forM fun owner _ => Ensures.bind (ensures_declaring fun other id grown hkept hok => ?_)
      fun _ _ => Ensures.pure trivial
    obtain ⟨type, _, _, _, htype, _, _, _, _, _, rfl⟩ := Draft.insertField_ok hok
    have hset := @Draft.map_setType _ other owner type { type with fields := type.fields ++ [other.fields.length] }
      DraftType.kind htype rfl
    exact hset.trans hkept
  have hkept := (hsteps draft rfl).1
  rwa [h] at hkept

/-- Completion declares the type name on every composite type. -/
theorem hasTypename_of_completion {draft grown : Draft}
    (h : ExceptT.run (do registerIntrospection; addTypenames : DraftM Unit) draft = (.ok (), grown)) :
    ∀ owner < grown.types.length, (grown.type owner).kind.isLeaf = false → grown.HasTypename owner := by
  intro owner howner hcomposite
  obtain ⟨_, registered, _, htypenames⟩ := Outcome.run_bind_ok h
  change (declareTypenames _).run registered = _ at htypenames
  have hkinds := kinds_of_run htypenames
  have hlength := congrArg List.length hkinds
  rw [List.length_map, List.length_map] at hlength
  have hkind := congrArg (·.getD owner (default : DraftType).kind) hkinds
  simp only [List.getD_map] at hkind
  refine hasTypename_of_run htypenames owner (List.mem_filter.mpr ⟨List.mem_range.mpr (hlength ▸ howner), ?_⟩)
  rw [Bool.not_eq_true', Draft.type, ← hkind]
  exact hcomposite

end Completion

/-! ### The first slot -/

namespace Merge

open Completion (FieldsOf)

variable {context : Context}

/-- The bare name of each field that has a slot is the key of one. -/
def Covered (context : Context) (projection : Projection) : Prop :=
  ∀ slot ∈ projection.slots, ∃ bare ∈ projection.slots, bare.key = (context.field slot.field).name

theorem Covered.pushSlot {projection : Projection} (h : Covered context projection) {id : FieldId}
    (hid : (context.field id).id = id) : Covered context (pushSlot context projection (context.field id)) := by
  unfold Merge.pushSlot Projection.push
  rw [hid]
  split
  · exact h
  · split
    · exact h
    · intro slot hslot
      rcases List.mem_append.mp hslot with hslot | hslot
      · obtain ⟨bare, hbare, hkey⟩ := h slot hslot
        exact ⟨bare, List.mem_append_left _ hbare, hkey⟩
      · rw [List.mem_singleton.mp hslot]
        by_cases htaken : (projection.get? (context.field id).name).isSome = true
        · obtain ⟨bare, hbare⟩ := Option.isSome_iff_exists.mp htaken
          unfold Projection.get? at hbare
          have hkey := List.find?_some hbare
          exact ⟨bare, List.mem_append_left _ (List.mem_of_find?_eq_some hbare), beq_iff_eq.mp hkey⟩
        · exact ⟨_, List.mem_append_right _ List.mem_cons_self, if_neg htaken⟩

/-- What is pushed comes behind what is there. -/
theorem pushSlot_extends (projection : Projection) (field : Field) :
    projection.slots <+: (pushSlot context projection field).slots := by
  unfold pushSlot Projection.push
  split
  · exact List.prefix_rfl
  · split
    · exact List.prefix_rfl
    · exact List.prefix_append _ _

theorem pushSlot_empty (name : String) {field : Field} (hpost : field.isPost = false) :
    (pushSlot context (.empty name) field).slots =
      [⟨field.name, field.id, field.declaring, context.nameOf field.target, field.isList⟩] := by
  rw [pushSlot, hpost]
  rfl

theorem foldl_pushSlot_extends (slots : List Slot) (start : Projection) : start.slots <+:
    (slots.foldl (fun arranged slot => pushSlot context arranged (context.field slot.field)) start).slots := by
  refine List.foldlRecOn _ _ (motive := fun arranged : Projection => start.slots <+: arranged.slots)
    List.prefix_rfl ?_
  exact fun arranged harranged slot _ => harranged.trans (pushSlot_extends arranged _)

/-- Where some slot has the key of the type name, the first one has it once the slots are arranged. -/
theorem arrange_head {projection : Projection} (hslot : ∃ slot ∈ projection.slots, slot.key = typenameKey)
    (hnamed : ∀ slot ∈ projection.slots, slot.key = typenameKey →
      (context.field slot.field).name = typenameKey ∧ (context.field slot.field).isPost = false) :
    (arrange context projection).slots.head?.map Slot.key = some typenameKey := by
  obtain ⟨slot, hmem, hkey⟩ := hslot
  have hsome : slot ∈ projection.slots.filter (·.key == typenameKey) := List.mem_filter.mpr ⟨hmem, beq_iff_eq.mpr hkey⟩
  obtain ⟨first, others, hfirst⟩ := List.exists_cons_of_ne_nil (List.ne_nil_of_mem hsome)
  obtain ⟨hmem, hkey⟩ := List.mem_filter.mp (hfirst ▸ List.mem_cons_self : first ∈ projection.slots.filter _)
  obtain ⟨hname, hpost⟩ := hnamed first hmem (beq_iff_eq.mp hkey)
  -- the slot that is pushed first stays in front of all that are pushed behind it
  obtain ⟨rest, hrest⟩ := foldl_pushSlot_extends (others ++ projection.slots.filter (·.key != typenameKey))
    (pushSlot context (.empty projection.name) (context.field first.field))
  rw [pushSlot_empty projection.name hpost] at hrest
  have hhead := congrArg (fun slots : List Slot => slots.head?.map Slot.key) hrest
  rw [arrange, hfirst]
  exact hhead.symm.trans (congrArg some hname)

variable {owner : TypeId} {ids : List FieldId} {merged : Merged}

/-- What has been collected of fields of the schema is sound. -/
theorem collect_sound (hdraft : context.draft.Consistent) (hfields : FieldsOf context.draft context.fields)
    (h : collect context owner (offered context owner) = .ok merged) : Sound context merged := by
  refine Outcome.foldlM_preserves (Sound context) ?_ ?_ h
  · intro id hmem state next hstate hnext
    obtain ⟨_, _, hown, _⟩ := mem_offered_iff.mp hmem
    obtain ⟨_, hfield, _⟩ := field_of_mem_own hdraft hfields hown
    exact Sound.addField hdraft hfields hstate hfield hnext
  · exact ⟨fun _ hentry => absurd hentry List.not_mem_nil, Separate.empty context _⟩

theorem collect_covered (hids : ∀ id ∈ ids, (context.field id).id = id) (h : collect context owner ids = .ok merged) :
    Covered context merged.projection := by
  refine Outcome.foldlM_preserves (fun merged : Merged => Covered context merged.projection) ?_ ?_ h
  · intro id hmem state next hstate hnext
    rw [addField_own] at hnext
    split at hnext
    · cases hnext
      exact hstate.pushSlot (hids id hmem)
    · split at hnext
      · cases hnext
        exact hstate
      · split at hnext
        · cases hnext
          exact hstate.pushSlot (hids id hmem)
        · cases hnext
  · exact fun _ hslot => absurd hslot List.not_mem_nil

end Merge

namespace Completion

/-- Records of a composite type are laid out as its fields have been merged. -/
theorem projection_of_completed {context : Merge.Context} {id : TypeId} {type : SchemaType}
    (hcomposite : (context.draft.type id).kind.isLeaf = false) (h : completeType context id = .ok type) :
    ∃ collected, Merge.collect context id (Merge.offered context id) = .ok collected ∧
      type.projection = Merge.arrange context collected.projection := by
  unfold completeType at h
  dsimp only at h
  rw [hcomposite] at h
  obtain ⟨merged, hmerged, hpure⟩ := Outcome.bind_ok_iff.mp h
  cases hpure
  have hfields : Merge.fields context id = .ok merged := hmerged
  rw [Merge.fields_eq] at hfields
  obtain ⟨collected, hcollected, rfl⟩ := Outcome.map_ok_iff.mp hfields
  exact ⟨collected, hcollected, rfl⟩

namespace Origin

open Hierarchy (Names parentsOf)

variable {context : Merge.Context} {built : Schema} (h : Origin context built)

include h

/-- The fields under the name of the type name are resolved to it. -/
theorem typename_of_name {id : FieldId} {declared : DraftField}
    (hdeclared : context.draft.fields[id]? = some declared) (hname : (context.field id).name = typenameKey) :
    (context.field id).resolver = .typename := by
  obtain ⟨_, _, heq⟩ := Merge.field_declared h.fields hdeclared
  rw [Merge.name_declared h.fields hdeclared] at hname
  exact (congrArg Field.resolver heq).trans (h.draft.typename declared (List.mem_of_getElem? hdeclared) hname)

/-- The first slot of a composite type has the key of the type name. -/
theorem head_slot {owner : TypeId} (howner : owner < built.types.length)
    (hcomposite : (built.type owner).isLeaf = false) (htypename : context.draft.HasTypename owner) :
    (built.type owner).projection.slots.head?.map Slot.key = some typenameKey := by
  have hids : ∀ id ∈ Merge.offered context owner, (context.field id).id = id :=
    fun _ => Merge.offered_id h.draft h.fields
  have hget := List.getElem?_eq_getElem howner
  rw [Schema.type_eq hget] at hcomposite ⊢
  rw [SchemaType.isLeaf, (h.types owner _ hget).kind_eq] at hcomposite
  obtain ⟨collected, hcollected, hprojection⟩ := projection_of_completed hcomposite (h.completed owner _ hget)
  obtain ⟨merged, hmerged, hfolded⟩ := (Merge.collect_ok hids).resolve_right fun hfails => by
    obtain ⟨error, herror⟩ := hfails.1
    cases hcollected.symm.trans herror
  cases hcollected.symm.trans hmerged
  rw [hprojection]
  refine Merge.arrange_head ?_ ?_
  · obtain ⟨declared, hmem, rfl, hname⟩ := htypename
    obtain ⟨id, hdeclared⟩ := List.mem_iff_getElem?.mp hmem
    have hnamed := (Merge.name_declared h.fields hdeclared).trans hname
    have hpost : (context.field id).isPost = false := by
      rw [Field.isPost, h.typename_of_name hdeclared hnamed]
    have hsome := (hfolded.slots id).mpr ⟨h.offered_of_declared hdeclared, hpost⟩
    obtain ⟨slot, hslot, rfl⟩ := Merge.slotFor?_isSome_iff.mp hsome
    obtain ⟨bare, hbare, hkey⟩ := Merge.collect_covered hids hcollected slot hslot
    rw [hnamed] at hkey
    exact ⟨bare, hbare, hkey⟩
  · intro slot hslot hkey
    have hslots := (Merge.collect_sound h.draft h.fields hcollected).slots
    obtain ⟨field, hfield, hname, hresolver⟩ := h.typename_of_key hslots hslot hkey
    rw [Merge.Context.field_eq hfield, Field.isPost, hresolver]
    exact ⟨hname, rfl⟩

end Origin

end Completion

/-! ### Slots and merged fields -/

namespace Schema

/-- A type merges a field: it or a subtype of it is the declaring type or a subtype of that, which is no other
union. Of the fields that name a type it merges its own only. -/
structure Merges (schema : Schema) (owner : TypeId) (id : FieldId) : Prop where
  lt : id < schema.fields.length
  reached : ∃ sub, schema.isSubtype sub owner = true ∧ schema.isSubtype sub (schema.field id).declaring = true
  passed : (schema.field id).declaring = owner ∨ (schema.type (schema.field id).declaring).kind ≠ .union
  typename : (schema.field id).isTypename = true → (schema.field id).declaring = owner

/-- How the records of a type are laid out. -/
structure LaidOut (schema : Schema) (owner : TypeId) : Prop where
  typename_first : ∃ slot rest, (schema.type owner).projection.slots = slot :: rest ∧ slot.key = typenameKey ∧
    (schema.field slot.field).isTypename = true ∧ (schema.field slot.field).declaring = owner
  /-- The fields that have a slot are the merged ones that are not computed. -/
  merged_iff : ∀ id, (∃ slot ∈ (schema.type owner).projection.slots, slot.field = id) ↔
    schema.Merges owner id ∧ (schema.field id).isPost = false
  fields_nodup : ((schema.type owner).projection.slots.map Slot.field).Nodup
  keys_nodup : ((schema.type owner).projection.slots.map Slot.key).Nodup
  key_eq : ∀ slot ∈ (schema.type owner).projection.slots, slot.key = (schema.field slot.field).name ∨
    slot.key = (schema.type (schema.field slot.field).declaring).name ++ "." ++ (schema.field slot.field).name

end Schema

namespace Completion.Origin

open Hierarchy (Names parentsOf)

variable {context : Merge.Context} {built : Schema} (h : Origin context built)

include h

theorem reaches_iff {a b : TypeId} :
    ReflTransGen (Names (parentsOf context.relations)) a b ↔ built.isSubtype a b = true := by
  rw [h.isSubtype_iff, h.prepared.mem_supertypesOf_iff, Relation.reflTransGen_iff_eq_or_transGen, eq_comm]

theorem length_fields : (Introspection.attach built).fields.length = context.draft.fields.length := by
  rw [Introspection.attach, List.length_map, h.fields_eq, h.fields.length]

/-- The fields that a type is offered are those that the schema shows it to merge. -/
theorem mem_offered_iff (hreads : context.draft.ReadsReserved) {owner : TypeId} (howner : owner < built.types.length)
    {id : FieldId} : id ∈ Merge.offered context owner ↔ (Introspection.attach built).Merges owner id := by
  have hkind {declared : DraftField} (hdeclared : context.draft.fields[id]? = some declared) :
      ((Introspection.attach built).type declared.owner).kind = (context.draft.type declared.owner).kind :=
    (h.typeOf (h.length ▸ h.draft.owner_lt declared (List.mem_of_getElem? hdeclared))).kind_eq
  rw [Merge.mem_offered_iff]
  constructor
  · rintro ⟨source, hsource, hown, hplace⟩
    obtain ⟨declared, hdeclared, rfl⟩ := h.draft.mem_own_iff.mp hown
    obtain ⟨⟨sub, hbelow, habove⟩, hpassed⟩ := (h.prepared.mem_sources_iff (h.length ▸ howner)).mp hsource
    have hdeclaring := (h.attached_of_declared hdeclared).2
    rw [(h.kind_of_declared hreads hdeclared).2] at hplace
    refine ⟨?_, ⟨sub, h.reaches_iff.mp hbelow, ?_⟩, ?_, hdeclaring ▸ hplace⟩
    · rw [h.length_fields]
      exact (List.getElem?_eq_some_iff.mp hdeclared).1
    · rw [hdeclaring]
      exact h.reaches_iff.mp habove
    · rwa [hdeclaring, hkind hdeclared]
  · rintro ⟨hlt, ⟨sub, hbelow, habove⟩, hpassed, hplace⟩
    rw [h.length_fields] at hlt
    have hdeclared := List.getElem?_eq_getElem hlt
    have hdeclaring := (h.attached_of_declared hdeclared).2
    rw [← (h.kind_of_declared hreads hdeclared).2] at hplace
    rw [hdeclaring] at habove hpassed hplace
    rw [hkind hdeclared] at hpassed
    refine ⟨_, ?_, h.draft.mem_own_iff.mpr ⟨_, hdeclared, rfl⟩, hplace⟩
    exact (h.prepared.mem_sources_iff (h.length ▸ howner)).mpr
      ⟨⟨sub, h.reaches_iff.mpr hbelow, h.reaches_iff.mpr habove⟩, hpassed⟩

/-- The records of a composite type are laid out. -/
theorem laidOut (hreads : context.draft.ReadsReserved) {owner : TypeId} (howner : owner < built.types.length)
    (hcomposite : (built.type owner).isLeaf = false) (htypename : context.draft.HasTypename owner) :
    (Introspection.attach built).LaidOut owner := by
  have hslots := (h.typeOf howner).sound.slots
  have hfolded := h.folded howner hcomposite
  have hmerged (id : FieldId) : (∃ slot ∈ (built.type owner).projection.slots, slot.field = id) ↔
      (Introspection.attach built).Merges owner id ∧ ((Introspection.attach built).field id).isPost = false := by
    rw [← Merge.slotFor?_isSome_iff, hfolded.slots, h.mem_offered_iff hreads howner]
    refine and_congr_right fun hmerges => ?_
    have hlt := h.length_fields ▸ hmerges.lt
    rw [(h.kind_of_declared hreads (List.getElem?_eq_getElem hlt)).1]
  refine ⟨?_, hmerged, ?_, ?_, ?_⟩
  · have hhead := h.head_slot howner hcomposite htypename
    obtain ⟨slot, hfirst, hkey⟩ := Option.map_eq_some_iff.mp hhead
    obtain ⟨rest, hrest⟩ := List.head?_eq_some_iff.mp hfirst
    have hmem : slot ∈ ((Introspection.attach built).type owner).projection.slots := List.mem_of_head? hfirst
    have hnames := (h.wellFormed.slot_type hmem).2 hkey
    obtain ⟨hmerges, _⟩ := (hmerged slot.field).mp ⟨slot, hmem, rfl⟩
    exact ⟨slot, rest, hrest, hkey, hnames, hmerges.typename hnames⟩
  · exact List.pairwise_map.mpr (hslots.distinct.imp And.left)
  · exact List.pairwise_map.mpr (hslots.distinct.imp And.right)
  · intro slot hslot
    obtain ⟨field, hfield, hkey⟩ := hslots.named slot hslot
    obtain ⟨declared, _, hdeclared, _, heq⟩ := h.fields.declared slot.field field hfield
    have hlt : field.declaring < built.types.length := by
      rw [heq, h.length]
      exact h.draft.owner_lt declared (List.mem_of_getElem? hdeclared)
    have hname : ((Introspection.attach built).type field.declaring).name = context.nameOf field.declaring :=
      (h.typeOf hlt).name_eq
    rw [h.field_attach hfield]
    dsimp only
    rwa [hname]

end Completion.Origin

namespace Schema

/-- Some request is bound to a selection of rows of a type. -/
def Yields (schema : Schema) (owner : TypeId) (selection : BoundSelection) : Prop :=
  ∃ (binder : Binder) (root : TypeId) (selections : List Selection) (top level : List BoundSelection),
    binder.schema = schema ∧ binder.bind root selections = .ok top ∧ schema.Below root top owner level ∧
      selection ∈ level

theorem Yields.carries {schema : Schema} (hschema : schema.WellFormed) {owner : TypeId} {selection : BoundSelection}
    (h : schema.Yields owner selection) : schema.Carries owner selection := by
  obtain ⟨binder, root, selections, top, level, rfl, hbind, hbelow, hmem⟩ := h
  exact ((Binder.bound_of_bind hschema hbind).of_below hbelow).carries selection hmem

/-- Whatever selections on a type are bound to are selections of its rows. -/
theorem yields_of_bind (binder : Binder) (root : TypeId) (selections : List Selection) :
    ∀ selection ∈ (binder.bind root selections).toOption.getD [], binder.schema.Yields root selection := by
  intro selection hmem
  cases hbind : binder.bind root selections with
  | error error =>
      rw [hbind] at hmem
      cases hmem
  | ok top =>
      rw [hbind] at hmem
      exact ⟨binder, root, selections, top, top, rfl, hbind, .refl, hmem⟩

/-- **No two values share a key of a record.** The records of a composite type are laid out: the slot of its name is
the first one, each field that it merges and that is not computed has one slot and nothing else has any, and the
keys of slots differ, each of them being the name of its field or that of the declaring type, a point and the name
of the field. Selections of rows of the type, however they are listed and whatever responses call them, all get
their keys: none if they name the type or are computed, never the key of the type name, and the same one if and only
if field and response key are the same. -/
theorem record_keys_injective {schema : Schema} (h : schema.Completed) {owner : TypeId}
    (howner : owner < schema.types.length) (hcomposite : (schema.type owner).isLeaf = false) :
    schema.LaidOut owner ∧ ∀ level, (∀ selection ∈ level, schema.Yields owner selection) →
      ∃ key?, schema.recordKeys (schema.type owner) level = .ok (level.map key?) ∧ schema.Keying level key? := by
  refine ⟨?_, fun level hlevel => recordKeys_ok h.wellFormed fun selection hmem =>
    (hlevel selection hmem).carries h.wellFormed⟩
  obtain ⟨declarations, draft, context, built, hdeclared, hrun, _, horigin, rfl⟩ := h.exists_run
  have hreads := (Completion.ensures_declarations Completion.stable_readsReserved _
    (Completion.readsReserved_declareAll hdeclared)).1
  rw [hrun] at hreads
  have hkind := (horigin.typeOf howner).kind_eq
  refine horigin.laidOut hreads howner hcomposite (Completion.hasTypename_of_completion hrun owner ?_ ?_)
  · rw [← horigin.length]
    exact howner
  · rw [← hkind]
    exact hcomposite

/-- Dogs of the menagerie have two names, one as what is named and one as pets: the keys of these are told apart,
whatever they are called. -/
theorem dog_names_keyed :
    let dog : List Selection := [.field none "name" [] [], .field (some "called") "name" [] [],
      .inline (some "Pet") [.field (some "petName") "name" [] [], .field (some "again") "name" [] []],
      .field none "__typename" [] []]
    let bound := (⟨menagerie, [], [], none⟩ : Binder).bind 9 dog
    let level := bound.toOption.getD []
    (9 < menagerie.types.length ∧ (menagerie.type 9).isLeaf = false ∧
        ∀ selection ∈ level, menagerie.Yields 9 selection) ∧
      (menagerie.recordKeys (menagerie.type 9) level).toOption = some [some "name", some "name#called",
        some "Pet.name", some "Pet.name#again", none] ∧
      menagerie.LaidOut 9 ∧
        ∃ key?, menagerie.recordKeys (menagerie.type 9) level = .ok (level.map key?) ∧
          menagerie.Keying level key? := by
  intro dog bound level
  obtain ⟨hlt, hcomposite⟩ : 9 < menagerie.types.length ∧ (menagerie.type 9).isLeaf = false := by
    decide +kernel
  have hlevel : ∀ selection ∈ level, menagerie.Yields 9 selection := yields_of_bind ⟨menagerie, [], [], none⟩ 9 dog
  obtain ⟨hlaid, hkeys⟩ := record_keys_injective menagerie_completed hlt hcomposite
  exact ⟨⟨hlt, hcomposite, hlevel⟩, by decide +kernel, hlaid, hkeys level hlevel⟩

end Schema

end GraphQuery
