import GraphQuery.Proofs.Query.Arena
import GraphQuery.Proofs.Query.Description

/-! Fields of subtypes. Whatever a proper subtype shows, be it its own, inherited, or that of one of its own
subtypes, has been merged into the type as well. Records of the type therefore have a slot for it, so that a
fragment on the subtype may select it. -/

namespace GraphQuery

open Relation (TransGen ReflTransGen)

/-- A field has a place in plans and does not name the type. -/
def Resolver.IsRead : Resolver → Prop
  | .member _ => True
  | .plan _ => True
  | _ => False

theorem Field.kind_of_isRead {field : Field} (h : field.resolver.IsRead) :
    field.isPost = false ∧ field.isTypename = false := by
  rw [isPost, isTypename]
  cases hresolver : field.resolver with
  | member => exact ⟨rfl, rfl⟩
  | plan => exact ⟨rfl, rfl⟩
  | _ => simp [hresolver, Resolver.IsRead] at h

/-- The fields of reserved names are read, those that name the type aside. -/
def Draft.ReadsReserved (draft : Draft) : Prop :=
  ∀ field ∈ draft.fields, Text.isReserved field.name = true → field.name ≠ typenameKey → field.resolver.IsRead

namespace Completion

theorem Brings.isRead {spec : FieldSpec} (h : Brings spec) (hname : spec.name ≠ typenameKey) :
    (spec.resolver?.getD (.member spec.name)).IsRead := by
  cases h with
  | member => exact trivial
  | root hspec =>
      obtain ⟨_, _, _, hresolver⟩ := rootFields_constant hspec
      rw [hresolver]
      exact trivial
  | typename => exact absurd rfl hname

theorem stable_readsReserved : Stable Draft.ReadsReserved where
  shape h hok := by
    obtain ⟨_, _, _, _, _, rfl⟩ := Draft.declareShape_ok hok
    exact h
  field h hspec hok := by
    obtain ⟨type, parameters, target, _, _, _, _, _, _, _, rfl⟩ := Draft.insertField_ok hok
    intro field hmem hreserved hname
    rcases List.mem_append.mp hmem with hmem | hmem
    · exact h field hmem hreserved hname
    · cases List.mem_singleton.mp hmem
      exact hspec.isRead hname

/-- Declarations take no reserved names for fields. -/
theorem readsReserved_declareAll {declarations : List Declaration} {draft : Draft}
    (h : Draft.start.declareAll declarations = .ok draft) :
    { draft with completed := true }.ReadsReserved := by
  intro field hmem hreserved
  have hname := (Draft.recorded_declareAll h).fieldName_free field hmem
  exact absurd hreserved (by rw [hname]; decide)

/-- A field that shows a schema has been declared as one that is read. -/
theorem resolverOver_eq {draft : Draft} (h : draft.ReadsReserved) {declared : DraftField}
    (hmem : declared ∈ draft.fields) (description : Value) (id : FieldId) (target : TypeId) :
    Introspection.resolverOver description (completeField id declared target) = declared.resolver ∨
      declared.resolver.IsRead ∧
        (Introspection.resolverOver description (completeField id declared target)).IsRead := by
  by_cases hreserved : Text.isReserved declared.name = true
  · by_cases hname : declared.name = typenameKey
    · left
      rw [Introspection.resolverOver]
      change (if declared.name == Introspection.schemaField then _ else
        if declared.name == Introspection.typeField then _ else declared.resolver) = _
      rw [hname]
      rfl
    · right
      have hread := h declared hmem hreserved hname
      refine ⟨hread, ?_⟩
      rw [Introspection.resolverOver]
      split
      · exact trivial
      · split
        · exact trivial
        · exact hread
  · exact Or.inl (Introspection.resolverOver_of_name description (Bool.eq_false_iff.mpr hreserved))

namespace Origin

variable {context : Merge.Context} {built : Schema} (h : Origin context built)

include h

/-- A field is computed, or names the type, if and only if it has been declared so. -/
theorem kind_of_declared (hreads : context.draft.ReadsReserved) {id : FieldId} {declared : DraftField}
    (hdeclared : context.draft.fields[id]? = some declared) :
    (context.field id).isPost = ((Introspection.attach built).field id).isPost ∧
      (context.field id).isTypename = ((Introspection.attach built).field id).isTypename := by
  obtain ⟨target, _, hget⟩ := Merge.field_declared h.fields hdeclared
  have hcontext : (context.field id).resolver = declared.resolver := congrArg Field.resolver hget
  have hresolver : ((Introspection.attach built).field id).resolver =
      Introspection.resolverOver (Introspection.describe built) (completeField id declared target) := by
    rw [Introspection.field_attach_eq, Schema.field, h.fields_eq, ← hget]
    rfl
  rcases resolverOver_eq hreads (List.mem_of_getElem? hdeclared) (Introspection.describe built) id target
    with hsame | ⟨hbefore, hafter⟩
  · have hkept : (context.field id).resolver = ((Introspection.attach built).field id).resolver := by
      rw [hcontext, hresolver, hsame]
    simp only [Field.isPost, Field.isTypename, hkept, and_self]
  · obtain ⟨hpost, htypename⟩ := Field.kind_of_isRead (hcontext ▸ hbefore)
    obtain ⟨hpost', htypename'⟩ := Field.kind_of_isRead (hresolver ▸ hafter)
    exact ⟨hpost.trans hpost'.symm, htypename.trans htypename'.symm⟩

theorem kind_of_lookup (hreads : context.draft.ReadsReserved) {owner : TypeId} {name : String} {field : Field}
    (hlookup : (Introspection.attach built).lookupField? owner name = some field) :
    (context.field field.id).isPost = field.isPost ∧ (context.field field.id).isTypename = field.isTypename := by
  obtain ⟨_, declared, target, hdeclared, _⟩ := h.declared_of_lookup hlookup
  have hkinds := h.kind_of_declared hreads hdeclared
  rwa [Schema.field_eq (h.wellFormed.field_of_lookup hlookup)] at hkinds

/-- What a proper subtype that is no union shows is offered to the type as well. -/
theorem offered_of_subtype (hreads : context.draft.ReadsReserved) {owner sub : TypeId}
    (howner : owner < built.types.length) (hne : sub ≠ owner) (hsub : built.isSubtype sub owner = true)
    (hunion : (built.type sub).kind ≠ .union) {name : String} {field : Field}
    (hlookup : (Introspection.attach built).lookupField? sub name = some field)
    (htypename : field.isTypename = false) : field.id ∈ Merge.offered context owner := by
  have hlt : sub < built.types.length := (h.wellFormed.shown_of_lookup hlookup).1
  have hentry := (h.declared_of_lookup hlookup).1
  have hcomposite := h.composite_of_visible hlt (Keyed.mem_of_lookup hentry)
  have hshown := (h.folded hlt hcomposite).lookup name
  obtain ⟨source, hsource, hown, _⟩ := Merge.mem_offered_iff.mp (Merge.firstOf_mem (hshown.symm.trans hentry)).1
  obtain ⟨⟨below, hbelow, habove⟩, hpassed⟩ := (h.prepared.mem_sources_iff (h.length ▸ hlt)).mp hsource
  have hup : ReflTransGen (Hierarchy.Names (Hierarchy.parentsOf context.relations)) sub owner := by
    have hproper := ((h.isSubtype_iff sub owner).mp hsub).resolve_left hne
    exact (h.prepared.mem_supertypesOf_iff.mp hproper).to_reflTransGen
  refine Merge.mem_offered_iff.mpr ⟨source, ?_, hown, fun hnames => ?_⟩
  · refine (h.prepared.mem_sources_iff (h.length ▸ howner)).mpr ⟨⟨below, hbelow.trans hup, habove⟩, Or.inr ?_⟩
    rcases hpassed with rfl | hpassed
    · rwa [(h.typeOf hlt).kind_eq] at hunion
    · exact hpassed
  · rw [(h.kind_of_lookup hreads hlookup).2, htypename] at hnames
    cases hnames

end Origin

end Completion

namespace Binder

variable {binder : Binder} {spread : SpreadBinding} {owner : TypeId} {condition? : Option TypeId} {depth : Nat}

/-- A field inside a fragment on another type than the parent binds to one selection under the condition. -/
theorem bindSelections_fragment {condition name : String} {alias? : Option String}
    {supplied : List (String × Literal)} {selections : List Selection} {type : TypeId} {field : Field}
    (htype : binder.conditionType condition = .ok type) (hne : type ≠ owner)
    (hfield : binder.resolveField owner type name = .ok field) :
    binder.bindSelections spread owner condition? depth
        [.inline (some condition) [.field alias? name supplied selections]] = (do
      binder.checkDepth depth
      let arguments ← binder.bindArguments field supplied
      let children ← binder.bindInside spread field.target depth selections
      pure [⟨name, alias?, field.id, some type, arguments, BoundSelection.merge children⟩]) := by
  have hkept : kept owner (some type) = some type := by simp [kept, hne]
  rw [bindSelections_inline htype, bindSelections, bindSelection_field, hkept, Option.getD_some, hfield]
  cases binder.checkDepth depth with
  | error error => rfl
  | ok =>
      change (binder.bindArguments field supplied >>= _) >>= _ = binder.bindArguments field supplied >>= _
      cases binder.bindArguments field supplied with
      | error error => rfl
      | ok arguments =>
          change (binder.bindInside spread field.target depth selections >>= _) >>= _ =
            binder.bindInside spread field.target depth selections >>= _
          cases binder.bindInside spread field.target depth selections <;> rfl

/-- A field that rows of the parent carry is not missing, though one selected inside it may be. -/
theorem fieldNotFound_inside {condition name missing hidden : String} {alias? : Option String}
    {supplied : List (String × Literal)} {selections : List Selection} {type : TypeId} {field : Field}
    (htype : binder.conditionType condition = .ok type) (hne : type ≠ owner)
    (hfield : binder.resolveField owner type name = .ok field)
    (h : binder.bindSelections spread owner condition? depth
        [.inline (some condition) [.field alias? name supplied selections]] =
      .error (.fieldNotFound missing hidden)) :
    binder.bindInside spread field.target depth selections = .error (.fieldNotFound missing hidden) := by
  rw [bindSelections_fragment htype hne hfield] at h
  rcases Outcome.bind_error_iff.mp h with hdepth | ⟨_, _, h⟩
  · unfold checkDepth at hdepth
    split at hdepth
    · split at hdepth <;> cases hdepth
    · cases hdepth
  · rcases Outcome.bind_error_iff.mp h with harguments | ⟨arguments, _, h⟩
    · obtain ⟨_, _, hother⟩ := Outcome.mapError_error_iff.mp harguments
      cases hother
    · rcases Outcome.bind_error_iff.mp h with hinside | ⟨_, _, hpure⟩
      · exact hinside
      · cases hpure

end Binder

namespace Schema

variable {schema : Schema} (h : schema.Completed) {owner sub : TypeId} (howner : owner < schema.types.length)
  (hcomposite : (schema.type owner).isLeaf = false) (hne : sub ≠ owner)
  (hsub : schema.isSubtype sub owner = true) (hunion : (schema.type sub).kind ≠ .union)

include h howner hcomposite hne hsub hunion

/-- Records of a type have slots for what its proper subtypes show, unions aside. -/
theorem slot_of_subtype {name : String} {field : Field} (hlookup : schema.lookupField? sub name = some field)
    (hpost : field.isPost = false) (htypename : field.isTypename = false) :
    ((schema.type owner).projection.slotFor? field.id).isSome = true := by
  obtain ⟨context, built, horigin, rfl, hreads⟩ :=
    h.exists_origin_keeping Completion.stable_readsReserved fun _ _ => Completion.readsReserved_declareAll
  refine ((horigin.folded howner hcomposite).slots field.id).mpr ⟨?_, ?_⟩
  · exact horigin.offered_of_subtype hreads howner hne hsub hunion hlookup htypename
  · rw [(horigin.kind_of_lookup hreads hlookup).1, hpost]

/-- The fields of subtypes may be selected through fragments. Whatever a proper subtype that is no union
shows, post fields and names of types aside, records of the type have a slot for. A selection of it inside a
fragment on the subtype is never refused for the want of the field: only selections inside it may be. -/
theorem subtype_fields_selectable {name : String} {field : Field}
    (hlookup : schema.lookupField? sub name = some field) (hpost : field.isPost = false)
    (htypename : field.isTypename = false) :
    ((schema.type owner).projection.slotFor? field.id).isSome = true ∧
      ∀ binder : Binder, binder.schema = schema →
        binder.resolveField owner sub name = .ok field ∧
        ∀ spread condition? depth alias? supplied selections missing hidden,
          binder.bindSelections spread owner condition? depth
              [.inline (some (schema.type sub).name) [.field alias? name supplied selections]] =
            .error (.fieldNotFound missing hidden) →
          binder.bindInside spread field.target depth selections = .error (.fieldNotFound missing hidden) := by
  have hslot := slot_of_subtype h howner hcomposite hne hsub hunion hlookup hpost htypename
  refine ⟨hslot, ?_⟩
  rintro binder rfl
  have hfield : binder.resolveField owner sub name = .ok field := Binder.resolveField_of_slot hlookup hslot
  refine ⟨hfield, fun spread condition? depth alias? supplied selections missing hidden herror => ?_⟩
  have hlt := (h.wellFormed.shown_of_lookup hlookup).1
  have htype : binder.conditionType (binder.schema.type sub).name = .ok sub := by
    rw [Binder.conditionType, h.wellFormed.typeNamed (type_mem hlt)]
    exact congrArg Except.ok (h.wellFormed.id_of_lt hlt)
  exact Binder.fieldNotFound_inside htype hne hfield herror

end Schema

/-- Declarations of a litter: dogs are pets, and puppies extend dogs. What plays is declared by an interface of
puppies only. -/
def Declaration.litter : List Declaration :=
  [.type (.ofKind .union "Pet"), .type (.ofKind .object "Dog"), .type (.ofKind .interface "Playful"),
    .type ⟨"Puppy", none, some "Dog", ["Playful"], .object⟩, .unionMember 7 8, .field 8 (.plain "name" "String"),
    .field 9 (.plain "play" "Puppy")]

/-- The schema of a litter: types 7 to 10 are pets, dogs, what plays, and puppies. -/
def Schema.litter : Schema :=
  ((Draft.start.declareAll Declaration.litter).bind fun draft => draft.complete.1).toOption.get
    (by decide +kernel)

theorem Schema.litter_completed : Schema.litter.Completed :=
  Schema.completed_of_toOption (Option.some_get _).symm

/-- Dogs play, since puppies do. The union of pets has the play of dogs in its records, so that a fragment on
dogs may select it. -/
theorem Schema.litter_fields_selectable :
    Schema.litter.isSubtype 8 7 = true ∧ Schema.litter.lookupField? 8 "play" = some (Schema.litter.field 1) ∧
      ((Schema.litter.type 7).projection.slotFor? 1).isSome = true ∧
      Binder.resolveField ⟨Schema.litter, [], [], none⟩ 7 8 "play" = .ok (Schema.litter.field 1) := by
  have hplaces : 7 < Schema.litter.types.length ∧ (Schema.litter.type 7).isLeaf = false ∧
      Schema.litter.isSubtype 8 7 = true ∧ (Schema.litter.type 8).kind ≠ .union ∧
      (Schema.litter.type 8).fields.lookup "play" = some 1 ∧ (Schema.litter.field 1).id = 1 ∧
      (Schema.litter.field 1).isPost = false ∧ (Schema.litter.field 1).isTypename = false := by
    decide +kernel
  obtain ⟨hlt, hcomposite, hsub, hunion, hlookup, hid, hpost, htypename⟩ := hplaces
  have hplay : Schema.litter.lookupField? 8 "play" = some (Schema.litter.field 1) := by
    rw [lookupField?, hlookup]
    rfl
  obtain ⟨hslot, hbinds⟩ := subtype_fields_selectable litter_completed hlt hcomposite (by decide) hsub hunion
    hplay hpost htypename
  rw [hid] at hslot
  exact ⟨hsub, hplay, hslot, (hbinds ⟨Schema.litter, [], [], none⟩ rfl).1⟩

end GraphQuery
