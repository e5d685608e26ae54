import GraphQuery.Proofs.Query.Projection
import GraphQuery.Proofs.Query.RowType

/-! Members that concrete subtypes declare. They are merged into the type: rows of the type carry each of
them, and the type shows the first of their name. -/

namespace GraphQuery

namespace Schema

/-- A type shows a member under a name, which may be one that its subtypes declare. -/
structure Shows (schema : Schema) (owner : TypeId) (name : String) (shown : Field) : Prop where
  lookup : schema.lookupField? owner name = some shown
  isMember : shown.isMember = true

/-- A concrete subtype of a type declares a member of some name. -/
structure Declares (schema : Schema) (owner actual : TypeId) (name : String) (own : Field) : Prop extends
    schema.Shows actual name own where
  descendant : actual ∈ (schema.type owner).descendants
  declaring : own.declaring = actual

end Schema

namespace Completion

theorem resolver_of_attached {description : Value} {field : Field} {name : String}
    (h : Introspection.resolverOver description field = .member name) : field.resolver = .member name := by
  unfold Introspection.resolverOver at h
  split at h
  · cases h
  · split at h
    · cases h
    · exact h

namespace Origin

variable {context : Merge.Context} {built : Schema} (h : Origin context built)

include h

/-- A field that a type shows has been declared under its name. -/
theorem declared_of_lookup {type : TypeId} {name : String} {field : Field}
    (hlookup : (Introspection.attach built).lookupField? type name = some field) :
    (built.type type).fields.lookup name = some field.id ∧
      ∃ declared target, context.draft.fields[field.id]? = some declared ∧ declared.name = name ∧
      context.field field.id = completeField field.id declared target ∧
      field = { completeField field.id declared target with
        resolver := Introspection.resolverOver (Introspection.describe built)
          (completeField field.id declared target) } := by
  have hlt : type < built.types.length := (h.wellFormed.shown_of_lookup hlookup).1
  obtain ⟨id, hentry, rfl⟩ := Option.map_eq_some_iff.mp hlookup
  change (built.type type).fields.lookup name = some id at hentry
  obtain ⟨origin, horigin, hname⟩ := (h.typeOf hlt).sound.lookup _ (Keyed.mem_of_lookup hentry)
  obtain ⟨declared, target, hdeclared, _, rfl⟩ := h.fields.declared id origin horigin
  have hget : context.field id = completeField id declared target := by
    rw [Merge.Context.field, List.getD_eq_getElem?_getD, horigin]
    rfl
  have hfield := h.field_attach horigin
  dsimp only at hfield
  rw [hfield]
  exact ⟨hentry, declared, target, hdeclared, hname, hget, rfl⟩

/-- Fields of one name and one declaring type are the same. -/
theorem eq_of_declaring {first second : TypeId} {name : String} {a b : Field}
    (ha : (Introspection.attach built).lookupField? first name = some a)
    (hb : (Introspection.attach built).lookupField? second name = some b)
    (hdeclaring : a.declaring = b.declaring) : a = b := by
  obtain ⟨_, declared, target, hdeclared, hname, hget, heq⟩ := h.declared_of_lookup ha
  obtain ⟨_, declared', target', hdeclared', hname', hget', heq'⟩ := h.declared_of_lookup hb
  have hid : a.id = b.id := by
    refine h.draft.own_names _ _ declared declared' hdeclared hdeclared' ?_ (hname.trans hname'.symm)
    rw [heq, heq'] at hdeclaring
    exact hdeclaring
  rw [hid] at hget heq
  rw [← hget, hget'] at heq
  exact heq.trans heq'.symm

/-- A member that a type shows under a name has been declared as one. -/
theorem member_of_shows {type : TypeId} {name : String} {field : Field}
    (hshows : (Introspection.attach built).Shows type name field) :
    (context.field field.id).name = name ∧ (context.field field.id).isPost = false ∧
      (context.field field.id).isTypename = false := by
  obtain ⟨_, declared, target, _, hname, hget, heq⟩ := h.declared_of_lookup hshows.lookup
  obtain ⟨member, hresolver⟩ := Field.resolver_of_isMember hshows.isMember
  rw [heq] at hresolver
  have hdeclared := resolver_of_attached hresolver
  rw [hget, Field.isPost, Field.isTypename, hdeclared]
  exact ⟨hname, rfl, rfl⟩

/-- A composite type shows the first of the fields of each name that are offered to it. -/
theorem folded {owner : TypeId} (howner : owner < built.types.length)
    (hcomposite : (built.type owner).isLeaf = false) :
    Merge.Folded context (Merge.offered context owner)
      ⟨(built.type owner).fields, (built.type owner).projection⟩ := by
  have hget := List.getElem?_eq_getElem howner
  rw [Schema.type_eq hget] at hcomposite ⊢
  rw [SchemaType.isLeaf, (h.types owner _ hget).kind_eq] at hcomposite
  have htype := h.completed owner _ hget
  rcases @completeType_cases context h.draft h.fields owner with
    ⟨hleaf, _⟩ | ⟨_, ⟨type, htype', hfolded⟩ | ⟨⟨error, herror⟩, _⟩⟩
  · rw [hcomposite] at hleaf
    cases hleaf
  · cases htype.symm.trans htype'
    exact hfolded
  · rw [herror] at htype
    cases htype

/-- A member that a concrete subtype declares is offered to the type. -/
theorem offered_own {owner actual : TypeId} (howner : owner < built.types.length) {name : String} {own : Field}
    (hown : (Introspection.attach built).Declares owner actual name own) :
    own.id ∈ Merge.offered context owner := by
  obtain ⟨_, declared, target, hdeclared, _, _, heq⟩ := h.declared_of_lookup hown.lookup
  obtain ⟨above, hkind⟩ := (h.mem_descendants_iff howner).mp hown.descendant
  have howned : declared.owner = actual := by
    have hdeclaring := hown.declaring
    rw [heq] at hdeclaring
    exact hdeclaring
  have hmem : own.id ∈ (context.draft.type actual).fields :=
    h.draft.mem_own_iff.mpr ⟨declared, hdeclared, howned⟩
  refine Merge.mem_offered_iff.mpr ⟨actual, ?_, hmem, fun htypename => ?_⟩
  · rw [h.prepared.mem_sources_iff (h.length ▸ howner)]
    refine ⟨⟨actual, ?_, .refl⟩, Or.inr (hkind ▸ nofun)⟩
    exact (h.prepared.mem_supertypesOf_iff.mp above).to_reflTransGen
  · rw [(h.member_of_shows hown.toShows).2.2] at htypename
    cases htypename

end Origin

end Completion

namespace Schema

variable {schema : Schema} (h : schema.Completed) {owner actual : TypeId} {name : String} {own shown : Field}
  (howner : owner < schema.types.length) (hcomposite : (schema.type owner).isLeaf = false)

include h

/-- A type that declares the field which is shown under a name declares no other one of that name. -/
theorem Declares.eq_shown (hown : schema.Declares owner actual name own)
    (hshown : schema.lookupField? owner name = some shown) (hdeclaring : shown.declaring = actual) :
    shown = own := by
  obtain ⟨context, built, horigin, rfl⟩ := h.exists_origin
  exact horigin.eq_of_declaring hshown hown.lookup (hdeclaring.trans hown.declaring.symm)

include howner hcomposite

/-- Members that concrete subtypes declare are merged into a type, so that it shows a field of their name. -/
theorem Declares.exists_shown (hown : schema.Declares owner actual name own) :
    ∃ shown, schema.lookupField? owner name = some shown := by
  obtain ⟨context, built, horigin, rfl⟩ := h.exists_origin
  obtain ⟨first, hfirst⟩ := Merge.firstOf_isSome (horigin.offered_own howner hown)
  rw [(horigin.member_of_shows hown.toShows).1, ← (horigin.folded howner hcomposite).lookup name] at hfirst
  exact ⟨_, Option.map_eq_some_iff.mpr ⟨first, hfirst, rfl⟩⟩

/-- Records of the type have slots for all of them. -/
theorem Declares.slot (hown : schema.Declares owner actual name own) :
    ((schema.type owner).projection.slotFor? own.id).isSome = true := by
  obtain ⟨context, built, horigin, rfl⟩ := h.exists_origin
  exact ((horigin.folded howner hcomposite).slots own.id).mpr
    ⟨horigin.offered_own howner hown, (horigin.member_of_shows hown.toShows).2.1⟩

/-- Records of a type have a slot for each member that it shows. -/
theorem Shows.slot (hshown : schema.Shows owner name shown) :
    ((schema.type owner).projection.slotFor? shown.id).isSome = true := by
  obtain ⟨context, built, horigin, rfl⟩ := h.exists_origin
  have hfolded := horigin.folded howner hcomposite
  refine (hfolded.slots shown.id).mpr ⟨?_, (horigin.member_of_shows hshown).2.1⟩
  exact (Merge.firstOf_mem ((hfolded.lookup name).symm.trans (horigin.declared_of_lookup hshown.lookup).1)).1

end Schema

end GraphQuery
