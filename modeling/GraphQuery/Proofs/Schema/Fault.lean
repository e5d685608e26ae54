import GraphQuery.Proofs.Schema.Introspection
import GraphQuery.Proofs.Schema.Subtype

/-! The faults of completion. Where all references are resolved, the hierarchy is worked out unless some
type is its own supertype, in which case completion names the first such type; after that only fields
whose types conflict can make it fail. -/

namespace GraphQuery

namespace Draft

variable {draft grown : Draft} {added : List (TypeId × String)}

theorem Grown.resolve? (h : draft.Grown grown added) (name : String) :
    Hierarchy.resolve? grown name = Hierarchy.resolve? draft name := by
  rw [Hierarchy.resolve?, Hierarchy.resolve?, h.byShape, h.byName]

theorem Grown.shape_mem (h : draft.Grown grown added) {type : DraftType} (hmem : type ∈ grown.types) :
    ∃ origin ∈ draft.types, origin.shape = type.shape := by
  have hbare : type.bare ∈ draft.types.map DraftType.bare := h.types ▸ List.mem_map_of_mem hmem
  obtain ⟨origin, horigin, heq⟩ := List.mem_map.mp hbare
  exact ⟨origin, horigin, (congrArg DraftType.shape heq :)⟩

/-- Fields that refer to known types only leave nothing unresolved. -/
theorem Grown.resolved (h : draft.Grown grown added) (hdraft : draft.Resolved) : grown.Resolved := by
  have hrefers (field : DraftField) (hmem : field ∈ grown.fields) : grown.Refers field := by
    rw [h.refers_iff]
    rcases h.refers field hmem with hold | hrefers
    · exact ⟨Option.isSome_iff_exists.mp (hdraft.target field hold), hdraft.parameter field hold⟩
    · exact hrefers
  constructor
  · exact fun field hmem => Option.isSome_iff_exists.mpr (hrefers field hmem).1
  · exact fun field hmem => (hrefers field hmem).2
  · intro type hmem name hname
    obtain ⟨origin, horigin, hshape⟩ := h.shape_mem hmem
    obtain ⟨id, hid, hkind⟩ := hdraft.ancestor origin horigin name (hshape.symm ▸ hname)
    refine ⟨id, (h.resolve? name).symm ▸ hid, ?_⟩
    rw [DraftType.kind, h.shape]
    exact hkind
  · intro type hmem name hname
    obtain ⟨origin, horigin, hshape⟩ := h.shape_mem hmem
    obtain ⟨id, hid, hkind⟩ := hdraft.interface origin horigin name (hshape.symm ▸ hname)
    refine ⟨id, (h.resolve? name).symm ▸ hid, ?_⟩
    rw [DraftType.kind, h.shape]
    exact hkind

/-- What a draft has grown resolves nothing that was not resolved before. -/
theorem Grown.resolved_iff (h : draft.Grown grown added) :
    grown.Resolved ↔ draft.Resolved := by
  refine ⟨fun hgrown => ?_, h.resolved⟩
  have hmem {type : DraftType} (hmem : type ∈ draft.types) : ∃ other ∈ grown.types, other.shape = type.shape := by
    have hbare : type.bare ∈ grown.types.map DraftType.bare := h.types ▸ List.mem_map_of_mem hmem
    obtain ⟨other, hother, heq⟩ := List.mem_map.mp hbare
    exact ⟨other, hother, (congrArg DraftType.shape heq :)⟩
  have hrefers (field : DraftField) (hfield : field ∈ draft.fields) : draft.Refers field := by
    rw [← h.refers_iff]
    exact ⟨Option.isSome_iff_exists.mp (hgrown.target field (h.kept hfield)),
      hgrown.parameter field (h.kept hfield)⟩
  constructor
  · exact fun field hfield => Option.isSome_iff_exists.mpr (hrefers field hfield).1
  · exact fun field hfield => (hrefers field hfield).2
  · intro type htype name hname
    obtain ⟨other, hother, hshape⟩ := hmem htype
    obtain ⟨id, hid, hkind⟩ := hgrown.ancestor other hother name (hshape.symm ▸ hname)
    refine ⟨id, h.resolve? name ▸ hid, ?_⟩
    rwa [DraftType.kind, h.shape] at hkind
  · intro type htype name hname
    obtain ⟨other, hother, hshape⟩ := hmem htype
    obtain ⟨id, hid, hkind⟩ := hgrown.interface other hother name (hshape.symm ▸ hname)
    refine ⟨id, h.resolve? name ▸ hid, ?_⟩
    rwa [DraftType.kind, h.shape] at hkind

end Draft

/-! ### Supertypes -/

namespace Hierarchy

variable {draft : Draft} {relations : List Relations}

theorem supertypes_ok (h : ∀ id < relations.length, supertypes? relations id ≠ none) :
    ∃ all, supertypes draft relations = .ok all ∧ all.length = relations.length ∧
      ∀ id < relations.length, supertypes? relations id = some (all.getD id []) := by
  have hfound (id : TypeId) (hid : id < relations.length) :
      supertypes? relations id = some ((supertypes? relations id).getD []) := by
    obtain ⟨all, hall⟩ := Option.ne_none_iff_exists'.mp (h id hid)
    rw [hall, Option.getD_some]
  refine ⟨(List.range relations.length).map fun id => (supertypes? relations id).getD [],
    Outcome.mapM_ok_of fun id hmem => ?_, ?_, fun id hid => ?_⟩
  · rw [hfound id (List.mem_range.mp hmem), Option.getD_some]
  · rw [List.length_map, List.length_range]
  · rw [List.getD_eq_getElem?_getD, List.getElem?_map, List.getElem?_range hid]
    exact hfound id hid

/-- The first type that is its own supertype is named. -/
theorem supertypes_cyclic {id : TypeId} (hid : id < relations.length)
    (hcyclic : supertypes? relations id = none)
    (hfirst : ∀ earlier < id, supertypes? relations earlier ≠ none) :
    supertypes draft relations = .error (.cyclicHierarchy (draft.type id).name) := by
  have hsplit : List.range relations.length =
      List.range id ++ id :: (List.range relations.length).drop (id + 1) := by
    have hlength : id < (List.range relations.length).length := by rwa [List.length_range]
    have hdrop := List.drop_eq_getElem_cons hlength
    rw [List.getElem_range] at hdrop
    rw [← hdrop, ← Nat.min_eq_left (Nat.le_of_lt hid), ← List.take_range,
      Nat.min_eq_left (Nat.le_of_lt hid), List.take_append_drop]
  rw [supertypes, hsplit]
  refine Outcome.mapM_error_of (fun earlier hmem => ?_) ?_
  · obtain ⟨all, hall⟩ := Option.ne_none_iff_exists'.mp (hfirst earlier (List.mem_range.mp hmem))
    exact ⟨all, by rw [hall]⟩
  · rw [hcyclic]

end Hierarchy

/-! ### Conflicts -/

/-- A fault of fields whose types conflict. -/
def SchemaError.IsConflict (error : SchemaError) : Prop :=
  ∃ typeName field existing conflicting, error = .fieldTypeConflict typeName field existing conflicting

theorem Merge.addField_error {context : Merge.Context} {owner source : TypeId} {merged : Merge.Merged}
    {id : FieldId} {error : SchemaError} (h : Merge.addField context owner source merged id = .error error) :
    error.IsConflict := by
  unfold Merge.addField at h
  dsimp only at h
  split at h
  · cases h
  · split at h
    · cases h
    · split at h
      · cases h
      · split at h
        · cases h
        · cases h
          exact ⟨_, _, _, _, rfl⟩

theorem Merge.fields_error {context : Merge.Context} {owner : TypeId} {error : SchemaError}
    (h : Merge.fields context owner = .error error) : error.IsConflict := by
  rcases Outcome.bind_error_iff.mp h with hsources | ⟨_, _, hpure⟩
  · obtain ⟨_, _, _, hsource⟩ := Outcome.error_of_foldlM hsources
    obtain ⟨_, _, _, hfield⟩ := Outcome.error_of_foldlM hsource
    exact Merge.addField_error hfield
  · cases hpure

namespace Completion

theorem completeType_error {context : Merge.Context} {id : TypeId} {error : SchemaError}
    (h : completeType context id = .error error) : error.IsConflict := by
  unfold completeType at h
  dsimp only at h
  split at h
  · cases h
  · rcases Outcome.bind_error_iff.mp h with hfields | ⟨_, _, hpure⟩
    · exact Merge.fields_error hfields
    · cases hpure

theorem completeFields_of_resolved {draft : Draft} (h : draft.Resolved) :
    ∃ fields, completeFields draft = .ok fields := by
  have htarget (field : DraftField) (hmem : field ∈ draft.fields) :
      resolveTarget draft field = .ok ((draft.typeId? field.target.typeName).getD 0) := by
    obtain ⟨target, htarget⟩ := Option.isSome_iff_exists.mp (h.target field hmem)
    have hparameters : checkParameters draft (draft.type field.owner).name field = .ok () :=
      Outcome.forM_ok fun parameter hparameter => if_pos (h.parameter field hmem parameter hparameter)
    have hlookup : draft.byName.lookup field.target.typeName = some target := htarget
    simp only [resolveTarget, hlookup, hparameters, htarget]
    rfl
  exact ⟨_, Outcome.bind_ok_iff.mpr ⟨_, Outcome.mapM_ok_of htarget, rfl⟩⟩

section

variable {draft : Draft} {fields : List Field} {relations : List Relations} {error : SchemaError}
  (hfields : completeFields draft = .ok fields) (hrelations : Hierarchy.relations draft = .ok relations)

include hfields hrelations

theorem build_of_supertypes_error (h : Hierarchy.supertypes draft relations = .error error) :
    build draft = .error error := by
  refine Outcome.bind_error_iff.mpr (Or.inr ⟨fields, hfields, ?_⟩)
  refine Outcome.bind_error_iff.mpr (Or.inr ⟨relations, hrelations, ?_⟩)
  exact Outcome.bind_error_iff.mpr (Or.inl h)

/-- Once the supertypes are known, only fields whose types conflict are a fault. -/
theorem isConflict_of_build_error {all : List (List TypeId)}
    (hall : Hierarchy.supertypes draft relations = .ok all) (h : build draft = .error error) :
    error.IsConflict := by
  simp only [build, hfields, hrelations, hall, bind, Except.bind] at h
  split at h
  · next htypes =>
      cases h
      obtain ⟨_, _, htype⟩ := Outcome.error_of_mapM htypes
      exact completeType_error htype
  · cases h

end

end Completion

end GraphQuery
