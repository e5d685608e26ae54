import GraphQuery.Proofs.Schema.Search
import GraphQuery.Proofs.Schema.WellFormed
import Mathlib.Data.List.GetD

/-! Subtypes. The search for the supertypes of a type ends with all of them. Hence subtypes of subtypes
are subtypes, a subtype has no shape that its supertypes lack, and a row whose type is found to be a
subtype has a shape of that subtype. -/

namespace GraphQuery

namespace Hierarchy

theorem supertypes?_of_lt {draft : Draft} {relations : List Relations} {all : List (List TypeId)}
    (h : supertypes draft relations = .ok all) {id : TypeId} (hlt : id < all.length) :
    supertypes? relations id = some (all.getD id []) := by
  have hget : all[id]? = some (all.getD id []) := by
    rw [List.getD_eq_getElem?_getD, List.getElem?_eq_getElem hlt, Option.getD_some]
  have hlength := Outcome.length_of_mapM h
  rw [List.length_range] at hlength
  have hstep := Outcome.step_of_mapM h (List.getElem?_range (hlength ▸ hlt)) hget
  split at hstep
  · next found hfound =>
      cases hstep
      exact hfound
  · cases hstep

/-- The supertypes of a type are all that its parents lead to. -/
theorem mem_supertypes_iff {draft : Draft} {relations : List Relations} {all : List (List TypeId)}
    (h : supertypes draft relations = .ok all) {id sup : TypeId} :
    sup ∈ all.getD id [] ↔ Relation.TransGen (Names (parentsOf relations)) id sup := by
  by_cases hlt : id < all.length
  · exact mem_supertypes?_iff (supertypes?_of_lt h hlt)
  · have hlength := Outcome.length_of_mapM h
    rw [List.length_range] at hlength
    rw [List.getD_eq_default _ _ (Nat.le_of_not_lt hlt)]
    refine iff_of_false List.not_mem_nil fun habove => ?_
    obtain ⟨parent, hparent, _⟩ := Relation.TransGen.head'_iff.mp habove
    rw [Names, parentsOf, List.getD_eq_default _ _ (hlength ▸ Nat.le_of_not_lt hlt)] at hparent
    cases hparent

/-- Supertypes of supertypes are supertypes. -/
theorem supertypes_trans {draft : Draft} {relations : List Relations} {all : List (List TypeId)}
    (h : supertypes draft relations = .ok all) {a b c : TypeId} (hb : b ∈ all.getD a [])
    (hc : c ∈ all.getD b []) : c ∈ all.getD a [] := by
  rw [mem_supertypes_iff h] at hb hc ⊢
  exact hb.trans hc

end Hierarchy

/-- Subtypes are the converse of supertypes. -/
theorem Merge.mem_subtypesOf_iff {context : Context} {count : Nat}
    (h : context.subtypes = (List.range count).map (Completion.subtypesOf context.supertypes)) {id : TypeId}
    (hid : id < count) (sub : TypeId) : sub ∈ context.subtypesOf id ↔ id ∈ context.supertypesOf sub := by
  rw [Context.subtypesOf, h, List.getD_eq_getElem?_getD, List.getElem?_map, List.getElem?_range hid]
  simp only [Option.map_some, Option.getD_some, Completion.subtypesOf, List.mem_filter, List.mem_range,
    List.contains_iff_mem, Context.supertypesOf]
  refine and_iff_right_of_imp fun hmem => ?_
  by_contra hge
  rw [List.getD_eq_default _ _ (Nat.le_of_not_lt hge)] at hmem
  cases hmem

/-- What is known of subtypes. -/
structure Schema.Hierarchical (schema : Schema) : Prop where
  trans : ∀ {a b c : TypeId}, schema.isSubtype a b = true → schema.isSubtype b c = true →
    schema.isSubtype a c = true
  shapes : ∀ {a b : TypeId}, schema.isSubtype a b = true → b < schema.types.length →
    (schema.type a).shapes ⊆ (schema.type b).shapes
  typename : ∀ type ∈ schema.types, ∀ row, ∃ actual ∈ schema.types,
    (actual = type ∨ row.hasShape actual.shapes = true) ∧
      type.typename.eval .inProcess row = .ok (.string actual.name)
  declaring_lt : ∀ field ∈ schema.fields, field.declaring < schema.types.length

namespace Completion

section

variable {context : Merge.Context} {built : Schema} (h : BuiltFrom context built)

include h

theorem BuiltFrom.supertypesOf_eq (id : TypeId) :
    (built.type id).supertypes = context.supertypesOf id := by
  by_cases hlt : id < built.types.length
  · have hget := List.getElem?_eq_getElem hlt
    rw [Schema.type_eq hget, (h.types id _ hget).supertypes_eq]
  · have hle : context.supertypes.length ≤ id := by
      rw [Outcome.length_of_mapM h.supertypes, List.length_range]
      exact h.relations_le.trans (Nat.le_of_not_lt hlt)
    rw [Schema.type, List.getD_eq_default _ _ (Nat.le_of_not_lt hlt), Merge.Context.supertypesOf,
      List.getD_eq_default _ _ hle]
    rfl

theorem BuiltFrom.isSubtype_iff (a b : TypeId) :
    built.isSubtype a b = true ↔ a = b ∨ b ∈ context.supertypesOf a := by
  rw [Schema.isSubtype, h.supertypesOf_eq, Bool.or_eq_true, beq_iff_eq, List.contains_iff_mem]

theorem BuiltFrom.mem_subtypesOf_iff {id : TypeId} (hid : id < built.types.length) (sub : TypeId) :
    sub ∈ context.subtypesOf id ↔ id ∈ context.supertypesOf sub :=
  Merge.mem_subtypesOf_iff h.subtypes_eq hid sub

theorem BuiltFrom.isSubtype_trans {a b c : TypeId} (hab : built.isSubtype a b = true)
    (hbc : built.isSubtype b c = true) : built.isSubtype a c = true := by
  rw [h.isSubtype_iff] at hab hbc ⊢
  rcases hab with rfl | hab
  · exact hbc
  · rcases hbc with rfl | hbc
    · exact Or.inr hab
    · exact Or.inr (Hierarchy.supertypes_trans h.supertypes hab hbc)

theorem BuiltFrom.shapes_subset {a b : TypeId} (hab : built.isSubtype a b = true)
    (hb : b < built.types.length) : (built.type a).shapes ⊆ (built.type b).shapes := by
  by_cases ha : a < built.types.length
  · have hget {id : TypeId} (hid : id < built.types.length) :
        (built.type id).shapes = shapesOf context id := by
      have hget := List.getElem?_eq_getElem hid
      rw [Schema.type_eq hget, (h.types id _ hget).shapes_eq]
    rw [hget ha, hget hb]
    refine List.map_subset _ fun id hmem => ?_
    have hsub : built.isSubtype id a = true := by
      rw [h.isSubtype_iff]
      exact (List.mem_cons.mp hmem).imp_right (h.mem_subtypesOf_iff ha id).mp
    rcases (h.isSubtype_iff id b).mp (h.isSubtype_trans hsub hab) with rfl | hmem
    · exact List.mem_cons_self
    · exact List.mem_cons_of_mem _ ((h.mem_subtypesOf_iff hb id).mpr hmem)
  · rw [Schema.type, List.getD_eq_default _ _ (Nat.le_of_not_lt ha)]
    exact List.nil_subset _

theorem BuiltFrom.hierarchical : (Introspection.attach built).Hierarchical where
  trans := h.isSubtype_trans
  shapes := h.shapes_subset
  typename := by
    intro type hmem row
    obtain ⟨id, htype⟩ := List.mem_iff_getElem?.mp hmem
    have hof := h.types id type htype
    obtain ⟨actual, hactual, heval⟩ := eval_typenamePlan context id (concreteSubtypes context id) row
    have hlt : actual < built.types.length := by
      rcases hactual with rfl | ⟨hactual, _⟩
      · exact (List.getElem?_eq_some_iff.mp htype).1
      · exact h.lt_of_concrete hactual
    have hget : built.types[actual]? = some built.types[actual] := List.getElem?_eq_getElem hlt
    refine ⟨built.types[actual], List.getElem_mem hlt, ?_, ?_⟩
    · rcases hactual with rfl | ⟨_, hshape⟩
      · exact Or.inl (Option.some.inj (hget.symm.trans htype))
      · rw [(h.types actual _ hget).shapes_eq]
        exact Or.inr hshape
    · rw [hof.typename_eq, (h.types actual _ hget).name_eq]
      exact heval .inProcess []
  declaring_lt := by
    intro field hmem
    obtain ⟨id, hget⟩ := List.mem_iff_getElem?.mp hmem
    rw [Introspection.attach, List.getElem?_map, Option.map_eq_some_iff, h.fields_eq] at hget
    obtain ⟨origin, horigin, rfl⟩ := hget
    obtain ⟨declared, _, hdeclared, _, rfl⟩ := h.fields.declared id origin horigin
    have hlt := h.draft.owner_lt declared (List.mem_of_getElem? hdeclared)
    rw [← h.length] at hlt
    exact hlt

end

end Completion

namespace Schema

theorem Completed.hierarchical {schema : Schema} (h : schema.Completed) : schema.Hierarchical := by
  obtain ⟨declarations, draft, hdeclared, hcomplete⟩ := h
  obtain ⟨grown, built, hgrown, hbuilt, rfl⟩ :=
    Completion.complete_ok (Draft.consistent_declareAll hdeclared) hcomplete
  obtain ⟨context, hfrom⟩ := Completion.build_ok hgrown hbuilt
  exact hfrom.hierarchical

end Schema

end GraphQuery
