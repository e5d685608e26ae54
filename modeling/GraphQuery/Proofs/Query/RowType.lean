import GraphQuery.Proofs.Query.Binding
import GraphQuery.Proofs.Query.Record
import GraphQuery.Proofs.Schema.Merging

/-! The types of rows. A row carries the shape of one type. It has the shapes of exactly this type and of
its supertypes, and since subtypes with more supertypes are tested first, any type that it is a row of gives
it the name of its own type. -/

namespace GraphQuery

open Relation (TransGen ReflTransGen)

/-! ### Shapes -/

namespace Completion

theorem stable_shapesPlaced : Stable Draft.ShapesPlaced where
  shape h hok := by
    obtain ⟨_, _, hnew, _, _, rfl⟩ := Draft.declareShape_ok hok
    exact h.pushType _ hnew
  field {draft _ owner _ _} h _ hok := by
    obtain ⟨type, _, _, _, htype, _, _, _, _, _, rfl⟩ := Draft.insertField_ok hok
    exact h.congr rfl (@Draft.map_setType _ draft owner type { type with fields := type.fields ++ [_] }
      (fun type => type.shape.name) htype rfl)

theorem Stable.and {holds holds' : Draft → Prop} (h : Stable holds) (h' : Stable holds') :
    Stable fun draft => holds draft ∧ holds' draft where
  shape hdraft hok := ⟨h.shape hdraft.1 hok, h'.shape hdraft.2 hok⟩
  field hdraft hspec hok := ⟨h.field hdraft.1 hspec hok, h'.field hdraft.2 hspec hok⟩

/-- What a completed schema has been built from. -/
structure Origin (context : Merge.Context) (built : Schema) : Prop extends BuiltFrom context built where
  prepared : Prepared context
  shapes : context.draft.ShapesPlaced
  completed : ∀ (id : TypeId) (type : SchemaType), built.types[id]? = some type →
    completeType context id = .ok type

end Completion

open Completion in
/-- A completed schema is built from the draft that completion leaves of the declarations. -/
theorem Schema.Completed.exists_run {schema : Schema} (h : schema.Completed) :
    ∃ declarations draft context built, Draft.start.declareAll declarations = .ok draft ∧
      ExceptT.run (do registerIntrospection; addTypenames : DraftM Unit) { draft with completed := true } =
        (.ok (), context.draft) ∧
      build context.draft = .ok built ∧ Origin context built ∧ schema = Introspection.attach built := by
  obtain ⟨declarations, draft, hdeclared, hcomplete⟩ := h
  obtain ⟨grown, built, hrun, hbuilt, rfl⟩ := complete_run hcomplete
  have hsteps := ensures_declarations (stable_consistent.and stable_shapesPlaced) { draft with completed := true }
    ⟨(Draft.consistent_declareAll hdeclared).congr rfl rfl rfl rfl rfl, (Draft.shapes_declareAll hdeclared).1⟩
  rw [hrun] at hsteps
  obtain ⟨⟨hgrown, hshapes⟩, _⟩ := hsteps
  obtain ⟨context, hfrom, hprepared, rfl, htypes⟩ := build_context hgrown hbuilt
  exact ⟨declarations, draft, context, built, hdeclared, hrun, hbuilt, ⟨hfrom, hprepared, hshapes, htypes⟩, rfl⟩

theorem Schema.Completed.exists_origin {schema : Schema} (h : schema.Completed) :
    ∃ context built, Completion.Origin context built ∧ schema = Introspection.attach built := by
  obtain ⟨_, _, context, built, _, _, _, horigin, heq⟩ := h.exists_run
  exact ⟨context, built, horigin, heq⟩

/-- What holds of every draft to be completed and stays true meanwhile holds of the draft that a completed
schema has been built from. -/
theorem Schema.Completed.exists_origin_keeping {schema : Schema} (h : schema.Completed) {holds : Draft → Prop}
    (hstable : Completion.Stable holds)
    (hstart : ∀ declarations draft, Draft.start.declareAll declarations = .ok draft →
      holds { draft with completed := true }) :
    ∃ context built, Completion.Origin context built ∧ schema = Introspection.attach built ∧
      holds context.draft := by
  obtain ⟨declarations, draft, context, built, hdeclared, hrun, _, horigin, heq⟩ := h.exists_run
  have hsteps := (Completion.ensures_declarations hstable _ (hstart declarations draft hdeclared)).1
  rw [hrun] at hsteps
  exact ⟨context, built, horigin, heq, hsteps⟩

namespace Completion

open Hierarchy (Names parentsOf)

theorem Prepared.acyclic {context : Merge.Context} (h : Prepared context) (id : TypeId) :
    id ∉ context.supertypesOf id := by
  intro hmem
  have hcycle := h.mem_supertypesOf_iff.mp hmem
  have hlt : id < context.supertypes.length := by
    by_contra hge
    rw [Merge.Context.supertypesOf, List.getD_eq_default _ _ (Nat.le_of_not_lt hge)] at hmem
    cases hmem
  have hfound := Hierarchy.supertypes?_of_lt h.supertypes hlt
  rw [Hierarchy.supertypes?_eq_none_iff.mpr hcycle] at hfound
  cases hfound

/-- A type has more supertypes than each of these. -/
theorem Prepared.length_supertypesOf_lt {context : Merge.Context} (h : Prepared context) {sub sup : TypeId}
    (hsup : sup ∈ context.supertypesOf sub) :
    (context.supertypesOf sup).length < (context.supertypesOf sub).length := by
  have hnodup : (context.supertypesOf sup).Nodup := by
    by_cases hlt : sup < context.supertypes.length
    · exact Hierarchy.nodup_supertypes? (Hierarchy.supertypes?_of_lt h.supertypes hlt)
    · rw [Merge.Context.supertypesOf, List.getD_eq_default _ _ (Nat.le_of_not_lt hlt)]
      exact List.nodup_nil
  have hsubset : sup :: context.supertypesOf sup ⊆ context.supertypesOf sub := by
    refine List.cons_subset.mpr ⟨hsup, fun above habove => ?_⟩
    exact Hierarchy.supertypes_trans h.supertypes hsup habove
  exact (List.subperm_of_subset (List.nodup_cons.mpr ⟨h.acyclic sup, hnodup⟩) hsubset).length_le

namespace Origin

variable {context : Merge.Context} {built : Schema} (h : Origin context built) {row : Value}

include h

/-- A shape is that of one type. -/
theorem eq_of_shape {a b : TypeId} (ha : a < built.types.length) (hb : b < built.types.length)
    (hname : (context.draft.type a).shape.name = (context.draft.type b).shape.name) : a = b := by
  have hplace {id : TypeId} (hid : id < built.types.length) :
      context.draft.byShape.lookup (context.draft.type id).shape.name = some id := by
    rw [h.length] at hid
    refine (h.shapes _ _).mpr ?_
    rw [Draft.shapeNames, List.getElem?_map, List.getElem?_eq_getElem hid, Draft.type,
      List.getD_eq_getElem?_getD, List.getElem?_eq_getElem hid]
    rfl
  have hsame := hplace ha
  rw [hname, hplace hb, Option.some.injEq] at hsame
  exact hsame.symm

/-- A row has the shapes of its own type and of the supertypes of that. -/
theorem hasShape_iff {actual id : TypeId} (hactual : actual < built.types.length)
    (hid : id < built.types.length) (hshape : row.shape? = some (built.type actual).shape.name) :
    row.hasShape (shapesOf context id) = true ↔ built.isSubtype actual id = true := by
  have hname {id : TypeId} (hid : id < built.types.length) :
      (built.type id).shape = (context.draft.type id).shape := (h.typeOf hid).shape_eq
  rw [hname hactual] at hshape
  rw [Value.hasShape, hshape, List.contains_iff_mem, shapesOf, List.mem_map, h.isSubtype_iff]
  constructor
  · rintro ⟨sub, hsub, hsame⟩
    have hlt : sub < built.types.length := by
      rcases List.mem_cons.mp hsub with rfl | hsub
      · exact hid
      · exact h.subtypes_lt id sub hsub
    cases h.eq_of_shape hlt hactual hsame
    exact (List.mem_cons.mp hsub).imp_right (h.mem_subtypesOf_iff hid _).mp
  · intro habove
    refine ⟨actual, List.mem_cons.mpr (habove.imp_right (h.mem_subtypesOf_iff hid _).mpr), rfl⟩

/-- A concrete subtype is a proper one, and an object. -/
theorem mem_descendants_iff {owner actual : TypeId} (howner : owner < built.types.length) :
    actual ∈ (built.type owner).descendants ↔
      owner ∈ context.supertypesOf actual ∧ (context.draft.type actual).kind = .object := by
  rw [(h.typeOf howner).descendants_eq, concreteSubtypes, (Sort.perm_stable _ _).mem_iff, List.mem_filter,
    beq_iff_eq, h.mem_subtypesOf_iff howner]

theorem lt_of_descendant {owner actual : TypeId} (howner : owner < built.types.length)
    (hactual : actual ∈ (built.type owner).descendants) : actual < built.types.length := by
  refine h.subtypes_lt owner actual ((h.mem_subtypesOf_iff howner actual).mpr ?_)
  exact ((h.mem_descendants_iff howner).mp hactual).1

/-- Of the concrete subtypes whose shapes a row has, its own type is tested first. -/
theorem find?_descendants {owner actual : TypeId} (howner : owner < built.types.length)
    (hactual : actual ∈ (built.type owner).descendants)
    (hshape : row.shape? = some (built.type actual).shape.name) :
    ((concreteSubtypes context owner).find? fun id => row.hasShape (shapesOf context id)) = some actual := by
  rw [← (h.typeOf howner).descendants_eq]
  have hlt := h.lt_of_descendant howner hactual
  have hown := (h.hasShape_iff hlt hlt hshape).mpr ((h.isSubtype_iff actual actual).mpr (Or.inl rfl))
  cases hfound : (built.type owner).descendants.find? fun id => row.hasShape (shapesOf context id) with
  | none => exact absurd hown (List.find?_eq_none.mp hfound actual hactual)
  | some found =>
      obtain ⟨hfoundShape, before, after, hsplit, hbefore⟩ := List.find?_eq_some_iff_append.mp hfound
      have hfoundMem : found ∈ (built.type owner).descendants := List.mem_of_find?_eq_some hfound
      have habove := (h.isSubtype_iff _ _).mp
        ((h.hasShape_iff hlt (h.lt_of_descendant howner hfoundMem) hshape).mp hfoundShape)
      by_contra hne
      have hproper : found ∈ context.supertypesOf actual :=
        habove.resolve_left fun heq => hne (congrArg some heq.symm)
      -- the type of the row would stand after one of its supertypes, which has fewer of them
      have hafter : actual ∈ after := by
        rw [hsplit, List.mem_append, List.mem_cons] at hactual
        rcases hactual with hmem | rfl | hmem
        · have hlacks := hbefore actual hmem
          rw [hown] at hlacks
          cases hlacks
        · exact absurd rfl hne
        · exact hmem
      have hsorted := @Sort.pairwise_stable _
        (fun a b => decide ((context.supertypesOf b).length < (context.supertypesOf a).length))
        (fun a b => by simp only [decide_eq_true_iff, decide_eq_false_iff_not]; omega)
        (fun a b c => by simp only [decide_eq_false_iff_not]; omega)
        ((context.subtypesOf owner).filter fun id => (context.draft.type id).kind == .object)
      change (concreteSubtypes context owner).Pairwise _ at hsorted
      rw [← (h.typeOf howner).descendants_eq, hsplit, List.pairwise_append] at hsorted
      have hfewer := (List.pairwise_cons.mp hsorted.2.1).1 actual hafter
      rw [decide_eq_false_iff_not] at hfewer
      exact hfewer (h.prepared.length_supertypesOf_lt hproper)

end Origin

end Completion

namespace Schema

variable {schema : Schema} (h : schema.Completed) {row : Value}

include h

/-- A row has the shapes of its own type and of the supertypes of that. -/
theorem hasShape_iff {actual id : TypeId} (hactual : actual < schema.types.length) (hid : id < schema.types.length)
    (hshape : row.shape? = some (schema.type actual).shape.name) :
    row.hasShape (schema.type id).shapes = true ↔ schema.isSubtype actual id = true := by
  obtain ⟨context, built, horigin, rfl⟩ := h.exists_origin
  change row.hasShape (built.type id).shapes = true ↔ _
  rw [(horigin.typeOf hid).shapes_eq]
  exact horigin.hasShape_iff hactual hid hshape

/-- A concrete subtype of a type is another type of the schema, and a subtype of that type. -/
theorem of_descendant {owner actual : TypeId} (howner : owner < schema.types.length)
    (hactual : actual ∈ (schema.type owner).descendants) :
    actual < schema.types.length ∧ actual ≠ owner ∧ schema.isSubtype actual owner = true := by
  obtain ⟨context, built, horigin, rfl⟩ := h.exists_origin
  have habove := ((horigin.mem_descendants_iff howner).mp hactual).1
  refine ⟨horigin.lt_of_descendant howner hactual, ?_, (horigin.isSubtype_iff _ _).mpr (Or.inr habove)⟩
  rintro rfl
  exact horigin.prepared.acyclic _ habove

/-- A type gives a row of one of its concrete subtypes the name of that. -/
theorem rowTypeName_of_shape {owner actual : TypeId} (howner : owner < schema.types.length)
    (hactual : actual ∈ (schema.type owner).descendants)
    (hshape : row.shape? = some (schema.type actual).shape.name) :
    (schema.type owner).rowTypeName row = (schema.type actual).name := by
  obtain ⟨context, built, horigin, rfl⟩ := h.exists_origin
  have hlt := horigin.lt_of_descendant howner hactual
  change (built.type owner).rowTypeName row = (built.type actual).name
  rw [SchemaType.rowTypeName, Plan.eval, (horigin.typeOf howner).typename_eq,
    Completion.evalIn_typenamePlan, horigin.find?_descendants howner hactual hshape, (horigin.typeOf hlt).name_eq]
  rfl

end Schema

end GraphQuery
