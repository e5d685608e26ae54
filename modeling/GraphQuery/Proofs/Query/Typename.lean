import GraphQuery.Proofs.Query.Description

/-! The names that types give to rows. A type is asked for the name of a row through a chain of tests whose
sets of shapes overlap. It answers with the name of the type whose shape the row carries, however many of
the supertypes of that are asked for as well. -/

namespace GraphQuery

namespace Completion.Origin

variable {context : Merge.Context} {built : Schema} (h : Origin context built) {row : Value}

include h

/-- A type is known to queries by the name that its shape shows. -/
theorem name_eq_typeName {id : TypeId} (hid : id < built.types.length) :
    (built.type id).name = (built.type id).shape.typeName := by
  rw [(h.typeOf hid).name_eq, (h.typeOf hid).shape_eq]
  rfl

/-- The shapes of a concrete subtype are those of this and of other proper subtypes of the type. -/
theorem exists_proper_of_hasShape {owner sub : TypeId} (howner : owner < built.types.length)
    (hsub : sub ∈ (built.type owner).descendants) (hshape : row.hasShape (shapesOf context sub) = true) :
    ∃ actual < built.types.length, actual ≠ owner ∧ built.isSubtype actual owner = true ∧
      row.shape? = some (built.type actual).shape.name := by
  have hsublt := h.lt_of_descendant howner hsub
  have habove := ((h.mem_descendants_iff howner).mp hsub).1
  rw [Value.hasShape] at hshape
  split at hshape
  · next shape hrow =>
      rw [List.contains_iff_mem, shapesOf, List.mem_map] at hshape
      obtain ⟨actual, hactual, rfl⟩ := hshape
      have hproper : owner ∈ context.supertypesOf actual := by
        rcases List.mem_cons.mp hactual with rfl | hbelow
        · exact habove
        · exact Hierarchy.supertypes_trans h.supertypes ((h.mem_subtypesOf_iff hsublt actual).mp hbelow) habove
      have hlt := h.subtypes_lt owner actual ((h.mem_subtypesOf_iff howner actual).mpr hproper)
      refine ⟨actual, hlt, ?_, (h.isSubtype_iff actual owner).mpr (Or.inr hproper), ?_⟩
      · rintro rfl
        exact h.prepared.acyclic actual hproper
      · rw [hrow, (h.typeOf hlt).shape_eq]
  · cases hshape

end Completion.Origin

namespace Schema

variable {schema : Schema} (h : schema.Completed) {owner : TypeId} (howner : owner < schema.types.length)
  (source : Source) (vars : List (String × Value))

include h

/-- The test for the shapes of a type tells whether a row is one of the type. -/
theorem evalIn_typeIs {target : Plan} {outer row : Value} (htarget : target.evalIn source vars outer = .ok row)
    {actual id : TypeId} (hactual : actual < schema.types.length) (hid : id < schema.types.length)
    (hshape : row.shape? = some (schema.type actual).shape.name) :
    (Plan.typeIs target (schema.type id).shapes).evalIn source vars outer =
      .ok (.bool (schema.isSubtype actual id)) := by
  rw [Plan.evalIn, htarget]
  change Except.ok (Value.bool (row.hasShape (schema.type id).shapes)) = _
  rw [Bool.eq_iff_iff.mpr (hasShape_iff h hactual hid hshape)]

include howner

theorem evalIn_typename_of_shape {row : Value} {actual : TypeId} (hactual : actual ∈ (schema.type owner).descendants)
    (hshape : row.shape? = some (schema.type actual).shape.name) :
    (schema.type owner).typename.evalIn source vars row = .ok (.string (schema.type actual).name) := by
  obtain ⟨context, built, horigin, rfl⟩ := h.exists_origin
  have hlt := horigin.lt_of_descendant howner hactual
  change (built.type owner).typename.evalIn source vars row = .ok (.string (built.type actual).name)
  rw [(horigin.typeOf howner).typename_eq, Completion.evalIn_typenamePlan,
    horigin.find?_descendants howner hactual hshape, (horigin.typeOf hlt).name_eq]
  rfl

theorem evalIn_typename_of_other {row : Value} (hother : ∀ sub < schema.types.length, sub ≠ owner →
      schema.isSubtype sub owner = true → row.shape? ≠ some (schema.type sub).shape.name) :
    (schema.type owner).typename.evalIn source vars row = .ok (.string (schema.type owner).name) := by
  obtain ⟨context, built, horigin, rfl⟩ := h.exists_origin
  have hnone : ((Completion.concreteSubtypes context owner).find? fun id =>
      row.hasShape (Completion.shapesOf context id)) = none := by
    rw [List.find?_eq_none, ← (horigin.typeOf howner).descendants_eq]
    intro sub hsub hshape
    obtain ⟨actual, hactual, hne, hbelow, hrow⟩ := horigin.exists_proper_of_hasShape howner hsub hshape
    exact hother actual hactual hne hbelow hrow
  change (built.type owner).typename.evalIn source vars row = .ok (.string (built.type owner).name)
  rw [(horigin.typeOf howner).typename_eq, Completion.evalIn_typenamePlan, hnone, (horigin.typeOf howner).name_eq]
  rfl

/-- A type names the type of each row. Asked for the name of a row whose shape is that of an object among its
proper subtypes, it gives the name that this object type shows, which no other type has; asked for that of a
row which carries no shape of a proper subtype, it gives its own. The test for the shapes of a type holds of a
row if and only if the type of the row is that type or a subtype of it. -/
theorem typename_names_runtime_type (row : Value) :
    (∀ actual < schema.types.length, actual ≠ owner → schema.isSubtype actual owner = true →
      (schema.type actual).kind = .object → row.shape? = some (schema.type actual).shape.name →
      (schema.type owner).typename.evalIn source vars row = .ok (.string (schema.type actual).name) ∧
      (schema.type actual).name = (schema.type actual).shape.typeName ∧
      ∀ other < schema.types.length, (schema.type other).name = (schema.type actual).name → other = actual) ∧
    ((∀ sub < schema.types.length, sub ≠ owner → schema.isSubtype sub owner = true →
        row.shape? ≠ some (schema.type sub).shape.name) →
      (schema.type owner).typename.evalIn source vars row = .ok (.string (schema.type owner).name)) ∧
    ∀ id < schema.types.length, ∀ actual < schema.types.length,
      row.shape? = some (schema.type actual).shape.name →
      (Plan.typeIs .row (schema.type id).shapes).evalIn source vars row =
        .ok (.bool (schema.isSubtype actual id)) := by
  refine ⟨?_, evalIn_typename_of_other h howner source vars, ?_⟩
  · intro actual hactual hne hsub hkind hshape
    obtain ⟨context, built, horigin, heq⟩ := h.exists_origin
    have hdescendant : actual ∈ (schema.type owner).descendants := by
      rw [heq] at howner hsub hkind ⊢
      exact (horigin.mem_descendants_iff_isSubtype howner).mpr ⟨hne, hsub, hkind⟩
    refine ⟨evalIn_typename_of_shape h howner source vars hdescendant hshape, ?_, fun other hother hname => ?_⟩
    · rw [heq] at hactual ⊢
      exact horigin.name_eq_typeName hactual
    · exact h.wellFormed.eq_of_name hother hactual hname
  · intro id hid actual hactual hshape
    exact evalIn_typeIs h source vars rfl hactual hid hshape

end Schema

/-- Declarations of a stable: the shape `Horse` is shown as ponies, and the shape `Pony`, which extends it, as
horses. -/
def Declaration.stable : List Declaration :=
  [.type (.ofKind .interface "Animal"), .type ⟨"Horse", some "Pony", none, ["Animal"], .object⟩,
    .type ⟨"Pony", some "Horse", some "Horse", ["Animal"], .object⟩, .field 7 (.plain "name" "String")]

/-- The schema of a stable: types 7 to 9 are animals and the two shapes. -/
def Schema.stable : Schema :=
  ((Draft.start.declareAll Declaration.stable).bind fun draft => draft.complete.1).toOption.get
    (by decide +kernel)

theorem Schema.stable_completed : Schema.stable.Completed :=
  Schema.completed_of_toOption (Option.some_get _).symm

/-- An animal of the shape `Pony` is a horse, and one of the shape `Toad` just an animal. -/
theorem Schema.stable_names_runtime_type :
    Schema.stable.Completed ∧ 7 < Schema.stable.types.length ∧
      (Schema.stable.type 7).typename.evalIn .inProcess [] (.object [("__shape", .string "Pony")]) =
        .ok (.string "Horse") ∧
      (Schema.stable.type 7).typename.evalIn .inProcess [] (.object [("__shape", .string "Toad")]) =
        .ok (.string "Animal") ∧
      (Plan.typeIs .row (Schema.stable.type 8).shapes).evalIn .inProcess [] (.object [("__shape", .string "Pony")]) =
        .ok (.bool true) := by
  have hplaces : Schema.stable.types.length = 14 ∧ Schema.stable.isSubtype 9 7 = true ∧
      Schema.stable.isSubtype 9 8 = true ∧ (Schema.stable.type 9).kind = .object ∧
      (Schema.stable.type 9).shape.name = "Pony" ∧ (Schema.stable.type 9).name = "Horse" ∧
      (Schema.stable.type 7).name = "Animal" ∧
      ∀ type ∈ Schema.stable.types, type.shape.name ≠ "Toad" := by
    decide +kernel
  obtain ⟨hlength, hanimal, hhorse, hkind, hshape, hname, hown, htoad⟩ := hplaces
  have hlt : 7 < Schema.stable.types.length := by rw [hlength]; decide
  have hpony : 9 < Schema.stable.types.length := by rw [hlength]; decide
  have hrow : Value.shape? (.object [("__shape", .string "Pony")]) = some (Schema.stable.type 9).shape.name := by
    rw [hshape]
    rfl
  obtain ⟨hnames, _, htests⟩ := typename_names_runtime_type stable_completed hlt .inProcess []
    (.object [("__shape", .string "Pony")])
  obtain ⟨_, hother, _⟩ := typename_names_runtime_type stable_completed hlt .inProcess []
    (.object [("__shape", .string "Toad")])
  refine ⟨stable_completed, hlt, ?_, ?_, ?_⟩
  · rw [(hnames 9 hpony (by decide) hanimal hkind hrow).1, hname]
  · rw [hother, hown]
    intro sub hsub _ _ hsome
    exact htoad _ (type_mem hsub) (Option.some.inj hsome).symm
  · rw [htests 8 (by rw [hlength]; decide) 9 hpony hrow, hhorse]

end GraphQuery
