import GraphQuery.Proofs.Schema.Declaration

/-! Completed schemas. Completion declares the types and fields of introspection and the names of types
on a consistent draft, and builds the schema from what it then holds: every place of the schema is the
place of a declaration. -/

namespace GraphQuery.Completion

open Outcome (Ensures)

theorem run_declaring {α : Type} (declaration : Draft → Except SchemaError (α × Draft)) (draft : Draft) :
    (declaring declaration).run draft = match declaration draft with
      | .ok (result, grown) => (.ok result, grown)
      | .error error => (.error error, draft) :=
  rfl

theorem run_declaring_ok {α : Type} {declaration : Draft → Except SchemaError (α × Draft)} {draft grown : Draft}
    {result : α} (h : (declaring declaration).run draft = (.ok result, grown)) :
    declaration draft = .ok (result, grown) := by
  rw [run_declaring] at h
  split at h
  · next hok =>
      cases h
      exact hok
  · cases h

/-- The fields that completion declares: those of the types of introspection, the root fields and the names
of types. -/
inductive Brings : FieldSpec → Prop where
  | member {type : String × List (String × String)} {field : String × String} :
      type ∈ Introspection.types → field ∈ type.2 → Brings (.plain field.1 field.2)
  | root {spec : FieldSpec} : spec ∈ Introspection.rootFields .null → Brings spec
  | typename : Brings typenameSpec

/-- Introspection brings no field of the name of the field for type names. -/
theorem introspection_names :
    ∀ type ∈ Introspection.types, ∀ field ∈ type.2, field.1 ≠ typenameKey := by
  decide

/-- The root fields of introspection bear reserved names other than that of the field for type names, and their
plans are constants that depend on nothing but the arguments. -/
theorem rootFields_constant {spec : FieldSpec} (h : spec ∈ Introspection.rootFields .null) :
    Text.isReserved spec.name = true ∧ spec.name ≠ typenameKey ∧ ∃ value : Arguments → Value,
      spec.resolver? = some (.plan fun _ arguments => .ok (.const (value arguments))) := by
  simp only [Introspection.rootFields, List.mem_cons, List.not_mem_nil, or_false] at h
  rcases h with rfl | rfl
  · exact ⟨by decide, by decide, _, rfl⟩
  · exact ⟨by decide, by decide, _, rfl⟩

/-- What completion declares under the name of the field for type names is resolved as one. -/
theorem Brings.resolver_of_name {spec : FieldSpec} (h : Brings spec) (hname : spec.name = typenameKey) :
    spec.resolver? = some .typename := by
  cases h with
  | member htype hfield => exact absurd hname (introspection_names _ htype _ hfield)
  | root hspec => exact absurd hname (rootFields_constant hspec).2.1
  | typename => rfl

/-- What stays true of a draft when completion declares a type or a field. -/
structure Stable (holds : Draft → Prop) : Prop where
  shape : ∀ {draft grown : Draft} {shape : Shape} {id : TypeId}, holds draft →
    draft.declareShape shape = .ok (id, grown) → holds grown
  field : ∀ {draft grown : Draft} {owner : TypeId} {spec : FieldSpec} {id : FieldId}, holds draft →
    Brings spec → draft.insertField owner spec = .ok (id, grown) → holds grown

theorem stable_consistent : Stable Draft.Consistent :=
  ⟨fun hdraft hok => hdraft.declareShape hok, fun hdraft hspec hok => hdraft.insertField hspec.resolver_of_name hok⟩

section

variable {holds : Draft → Prop} (h : Stable holds)

theorem ensures_declaring {α : Type} {declaration : Draft → Except SchemaError (α × Draft)}
    (h : ∀ draft result grown, holds draft → declaration draft = .ok (result, grown) → holds grown) :
    Ensures holds (fun _ => True) (fun _ => True) (declaring declaration) := by
  intro draft hdraft
  rw [run_declaring]
  cases hdeclared : declaration draft with
  | error error => exact ⟨hdraft, trivial⟩
  | ok declared => exact ⟨h draft declared.1 declared.2 hdraft hdeclared, trivial⟩

include h

theorem ensures_insertField {owner : Draft → TypeId} {spec : FieldSpec} (hspec : Brings spec) :
    Ensures holds (fun _ => True) (fun _ => True)
      (declaring fun draft => draft.insertField (owner draft) spec) :=
  ensures_declaring fun _ _ _ hdraft hok => h.field hdraft hspec hok

theorem ensures_registerIntrospection :
    Ensures holds (fun _ => True) (fun _ => True) registerIntrospection := by
  unfold registerIntrospection
  have howners : Ensures holds (fun owners : List (TypeId × List (String × String)) =>
      ∀ owner ∈ owners, ∃ type ∈ Introspection.types, owner.2 = type.2) (fun _ => True)
      (Introspection.types.mapM fun type => do
        let id ← declaring fun draft => draft.declareShape (.ofKind .object type.1)
        pure (id, type.2)) := by
    refine Ensures.mapM fun type _ => ?_
    refine Ensures.bind (ensures_declaring fun _ _ _ hdraft hok => h.shape hdraft hok) ?_
    exact fun _ _ => Ensures.pure rfl
  refine Ensures.bind howners fun owners howners => ?_
  refine Ensures.bind (Ensures.forM fun owner howner => ?_) fun _ _ => Ensures.forM fun spec hspec => ?_
  · refine Ensures.forM fun field hfield => ?_
    obtain ⟨type, htype, hfields⟩ := howners owner howner
    exact Ensures.bind (ensures_insertField h (.member htype (hfields ▸ hfield))) fun _ _ => Ensures.pure trivial
  · exact Ensures.bind (ensures_insertField h (.root hspec)) fun _ _ => Ensures.pure trivial

theorem ensures_addTypenames : Ensures holds (fun _ => True) (fun _ => True) addTypenames := by
  unfold addTypenames
  have hget : Ensures holds (fun _ => True) (fun _ => True) (get : DraftM Draft) :=
    fun draft hdraft => ⟨hdraft, trivial⟩
  refine Ensures.bind hget fun draft _ => Ensures.forM fun id _ => ?_
  exact Ensures.bind (ensures_insertField h .typename) fun _ _ => Ensures.pure trivial

/-- All that completion declares keeps what is stable. -/
theorem ensures_declarations : Ensures holds (fun _ => True) (fun _ => True) (do
    registerIntrospection
    addTypenames) :=
  (ensures_registerIntrospection h).bind fun _ _ => ensures_addTypenames h

end

/-- A completed schema is built from the draft that the declarations of completion leave, and shows its own
description. -/
theorem complete_run {draft : Draft} {schema : Schema} (h : draft.complete.1 = .ok schema) :
    ∃ (grown : Draft) (built : Schema),
      ExceptT.run (do registerIntrospection; addTypenames : DraftM Unit) { draft with completed := true } =
        (.ok (), grown) ∧
      build grown = .ok built ∧ schema = Introspection.attach built := by
  unfold Draft.complete at h
  split at h
  · cases h
  · dsimp only at h
    split at h
    · cases h
    · next grown hrun =>
        split at h
        · cases h
        · next built hbuilt =>
            cases h
            exact ⟨grown, built, hrun, hbuilt, rfl⟩

/-- A completed schema is built from a draft of which holds what is stable, and shows its own
description. -/
theorem complete_keeps {holds : Draft → Prop} (h : Stable holds) {draft : Draft} {schema : Schema}
    (hdraft : holds { draft with completed := true }) (hschema : draft.complete.1 = .ok schema) :
    ∃ (grown : Draft) (built : Schema), holds grown ∧ build grown = .ok built ∧
      schema = Introspection.attach built := by
  obtain ⟨grown, built, hrun, hbuilt, rfl⟩ := complete_run hschema
  have hsteps := ensures_declarations h { draft with completed := true } hdraft
  rw [hrun] at hsteps
  exact ⟨grown, built, hsteps.1, hbuilt, rfl⟩

theorem complete_ok {draft : Draft} {schema : Schema} (hdraft : draft.Consistent)
    (h : draft.complete.1 = .ok schema) :
    ∃ (grown : Draft) (built : Schema), grown.Consistent ∧ build grown = .ok built ∧
      schema = Introspection.attach built :=
  complete_keeps stable_consistent (hdraft.congr rfl rfl rfl rfl rfl) h

end GraphQuery.Completion
