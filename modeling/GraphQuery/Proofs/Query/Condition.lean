import GraphQuery.Proofs.Query.Enclosure

/-! What rows show of fields that are inside several fragments. Of the conditions around a field only the
innermost one is kept, so that a row shows the first field of each response key whose innermost condition
holds. Rows show no field one of whose conditions fails exactly when each of these fields is selected
again, or was, where all conditions hold. -/

namespace GraphQuery

namespace Renderer

variable (renderer : Renderer) (runtime? : Option TypeId)

/-- Do all conditions around a field hold for rows of some type? -/
def admits (enclosed : Enclosed) : Bool :=
  enclosed.conditions.all fun condition => renderer.applies runtime? (some condition)

/-- The response key that a selection of some signature has on rows of some type. -/
def markKey? (mark : FieldId × Option TypeId × String) : Option String :=
  if renderer.applies runtime? mark.2.1 then some mark.2.2 else none

variable {renderer runtime?}

theorem markKey?_eq_some {mark : FieldId × Option TypeId × String} {key : String} :
    renderer.markKey? runtime? mark = some key ↔
      renderer.applies runtime? mark.2.1 = true ∧ mark.2.2 = key := by
  rw [markKey?]
  split
  · next happlies => rw [Option.some.injEq, and_iff_right happlies]
  · next hfails =>
      constructor
      · intro h
        cases h
      · rintro ⟨happlies, _⟩
        exact absurd happlies hfails

theorem applies_of_admits {enclosed : Enclosed} (owner : TypeId)
    (h : renderer.admits runtime? enclosed = true) :
    renderer.applies runtime? (enclosed.kept owner) = true := by
  cases hkept : enclosed.kept owner with
  | none => rfl
  | some condition =>
      have hlast := (Option.filter_eq_some_iff.mp hkept).1
      exact List.all_eq_true.mp h condition (List.mem_of_getLast? hlast)

end Renderer

/-- The first selections of a level by a key that their signatures have are those of the first fields. -/
theorem Enclosed.firsts_marks {owner : TypeId} {found : List Enclosed} {level : List BoundSelection}
    (hmarks : level.map BoundSelection.signature =
      Keyed.firsts some (fun _ => false) (found.map (mark owner)))
    (key? : FieldId × Option TypeId × String → Option String) :
    (Keyed.firsts (fun selection => key? selection.signature) (fun _ => false) level).map
        BoundSelection.signature =
      (Keyed.firsts (fun enclosed => key? (enclosed.mark owner)) (fun _ => false) found).map
        (mark owner) := by
  calc (Keyed.firsts (fun selection => key? selection.signature) (fun _ => false) level).map
        BoundSelection.signature
      = Keyed.firsts key? (fun _ => false) (level.map BoundSelection.signature) := by
        rw [Keyed.firsts_map]
    _ = Keyed.firsts key? (fun _ => false) (found.map (mark owner)) := by
        rw [hmarks]
        refine Keyed.firsts_firsts (fun a b hsame _ => ?_) (fun a hnone => ?_) (fun _ _ _ _ hfalse => ?_)
        · rw [Option.some.inj hsame]
        · cases hnone
        · cases hfalse
    _ = (Keyed.firsts (fun enclosed => key? (enclosed.mark owner)) (fun _ => false) found).map
        (mark owner) := by
        rw [Keyed.firsts_map]

namespace Binder

/-- How a level lies below another one in a document: what its parent encloses is what the fields of one
signature on the level above enclose. -/
inductive Reaches (binder : Binder) (top : TypeId) (found : List Enclosed)
    (selections : List BoundSelection) : TypeId → List Enclosed → List BoundSelection → Prop where
  | refl : Reaches binder top found selections top found selections
  | child {owner : TypeId} {around below : List Enclosed} {level : List BoundSelection}
      {selection : BoundSelection} (above : Reaches binder top found selections owner around level)
      (mem : selection ∈ level)
      (gathered : binder.Gathers (marked owner selection.signature around) below) :
      Reaches binder top found selections (binder.schema.field selection.field).target below
        selection.children

theorem Unfolds.of_below {binder : Binder} {top owner : TypeId} {found : List Enclosed}
    {selections level : List BoundSelection} (h : binder.Unfolds top found selections)
    (hbelow : binder.schema.Below top selections owner level) :
    ∃ around, binder.Reaches top found selections owner around level ∧
      binder.Unfolds owner around level := by
  induction hbelow with
  | refl => exact ⟨found, .refl, h⟩
  | child _ hmem ih =>
      obtain ⟨around, hreaches, hunfolds⟩ := ih
      obtain ⟨below, hgathered, hchildren⟩ := hunfolds.children _ hmem
      exact ⟨below, .child hreaches hmem hgathered, hchildren⟩

end Binder

namespace RowContext

variable (context : RowContext) (owner : TypeId)

/-- The fields that the row shows: the first of each response key whose kept condition holds. -/
def visible (found : List Enclosed) : List Enclosed :=
  Keyed.firsts (fun enclosed => context.renderer.markKey? (context.runtimeType? owner) (enclosed.mark owner))
    (fun _ => false) found

/-- Is a field selected, under a response key, where all conditions hold for the row? -/
def allows (found : List Enclosed) (field : FieldId) (outputName : String) : Prop :=
  ∃ enclosed ∈ found, enclosed.field = field ∧ enclosed.outputName = outputName ∧
    context.renderer.admits (context.runtimeType? owner) enclosed = true

variable {context owner} {found : List Enclosed} {level : List BoundSelection}

section

variable (hmarks : level.map BoundSelection.signature =
  Keyed.firsts some (fun _ => false) (found.map (Enclosed.mark owner)))

include hmarks

theorem winners_signatures : (context.winners owner level).map BoundSelection.signature =
    (context.visible owner found).map (Enclosed.mark owner) :=
  Enclosed.firsts_marks hmarks (context.renderer.markKey? (context.runtimeType? owner))

theorem forall_winners_iff (holds : FieldId → String → Prop) :
    (∀ winner ∈ context.winners owner level, holds winner.field winner.outputName) ↔
      ∀ first ∈ context.visible owner found, holds first.field first.outputName := by
  have hsame := @winners_signatures context owner found level hmarks
  calc (∀ winner ∈ context.winners owner level, holds winner.field winner.outputName)
      ↔ ∀ mark ∈ (context.winners owner level).map BoundSelection.signature, holds mark.1 mark.2.2 := by
        rw [List.forall_mem_map]
        rfl
    _ ↔ ∀ mark ∈ (context.visible owner found).map (Enclosed.mark owner), holds mark.1 mark.2.2 := by
        rw [hsame]
    _ ↔ ∀ first ∈ context.visible owner found, holds first.field first.outputName := by
        rw [List.forall_mem_map]
        rfl

end

/-- Every field whose kept condition holds is shown, or another one is before it under its key. -/
theorem exists_visible_iff {key : String} :
    (∃ first ∈ context.visible owner found, first.outputName = key) ↔
      ∃ enclosed ∈ found, enclosed.outputName = key ∧
        context.renderer.applies (context.runtimeType? owner) (enclosed.kept owner) = true := by
  constructor
  · rintro ⟨first, hfirst, rfl⟩
    obtain ⟨hmem, key, hkey, _⟩ := Keyed.mem_firsts hfirst
    exact ⟨first, hmem, rfl, (Renderer.markKey?_eq_some.mp hkey).1⟩
  · rintro ⟨enclosed, hmem, hname, happlies⟩
    have hkey : context.renderer.markKey? (context.runtimeType? owner) (enclosed.mark owner) = some key :=
      Renderer.markKey?_eq_some.mpr ⟨happlies, hname⟩
    obtain ⟨first, hfirst, heq⟩ := @Keyed.exists_first _ _ _
      (fun enclosed => context.renderer.markKey? (context.runtimeType? owner) (enclosed.mark owner))
      (fun _ => false) _ _ key hmem hkey rfl
    exact ⟨first, hfirst, (Renderer.markKey?_eq_some.mp heq).2⟩

theorem allows_of_mem {enclosed : Enclosed} (hmem : enclosed ∈ found)
    (hadmits : context.renderer.admits (context.runtimeType? owner) enclosed = true) :
    context.allows owner found enclosed.field enclosed.outputName :=
  ⟨enclosed, hmem, rfl, rfl, hadmits⟩

/-- Where the kept condition of a field is the only one around it, the row shows it only as allowed. -/
theorem allows_of_kept (honly : ∀ enclosed ∈ found, ∀ condition ∈ enclosed.conditions,
      enclosed.kept owner = some condition) :
    ∀ first ∈ context.visible owner found, context.allows owner found first.field first.outputName := by
  intro first hfirst
  obtain ⟨hmem, key, hkey, _⟩ := Keyed.mem_firsts hfirst
  refine allows_of_mem hmem ?_
  rw [Renderer.admits, List.all_eq_true]
  intro condition hcondition
  have happlies := (Renderer.markKey?_eq_some.mp hkey).1
  rw [Enclosed.mark, honly first hmem condition hcondition] at happlies
  exact happlies

end RowContext

/-- What rows show of any level of a query: they have just the response keys of the fields that the
document encloses there and whose kept conditions hold, those of fields all of whose conditions hold
among them. They show a field only where all its conditions hold exactly when the first one of each of
these keys is selected where all its conditions do, and always where no field is inside conditions other
than the one that it keeps. -/
theorem Binder.rows_honour_conditions_iff {binder : Binder} (hcompleted : binder.schema.Completed)
    {root owner : TypeId} (hroot : root < binder.schema.types.length) {selections : List Selection}
    {top level : List BoundSelection} (hbind : binder.bind root selections = .ok top)
    (hbelow : binder.schema.Below root top owner level) :
    ∃ found around, binder.EnclosesAll root [] [] selections found ∧
      binder.Reaches root found top owner around level ∧
      ∀ context : RowContext, context.schema = binder.schema → ∀ out,
        context.rendered owner level = .ok out →
        (∀ key, (Members.get? key out).isSome = true ↔ ∃ enclosed ∈ around, enclosed.outputName = key ∧
          context.renderer.applies (context.runtimeType? owner) (enclosed.kept owner) = true) ∧
        (∀ enclosed ∈ around, context.renderer.admits (context.runtimeType? owner) enclosed = true →
          (Members.get? enclosed.outputName out).isSome = true) ∧
        ((∀ winner ∈ context.winners owner level,
            context.allows owner around winner.field winner.outputName) ↔
          ∀ first ∈ context.visible owner around,
            context.allows owner around first.field first.outputName) ∧
        ((∀ enclosed ∈ around, ∀ condition ∈ enclosed.conditions, enclosed.kept owner = some condition) →
          ∀ winner ∈ context.winners owner level,
            context.allows owner around winner.field winner.outputName) := by
  have hschema := hcompleted.wellFormed
  have hbound := Binder.bound_of_bind hschema hbind
  have howner := hbound.owner_lt hschema hroot hbelow
  obtain ⟨found, hfound, hunfolds⟩ := Binder.unfolds_of_bind hschema hbind
  obtain ⟨around, hreaches, hlevel⟩ := hunfolds.of_below hbelow
  refine ⟨found, around, hfound, hreaches, fun context hsame out hout => ?_⟩
  have hforall := @RowContext.forall_winners_iff context owner around level hlevel.marks
  rw [← hsame] at hschema howner
  have hcarries : ∀ selection ∈ level, context.schema.Carries owner selection := by
    rw [hsame]
    exact (hbound.of_below hbelow).carries
  have hkeys (key : String) : (Members.get? key out).isSome = true ↔
      ∃ enclosed ∈ around, enclosed.outputName = key ∧
        context.renderer.applies (context.runtimeType? owner) (enclosed.kept owner) = true := by
    rw [RowContext.isSome_get?_iff hschema howner hcarries hout, ← RowContext.exists_visible_iff]
    have hnone := hforall fun _ outputName => outputName ≠ key
    rw [← not_iff_not]
    push Not
    exact hnone
  refine ⟨hkeys, fun enclosed hmem hadmits => ?_, hforall _,
    fun honly => (hforall _).mpr (RowContext.allows_of_kept honly)⟩
  exact (hkeys _).mpr ⟨enclosed, hmem, rfl, Renderer.applies_of_admits owner hadmits⟩

/-- Cats asked for their number and dogs for their name. -/
theorem Binder.cats_honour_conditions :
    let binder : Binder := ⟨.animals, [], [], none⟩
    let selections : List Selection := [.field none "id" [] [],
      .inline (some "Dog") [.field none "name" [] []]]
    let cat := RowContext.ofAnimal (.animal "Cat" "Tom" [])
    binder.schema.Completed ∧ 7 < binder.schema.types.length ∧ ∃ level out found around,
      binder.bind 7 selections = .ok level ∧ cat.rendered 7 level = .ok out ∧
      binder.EnclosesAll 7 [] [] selections found ∧ binder.Reaches 7 found level 7 around level ∧
      ∀ key, (Members.get? key out).isSome = true ↔ ∃ enclosed ∈ around, enclosed.outputName = key ∧
        cat.renderer.applies (cat.runtimeType? 7) (enclosed.kept 7) = true := by
  intro binder selections cat
  have hconcrete : 7 < binder.schema.types.length ∧
      ((binder.bind 7 selections).bind (cat.rendered 7)).isOk = true := by
    decide +kernel
  obtain ⟨howner, hok⟩ := hconcrete
  obtain ⟨out, hanswer⟩ := Outcome.exists_of_isOk hok
  obtain ⟨level, hbind, hout⟩ := Outcome.bind_ok_iff.mp hanswer
  obtain ⟨found, around, hfound, hreaches, hrows⟩ :=
    Binder.rows_honour_conditions_iff Schema.animals_completed howner hbind .refl
  exact ⟨Schema.animals_completed, howner, level, out, found, around, hbind, hout, hfound, hreaches,
    (hrows cat rfl out hout).1⟩

/-- A cat shows its name where dogs are asked for it inside a fragment on animals. -/
theorem Binder.cat_shows_the_name_of_dogs :
    let binder : Binder := ⟨.animals, [], [], none⟩
    let selections : List Selection := [.inline (some "Dog") [.inline (some "Animal")
      [.field none "name" [] []]]]
    let cat := RowContext.ofAnimal (.animal "Cat" "Tom" [])
    binder.schema.Completed ∧ ∃ level found, binder.bind 7 selections = .ok level ∧
      binder.EnclosesAll 7 [] [] selections found ∧
      (∀ enclosed ∈ found, enclosed.conditions = [8, 7]) ∧
      cat.renderer.applies (cat.runtimeType? 7) (some 8) = false ∧
      ∃ out, cat.rendered 7 level = .ok out ∧ (Members.get? "name" out).isSome = true := by
  intro binder selections cat
  have hconcrete : (binder.schema.typeNamed? "Dog").map SchemaType.id = some 8 ∧
      (binder.schema.typeNamed? "Animal").map SchemaType.id = some 7 ∧
      (binder.schema.lookupField? 7 "name").isSome = true ∧
      cat.renderer.applies (cat.runtimeType? 7) (some 8) = false ∧
      ((binder.bind 7 selections).bind fun level => (cat.rendered 7 level).map fun out =>
        (Members.get? "name" out).isSome).toOption = some true := by
    decide +kernel
  obtain ⟨hdog, hanimal, hname, hfails, hshown⟩ := hconcrete
  obtain ⟨dog, hdog, hdogId⟩ := Option.map_eq_some_iff.mp hdog
  obtain ⟨animal, hanimal, hanimalId⟩ := Option.map_eq_some_iff.mp hanimal
  obtain ⟨field, hfield⟩ := Option.isSome_iff_exists.mp hname
  have hkept : binder.schema.lookupField? ((kept 7 ([] ++ [dog.id] ++ [animal.id]).getLast?).getD 7)
      "name" = some field := by
    rw [hdogId, hanimalId]
    exact hfield
  have hfound : binder.EnclosesAll 7 [] [] selections
      [⟨field.id, "name", [] ++ [dog.id] ++ [animal.id], [], []⟩] := by
    have hinside := EnclosesAll.cons (@Encloses.field binder 7 [] _ none "name" [] [] field hkept) .nil
    have hwhole := EnclosesAll.cons (.narrowed hdog (.cons (.narrowed hanimal hinside) .nil)) .nil
    exact hwhole
  rw [hdogId, hanimalId] at hfound
  obtain ⟨level, hbind, hout⟩ := Outcome.bind_ok_iff.mp (Outcome.ok_of_toOption hshown)
  obtain ⟨out, hout, hname⟩ := Outcome.map_ok_iff.mp hout
  refine ⟨Schema.animals_completed, level, _, hbind, hfound, ?_, hfails, out, hout, hname⟩
  intro enclosed hmem
  rw [List.mem_singleton.mp hmem]
  rfl

end GraphQuery
