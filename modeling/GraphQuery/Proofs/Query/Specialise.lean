import GraphQuery.Proofs.Query.Binding
import GraphQuery.Proofs.Query.Row

/-! Specialising a level to a row: the selections that apply to the type of the row lose their
conditions, and those that then ask for one field under one response key are merged. Records bind one
selection for each field and response key whatever the conditions are, so that the row shows what it
would show of the specialised level exactly where the answers of leaders say what those of merged
selections do. -/

namespace GraphQuery

namespace BoundSelection

/-- A selection without its condition. -/
def unconditional (selection : BoundSelection) : BoundSelection :=
  { selection with condition? := none }

theorem nodup_signatures_merge (selections : List BoundSelection) :
    ((merge selections).map signature).Nodup := by
  rw [signatures_merge]
  exact Keyed.firsts_apart.imp fun hne hsame => hne (congrArg some hsame)

theorem exists_of_mem_merge {selections : List BoundSelection} {merged : BoundSelection}
    (h : merged ∈ merge selections) :
    ∃ selection ∈ selections, selection.signature = merged.signature := by
  have hmark : merged.signature ∈ (merge selections).map signature := List.mem_map_of_mem h
  rw [signatures_merge] at hmark
  exact List.mem_map.mp (Keyed.mem_firsts hmark).1

/-- Selections that repeat each other with the same children are merged into one of them. -/
theorem mem_of_mem_absorb {merged others : List BoundSelection}
    (h : ∀ a ∈ merged ++ others, ∀ b ∈ merged ++ others, a.signature = b.signature →
      absorb a.children b.children = a.children)
    {found : BoundSelection} (hfound : found ∈ absorb merged others) : found ∈ merged ++ others := by
  induction others generalizing merged with
  | nil => exact List.mem_append_left _ hfound
  | cons selection rest ih =>
      have hone : ∀ other ∈ absorbOne merged selection, other ∈ merged ++ [selection] := by
        intro other hother
        rcases mem_absorbOne hother with hold | rfl | ⟨earlier, hmem, hsame, heq⟩
        · exact List.mem_append_left _ hold
        · exact List.mem_append_right _ List.mem_cons_self
        · have hchildren := h earlier (List.mem_append_left _ hmem) selection
            (List.mem_append_right _ List.mem_cons_self) hsame
          have hkept : other = earlier := by
            rw [heq, hchildren]
            cases earlier
            rfl
          rw [hkept]
          exact List.mem_append_left _ hmem
      have hmem : ∀ other ∈ absorbOne merged selection ++ rest, other ∈ merged ++ selection :: rest := by
        intro other hother
        rw [List.append_cons]
        rcases List.mem_append.mp hother with hother | hother
        · exact List.mem_append_left _ (hone other hother)
        · exact List.mem_append_right _ hother
      rw [absorb_cons] at hfound
      exact hmem found (ih (fun a ha b hb => h a (hmem a ha) b (hmem b hb)) hfound)

theorem mem_of_mem_merge {selections : List BoundSelection}
    (h : ∀ a ∈ selections, ∀ b ∈ selections, a.signature = b.signature →
      absorb a.children b.children = a.children)
    {found : BoundSelection} (hfound : found ∈ merge selections) : found ∈ selections :=
  mem_of_mem_absorb h hfound

/-- Do the selections of a level that ask for one field under one response key ask for the same? -/
def uniform (level : List BoundSelection) : Prop :=
  ∀ a ∈ level, ∀ b ∈ level, a.alike b = true → a.arguments = b.arguments ∧ a.children = b.children

/-- No level asks for the same twice unless two of its selections are alike. -/
theorem uniform_of_apart {level : List BoundSelection}
    (h : level.Pairwise fun a b => a.alike b = false) : uniform level := by
  have hsymm : Std.Symm fun a b : BoundSelection => a.alike b = false := by
    refine ⟨fun a b hother => eq_false_of_ne_true fun hsame => ?_⟩
    rw [alike_of_alike (alike_self a) hsame] at hother
    cases hother
  intro a ha b hb halike
  by_cases hone : a = b
  · rw [hone]
    exact ⟨rfl, rfl⟩
  · have hother := h.forall ha hb hone
    rw [halike] at hother
    cases hother

end BoundSelection

open BoundSelection (leader signature unconditional uniform)

namespace RowContext

variable (context : RowContext) (owner : TypeId)

/-- Does a selection apply to the row? -/
def applies (selection : BoundSelection) : Bool :=
  context.renderer.applies (context.runtimeType? owner) selection.condition?

/-- The level specialised to the row. -/
def specialised (level : List BoundSelection) : List BoundSelection :=
  BoundSelection.merge ((level.filter (context.applies owner)).map unconditional)

variable {context owner} {level : List BoundSelection}

/-- A selection of the specialised level stands for one of the level that applies to the row. -/
theorem exists_of_mem_specialised {merged : BoundSelection}
    (h : merged ∈ context.specialised owner level) :
    merged.condition? = none ∧ ∃ selection ∈ level, context.applies owner selection = true ∧
      selection.alike merged = true := by
  obtain ⟨bare, hbare, hsame⟩ := BoundSelection.exists_of_mem_merge h
  obtain ⟨selection, hmem, rfl⟩ := List.mem_map.mp hbare
  obtain ⟨hlevel, happlies⟩ := List.mem_filter.mp hmem
  simp only [signature, unconditional, Prod.mk.injEq] at hsame
  exact ⟨hsame.2.1.symm, selection, hlevel, happlies, BoundSelection.alike_iff.mpr ⟨hsame.1, hsame.2.2⟩⟩

theorem carries_specialised (hcarries : ∀ selection ∈ level, context.schema.Carries owner selection) :
    ∀ merged ∈ context.specialised owner level, context.schema.Carries owner merged := by
  intro merged hmerged
  obtain ⟨_, selection, hmem, _, halike⟩ := exists_of_mem_specialised hmerged
  have hcarry := hcarries selection hmem
  have hfield := (BoundSelection.alike_iff.mp halike).1
  constructor
  · rw [← hfield]
    exact hcarry.field_id
  · rw [← hfield]
    exact hcarry.carried

/-- No two selections of the specialised level are alike. -/
theorem eq_of_alike {a b : BoundSelection} (ha : a ∈ context.specialised owner level)
    (hb : b ∈ context.specialised owner level) (halike : a.alike b = true) : a = b := by
  refine BoundSelection.eq_of_apart (BoundSelection.nodup_signatures_merge _) ha hb halike ?_
  rw [(exists_of_mem_specialised ha).1, (exists_of_mem_specialised hb).1]

theorem leader_specialised {merged : BoundSelection} (h : merged ∈ context.specialised owner level) :
    leader (context.specialised owner level) merged = merged :=
  eq_of_alike (BoundSelection.leader_mem h) h (BoundSelection.leader_alike h)

/-- Who wins on the level wins on the specialised level, in the same order. -/
theorem winners_specialised :
    (context.winners owner (context.specialised owner level)).map signature =
      (context.winners owner level).map fun selection => (unconditional selection).signature := by
  have hbare : context.winners owner (context.specialised owner level) =
      Keyed.firsts (fun selection => some selection.signature.2.2) (fun _ => false)
        (context.specialised owner level) := by
    refine Keyed.firsts_congr fun merged hmem => ?_
    rw [Renderer.responseKey?, (exists_of_mem_specialised hmem).1]
    rfl
  have hlevel : context.winners owner level =
      Keyed.firsts (fun selection => some (unconditional selection).signature.2.2) (fun _ => false)
        (level.filter (context.applies owner)) := by
    rw [winners, ← Keyed.firsts_filter (context.applies owner)]
    · refine Keyed.firsts_congr fun selection hmem => ?_
      exact Renderer.responseKey?_of_applies (List.mem_filter.mp hmem).2
    · intro selection _ hsome
      obtain ⟨key, hkey⟩ := Option.isSome_iff_exists.mp hsome
      exact (Renderer.responseKey?_eq_some.mp hkey).1
  calc (context.winners owner (context.specialised owner level)).map signature
      = Keyed.firsts (fun mark => some mark.2.2) (fun _ => false)
          ((context.specialised owner level).map signature) := by
        rw [hbare, Keyed.firsts_map]
    _ = Keyed.firsts (fun mark => some mark.2.2) (fun _ => false)
          (((level.filter (context.applies owner)).map unconditional).map signature) := by
        rw [specialised, BoundSelection.signatures_merge]
        refine Keyed.firsts_firsts (fun a b hsame _ => ?_) (fun a hnone => ?_)
          (fun _ _ _ _ hfalse => ?_)
        · rw [Option.some.inj hsame]
        · cases hnone
        · cases hfalse
    _ = (context.winners owner level).map fun selection => (unconditional selection).signature := by
        rw [Keyed.firsts_map, Keyed.firsts_map, ← hlevel, List.map_map]
        rfl

/-- The winners of a level and of the specialised level ask for the same, one by one. -/
theorem winners_alike : List.Forall₂
    (fun winner merged => winner ∈ context.winners owner level ∧
      merged ∈ context.specialised owner level ∧ merged.alike winner = true)
    (context.winners owner level) (context.winners owner (context.specialised owner level)) := by
  have hmarks : List.Forall₂
      (fun winner merged : BoundSelection => (unconditional winner).signature = merged.signature)
      (context.winners owner level) (context.winners owner (context.specialised owner level)) := by
    rw [← List.forall₂_map_right_iff, ← List.forall₂_map_left_iff, List.forall₂_eq_eq_eq]
    exact winners_specialised.symm
  refine List.forall₂_iff_zip.mpr ⟨hmarks.length_eq, fun {winner merged} hmem => ?_⟩
  have hsame := (List.forall₂_iff_zip.mp hmarks).2 hmem
  simp only [signature, unconditional, Prod.mk.injEq] at hsame
  obtain ⟨hwinner, hother⟩ := List.of_mem_zip hmem
  refine ⟨hwinner, (Keyed.mem_firsts hother).1, ?_⟩
  exact BoundSelection.alike_iff.mpr ⟨hsame.1.symm, hsame.2.2.symm⟩

theorem outputs_specialised :
    (context.winners owner (context.specialised owner level)).map BoundSelection.outputName =
      (context.winners owner level).map BoundSelection.outputName := by
  have hmarks := congrArg (List.map fun mark => mark.2.2) (@winners_specialised context owner level)
  rw [List.map_map, List.map_map] at hmarks
  exact hmarks

/-- Where alike selections ask for the same, a selection of the specialised level is one of the level
without its condition. -/
theorem mem_specialised_of_uniform (hbound : context.schema.Bound owner level)
    (h : uniform level) {merged : BoundSelection} (hmem : merged ∈ context.specialised owner level) :
    ∃ selection ∈ level, unconditional selection = merged := by
  have hbare : ∀ bare ∈ (level.filter (context.applies owner)).map unconditional,
      ∃ selection ∈ level, unconditional selection = bare := by
    intro bare hbare
    obtain ⟨selection, hselection, heq⟩ := List.mem_map.mp hbare
    exact ⟨selection, List.mem_of_mem_filter hselection, heq⟩
  -- alike selections have one level below, and a bound level absorbs itself
  refine hbare merged (BoundSelection.mem_of_mem_merge ?_ hmem)
  intro a ha b hb hsame
  obtain ⟨first, hfirst, rfl⟩ := hbare a ha
  obtain ⟨second, hsecond, rfl⟩ := hbare b hb
  simp only [signature, unconditional, Prod.mk.injEq] at hsame
  have hchildren := (h first hfirst second hsecond (BoundSelection.alike_iff.mpr ⟨hsame.1, hsame.2.2⟩)).2
  dsimp only [unconditional]
  rw [← hchildren]
  exact (hbound.children first hfirst).absorb_self

section

variable (hcompleted : context.schema.Completed) (howner : owner < context.schema.types.length)
  (hbound : context.schema.Bound owner level) {out : Members}
  (hout : context.rendered owner level = .ok out)

include hcompleted howner hbound hout

/-- The specialised level shows the same object exactly when what it merges has answers, and each
winner is worth with the answer of its leader what its merged selection is worth. -/
theorem specialised_ok_iff : context.rendered owner (context.specialised owner level) = .ok out ↔
    (∀ merged ∈ context.specialised owner level, context.schema.keyed merged = true →
      ∃ answer, context.answer (context.schema.type owner) merged = .ok answer) ∧
    ∀ winner ∈ context.winners owner level, ∀ merged ∈ context.specialised owner level,
      merged.alike winner = true →
        context.value owner merged merged = context.value owner (leader level winner) winner := by
  have hschema := hcompleted.wellFormed
  have hmerged := @carries_specialised context owner level hbound.carries
  obtain ⟨_, shown, hof, hshown⟩ := (rendered_ok_iff hschema howner hbound.carries).mp hout
  rw [rendered_ok_iff hschema howner hmerged, record_isOk_iff hschema howner hmerged]
  have hanswers : (∀ merged ∈ context.specialised owner level, context.schema.keyed merged = true →
      ∃ answer, context.answer (context.schema.type owner)
        (leader (context.specialised owner level) merged) = .ok answer) ↔
      ∀ merged ∈ context.specialised owner level, context.schema.keyed merged = true →
        ∃ answer, context.answer (context.schema.type owner) merged = .ok answer := by
    refine forall₂_congr fun merged hmem => ?_
    rw [leader_specialised hmem]
  rw [hanswers]
  refine and_congr_right fun _ => ⟨?_, fun hvalues => ⟨shown, hof, ?_⟩⟩
  · rintro ⟨shown', hof', hshown'⟩ winner hwinner merged hmem halike
    -- the two objects have their response keys in one order, so that they agree entry by entry
    have hsame : shown = shown' := by
      refine Members.ofList_injective ?_ ?_ (hof.trans hof'.symm)
      · rw [Outcome.names_of_mapM hshown, Outcome.names_of_mapM hshown', outputs_specialised]
      · rw [Outcome.names_of_mapM hshown]
        exact outputs_nodup
    subst hsame
    obtain ⟨i, hi, rfl⟩ := List.getElem_of_mem hwinner
    obtain ⟨hlength, hall⟩ := List.forall₂_iff_get.mp
      (Outcome.step_eq_of_mapM winners_alike hshown hshown')
    obtain ⟨⟨_, hother, hpaired⟩, heq⟩ := hall i hi (hlength ▸ hi)
    have hone := eq_of_alike hmem hother (BoundSelection.alike_of_alike halike hpaired)
    rw [hone]
    rw [leader_specialised hother, (BoundSelection.alike_iff.mp hpaired).2] at heq
    exact (Outcome.map_pair_inj heq).symm
  · rw [← hshown]
    refine (Outcome.mapM_eq_of_pairs (winners_alike.imp ?_)).symm
    rintro winner merged ⟨hwinner, hmem, halike⟩
    rw [leader_specialised hmem, hvalues winner hwinner merged hmem halike,
      (BoundSelection.alike_iff.mp halike).2]

/-- Where alike selections ask for the same, the specialised level shows the same object. -/
theorem specialised_ok_of_uniform (h : uniform level) :
    context.rendered owner (context.specialised owner level) = .ok out := by
  have hschema := hcompleted.wellFormed
  have hleader {selection : BoundSelection} (hmem : selection ∈ level) :
      context.answer (context.schema.type owner) (leader level selection) =
        context.answer (context.schema.type owner) selection := by
    have halike := BoundSelection.leader_alike hmem
    obtain ⟨harguments, hchildren⟩ := h _ (BoundSelection.leader_mem hmem) _ hmem halike
    exact answer_congr (BoundSelection.alike_iff.mp halike).1 harguments hchildren
  rw [specialised_ok_iff hcompleted howner hbound hout]
  constructor
  · intro merged hmem hkeyed
    obtain ⟨selection, hselection, rfl⟩ := mem_specialised_of_uniform hbound h hmem
    have hrecord := ((rendered_ok_iff hschema howner hbound.carries).mp hout).1
    have hanswer := (record_isOk_iff hschema howner hbound.carries).mp hrecord selection hselection hkeyed
    rw [hleader hselection] at hanswer
    exact hanswer
  · intro winner hwinner merged hmem halike
    obtain ⟨selection, hselection, rfl⟩ := mem_specialised_of_uniform hbound h hmem
    have hlevel := (Keyed.mem_firsts hwinner).1
    obtain ⟨harguments, hchildren⟩ := h selection hselection winner hlevel halike
    have hfield := (BoundSelection.alike_iff.mp halike).1
    refine value_congr ?_ hfield harguments hchildren
    rw [hleader hlevel]
    exact answer_congr hfield harguments hchildren

/-- When a row shows what it would show of the level specialised to it: what is merged has to have
answers, and each winner has to be worth with the answer of its leader what its merged selection is
worth. Both are so where selections that differ in nothing but their conditions are the only ones that
ask for one field under one response key. -/
theorem shows_specialised : (context.rendered owner (context.specialised owner level) = .ok out ↔
      (∀ merged ∈ context.specialised owner level, context.schema.keyed merged = true →
        ∃ answer, context.answer (context.schema.type owner) merged = .ok answer) ∧
      ∀ winner ∈ context.winners owner level, ∀ merged ∈ context.specialised owner level,
        merged.alike winner = true →
          context.value owner merged merged = context.value owner (leader level winner) winner) ∧
    (uniform level → context.rendered owner (context.specialised owner level) = .ok out) :=
  ⟨specialised_ok_iff hcompleted howner hbound hout,
    specialised_ok_of_uniform hcompleted howner hbound hout⟩

end

/-- A cat shows the number that only dogs are asked for no more than the level specialised to it. -/
theorem cat_shows_specialised :
    let level := Schema.animalLevel [.inline (some "Dog") [.field none "id" [] []],
      .field none "name" [] []]
    let cat := ofAnimal (.animal "Cat" "Tom" [])
    cat.schema.Completed ∧ cat.schema.Bound 7 level ∧
      ∃ out, cat.rendered 7 level = .ok out ∧ cat.rendered 7 (cat.specialised 7 level) = .ok out := by
  intro level cat
  have hbound : cat.schema.Bound 7 level := Schema.animals_bound _
  have hconcrete : 7 < cat.schema.types.length ∧ (level.Pairwise fun a b => a.alike b = false) ∧
      (cat.rendered 7 level).isOk = true := by
    decide +kernel
  obtain ⟨howner, hapart, hshown⟩ := hconcrete
  obtain ⟨out, hout⟩ := Outcome.exists_of_isOk hshown
  refine ⟨Schema.animals_completed, hbound, out, hout, ?_⟩
  refine (shows_specialised Schema.animals_completed howner hbound hout).2 ?_
  exact BoundSelection.uniform_of_apart hapart

/-- The name of the friend that an object shows. -/
def friendName? (out : Members) : Option String :=
  ((Members.get? "friend" out).bind fun friend => friend.get? "name").bind Value.asString?

/-- Asked for the name of its friend, a cat shows none where dogs are asked for its number before. -/
theorem cat_loses_the_name_of_its_friend :
    let level := Schema.animalLevel [.inline (some "Dog") [.field none "friend" [] [.field none "id" [] []]],
      .field none "friend" [] [.field none "name" [] []]]
    let cat := ofAnimal (.animal "Cat" "Tom" [("friend", .animal "Dog" "Rex" [])])
    cat.schema.Completed ∧ cat.schema.Bound 7 level ∧
      (cat.rendered 7 level).toOption.map friendName? = some none ∧
      (cat.rendered 7 (cat.specialised 7 level)).toOption.map friendName? = some (some "Rex") ∧
      cat.rendered 7 level ≠ cat.rendered 7 (cat.specialised 7 level) := by
  intro level cat
  have hshown : (cat.rendered 7 level).toOption.map friendName? = some none ∧
      (cat.rendered 7 (cat.specialised 7 level)).toOption.map friendName? = some (some "Rex") := by
    decide +kernel
  obtain ⟨hlevel, hspecialised⟩ := hshown
  refine ⟨Schema.animals_completed, Schema.animals_bound _, hlevel, hspecialised, fun hsame => ?_⟩
  rw [hsame, hspecialised] at hlevel
  cases hlevel

end RowContext

end GraphQuery
