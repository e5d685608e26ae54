import GraphQuery.Proofs.Schema.Collision
import GraphQuery.Proofs.Schema.Offer
import GraphQuery.Proofs.Schema.PartialOrder

/-! Merged fields. A type merges the fields of all types that a subtype of it, or the type itself, leads to.
Each must be compatible with the one that comes first under its name, which is the one that the type shows;
the others need not be compatible with each other, so that completion may succeed or fail with the order of
the declarations. -/

namespace GraphQuery

open Relation (TransGen ReflTransGen)

/-- A type merges a field: it or a subtype of it is the declaring type or a subtype of that, which is no
other union. Of the fields that name the type it merges its own only. -/
structure Draft.Merges (draft : Draft) (direct : TypeId → TypeId → Prop) (owner : TypeId) (id : FieldId)
    (field : DraftField) : Prop where
  declared : draft.fields[id]? = some field
  reached : ∃ sub, ReflTransGen direct sub owner ∧ ReflTransGen direct sub field.owner
  passed : field.owner = owner ∨ (draft.type field.owner).kind ≠ .union
  typename : field.resolver = .typename → field.owner = owner

/-- Two fields may share a name: both yield lists or neither does, and what one yields is what the other
yields or a subtype of that. -/
structure Draft.Compatible (draft : Draft) (direct : TypeId → TypeId → Prop) (a b : DraftField) : Prop where
  isList : a.target.isList = b.target.isList
  related : ∃ s ∈ draft.typeId? a.target.typeName, ∃ t ∈ draft.typeId? b.target.typeName,
    ReflTransGen direct s t ∨ ReflTransGen direct t s

/-! ### The types whose fields are merged -/

namespace Hierarchy

/-- The types that one extends are above it. -/
theorem ancestors_above {relations : List Relations}
    (hparent : ∀ id parent, (relations.getD id default).ancestor? = some parent →
      parent ∈ parentsOf relations id) {start : TypeId} {fuel : Nat} {chain : List TypeId}
    {next? : Option TypeId} (hnext : ∀ next ∈ next?, TransGen (Names (parentsOf relations)) start next)
    (hchain : ∀ id ∈ chain, TransGen (Names (parentsOf relations)) start id) :
    ∀ id ∈ ancestors relations fuel chain next?, TransGen (Names (parentsOf relations)) start id := by
  induction fuel generalizing chain next? with
  | zero => exact hchain
  | succ fuel ih =>
      cases next? with
      | none => exact hchain
      | some next =>
          have habove := hnext next rfl
          rw [ancestors]
          split
          · exact hchain
          · refine ih (fun parent hancestor => habove.tail (hparent next parent hancestor)) ?_
            rw [List.forall_mem_append, List.forall_mem_singleton]
            exact ⟨hchain, habove⟩

end Hierarchy

namespace Completion.Prepared

open Hierarchy (Names parentsOf)

variable {context : Merge.Context} (h : Prepared context)

include h

theorem mem_supertypesOf_iff {a b : TypeId} :
    b ∈ context.supertypesOf a ↔ TransGen (Names (parentsOf context.relations)) a b :=
  Hierarchy.mem_supertypes_iff h.supertypes

/-- A type takes fields from all types that it or a subtype of it leads to, other unions left out. -/
theorem mem_sources_iff {owner source : TypeId} (howner : owner < context.draft.types.length) :
    source ∈ Merge.sources context owner ↔
      (∃ sub, ReflTransGen (Names (parentsOf context.relations)) sub owner ∧
        ReflTransGen (Names (parentsOf context.relations)) sub source) ∧
      (source = owner ∨ (context.draft.type source).kind ≠ .union) := by
  have hchain : ∀ id ∈ Hierarchy.ancestors context.relations context.relations.length []
      (context.relations.getD owner default).ancestor?,
      TransGen (Names (parentsOf context.relations)) owner id := by
    have hparent := fun id parent => @Hierarchy.ancestor_mem_parents _ _ h.relations id parent
    refine Hierarchy.ancestors_above hparent (fun next hnext => ?_) (fun _ hmem => absurd hmem List.not_mem_nil)
    exact TransGen.single (hparent owner next hnext)
  rw [Merge.sources, List.mem_filter, Merge.distinct, Hierarchy.mem_foldl_addNew, or_iff_right List.not_mem_nil]
  refine and_congr ?_ (by simp)
  simp only [List.mem_append, List.mem_cons, List.mem_flatMap, Merge.mem_subtypesOf_iff h.subtypes howner,
    h.mem_supertypesOf_iff]
  constructor
  · rintro ((((rfl | hmem) | habove) | hbelow) | ⟨sub, hbelow, habove⟩)
    · exact ⟨source, .refl, .refl⟩
    · exact ⟨owner, .refl, (hchain source hmem).to_reflTransGen⟩
    · exact ⟨owner, .refl, habove.to_reflTransGen⟩
    · exact ⟨source, hbelow.to_reflTransGen, .refl⟩
    · exact ⟨sub, hbelow.to_reflTransGen, habove.to_reflTransGen⟩
  · rintro ⟨sub, hbelow, habove⟩
    rcases Relation.reflTransGen_iff_eq_or_transGen.mp hbelow with rfl | hbelow
    · rcases Relation.reflTransGen_iff_eq_or_transGen.mp habove with rfl | habove
      · exact Or.inl (Or.inl (Or.inl (Or.inl rfl)))
      · exact Or.inl (Or.inl (Or.inr habove))
    · rcases Relation.reflTransGen_iff_eq_or_transGen.mp habove with rfl | habove
      · exact Or.inl (Or.inr hbelow)
      · exact Or.inr ⟨sub, hbelow, habove⟩

end Completion.Prepared

/-! ### Fields by their declarations -/

namespace Merge

open Completion (FieldsOf)
open Hierarchy (Names parentsOf)

variable {context : Context}

theorem field_declared (hfields : FieldsOf context.draft context.fields) {id : FieldId} {declared : DraftField}
    (hdeclared : context.draft.fields[id]? = some declared) :
    ∃ target ∈ context.draft.typeId? declared.target.typeName,
      context.field id = Completion.completeField id declared target := by
  have hlt := (List.getElem?_eq_some_iff.mp hdeclared).1
  rw [← hfields.length] at hlt
  have hget := List.getElem?_eq_getElem hlt
  obtain ⟨same, target, hsame, htarget, heq⟩ := hfields.declared id _ hget
  cases hdeclared.symm.trans hsame
  exact ⟨target, htarget, (Context.field_eq hget).trans heq⟩

theorem name_declared (hfields : FieldsOf context.draft context.fields) {id : FieldId} {declared : DraftField}
    (hdeclared : context.draft.fields[id]? = some declared) : (context.field id).name = declared.name := by
  obtain ⟨_, _, heq⟩ := field_declared hfields hdeclared
  rw [heq]
  rfl

section

variable (hprepared : Completion.Prepared context)

include hprepared

/-- Fields are compatible as they have been declared. -/
theorem compatible_iff {i j : FieldId} {a b : DraftField} (ha : context.draft.fields[i]? = some a)
    (hb : context.draft.fields[j]? = some b) :
    compatible context (context.field i) (context.field j) = true ↔
      context.draft.Compatible (Names (parentsOf context.relations)) a b := by
  have hfields := Completion.completeFields_ok hprepared.fields
  obtain ⟨s, hs, hi⟩ := field_declared hfields ha
  obtain ⟨t, ht, hj⟩ := field_declared hfields hb
  have hrelated : s = t ∨ TransGen (Names (parentsOf context.relations)) s t ∨
      TransGen (Names (parentsOf context.relations)) t s ↔
        ReflTransGen (Names (parentsOf context.relations)) s t ∨
          ReflTransGen (Names (parentsOf context.relations)) t s := by
    simp only [Relation.reflTransGen_iff_eq_or_transGen, eq_comm (a := t) (b := s)]
    tauto
  rw [hi, hj, compatible, Bool.and_eq_true, beq_iff_eq, Bool.or_eq_true, Bool.or_eq_true, beq_iff_eq,
    List.contains_iff_mem, List.contains_iff_mem, hprepared.mem_supertypesOf_iff,
    hprepared.mem_supertypesOf_iff, or_assoc]
  change _ ∧ (s = t ∨ TransGen _ s t ∨ TransGen _ t s) ↔ _
  rw [hrelated]
  constructor
  · rintro ⟨hlist, hrelated⟩
    exact ⟨hlist, s, hs, t, ht, hrelated⟩
  · rintro ⟨hlist, s', hs', t', ht', hrelated⟩
    cases Option.some.inj ((Option.mem_def.mp hs).symm.trans hs')
    cases Option.some.inj ((Option.mem_def.mp ht).symm.trans ht')
    exact ⟨hlist, hrelated⟩

/-- The fields that a type is offered are those that it merges. -/
theorem mem_offered_iff_merges (hdraft : context.draft.Consistent) {owner : TypeId}
    (howner : owner < context.draft.types.length) {id : FieldId} :
    id ∈ offered context owner ↔
      ∃ field, context.draft.Merges (Names (parentsOf context.relations)) owner id field := by
  have hfields := Completion.completeFields_ok hprepared.fields
  have htypename {field : DraftField} (hdeclared : context.draft.fields[id]? = some field) :
      (context.field id).isTypename = true ↔ field.resolver = .typename := by
    obtain ⟨_, _, heq⟩ := field_declared hfields hdeclared
    rw [heq, Field.isTypename, Completion.completeField]
    cases field.resolver <;> simp
  rw [mem_offered_iff]
  constructor
  · rintro ⟨source, hsource, hown, hplace⟩
    obtain ⟨field, hdeclared, rfl⟩ := hdraft.mem_own_iff.mp hown
    obtain ⟨hreached, hpassed⟩ := (hprepared.mem_sources_iff howner).mp hsource
    exact ⟨field, hdeclared, hreached, hpassed, fun hresolver => hplace ((htypename hdeclared).mpr hresolver)⟩
  · rintro ⟨field, hdeclared, hreached, hpassed, hplace⟩
    exact ⟨field.owner, (hprepared.mem_sources_iff howner).mpr ⟨hreached, hpassed⟩,
      hdraft.mem_own_iff.mpr ⟨field, hdeclared, rfl⟩, fun hresolver => hplace ((htypename hdeclared).mp hresolver)⟩

/-- Each field offered is compatible with the first of its name, in terms of the declared fields. -/
theorem led_iff (hdraft : context.draft.Consistent) {owner : TypeId}
    (howner : owner < context.draft.types.length) :
    Led context (offered context owner) ↔
      ∀ id field, context.draft.Merges (Names (parentsOf context.relations)) owner id field →
        ∃ first lead, firstOf context (offered context owner) field.name = some first ∧
          context.draft.fields[first]? = some lead ∧
          context.draft.Compatible (Names (parentsOf context.relations)) lead field := by
  have hfields := Completion.completeFields_ok hprepared.fields
  have hoffered {id : FieldId} := @mem_offered_iff_merges context hprepared hdraft owner howner id
  constructor
  · intro hled id field hmerges
    obtain ⟨first, hfirst, hcompatible⟩ := hled id (hoffered.mpr ⟨field, hmerges⟩)
    rw [name_declared hfields hmerges.declared] at hfirst
    obtain ⟨lead, hlead⟩ := hoffered.mp (firstOf_mem hfirst).1
    exact ⟨first, lead, hfirst, hlead.declared,
      (compatible_iff hprepared hlead.declared hmerges.declared).mp hcompatible⟩
  · intro hled id hmem
    obtain ⟨field, hmerges⟩ := hoffered.mp hmem
    obtain ⟨first, lead, hfirst, hlead, hcompatible⟩ := hled id field hmerges
    refine ⟨first, ?_, (compatible_iff hprepared hlead hmerges.declared).mpr hcompatible⟩
    rwa [name_declared hfields hmerges.declared]

end

end Merge

/-! ### Completion -/

namespace Completion

variable {context : Merge.Context}

/-- A composite type is completed if and only if its fields are merged. -/
theorem completeType_cases (hdraft : context.draft.Consistent)
    (hfields : FieldsOf context.draft context.fields) {id : TypeId} :
    ((context.draft.type id).kind.isLeaf = true ∧ ∃ type, completeType context id = .ok type) ∨
      (context.draft.type id).kind.isLeaf = false ∧
        ((∃ type, completeType context id = .ok type ∧
            Merge.Folded context (Merge.offered context id) ⟨type.fields, type.projection⟩) ∨
          (∃ error, completeType context id = .error error) ∧
            ¬Merge.Led context (Merge.offered context id)) := by
  unfold completeType
  dsimp only
  by_cases hleaf : (context.draft.type id).kind.isLeaf = true
  · rw [if_pos hleaf]
    exact Or.inl ⟨hleaf, _, rfl⟩
  · rw [if_neg hleaf]
    refine Or.inr ⟨Bool.eq_false_iff.mpr hleaf, ?_⟩
    rcases @Merge.fields_ok context id hdraft hfields with ⟨merged, hmerged, hfolded⟩ | ⟨⟨error, herror⟩, hnot⟩
    · rw [hmerged]
      exact Or.inl ⟨_, rfl, hfolded⟩
    · rw [herror]
      exact Or.inr ⟨⟨error, rfl⟩, hnot⟩

theorem nodup_fields {id : TypeId} {type : SchemaType} (h : completeType context id = .ok type) :
    (type.fields.map Prod.fst).Nodup := by
  unfold completeType at h
  dsimp only at h
  split at h
  · cases h
    exact List.nodup_nil
  · obtain ⟨merged, hmerged, hpure⟩ := Outcome.bind_ok_iff.mp h
    cases hpure
    rw [Merge.fields_eq] at hmerged
    obtain ⟨collected, hcollected, rfl⟩ := Outcome.map_ok_iff.mp hmerged
    exact Merge.nodup_lookup hcollected

/-- The types of a draft are completed if and only if the fields of all composite ones are merged. -/
theorem completeTypes_iff (hdraft : context.draft.Consistent)
    (hfields : FieldsOf context.draft context.fields) :
    (∃ types, (List.range context.draft.types.length).mapM (completeType context) = .ok types) ↔
      ∀ id < context.draft.types.length, (context.draft.type id).kind.isLeaf = false →
        Merge.Led context (Merge.offered context id) := by
  constructor
  · rintro ⟨types, htypes⟩ id hid hcomposite
    obtain ⟨type, _, htype⟩ := Outcome.ok_of_mapM htypes (List.mem_range.mpr hid)
    rcases @completeType_cases context hdraft hfields id with ⟨hleaf, _⟩ | ⟨_, ⟨_, _, hfolded⟩ | ⟨⟨error, herror⟩, _⟩⟩
    · rw [hleaf] at hcomposite
      cases hcomposite
    · exact hfolded.led
    · rw [herror] at htype
      cases htype
  · intro hled
    have hstep : ∀ id ∈ List.range context.draft.types.length, ∃ type, completeType context id = .ok type := by
      intro id hmem
      rcases @completeType_cases context hdraft hfields id with ⟨_, htype⟩ | ⟨hcomposite, ⟨type, htype, _⟩ | ⟨_, hnot⟩⟩
      · exact htype
      · exact ⟨type, htype⟩
      · exact absurd (hled id (List.mem_range.mp hmem) hcomposite) hnot
    choose! type htype using hstep
    exact ⟨_, Outcome.mapM_ok_of htype⟩

/-- A draft is built if and only if its types are completed. -/
theorem Prepared.build_iff (h : Prepared context) : (∃ built, build context.draft = .ok built) ↔
    ∃ types, (List.range context.draft.types.length).mapM (completeType context) = .ok types := by
  have hcontext : (⟨context.draft, context.fields, context.relations, context.supertypes,
      (List.range context.draft.types.length).map (subtypesOf context.supertypes)⟩ : Merge.Context) = context := by
    rw [← h.subtypes]
  constructor
  · rintro ⟨built, hbuilt⟩
    simp only [build, h.fields, h.relations, h.supertypes, hcontext, bind, Except.bind] at hbuilt
    split at hbuilt
    · cases hbuilt
    · next types htypes => exact ⟨types, htypes⟩
  · rintro ⟨types, htypes⟩
    simp only [build, h.fields, h.relations, h.supertypes, hcontext, htypes, bind, Except.bind]
    exact ⟨_, rfl⟩

/-- Only where all references are resolved are fields and relations worked out. -/
theorem Prepared.resolved (h : Prepared context) : context.draft.Resolved := by
  have htarget : ∀ field ∈ context.draft.fields, ∃ target, resolveTarget context.draft field = .ok target := by
    intro field hmem
    obtain ⟨targets, htargets, _⟩ := Outcome.bind_ok_iff.mp h.fields
    obtain ⟨target, _, htarget⟩ := Outcome.ok_of_mapM htargets hmem
    exact ⟨target, htarget⟩
  have hrelations : ∀ type ∈ context.draft.types, ∃ own, Hierarchy.relationsOf context.draft type = .ok own := by
    intro type hmem
    obtain ⟨id, hid⟩ := List.mem_iff_getElem?.mp hmem
    obtain ⟨_, hsteps, _⟩ := Outcome.bind_ok_iff.mp h.relations
    obtain ⟨_, _, hstep⟩ := Outcome.ok_of_foldlM hsteps id
      (List.mem_range.mpr (List.getElem?_eq_some_iff.mp hid).1)
    obtain ⟨own, hown, _⟩ := Outcome.bind_ok_iff.mp hstep
    rw [Draft.type_eq hid] at hown
    exact ⟨own, hown⟩
  constructor
  · intro field hmem
    obtain ⟨target, htarget⟩ := htarget field hmem
    exact Option.isSome_iff_exists.mpr ⟨target, resolveTarget_ok htarget⟩
  · intro field hmem parameter hparameter
    obtain ⟨target, htarget⟩ := htarget field hmem
    unfold resolveTarget at htarget
    dsimp only at htarget
    split at htarget
    · cases htarget
    · obtain ⟨_, hparameters, _⟩ := Outcome.bind_ok_iff.mp htarget
      have hrule := Outcome.ok_of_forM hparameters parameter hparameter
      extract_lets at hrule
      split at hrule
      · assumption
      · cases hrule
  · intro type hmem name hname
    obtain ⟨own, hown⟩ := hrelations type hmem
    obtain ⟨_, hancestor, _⟩ := Outcome.bind_ok_iff.mp hown
    unfold Hierarchy.resolveAncestor at hancestor
    rw [Option.mem_def.mp hname] at hancestor
    obtain ⟨id, hid, hkind⟩ := Outcome.bind_ok_iff.mp hancestor
    unfold Hierarchy.resolve at hid
    split at hid
    · next hresolved =>
        cases hid
        split at hkind
        · cases hkind
        · next hleaf => exact ⟨id, hresolved, Bool.eq_false_iff.mpr hleaf⟩
    · cases hid
  · intro type hmem name hname
    obtain ⟨own, hown⟩ := hrelations type hmem
    obtain ⟨_, _, hown⟩ := Outcome.bind_ok_iff.mp hown
    obtain ⟨_, hinterfaces, _⟩ := Outcome.bind_ok_iff.mp hown
    obtain ⟨_, _, hstep⟩ := Outcome.ok_of_foldlM hinterfaces name hname
    obtain ⟨id, hid, hkind⟩ := Outcome.bind_ok_iff.mp hstep
    unfold Hierarchy.resolve at hid
    split at hid
    · next hresolved =>
        cases hid
        split at hkind
        · next himplementable => exact ⟨id, hresolved, himplementable⟩
        · cases hkind
    · cases hid

end Completion

namespace Draft

variable {declarations : List Declaration} {draft : Draft}

/-- Each field that a type merges is compatible with the first one of its name in the order in which the
fields are merged. -/
def Led (draft : Draft) (direct : TypeId → TypeId → Prop) : Prop :=
  ∃ context : Merge.Context, Completion.Prepared context ∧ context.draft = draft ∧
    ∀ owner < draft.types.length, (draft.type owner).kind.isLeaf = false →
      ∀ id field, draft.Merges direct owner id field →
        ∃ first lead, Merge.firstOf context (Merge.offered context owner) field.name = some first ∧
          draft.fields[first]? = some lead ∧ draft.Compatible direct lead field

/-- All fields that a type merges are compatible with those of their names. -/
def PairwiseCompatible (draft : Draft) (direct : TypeId → TypeId → Prop) (owner : TypeId) : Prop :=
  ∀ i a j b, draft.Merges direct owner i a → draft.Merges direct owner j b → a.name = b.name →
    draft.Compatible direct a b

/-- Completion succeeds only where no name is claimed, all references are resolved and no type is its own
supertype. -/
theorem sound_of_complete (hdeclared : start.declareAll declarations = .ok draft) {schema : Schema}
    (hschema : draft.complete.1 = .ok schema) :
    Declaration.claimed? declarations = none ∧ draft.withIntrospection.Resolved := by
  have hclaimed : Declaration.claimed? declarations = none := by
    cases hclaimed : Declaration.claimed? declarations with
    | none => rfl
    | some name =>
        rw [complete_claimed hdeclared hclaimed] at hschema
        cases hschema
  obtain ⟨⟨_, hgrown⟩, houtcome⟩ := complete_eq (consistent_declareAll hdeclared)
    (recorded_declareAll hdeclared) ((unclaimed_iff hdeclared).mpr hclaimed)
  rw [houtcome] at hschema
  obtain ⟨built, hbuilt, _⟩ := Outcome.map_ok_iff.mp hschema
  obtain ⟨context, _, hprepared, hdraft, _⟩ := Completion.build_context hgrown.consistent hbuilt
  exact ⟨hclaimed, hgrown.resolved_iff.mp (hdraft ▸ hprepared.resolved)⟩

namespace Completing

open Hierarchy (Names parentsOf)

variable {grown : Draft} {fields : List Field} {relations : List Relations}
  (h : draft.Completing declarations grown fields relations)

include h

/-- Without a circle all is worked out that merging needs. -/
theorem exists_prepared (hacyclic : ∀ id, ¬ProperSupertype declarations draft id id) :
    ∃ context, Completion.Prepared context ∧ context.draft = grown ∧
      Names (parentsOf context.relations) = DirectSupertype declarations draft := by
  obtain ⟨all, hall, _⟩ := @Hierarchy.supertypes_of_acyclic grown relations _ h.parent_iff hacyclic
  exact ⟨⟨grown, fields, relations, all, (List.range grown.types.length).map (Completion.subtypesOf all)⟩,
    ⟨h.fields_eq, h.relations_eq, hall, rfl⟩, rfl, Hierarchy.names_parentsOf h.parent_iff⟩

theorem acyclic {schema : Schema} (hschema : draft.complete.1 = .ok schema) :
    ∀ id, ¬ProperSupertype declarations draft id id := by
  intro id hcycle
  obtain ⟨name, hname⟩ := h.cyclic_iff.mpr ⟨id, hcycle⟩
  rw [hschema] at hname
  cases hname

/-- Completion succeeds if and only if the first field of each name is compatible with the others. -/
theorem isOk_iff {context : Merge.Context} (hprepared : Completion.Prepared context)
    (hdraft : context.draft = grown)
    (hdirect : Names (parentsOf context.relations) = DirectSupertype declarations draft) :
    draft.complete.1.isOk = true ↔
      ∀ owner < grown.types.length, (grown.type owner).kind.isLeaf = false →
        ∀ id field, grown.Merges (DirectSupertype declarations draft) owner id field →
          ∃ first lead, Merge.firstOf context (Merge.offered context owner) field.name = some first ∧
            grown.fields[first]? = some lead ∧
            grown.Compatible (DirectSupertype declarations draft) lead field := by
  have hbuild : draft.complete.1.isOk = true ↔ ∃ built, Completion.build grown = .ok built := by
    rw [h.outcome_eq]
    cases Completion.build grown <;> simp [Except.map, Except.isOk, Except.toBool]
  subst hdraft
  rw [hbuild, hprepared.build_iff,
    Completion.completeTypes_iff h.consistent (Completion.completeFields_ok hprepared.fields), ← hdirect]
  exact forall_congr' fun owner => forall₂_congr fun howner _ => Merge.led_iff hprepared h.consistent howner

theorem isOk_iff_led : draft.complete.1.isOk = true ↔
    (∀ id, ¬ProperSupertype declarations draft id id) ∧
      draft.complete.2.Led (DirectSupertype declarations draft) := by
  rw [h.left_eq]
  constructor
  · intro hok
    obtain ⟨schema, hschema⟩ := Outcome.exists_of_isOk hok
    obtain ⟨context, hprepared, hdraft, hdirect⟩ := h.exists_prepared (h.acyclic hschema)
    exact ⟨h.acyclic hschema, context, hprepared, hdraft, (h.isOk_iff hprepared hdraft hdirect).mp hok⟩
  · rintro ⟨_, context, hprepared, rfl, hled⟩
    cases h.relations_eq.symm.trans hprepared.relations
    exact (h.isOk_iff hprepared rfl (Hierarchy.names_parentsOf h.parent_iff)).mpr hled

/-- What a type shows under a name is the first field of that name that it merges. -/
theorem shown_of_ok {schema : Schema} (hschema : draft.complete.1 = .ok schema) {owner : TypeId}
    (howner : owner < grown.types.length) (hcomposite : (grown.type owner).kind.isLeaf = false) {id : FieldId}
    {field : DraftField} (hmerges : grown.Merges (DirectSupertype declarations draft) owner id field) :
    ∃ first lead, (schema.type owner).fields.lookup field.name = some first ∧
      grown.Merges (DirectSupertype declarations draft) owner first lead ∧ lead.name = field.name ∧
      grown.Compatible (DirectSupertype declarations draft) lead field := by
  have houtcome := h.outcome_eq
  rw [hschema] at houtcome
  obtain ⟨built, hbuilt, rfl⟩ := Outcome.map_ok_iff.mp houtcome.symm
  obtain ⟨context, hfrom, hprepared, rfl, htypes⟩ := Completion.build_context h.consistent hbuilt
  cases h.relations_eq.symm.trans hprepared.relations
  have hdirect := Hierarchy.names_parentsOf h.parent_iff
  have hfields := Completion.completeFields_ok hprepared.fields
  have htype := htypes owner _ (List.getElem?_eq_getElem (hfrom.length.symm ▸ howner))
  rcases @Completion.completeType_cases context h.consistent hfields owner with
    ⟨hleaf, _⟩ | ⟨_, ⟨type, htype', hfolded⟩ | ⟨⟨error, herror⟩, _⟩⟩
  · rw [hleaf] at hcomposite
    cases hcomposite
  · cases htype.symm.trans htype'
    have hled := (Merge.led_iff hprepared h.consistent howner).mp hfolded.led
    rw [hdirect] at hled
    obtain ⟨first, lead, hfirst, hlead, hcompatible⟩ := hled id field hmerges
    obtain ⟨hmem, hname⟩ := Merge.firstOf_mem hfirst
    obtain ⟨same, hsame⟩ := (Merge.mem_offered_iff_merges hprepared h.consistent howner).mp hmem
    rw [hdirect] at hsame
    cases hlead.symm.trans hsame.declared
    refine ⟨first, lead, ?_, hsame, (Merge.name_declared hfields hlead).symm.trans hname, hcompatible⟩
    change (built.type owner).fields.lookup field.name = some first
    rw [Schema.type_eq (List.getElem?_eq_getElem (hfrom.length.symm ▸ howner)), ← hfirst]
    exact hfolded.lookup field.name
  · rw [herror] at htype
    cases htype

end Completing

theorem Compatible.symm {draft : Draft} {direct : TypeId → TypeId → Prop} {a b : DraftField}
    (h : draft.Compatible direct a b) : draft.Compatible direct b a := by
  obtain ⟨s, hs, t, ht, hrelated⟩ := h.related
  exact ⟨h.isList.symm, t, ht, s, hs, hrelated.symm⟩

end Draft

/-- A type shows the first of the fields that it merges under a name, with which all others are compatible.
They are compatible with each other if and only if those are that are not shown. -/
structure Schema.ShowsLeads (schema : Schema) (draft : Draft) (direct : TypeId → TypeId → Prop)
    (owner : TypeId) : Prop where
  lead : ∀ id field, draft.Merges direct owner id field →
    ∃ first lead, (schema.type owner).fields.lookup field.name = some first ∧
      draft.Merges direct owner first lead ∧ lead.name = field.name ∧ draft.Compatible direct lead field
  isList : ∀ i a j b, draft.Merges direct owner i a → draft.Merges direct owner j b → a.name = b.name →
    a.target.isList = b.target.isList
  pairwise_iff : draft.PairwiseCompatible direct owner ↔
    ∀ i a j b, draft.Merges direct owner i a → draft.Merges direct owner j b → a.name = b.name →
      (schema.type owner).fields.lookup a.name ≠ some i → (schema.type owner).fields.lookup a.name ≠ some j →
        draft.Compatible direct a b

theorem Schema.ShowsLeads.of_lead {schema : Schema} {draft : Draft} {direct : TypeId → TypeId → Prop}
    {owner : TypeId}
    (h : ∀ id field, draft.Merges direct owner id field →
      ∃ first lead, (schema.type owner).fields.lookup field.name = some first ∧
        draft.Merges direct owner first lead ∧ lead.name = field.name ∧ draft.Compatible direct lead field) :
    schema.ShowsLeads draft direct owner := by
  -- two fields of one name have the same one before them
  have hboth {i j : FieldId} {a b : DraftField} (ha : draft.Merges direct owner i a)
      (hb : draft.Merges direct owner j b) (hname : a.name = b.name) :
      ∃ first lead, (schema.type owner).fields.lookup a.name = some first ∧ draft.fields[first]? = some lead ∧
        draft.Compatible direct lead a ∧ draft.Compatible direct lead b := by
    obtain ⟨first, lead, hfirst, hlead, _, hleft⟩ := h i a ha
    obtain ⟨first', lead', hfirst', hlead', _, hright⟩ := h j b hb
    rw [← hname] at hfirst'
    cases hfirst.symm.trans hfirst'
    cases hlead.declared.symm.trans hlead'.declared
    exact ⟨first, lead, hfirst, hlead.declared, hleft, hright⟩
  refine ⟨h, fun i a j b ha hb hname => ?_, fun hpairwise i a j b ha hb hname _ _ => hpairwise i a j b ha hb hname,
    fun hshadowed i a j b ha hb hname => ?_⟩
  · obtain ⟨_, _, _, _, hleft, hright⟩ := hboth ha hb hname
    exact hleft.isList.symm.trans hright.isList
  · obtain ⟨first, lead, hfirst, hlead, hleft, hright⟩ := hboth ha hb hname
    by_cases hi : first = i
    · subst hi
      cases hlead.symm.trans ha.declared
      exact hright
    · by_cases hj : first = j
      · subst hj
        cases hlead.symm.trans hb.declared
        exact hleft.symm
      · refine hshadowed i a j b ha hb hname ?_ ?_ <;> rw [hfirst, ne_eq, Option.some.injEq] <;> assumption

/-- Declarations of holders of animals: some types conform to one interface, and each declares, under the same
name, what it holds. -/
def Declaration.holders (held : List (String × String)) : List Declaration :=
  [.type (.ofKind .interface "Animal"), .type ⟨"Dog", none, none, ["Animal"], .object⟩,
    .type ⟨"Cat", none, none, ["Animal"], .object⟩, .type (.ofKind .interface "Holder")] ++
  held.map (fun (name, _) => .type ⟨name, none, none, ["Holder"], .object⟩) ++
  held.zipIdx.map fun ((_, target), i) => .field (11 + i) (.plain "f" target)

/-- The holder of any animal comes first. -/
def Declaration.anyFirst : List Declaration :=
  holders [("A", "Animal"), ("B", "Dog"), ("C", "Cat")]

/-- The holder of dogs comes first. -/
def Declaration.dogFirst : List Declaration :=
  holders [("B", "Dog"), ("A", "Animal"), ("C", "Cat")]

namespace Draft

variable {declarations : List Declaration} {draft : Draft}

/-- Declarations complete if and only if they claim no name of introspection, resolve all references, go
round in no circle, and the first field that a type merges under a name is compatible with the others of
that name; it suffices that all are compatible with each other, in which case the order of the declarations
is of no account. A completed type shows the first ones. -/
theorem complete_merging (hdeclared : start.declareAll declarations = .ok draft) :
    (draft.complete.1.isOk = true ↔
      Declaration.claimed? declarations = none ∧ draft.withIntrospection.Resolved ∧
        (∀ id, ¬ProperSupertype declarations draft id id) ∧
        draft.complete.2.Led (DirectSupertype declarations draft)) ∧
    (Declaration.claimed? declarations = none → draft.withIntrospection.Resolved →
      (∀ id, ¬ProperSupertype declarations draft id id) →
      (∀ owner < draft.complete.2.types.length, (draft.complete.2.type owner).kind.isLeaf = false →
        draft.complete.2.PairwiseCompatible (DirectSupertype declarations draft) owner) →
      draft.complete.1.isOk = true) ∧
    ∀ schema, draft.complete.1 = .ok schema → ∀ owner < draft.complete.2.types.length,
      (draft.complete.2.type owner).kind.isLeaf = false →
      schema.ShowsLeads draft.complete.2 (DirectSupertype declarations draft) owner := by
  have hcompleting (hclaimed : Declaration.claimed? declarations = none)
      (hresolved : draft.withIntrospection.Resolved) :=
    exists_completing hdeclared ((unclaimed_iff hdeclared).mpr hclaimed) hresolved
  refine ⟨⟨fun hok => ?_, ?_⟩, ?_, ?_⟩
  · obtain ⟨schema, hschema⟩ := Outcome.exists_of_isOk hok
    obtain ⟨hclaimed, hresolved⟩ := sound_of_complete hdeclared hschema
    obtain ⟨_, _, _, h⟩ := hcompleting hclaimed hresolved
    exact ⟨hclaimed, hresolved, h.isOk_iff_led.mp hok⟩
  · rintro ⟨hclaimed, hresolved, hled⟩
    obtain ⟨_, _, _, h⟩ := hcompleting hclaimed hresolved
    exact h.isOk_iff_led.mpr hled
  · intro hclaimed hresolved hacyclic hpairwise
    obtain ⟨grown, _, _, h⟩ := hcompleting hclaimed hresolved
    rw [h.left_eq] at hpairwise
    obtain ⟨context, hprepared, rfl, hdirect⟩ := h.exists_prepared hacyclic
    refine (h.isOk_iff hprepared rfl hdirect).mpr fun owner howner hcomposite id field hmerges => ?_
    have hoffered {id : FieldId} := @Merge.mem_offered_iff_merges context hprepared h.consistent owner howner id
    rw [hdirect] at hoffered
    have hfields := Completion.completeFields_ok hprepared.fields
    obtain ⟨first, hfirst⟩ := @Merge.firstOf_isSome context _ id (hoffered.mpr ⟨field, hmerges⟩)
    rw [Merge.name_declared hfields hmerges.declared] at hfirst
    obtain ⟨hmem, hname⟩ := Merge.firstOf_mem hfirst
    obtain ⟨lead, hlead⟩ := hoffered.mp hmem
    rw [Merge.name_declared hfields hlead.declared] at hname
    exact ⟨first, lead, hfirst, hlead.declared,
      hpairwise owner howner hcomposite first lead id field hlead hmerges hname⟩
  · intro schema hschema owner howner hcomposite
    obtain ⟨hclaimed, hresolved⟩ := sound_of_complete hdeclared hschema
    obtain ⟨_, _, _, h⟩ := hcompleting hclaimed hresolved
    rw [h.left_eq] at howner hcomposite ⊢
    exact .of_lead fun _ _ => h.shown_of_ok hschema howner hcomposite

/-- The holders complete when the one of any animal comes first. -/
theorem complete_merging_shown : ∃ draft schema,
    start.declareAll Declaration.anyFirst = .ok draft ∧ draft.complete.1 = .ok schema ∧
    ∀ owner < draft.complete.2.types.length, (draft.complete.2.type owner).kind.isLeaf = false →
      schema.ShowsLeads draft.complete.2 (DirectSupertype Declaration.anyFirst draft) owner := by
  have hok : ((start.declareAll Declaration.anyFirst).bind fun draft => draft.complete.1).isOk = true := by
    decide +kernel
  obtain ⟨schema, hschema⟩ := Outcome.exists_of_isOk hok
  obtain ⟨draft, hdeclared, hcomplete⟩ := Outcome.bind_ok_iff.mp hschema
  exact ⟨draft, schema, hdeclared, hcomplete, (complete_merging hdeclared).2.2 schema hcomplete⟩

/-- What the holders of dogs and of cats hold is merged under one name, though no cat is a dog; and the same
declarations do not complete when the holder of dogs comes first. -/
theorem holders_depend_on_order :
    (∃ draft schema owner i a j b,
      start.declareAll Declaration.anyFirst = .ok draft ∧ draft.complete.1 = .ok schema ∧
      owner < draft.complete.2.types.length ∧ (draft.complete.2.type owner).kind = .interface ∧
      draft.complete.2.Merges (DirectSupertype Declaration.anyFirst draft) owner i a ∧
      draft.complete.2.Merges (DirectSupertype Declaration.anyFirst draft) owner j b ∧ a.name = b.name ∧
      ¬draft.complete.2.Compatible (DirectSupertype Declaration.anyFirst draft) a b) ∧
    ((start.declareAll Declaration.dogFirst).bind fun draft => draft.complete.1.map fun _ => ()) =
      .error (.fieldTypeConflict "Holder" "f" "Dog" "Cat") := by
  refine ⟨?_, by decide +kernel⟩
  have hhierarchy : ((start.declareAll Declaration.anyFirst).bind fun draft => draft.complete.1.map fun schema =>
      ([8, 9, 12, 13].map fun id => (schema.type id).supertypes,
        [10, 12, 13].map fun id => (draft.complete.2.type id).kind,
        ["Dog", "Cat"].map draft.complete.2.typeId?)) =
      .ok ([[7], [7], [10], [10]], [.interface, .object, .object], [some 8, some 9]) := by
    decide +kernel
  have hfields : (start.declareAll Declaration.anyFirst).map (fun draft =>
      [1, 2].map fun id : FieldId => (draft.complete.2.fields[id]?).map fun field =>
        (field.owner, field.name, field.target, (Completion.completeField id field 0).isMember)) =
      .ok [some (12, "f", ⟨"Dog", false⟩, true), some (13, "f", ⟨"Cat", false⟩, true)] := by
    decide +kernel
  obtain ⟨draft, hdeclared, hcomplete⟩ := Outcome.bind_ok_iff.mp hhierarchy
  obtain ⟨schema, hschema, hhierarchy⟩ := Outcome.map_ok_iff.mp hcomplete
  rw [hdeclared] at hfields
  simp only [Except.map, Except.ok.injEq, List.map_cons, List.map_nil, Prod.mk.injEq, List.cons.injEq, and_true,
    Option.map_eq_some_iff] at hhierarchy hfields
  obtain ⟨⟨hdogs, hcats, hdogHolder, hcatHolder⟩, ⟨hholder, hobject, hobject'⟩, hdog, hcat⟩ := hhierarchy
  obtain ⟨⟨a, ha, haowner, haname, hatarget, hamember⟩, b, hb, hbowner, hbname, hbtarget, hbmember⟩ := hfields
  obtain ⟨hclaimed, hresolved⟩ := sound_of_complete hdeclared hschema
  obtain ⟨_, _, _, h⟩ := exists_completing hdeclared ((unclaimed_iff hdeclared).mpr hclaimed) hresolved
  have habove := (h.orderedBy hschema).mem_supertypes_iff
  have hmerges {id : FieldId} {field : DraftField} (hfield : draft.complete.2.fields[id]? = some field)
      (hconforms : (schema.type field.owner).supertypes = [10])
      (hkind : (draft.complete.2.type field.owner).kind = .object)
      (hmember : (Completion.completeField id field 0).isMember = true) :
      draft.complete.2.Merges (DirectSupertype Declaration.anyFirst draft) 10 id field := by
    refine ⟨hfield, ⟨field.owner, ?_, .refl⟩, Or.inr (hkind ▸ nofun), fun htypename => ?_⟩
    · refine ((habove field.owner 10).mp ?_).to_reflTransGen
      rw [hconforms]
      exact List.mem_singleton_self 10
    · have hresolver : (Completion.completeField id field 0).resolver = .typename := htypename
      rw [Field.isMember, hresolver] at hmember
      cases hmember
  refine ⟨draft, schema, 10, 1, a, 2, b, hdeclared, hschema, ?_, hholder, ?_, ?_, haname.trans hbname.symm, ?_⟩
  · by_contra hge
    rw [type_of_le (Nat.le_of_not_lt hge)] at hholder
    cases hholder
  · exact hmerges ha (haowner ▸ hdogHolder) (haowner ▸ hobject) hamember
  · exact hmerges hb (hbowner ▸ hcatHolder) (hbowner ▸ hobject') hbmember
  · rintro ⟨_, s, hs, t, ht, hrelated⟩
    rw [hatarget, hdog] at hs
    rw [hbtarget, hcat] at ht
    cases hs
    cases ht
    rw [Relation.reflTransGen_iff_eq_or_transGen, Relation.reflTransGen_iff_eq_or_transGen, ← habove, ← habove,
      hdogs, hcats] at hrelated
    revert hrelated
    decide

end Draft

end GraphQuery
