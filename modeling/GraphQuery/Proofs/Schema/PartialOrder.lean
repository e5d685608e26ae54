import GraphQuery.Proofs.Schema.Fault
import Mathlib.Order.Bounds.Basic
import Mathlib.Order.Lattice.Nat

/-! The hierarchy of a completed schema is the partial order that the declarations give. What a shape
extends or conforms to and what is declared of interfaces and unions make the direct supertypes; completion
fails where these go round in a circle, and otherwise its supertypes are all that they lead to. -/

namespace GraphQuery

open Relation (TransGen ReflTransGen)

/-- One type is declared to be directly below another one. Names may stand for types of introspection. -/
inductive DirectSupertype (declarations : List Declaration) (draft : Draft) (id parent : TypeId) : Prop where
  | extended {name : String} : (draft.type id).shape.parent? = some name →
      Hierarchy.resolve? draft.withIntrospection name = some parent →
      DirectSupertype declarations draft id parent
  | implemented {name : String} : name ∈ (draft.type id).shape.interfaces →
      Hierarchy.resolve? draft.withIntrospection name = some parent →
      DirectSupertype declarations draft id parent
  | conformance : .conformance parent id ∈ declarations → DirectSupertype declarations draft id parent
  | unionMember : .unionMember parent id ∈ declarations → DirectSupertype declarations draft id parent

/-- One type is a proper subtype of another one by the declarations. -/
abbrev ProperSupertype (declarations : List Declaration) (draft : Draft) : TypeId → TypeId → Prop :=
  TransGen (DirectSupertype declarations draft)

/-- The hierarchy of a schema is the partial order that direct supertypes lead to. -/
structure Schema.OrderedBy (schema : Schema) (direct : TypeId → TypeId → Prop) : Prop where
  nodup : ∀ id, (schema.type id).supertypes.Nodup
  mem_supertypes_iff : ∀ id sup, sup ∈ (schema.type id).supertypes ↔ TransGen direct id sup
  refl : ∀ id, schema.isSubtype id id = true
  trans : ∀ a b c, schema.isSubtype a b = true → schema.isSubtype b c = true → schema.isSubtype a c = true
  antisymm : ∀ a b, schema.isSubtype a b = true → schema.isSubtype b a = true → a = b
  /-- Types are completed, their shapes and their projections with them, from the converse relation. -/
  converse : ∃ context : Merge.Context,
    (∀ id < schema.types.length, Completion.completeType context id = .ok (schema.type id)) ∧
    ∀ sup < schema.types.length, (context.subtypesOf sup).Nodup ∧
      ∀ sub, sub ∈ context.subtypesOf sup ↔ sub ≠ sup ∧ schema.isSubtype sub sup = true
  mem_shapes_iff : ∀ sup < schema.types.length, ∀ name, name ∈ (schema.type sup).shapes ↔
    ∃ sub, schema.isSubtype sub sup = true ∧ (schema.type sub).shape.name = name
  mem_descendants_iff : ∀ sup < schema.types.length, ∀ sub, sub ∈ (schema.type sup).descendants ↔
    sub ≠ sup ∧ schema.isSubtype sub sup = true ∧ (schema.type sub).kind = .object

namespace Draft

/-- A type of a draft has the same relations when types of introspection have been added. -/
theorem relations_withIntrospection (draft : Draft) (id : TypeId) :
    (draft.withIntrospection.type id).shape.parent? = (draft.type id).shape.parent? ∧
      (draft.withIntrospection.type id).shape.interfaces = (draft.type id).shape.interfaces ∧
      (draft.withIntrospection.type id).interfaces = (draft.type id).interfaces ∧
      (draft.withIntrospection.type id).members = (draft.type id).members := by
  by_cases hlt : id < draft.types.length
  · rw [type_withIntrospection_of_lt hlt]
    exact ⟨rfl, rfl, rfl, rfl⟩
  · have hle := Nat.le_of_not_lt hlt
    obtain ⟨hparent, hinterfaces, _, hconformed, hmembers⟩ := type_withIntrospection_of_le hle
    rw [hparent, hinterfaces, hconformed, hmembers, type_of_le hle]
    exact ⟨rfl, rfl, rfl, rfl⟩

variable {declarations : List Declaration} {draft grown : Draft} {added : List (TypeId × String)}

/-- The parents that completion works with are the direct supertypes by the declarations. -/
theorem Grown.directSupertype_iff (hgrown : draft.withIntrospection.Grown grown added)
    (hrecorded : draft.Recorded declarations) {id parent : TypeId} :
    Hierarchy.NamesParent grown (grown.type id) parent ∨ id ∈ (grown.type parent).members ↔
      DirectSupertype declarations draft id parent := by
  obtain ⟨hparent, hinterfaces, hconformed, _⟩ := relations_withIntrospection draft id
  obtain ⟨_, _, _, hmembers⟩ := relations_withIntrospection draft parent
  rw [Hierarchy.NamesParent, hgrown.shape, hgrown.interfaces, hgrown.members, hparent, hinterfaces,
    hconformed, hmembers, hrecorded.interface_iff, hrecorded.member_iff]
  simp only [hgrown.resolve?]
  constructor
  · rintro ((⟨name, hname, hid⟩ | ⟨name, hname, hid⟩ | hmem) | hmem)
    · exact .extended hname hid
    · exact .implemented hname hid
    · exact .conformance hmem
    · exact .unionMember hmem
  · intro h
    cases h with
    | extended hname hid => exact Or.inl (Or.inl ⟨_, hname, hid⟩)
    | implemented hname hid => exact Or.inl (Or.inr (Or.inl ⟨_, hname, hid⟩))
    | conformance hmem => exact Or.inl (Or.inr (Or.inr hmem))
    | unionMember hmem => exact Or.inr hmem

theorem Grown.member_lt (hgrown : draft.withIntrospection.Grown grown added)
    (hrecorded : draft.Recorded declarations) :
    ∀ type ∈ grown.types, ∀ member ∈ type.members, member < grown.types.length := by
  intro type hmem member hmember
  obtain ⟨id, hid⟩ := List.mem_iff_getElem?.mp hmem
  rw [← type_eq hid, hgrown.members, (relations_withIntrospection draft id).2.2.2] at hmember
  have hlt := hrecorded.member_lt _ (type_mem (lt_of_member hmember)) member hmember
  rw [hgrown.length, types_withIntrospection, List.length_append]
  exact Nat.lt_add_right _ hlt

end Draft

namespace DirectSupertype

variable {declarations : List Declaration} {draft : Draft}

theorem lt (hrecorded : draft.Recorded declarations) {id parent : TypeId}
    (h : DirectSupertype declarations draft id parent) : id < draft.types.length := by
  by_contra hge
  have hnone := Draft.type_of_le (Nat.le_of_not_lt hge)
  cases h with
  | extended hname =>
      rw [hnone] at hname
      cases hname
  | implemented hname =>
      rw [hnone] at hname
      cases hname
  | conformance hmem =>
      rw [← hrecorded.interface_iff, hnone] at hmem
      cases hmem
  | unionMember hmem =>
      rw [← hrecorded.member_iff] at hmem
      exact hge (hrecorded.member_lt _ (Draft.type_mem (Draft.lt_of_member hmem)) id hmem)

end DirectSupertype

namespace Hierarchy

variable {draft : Draft} {relations : List Relations} {direct : TypeId → TypeId → Prop}

theorem names_parentsOf (h : ∀ id parent, parent ∈ parentsOf relations id ↔ direct id parent) :
    Names (parentsOf relations) = direct :=
  funext fun id => funext fun parent => propext (h id parent)

/-- Without a circle the supertypes of each type are all that its parents lead to. -/
theorem supertypes_of_acyclic (h : ∀ id parent, parent ∈ parentsOf relations id ↔ direct id parent)
    (hacyclic : ∀ id, ¬TransGen direct id id) :
    ∃ all, supertypes draft relations = .ok all ∧
      ∀ id, (all.getD id []).Nodup ∧ ∀ sup, sup ∈ all.getD id [] ↔ TransGen direct id sup := by
  have hnames := names_parentsOf h
  have hfound : ∀ id < relations.length, supertypes? relations id ≠ none := by
    intro id _ hnone
    rw [supertypes?_eq_none_iff, hnames] at hnone
    exact hacyclic id hnone
  obtain ⟨all, hall, hlength, hget⟩ := @supertypes_ok draft relations hfound
  refine ⟨all, hall, fun id => ?_⟩
  by_cases hid : id < relations.length
  · refine ⟨nodup_supertypes? (hget id hid), fun sup => ?_⟩
    rw [mem_supertypes?_iff (hget id hid), hnames]
  · rw [List.getD_eq_default _ _ (hlength ▸ Nat.le_of_not_lt hid)]
    refine ⟨List.nodup_nil, fun sup => iff_of_false List.not_mem_nil fun habove => ?_⟩
    obtain ⟨parent, hparent, _⟩ := TransGen.head'_iff.mp habove
    rw [← h, parentsOf, List.getD_eq_default _ _ (Nat.le_of_not_lt hid)] at hparent
    cases hparent

/-- The first type on a circle is the one that is named. -/
theorem supertypes_of_cyclic (h : ∀ id parent, parent ∈ parentsOf relations id ↔ direct id parent)
    {id : TypeId} (hfirst : IsLeast {id | TransGen direct id id} id) :
    supertypes draft relations = .error (.cyclicHierarchy (draft.type id).name) := by
  have hnames := names_parentsOf h
  obtain ⟨parent, hparent, _⟩ := TransGen.head'_iff.mp hfirst.1
  have hid : id < relations.length := by
    by_contra hge
    rw [← h, parentsOf, List.getD_eq_default _ _ (Nat.le_of_not_lt hge)] at hparent
    cases hparent
  -- a search can fail only at its own start, so types above a circle but not on it are passed over
  refine supertypes_cyclic hid ?_ fun earlier hlt hnone => ?_
  · rw [supertypes?_eq_none_iff, hnames]
    exact hfirst.1
  · rw [supertypes?_eq_none_iff, hnames] at hnone
    exact Nat.not_le_of_lt hlt (hfirst.2 hnone)

end Hierarchy

namespace Completion

section

variable {context : Merge.Context} {built : Schema} (h : BuiltFrom context built)

include h

theorem BuiltFrom.typeOf {id : TypeId} (hid : id < built.types.length) :
    TypeOf context id (built.type id) := by
  have hget := List.getElem?_eq_getElem hid
  rw [Schema.type_eq hget]
  exact h.types id _ hget

theorem BuiltFrom.nodup_subtypesOf {id : TypeId} (hid : id < built.types.length) :
    (context.subtypesOf id).Nodup := by
  rw [Merge.Context.subtypesOf, h.subtypes_eq, List.getD_eq_getElem?_getD, List.getElem?_map,
    List.getElem?_range hid]
  exact List.nodup_range.filter _

variable {direct : TypeId → TypeId → Prop} (hacyclic : ∀ id, ¬TransGen direct id id)
  (habove : ∀ id sup, sup ∈ context.supertypesOf id ↔ TransGen direct id sup)

include habove

theorem BuiltFrom.isSubtype_iff_above (a b : TypeId) :
    built.isSubtype a b = true ↔ a = b ∨ TransGen direct a b := by
  rw [h.isSubtype_iff, habove]

include hacyclic

theorem BuiltFrom.mem_subtypesOf_iff_ne {sup : TypeId} (hsup : sup < built.types.length) (sub : TypeId) :
    sub ∈ context.subtypesOf sup ↔ sub ≠ sup ∧ built.isSubtype sub sup = true := by
  rw [h.mem_subtypesOf_iff hsup, habove, h.isSubtype_iff_above habove]
  constructor
  · intro hproper
    refine ⟨?_, Or.inr hproper⟩
    rintro rfl
    exact hacyclic sub hproper
  · rintro ⟨hne, heq | hproper⟩
    · exact absurd heq hne
    · exact hproper

/-- A type and its subtypes stand at places of the schema. -/
theorem BuiltFrom.lt_of_isSubtype {sub sup : TypeId} (hsup : sup < built.types.length)
    (hsub : built.isSubtype sub sup = true) : sub < built.types.length := by
  by_cases heq : sub = sup
  · exact heq ▸ hsup
  · exact h.subtypes_lt sup sub ((h.mem_subtypesOf_iff_ne hacyclic habove hsup sub).mpr ⟨heq, hsub⟩)

/-- A schema is ordered by the direct supertypes that its relations hold. -/
theorem BuiltFrom.orderedBy (hnodup : ∀ id, (context.supertypesOf id).Nodup)
    (hcomplete : ∀ (id : TypeId) (type : SchemaType), built.types[id]? = some type →
      completeType context id = .ok type) :
    (Introspection.attach built).OrderedBy direct where
  nodup id := by
    change (built.type id).supertypes.Nodup
    rw [h.supertypesOf_eq]
    exact hnodup id
  mem_supertypes_iff id sup := by
    change sup ∈ (built.type id).supertypes ↔ _
    rw [h.supertypesOf_eq, habove]
  refl id := (h.isSubtype_iff_above habove id id).mpr (Or.inl rfl)
  trans _ _ _ := h.isSubtype_trans
  antisymm a b hab hba := by
    rcases (h.isSubtype_iff_above habove a b).mp hab with heq | hab
    · exact heq
    · rcases (h.isSubtype_iff_above habove b a).mp hba with heq | hba
      · exact heq.symm
      · exact absurd (hab.trans hba) (hacyclic a)
  converse := by
    refine ⟨context, fun id (hid : id < built.types.length) => ?_, fun sup hsup => ?_⟩
    · change completeType context id = .ok (built.type id)
      have hget := List.getElem?_eq_getElem hid
      rw [Schema.type_eq hget]
      exact hcomplete id _ hget
    · exact ⟨h.nodup_subtypesOf hsup, h.mem_subtypesOf_iff_ne hacyclic habove hsup⟩
  mem_shapes_iff sup hsup name := by
    change name ∈ (built.type sup).shapes ↔ ∃ sub, built.isSubtype sub sup = true ∧
      (built.type sub).shape.name = name
    rw [(h.typeOf hsup).shapes_eq, shapesOf, List.mem_map]
    refine exists_congr fun sub => ?_
    rw [List.mem_cons, h.mem_subtypesOf_iff hsup, ← h.isSubtype_iff]
    refine and_congr_right fun hsub => ?_
    rw [(h.typeOf (h.lt_of_isSubtype hacyclic habove hsup hsub)).shape_eq]
  mem_descendants_iff sup hsup sub := by
    change sub ∈ (built.type sup).descendants ↔ sub ≠ sup ∧ built.isSubtype sub sup = true ∧
      (built.type sub).kind = .object
    rw [(h.typeOf hsup).descendants_eq, concreteSubtypes, (Sort.perm_stable _ _).mem_iff, List.mem_filter,
      beq_iff_eq, h.mem_subtypesOf_iff_ne hacyclic habove hsup, and_assoc]
    refine and_congr_right fun _ => and_congr_right fun hsub => ?_
    rw [(h.typeOf (h.lt_of_isSubtype hacyclic habove hsup hsub)).kind_eq]

end

end Completion

namespace Draft

variable {declarations : List Declaration} {draft : Draft}

/-- Completion as far as the relations of types: what it works out of the draft that it has grown. -/
structure Completing (declarations : List Declaration) (draft grown : Draft) (fields : List Field)
    (relations : List Relations) : Prop where
  consistent : grown.Consistent
  fields_eq : Completion.completeFields grown = .ok fields
  relations_eq : Hierarchy.relations grown = .ok relations
  outcome_eq : draft.complete.1 = (Completion.build grown).map Introspection.attach
  left_eq : draft.complete.2 = grown
  parent_iff : ∀ id parent, parent ∈ Hierarchy.parentsOf relations id ↔
    DirectSupertype declarations draft id parent
  name_eq : ∀ id parent, DirectSupertype declarations draft id parent →
    (grown.type id).name = (draft.type id).name

theorem exists_completing (hdeclared : start.declareAll declarations = .ok draft) (hfree : draft.Unclaimed)
    (hresolved : draft.withIntrospection.Resolved) :
    ∃ grown fields relations, draft.Completing declarations grown fields relations := by
  have hrecorded := recorded_declareAll hdeclared
  obtain ⟨⟨added, hgrown⟩, houtcome⟩ := complete_eq (consistent_declareAll hdeclared) hrecorded hfree
  have hresolved := hgrown.resolved hresolved
  obtain ⟨fields, hfields⟩ := Completion.completeFields_of_resolved hresolved
  obtain ⟨relations, hrelations, _, hparents⟩ :=
    Hierarchy.relations_ok hresolved (hgrown.member_lt hrecorded)
  refine ⟨_, fields, relations, hgrown.consistent, hfields, hrelations, houtcome, rfl, ?_, ?_⟩
  · exact fun id parent => (hparents id parent).trans (hgrown.directSupertype_iff hrecorded)
  · intro id parent hdirect
    rw [DraftType.name, hgrown.shape, type_withIntrospection_of_lt (hdirect.lt hrecorded)]
    rfl

namespace Completing

variable {grown : Draft} {fields : List Field} {relations : List Relations}
  (h : draft.Completing declarations grown fields relations)

include h

/-- The first type that is its own supertype is named. -/
theorem error_of_cyclic {id : TypeId} (hfirst : IsLeast {id | ProperSupertype declarations draft id id} id) :
    draft.complete.1 = .error (.cyclicHierarchy (draft.type id).name) := by
  obtain ⟨parent, hdirect, _⟩ := TransGen.head'_iff.mp hfirst.1
  have hsupertypes := @Hierarchy.supertypes_of_cyclic grown relations _ h.parent_iff id hfirst
  rw [h.outcome_eq, Completion.build_of_supertypes_error h.fields_eq h.relations_eq hsupertypes,
    h.name_eq id parent hdirect]
  rfl

theorem cyclic_iff : (∃ name, draft.complete.1 = .error (.cyclicHierarchy name)) ↔
    ∃ id, ProperSupertype declarations draft id id := by
  constructor
  · rintro ⟨name, hname⟩
    by_contra hnone
    obtain ⟨all, hall, _⟩ :=
      @Hierarchy.supertypes_of_acyclic grown relations _ h.parent_iff (not_exists.mp hnone)
    rw [h.outcome_eq, Outcome.map_error_iff] at hname
    obtain ⟨_, _, _, _, hconflict⟩ :=
      Completion.isConflict_of_build_error h.fields_eq h.relations_eq hall hname
    cases hconflict
  · intro hcycle
    exact ⟨_, h.error_of_cyclic ⟨Nat.sInf_mem hcycle, fun _ => Nat.sInf_le⟩⟩

theorem orderedBy {schema : Schema} (hschema : draft.complete.1 = .ok schema) :
    schema.OrderedBy (DirectSupertype declarations draft) := by
  have hacyclic : ∀ id, ¬ProperSupertype declarations draft id id := by
    intro id hcycle
    obtain ⟨name, hname⟩ := h.cyclic_iff.mpr ⟨id, hcycle⟩
    rw [hschema] at hname
    cases hname
  obtain ⟨all, hall, hsupertypes⟩ :=
    @Hierarchy.supertypes_of_acyclic grown relations _ h.parent_iff hacyclic
  rw [h.outcome_eq] at hschema
  obtain ⟨built, hbuilt, rfl⟩ := Outcome.map_ok_iff.mp hschema
  obtain ⟨context, hfrom, hprepared, rfl, htypes⟩ := Completion.build_context h.consistent hbuilt
  -- what the schema has been built from is what the relations lead to
  cases h.relations_eq.symm.trans hprepared.relations
  cases hall.symm.trans hfrom.supertypes
  exact hfrom.orderedBy hacyclic (fun id => (hsupertypes id).2) (fun id => (hsupertypes id).1) htypes

end Completing

/-- The completed hierarchy is a partial order. Where no shape has a reserved name and all references are
resolved, the search for supertypes always comes to its end; completion names the first type that is its
own supertype, where there is one; and otherwise supertypes and subtypes are those by the declarations. -/
theorem complete_hierarchy (hdeclared : start.declareAll declarations = .ok draft)
    (hnames : ∀ shape, Declaration.type shape ∈ declarations → Text.isReserved shape.name = false)
    (hresolved : draft.withIntrospection.Resolved) :
    ∃ relations, Hierarchy.relations draft.complete.2 = .ok relations ∧
      (∀ id parent, parent ∈ Hierarchy.parentsOf relations id ↔
        DirectSupertype declarations draft id parent) ∧
      (∀ id found, Hierarchy.Search (Hierarchy.parentsOf relations) id []
        (Hierarchy.parentsOf relations id).reverse found ↔ found = Hierarchy.supertypes? relations id) ∧
      ((∃ name, draft.complete.1 = .error (.cyclicHierarchy name)) ↔
        ∃ id, ProperSupertype declarations draft id id) ∧
      (∀ id, IsLeast {id | ProperSupertype declarations draft id id} id →
        draft.complete.1 = .error (.cyclicHierarchy (draft.type id).name)) ∧
      ((∀ id, ¬ProperSupertype declarations draft id id) →
        ∃ all, Hierarchy.supertypes draft.complete.2 relations = .ok all ∧
          ∀ id, (all.getD id []).Nodup ∧
            ∀ sup, sup ∈ all.getD id [] ↔ ProperSupertype declarations draft id sup) ∧
      ∀ schema, draft.complete.1 = .ok schema → schema.OrderedBy (DirectSupertype declarations draft) := by
  have hfree := (recorded_declareAll hdeclared).unclaimed hnames
  obtain ⟨grown, fields, relations, h⟩ := exists_completing hdeclared hfree hresolved
  refine ⟨relations, ?_, h.parent_iff, ?_, h.cyclic_iff, fun _ => h.error_of_cyclic, ?_,
    fun _ => h.orderedBy⟩
  · rw [h.left_eq]
    exact h.relations_eq
  · intro id found
    have hsearch := Hierarchy.search_supertypes? relations id
    exact ⟨fun hfound => hfound.unique hsearch, fun heq => heq ▸ hsearch⟩
  · rw [h.left_eq]
    exact Hierarchy.supertypes_of_acyclic h.parent_iff

/-- A foal extends horses, which go round in a circle with mares: it is declared first but not on it. -/
example : ((start.declareAll [.type ⟨"Foal", none, some "Horse", [], .object⟩,
    .type ⟨"Horse", none, some "Mare", [], .object⟩, .type ⟨"Mare", none, some "Horse", [], .object⟩]).bind
      fun draft => draft.complete.1.map fun _ => ()) = .error (.cyclicHierarchy "Horse") := by
  decide +kernel

end Draft

/-- The hierarchy of the kennel is the one that its declarations give. -/
theorem Schema.kennel_orderedBy : ∃ draft, Draft.start.declareAll Declaration.kennel = .ok draft ∧
    Schema.kennel.OrderedBy (DirectSupertype Declaration.kennel draft) := by
  obtain ⟨draft, hdeclared, hcomplete⟩ :=
    Outcome.bind_ok_iff.mp (Outcome.ok_of_toOption (Option.some_get _).symm)
  have hnames : ∀ shape, Declaration.type shape ∈ Declaration.kennel → Text.isReserved shape.name = false := by
    intro shape hmem
    simp only [Declaration.kennel, List.mem_cons, List.not_mem_nil, Declaration.type.injEq, reduceCtorEq,
      or_false] at hmem
    rcases hmem with rfl | rfl | rfl | rfl <;> decide
  have hresolved : ∀ draft ∈ (Draft.start.declareAll Declaration.kennel).toOption,
      draft.withIntrospection.Resolved := by
    decide +kernel
  obtain ⟨_, _, _, _, _, _, _, hordered⟩ :=
    Draft.complete_hierarchy hdeclared hnames (hresolved draft (by rw [hdeclared]; rfl))
  exact ⟨draft, hdeclared, hordered Schema.kennel hcomplete⟩

end GraphQuery
