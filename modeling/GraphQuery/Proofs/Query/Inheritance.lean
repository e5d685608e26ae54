import GraphQuery.Proofs.Query.Fragment
import GraphQuery.Proofs.Schema.Precedence

/-! Inherited fields. A type shows its own field of a name before any other, and the field of a type that it
extends before that of any other supertype. Of other supertypes it shows the field of one to which the search
has found a way past all those that declare the name as well. A more specific one can be passed over, where
there is a way around it. -/

namespace GraphQuery

open Relation (TransGen ReflTransGen)

namespace Schema

/-- One type has another one as a parent. -/
def HasParent (schema : Schema) (type parent : TypeId) : Prop :=
  type ∈ (schema.type parent).included

/-- One type extends another one. -/
def Extends (schema : Schema) (type ancestor : TypeId) : Prop :=
  (schema.type type).ancestor? = some ancestor

/-- A type declares a field of some name that its subtypes take over. They take over nothing from unions, and
each names itself. -/
structure Passes (schema : Schema) (name : String) (source : TypeId) : Prop where
  kind : (schema.type source).kind ≠ .union
  declares : ∃ id ∈ (schema.type source).ownFields, (schema.field id).name = name ∧
    (schema.field id).isTypename = false

/-- A type shows the field of a name that one of its supertypes passes on. -/
structure Inherits (schema : Schema) (owner source : TypeId) (name : String) : Prop where
  supertype : source ∈ (schema.type owner).supertypes
  passes : schema.Passes name source
  shown : ∃ id ∈ (schema.type source).ownFields, schema.lookupField? owner name = some (schema.field id)
  /-- Some way from parent to parent leads to it past no other type that passes on the name. -/
  met_first : Hierarchy.MetFirst schema.HasParent (schema.Passes name) owner source
  /-- Where one of the types that the type extends passes on the name, it is the nearest of these. -/
  nearest : (∃ ancestor, TransGen schema.Extends owner ancestor ∧ schema.Passes name ancestor) →
    Hierarchy.MetFirst schema.Extends (schema.Passes name) owner source

end Schema

namespace Completion.Origin

variable {context : Merge.Context} {built : Schema} (h : Origin context built) (hwithin : context.draft.Within)
  (hreads : context.draft.ReadsReserved)

include h

theorem extends_iff (type ancestor : TypeId) : (Introspection.attach built).Extends type ancestor ↔
    Hierarchy.Extends context.relations type ancestor := by
  change (built.type type).ancestor? = some ancestor ↔
    (context.relations.getD type default).ancestor? = some ancestor
  by_cases hlt : type < built.types.length
  · have hget := List.getElem?_eq_getElem hlt
    rw [Schema.type_eq hget, (relatedOf (h.completed type _ hget)).ancestor_eq]
  · have hge := Nat.le_of_not_lt hlt
    rw [Schema.type_of_le hge, List.getD_eq_default _ _ (h.relations_le.trans hge)]
    rfl

theorem ownFields_eq {id : TypeId} (hid : id < built.types.length) :
    ((Introspection.attach built).type id).ownFields = (context.draft.type id).fields := by
  have hget := List.getElem?_eq_getElem hid
  change (built.type id).ownFields = _
  rw [Schema.type_eq hget, (relatedOf (h.completed id _ hget)).own_eq]

/-- A type finds its own field of a name in itself. -/
theorem foundIn_own {owner : TypeId} {id : FieldId} (hown : id ∈ (context.draft.type owner).fields) :
    Merge.foundIn context owner (context.field id).name owner = some id := by
  obtain ⟨first, hfound⟩ := @Merge.foundIn_isSome context owner _ owner id (Or.inl rfl) hown rfl fun _ => rfl
  obtain ⟨_, hmem, hname, _⟩ := Merge.foundIn_some hfound
  obtain ⟨declared, hdeclared, howner⟩ := h.draft.mem_own_iff.mp hmem
  obtain ⟨declared', hdeclared', howner'⟩ := h.draft.mem_own_iff.mp hown
  rw [Merge.name_declared h.fields hdeclared, Merge.name_declared h.fields hdeclared'] at hname
  rw [hfound, h.draft.own_names _ _ declared declared' hdeclared hdeclared' (howner.trans howner'.symm) hname]

/-- The types that one extends are supertypes of it. -/
theorem supertype_of_chain {owner ancestor : TypeId} (hmem : ancestor ∈ Merge.chainOf context owner) :
    ancestor ∈ context.supertypesOf owner := by
  have hparent := fun id parent => @Hierarchy.ancestor_mem_parents _ _ h.prepared.relations id parent
  refine h.prepared.mem_supertypesOf_iff.mpr ?_
  refine Hierarchy.ancestors_above hparent (fun next hnext => ?_) (fun _ hnone => absurd hnone List.not_mem_nil) _ hmem
  exact TransGen.single (hparent owner next hnext)

section

include hreads

/-- A type finds a field of a name in another one if and only if that passes it on. -/
theorem passes_iff {owner source : TypeId} {name : String} (hsource : source < built.types.length)
    (hne : source ≠ owner) : (Introspection.attach built).Passes name source ↔
      ∃ id, Merge.foundIn context owner name source = some id := by
  have hkind : ((Introspection.attach built).type source).kind = (context.draft.type source).kind :=
    (h.typeOf hsource).kind_eq
  have hown := h.ownFields_eq hsource
  have hfield {id : FieldId} (hmem : id ∈ (context.draft.type source).fields) :
      ((Introspection.attach built).field id).name = (context.field id).name ∧
        ((Introspection.attach built).field id).isTypename = (context.field id).isTypename := by
    obtain ⟨declared, hdeclared, _⟩ := h.draft.mem_own_iff.mp hmem
    refine ⟨?_, (h.kind_of_declared hreads hdeclared).2.symm⟩
    rw [(h.attached_of_declared hdeclared).1, Merge.name_declared h.fields hdeclared]
  constructor
  · rintro ⟨hunion, id, hmem, hname, htypename⟩
    rw [hkind] at hunion
    rw [hown] at hmem
    obtain ⟨hsame, hsort⟩ := hfield hmem
    refine Merge.foundIn_isSome (Or.inr hunion) hmem (hsame.symm.trans hname) fun hnames => ?_
    rw [← hsort, htypename] at hnames
    cases hnames
  · rintro ⟨id, hfound⟩
    obtain ⟨hkept, hmem, hname, hplace⟩ := Merge.foundIn_some hfound
    obtain ⟨hsame, hsort⟩ := hfield hmem
    refine ⟨hkind ▸ hkept.resolve_left hne, id, hown ▸ hmem, hsame.trans hname, ?_⟩
    rw [hsort, Bool.eq_false_iff]
    exact fun hnames => hne (hplace hnames)

end

include hwithin

/-- The parents that the hierarchy has been searched by are those that the schema shows. -/
theorem hasParent_of_names {type parent : TypeId}
    (hnames : Hierarchy.Names (Hierarchy.parentsOf context.relations) type parent) :
    (Introspection.attach built).HasParent type parent := by
  have hget := List.getElem?_eq_getElem (h.parent_lt hwithin hnames)
  change type ∈ (built.type parent).included
  rw [Schema.type_eq hget, (relatedOf (h.completed parent _ hget)).included_eq, childrenOf, List.mem_flatMap]
  have hlt : type < context.relations.length := by
    by_contra hge
    rw [Hierarchy.Names, Hierarchy.parentsOf, List.getD_eq_default _ _ (Nat.le_of_not_lt hge)] at hnames
    cases hnames
  exact ⟨type, List.mem_range.mpr hlt, List.mem_map.mpr
    ⟨parent, List.mem_filter.mpr ⟨hnames, beq_self_eq_true parent⟩, rfl⟩⟩

theorem ancestor_lt {type ancestor : TypeId} (hextends : Hierarchy.Extends context.relations type ancestor) :
    ancestor < context.relations.length := by
  obtain ⟨found, hfound, hlength, _⟩ := Hierarchy.relations_ok h.prepared.resolved
    fun type hmem => (hwithin type hmem).member_lt
  cases hfound.symm.trans h.prepared.relations
  rw [hlength, ← h.length]
  exact h.parent_lt hwithin (Hierarchy.ancestor_mem_parents h.prepared.relations hextends)

/-- Supertypes are other types of the schema. -/
theorem place_of_supertype {owner sup : TypeId} (hsup : sup ∈ context.supertypesOf owner) :
    sup < built.types.length ∧ sup ≠ owner := by
  refine ⟨h.supertype_lt hwithin hsup, ?_⟩
  rintro rfl
  exact h.prepared.acyclic sup hsup

include hreads

section

variable {owner source : TypeId} {name : String} {id : FieldId}

/-- A supertype in which nothing is found passes on nothing. -/
theorem not_passes {sup : TypeId} (hsup : sup ∈ context.supertypesOf owner)
    (hnone : Merge.foundIn context owner name sup = none) : ¬(Introspection.attach built).Passes name sup := by
  intro hpasses
  obtain ⟨hlt, hne⟩ := h.place_of_supertype hwithin hsup
  obtain ⟨id, hfound⟩ := (h.passes_iff hreads hlt hne).mp hpasses
  cases hnone.symm.trans hfound

/-- Among supertypes that are found step by step, steps lead to the first that passes on a name past none
that does. -/
theorem metFirst_of_found {step : TypeId → TypeId → Prop} {ids before after : List TypeId}
    (hsteps : Hierarchy.Stepwise step owner ids) (hids : ids ⊆ context.supertypesOf owner)
    (hsplit : ids = before ++ source :: after)
    (hbefore : ∀ other ∈ before, Merge.foundIn context owner name other = none) :
    Hierarchy.MetFirst step ((Introspection.attach built).Passes name) owner source := by
  refine hsteps.metFirst hsplit fun other hmem => h.not_passes hwithin hreads ?_ (hbefore other hmem)
  exact hids (hsplit ▸ List.mem_append_left _ hmem)

variable (howner : owner < built.types.length) (hcomposite : (built.type owner).isLeaf = false)

include howner hcomposite

/-- Where the first field of a name is found in a supertype, the type shows it. -/
theorem inherits_of_found (hsource : source ∈ context.supertypesOf owner)
    (hfirst : Merge.firstOf context (Merge.offered context owner) name = some id)
    (hfound : Merge.foundIn context owner name source = some id)
    (hmet : Hierarchy.MetFirst (Hierarchy.Names (Hierarchy.parentsOf context.relations))
      ((Introspection.attach built).Passes name) owner source)
    (hnearest : (∃ ancestor, TransGen (Introspection.attach built).Extends owner ancestor ∧
        (Introspection.attach built).Passes name ancestor) →
      Hierarchy.MetFirst (Introspection.attach built).Extends ((Introspection.attach built).Passes name)
        owner source) :
    (Introspection.attach built).Inherits owner source name := by
  obtain ⟨hlt, hne⟩ := h.place_of_supertype hwithin hsource
  rw [← (h.folded howner hcomposite).lookup] at hfirst
  refine ⟨?_, (h.passes_iff hreads hlt hne).mpr ⟨id, hfound⟩, ⟨id, ?_, ?_⟩, ?_, hnearest⟩
  · change source ∈ (built.type owner).supertypes
    rwa [h.supertypesOf_eq]
  · rw [h.ownFields_eq hlt]
    exact (Merge.foundIn_some hfound).2.1
  · exact Option.map_eq_some_iff.mpr ⟨id, hfirst, rfl⟩
  · exact hmet.mono fun _ _ => h.hasParent_of_names hwithin

/-- A name that some supertype passes on and the type does not declare itself is inherited. -/
theorem exists_inherits (hown : Merge.foundIn context owner name owner = none)
    (hpassed : ∃ sup ∈ context.supertypesOf owner, (Introspection.attach built).Passes name sup) :
    ∃ source, (Introspection.attach built).Inherits owner source name := by
  have hfirst := Merge.firstOf_offered context owner name
  rw [hown, Option.none_or] at hfirst
  cases hchain : (Merge.chainOf context owner).findSome? (Merge.foundIn context owner name) with
  | some id =>
      obtain ⟨before, source, after, hsplit, hfound, hbefore⟩ := List.findSome?_eq_some_iff.mp hchain
      have hsource : source ∈ context.supertypesOf owner :=
        h.supertype_of_chain (by rw [hsplit]; exact List.mem_append_right _ List.mem_cons_self)
      have hsteps : Hierarchy.Stepwise (Hierarchy.Extends context.relations) owner (Merge.chainOf context owner) :=
        Hierarchy.stepwise_ancestors .nil fun next hnext => ⟨owner, List.mem_cons_self, hnext⟩
      have hmet := h.metFirst_of_found hwithin hreads hsteps (fun _ => h.supertype_of_chain) hsplit hbefore
      rw [hchain, Option.some_or] at hfirst
      refine ⟨source, h.inherits_of_found hwithin hreads howner hcomposite hsource hfirst hfound ?_ fun _ => ?_⟩
      · exact hmet.mono fun _ _ => Hierarchy.ancestor_mem_parents h.prepared.relations
      · exact hmet.mono fun type ancestor => (h.extends_iff type ancestor).mpr
  | none =>
      have hnone := List.findSome?_eq_none_iff.mp hchain
      cases hsearch : (context.supertypesOf owner).findSome? (Merge.foundIn context owner name) with
      | none =>
          obtain ⟨sup, hsup, hpasses⟩ := hpassed
          have hnothing := List.findSome?_eq_none_iff.mp hsearch sup hsup
          exact absurd hpasses (h.not_passes hwithin hreads hsup hnothing)
      | some id =>
          obtain ⟨before, source, after, hsplit, hfound, hbefore⟩ := List.findSome?_eq_some_iff.mp hsearch
          have hsource : source ∈ context.supertypesOf owner := by
            rw [hsplit]
            exact List.mem_append_right _ List.mem_cons_self
          have hlt : owner < context.supertypes.length := by
            by_contra hge
            rw [Merge.Context.supertypesOf, List.getD_eq_default _ _ (Nat.le_of_not_lt hge)] at hsource
            cases hsource
          have hsteps := Hierarchy.stepwise_supertypes? (Hierarchy.supertypes?_of_lt h.prepared.supertypes hlt)
          have hmet := h.metFirst_of_found hwithin hreads hsteps (List.Subset.refl _) hsplit hbefore
          rw [hchain, Option.none_or, hsearch, Option.some_or] at hfirst
          refine ⟨source, h.inherits_of_found hwithin hreads howner hcomposite hsource hfirst hfound hmet ?_⟩
          -- nothing that the type extends passes on the name, or it would have been found there
          rintro ⟨ancestor, hextends, hpasses⟩
          have hmem : ancestor ∈ Merge.chainOf context owner := by
            have hsame : ∀ type next, (Introspection.attach built).Extends type next →
                Hierarchy.Extends context.relations type next := fun type next => (h.extends_iff type next).mp
            exact Hierarchy.mem_ancestors (fun _ _ => h.ancestor_lt hwithin) (TransGen.mono hsame _ _ hextends)
          have hlacks := h.not_passes hwithin hreads (h.supertype_of_chain hmem) (hnone ancestor hmem)
          exact absurd hpasses hlacks

end

end Completion.Origin

namespace Schema

variable {schema : Schema} (h : schema.Completed) {owner : TypeId} (howner : owner < schema.types.length)
  (hcomposite : (schema.type owner).isLeaf = false)

include h howner hcomposite

/-- A type shows its own field of a name before any other. -/
theorem own_field_shown {name : String} {id : FieldId} (hown : id ∈ (schema.type owner).ownFields)
    (hname : (schema.field id).name = name) : schema.lookupField? owner name = some (schema.field id) := by
  obtain ⟨context, built, horigin, rfl⟩ := h.exists_origin
  rw [horigin.ownFields_eq howner] at hown
  obtain ⟨declared, hdeclared, _⟩ := horigin.draft.mem_own_iff.mp hown
  rw [(horigin.attached_of_declared hdeclared).1, ← Merge.name_declared horigin.fields hdeclared] at hname
  have hfirst := Merge.firstOf_offered context owner name
  rw [← hname, horigin.foundIn_own hown, Option.some_or, ← (horigin.folded howner hcomposite).lookup] at hfirst
  rw [← hname]
  exact Option.map_eq_some_iff.mpr ⟨id, hfirst, rfl⟩

/-- The fields that a type shows take precedence over each other in this order. A type shows its own field of
a name. Otherwise, where some supertype passes on the name, it shows the field of one that it meets first:
the nearest one that it extends, if any of these passes on the name, and else one that a way from parent to
parent leads to past no other that does. So it misses a more specific one at most where there is a way around
that. -/
theorem lookup_precedence (name : String) :
    (∀ id ∈ (schema.type owner).ownFields, (schema.field id).name = name →
      schema.lookupField? owner name = some (schema.field id)) ∧
    ((∀ id ∈ (schema.type owner).ownFields, (schema.field id).name ≠ name) →
      (∃ sup ∈ (schema.type owner).supertypes, schema.Passes name sup) →
      ∃ source, schema.Inherits owner source name ∧
        ∀ other, schema.Passes name other → Hierarchy.MetFirst schema.HasParent (· = other) owner source) := by
  refine ⟨fun id hown hname => own_field_shown h howner hcomposite hown hname, fun hlacks hpassed => ?_⟩
  obtain ⟨context, built, horigin, rfl, hwithin, hreads⟩ := h.exists_origin_keeping
    (Completion.stable_within.and Completion.stable_readsReserved) fun _ draft hdeclared =>
      ⟨(Draft.within_declareAll hdeclared : draft.Within), Completion.readsReserved_declareAll hdeclared⟩
  have hown : Merge.foundIn context owner name owner = none := by
    cases hfound : Merge.foundIn context owner name owner with
    | none => rfl
    | some id =>
        obtain ⟨_, hmem, hname, _⟩ := Merge.foundIn_some hfound
        obtain ⟨declared, hdeclared, _⟩ := horigin.draft.mem_own_iff.mp hmem
        refine absurd ?_ (hlacks id (by rwa [horigin.ownFields_eq howner]))
        rw [(horigin.attached_of_declared hdeclared).1, ← Merge.name_declared horigin.fields hdeclared, hname]
  have hpassed : ∃ sup ∈ context.supertypesOf owner, (Introspection.attach built).Passes name sup := by
    obtain ⟨sup, hsup, hpasses⟩ := hpassed
    change sup ∈ (built.type owner).supertypes at hsup
    exact ⟨sup, by rwa [← horigin.supertypesOf_eq], hpasses⟩
  obtain ⟨source, hinherits⟩ := horigin.exists_inherits hwithin hreads howner hcomposite hown hpassed
  refine ⟨source, hinherits, fun other hother => ?_⟩
  obtain ⟨last, hpath, hlast⟩ := hinherits.met_first
  have hpast : ∀ type next, (Introspection.attach built).HasParent type next ∧
      ¬(Introspection.attach built).Passes name next →
        (Introspection.attach built).HasParent type next ∧ ¬next = other := by
    rintro type next ⟨hparent, hpasses⟩
    exact ⟨hparent, fun heq => hpasses (heq ▸ hother)⟩
  exact ⟨last, Relation.ReflTransGen.mono hpast _ _ hpath, hlast⟩

end Schema

/-- Declarations of a menagerie. Dogs are pets and, to say it again, named, as pets are; cats extend animals and
are furry, as some animals are; and some cats are strays. -/
def Declaration.menagerie : List Declaration :=
  [.type (.ofKind .interface "Named"), .type ⟨"Pet", none, none, ["Named"], .interface⟩,
    .type ⟨"Dog", none, none, ["Pet", "Named"], .object⟩, .type (.ofKind .object "Animal"),
    .type ⟨"Furry", none, none, ["Animal"], .interface⟩, .type ⟨"Cat", none, some "Animal", ["Furry"], .object⟩,
    .type (.ofKind .union "Stray"), .unionMember 13 12, .field 7 (.plain "name" "String"),
    .field 8 (.plain "name" "String"), .field 10 (.plain "age" "Int"), .field 11 (.plain "age" "Int"),
    .field 13 (.plain "label" "String")]

/-- The schema of a menagerie: types 7 to 13 are what is named, pets, dogs, animals, what is furry, cats and
strays, and fields 0 to 4 those declared. -/
def Schema.menagerie : Schema :=
  ((Draft.start.declareAll Declaration.menagerie).bind fun draft => draft.complete.1).toOption.get
    (by decide +kernel)

theorem Schema.menagerie_completed : Schema.menagerie.Completed :=
  Schema.completed_of_toOption (Option.some_get _).symm

/-- Cats show the age of animals, which they extend: from them there is a way to animals past what is furry. -/
theorem Schema.menagerie_lookup_precedence :
    (∃ sup ∈ (Schema.menagerie.type 12).supertypes, Schema.menagerie.Passes "age" sup) ∧
      ∃ source, Schema.menagerie.Inherits 12 source "age" ∧
        Hierarchy.MetFirst Schema.menagerie.HasParent (· = 11) 12 source := by
  have hplaces : 12 < Schema.menagerie.types.length ∧ (Schema.menagerie.type 12).isLeaf = false ∧
      (∀ id ∈ (Schema.menagerie.type 12).ownFields, (Schema.menagerie.field id).name ≠ "age") ∧
      11 ∈ (Schema.menagerie.type 12).supertypes ∧ (Schema.menagerie.type 11).kind ≠ .union ∧
      ∃ id ∈ (Schema.menagerie.type 11).ownFields, (Schema.menagerie.field id).name = "age" ∧
        (Schema.menagerie.field id).isTypename = false := by
    decide +kernel
  obtain ⟨hlt, hcomposite, hlacks, hfurry, hkind, hage⟩ := hplaces
  have hpasses : Schema.menagerie.Passes "age" 11 := ⟨hkind, hage⟩
  obtain ⟨source, hinherits, haround⟩ := (lookup_precedence menagerie_completed hlt hcomposite "age").2 hlacks
    ⟨11, hfurry, hpasses⟩
  exact ⟨⟨11, hfurry, hpasses⟩, source, hinherits, haround 11 hpasses⟩

/-- Of all supertypes that declare a name which a type does not declare itself, a most specific one wins. -/
def Schema.MostSpecificWins (schema : Schema) : Prop :=
  ∀ owner < schema.types.length, (schema.type owner).isLeaf = false → ∀ name : String,
    let declares (id : TypeId) := ∃ field ∈ (schema.type id).ownFields, (schema.field field).name = name
    ¬declares owner → (∃ sup ∈ (schema.type owner).supertypes, declares sup) →
      ∃ source ∈ (schema.type owner).supertypes, ∃ field ∈ (schema.type source).ownFields,
        schema.lookupField? owner name = some (schema.field field) ∧
        ∀ other ∈ (schema.type owner).supertypes, other ≠ source → schema.isSubtype other source = true →
          ¬declares other

/-- A type passes over a supertype that declares a name, for one that it is a subtype of or for none. -/
def Schema.PassesOver (schema : Schema) (owner other : TypeId) (name : String) (shown? : Option TypeId) : Prop :=
  (schema.lookupField? owner name).map Field.declaring = shown? ∧ other ∈ (schema.type owner).supertypes ∧
    (∀ shown ∈ shown?, other ≠ shown ∧ schema.isSubtype other shown = true) ∧
    ∃ field ∈ (schema.type other).ownFields, (schema.field field).name = name

/-- In the menagerie it does not: dogs show the name of what is named, though pets declare one and are named;
cats show the age of animals, though what is furry declares one and is an animal; and cats show no label at
all, though strays declare one. -/
theorem Schema.menagerie_passes_over :
    Schema.menagerie.Completed ∧ ¬Schema.menagerie.MostSpecificWins ∧
      Schema.menagerie.PassesOver 9 8 "name" (some 7) ∧ Schema.menagerie.PassesOver 12 11 "age" (some 10) ∧
      Schema.menagerie.PassesOver 12 13 "label" none := by
  have hplaces : 9 < Schema.menagerie.types.length ∧ (Schema.menagerie.type 9).isLeaf = false ∧
      (∀ id ∈ (Schema.menagerie.type 9).ownFields, (Schema.menagerie.field id).name ≠ "name") ∧
      Schema.menagerie.PassesOver 9 8 "name" (some 7) ∧ Schema.menagerie.PassesOver 12 11 "age" (some 10) ∧
      Schema.menagerie.PassesOver 12 13 "label" none := by
    unfold PassesOver
    decide +kernel
  obtain ⟨hlt, hcomposite, hlacks, hdog, hcat, hstray⟩ := hplaces
  refine ⟨menagerie_completed, fun hwins => ?_, hdog, hcat, hstray⟩
  obtain ⟨hshown, hpet, hbelow, hname⟩ := hdog
  obtain ⟨source, hsource, field, hfield, hlookup, hmost⟩ := hwins 9 hlt hcomposite "name"
    (fun ⟨id, hmem, hsame⟩ => hlacks id hmem hsame) ⟨8, hpet, hname⟩
  have hdeclaring : (Schema.menagerie.field field).declaring = source := by
    have hclosed := menagerie_completed.closed
    have hplace : source < Schema.menagerie.types.length :=
      (hclosed.type_within _ (type_mem hlt)).supertype_lt source hsource
    rw [hclosed.own_declaring _ (type_mem hplace) field hfield, menagerie_completed.wellFormed.id_of_lt hplace]
  rw [hlookup, Option.map_some, Option.some.injEq, hdeclaring] at hshown
  subst hshown
  obtain ⟨hne, hsub⟩ := hbelow 7 rfl
  exact hmost 8 hpet hne hsub hname

end GraphQuery
