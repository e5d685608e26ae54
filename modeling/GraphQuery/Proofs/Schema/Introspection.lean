import GraphQuery.Proofs.Schema.Acceptance
import GraphQuery.Proofs.Schema.Completed

/-! What completion declares itself. Where no shape has the name of a type of introspection, the types of
introspection, their fields, the root fields and the names of types are all new, so that completion gets as
far as to build a schema, from a draft that has come from the declarations by these types and fields alone. -/

namespace GraphQuery

/-- The type without its fields. -/
def DraftType.bare (type : DraftType) : DraftType :=
  { type with fields := [] }

namespace Draft

/-- The draft once the types of introspection have been declared as well. -/
def withIntrospection (draft : Draft) : Draft :=
  Introspection.types.foldl (fun grown type => grown.pushType (.ofKind .object type.1)) draft

/-- A type has no field of a name. -/
def Free (draft : Draft) (owner : TypeId) (name : String) : Prop :=
  ∀ field ∈ draft.fields, field.owner = owner → field.name ≠ name

/-- The types that a field refers to are known. -/
def Refers (draft : Draft) (field : DraftField) : Prop :=
  (∃ id, draft.typeId? field.target.typeName = some id) ∧
    ∀ parameter ∈ field.parameters, draft.rules.contains parameter.type.innermost = true

/-- A consistent draft that has come from another one by fields alone, whose owners and names are
listed. -/
structure Grown (draft grown : Draft) (added : List (TypeId × String)) : Prop where
  consistent : grown.Consistent
  types : grown.types.map DraftType.bare = draft.types.map DraftType.bare
  byShape : grown.byShape = draft.byShape
  byName : grown.byName = draft.byName
  rules : grown.rules = draft.rules
  query : grown.query = draft.query
  free : ∀ owner name, draft.Free owner name → (owner, name) ∉ added → grown.Free owner name
  kept : draft.fields ⊆ grown.fields
  refers : ∀ field ∈ grown.fields, field ∈ draft.fields ∨ draft.Refers field

namespace Grown

variable {draft grown : Draft} {added : List (TypeId × String)}

theorem refl (h : draft.Consistent) : draft.Grown draft [] :=
  ⟨h, rfl, rfl, rfl, rfl, rfl, fun _ _ hfree _ => hfree, List.Subset.refl _, fun _ hmem => Or.inl hmem⟩

theorem refers_iff (h : draft.Grown grown added) {field : DraftField} :
    grown.Refers field ↔ draft.Refers field := by
  rw [Refers, Refers, typeId?, typeId?, h.byName, h.rules]

theorem trans {last : Draft} {more : List (TypeId × String)} (h : draft.Grown grown added)
    (h' : grown.Grown last more) : draft.Grown last (added ++ more) where
  consistent := h'.consistent
  types := h'.types.trans h.types
  byShape := h'.byShape.trans h.byShape
  byName := h'.byName.trans h.byName
  rules := h'.rules.trans h.rules
  query := h'.query.trans h.query
  free owner name hfree hnew := by
    rw [List.mem_append, not_or] at hnew
    exact h'.free owner name (h.free owner name hfree hnew.1) hnew.2
  kept := fun _ hmem => h'.kept (h.kept hmem)
  refers field hmem := by
    rcases h'.refers field hmem with hmem | hrefers
    · exact h.refers field hmem
    · exact Or.inr (h.refers_iff.mp hrefers)

theorem type_bare (h : draft.Grown grown added) (id : TypeId) :
    (grown.type id).bare = (draft.type id).bare := by
  have hget (draft : Draft) : (draft.type id).bare = (draft.types.map DraftType.bare).getD id default := by
    exact (List.getD_map _ _ DraftType.bare).symm
  rw [hget, hget, h.types]

theorem length (h : draft.Grown grown added) : grown.types.length = draft.types.length := by
  have hlength := congrArg List.length h.types
  rwa [List.length_map, List.length_map] at hlength

theorem shape (h : draft.Grown grown added) (id : TypeId) :
    (grown.type id).shape = (draft.type id).shape :=
  (congrArg DraftType.shape (h.type_bare id) :)

theorem interfaces (h : draft.Grown grown added) (id : TypeId) :
    (grown.type id).interfaces = (draft.type id).interfaces :=
  (congrArg DraftType.interfaces (h.type_bare id) :)

theorem members (h : draft.Grown grown added) (id : TypeId) :
    (grown.type id).members = (draft.type id).members :=
  (congrArg DraftType.members (h.type_bare id) :)

end Grown

/-- A declaration of a field that a type takes: it can be read, refers to known types and is new. -/
structure Takes (draft : Draft) (owner : TypeId) (spec : FieldSpec) : Prop where
  composite : owner < draft.types.length ∧ (draft.type owner).kind.isLeaf = false
  name_valid : Text.isName spec.name = true
  typename : spec.name = typenameKey → spec.resolver? = some .typename
  free : draft.Free owner spec.name
  read : ∃ parameters target, Parameter.resolveAll spec.parameters = .ok parameters ∧
    Target.parse spec.target = .ok target ∧ draft.Refers (fieldOf owner spec parameters target)

variable {draft : Draft}

theorem Takes.grown {grown : Draft} {added : List (TypeId × String)} {owner : TypeId} {spec : FieldSpec}
    (h : draft.Takes owner spec) (hgrown : draft.Grown grown added) (hnew : (owner, spec.name) ∉ added) :
    grown.Takes owner spec where
  composite := by
    rw [hgrown.length, DraftType.kind, hgrown.shape]
    exact h.composite
  name_valid := h.name_valid
  typename := h.typename
  free := hgrown.free _ _ h.free hnew
  read := by
    obtain ⟨parameters, target, hparameters, htarget, hrefers⟩ := h.read
    exact ⟨parameters, target, hparameters, htarget, hgrown.refers_iff.mpr hrefers⟩

theorem Free.hasField (h : draft.Consistent) {owner : TypeId} {name : String} (hfree : draft.Free owner name)
    {type : DraftType} (htype : draft.types[owner]? = some type) : draft.hasField type name = false := by
  rw [Draft.hasField, List.any_eq_false]
  intro id hmem
  obtain ⟨field, hfield, howner⟩ := (h.own_iff owner type htype id).mp hmem
  rw [hfield]
  simpa using hfree field (List.mem_of_getElem? hfield) howner

/-- A type does take such a field. -/
theorem Takes.insertField (h : draft.Consistent) {owner : TypeId} {spec : FieldSpec}
    (htakes : draft.Takes owner spec) :
    ∃ id grown, draft.insertField owner spec = .ok (id, grown) ∧
      draft.Grown grown [(owner, spec.name)] := by
  obtain ⟨parameters, target, hparameters, htarget, hrefers⟩ := htakes.read
  obtain ⟨hlt, hleaf⟩ := htakes.composite
  have htype := List.getElem?_eq_getElem hlt
  rw [type_eq htype] at hleaf
  have hdeclared : draft.declared owner = .ok draft.types[owner] := by rw [declared, htype]
  have hok : draft.insertField owner spec = .ok (draft.fields.length,
      { draft.setType owner { draft.types[owner] with
          fields := draft.types[owner].fields ++ [draft.fields.length] } with
        fields := draft.fields ++ [fieldOf owner spec parameters target] }) := by
    simp only [Draft.insertField, htakes.name_valid, hdeclared, bind, Except.bind, hleaf,
      htakes.free.hasField h htype, hparameters, htarget, Bool.not_true, Bool.false_eq_true, if_false]
    rfl
  refine ⟨_, _, hok, h.insertField htakes.typename hok, map_setType DraftType.bare htype rfl, rfl, rfl, rfl,
    rfl, ?_, List.subset_append_left _ _, ?_⟩
  · intro other name hfree hnew field hmem howner hname
    rcases List.mem_append.mp hmem with hmem | hmem
    · exact hfree field hmem howner hname
    · cases List.mem_singleton.mp hmem
      exact hnew (List.mem_singleton.mpr (Prod.ext howner.symm hname.symm))
  · intro field hmem
    refine (List.mem_append.mp hmem).imp_right fun hmem => ?_
    cases List.mem_singleton.mp hmem
    exact hrefers

end Draft

namespace Completion

/-- Fields that a draft takes are declared one after another. -/
theorem run_insertFields {α : Type} {owner : α → Draft → TypeId} {spec : α → FieldSpec}
    {place : α → TypeId} {items : List α} {draft : Draft} (hdraft : draft.Consistent)
    (hplace : ∀ item ∈ items, ∀ grown added, draft.Grown grown added → owner item grown = place item)
    (htakes : ∀ item ∈ items, draft.Takes (place item) (spec item))
    (hnodup : (items.map fun item => (place item, (spec item).name)).Nodup) :
    ∃ grown, ExceptT.run (items.forM fun item => (do
        let _ ← declaring fun draft => draft.insertField (owner item draft) (spec item) : DraftM Unit)) draft =
          (.ok (), grown) ∧
      draft.Grown grown (items.map fun item => (place item, (spec item).name)) := by
  induction items generalizing draft with
  | nil => exact ⟨draft, rfl, Draft.Grown.refl hdraft⟩
  | cons item rest ih =>
      obtain ⟨hhere, hrest⟩ := List.forall_mem_cons.mp htakes
      obtain ⟨hnew, hnodup⟩ := List.nodup_cons.mp hnodup
      obtain ⟨id, next, hok, hnext⟩ := hhere.insertField hdraft
      -- the owner may depend on the draft at the time, but every draft on the way has grown from the first
      have howner : owner item draft = place item :=
        hplace item List.mem_cons_self draft [] (Draft.Grown.refl hdraft)
      obtain ⟨grown, hrun, hgrown⟩ := ih hnext.consistent
        (fun other hmem grown added hgrown =>
          hplace other (List.mem_cons_of_mem _ hmem) grown _ (hnext.trans hgrown))
        (fun other hmem => (hrest other hmem).grown hnext fun hold =>
          hnew (List.mem_map.mpr ⟨other, hmem, List.mem_singleton.mp hold⟩))
        hnodup
      refine ⟨grown, ?_, hnext.trans hgrown⟩
      change ExceptT.run ((do
        let _ ← declaring fun draft => draft.insertField (owner item draft) (spec item)) >>= fun _ => _) draft = _
      rw [Outcome.run_bind, Outcome.run_bind, run_declaring, howner, hok]
      exact hrun

theorem declareShape_eq {draft : Draft} {shape : Shape} (hname : Text.isName shape.name = true)
    (htype : Text.isName shape.typeName = true) (hshape : draft.byShape.lookup shape.name = none)
    (hnew : draft.byName.lookup shape.typeName = none) :
    draft.declareShape shape = .ok (draft.types.length, draft.pushType shape) := by
  simp only [Draft.declareShape, hname, htype, hshape, hnew]
  rfl

/-- New types of valid names are declared one after another. -/
theorem run_declareShapes {β : Type} {types : List (String × β)} {draft : Draft} (hdraft : draft.Consistent)
    (hvalid : ∀ type ∈ types, Text.isName type.1 = true)
    (hshape : ∀ type ∈ types, draft.byShape.lookup type.1 = none)
    (hname : ∀ type ∈ types, draft.byName.lookup type.1 = none) (hnodup : (types.map Prod.fst).Nodup) :
    ExceptT.run (types.mapM fun type => (do
        let id ← declaring fun draft => draft.declareShape (.ofKind .object type.1)
        pure (id, type.2) : DraftM (TypeId × β))) draft =
      (.ok ((types.zipIdx draft.types.length).map fun entry => (entry.2, entry.1.2)),
        types.foldl (fun grown type => grown.pushType (.ofKind .object type.1)) draft) ∧
    (types.foldl (fun grown type => grown.pushType (.ofKind .object type.1)) draft).Consistent := by
  induction types generalizing draft with
  | nil => exact ⟨rfl, hdraft⟩
  | cons type rest ih =>
      obtain ⟨hvalid, hvalids⟩ := List.forall_mem_cons.mp hvalid
      obtain ⟨hshape, hshapes⟩ := List.forall_mem_cons.mp hshape
      obtain ⟨hname, hnames⟩ := List.forall_mem_cons.mp hname
      obtain ⟨hnew, hnodup⟩ := List.nodup_cons.mp hnodup
      have hok := @declareShape_eq draft (.ofKind .object type.1) hvalid hvalid hshape hname
      have hother (entries : List (String × TypeId)) (id : TypeId) (other : String × β) (hmem : other ∈ rest)
          (hlookup : entries.lookup other.1 = none) : (entries ++ [(type.1, id)]).lookup other.1 = none := by
        have hne : other.1 ≠ type.1 := fun heq => hnew (heq ▸ List.mem_map_of_mem hmem)
        rw [List.lookup_append, hlookup, Keyed.lookup_entry, if_neg hne]
        rfl
      obtain ⟨hrun, hgrown⟩ := ih (hdraft.declareShape hok) hvalids
        (fun other hmem => hother _ _ other hmem (hshapes other hmem))
        (fun other hmem => hother _ _ other hmem (hnames other hmem)) hnodup
      refine ⟨?_, hgrown⟩
      have hlength : (draft.pushType (.ofKind .object type.1)).types.length = draft.types.length + 1 :=
        List.length_append
      rw [hlength] at hrun
      rw [List.mapM_cons, Outcome.run_bind, Outcome.run_bind, run_declaring, hok]
      change ExceptT.run ((rest.mapM _ : DraftM _) >>= fun others => pure (_ :: others)) _ = _
      rw [Outcome.run_bind, hrun]
      rfl

/-- A declaration of a field that can be read and refers to strings and to types of introspection only. -/
def selfContained (spec : FieldSpec) : Bool :=
  Text.isName spec.name && match Parameter.resolveAll spec.parameters, Target.parse spec.target with
  | .ok parameters, .ok target =>
    ("String" :: Introspection.types.map Prod.fst).contains target.typeName &&
      parameters.all fun parameter => parameter.type.innermost == "String"
  | _, _ => false

theorem selfContained_members : ∀ type ∈ Introspection.types, ∀ field ∈ type.2,
    selfContained (.plain field.1 field.2) = true := by
  decide +kernel

theorem selfContained_rootFields : ∀ spec ∈ Introspection.rootFields .null, selfContained spec = true := by
  decide +kernel

theorem selfContained_typenameSpec : selfContained typenameSpec = true := by
  decide +kernel

/-- The names of the fields of a type of introspection differ. -/
theorem nodup_members : ∀ type ∈ Introspection.types, (type.2.map Prod.fst).Nodup := by
  decide

theorem nodup_introspection : (Introspection.types.map Prod.fst).Nodup := by
  decide

theorem introspection_reserved : ∀ type ∈ Introspection.types,
    Text.isName type.1 = true ∧ Text.isReserved type.1 = true := by
  decide

theorem forM_addMembers (owners : List (TypeId × List (String × String))) :
    (owners.forM fun (owner, fields) => addMembers owner fields) =
      (owners.flatMap fun owner => owner.2.map fun field => (owner.1, field)).forM fun item => (do
        let _ ← declaring fun draft => draft.insertField item.1 (.plain item.2.1 item.2.2) : DraftM Unit) := by
  induction owners with
  | nil => rfl
  | cons owner rest ih =>
      simp only [List.forM_eq_forM] at ih ⊢
      rw [List.flatMap_cons, List.forM_append, List.forM_map, ← ih]
      rfl

end Completion

namespace Draft

/-- No shape of a draft has the name of a type of introspection. -/
def Unclaimed (draft : Draft) : Prop :=
  ∀ type ∈ Introspection.types, draft.byShape.lookup type.1 = none

theorem Consistent.name_free {draft : Draft} (h : draft.Consistent)
    (hnames : ∀ name ∈ draft.typeNames, Text.isReserved name = false) {name : String}
    (hreserved : Text.isReserved name = true) : draft.byName.lookup name = none := by
  by_contra hfound
  obtain ⟨id, hid⟩ := Option.ne_none_iff_exists'.mp hfound
  have hmem := List.mem_of_getElem? ((h.byName_iff name id).mp hid)
  exact Bool.false_ne_true ((hnames name hmem).symm.trans hreserved)

/-- A draft that has left the names free that completion needs. -/
structure Unreserved (draft : Draft) : Prop extends Consistent draft where
  shape_free : draft.Unclaimed
  typeName_free : ∀ name ∈ draft.typeNames, Text.isReserved name = false
  fieldName_free : ∀ field ∈ draft.fields, Text.isReserved field.name = false
  string_type : "String" ∈ draft.typeNames
  string_rule : draft.rules.contains "String" = true
  query_composite : ∃ type, draft.types[draft.query]? = some type ∧ type.kind.isLeaf = false

/-- Without shapes of reserved names, none has the name of a type of introspection. -/
theorem Recorded.unclaimed {declarations : List Declaration} {draft : Draft}
    (h : draft.Recorded declarations)
    (hnames : ∀ shape, Declaration.type shape ∈ declarations → Text.isReserved shape.name = false) :
    draft.Unclaimed := by
  intro type htype
  have hreserved := (Completion.introspection_reserved type htype).2
  by_contra hfound
  obtain ⟨id, hid⟩ := Option.ne_none_iff_exists'.mp hfound
  obtain ⟨shape, hshape, hname⟩ := h.shape_declared _ (Keyed.mem_of_lookup hid) hreserved
  rw [← hname, hnames shape hshape] at hreserved
  cases hreserved

/-- Accepted declarations take no reserved name for a type or a field, so that only shapes could stand in
the way of completion. Completion starts by closing the draft. -/
theorem Recorded.unreserved {declarations : List Declaration} {draft : Draft}
    (h : draft.Recorded declarations) (hdraft : draft.Consistent) (hfree : draft.Unclaimed) :
    { draft with completed := true }.Unreserved where
  toConsistent := hdraft.congr rfl rfl rfl rfl rfl
  shape_free := hfree
  typeName_free := h.typeName_free
  fieldName_free := h.fieldName_free
  string_type := h.string_type
  string_rule := h.string_rule
  query_composite := h.query_composite

theorem types_withIntrospection (draft : Draft) : draft.withIntrospection.types =
    draft.types ++ Introspection.types.map fun type => ⟨.ofKind .object type.1, none, [], [], []⟩ := by
  simp only [withIntrospection, Introspection.types, List.foldl_cons, List.foldl_nil, pushType,
    List.append_assoc, List.map_cons, List.map_nil, List.cons_append, List.nil_append]

theorem type_withIntrospection_of_lt {draft : Draft} {id : TypeId} (h : id < draft.types.length) :
    draft.withIntrospection.type id = draft.type id := by
  rw [Draft.type, types_withIntrospection, List.getD_append _ _ _ _ h]
  rfl

/-- The types of introspection are objects without relations, and so is every type that is not there. -/
theorem type_withIntrospection_of_le {draft : Draft} {id : TypeId} (h : draft.types.length ≤ id) :
    (draft.withIntrospection.type id).shape.parent? = none ∧
      (draft.withIntrospection.type id).shape.interfaces = [] ∧
      (draft.withIntrospection.type id).kind = .object ∧
      (draft.withIntrospection.type id).interfaces = [] ∧
      (draft.withIntrospection.type id).members = [] := by
  have hall : ∀ type ∈ (Introspection.types.map fun type =>
      (⟨.ofKind .object type.1, none, [], [], []⟩ : DraftType)), type.shape.parent? = none ∧
        type.shape.interfaces = [] ∧ type.kind = .object ∧ type.interfaces = [] ∧ type.members = [] := by
    decide
  rw [Draft.type, types_withIntrospection, List.getD_append_right _ _ _ _ h, List.getD_eq_getElem?_getD]
  cases hget : (Introspection.types.map fun type =>
      (⟨.ofKind .object type.1, none, [], [], []⟩ : DraftType))[id - draft.types.length]? with
  | none => exact ⟨rfl, rfl, rfl, rfl, rfl⟩
  | some type => exact hall type (List.mem_of_getElem? hget)

end Draft

namespace Completion

/-- The fields of the types of introspection, which are declared from a place on. -/
def introspectionMembers (start : TypeId) : List (TypeId × (String × String)) :=
  (Introspection.types.zipIdx start).flatMap fun entry => entry.1.2.map fun field => (entry.2, field)

theorem mem_introspectionMembers {start : TypeId} {item : TypeId × (String × String)}
    (h : item ∈ introspectionMembers start) :
    start ≤ item.1 ∧ item.1 < start + Introspection.types.length ∧
      ∃ type ∈ Introspection.types, item.2 ∈ type.2 := by
  obtain ⟨entry, hentry, hmem⟩ := List.mem_flatMap.mp h
  obtain ⟨field, hfield, rfl⟩ := List.mem_map.mp hmem
  exact ⟨List.le_snd_of_mem_zipIdx hentry, List.snd_lt_add_of_mem_zipIdx hentry, entry.1,
    List.fst_mem_of_mem_zipIdx hentry, hfield⟩

theorem nodup_introspectionMembers (start : TypeId) :
    ((introspectionMembers start).map fun item => (item.1, item.2.1)).Nodup := by
  rw [introspectionMembers, List.map_flatMap, List.nodup_flatMap]
  constructor
  · intro entry hentry
    have hnames := nodup_members entry.1 (List.fst_mem_of_mem_zipIdx hentry)
    have hpairs := hnames.map (Prod.mk_right_injective entry.2)
    rwa [List.map_map] at hpairs ⊢
  · have hplaces : ((Introspection.types.zipIdx start).map Prod.snd).Nodup := by
      rw [List.zipIdx_map_snd]
      exact List.nodup_range'
    refine (List.pairwise_map.mp hplaces).imp fun hne pair hfirst hsecond => hne ?_
    simp only [List.map_map, List.mem_map, Function.comp_apply] at hfirst hsecond
    obtain ⟨_, _, rfl⟩ := hfirst
    obtain ⟨_, _, heq⟩ := hsecond
    exact (congrArg Prod.fst heq).symm

end Completion

namespace Draft.Unreserved

open Completion

variable {draft : Draft}

theorem name_free (h : draft.Unreserved) {name : String} (hreserved : Text.isReserved name = true) :
    draft.byName.lookup name = none :=
  h.toConsistent.name_free h.typeName_free hreserved

/-- The types of introspection are declared. -/
theorem run_types (h : draft.Unreserved) :
    ExceptT.run (Introspection.types.mapM fun type => (do
        let id ← declaring fun draft => draft.declareShape (.ofKind .object type.1)
        pure (id, type.2) : DraftM (TypeId × List (String × String)))) draft =
      (.ok ((Introspection.types.zipIdx draft.types.length).map fun entry => (entry.2, entry.1.2)),
        draft.withIntrospection) ∧
    draft.withIntrospection.Consistent :=
  run_declareShapes h.toConsistent (fun type hmem => (introspection_reserved type hmem).1) h.shape_free
    (fun type hmem => h.name_free (introspection_reserved type hmem).2) nodup_introspection

theorem typeId_known (h : draft.Unreserved) {name : String}
    (hmem : name ∈ "String" :: Introspection.types.map Prod.fst) :
    ∃ id, draft.withIntrospection.typeId? name = some id := by
  have hnames : draft.withIntrospection.typeNames = draft.typeNames ++ Introspection.types.map Prod.fst := by
    rw [typeNames, types_withIntrospection, List.map_append, List.map_map]
    rfl
  have hknown : name ∈ draft.withIntrospection.typeNames := by
    rw [hnames, List.mem_append]
    rcases List.mem_cons.mp hmem with rfl | hmem
    · exact Or.inl h.string_type
    · exact Or.inr hmem
  obtain ⟨id, hid⟩ := List.mem_iff_getElem?.mp hknown
  exact ⟨id, (h.run_types.2.byName_iff name id).mpr hid⟩

/-- A field that refers to strings and to types of introspection only is taken by every type without a
field of its name. -/
theorem takes (h : draft.Unreserved) {owner : TypeId} {spec : FieldSpec}
    (hcomposite : owner < draft.withIntrospection.types.length ∧
      (draft.withIntrospection.type owner).kind.isLeaf = false)
    (htypename : spec.name = typenameKey → spec.resolver? = some .typename)
    (hspec : selfContained spec = true) (hfree : draft.withIntrospection.Free owner spec.name) :
    draft.withIntrospection.Takes owner spec := by
  rw [selfContained, Bool.and_eq_true] at hspec
  obtain ⟨hname, hspec⟩ := hspec
  refine ⟨hcomposite, hname, htypename, hfree, ?_⟩
  split at hspec
  · next parameters target hparameters htarget =>
      rw [Bool.and_eq_true, List.contains_iff_mem, List.all_eq_true] at hspec
      refine ⟨parameters, target, hparameters, htarget, h.typeId_known hspec.1, ?_⟩
      intro parameter hmem
      rw [beq_iff_eq.mp (hspec.2 parameter hmem)]
      exact h.string_rule
  · cases hspec

theorem free_of_reserved (h : draft.Unreserved) (owner : TypeId) {name : String}
    (hreserved : Text.isReserved name = true) : draft.withIntrospection.Free owner name := by
  intro field hmem _ heq
  exact Bool.false_ne_true ((h.fieldName_free field hmem).symm.trans (heq ▸ hreserved))

/-- The fields of the types of introspection are declared. -/
theorem run_members (h : draft.Unreserved) :
    ∃ grown, ExceptT.run (((Introspection.types.zipIdx draft.types.length).map fun entry =>
        (entry.2, entry.1.2)).forM fun (owner, fields) => addMembers owner fields) draft.withIntrospection =
          (.ok (), grown) ∧
      draft.withIntrospection.Grown grown
        ((introspectionMembers draft.types.length).map fun item => (item.1, item.2.1)) := by
  rw [forM_addMembers, List.flatMap_map]
  refine run_insertFields h.run_types.2 (fun _ _ _ _ _ => rfl) ?_ (nodup_introspectionMembers _)
  intro item hmem
  obtain ⟨hle, hlt, type, htype, hfield⟩ := mem_introspectionMembers hmem
  refine h.takes ⟨?_, ?_⟩ ?_ (selfContained_members type htype _ hfield) ?_
  · rw [types_withIntrospection, List.length_append, List.length_map]
    exact hlt
  · rw [(type_withIntrospection_of_le hle).2.2.1]
    rfl
  · exact fun hname => absurd hname (introspection_names type htype _ hfield)
  · intro field hmem howner
    exact absurd howner (Nat.ne_of_lt (Nat.lt_of_lt_of_le (h.owner_lt field hmem) hle))

/-- The root fields are declared as well. -/
theorem run_roots (h : draft.Unreserved) {grown : Draft}
    (hgrown : draft.withIntrospection.Grown grown
      ((introspectionMembers draft.types.length).map fun item => (item.1, item.2.1))) :
    ∃ last, ExceptT.run ((Introspection.rootFields .null).forM fun spec => (do
        let _ ← declaring fun draft => draft.insertField draft.query spec : DraftM Unit)) grown =
          (.ok (), last) ∧
      grown.Grown last ((Introspection.rootFields .null).map fun spec => (draft.query, spec.name)) := by
  obtain ⟨root, hroot, hkind⟩ := h.query_composite
  have hquery := (List.getElem?_eq_some_iff.mp hroot).1
  refine run_insertFields hgrown.consistent ?_ ?_ ?_
  · exact fun _ _ last _ hlast => hlast.query.trans hgrown.query
  · intro spec hmem
    obtain ⟨hreserved, hname, _⟩ := rootFields_constant hmem
    refine (h.takes ⟨?_, ?_⟩ (fun heq => absurd heq hname) (selfContained_rootFields spec hmem)
      (h.free_of_reserved _ hreserved)).grown hgrown ?_
    · rw [types_withIntrospection, List.length_append]
      exact Nat.lt_add_right _ hquery
    · rw [type_withIntrospection_of_lt hquery, type_eq hroot]
      exact hkind
    · -- the members are those of types behind all that the declarations have made, the root among them
      intro hadded
      obtain ⟨item, hitem, heq⟩ := List.mem_map.mp hadded
      have hle := (mem_introspectionMembers hitem).1
      rw [congrArg Prod.fst heq] at hle
      exact Nat.not_lt_of_le hle hquery
  · have hnames : ((Introspection.rootFields .null).map FieldSpec.name).Nodup := by decide
    have hpairs := hnames.map (Prod.mk_right_injective draft.query)
    rwa [List.map_map] at hpairs

/-- The name of the type is declared on every type that has fields. -/
theorem run_typenames (h : draft.Unreserved) {grown : Draft} {added : List (TypeId × String)}
    (hgrown : draft.withIntrospection.Grown grown added)
    (hadded : ∀ entry ∈ added, entry.2 ≠ typenameKey) :
    ∃ last more, addTypenames.run grown = (.ok (), last) ∧ grown.Grown last more := by
  refine Exists.imp (fun last hlast => ⟨_, hlast⟩) (run_insertFields hgrown.consistent
    (fun _ _ _ _ _ => rfl) ?_ ?_)
  · intro id hmem
    obtain ⟨hlt, hkind⟩ := List.mem_filter.mp hmem
    rw [List.mem_range, hgrown.length] at hlt
    rw [Bool.not_eq_true', DraftType.kind, hgrown.shape] at hkind
    refine (h.takes ⟨hlt, hkind⟩ (fun _ => rfl) selfContained_typenameSpec
      (h.free_of_reserved id isReserved_typenameKey)).grown hgrown ?_
    exact fun hknown => hadded _ hknown rfl
  · refine (List.nodup_range.filter _).map fun first second heq => ?_
    exact congrArg Prod.fst heq

/-- All that completion declares itself is accepted. -/
theorem run_completion (h : draft.Unreserved) :
    ∃ grown added, ExceptT.run (do registerIntrospection; addTypenames : DraftM Unit) draft = (.ok (), grown) ∧
      draft.withIntrospection.Grown grown added := by
  obtain ⟨first, hmembers, hfirst⟩ := h.run_members
  obtain ⟨second, hroots, hsecond⟩ := h.run_roots hfirst
  have hnames : ∀ entry ∈ ((introspectionMembers draft.types.length).map fun item => (item.1, item.2.1)) ++
      (Introspection.rootFields .null).map (fun spec => (draft.query, spec.name)),
      entry.2 ≠ typenameKey := by
    intro entry hmem
    rcases List.mem_append.mp hmem with hmem | hmem
    · obtain ⟨item, hitem, rfl⟩ := List.mem_map.mp hmem
      obtain ⟨_, _, type, htype, hfield⟩ := mem_introspectionMembers hitem
      exact introspection_names type htype _ hfield
    · obtain ⟨spec, hspec, rfl⟩ := List.mem_map.mp hmem
      exact (rootFields_constant hspec).2.1
  obtain ⟨last, more, htypenames, hlast⟩ := h.run_typenames (hfirst.trans hsecond) hnames
  refine ⟨last, _, ?_, (hfirst.trans hsecond).trans hlast⟩
  have hregister : registerIntrospection.run draft = (.ok (), second) := by
    unfold registerIntrospection
    rw [Outcome.run_bind, h.run_types.1]
    dsimp only
    rw [Outcome.run_bind, hmembers]
    exact hroots
  rw [Outcome.run_bind, hregister]
  exact htypenames

end Draft.Unreserved

/-- The schema that completion has led to does not count when a schema is built. -/
theorem Completion.build_schema (draft : Draft) (schema? : Option Schema) :
    build { draft with schema? := schema? } = build draft :=
  rfl

/-- Completion builds a schema from the draft and from what it has declared itself. -/
theorem Draft.complete_eq {declarations : List Declaration} {draft : Draft} (hdraft : draft.Consistent)
    (hrecorded : draft.Recorded declarations) (hfree : draft.Unclaimed) :
    (∃ added, draft.withIntrospection.Grown draft.complete.2 added) ∧
      draft.complete.1 = (Completion.build draft.complete.2).map Introspection.attach := by
  obtain ⟨grown, added, hrun, h⟩ := (hrecorded.unreserved hdraft hfree).run_completion
  have hgrown (schema? : Option Schema) :
      draft.withIntrospection.Grown { grown with schema? := schema? } added :=
    ⟨h.consistent.congr rfl rfl rfl rfl rfl, h.types, h.byShape, h.byName, h.rules, h.query, h.free, h.kept,
      h.refers⟩
  have hopen : draft.ensureOpen = .ok () := by
    rw [ensureOpen, hrecorded.still_open]
    rfl
  unfold Draft.complete
  rw [hopen]
  dsimp only
  rw [hrun]
  dsimp only
  cases hbuild : Completion.build grown with
  | error error =>
      dsimp only
      rw [hbuild]
      exact ⟨⟨added, hgrown grown.schema?⟩, rfl⟩
  | ok built =>
      dsimp only
      rw [Completion.build_schema, hbuild]
      exact ⟨⟨added, hgrown _⟩, rfl⟩

end GraphQuery
