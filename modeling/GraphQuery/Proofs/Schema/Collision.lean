import GraphQuery.Proofs.Schema.Fault

/-! Collisions with what completion declares itself. A draft knows its shapes by the names that have been
declared. The names of types of introspection are kept from types, but not from shapes that are shown under
another name: completion refuses the first such name, and without one it fails only with faults of the
declarations. -/

namespace GraphQuery

/-- The name under which a declaration makes a shape known. -/
def Declaration.shapeName? : Declaration → Option String
  | .type shape => some shape.name
  | .scalar name _ => some name
  | .enum name _ => some name
  | _ => none

/-- The first type of introspection whose name declarations have given to a shape. -/
def Declaration.claimed? (declarations : List Declaration) : Option String :=
  (Introspection.types.map Prod.fst).find? fun name =>
    (declarations.filterMap Declaration.shapeName?).contains name

/-- Faults of declarations that completion may find. -/
inductive SchemaError.IsFault : SchemaError → Prop where
  | unknownType {name referencedBy : String} : IsFault (.unknownType name referencedBy)
  | invalidRelation {fault : RelationFault} : IsFault (.invalidRelation fault)
  | cyclicHierarchy {typeName : String} : IsFault (.cyclicHierarchy typeName)
  | fieldTypeConflict {typeName field existing conflicting : String} :
      IsFault (.fieldTypeConflict typeName field existing conflicting)

/-! ### Names of shapes -/

namespace Draft

/-- The names of the shapes of a draft, in their order. -/
def shapeNames (draft : Draft) : List String :=
  draft.types.map fun type => type.shape.name

/-- Each name of a shape stands for one type. -/
def ShapesPlaced (draft : Draft) : Prop :=
  Placed draft.byShape draft.shapeNames

variable {draft grown : Draft}

theorem shapeNames_pushType (draft : Draft) (shape : Shape) :
    (draft.pushType shape).shapeNames = draft.shapeNames ++ [shape.name] := by
  rw [shapeNames, pushType, List.map_append]
  rfl

theorem ShapesPlaced.pushType (h : draft.ShapesPlaced) (shape : Shape)
    (hnew : draft.byShape.lookup shape.name = none) : (draft.pushType shape).ShapesPlaced := by
  have hplaced := Placed.push h hnew
  rwa [shapeNames, List.length_map, ← shapeNames, ← shapeNames_pushType] at hplaced

theorem ShapesPlaced.congr (h : draft.ShapesPlaced) (hshape : grown.byShape = draft.byShape)
    (hnames : grown.shapeNames = draft.shapeNames) : grown.ShapesPlaced := by
  rwa [ShapesPlaced, hshape, hnames]

theorem ShapesPlaced.lookup_eq_none_iff (h : draft.ShapesPlaced) {name : String} :
    draft.byShape.lookup name = none ↔ name ∉ draft.shapeNames := by
  rw [← not_iff_not, not_not, ← ne_eq, Option.ne_none_iff_exists', List.mem_iff_getElem?]
  exact exists_congr fun id => h name id

theorem shapesPlaced_start : start.ShapesPlaced := by
  have hbare : (⟨[], [], [], [], .builtIn, 5, 6, false, none⟩ : Draft).ShapesPlaced := by
    simp [ShapesPlaced, Placed, shapeNames]
  exact ((((((hbare.pushType (.ofKind .scalar "Int") rfl).pushType
    (.ofKind .scalar "Float") rfl).pushType
    (.ofKind .scalar "String") rfl).pushType
    (.ofKind .scalar "Boolean") rfl).pushType
    (.ofKind .scalar "ID") rfl).pushType
    (.ofKind .object queryName) rfl).pushType
    (.ofKind .object mutationName) rfl

end Draft

/-- A declaration makes the shape known that it says, and changes no other. -/
theorem Declaration.Change.shapes {declaration : Declaration} {draft grown : Draft}
    (hchange : declaration.Change draft grown) (h : draft.ShapesPlaced) :
    grown.ShapesPlaced ∧ grown.shapeNames = draft.shapeNames ++ declaration.shapeName?.toList := by
  have hset {id : TypeId} {old type : DraftType} (htype : draft.types[id]? = some old)
      (hshape : type.shape = old.shape) : (draft.setType id type).ShapesPlaced ∧
        (draft.setType id type).shapeNames = draft.shapeNames ++ [] := by
    have hsame : (draft.setType id type).shapeNames = draft.shapeNames :=
      Draft.map_setType (fun type => type.shape.name) htype (congrArg Shape.name hshape)
    exact ⟨h.congr rfl hsame, by rw [hsame, List.append_nil]⟩
  cases hchange with
  | type _ hshape =>
      obtain ⟨_, _, hnew, _, _, rfl⟩ := Draft.declareShape_ok hshape
      exact ⟨h.pushType _ hnew, Draft.shapeNames_pushType ..⟩
  | @leaf _ kind name rule _ _ hleaf _ hshape =>
      obtain ⟨_, _, hnew, _, _, rfl⟩ := Draft.declareShape_ok hshape
      have hname : declaration.shapeName? = some name := by
        cases declaration <;> cases hleaf <;> rfl
      rw [hname]
      exact ⟨(h.pushType _ hnew).congr rfl rfl, Draft.shapeNames_pushType ..⟩
  | @field _ owner _ _ _ hfield _ hok =>
      obtain ⟨type, parameters, target, _, htype, _, _, _, _, _, rfl⟩ := Draft.insertField_ok hok
      have hname : declaration.shapeName? = none := by
        cases declaration <;> cases hfield <;> rfl
      rw [hname]
      exact @hset owner type { type with fields := type.fields ++ [draft.fields.length] } htype rfl
  | description htype => exact hset htype rfl
  | conformance htype => exact hset htype rfl
  | unionMember htype => exact hset htype rfl

namespace Draft

variable {declarations : List Declaration} {draft : Draft}

/-- A draft knows the shapes that it starts with and those that have been declared. -/
theorem shapes_declareAll (h : start.declareAll declarations = .ok draft) :
    draft.ShapesPlaced ∧
      draft.shapeNames = start.shapeNames ++ declarations.filterMap Declaration.shapeName? := by
  refine Outcome.foldlM_records
    (fun before state => state.ShapesPlaced ∧
      state.shapeNames = start.shapeNames ++ before.filterMap Declaration.shapeName?)
    (fun before added state next hbefore hnext => ?_) ⟨shapesPlaced_start, (List.append_nil _).symm⟩ h
  obtain ⟨hplaced, hnames⟩ := (Declaration.change_of_ok hnext).2.shapes hbefore.1
  refine ⟨hplaced, ?_⟩
  rw [hnames, hbefore.2, List.filterMap_append, List.append_assoc]
  cases hname : added.shapeName? with
  | none => rw [List.filterMap_cons_none hname]; rfl
  | some name => rw [List.filterMap_cons_some hname]; rfl

theorem lookup_introspection_iff (h : start.declareAll declarations = .ok draft)
    {type : String × List (String × String)} (htype : type ∈ Introspection.types) :
    draft.byShape.lookup type.1 = none ↔
      (declarations.filterMap Declaration.shapeName?).contains type.1 = false := by
  have hstart : ∀ type ∈ Introspection.types, type.1 ∉ start.shapeNames := by decide
  obtain ⟨hplaced, hnames⟩ := shapes_declareAll h
  rw [hplaced.lookup_eq_none_iff, hnames, List.mem_append, not_or, and_iff_right (hstart type htype),
    ← Bool.not_eq_true, List.contains_iff_mem]

/-- The names of introspection are left free unless one is claimed for a shape. -/
theorem unclaimed_iff (h : start.declareAll declarations = .ok draft) :
    draft.Unclaimed ↔ Declaration.claimed? declarations = none := by
  rw [Declaration.claimed?, List.find?_eq_none, List.forall_mem_map]
  refine forall₂_congr fun type htype => ?_
  rw [lookup_introspection_iff h htype, Bool.not_eq_true]

end Draft

/-! ### Faults -/

namespace Hierarchy

variable {draft : Draft} {type : DraftType} {error : SchemaError}

theorem resolve_error {name : String} (h : resolve draft type name = .error error) : error.IsFault := by
  unfold resolve at h
  split at h
  · cases h
  · cases h
    exact .unknownType

theorem relationsOf_error (h : relationsOf draft type = .error error) : error.IsFault := by
  rcases Outcome.bind_error_iff.mp h with hancestor | ⟨_, _, h⟩
  · unfold resolveAncestor at hancestor
    split at hancestor
    · cases hancestor
    · rcases Outcome.bind_error_iff.mp hancestor with hname | ⟨_, _, hkind⟩
      · exact resolve_error hname
      · split at hkind
        · cases hkind
          exact .invalidRelation
        · cases hkind
  · rcases Outcome.bind_error_iff.mp h with hinterfaces | ⟨_, _, hpure⟩
    · obtain ⟨_, _, _, hinterface⟩ := Outcome.error_of_foldlM hinterfaces
      rcases Outcome.bind_error_iff.mp hinterface with hname | ⟨_, _, hkind⟩
      · exact resolve_error hname
      · split at hkind
        · cases hkind
        · cases hkind
          exact .invalidRelation
    · cases hpure

theorem relations_error (h : relations draft = .error error) : error.IsFault := by
  rcases Outcome.bind_error_iff.mp h with hsteps | ⟨_, _, hpure⟩
  · obtain ⟨_, _, _, hstep⟩ := Outcome.error_of_foldlM hsteps
    rcases Outcome.bind_error_iff.mp hstep with hown | ⟨_, _, hpure⟩
    · exact relationsOf_error hown
    · cases hpure
  · cases hpure

theorem supertypes_error {relations : List Relations} (h : supertypes draft relations = .error error) :
    error.IsFault := by
  obtain ⟨_, _, hsearch⟩ := Outcome.error_of_mapM h
  split at hsearch
  · cases hsearch
  · cases hsearch
    exact .cyclicHierarchy

end Hierarchy

namespace Completion

variable {draft : Draft} {error : SchemaError}

theorem resolveTarget_error {field : DraftField} (h : resolveTarget draft field = .error error) :
    error.IsFault := by
  unfold resolveTarget at h
  dsimp only at h
  split at h
  · cases h
    exact .unknownType
  · rcases Outcome.bind_error_iff.mp h with hparameters | ⟨_, _, hpure⟩
    · rw [checkParameters] at hparameters
      obtain ⟨parameter, _, hparameter⟩ := Outcome.error_of_forM hparameters
      extract_lets at hparameter
      split at hparameter
      · cases hparameter
      · cases hparameter
        exact .unknownType
    · cases hpure

/-- Building a schema fails with faults of the declarations only. -/
theorem build_error (h : build draft = .error error) : error.IsFault := by
  rcases Outcome.bind_error_iff.mp h with hfields | ⟨_, _, h⟩
  · rcases Outcome.bind_error_iff.mp hfields with htargets | ⟨_, _, hpure⟩
    · obtain ⟨_, _, htarget⟩ := Outcome.error_of_mapM htargets
      exact resolveTarget_error htarget
    · cases hpure
  rcases Outcome.bind_error_iff.mp h with hrelations | ⟨_, _, h⟩
  · exact Hierarchy.relations_error hrelations
  rcases Outcome.bind_error_iff.mp h with hsupertypes | ⟨_, _, h⟩
  · exact Hierarchy.supertypes_error hsupertypes
  rcases Outcome.bind_error_iff.mp h with htypes | ⟨_, _, hpure⟩
  · obtain ⟨_, _, htype⟩ := Outcome.error_of_mapM htypes
    obtain ⟨_, _, _, _, rfl⟩ := completeType_error htype
    exact .fieldTypeConflict
  · cases hpure

end Completion

/-! ### Claimed names -/

namespace Completion

/-- A type of a name that a shape has is refused. -/
theorem declareShape_claimed {draft : Draft} {name : String} (hvalid : Text.isName name = true)
    (hclaimed : draft.byShape.lookup name ≠ none) (kind : TypeKind) :
    draft.declareShape (.ofKind kind name) = .error (.duplicateType name) := by
  have hsome := Option.isSome_iff_ne_none.mpr hclaimed
  simp only [Draft.declareShape, Shape.ofKind, Shape.typeName, Option.getD_none, hvalid, hsome]
  rfl

/-- New types are declared up to the first one whose name a shape has. -/
theorem run_declareShapes_claimed {β : Type} {before after : List (String × β)} {type : String × β}
    {draft : Draft} (hdraft : draft.Consistent)
    (hvalid : ∀ other ∈ before ++ type :: after, Text.isName other.1 = true)
    (hname : ∀ other ∈ before ++ type :: after, draft.byName.lookup other.1 = none)
    (hnodup : ((before ++ type :: after).map Prod.fst).Nodup)
    (hbefore : ∀ other ∈ before, draft.byShape.lookup other.1 = none)
    (hclaimed : draft.byShape.lookup type.1 ≠ none) :
    (ExceptT.run ((before ++ type :: after).mapM fun type => (do
        let id ← declaring fun draft => draft.declareShape (.ofKind .object type.1)
        pure (id, type.2) : DraftM (TypeId × β))) draft).1 = .error (.duplicateType type.1) := by
  rw [List.forall_mem_append, List.forall_mem_cons] at hvalid hname
  rw [List.map_append, List.nodup_append] at hnodup
  obtain ⟨hrun, _⟩ := run_declareShapes hdraft hvalid.1 hbefore hname.1 hnodup.1
  have hkept : (before.foldl (fun grown type => grown.pushType (.ofKind .object type.1)) draft).byShape.lookup
      type.1 ≠ none := by
    refine List.foldlRecOn _ _ (motive := fun grown : Draft => grown.byShape.lookup type.1 ≠ none) hclaimed ?_
    intro grown hgrown other _
    rw [Draft.pushType, List.lookup_append, ne_eq, Option.or_eq_none_iff]
    exact fun hnone => hgrown hnone.1
  rw [List.mapM_append, Outcome.run_bind, hrun]
  dsimp only
  rw [Outcome.run_bind, List.mapM_cons, Outcome.run_bind, Outcome.run_bind, run_declaring,
    declareShape_claimed hvalid.2.1 hkept]

end Completion

namespace Draft

variable {declarations : List Declaration} {draft : Draft}

theorem complete_of_error (hopen : draft.completed = false) {error : SchemaError}
    (h : (Completion.registerIntrospection.run { draft with completed := true }).1 = .error error) :
    draft.complete.1 = .error error := by
  have hensured : draft.ensureOpen = .ok () := by
    rw [ensureOpen, hopen]
    rfl
  have hsteps : (ExceptT.run (do Completion.registerIntrospection; Completion.addTypenames)
      { draft with completed := true }).1 = .error error := Outcome.run_bind_error h
  unfold complete
  rw [hensured]
  dsimp only
  split
  · next herror =>
      rw [herror] at hsteps
      cases hsteps
      rfl
  · next hok =>
      rw [hok] at hsteps
      cases hsteps

/-- Completion refuses the first type of introspection whose name is claimed for a shape. -/
theorem complete_claimed (hdeclared : start.declareAll declarations = .ok draft) {name : String}
    (hclaimed : Declaration.claimed? declarations = some name) :
    draft.complete.1 = .error (.duplicateType name) := by
  have hrecorded := recorded_declareAll hdeclared
  have hdraft := consistent_declareAll hdeclared
  obtain ⟨hname, before, after, hnames, hbefore⟩ := List.find?_eq_some_iff_append.mp hclaimed
  obtain ⟨first, rest, htypes, rfl, hrest⟩ := List.map_eq_append_iff.mp hnames
  obtain ⟨type, last, rfl, rfl, rfl⟩ := List.map_eq_cons_iff.mp hrest
  have hmem : type ∈ Introspection.types := htypes ▸ List.mem_append_right _ List.mem_cons_self
  have hrefused := @Completion.run_declareShapes_claimed _ first last type { draft with completed := true }
    (hdraft.congr rfl rfl rfl rfl rfl)
    (htypes ▸ fun other hother => (Completion.introspection_reserved other hother).1)
    (htypes ▸ fun other hother => hdraft.name_free hrecorded.typeName_free
      (Completion.introspection_reserved other hother).2)
    (htypes ▸ Completion.nodup_introspection) ?_ ?_
  · rw [← htypes] at hrefused
    exact complete_of_error hrecorded.still_open (Outcome.run_bind_error hrefused)
  · intro other hother
    refine (lookup_introspection_iff hdeclared (htypes ▸ List.mem_append_left _ hother)).mpr ?_
    simpa using hbefore other.1 (List.mem_map_of_mem hother)
  · intro hnone
    rw [(lookup_introspection_iff hdeclared hmem).mp hnone] at hname
    cases hname

/-- Accepted declarations collide with what completion declares itself in one way only: where a shape that
is shown under another name has the name of a type of introspection, the first such type is a duplicate.
Without such a shape completion succeeds or fails with a fault of the declarations. -/
theorem complete_collision (hdeclared : start.declareAll declarations = .ok draft) :
    (∀ name, Declaration.claimed? declarations = some name →
      draft.complete.1 = .error (.duplicateType name)) ∧
    (Declaration.claimed? declarations = none →
      ∀ error, draft.complete.1 = .error error → error.IsFault) := by
  refine ⟨fun name => complete_claimed hdeclared, fun hnone error herror => ?_⟩
  obtain ⟨_, houtcome⟩ := complete_eq (consistent_declareAll hdeclared)
    (recorded_declareAll hdeclared) ((unclaimed_iff hdeclared).mpr hnone)
  rw [houtcome, Outcome.map_error_iff] at herror
  exact Completion.build_error herror

/-- The kennel claims no name, and completion finds no fault in it; a shape `__Field` is refused. -/
theorem complete_collision_shown :
    (∃ draft, start.declareAll Declaration.kennel = .ok draft ∧
      ∀ error, draft.complete.1 = .error error → error.IsFault) ∧
    ∃ draft, start.declareAll [.type ⟨"__Field", some "Plot", none, [], .object⟩] = .ok draft ∧
      draft.complete.1 = .error (.duplicateType "__Field") := by
  constructor
  · have hok : (start.declareAll Declaration.kennel).isOk = true := by decide +kernel
    obtain ⟨draft, hdeclared⟩ := Outcome.exists_of_isOk hok
    exact ⟨draft, hdeclared, (complete_collision hdeclared).2 (by decide)⟩
  · have hok : (start.declareAll [.type ⟨"__Field", some "Plot", none, [], .object⟩]).isOk = true := by
      decide +kernel
    obtain ⟨draft, hdeclared⟩ := Outcome.exists_of_isOk hok
    exact ⟨draft, hdeclared, (complete_collision hdeclared).1 "__Field" (by decide)⟩

/-- A shape `__Schema` that is shown as another type is accepted, and then completion finds a duplicate. -/
theorem shape_collides_with_introspection :
    ∃ draft error, start.declareAll [.type ⟨"__Schema", some "Foo", none, [], .object⟩] = .ok draft ∧
      draft.complete.1 = .error error ∧ ¬error.IsFault := by
  have hdeclared : ((start.declareAll [.type ⟨"__Schema", some "Foo", none, [], .object⟩]).bind fun draft =>
      .ok (draft.complete.1.map fun _ => ())) = .ok (.error (.duplicateType "__Schema")) := by
    decide +kernel
  obtain ⟨draft, hdraft, hcomplete⟩ := Outcome.bind_ok_iff.mp hdeclared
  injection hcomplete with hcomplete
  exact ⟨draft, _, hdraft, Outcome.map_error_iff.mp hcomplete, nofun⟩

end Draft

end GraphQuery
