import GraphQuery.Proofs.Keyed
import GraphQuery.Proofs.Outcome
import GraphQuery.Schema.Completion

/-! Declarations and the drafts that they lead to. Every accepted declaration keeps a draft consistent:
names stand for one type each, a type owns exactly the fields that name it as their owner, and the
fields of one owner have names of their own. Completion only declares more, so that the draft from
which a schema is built is consistent too. -/

namespace GraphQuery

/-- What a caller may declare before completion. -/
inductive Declaration where
  | type (shape : Shape)
  | description (id : TypeId) (text : String)
  | field (owner : TypeId) (spec : FieldSpec)
  | computedField (owner : TypeId) (spec : FieldSpec) (compute : ComputeFunction)
  | mutation (spec : FieldSpec) (effect : Effect)
  | conformance (interface implementer : TypeId)
  | unionMember (union member : TypeId)
  | scalar (name : String) (rule : Rule)
  | enum (name : String) (values : List String)

/-- The draft after a declaration. -/
def Declaration.apply (draft : Draft) : Declaration → Except SchemaError Draft
  | .type shape => (draft.declareType shape).map Prod.snd
  | .description id text => draft.describeType id text
  | .field owner spec => (draft.addField owner spec).map Prod.snd
  | .computedField owner spec compute => (draft.addComputedField owner spec compute).map Prod.snd
  | .mutation spec effect => (draft.addMutation spec effect).map Prod.snd
  | .conformance interface implementer => draft.addInterface interface implementer
  | .unionMember union member => draft.addUnionMember union member
  | .scalar name rule => (draft.addScalar name rule).map Prod.snd
  | .enum name values => (draft.addEnum name values).map Prod.snd

/-- The draft after declarations all of which are accepted. -/
def Draft.declareAll (draft : Draft) (declarations : List Declaration) : Except SchemaError Draft :=
  declarations.foldlM Declaration.apply draft

/-- The place and the declaration of the field that a declaration makes. -/
def Declaration.field? (draft : Draft) : Declaration → Option (TypeId × FieldSpec)
  | .field owner spec => some (owner, spec)
  | .computedField owner spec compute => some (owner, spec.computed compute)
  | .mutation spec effect => some (draft.mutation, spec.mutation effect)
  | _ => none

/-- The leaf type that a declaration makes, with its rule. -/
def Declaration.leaf? : Declaration → Option (TypeKind × String × Rule)
  | .scalar name rule => some (.scalar, name, rule)
  | .enum name values => some (.enum, name, .enumeration values)
  | _ => none

/-- What an accepted declaration changes. -/
inductive Declaration.Change (draft : Draft) : Declaration → Draft → Prop where
  | type {shape : Shape} {id : TypeId} {grown : Draft} :
      Text.isReserved shape.typeName = false → draft.declareShape shape = .ok (id, grown) →
      Change draft (.type shape) grown
  | leaf {declaration : Declaration} {kind : TypeKind} {name : String} {rule : Rule} {id : TypeId}
      {grown : Draft} :
      declaration.leaf? = some (kind, name, rule) → Text.isReserved name = false →
      draft.declareShape (.ofKind kind name) = .ok (id, grown) →
      Change draft declaration
        { grown with rules := { grown.rules with rules := (name, rule) :: grown.rules.rules } }
  | field {declaration : Declaration} {owner : TypeId} {spec : FieldSpec} {id : FieldId} {grown : Draft} :
      declaration.field? draft = some (owner, spec) → Text.isReserved spec.name = false →
      draft.insertField owner spec = .ok (id, grown) → Change draft declaration grown
  | description {id : TypeId} {text : String} {type : DraftType} :
      draft.types[id]? = some type →
      Change draft (.description id text) (draft.setType id { type with description? := some text })
  | conformance {interface implementer : TypeId} {type : DraftType} :
      draft.types[implementer]? = some type →
      Change draft (.conformance interface implementer)
        (draft.setType implementer { type with interfaces := Hierarchy.addNew type.interfaces interface })
  | unionMember {union member : TypeId} {type : DraftType} :
      draft.types[union]? = some type → member < draft.types.length →
      Change draft (.unionMember union member)
        (draft.setType union { type with members := Hierarchy.addNew type.members member })

/-- A schema that accepted declarations and their completion lead to. -/
def Schema.Completed (schema : Schema) : Prop :=
  ∃ declarations draft,
    Draft.start.declareAll declarations = .ok draft ∧ draft.complete.1 = .ok schema

namespace Draft

theorem getElem?_concat_iff {α : Type} {items : List α} {last item : α} {i : Nat} :
    (items ++ [last])[i]? = some item ↔ items[i]? = some item ∨ i = items.length ∧ last = item := by
  rcases Nat.lt_trichotomy i items.length with hlt | heq | hgt
  · rw [List.getElem?_append_left hlt]
    exact ⟨Or.inl, fun h => h.resolve_right fun h => absurd h.1 (Nat.ne_of_lt hlt)⟩
  · subst heq
    rw [List.getElem?_concat_length, List.getElem?_eq_none (Nat.le_refl _)]
    simp
  · rw [List.getElem?_eq_none (by simp; omega), List.getElem?_eq_none (Nat.le_of_lt hgt)]
    simp
    omega

/-- The names of the types of a draft, in their order. -/
def typeNames (draft : Draft) : List String :=
  draft.types.map DraftType.name

/-- Types, their names and fields that fit together. -/
structure Coherent (draft : Draft) : Prop where
  byName_iff : ∀ (name : String) (id : TypeId),
    draft.byName.lookup name = some id ↔ draft.typeNames[id]? = some name
  typeName_valid : ∀ name ∈ draft.typeNames, Text.isName name = true
  own_iff : ∀ (owner : TypeId) (type : DraftType), draft.types[owner]? = some type →
    ∀ id : FieldId, id ∈ type.fields ↔
      ∃ field : DraftField, draft.fields[id]? = some field ∧ field.owner = owner
  owner_lt : ∀ field ∈ draft.fields, field.owner < draft.types.length
  fieldName_valid : ∀ field ∈ draft.fields, Text.isName field.name = true
  own_names : ∀ (i j : FieldId) (a b : DraftField), draft.fields[i]? = some a →
    draft.fields[j]? = some b → a.owner = b.owner → a.name = b.name → i = j
  typename : ∀ field ∈ draft.fields, field.name = typenameKey → field.resolver = .typename

theorem typeNames_pushType (draft : Draft) (shape : Shape) :
    (draft.pushType shape).typeNames = draft.typeNames ++ [shape.typeName] := by
  rw [typeNames, pushType, List.map_append]
  rfl

/-- Replacing a type by one that agrees with it in some respect changes nothing in that respect. -/
theorem map_setType {α : Type} {draft : Draft} {id : TypeId} {old type : DraftType} (respect : DraftType → α)
    (hold : draft.types[id]? = some old) (hsame : respect type = respect old) :
    (draft.setType id type).types.map respect = draft.types.map respect := by
  obtain ⟨hlt, hget⟩ := List.getElem?_eq_some_iff.mp hold
  rw [setType, List.map_set, hsame, ← hget, ← List.getElem_map respect, List.set_getElem_self]
  rwa [List.length_map]

theorem typeNames_setType {draft : Draft} {id : TypeId} {old type : DraftType}
    (hold : draft.types[id]? = some old) (hname : type.name = old.name) :
    (draft.setType id type).typeNames = draft.typeNames :=
  map_setType DraftType.name hold hname

/-- Names stand for the places at which they are listed. -/
def Placed (entries : List (String × TypeId)) (names : List String) : Prop :=
  ∀ (name : String) (id : TypeId), entries.lookup name = some id ↔ names[id]? = some name

theorem Placed.push {entries : List (String × TypeId)} {names : List String} {added : String}
    (h : Placed entries names) (hnew : entries.lookup added = none) :
    Placed (entries ++ [(added, names.length)]) (names ++ [added]) := by
  intro name id
  rw [List.lookup_append, Keyed.lookup_entry, List.lookup_nil, getElem?_concat_iff, Option.or_eq_some_iff,
    h name id]
  constructor
  · rintro (hold | ⟨_, hadded⟩)
    · exact Or.inl hold
    · split at hadded
      · next hname =>
          cases hadded
          exact Or.inr ⟨rfl, hname.symm⟩
      · cases hadded
  · rintro (hold | ⟨rfl, rfl⟩)
    · exact Or.inl hold
    · exact Or.inr ⟨hnew, if_pos rfl⟩

namespace Coherent

variable {draft : Draft}

theorem congr {other : Draft} (h : draft.Coherent) (htypes : other.types = draft.types)
    (hnames : other.byName = draft.byName) (hfields : other.fields = draft.fields) :
    other.Coherent := by
  have hall : other.typeNames = draft.typeNames := by rw [typeNames, typeNames, htypes]
  constructor
  · rw [hall, hnames]
    exact h.byName_iff
  · rw [hall]
    exact h.typeName_valid
  · rw [htypes, hfields]
    exact h.own_iff
  · rw [htypes, hfields]
    exact h.owner_lt
  · rw [hfields]
    exact h.fieldName_valid
  · rw [hfields]
    exact h.own_names
  · rw [hfields]
    exact h.typename

theorem pushType (h : draft.Coherent) (shape : Shape) (hvalid : Text.isName shape.typeName = true)
    (hnew : draft.byName.lookup shape.typeName = none) : (draft.pushType shape).Coherent where
  byName_iff := by
    have hplaced := Placed.push h.byName_iff hnew
    rwa [typeNames, List.length_map, ← typeNames, ← typeNames_pushType] at hplaced
  typeName_valid := by
    intro name hmem
    rw [typeNames_pushType] at hmem
    rcases List.mem_append.mp hmem with hmem | hmem
    · exact h.typeName_valid name hmem
    · rw [List.mem_singleton.mp hmem]
      exact hvalid
  own_iff := by
    intro owner type htype id
    rcases getElem?_concat_iff.mp htype with hold | ⟨rfl, rfl⟩
    · exact h.own_iff owner type hold id
    · constructor
      · intro hmem
        cases hmem
      · rintro ⟨field, hfield, howner⟩
        exact absurd howner (Nat.ne_of_lt (h.owner_lt field (List.mem_of_getElem? hfield)))
  owner_lt field hmem := by
    have hlength : (draft.pushType shape).types.length = draft.types.length + 1 :=
      List.length_append
    rw [hlength]
    exact Nat.lt_succ_of_lt (h.owner_lt field hmem)
  fieldName_valid := h.fieldName_valid
  own_names := h.own_names
  typename := h.typename

/-- Replacing a type by one of the same name with the same fields. -/
theorem setType (h : draft.Coherent) {id : TypeId} {old type : DraftType}
    (hold : draft.types[id]? = some old) (hname : type.name = old.name)
    (hfields : type.fields = old.fields) : (draft.setType id type).Coherent := by
  have hall := typeNames_setType hold hname
  constructor
  · rw [hall]
    exact h.byName_iff
  · rw [hall]
    exact h.typeName_valid
  · intro owner found hfound field
    by_cases heq : id = owner
    · subst heq
      rw [Draft.setType, List.getElem?_set_self (List.getElem?_eq_some_iff.mp hold).1] at hfound
      cases hfound
      rw [hfields]
      exact h.own_iff id old hold field
    · rw [Draft.setType, List.getElem?_set_ne heq] at hfound
      exact h.own_iff owner found hfound field
  · intro field hmem
    rw [show (draft.setType id type).types.length = draft.types.length from List.length_set]
    exact h.owner_lt field hmem
  · exact h.fieldName_valid
  · exact h.own_names
  · exact h.typename

/-- A field that its owner does not have yet is added to both the fields and their owner. -/
theorem pushField (h : draft.Coherent) {owner : TypeId} {type : DraftType} {field : DraftField}
    (htype : draft.types[owner]? = some type) (howner : field.owner = owner)
    (hvalid : Text.isName field.name = true) (hnew : draft.hasField type field.name = false)
    (htypename : field.name = typenameKey → field.resolver = .typename) :
    { draft.setType owner { type with fields := type.fields ++ [draft.fields.length] } with
      fields := draft.fields ++ [field] }.Coherent := by
  have hlt : owner < draft.types.length := (List.getElem?_eq_some_iff.mp htype).1
  have hall : (draft.setType owner { type with fields := type.fields ++ [draft.fields.length] }).typeNames =
      draft.typeNames := typeNames_setType htype rfl
  have hfresh (i : FieldId) (other : DraftField) (hother : draft.fields[i]? = some other)
      (hsame : other.owner = field.owner) : other.name ≠ field.name := by
    intro hname
    have hmem := (h.own_iff owner type htype i).mpr ⟨other, hother, hsame.trans howner⟩
    have hany := List.any_eq_false.mp hnew i hmem
    rw [hother] at hany
    simp [hname] at hany
  constructor
  · exact hall ▸ h.byName_iff
  · exact hall ▸ h.typeName_valid
  · intro other found hfound id
    simp only [getElem?_concat_iff]
    by_cases heq : owner = other
    · subst heq
      rw [Draft.setType, List.getElem?_set_self hlt] at hfound
      cases hfound
      rw [List.mem_append, List.mem_singleton, h.own_iff owner type htype id]
      constructor
      · rintro (⟨own, hown, hsame⟩ | rfl)
        · exact ⟨own, Or.inl hown, hsame⟩
        · exact ⟨field, Or.inr ⟨rfl, rfl⟩, howner⟩
      · rintro ⟨own, hown | ⟨rfl, _⟩, hsame⟩
        · exact Or.inl ⟨own, hown, hsame⟩
        · exact Or.inr rfl
    · rw [Draft.setType, List.getElem?_set_ne heq] at hfound
      rw [h.own_iff other found hfound id]
      constructor
      · rintro ⟨own, hown, hsame⟩
        exact ⟨own, Or.inl hown, hsame⟩
      · rintro ⟨own, hown | ⟨_, rfl⟩, hsame⟩
        · exact ⟨own, hown, hsame⟩
        · exact absurd (howner.symm.trans hsame) heq
  · intro other hmem
    have hlength : (draft.types.set owner
        { type with fields := type.fields ++ [draft.fields.length] }).length = draft.types.length :=
      List.length_set
    rcases List.mem_append.mp hmem with hmem | hmem
    · exact hlength ▸ h.owner_lt other hmem
    · rw [List.mem_singleton.mp hmem, howner]
      exact hlength ▸ hlt
  · intro other hmem
    rcases List.mem_append.mp hmem with hmem | hmem
    · exact h.fieldName_valid other hmem
    · rw [List.mem_singleton.mp hmem]
      exact hvalid
  · intro i j a b ha hb hsame hname
    rcases getElem?_concat_iff.mp ha with ha | ⟨rfl, rfl⟩ <;>
      rcases getElem?_concat_iff.mp hb with hb | ⟨rfl, rfl⟩
    · exact h.own_names i j a b ha hb hsame hname
    · exact absurd hname (hfresh i a ha hsame)
    · exact absurd hname.symm (hfresh j b hb hsame.symm)
    · rfl
  · intro other hmem
    rcases List.mem_append.mp hmem with hmem | hmem
    · exact h.typename other hmem
    · rw [List.mem_singleton.mp hmem]
      exact htypename

/-- A type owns the fields that are declared on it. -/
theorem mem_own_iff {draft : Draft} (h : draft.Coherent) {owner : TypeId} {id : FieldId} :
    id ∈ (draft.type owner).fields ↔ ∃ field, draft.fields[id]? = some field ∧ field.owner = owner := by
  rw [Draft.type, List.getD_eq_getElem?_getD]
  cases htype : draft.types[owner]? with
  | some type => exact h.own_iff owner type htype id
  | none =>
      refine iff_of_false List.not_mem_nil ?_
      rintro ⟨field, hfield, rfl⟩
      have hlt := h.owner_lt field (List.mem_of_getElem? hfield)
      rw [List.getElem?_eq_getElem hlt] at htype
      cases htype

end Coherent

/-- What holds of a draft at any time: its roots are there as well. -/
structure Consistent (draft : Draft) : Prop extends Coherent draft where
  query_name : draft.typeNames[draft.query]? = some queryName
  mutation_name : draft.typeNames[draft.mutation]? = some mutationName

namespace Consistent

variable {draft : Draft}

/-- The roots stay where they are while types are added. -/
theorem grow {other : Draft} (h : draft.Consistent) (hother : other.Coherent)
    (hnames : ∃ more, other.typeNames = draft.typeNames ++ more) (hquery : other.query = draft.query)
    (hmutation : other.mutation = draft.mutation) : other.Consistent := by
  obtain ⟨more, hmore⟩ := hnames
  have hkept {id : TypeId} {name : String} (hget : draft.typeNames[id]? = some name) :
      other.typeNames[id]? = some name := by
    rw [hmore, List.getElem?_append_left (List.getElem?_eq_some_iff.mp hget).1]
    exact hget
  refine ⟨hother, ?_, ?_⟩
  · rw [hquery]
    exact hkept h.query_name
  · rw [hmutation]
    exact hkept h.mutation_name

theorem congr {other : Draft} (h : draft.Consistent) (htypes : other.types = draft.types)
    (hnames : other.byName = draft.byName) (hfields : other.fields = draft.fields)
    (hquery : other.query = draft.query) (hmutation : other.mutation = draft.mutation) :
    other.Consistent := by
  refine h.grow (h.toCoherent.congr htypes hnames hfields) ⟨[], ?_⟩ hquery hmutation
  rw [List.append_nil, typeNames, typeNames, htypes]

theorem setType (h : draft.Consistent) {id : TypeId} {old type : DraftType}
    (hold : draft.types[id]? = some old) (hname : type.name = old.name)
    (hfields : type.fields = old.fields) : (draft.setType id type).Consistent := by
  refine h.grow (h.toCoherent.setType hold hname hfields) ⟨[], ?_⟩ rfl rfl
  rw [List.append_nil, typeNames_setType hold hname]

end Consistent

/-! ### Accepted declarations -/

theorem declared_ok {draft : Draft} {id : TypeId} {type : DraftType}
    (h : draft.declared id = .ok type) : draft.types[id]? = some type := by
  unfold declared at h
  split at h
  · next hfound =>
      cases h
      exact hfound
  · cases h

theorem declareShape_ok {draft grown : Draft} {shape : Shape} {id : TypeId}
    (h : draft.declareShape shape = .ok (id, grown)) :
    Text.isName shape.name = true ∧ Text.isName shape.typeName = true ∧
      draft.byShape.lookup shape.name = none ∧ draft.byName.lookup shape.typeName = none ∧
      id = draft.types.length ∧ grown = draft.pushType shape := by
  unfold declareShape at h
  split at h
  · cases h
  · next hname =>
      split at h
      · cases h
      · next htype =>
          split at h
          · cases h
          · next hnew =>
              cases h
              simp only [Bool.not_eq_true', Bool.not_eq_false, Bool.or_eq_true,
                Option.isSome_iff_ne_none, not_or, not_not, ne_eq] at hname htype hnew
              exact ⟨hname, htype, hnew.1, hnew.2, rfl, rfl⟩

/-- The field that a declaration makes, once its parameters and its target have been read. -/
def fieldOf (owner : TypeId) (spec : FieldSpec) (parameters : List Parameter) (target : Target) :
    DraftField where
  owner := owner
  name := spec.name
  target := target
  parameters := parameters
  resolver := spec.resolver?.getD (.member spec.name)
  resolution? := spec.resolution?
  cost? := spec.cost?
  store? := spec.store?
  description? := spec.description?

theorem insertField_ok {draft grown : Draft} {owner : TypeId} {spec : FieldSpec} {id : FieldId}
    (h : draft.insertField owner spec = .ok (id, grown)) :
    ∃ type parameters target, Text.isName spec.name = true ∧ draft.types[owner]? = some type ∧
      type.kind.isLeaf = false ∧ draft.hasField type spec.name = false ∧
      Parameter.resolveAll spec.parameters = .ok parameters ∧ Target.parse spec.target = .ok target ∧
      id = draft.fields.length ∧
      grown = { draft.setType owner { type with fields := type.fields ++ [draft.fields.length] } with
        fields := draft.fields ++ [fieldOf owner spec parameters target] } := by
  unfold insertField at h
  split at h
  · cases h
  · next hname =>
      obtain ⟨type, htype, h⟩ := Outcome.bind_ok_iff.mp h
      split at h
      · cases h
      · next hleaf =>
          split at h
          · cases h
          · next hnew =>
              obtain ⟨parameters, hparameters, h⟩ := Outcome.bind_ok_iff.mp h
              obtain ⟨target, htarget, h⟩ := Outcome.bind_ok_iff.mp h
              cases h
              simp only [Bool.not_eq_true', Bool.not_eq_false, Bool.not_eq_true] at hname hleaf hnew
              exact ⟨type, parameters, target, hname, declared_ok htype, hleaf, hnew, hparameters,
                htarget, rfl, rfl⟩

theorem Consistent.declareShape {draft grown : Draft} {shape : Shape} {id : TypeId}
    (h : draft.Consistent) (hok : draft.declareShape shape = .ok (id, grown)) : grown.Consistent := by
  obtain ⟨_, hvalid, _, hnew, _, rfl⟩ := declareShape_ok hok
  exact h.grow (h.pushType shape hvalid hnew) ⟨_, typeNames_pushType draft shape⟩ rfl rfl

/-- The name of the field for type names is for that resolver only. -/
theorem Consistent.insertField {draft grown : Draft} {owner : TypeId} {spec : FieldSpec} {id : FieldId}
    (h : draft.Consistent) (hspec : spec.name = typenameKey → spec.resolver? = some .typename)
    (hok : draft.insertField owner spec = .ok (id, grown)) : grown.Consistent := by
  obtain ⟨type, parameters, target, hvalid, htype, _, hnew, _, _, _, rfl⟩ := insertField_ok hok
  have hkept := @typeNames_setType draft owner type
    { type with fields := type.fields ++ [draft.fields.length] } htype rfl
  refine h.grow (h.pushField htype (rfl : (fieldOf owner spec parameters target).owner = owner) hvalid
    hnew fun hname => ?_) ⟨[], ?_⟩ rfl rfl
  · simp [fieldOf, hspec hname]
  · rw [List.append_nil]
    exact hkept

theorem isReserved_typenameKey : Text.isReserved typenameKey = true := by decide

end Draft

namespace Draft

theorem setType_self {draft : Draft} {id : TypeId} {type : DraftType} (h : draft.types[id]? = some type) :
    draft.setType id type = draft := by
  obtain ⟨hlt, rfl⟩ := List.getElem?_eq_some_iff.mp h
  rw [setType, List.set_getElem_self]

theorem ensureOpen_ok {draft : Draft} (h : draft.ensureOpen = .ok ()) : draft.completed = false := by
  unfold ensureOpen at h
  split at h
  · cases h
  · next hopen => exact Bool.eq_false_iff.mpr hopen

variable {draft grown : Draft}

theorem declareType_ok {shape : Shape} {id : TypeId} (h : draft.declareType shape = .ok (id, grown)) :
    draft.completed = false ∧ Text.isReserved shape.typeName = false ∧
      draft.declareShape shape = .ok (id, grown) := by
  obtain ⟨_, hopen, h⟩ := Outcome.bind_ok_iff.mp h
  split at h
  · cases h
  · next hname => exact ⟨ensureOpen_ok hopen, Bool.eq_false_iff.mpr hname, h⟩

theorem addField_ok {owner : TypeId} {spec : FieldSpec} {id : FieldId}
    (h : draft.addField owner spec = .ok (id, grown)) :
    draft.completed = false ∧ Text.isReserved spec.name = false ∧
      draft.insertField owner spec = .ok (id, grown) := by
  obtain ⟨_, hopen, h⟩ := Outcome.bind_ok_iff.mp h
  split at h
  · cases h
  · next hname => exact ⟨ensureOpen_ok hopen, Bool.eq_false_iff.mpr hname, h⟩

theorem addLeaf_ok {declaration : Declaration} {kind : TypeKind} {name : String} {rule : Rule}
    {id : TypeId} (hleaf : declaration.leaf? = some (kind, name, rule))
    (h : draft.addLeaf kind name rule = .ok (id, grown)) :
    draft.completed = false ∧ declaration.Change draft grown := by
  obtain ⟨⟨_, declared⟩, hdeclared, h⟩ := Outcome.bind_ok_iff.mp h
  obtain ⟨rules, hrules, hpure⟩ := Outcome.bind_ok_iff.mp h
  cases hpure
  obtain ⟨hopen, hname, hshape⟩ := declareType_ok hdeclared
  unfold RuleRegistry.register at hrules
  split at hrules
  · cases hrules
  · cases hrules
    exact ⟨hopen, .leaf hleaf hname hshape⟩

theorem addInterface_ok {interface implementer : TypeId}
    (h : draft.addInterface interface implementer = .ok grown) :
    draft.completed = false ∧ (Declaration.conformance interface implementer).Change draft grown := by
  obtain ⟨_, hopen, h⟩ := Outcome.bind_ok_iff.mp h
  obtain ⟨_, _, h⟩ := Outcome.bind_ok_iff.mp h
  refine ⟨ensureOpen_ok hopen, ?_⟩
  split at h
  · cases h
  · obtain ⟨type, htype, h⟩ := Outcome.bind_ok_iff.mp h
    have hchange := @Declaration.Change.conformance draft interface implementer type (declared_ok htype)
    split at h
    · cases h
    · split at h
      · next hknown =>
          cases h
          rwa [Hierarchy.addNew, if_pos hknown, setType_self (declared_ok htype)] at hchange
      · next hnew =>
          cases h
          rwa [Hierarchy.addNew, if_neg hnew] at hchange

theorem addUnionMember_ok {union member : TypeId} (h : draft.addUnionMember union member = .ok grown) :
    draft.completed = false ∧ (Declaration.unionMember union member).Change draft grown := by
  obtain ⟨_, hopen, h⟩ := Outcome.bind_ok_iff.mp h
  obtain ⟨_, hjoined, h⟩ := Outcome.bind_ok_iff.mp h
  obtain ⟨type, htype, h⟩ := Outcome.bind_ok_iff.mp h
  have hmember := (List.getElem?_eq_some_iff.mp (declared_ok hjoined)).1
  have hchange := @Declaration.Change.unionMember draft union member type (declared_ok htype) hmember
  refine ⟨ensureOpen_ok hopen, ?_⟩
  split at h
  · cases h
  · split at h
    · next hknown =>
        cases h
        rwa [Hierarchy.addNew, if_pos hknown, setType_self (declared_ok htype)] at hchange
    · next hnew =>
        cases h
        rwa [Hierarchy.addNew, if_neg hnew] at hchange

end Draft

/-- A declaration is accepted by an open draft only. -/
theorem Declaration.change_of_ok {declaration : Declaration} {draft grown : Draft}
    (h : declaration.apply draft = .ok grown) :
    draft.completed = false ∧ declaration.Change draft grown := by
  cases declaration with
  | type shape =>
      obtain ⟨⟨_, _⟩, hstep, rfl⟩ := Outcome.map_ok_iff.mp h
      obtain ⟨hopen, hname, hshape⟩ := Draft.declareType_ok hstep
      exact ⟨hopen, .type hname hshape⟩
  | description id text =>
      obtain ⟨_, hopen, h⟩ := Outcome.bind_ok_iff.mp h
      obtain ⟨type, htype, h⟩ := Outcome.bind_ok_iff.mp h
      cases h
      exact ⟨Draft.ensureOpen_ok hopen, .description (Draft.declared_ok htype)⟩
  | field owner spec =>
      obtain ⟨⟨_, _⟩, hstep, rfl⟩ := Outcome.map_ok_iff.mp h
      obtain ⟨hopen, hname, hfield⟩ := Draft.addField_ok hstep
      exact ⟨hopen, .field rfl hname hfield⟩
  | computedField owner spec compute =>
      obtain ⟨⟨_, _⟩, hstep, rfl⟩ := Outcome.map_ok_iff.mp h
      obtain ⟨hopen, hname, hfield⟩ := Draft.addField_ok hstep
      exact ⟨hopen, .field rfl hname hfield⟩
  | mutation spec effect =>
      obtain ⟨⟨_, _⟩, hstep, rfl⟩ := Outcome.map_ok_iff.mp h
      obtain ⟨hopen, hname, hfield⟩ := Draft.addField_ok hstep
      exact ⟨hopen, .field rfl hname hfield⟩
  | conformance interface implementer => exact Draft.addInterface_ok h
  | unionMember union member => exact Draft.addUnionMember_ok h
  | scalar name rule =>
      obtain ⟨⟨_, _⟩, hstep, rfl⟩ := Outcome.map_ok_iff.mp h
      exact Draft.addLeaf_ok rfl hstep
  | enum name values =>
      obtain ⟨⟨_, _⟩, hstep, rfl⟩ := Outcome.map_ok_iff.mp h
      exact Draft.addLeaf_ok rfl hstep

namespace Draft

theorem Consistent.change {draft grown : Draft} {declaration : Declaration} (h : draft.Consistent)
    (hchange : declaration.Change draft grown) : grown.Consistent := by
  cases hchange with
  | type _ hshape => exact h.declareShape hshape
  | leaf _ _ hshape => exact (h.declareShape hshape).congr rfl rfl rfl rfl rfl
  | field _ hname hfield =>
      refine h.insertField (fun heq => ?_) hfield
      rw [heq, isReserved_typenameKey] at hname
      cases hname
  | description htype => exact h.setType htype rfl rfl
  | conformance htype => exact h.setType htype rfl rfl
  | unionMember htype => exact h.setType htype rfl rfl

theorem consistent_start : start.Consistent := by
  have hbare : (⟨[], [], [], [], .builtIn, 5, 6, false, none⟩ : Draft).Coherent := by
    constructor <;> simp [typeNames]
  refine ⟨?_, rfl, rfl⟩
  exact ((((((hbare.pushType (.ofKind .scalar "Int") (by decide) rfl).pushType
    (.ofKind .scalar "Float") (by decide) rfl).pushType
    (.ofKind .scalar "String") (by decide) rfl).pushType
    (.ofKind .scalar "Boolean") (by decide) rfl).pushType
    (.ofKind .scalar "ID") (by decide) rfl).pushType
    (.ofKind .object queryName) (by decide) rfl).pushType
    (.ofKind .object mutationName) (by decide) rfl

theorem consistent_declareAll {declarations : List Declaration} {draft : Draft}
    (h : start.declareAll declarations = .ok draft) : draft.Consistent :=
  Outcome.foldlM_preserves Consistent
    (fun _ _ _ _ hstate hnext => hstate.change (Declaration.change_of_ok hnext).2)
    consistent_start h

end Draft

end GraphQuery
