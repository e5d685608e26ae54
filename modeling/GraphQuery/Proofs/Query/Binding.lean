import GraphQuery.Proofs.Outcome
import GraphQuery.Proofs.Query.Level
import GraphQuery.Proofs.Schema.WellFormed
import GraphQuery.Query.Binding

/-! Binding yields bound levels. What a selection set binds to is read off its selections one by one;
the rest follows by recursion into sets and, for spreads, by induction on the fragments that may still
be entered. -/

namespace GraphQuery

namespace Selection

/-- The selections inside a selection. -/
def selections : Selection → List Selection
  | .field _ _ _ selections => selections
  | .inline _ selections => selections
  | .spread _ => []

/-- What holds of a selection set when it holds of all sets right inside it holds of every set. -/
@[elab_as_elim]
theorem set_induction {motive : List Selection → Prop}
    (step : ∀ set, (∀ selection ∈ set, motive selection.selections) → motive set)
    (set : List Selection) : motive set :=
  step set fun selection _ => set_induction step selection.selections
termination_by sizeOf set
decreasing_by
  next hmem =>
    have hset := List.sizeOf_lt_of_mem hmem
    cases selection <;> simp only [Selection.field.sizeOf_spec, Selection.inline.sizeOf_spec,
      Selection.spread.sizeOf_spec, selections, List.nil.sizeOf_spec] at hset ⊢ <;> omega

end Selection

namespace Binder

variable {binder : Binder} {spread : SpreadBinding} {owner : TypeId} {condition? : Option TypeId}
  {depth : Nat}

theorem resolveField_ok {scope : TypeId} {name : String} {field : Field}
    (h : binder.resolveField owner scope name = .ok field) :
    binder.schema.lookupField? scope name = some field ∧ (field.isPost = true ∨
      field.isTypename = true ∨
      ((binder.schema.type owner).projection.slotFor? field.id).isSome = true) := by
  unfold resolveField at h
  dsimp only at h
  split at h
  · cases h
  · next found hfound =>
      split at h
      · next hcarried =>
          cases h
          refine ⟨hfound, ?_⟩
          rw [Bool.or_eq_true, Bool.or_eq_true, or_assoc] at hcarried
          exact hcarried
      · cases h

theorem conditionType_ok {name : String} {type : TypeId} (h : binder.conditionType name = .ok type) :
    ∃ named, binder.schema.typeNamed? name = some named ∧ named.id = type := by
  unfold conditionType at h
  split at h
  · next named hnamed =>
      cases h
      exact ⟨named, hnamed, rfl⟩
  · cases h

/-- The condition that a selection keeps: the innermost one around it, unless that is the parent. -/
def kept (owner : TypeId) (condition? : Option TypeId) : Option TypeId :=
  condition?.filter (· != owner)

/-- What the selections inside a selection of a field bind to, by the target of the field. -/
def bindInside (binder : Binder) (spread : SpreadBinding) (target : TypeId) (depth : Nat)
    (selections : List Selection) : Except EngineError (List BoundSelection) :=
  if (binder.schema.type target).isLeaf then pure []
  else binder.bindSelections spread target none (depth + 1) selections

theorem bindSelection_field {alias? : Option String} {name : String} {supplied : List (String × Literal)}
    {selections : List Selection} :
    binder.bindSelection spread owner condition? depth (.field alias? name supplied selections) = (do
      binder.checkDepth depth
      let field ← binder.resolveField owner ((kept owner condition?).getD owner) name
      let arguments ← binder.bindArguments field supplied
      let children ← binder.bindInside spread field.target depth selections
      pure [⟨name, alias?, field.id, kept owner condition?, arguments, BoundSelection.merge children⟩]) := by
  rw [bindSelection]
  refine congrArg (_ >>= ·) (funext fun _ => congrArg (_ >>= ·) (funext fun field =>
    congrArg (_ >>= ·) (funext fun arguments => ?_)))
  rw [bindInside]
  split <;> rfl

/-- A field binds to one selection of the field that its name stands for under the condition kept. -/
theorem bindSelection_field_ok {alias? : Option String} {name : String}
    {supplied : List (String × Literal)} {selections : List Selection} {bound : List BoundSelection}
    (h : binder.bindSelection spread owner condition? depth (.field alias? name supplied selections) =
      .ok bound) :
    ∃ field arguments children,
      binder.resolveField owner ((kept owner condition?).getD owner) name = .ok field ∧
      bound = [⟨name, alias?, field.id, kept owner condition?, arguments,
        BoundSelection.merge children⟩] ∧
      ((binder.schema.type field.target).isLeaf = true ∧ children = [] ∨
        (binder.schema.type field.target).isLeaf = false ∧
          binder.bindSelections spread field.target none (depth + 1) selections = .ok children) := by
  rw [bindSelection_field] at h
  obtain ⟨_, _, h⟩ := Outcome.bind_ok_iff.mp h
  obtain ⟨field, hfield, h⟩ := Outcome.bind_ok_iff.mp h
  obtain ⟨arguments, _, h⟩ := Outcome.bind_ok_iff.mp h
  obtain ⟨children, hchildren, hpure⟩ := Outcome.bind_ok_iff.mp h
  cases hpure
  refine ⟨field, arguments, children, hfield, rfl, ?_⟩
  unfold bindInside at hchildren
  split at hchildren
  · next hleaf =>
      cases hchildren
      exact Or.inl ⟨hleaf, rfl⟩
  · next hcomposite => exact Or.inr ⟨eq_false_of_ne_true hcomposite, hchildren⟩

theorem bindSelections_cons_ok {selection : Selection} {rest : List Selection}
    {bound : List BoundSelection}
    (h : binder.bindSelections spread owner condition? depth (selection :: rest) = .ok bound) :
    ∃ first others, binder.bindSelection spread owner condition? depth selection = .ok first ∧
      binder.bindSelections spread owner condition? depth rest = .ok others ∧
      bound = first ++ others := by
  obtain ⟨first, hfirst, h⟩ := Outcome.bind_ok_iff.mp h
  obtain ⟨others, hothers, hpure⟩ := Outcome.bind_ok_iff.mp h
  cases hpure
  exact ⟨first, others, hfirst, hothers, rfl⟩

/-- A spread binds to nothing inside its own fragment, and else to what its fragment selects. -/
theorem bindSpread_ok {fuel : Nat} {active : List String} {name : String} {bound : List BoundSelection}
    (h : binder.bindSpread fuel active owner depth name = .ok bound) :
    ∃ fragment, Fragment.named? binder.fragments name = some fragment ∧
      ((name ∈ active ∨ fuel = 0) ∧ bound = [] ∨ name ∉ active ∧ ∃ left type, fuel = left + 1 ∧
        binder.conditionType fragment.condition = .ok type ∧
        binder.bindSelections (binder.bindSpread left (name :: active)) owner (some type) depth
          fragment.selections = .ok bound) := by
  unfold bindSpread at h
  split at h
  · cases h
  · next fragment hfragment =>
      refine ⟨fragment, hfragment, ?_⟩
      split at h
      · next hactive =>
          cases h
          exact Or.inl ⟨Or.inl (List.contains_iff_mem.mp hactive), rfl⟩
      · next hnew =>
          have hnew : name ∉ active := fun hmem => hnew (List.contains_iff_mem.mpr hmem)
          split at h
          · cases h
            exact Or.inl ⟨Or.inr rfl, rfl⟩
          · next left =>
              obtain ⟨type, htype, h⟩ := Outcome.bind_ok_iff.mp h
              exact Or.inr ⟨hnew, left, type, rfl, htype, h⟩

/-! ### Sets of one selection -/

/-- What a selection of a field binds to on a type that rows carry the field of. -/
structure Binds (binder : Binder) (spread : SpreadBinding) (depth : Nat) (supplied : List (String × Literal))
    (selections : List Selection) (field : Field) (arguments : Arguments) (children : List BoundSelection) :
    Prop where
  shallow : binder.checkDepth depth = .ok ()
  accepted : binder.bindArguments field supplied = .ok arguments
  inside : binder.bindInside spread field.target depth selections = .ok children

section

variable {alias? : Option String} {name : String} {supplied : List (String × Literal)} {selections : List Selection}

theorem resolveField_of_slot {scope : TypeId} {field : Field}
    (hlookup : binder.schema.lookupField? scope name = some field)
    (hslot : ((binder.schema.type owner).projection.slotFor? field.id).isSome = true) :
    binder.resolveField owner scope name = .ok field := by
  rw [resolveField, hlookup]
  dsimp only
  rw [hslot, Bool.or_true, if_pos rfl]

theorem bindSelections_field_iff {field : Field}
    (hfield : binder.resolveField owner ((kept owner condition?).getD owner) name = .ok field)
    {bound : List BoundSelection} :
    binder.bindSelections spread owner condition? depth [.field alias? name supplied selections] = .ok bound ↔
      ∃ arguments children, binder.Binds spread depth supplied selections field arguments children ∧
        bound = [⟨name, alias?, field.id, kept owner condition?, arguments, BoundSelection.merge children⟩] := by
  constructor
  · intro h
    obtain ⟨first, _, hfirst, hothers, rfl⟩ := bindSelections_cons_ok h
    cases hothers
    rw [bindSelection_field] at hfirst
    obtain ⟨_, hdepth, hfirst⟩ := Outcome.bind_ok_iff.mp hfirst
    obtain ⟨_, hfield', hfirst⟩ := Outcome.bind_ok_iff.mp hfirst
    cases hfield.symm.trans hfield'
    obtain ⟨arguments, harguments, hfirst⟩ := Outcome.bind_ok_iff.mp hfirst
    obtain ⟨children, hchildren, hpure⟩ := Outcome.bind_ok_iff.mp hfirst
    cases hpure
    exact ⟨arguments, children, ⟨hdepth, harguments, hchildren⟩, rfl⟩
  · rintro ⟨arguments, children, hbinds, rfl⟩
    rw [bindSelections, bindSelection_field, hbinds.shallow, hfield]
    change (binder.bindArguments field supplied >>= _) >>= _ = _
    rw [hbinds.accepted]
    change (binder.bindInside spread field.target depth selections >>= _) >>= _ = _
    rw [hbinds.inside]
    rfl

theorem bindSelections_inline {condition : String} {type : TypeId} (htype : binder.conditionType condition = .ok type) :
    binder.bindSelections spread owner condition? depth [.inline (some condition) selections] =
      binder.bindSelections spread owner (some type) depth selections := by
  rw [bindSelections, bindSelection, htype]
  change (binder.bindSelections spread owner (some type) depth selections >>= fun bound => .ok (bound ++ [])) = _
  simp only [List.append_nil]
  exact bind_pure _

end

/-! ### Bound levels -/

/-- Selections on a parent whose own levels are bound. -/
structure Each (schema : Schema) (owner : TypeId) (bound : List BoundSelection) : Prop where
  selects : ∀ selection ∈ bound, schema.Selects owner selection
  children : ∀ selection ∈ bound,
    schema.Bound (schema.field selection.field).target selection.children

theorem Each.nil (schema : Schema) (owner : TypeId) : Each schema owner [] :=
  ⟨fun _ hmem => absurd hmem List.not_mem_nil, fun _ hmem => absurd hmem List.not_mem_nil⟩

theorem Each.append {schema : Schema} {first others : List BoundSelection}
    (hfirst : Each schema owner first) (hothers : Each schema owner others) :
    Each schema owner (first ++ others) := by
  constructor
  · intro selection hmem
    exact (List.mem_append.mp hmem).elim (hfirst.selects selection) (hothers.selects selection)
  · intro selection hmem
    exact (List.mem_append.mp hmem).elim (hfirst.children selection) (hothers.children selection)

theorem kept_ne (owner : TypeId) (condition? : Option TypeId) : kept owner condition? ≠ some owner := by
  intro h
  obtain ⟨_, hne⟩ := Option.filter_eq_some_iff.mp h
  simp at hne

section

variable (hschema : binder.schema.WellFormed)
  (hspread : ∀ owner depth name bound, spread owner depth name = .ok bound →
    Each binder.schema owner bound)

include hschema hspread

theorem each_of_bindSelections (selections : List Selection) :
    ∀ {owner : TypeId} {condition? : Option TypeId} {depth : Nat} {bound : List BoundSelection},
      binder.bindSelections spread owner condition? depth selections = .ok bound →
      Each binder.schema owner bound := by
  induction selections using Selection.set_induction with
  | step set below =>
      intro owner condition? depth bound h
      induction set generalizing bound with
      | nil =>
          cases h
          exact Each.nil binder.schema owner
      | cons selection rest ih =>
          obtain ⟨first, others, hfirst, hothers, rfl⟩ := bindSelections_cons_ok h
          refine Each.append ?_ (ih (fun other hmem => below other (List.mem_cons_of_mem _ hmem)) hothers)
          have hbelow := @below selection List.mem_cons_self
          cases selection with
          | field alias? name supplied selections =>
              obtain ⟨field, arguments, children, hfield, rfl, hchildren⟩ := bindSelection_field_ok hfirst
              obtain ⟨hlookup, hcarried⟩ := resolveField_ok hfield
              have hplace := Schema.field_eq (hschema.field_of_lookup hlookup)
              have hlevel : binder.schema.Bound field.target (BoundSelection.merge children) := by
                rcases hchildren with ⟨_, rfl⟩ | ⟨_, hchildren⟩
                · exact Schema.Bound.nil binder.schema field.target
                · have heach := hbelow hchildren
                  exact Schema.bound_merge heach.selects heach.children
              constructor
              · intro selection hmem
                rw [List.mem_singleton.mp hmem]
                refine ⟨⟨?_, ?_⟩, kept_ne owner condition?, ⟨field, hlookup, rfl⟩, ?_⟩
                · exact congrArg Field.id hplace
                · dsimp only
                  rw [hplace]
                  exact hcarried
                · dsimp only
                  rw [hplace]
                  intro hleaf
                  rcases hchildren with ⟨_, rfl⟩ | ⟨hcomposite, _⟩
                  · rfl
                  · rw [hcomposite] at hleaf
                    cases hleaf
              · intro selection hmem
                rw [List.mem_singleton.mp hmem]
                dsimp only
                rw [hplace]
                exact hlevel
          | inline name? selections =>
              cases name? with
              | none => exact hbelow hfirst
              | some name =>
                  obtain ⟨type, _, hinner⟩ := Outcome.bind_ok_iff.mp hfirst
                  exact hbelow hinner
          | spread name => exact hspread owner depth name first hfirst

end

variable (hschema : binder.schema.WellFormed)

include hschema

theorem each_of_bindSpread (fuel : Nat) (active : List String) (owner : TypeId) (depth : Nat)
    (name : String) (bound : List BoundSelection)
    (h : binder.bindSpread fuel active owner depth name = .ok bound) :
    Each binder.schema owner bound := by
  induction fuel generalizing active owner depth name bound with
  | zero =>
      obtain ⟨_, _, ⟨_, rfl⟩ | ⟨_, left, _, hfuel, _⟩⟩ := bindSpread_ok h
      · exact Each.nil binder.schema owner
      · cases hfuel
  | succ fuel ih =>
      obtain ⟨fragment, _, ⟨_, rfl⟩ | ⟨_, left, type, hfuel, _, hbound⟩⟩ := bindSpread_ok h
      · exact Each.nil binder.schema owner
      · cases hfuel
        exact each_of_bindSelections hschema (ih (name :: active)) fragment.selections hbound

/-- What the selections of a root type bind to is a bound level. -/
theorem bound_of_bind {root : TypeId} {selections : List Selection} {level : List BoundSelection}
    (h : binder.bind root selections = .ok level) : binder.schema.Bound root level := by
  obtain ⟨bound, hbound, rfl⟩ := Outcome.map_ok_iff.mp h
  have heach := each_of_bindSelections hschema (each_of_bindSpread hschema _ _) selections hbound
  exact Schema.bound_merge heach.selects heach.children

end Binder

theorem Schema.Bound.field_mem {schema : Schema} (hschema : schema.WellFormed) {owner : TypeId}
    {level : List BoundSelection} (h : schema.Bound owner level) {selection : BoundSelection}
    (hmem : selection ∈ level) : schema.field selection.field ∈ schema.fields := by
  obtain ⟨found, hlookup, hid⟩ := (h.selects selection hmem).resolves
  have hget := hschema.field_of_lookup hlookup
  rw [← hid, field_eq hget]
  exact List.mem_of_getElem? hget

/-- The parents of bound levels are types of the schema. -/
theorem Schema.Bound.owner_lt {schema : Schema} (hschema : schema.WellFormed) {top owner : TypeId}
    {selections level : List BoundSelection} (h : schema.Bound top selections)
    (htop : top < schema.types.length) (hbelow : schema.Below top selections owner level) :
    owner < schema.types.length := by
  cases hbelow with
  | refl => exact htop
  | child habove hmem => exact hschema.target_lt _ ((h.of_below habove).field_mem hschema hmem)

/-- Whatever a request binds to is a bound level on one of the roots. -/
theorem Schema.bound_of_bind {schema : Schema} (hschema : schema.WellFormed) {maxDepth : Option Nat}
    {document : Document} {request : Request} {level : List BoundSelection}
    (h : schema.bind maxDepth document request = .ok level) :
    ∃ operation root, document.selectOperation request.operation? = .ok operation ∧
      operation.root schema = .ok root ∧ schema.Bound root level := by
  obtain ⟨operation, hoperation, h⟩ := Outcome.bind_ok_iff.mp h
  obtain ⟨root, hroot, h⟩ := Outcome.bind_ok_iff.mp h
  obtain ⟨vars, _, h⟩ := Outcome.bind_ok_iff.mp h
  exact ⟨operation, root, hoperation, hroot, Binder.bound_of_bind hschema h⟩

/-- What selections on animals bind to. -/
def Schema.animalLevel (selections : List Selection) : List BoundSelection :=
  ((⟨.animals, [], [], none⟩ : Binder).bind 7 selections).toOption.getD []

theorem Schema.animals_bound (selections : List Selection) :
    Schema.animals.Bound 7 (animalLevel selections) := by
  rw [animalLevel]
  cases hbind : (⟨.animals, [], [], none⟩ : Binder).bind 7 selections with
  | error error => exact Bound.nil _ _
  | ok level =>
      have hbound := Binder.bound_of_bind animals_completed.wellFormed hbind
      exact hbound

end GraphQuery
