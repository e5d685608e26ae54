import GraphQuery.Proofs.Query.Binding
import GraphQuery.Proofs.Query.Row

/-! Conditions around fields. A field may be selected inside several fragments, each on a type; of these
types binding keeps the innermost one, unless that is the parent type. A row therefore shows what the
innermost conditions let through, which is what all conditions let through only where the innermost
ones say as much. -/

namespace GraphQuery

/-- A field selected inside fragments: the types that these are on, the outermost first, the names of
those that may not be entered again below the field, and what is selected there. -/
structure Enclosed where
  field : FieldId
  outputName : String
  conditions : List TypeId
  active : List String
  selections : List Selection

namespace Enclosed

/-- The condition that binding keeps of those around a field. -/
def kept (owner : TypeId) (enclosed : Enclosed) : Option TypeId :=
  Binder.kept owner enclosed.conditions.getLast?

/-- The signature of the bound selection of a field. -/
def mark (owner : TypeId) (enclosed : Enclosed) : FieldId × Option TypeId × String :=
  (enclosed.field, enclosed.kept owner, enclosed.outputName)

end Enclosed

namespace Binder

variable (binder : Binder) (owner : TypeId)

mutual

/-- The fields that a selection encloses, when it stands itself inside some fragments, whose names are
active, and under some conditions. A fragment encloses nothing inside itself. -/
inductive Encloses : List String → List TypeId → Selection → List Enclosed → Prop where
  | field {active : List String} {conditions : List TypeId} {alias? : Option String} {name : String}
      {supplied : List (String × Literal)} {selections : List Selection} {field : Field}
      (named : binder.schema.lookupField? ((kept owner conditions.getLast?).getD owner) name =
        some field) :
      Encloses active conditions (.field alias? name supplied selections)
        [⟨field.id, alias?.getD name, conditions, active, selections⟩]
  | grouped {active : List String} {conditions : List TypeId} {selections : List Selection}
      {found : List Enclosed} (inside : EnclosesAll active conditions selections found) :
      Encloses active conditions (.inline none selections) found
  | narrowed {active : List String} {conditions : List TypeId} {name : String} {type : SchemaType}
      {selections : List Selection} {found : List Enclosed}
      (named : binder.schema.typeNamed? name = some type)
      (inside : EnclosesAll active (conditions ++ [type.id]) selections found) :
      Encloses active conditions (.inline (some name) selections) found
  | again {active : List String} {conditions : List TypeId} {name : String} (mem : name ∈ active) :
      Encloses active conditions (.spread name) []
  | spread {active : List String} {conditions : List TypeId} {name : String} {fragment : Fragment}
      {type : SchemaType} {found : List Enclosed}
      (defined : Fragment.named? binder.fragments name = some fragment) (new : name ∉ active)
      (named : binder.schema.typeNamed? fragment.condition = some type)
      (inside : EnclosesAll (name :: active) (conditions ++ [type.id]) fragment.selections found) :
      Encloses active conditions (.spread name) found

/-- The fields that a selection set encloses, in the order of its selections. -/
inductive EnclosesAll : List String → List TypeId → List Selection → List Enclosed → Prop where
  | nil {active : List String} {conditions : List TypeId} : EnclosesAll active conditions [] []
  | cons {active : List String} {conditions : List TypeId} {selection : Selection}
      {rest : List Selection} {found others : List Enclosed}
      (first : Encloses active conditions selection found)
      (tail : EnclosesAll active conditions rest others) :
      EnclosesAll active conditions (selection :: rest) (found ++ others)

end

/-- The fields that are enclosed right below a field: none below a leaf. -/
inductive Opens (binder : Binder) (enclosed : Enclosed) : List Enclosed → Prop where
  | leaf (isLeaf : (binder.schema.type (binder.schema.field enclosed.field).target).isLeaf = true) :
      Opens binder enclosed []
  | set {inner : List Enclosed}
      (composite : (binder.schema.type (binder.schema.field enclosed.field).target).isLeaf = false)
      (inside : binder.EnclosesAll (binder.schema.field enclosed.field).target enclosed.active []
        enclosed.selections inner) :
      Opens binder enclosed inner

/-- The fields that are enclosed right below some fields, taken together. -/
inductive Gathers (binder : Binder) : List Enclosed → List Enclosed → Prop where
  | nil : Gathers binder [] []
  | cons {enclosed : Enclosed} {rest inner others : List Enclosed} (first : binder.Opens enclosed inner)
      (tail : Gathers binder rest others) : Gathers binder (enclosed :: rest) (inner ++ others)

/-- The fields of one signature. -/
def marked (owner : TypeId) (mark : FieldId × Option TypeId × String) (found : List Enclosed) :
    List Enclosed :=
  found.filter fun enclosed => decide (enclosed.mark owner = mark)

/-- A level that has one selection for each signature of the fields that a parent encloses, in the order
of the first of each, and below it what the fields of this signature enclose. -/
inductive Unfolds (binder : Binder) : TypeId → List Enclosed → List BoundSelection → Prop where
  | level {owner : TypeId} {found : List Enclosed} {level : List BoundSelection}
      (below : BoundSelection → List Enclosed)
      (marks : level.map BoundSelection.signature =
        Keyed.firsts some (fun _ => false) (found.map (Enclosed.mark owner)))
      (gathered : ∀ selection ∈ level,
        binder.Gathers (marked owner selection.signature found) (below selection))
      (children : ∀ selection ∈ level,
        Unfolds binder (binder.schema.field selection.field).target (below selection)
          selection.children) :
      Unfolds binder owner found level

variable {binder owner}

theorem Gathers.append {first second inner others : List Enclosed} (hfirst : binder.Gathers first inner)
    (hsecond : binder.Gathers second others) : binder.Gathers (first ++ second) (inner ++ others) := by
  induction hfirst with
  | nil => exact hsecond
  | cons hopens _ ih =>
      rw [List.cons_append, List.append_assoc]
      exact .cons hopens ih

namespace Unfolds

variable {found more : List Enclosed} {level : List BoundSelection}

theorem marks (h : binder.Unfolds owner found level) : level.map BoundSelection.signature =
    Keyed.firsts some (fun _ => false) (found.map (Enclosed.mark owner)) := by
  cases h with
  | level _ hmarks _ _ => exact hmarks

theorem children (h : binder.Unfolds owner found level) : ∀ selection ∈ level, ∃ below,
    binder.Gathers (marked owner selection.signature found) below ∧
      binder.Unfolds (binder.schema.field selection.field).target below selection.children := by
  cases h with
  | level below _ hgathered hchildren =>
      exact fun selection hmem => ⟨below selection, hgathered selection hmem, hchildren selection hmem⟩

theorem of_children (hmarks : level.map BoundSelection.signature =
      Keyed.firsts some (fun _ => false) (found.map (Enclosed.mark owner)))
    (hchildren : ∀ selection ∈ level, ∃ below,
      binder.Gathers (marked owner selection.signature found) below ∧
        binder.Unfolds (binder.schema.field selection.field).target below selection.children) :
    binder.Unfolds owner found level := by
  choose! below hgathered hbelow using hchildren
  exact Unfolds.level below hmarks hgathered hbelow

theorem nil (binder : Binder) (owner : TypeId) : binder.Unfolds owner [] [] :=
  of_children rfl fun _ hmem => absurd hmem List.not_mem_nil

theorem nodup (h : binder.Unfolds owner found level) :
    (level.map BoundSelection.signature).Nodup := by
  rw [h.marks]
  exact Keyed.firsts_apart.imp fun hne hsame => hne (congrArg some hsame)

/-- A signature that a level does not have is none of its fields. -/
theorem marked_eq_nil (h : binder.Unfolds owner found level) {mark : FieldId × Option TypeId × String}
    (hnew : mark ∉ level.map BoundSelection.signature) : marked owner mark found = [] := by
  rw [marked, List.filter_eq_nil_iff]
  intro enclosed hmem hsame
  have hmark : mark ∈ found.map (Enclosed.mark owner) := by
    rw [← of_decide_eq_true hsame]
    exact List.mem_map_of_mem hmem
  obtain ⟨first, hfirst, heq⟩ := @Keyed.exists_first _ _ _ some (fun _ => false) _ _ mark hmark rfl rfl
  rw [h.marks, ← Option.some.inj heq] at hnew
  exact hnew hfirst

end Unfolds

/-- When a level absorbs another one, the fields of the latter come after its own. -/
theorem unfolds_absorb (others : List BoundSelection) :
    ∀ {owner : TypeId} {merged : List BoundSelection} {found more : List Enclosed},
      binder.Unfolds owner found merged → binder.Unfolds owner more others →
      binder.Unfolds owner (found ++ more) (BoundSelection.absorb merged others) := by
  induction others using BoundSelection.level_induction with
  | step level below =>
      intro owner merged found more hmerged hothers
      refine Unfolds.of_children ?_ ?_
      · rw [List.map_append]
        exact BoundSelection.signatures_absorb_firsts hmerged.marks hothers.marks
      · intro selection hmem
        rw [marked, List.filter_append]
        rcases BoundSelection.mem_absorb hmerged.nodup hothers.nodup hmem with
          ⟨hearlier, hnew⟩ | ⟨hlater, hnew⟩ | ⟨earlier, hearlier, later, hlater, hsame, rfl⟩
        · have hnone := hothers.marked_eq_nil hnew
          rw [marked] at hnone
          rw [hnone, List.append_nil]
          exact hmerged.children selection hearlier
        · have hnone := hmerged.marked_eq_nil hnew
          rw [marked] at hnone
          rw [hnone, List.nil_append]
          exact hothers.children selection hlater
        -- both levels have fields of the signature: what these enclose is taken together
        · obtain ⟨inner, hinner, hfirst⟩ := hmerged.children earlier hearlier
          obtain ⟨outer, houter, hsecond⟩ := hothers.children later hlater
          have hfield : earlier.field = later.field := congrArg Prod.fst hsame
          rw [← hsame] at houter
          rw [← hfield] at hsecond
          exact ⟨inner ++ outer, hinner.append houter, below later hlater hfirst hsecond⟩

/-- A bound selection is that of a field. -/
def Stands (binder : Binder) (owner : TypeId) (enclosed : Enclosed) (selection : BoundSelection) : Prop :=
  selection.signature = enclosed.mark owner ∧ ∃ inner, binder.Opens enclosed inner ∧
    binder.Unfolds (binder.schema.field enclosed.field).target inner selection.children

theorem Stands.unfolds {enclosed : Enclosed} {selection : BoundSelection}
    (h : binder.Stands owner enclosed selection) : binder.Unfolds owner [enclosed] [selection] := by
  obtain ⟨hmark, inner, hopens, hinner⟩ := h
  refine Unfolds.of_children ?_ ?_
  · rw [List.map_singleton, List.map_singleton, hmark]
    rfl
  · intro other hmem
    rw [List.mem_singleton.mp hmem]
    have hfield : selection.field = enclosed.field := congrArg Prod.fst hmark
    refine ⟨inner ++ [], ?_, ?_⟩
    · have hself : marked owner (enclosed.mark owner) [enclosed] = [enclosed] := by
        simp [marked]
      rw [hmark, hself]
      exact .cons hopens .nil
    · rw [List.append_nil, hfield]
      exact hinner

/-- Selections bound one by one for fields are merged into a level of these fields. -/
theorem unfolds_merge {found : List Enclosed} {bound : List BoundSelection}
    (h : List.Forall₂ (binder.Stands owner) found bound) :
    binder.Unfolds owner found (BoundSelection.merge bound) := by
  suffices hall : ∀ {earlier : List Enclosed} {merged : List BoundSelection},
      binder.Unfolds owner earlier merged →
      binder.Unfolds owner (earlier ++ found) (BoundSelection.absorb merged bound) from
    hall (Unfolds.nil binder owner)
  induction h with
  | nil =>
      intro earlier merged hmerged
      rw [List.append_nil]
      exact hmerged
  | cons hstands _ ih =>
      intro earlier merged hmerged
      rw [List.append_cons, BoundSelection.absorb_cons]
      exact ih (unfolds_absorb _ hmerged hstands.unfolds)

/-! ### Binding -/

/-- Spreads that bind, inside active fragments, to what their fragments enclose. -/
def Spreads (binder : Binder) (active : List String) (spread : SpreadBinding) : Prop :=
  ∀ owner depth name bound, spread owner depth name = .ok bound → ∀ conditions, ∃ found,
    binder.Encloses owner active conditions (.spread name) found ∧
      List.Forall₂ (binder.Stands owner) found bound

/-- A selection set binds to the fields that it encloses, in their order. -/
theorem stands_of_bindSelections (hschema : binder.schema.WellFormed) {active : List String}
    {spread : SpreadBinding} (hspread : binder.Spreads active spread) (selections : List Selection) :
    ∀ {owner : TypeId} {conditions : List TypeId} {depth : Nat} {bound : List BoundSelection},
      binder.bindSelections spread owner conditions.getLast? depth selections = .ok bound →
      ∃ found, binder.EnclosesAll owner active conditions selections found ∧
        List.Forall₂ (binder.Stands owner) found bound := by
  induction selections using Selection.set_induction with
  | step set below =>
      intro owner conditions depth bound h
      induction set generalizing bound with
      | nil =>
          cases h
          exact ⟨[], .nil, .nil⟩
      | cons selection rest ih =>
          obtain ⟨first, others, hfirst, hothers, rfl⟩ := bindSelections_cons_ok h
          obtain ⟨later, hlater, hlaterBound⟩ :=
            ih (fun other hmem => below other (List.mem_cons_of_mem _ hmem)) hothers
          have hbelow := @below selection List.mem_cons_self
          suffices hone : ∃ found, binder.Encloses owner active conditions selection found ∧
              List.Forall₂ (binder.Stands owner) found first by
            obtain ⟨found, hfound, hbound⟩ := hone
            exact ⟨found ++ later, .cons hfound hlater, List.rel_append hbound hlaterBound⟩
          cases selection with
          | field alias? name supplied selections =>
              obtain ⟨field, arguments, children, hfield, rfl, hchildren⟩ := bindSelection_field_ok hfirst
              have hlookup := (resolveField_ok hfield).1
              have hplace := Schema.field_eq (hschema.field_of_lookup hlookup)
              refine ⟨_, .field hlookup, .cons ⟨rfl, ?_⟩ .nil⟩
              rcases hchildren with ⟨hleaf, rfl⟩ | ⟨hcomposite, hchildren⟩
              · rw [← hplace] at hleaf
                exact ⟨[], .leaf hleaf, Unfolds.nil binder _⟩
              · obtain ⟨inner, hinner, hbound⟩ := @hbelow field.target [] (depth + 1) children hchildren
                rw [← hplace] at hcomposite hinner hbound
                exact ⟨inner, .set hcomposite hinner, unfolds_merge hbound⟩
          | inline name? selections =>
              cases name? with
              | none =>
                  obtain ⟨found, hfound, hbound⟩ := hbelow hfirst
                  exact ⟨found, .grouped hfound, hbound⟩
              | some name =>
                  obtain ⟨type, htype, hinner⟩ := Outcome.bind_ok_iff.mp hfirst
                  obtain ⟨named, hnamed, rfl⟩ := conditionType_ok htype
                  rw [← List.getLast?_concat (l := conditions)] at hinner
                  obtain ⟨found, hfound, hbound⟩ := hbelow hinner
                  exact ⟨found, .narrowed hnamed hfound, hbound⟩
          | spread name => exact hspread owner depth name first hfirst conditions

theorem mem_names_of_named {fragments : List Fragment} {name : String} {fragment : Fragment}
    (h : Fragment.named? fragments name = some fragment) : name ∈ fragments.map Fragment.name := by
  have htest := List.find?_some h
  have hname : fragment.name = name := beq_iff_eq.mp htest
  rw [← hname]
  exact List.mem_map_of_mem (List.mem_reverse.mp (List.mem_of_find?_eq_some h))

/-- Where as many names are active as there are fragments, all their names are. -/
theorem mem_active_of_full {names active : List String} (hfull : names.length ≤ active.length)
    (hnodup : active.Nodup) (hdefined : active ⊆ names) {name : String} (hname : name ∈ names) :
    name ∈ active := by
  by_contra hnew
  have hmore : (name :: active).Nodup := List.nodup_cons.mpr ⟨hnew, hnodup⟩
  have hlength := hmore.length_le_of_subset (List.cons_subset.mpr ⟨hname, hdefined⟩)
  rw [List.length_cons] at hlength
  omega

/-- There is a fragment of each active name, and no name is active twice, so that fuel for each fragment
that is not active is fuel enough. -/
theorem spreads_of_bindSpread (hschema : binder.schema.WellFormed) (fuel : Nat) (active : List String)
    (hfuel : fuel + active.length = binder.fragments.length) (hnodup : active.Nodup)
    (hdefined : active ⊆ binder.fragments.map Fragment.name) :
    binder.Spreads active (binder.bindSpread fuel active) := by
  induction fuel generalizing active with
  | zero =>
      intro owner depth name bound h conditions
      obtain ⟨fragment, hfragment, ⟨_, rfl⟩ | ⟨_, left, _, hleft, _⟩⟩ := bindSpread_ok h
      -- without fuel all fragments are active already, this one among them
      · have hfull : (binder.fragments.map Fragment.name).length ≤ active.length := by
          rw [List.length_map]
          omega
        have hactive := mem_active_of_full hfull hnodup hdefined (mem_names_of_named hfragment)
        exact ⟨[], .again hactive, .nil⟩
      · cases hleft
  | succ fuel ih =>
      intro owner depth name bound h conditions
      obtain ⟨fragment, hfragment, ⟨hactive, rfl⟩ | ⟨hnew, left, type, hleft, htype, hbound⟩⟩ :=
        bindSpread_ok h
      · have hactive := hactive.resolve_right (Nat.succ_ne_zero fuel)
        exact ⟨[], .again hactive, .nil⟩
      · cases hleft
        obtain ⟨named, hnamed, rfl⟩ := conditionType_ok htype
        have hdeeper : binder.Spreads (name :: active) (binder.bindSpread fuel (name :: active)) := by
          refine ih (name :: active) ?_ (List.nodup_cons.mpr ⟨hnew, hnodup⟩) ?_
          · rw [List.length_cons]
            omega
          · exact List.cons_subset.mpr ⟨mem_names_of_named hfragment, hdefined⟩
        rw [← List.getLast?_concat (l := conditions)] at hbound
        obtain ⟨found, hfound, hstands⟩ :=
          stands_of_bindSelections hschema hdeeper fragment.selections hbound
        exact ⟨found, .spread hfragment hnew hnamed hfound, hstands⟩

/-- Whatever selections bind to shows the fields that they enclose, at all its levels. -/
theorem unfolds_of_bind (hschema : binder.schema.WellFormed) {root : TypeId}
    {selections : List Selection} {level : List BoundSelection}
    (h : binder.bind root selections = .ok level) :
    ∃ found, binder.EnclosesAll root [] [] selections found ∧ binder.Unfolds root found level := by
  obtain ⟨bound, hbound, rfl⟩ := Outcome.map_ok_iff.mp h
  have hspread := spreads_of_bindSpread hschema binder.fragments.length [] (Nat.add_zero _)
    List.nodup_nil (List.nil_subset _)
  obtain ⟨found, hfound, hstands⟩ :=
    @stands_of_bindSelections binder hschema [] _ hspread selections root [] 1 bound hbound
  exact ⟨found, hfound, unfolds_merge hstands⟩

end Binder

end GraphQuery
