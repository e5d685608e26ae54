import GraphQuery.Proofs.Query.Nesting

/-! What selections expand to. In an expansion every field of a selection set stands for itself, with the
fields below it, and fragments have given way to what they select; nothing is merged. A selection set that
binds has one expansion, and it binds to this, once the fields below each of its fields are merged. -/

namespace GraphQuery

namespace BoundSelection

mutual

/-- A selection whose levels are merged, those further down first. -/
def mergeBelow : BoundSelection → BoundSelection
  | ⟨name, alias?, field, condition?, arguments, children⟩ =>
    ⟨name, alias?, field, condition?, arguments, merge (mergeBelowAll children)⟩

/-- Selections whose levels are merged. -/
def mergeBelowAll : List BoundSelection → List BoundSelection
  | [] => []
  | selection :: rest => mergeBelow selection :: mergeBelowAll rest

end

theorem mergeBelowAll_eq_map (selections : List BoundSelection) :
    mergeBelowAll selections = selections.map mergeBelow := by
  induction selections with
  | nil => rfl
  | cons selection rest ih => rw [mergeBelowAll, ih, List.map_cons]

theorem mergeBelowAll_append (first others : List BoundSelection) :
    mergeBelowAll (first ++ others) = mergeBelowAll first ++ mergeBelowAll others := by
  simp only [mergeBelowAll_eq_map, List.map_append]

theorem children_mergeBelow (selection : BoundSelection) :
    selection.mergeBelow.children = merge (mergeBelowAll selection.children) := by
  cases selection
  rfl

/-- Merging the levels of selections makes none of these deeper, nor any less deep. -/
theorem nestingAll_mergeBelowAll (selections : List BoundSelection) :
    nestingAll (mergeBelowAll selections) = nestingAll selections := by
  induction selections using level_induction with
  | step level below =>
      induction level with
      | nil => rfl
      | cons selection rest ih =>
          have hchildren := below selection List.mem_cons_self
          have hrest := ih fun other hmem => below other (List.mem_cons_of_mem _ hmem)
          cases selection
          rw [mergeBelowAll, nestingAll, hrest, nestingAll, mergeBelow, nesting, nesting, nestingAll_merge, hchildren]

end BoundSelection

namespace Binder

variable (binder : Binder)

mutual

/-- What a selection expands to on a parent type, inside the fragments of some names and the condition of
the innermost of them. -/
inductive Expands : List String → TypeId → Option TypeId → Selection → List BoundSelection → Prop where
  | leaf {active : List String} {owner : TypeId} {condition? : Option TypeId} {alias? : Option String}
      {name : String} {supplied : List (String × Literal)} {selections : List Selection} {field : Field}
      {arguments : Arguments}
      (found : binder.resolveField owner ((kept owner condition?).getD owner) name = .ok field)
      (accepted : binder.bindArguments field supplied = .ok arguments)
      (isLeaf : (binder.schema.type field.target).isLeaf = true) :
      Expands active owner condition? (.field alias? name supplied selections)
        [⟨name, alias?, field.id, kept owner condition?, arguments, []⟩]
  | field {active : List String} {owner : TypeId} {condition? : Option TypeId} {alias? : Option String}
      {name : String} {supplied : List (String × Literal)} {selections : List Selection} {field : Field}
      {arguments : Arguments} {children : List BoundSelection}
      (found : binder.resolveField owner ((kept owner condition?).getD owner) name = .ok field)
      (accepted : binder.bindArguments field supplied = .ok arguments)
      (composite : (binder.schema.type field.target).isLeaf = false)
      (below : ExpandsAll active field.target none selections children) :
      Expands active owner condition? (.field alias? name supplied selections)
        [⟨name, alias?, field.id, kept owner condition?, arguments, children⟩]
  | grouped {active : List String} {owner : TypeId} {condition? : Option TypeId} {selections : List Selection}
      {expanded : List BoundSelection} (inside : ExpandsAll active owner condition? selections expanded) :
      Expands active owner condition? (.inline none selections) expanded
  | narrowed {active : List String} {owner : TypeId} {condition? : Option TypeId} {name : String}
      {type : TypeId} {selections : List Selection} {expanded : List BoundSelection}
      (named : binder.conditionType name = .ok type)
      (inside : ExpandsAll active owner (some type) selections expanded) :
      Expands active owner condition? (.inline (some name) selections) expanded
  | again {active : List String} {owner : TypeId} {condition? : Option TypeId} {name : String}
      {fragment : Fragment} (defined : Fragment.named? binder.fragments name = some fragment)
      (mem : name ∈ active) : Expands active owner condition? (.spread name) []
  | spread {active : List String} {owner : TypeId} {condition? : Option TypeId} {name : String}
      {fragment : Fragment} {type : TypeId} {expanded : List BoundSelection}
      (defined : Fragment.named? binder.fragments name = some fragment) (new : name ∉ active)
      (named : binder.conditionType fragment.condition = .ok type)
      (inside : ExpandsAll (name :: active) owner (some type) fragment.selections expanded) :
      Expands active owner condition? (.spread name) expanded

/-- What a selection set expands to: the expansions of its selections, in their order. -/
inductive ExpandsAll : List String → TypeId → Option TypeId → List Selection → List BoundSelection → Prop where
  | nil {active : List String} {owner : TypeId} {condition? : Option TypeId} :
      ExpandsAll active owner condition? [] []
  | cons {active : List String} {owner : TypeId} {condition? : Option TypeId} {selection : Selection}
      {rest : List Selection} {expanded others : List BoundSelection}
      (first : Expands active owner condition? selection expanded)
      (tail : ExpandsAll active owner condition? rest others) :
      ExpandsAll active owner condition? (selection :: rest) (expanded ++ others)

end

variable {binder}

/-- A selection set has one expansion at most, when every spread has. -/
theorem expandsAll_unique {active : List String}
    (hspread : ∀ {owner condition? name expanded other}, binder.Expands active owner condition? (.spread name) expanded →
      binder.Expands active owner condition? (.spread name) other → expanded = other) (selections : List Selection) :
    ∀ {owner condition? expanded other}, binder.ExpandsAll active owner condition? selections expanded →
      binder.ExpandsAll active owner condition? selections other → expanded = other := by
  induction selections using Selection.set_induction with
  | step set below =>
      intro owner condition? expanded other h hother
      induction set generalizing expanded other with
      | nil =>
          cases h
          cases hother
          rfl
      | cons selection rest ih =>
          cases h with
          | cons first tail =>
          cases hother with
          | cons first' tail' =>
          have hrest := ih (fun other hmem => below other (List.mem_cons_of_mem _ hmem)) tail tail'
          have hbelow := @below selection List.mem_cons_self
          suffices hfirst : _ = _ from congr (congrArg _ hfirst) hrest
          cases first with
          | leaf found accepted isLeaf =>
              cases first' with
              | leaf found' accepted' =>
                  cases found.symm.trans found'
                  cases accepted.symm.trans accepted'
                  rfl
              | field found' _ composite =>
                  cases found.symm.trans found'
                  cases isLeaf.symm.trans composite
          | field found accepted composite inside =>
              cases first' with
              | leaf found' _ isLeaf =>
                  cases found.symm.trans found'
                  cases isLeaf.symm.trans composite
              | field found' accepted' _ inside' =>
                  cases found.symm.trans found'
                  cases accepted.symm.trans accepted'
                  rw [hbelow inside inside']
          | grouped inside =>
              cases first' with
              | grouped inside' => exact hbelow inside inside'
          | narrowed named inside =>
              cases first' with
              | narrowed named' inside' =>
                  cases named.symm.trans named'
                  exact hbelow inside inside'
          | again defined mem => exact hspread (.again defined mem) first'
          | spread defined new named inside => exact hspread (.spread defined new named inside) first'

/-- A spread has one expansion at most, by induction on the fragments that may still be entered. -/
theorem expands_spread_unique {fuel : Nat} {active : List String}
    (hentered : Fragment.Entered binder.fragments fuel active []) {owner : TypeId} {condition? : Option TypeId}
    {name : String} {expanded other : List BoundSelection}
    (h : binder.Expands active owner condition? (.spread name) expanded)
    (hother : binder.Expands active owner condition? (.spread name) other) : expanded = other := by
  cases h with
  | again _ mem =>
      cases hother with
      | again => rfl
      | spread _ new => exact absurd mem new
  | @spread _ _ _ _ fragment _ _ defined new named inside =>
      cases hother with
      | again _ mem => exact absurd mem new
      | spread defined' _ named' inside' =>
          cases defined.symm.trans defined'
          cases named.symm.trans named'
          obtain ⟨left, rfl, hinside⟩ := hentered.enter_new new defined
          exact expandsAll_unique (expands_spread_unique hinside) fragment.selections inside inside'
termination_by fuel

theorem heading_ok {owner : TypeId} {condition? : Option TypeId} {depth : Nat} {name : String}
    {supplied : List (String × Literal)} {field : Field} {arguments : Arguments}
    (h : binder.heading owner condition? depth name supplied = .ok (field, arguments)) :
    binder.resolveField owner ((kept owner condition?).getD owner) name = .ok field ∧
      binder.bindArguments field supplied = .ok arguments := by
  obtain ⟨_, _, h⟩ := Outcome.bind_ok_iff.mp h
  obtain ⟨found, hfound, h⟩ := Outcome.bind_ok_iff.mp h
  obtain ⟨accepted, haccepted, hpure⟩ := Outcome.bind_ok_iff.mp h
  cases hpure
  exact ⟨hfound, haccepted⟩

/-- What a selection set binds to is its expansion, up to merging, when this is so for every spread. -/
theorem expandsAll_of_bindSelections {active : List String} {spread : SpreadBinding}
    (hspread : ∀ owner condition? depth name bound, spread owner depth name = .ok bound → ∃ expanded,
      binder.Expands active owner condition? (.spread name) expanded ∧
        bound = BoundSelection.mergeBelowAll expanded) (selections : List Selection) :
    ∀ {owner condition? depth bound}, binder.bindSelections spread owner condition? depth selections = .ok bound →
      ∃ expanded, binder.ExpandsAll active owner condition? selections expanded ∧
        bound = BoundSelection.mergeBelowAll expanded := by
  induction selections using Selection.set_induction with
  | step set below =>
      intro owner condition? depth bound h
      induction set generalizing bound with
      | nil =>
          cases h
          exact ⟨[], .nil, rfl⟩
      | cons selection rest ih =>
          obtain ⟨first, later, hfirst, hlater, rfl⟩ := bindSelections_cons_ok h
          obtain ⟨others, hothers, rfl⟩ := ih (fun other hmem => below other (List.mem_cons_of_mem _ hmem)) hlater
          have hbelow := @below selection List.mem_cons_self
          suffices hone : ∃ expanded, binder.Expands active owner condition? selection expanded ∧
              first = BoundSelection.mergeBelowAll expanded by
            obtain ⟨expanded, hexpanded, rfl⟩ := hone
            exact ⟨expanded ++ others, .cons hexpanded hothers,
              (BoundSelection.mergeBelowAll_append expanded others).symm⟩
          cases selection with
          | field alias? name supplied selections =>
              rw [bindSelection_heading] at hfirst
              obtain ⟨⟨field, arguments⟩, hheading, hfirst⟩ := Outcome.bind_ok_iff.mp hfirst
              obtain ⟨hfound, haccepted⟩ := heading_ok hheading
              obtain ⟨children, hchildren, rfl⟩ := Outcome.map_ok_iff.mp hfirst
              rw [bindInside] at hchildren
              cases hleaf : (binder.schema.type field.target).isLeaf with
              | true =>
                  rw [if_pos hleaf] at hchildren
                  cases hchildren
                  exact ⟨_, .leaf hfound haccepted hleaf, rfl⟩
              | false =>
                  rw [if_neg (ne_true_of_eq_false hleaf)] at hchildren
                  obtain ⟨expanded, hexpanded, rfl⟩ := hbelow hchildren
                  exact ⟨_, .field hfound haccepted hleaf hexpanded, rfl⟩
          | inline name? selections =>
              cases name? with
              | none =>
                  obtain ⟨expanded, hexpanded, hbound⟩ := hbelow hfirst
                  exact ⟨expanded, .grouped hexpanded, hbound⟩
              | some name =>
                  obtain ⟨type, hnamed, hinner⟩ := Outcome.bind_ok_iff.mp hfirst
                  obtain ⟨expanded, hexpanded, hbound⟩ := hbelow hinner
                  exact ⟨expanded, .narrowed hnamed hexpanded, hbound⟩
          | spread name => exact hspread owner condition? depth name first hfirst

/-- What a spread binds to is its expansion, up to merging. -/
theorem expands_of_bindSpread {fuel : Nat} {active : List String}
    (hentered : Fragment.Entered binder.fragments fuel active []) (owner : TypeId) (condition? : Option TypeId)
    (depth : Nat) (name : String) (bound : List BoundSelection)
    (h : binder.bindSpread fuel active owner depth name = .ok bound) :
    ∃ expanded, binder.Expands active owner condition? (.spread name) expanded ∧
      bound = BoundSelection.mergeBelowAll expanded := by
  obtain ⟨fragment, hdefined, _⟩ := bindSpread_ok h
  by_cases hactive : name ∈ active
  · rw [bindSpread_again hdefined hactive] at h
    cases h
    exact ⟨[], .again hdefined hactive, rfl⟩
  · obtain ⟨left, rfl, hinside⟩ := hentered.enter_new hactive hdefined
    rw [bindSpread_enter hactive hdefined] at h
    obtain ⟨type, hnamed, h⟩ := Outcome.bind_ok_iff.mp h
    -- one fragment fewer is left to be entered
    obtain ⟨expanded, hexpanded, hbound⟩ :=
      expandsAll_of_bindSelections (expands_of_bindSpread hinside) fragment.selections h
    exact ⟨expanded, .spread hdefined hactive hnamed hexpanded, hbound⟩
termination_by fuel

/-- The selections of a root type bind to what they expand to, merged. -/
theorem expandsAll_of_bind {root : TypeId} {selections : List Selection} {level : List BoundSelection}
    (h : binder.bind root selections = .ok level) : ∃ expanded,
      binder.ExpandsAll [] root none selections expanded ∧
        level = BoundSelection.merge (BoundSelection.mergeBelowAll expanded) := by
  obtain ⟨bound, hbound, rfl⟩ := Outcome.map_ok_iff.mp h
  obtain ⟨expanded, hexpanded, rfl⟩ := expandsAll_of_bindSelections
    (expands_of_bindSpread (.start binder.fragments [])) selections hbound
  exact ⟨expanded, hexpanded, rfl⟩

end Binder

namespace Schema

variable {schema : Schema} {document : Document} {request : Request}

/-- The expansion of the operation that a request asks for. -/
def Expands (schema : Schema) (document : Document) (request : Request) (expanded : List BoundSelection) : Prop :=
  ∃ operation root vars, document.selectOperation request.operation? = .ok operation ∧
    operation.root schema = .ok root ∧ operation.withDefaults request.vars = .ok vars ∧
    (⟨schema, document.fragments, vars, none⟩ : Binder).ExpandsAll [] root none operation.selections expanded

theorem Expands.unique {expanded other : List BoundSelection} (h : schema.Expands document request expanded)
    (hother : schema.Expands document request other) : expanded = other := by
  obtain ⟨operation, root, vars, hoperation, hroot, hvars, hexpands⟩ := h
  obtain ⟨_, _, _, hoperation', hroot', hvars', hexpands'⟩ := hother
  cases hoperation.symm.trans hoperation'
  cases hroot.symm.trans hroot'
  cases hvars.symm.trans hvars'
  exact Binder.expandsAll_unique (Binder.expands_spread_unique (.start document.fragments [])) operation.selections
    hexpands hexpands'

/-- What a request binds to is the expansion of its operation, merged. -/
theorem exists_expands {level : List BoundSelection} (h : schema.bind none document request = .ok level) :
    ∃ expanded, schema.Expands document request expanded ∧
      level = BoundSelection.merge (BoundSelection.mergeBelowAll expanded) := by
  obtain ⟨operation, hoperation, h⟩ := Outcome.bind_ok_iff.mp h
  obtain ⟨root, hroot, h⟩ := Outcome.bind_ok_iff.mp h
  obtain ⟨vars, hvars, h⟩ := Outcome.bind_ok_iff.mp h
  obtain ⟨expanded, hexpanded, hmerged⟩ := Binder.expandsAll_of_bind h
  exact ⟨expanded, ⟨operation, root, vars, hoperation, hroot, hvars, hexpanded⟩, hmerged⟩

end Schema

end GraphQuery
