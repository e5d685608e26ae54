import GraphQuery.Proofs.Query.Inlining
import Mathlib.Algebra.GroupWithZero.Nat

/-! Binding ends. Its rules need no fuel: a fragment is entered unless binding is inside it already. Any
selection set comes to one outcome by these rules, whatever cycles its fragments have, and this is the
outcome of binding, whose fuel therefore never runs out. A bound tree cannot be deep either: on the way
to any of its selections each fragment has been entered at most once. -/

namespace GraphQuery

namespace Selection

mutual

/-- How deep fields lie inside each other in a selection. -/
def nesting : Selection → Nat
  | .field _ _ _ selections => nestingAll selections + 1
  | .inline _ selections => nestingAll selections
  | .spread _ => 0

/-- How deep fields lie inside each other in a selection set. -/
def nestingAll : List Selection → Nat
  | [] => 0
  | selection :: rest => max (nesting selection) (nestingAll rest)

end

end Selection

namespace BoundSelection

mutual

/-- How deep selections lie inside each other in a bound selection. -/
def nesting : BoundSelection → Nat
  | ⟨_, _, _, _, _, children⟩ => nestingAll children + 1

/-- How deep selections lie inside each other in a level. -/
def nestingAll : List BoundSelection → Nat
  | [] => 0
  | selection :: rest => max (nesting selection) (nestingAll rest)

end

theorem nesting_eq (selection : BoundSelection) : selection.nesting = nestingAll selection.children + 1 := by
  cases selection
  rw [nesting]

theorem nestingAll_append (first others : List BoundSelection) :
    nestingAll (first ++ others) = max (nestingAll first) (nestingAll others) := by
  induction first with
  | nil => simp [nestingAll]
  | cons selection rest ih => simp only [List.cons_append, nestingAll, ih, Nat.max_assoc]

/-- A change of a selection that makes it as deep as one that it repeats makes a level as deep as both. -/
theorem nestingAll_updateFirst {selection : BoundSelection} {change : BoundSelection → BoundSelection}
    (hchange : ∀ earlier, (change earlier).nesting = max earlier.nesting selection.nesting)
    (merged : List BoundSelection) :
    nestingAll (updateFirst selection change merged) = max (nestingAll merged) selection.nesting := by
  induction merged with
  | nil => simp [updateFirst, nestingAll]
  | cons earlier rest ih =>
      have hearlier := hchange earlier
      unfold updateFirst
      by_cases hrepeats : earlier.repeats selection = true
      · rw [if_pos hrepeats]
        simp only [nestingAll]
        omega
      · rw [if_neg hrepeats]
        simp only [nestingAll]
        omega

/-- Merging makes no level deeper, nor any less deep. -/
theorem nestingAll_absorb (others : List BoundSelection) :
    ∀ merged, nestingAll (absorb merged others) = max (nestingAll merged) (nestingAll others) := by
  induction others using level_induction with
  | step level below =>
      induction level with
      | nil => simp [absorb, nestingAll]
      | cons selection rest ih =>
          intro merged
          have hbelow := below selection List.mem_cons_self
          have hone : nestingAll (absorbOne merged selection) = max (nestingAll merged) selection.nesting := by
            rw [absorbOne_eq]
            apply nestingAll_updateFirst
            intro earlier
            have hchildren := hbelow earlier.children
            simp only [nesting_eq]
            omega
          calc nestingAll (absorb merged (selection :: rest))
              = nestingAll (absorb (absorbOne merged selection) rest) := by rw [absorb_cons]
            _ = max (nestingAll (absorbOne merged selection)) (nestingAll rest) :=
                ih (fun other hmem => below other (List.mem_cons_of_mem _ hmem)) _
            _ = max (nestingAll merged) (nestingAll (selection :: rest)) := by
                simp only [nestingAll]
                omega

theorem nestingAll_merge (bound : List BoundSelection) : nestingAll (merge bound) = nestingAll bound := by
  have h := nestingAll_absorb bound []
  rwa [nestingAll, Nat.zero_max] at h

end BoundSelection

/-! ### The rules of binding -/

namespace Binder

/-- The field that a selection stands for, and its arguments. -/
def heading (binder : Binder) (owner : TypeId) (condition? : Option TypeId) (depth : Nat) (name : String)
    (supplied : List (String × Literal)) : Except EngineError (Field × Arguments) := do
  binder.checkDepth depth
  let field ← binder.resolveField owner ((kept owner condition?).getD owner) name
  let arguments ← binder.bindArguments field supplied
  pure (field, arguments)

variable (binder : Binder)

mutual

/-- What binding a selection comes to inside the fragments of some names. -/
inductive Yields : List String → TypeId → Option TypeId → Nat → Selection →
    Except EngineError (List BoundSelection) → Prop where
  | refused {active : List String} {owner : TypeId} {condition? : Option TypeId} {depth : Nat}
      {alias? : Option String} {name : String} {supplied : List (String × Literal)}
      {selections : List Selection} {error : EngineError}
      (heads : binder.heading owner condition? depth name supplied = .error error) :
      Yields active owner condition? depth (.field alias? name supplied selections) (.error error)
  | leaf {active : List String} {owner : TypeId} {condition? : Option TypeId} {depth : Nat}
      {alias? : Option String} {name : String} {supplied : List (String × Literal)}
      {selections : List Selection} {field : Field} {arguments : Arguments}
      (heads : binder.heading owner condition? depth name supplied = .ok (field, arguments))
      (isLeaf : (binder.schema.type field.target).isLeaf = true) :
      Yields active owner condition? depth (.field alias? name supplied selections)
        (.ok [⟨name, alias?, field.id, kept owner condition?, arguments, []⟩])
  | field {active : List String} {owner : TypeId} {condition? : Option TypeId} {depth : Nat}
      {alias? : Option String} {name : String} {supplied : List (String × Literal)}
      {selections : List Selection} {field : Field} {arguments : Arguments}
      {inside : Except EngineError (List BoundSelection)}
      (heads : binder.heading owner condition? depth name supplied = .ok (field, arguments))
      (composite : (binder.schema.type field.target).isLeaf = false)
      (below : YieldsAll active field.target none (depth + 1) selections inside) :
      Yields active owner condition? depth (.field alias? name supplied selections)
        (inside.map fun children =>
          [⟨name, alias?, field.id, kept owner condition?, arguments, BoundSelection.merge children⟩])
  | grouped {active : List String} {owner : TypeId} {condition? : Option TypeId} {depth : Nat}
      {selections : List Selection} {outcome : Except EngineError (List BoundSelection)}
      (inside : YieldsAll active owner condition? depth selections outcome) :
      Yields active owner condition? depth (.inline none selections) outcome
  | unknownType {active : List String} {owner : TypeId} {condition? : Option TypeId} {depth : Nat}
      {name : String} {selections : List Selection} {error : EngineError}
      (named : binder.conditionType name = .error error) :
      Yields active owner condition? depth (.inline (some name) selections) (.error error)
  | narrowed {active : List String} {owner : TypeId} {condition? : Option TypeId} {depth : Nat}
      {name : String} {selections : List Selection} {type : TypeId}
      {outcome : Except EngineError (List BoundSelection)} (named : binder.conditionType name = .ok type)
      (inside : YieldsAll active owner (some type) depth selections outcome) :
      Yields active owner condition? depth (.inline (some name) selections) outcome
  | undefined {active : List String} {owner : TypeId} {condition? : Option TypeId} {depth : Nat}
      {name : String} (missing : Fragment.named? binder.fragments name = none) :
      Yields active owner condition? depth (.spread name) (.error (.document (.unknownFragment name)))
  | again {active : List String} {owner : TypeId} {condition? : Option TypeId} {depth : Nat}
      {name : String} {fragment : Fragment} (defined : Fragment.named? binder.fragments name = some fragment)
      (mem : name ∈ active) : Yields active owner condition? depth (.spread name) (.ok [])
  | unknownCondition {active : List String} {owner : TypeId} {condition? : Option TypeId} {depth : Nat}
      {name : String} {fragment : Fragment} {error : EngineError}
      (defined : Fragment.named? binder.fragments name = some fragment) (new : name ∉ active)
      (named : binder.conditionType fragment.condition = .error error) :
      Yields active owner condition? depth (.spread name) (.error error)
  | spread {active : List String} {owner : TypeId} {condition? : Option TypeId} {depth : Nat}
      {name : String} {fragment : Fragment} {type : TypeId}
      {outcome : Except EngineError (List BoundSelection)}
      (defined : Fragment.named? binder.fragments name = some fragment) (new : name ∉ active)
      (named : binder.conditionType fragment.condition = .ok type)
      (inside : YieldsAll (name :: active) owner (some type) depth fragment.selections outcome) :
      Yields active owner condition? depth (.spread name) outcome

/-- What binding a selection set comes to inside the fragments of some names: its first error, or the
bound selections of each of its selections in their order. -/
inductive YieldsAll : List String → TypeId → Option TypeId → Nat → List Selection →
    Except EngineError (List BoundSelection) → Prop where
  | nil {active : List String} {owner : TypeId} {condition? : Option TypeId} {depth : Nat} :
      YieldsAll active owner condition? depth [] (.ok [])
  | refused {active : List String} {owner : TypeId} {condition? : Option TypeId} {depth : Nat}
      {selection : Selection} {rest : List Selection} {error : EngineError}
      (first : Yields active owner condition? depth selection (.error error)) :
      YieldsAll active owner condition? depth (selection :: rest) (.error error)
  | cons {active : List String} {owner : TypeId} {condition? : Option TypeId} {depth : Nat}
      {selection : Selection} {rest : List Selection} {bound : List BoundSelection}
      {outcome : Except EngineError (List BoundSelection)}
      (first : Yields active owner condition? depth selection (.ok bound))
      (others : YieldsAll active owner condition? depth rest outcome) :
      YieldsAll active owner condition? depth (selection :: rest) (outcome.map (bound ++ ·))

end

variable {binder}

theorem bindSelection_heading {spread : SpreadBinding} {owner : TypeId} {condition? : Option TypeId} {depth : Nat}
    {alias? : Option String} {name : String} {supplied : List (String × Literal)} {selections : List Selection} :
    binder.bindSelection spread owner condition? depth (.field alias? name supplied selections) =
      (binder.heading owner condition? depth name supplied).bind fun heading =>
        (binder.bindInside spread heading.1.target depth selections).map fun children =>
          [⟨name, alias?, heading.1.id, kept owner condition?, heading.2, BoundSelection.merge children⟩] := by
  rw [bindSelection_field, heading]
  cases binder.checkDepth depth with
  | error error => rfl
  | ok =>
      show (binder.resolveField owner _ name >>= _) = (binder.resolveField owner _ name >>= _).bind _
      cases binder.resolveField owner ((kept owner condition?).getD owner) name with
      | error error => rfl
      | ok field =>
          show (binder.bindArguments field supplied >>= _) = (binder.bindArguments field supplied >>= _).bind _
          cases binder.bindArguments field supplied with
          | error error => rfl
          | ok arguments => rfl

theorem bindSpread_undefined {name : String} (hmissing : Fragment.named? binder.fragments name = none)
    (fuel : Nat) (active : List String) (owner : TypeId) (depth : Nat) :
    binder.bindSpread fuel active owner depth name = .error (.document (.unknownFragment name)) := by
  unfold bindSpread
  simp only [hmissing]

theorem bindSpread_again {name : String} {fragment : Fragment}
    (hdefined : Fragment.named? binder.fragments name = some fragment) {active : List String}
    (hmem : name ∈ active) (fuel : Nat) (owner : TypeId) (depth : Nat) :
    binder.bindSpread fuel active owner depth name = .ok [] := by
  unfold bindSpread
  simp only [hdefined, List.contains_iff_mem.mpr hmem, if_true]

mutual

theorem Yields.bindSelection_eq {active : List String} {owner : TypeId} {condition? : Option TypeId}
    {depth : Nat} {selection : Selection} {outcome : Except EngineError (List BoundSelection)}
    (h : binder.Yields active owner condition? depth selection outcome) {fuel : Nat}
    (hentered : Fragment.Entered binder.fragments fuel active []) :
    binder.bindSelection (binder.bindSpread fuel active) owner condition? depth selection = outcome := by
  cases h with
  | refused heads =>
      rw [bindSelection_heading, heads]
      rfl
  | leaf heads isLeaf =>
      rw [bindSelection_heading, heads]
      show (binder.bindInside _ _ _ _).map _ = _
      rw [bindInside, if_pos isLeaf]
      rfl
  | field heads composite below =>
      rw [bindSelection_heading, heads]
      show (binder.bindInside _ _ _ _).map _ = _
      rw [bindInside, if_neg (by rw [composite]; decide), below.bindSelections_eq hentered]
  | grouped inside => exact inside.bindSelections_eq hentered
  | unknownType named =>
      rw [bindSelection, named]
      rfl
  | narrowed named inside =>
      rw [bindSelection, named]
      exact inside.bindSelections_eq hentered
  | undefined missing => exact bindSpread_undefined missing fuel active owner depth
  | again defined mem => exact bindSpread_again defined mem fuel owner depth
  | unknownCondition defined new named =>
      obtain ⟨left, rfl, _⟩ := hentered.enter_new new defined
      rw [bindSelection, bindSpread_enter new defined, named]
      rfl
  | spread defined new named inside =>
      obtain ⟨left, rfl, hinside⟩ := hentered.enter_new new defined
      rw [bindSelection, bindSpread_enter new defined, named]
      exact inside.bindSelections_eq hinside
termination_by (fuel, sizeOf selection)

/-- What a selection set comes to by the rules is what it binds to, given fuel for the fragments that binding
is not inside. -/
theorem YieldsAll.bindSelections_eq {active : List String} {owner : TypeId} {condition? : Option TypeId}
    {depth : Nat} {selections : List Selection} {outcome : Except EngineError (List BoundSelection)}
    (h : binder.YieldsAll active owner condition? depth selections outcome) {fuel : Nat}
    (hentered : Fragment.Entered binder.fragments fuel active []) :
    binder.bindSelections (binder.bindSpread fuel active) owner condition? depth selections = outcome := by
  cases h with
  | nil => rfl
  | refused first =>
      rw [bindSelections, first.bindSelection_eq hentered]
      rfl
  | cons first others =>
      rw [bindSelections, first.bindSelection_eq hentered]
      show (binder.bindSelections _ owner condition? depth _ >>= _) = _
      rw [others.bindSelections_eq hentered]
      rfl
termination_by (fuel, sizeOf selections)

end

/-- A selection set comes by the rules to what it binds to, when every spread does. -/
theorem yieldsAll_bindSelections {active : List String} {spread : SpreadBinding}
    (hspread : ∀ owner condition? depth name,
      binder.Yields active owner condition? depth (.spread name) (spread owner depth name))
    (selections : List Selection) :
    ∀ owner condition? depth, binder.YieldsAll active owner condition? depth selections
      (binder.bindSelections spread owner condition? depth selections) := by
  induction selections using Selection.set_induction with
  | step set below =>
      induction set with
      | nil => exact fun _ _ _ => .nil
      | cons selection rest ih =>
          intro owner condition? depth
          have hbelow := below selection List.mem_cons_self
          have hrest := ih (fun other hmem => below other (List.mem_cons_of_mem _ hmem)) owner condition? depth
          have hfirst : binder.Yields active owner condition? depth selection
              (binder.bindSelection spread owner condition? depth selection) := by
            cases selection with
            | field alias? name supplied selections =>
                rw [bindSelection_heading]
                cases hheading : binder.heading owner condition? depth name supplied with
                | error error => exact .refused hheading
                | ok heading =>
                    obtain ⟨field, arguments⟩ := heading
                    show binder.Yields _ _ _ _ _ ((binder.bindInside spread field.target depth selections).map _)
                    unfold bindInside
                    by_cases hleaf : (binder.schema.type field.target).isLeaf = true
                    · rw [if_pos hleaf]
                      exact .leaf hheading hleaf
                    · rw [if_neg hleaf]
                      exact .field hheading (eq_false_of_ne_true hleaf) (hbelow _ _ _)
            | inline name? selections =>
                cases name? with
                | none => exact .grouped (hbelow owner condition? depth)
                | some name =>
                    rw [bindSelection]
                    cases hnamed : binder.conditionType name with
                    | error error => exact .unknownType hnamed
                    | ok type => exact .narrowed hnamed (hbelow owner (some type) depth)
            | spread name => exact hspread owner condition? depth name
          rw [bindSelections]
          cases hone : binder.bindSelection spread owner condition? depth selection with
          | error error =>
              rw [hone] at hfirst
              exact .refused hfirst
          | ok bound =>
              rw [hone] at hfirst
              exact .cons hfirst hrest

/-- A spread comes by the rules to what it binds to. -/
theorem yields_bindSpread {fuel : Nat} {active : List String}
    (hentered : Fragment.Entered binder.fragments fuel active []) (owner : TypeId) (condition? : Option TypeId)
    (depth : Nat) (name : String) :
    binder.Yields active owner condition? depth (.spread name) (binder.bindSpread fuel active owner depth name) := by
  cases hdefined : Fragment.named? binder.fragments name with
  | none =>
      rw [bindSpread_undefined hdefined]
      exact .undefined hdefined
  | some fragment =>
      by_cases hactive : name ∈ active
      · rw [bindSpread_again hdefined hactive]
        exact .again hdefined hactive
      · obtain ⟨left, rfl, hinside⟩ := hentered.enter_new hactive hdefined
        rw [bindSpread_enter hactive hdefined]
        cases hnamed : binder.conditionType fragment.condition with
        | error error => exact .unknownCondition hdefined hactive hnamed
        | ok type =>
            -- one fragment fewer is left to be entered
            have hbelow := yieldsAll_bindSelections (yields_bindSpread hinside) fragment.selections
            exact .spread hdefined hactive hnamed (hbelow owner (some type) depth)
termination_by fuel

end Binder

/-! ### Depth -/

namespace Fragment

/-- How deep fields lie inside each other in the fragments that binding is not inside, taken together. -/
def nestingOutside (fragments : List Fragment) (active : List String) : Nat :=
  (fragments.map fun fragment =>
    if fragment.name ∈ active then 0 else Selection.nestingAll fragment.selections).sum

theorem nestingOutside_nil (fragments : List Fragment) :
    nestingOutside fragments [] = (fragments.map fun fragment => Selection.nestingAll fragment.selections).sum := by
  simp [nestingOutside]

theorem nestingOutside_cons_le (fragments : List Fragment) (name : String) (active : List String) :
    nestingOutside fragments (name :: active) ≤ nestingOutside fragments active := by
  induction fragments with
  | nil => exact Nat.le_refl 0
  | cons first rest ih =>
      simp only [nestingOutside, List.map_cons, List.sum_cons] at ih ⊢
      by_cases hactive : first.name ∈ active
      · rw [if_pos (List.mem_cons_of_mem _ hactive), if_pos hactive]
        omega
      · rw [if_neg hactive]
        split <;> omega

/-- What is in a fragment no longer lies outside once binding has entered it. -/
theorem nestingOutside_enter {fragments : List Fragment} {name : String} {fragment : Fragment}
    (hnamed : named? fragments name = some fragment) {active : List String} (hnew : name ∉ active) :
    Selection.nestingAll fragment.selections + nestingOutside fragments (name :: active) ≤
      nestingOutside fragments active := by
  have htest := List.find?_some hnamed
  have hname : fragment.name = name := beq_iff_eq.mp htest
  have hmem : fragment ∈ fragments := List.mem_reverse.mp (List.mem_of_find?_eq_some hnamed)
  subst hname
  clear hnamed htest
  induction fragments with
  | nil => cases hmem
  | cons first rest ih =>
      have hmono := nestingOutside_cons_le rest fragment.name active
      simp only [nestingOutside, List.map_cons, List.sum_cons] at hmono ih ⊢
      rcases List.mem_cons.mp hmem with rfl | hrest
      · rw [if_pos List.mem_cons_self, if_neg hnew]
        omega
      · have hinside := ih hrest
        by_cases hactive : first.name ∈ active
        · rw [if_pos (List.mem_cons_of_mem _ hactive), if_pos hactive]
          omega
        · rw [if_neg hactive]
          split <;> omega

end Fragment

namespace Binder

variable {binder : Binder}

/-- A selection set binds to a level no deeper than its fields, one below the other, and what a spread binds
to below them. -/
theorem nesting_of_bindSelections {spread : SpreadBinding} {outside : Nat}
    (hspread : ∀ owner depth name bound, spread owner depth name = .ok bound →
      BoundSelection.nestingAll bound ≤ outside) (selections : List Selection) :
    ∀ {owner condition? depth bound}, binder.bindSelections spread owner condition? depth selections = .ok bound →
      BoundSelection.nestingAll bound ≤ Selection.nestingAll selections + outside := by
  induction selections using Selection.set_induction with
  | step set below =>
      intro owner condition? depth bound h
      induction set generalizing bound with
      | nil =>
          cases h
          exact Nat.zero_le _
      | cons selection rest ih =>
          obtain ⟨first, others, hfirst, hothers, rfl⟩ := bindSelections_cons_ok h
          have hrest := ih (fun other hmem => below other (List.mem_cons_of_mem _ hmem)) hothers
          have hbelow := @below selection List.mem_cons_self
          suffices hone : BoundSelection.nestingAll first ≤ selection.nesting + outside by
            rw [BoundSelection.nestingAll_append, Selection.nestingAll]
            omega
          cases selection with
          | field alias? name supplied selections =>
              obtain ⟨field, arguments, children, _, rfl, hchildren⟩ := bindSelection_field_ok hfirst
              have hmerge := BoundSelection.nestingAll_merge children
              simp only [BoundSelection.nestingAll, BoundSelection.nesting, Selection.nesting]
              rcases hchildren with ⟨_, rfl⟩ | ⟨_, hchildren⟩
              · simp only [BoundSelection.nestingAll] at hmerge
                omega
              · have hinside := hbelow hchildren
                rw [Selection.selections] at hinside
                omega
          | inline name? selections =>
              rw [Selection.nesting]
              cases name? with
              | none => exact hbelow hfirst
              | some name =>
                  obtain ⟨type, _, hinner⟩ := Outcome.bind_ok_iff.mp hfirst
                  exact hbelow hinner
          | spread name =>
              have hspread := hspread owner depth name first hfirst
              omega

/-- A spread binds to a level no deeper than the fields of the fragments that binding is not inside. -/
theorem nesting_of_bindSpread (fuel : Nat) (active : List String) (owner : TypeId) (depth : Nat) (name : String)
    (bound : List BoundSelection) (h : binder.bindSpread fuel active owner depth name = .ok bound) :
    BoundSelection.nestingAll bound ≤ Fragment.nestingOutside binder.fragments active := by
  induction fuel generalizing active owner depth name bound with
  | zero =>
      obtain ⟨_, _, ⟨_, rfl⟩ | ⟨_, left, _, hfuel, _⟩⟩ := bindSpread_ok h
      · exact Nat.zero_le _
      · cases hfuel
  | succ fuel ih =>
      obtain ⟨fragment, hnamed, ⟨_, rfl⟩ | ⟨hnew, left, type, hfuel, _, hbound⟩⟩ := bindSpread_ok h
      · exact Nat.zero_le _
      · cases hfuel
        calc BoundSelection.nestingAll bound
            ≤ Selection.nestingAll fragment.selections +
                Fragment.nestingOutside binder.fragments (name :: active) :=
              nesting_of_bindSelections (ih (name :: active)) fragment.selections hbound
          _ ≤ Fragment.nestingOutside binder.fragments active := Fragment.nestingOutside_enter hnamed hnew

/-- The rules give a selection set of a root type one outcome. -/
theorem exists_yieldsAll (root : TypeId) (selections : List Selection) :
    ∃ bound, binder.YieldsAll [] root none 1 selections bound ∧
      (∀ other, binder.YieldsAll [] root none 1 selections other → other = bound) ∧
      binder.bind root selections = bound.map BoundSelection.merge := by
  have hentered := Fragment.Entered.start binder.fragments []
  refine ⟨_, yieldsAll_bindSelections (yields_bindSpread hentered) selections root none 1, ?_, rfl⟩
  intro other hother
  exact (hother.bindSelections_eq hentered).symm

theorem nesting_of_bind {root : TypeId} {selections : List Selection} {level : List BoundSelection}
    (h : binder.bind root selections = .ok level) : BoundSelection.nestingAll level ≤
      Selection.nestingAll selections +
        (binder.fragments.map fun fragment => Selection.nestingAll fragment.selections).sum := by
  obtain ⟨bound, hbound, rfl⟩ := Outcome.map_ok_iff.mp h
  rw [← Fragment.nestingOutside_nil]
  exact Nat.le_trans (Nat.le_of_eq (BoundSelection.nestingAll_merge bound))
    (nesting_of_bindSelections (nesting_of_bindSpread binder.fragments.length []) selections hbound)

end Binder

namespace Schema

variable {schema : Schema} {maxDepth : Option Nat} {document : Document} {request : Request} {operation : Operation}

/-- Binding ends, whatever fragments spread themselves or each other, and whether or not a depth is set. The
rules of binding, by which a fragment is entered unless binding is inside it, derive one outcome for the
selections of the operation, and this is the one that binding gives. The bound tree nests no deeper than the
fields of the operation and those of all fragments, one below the other. -/
theorem binding_ends (hoperation : document.selectOperation request.operation? = .ok operation) :
    (∀ root vars, operation.root schema = .ok root → operation.withDefaults request.vars = .ok vars →
      let binder : Binder := ⟨schema, document.fragments, vars, maxDepth⟩
      ∃ bound, binder.YieldsAll [] root none 1 operation.selections bound ∧
        (∀ other, binder.YieldsAll [] root none 1 operation.selections other → other = bound) ∧
        schema.bind maxDepth document request = bound.map BoundSelection.merge) ∧
    ∀ level, schema.bind maxDepth document request = .ok level →
      BoundSelection.nestingAll level ≤ Selection.nestingAll operation.selections +
        (document.fragments.map fun fragment => Selection.nestingAll fragment.selections).sum := by
  constructor
  · intro root vars hroot hvars binder
    obtain ⟨bound, hbound, hunique, hbind⟩ := binder.exists_yieldsAll root operation.selections
    refine ⟨bound, hbound, hunique, ?_⟩
    rw [← hbind, bind, hoperation]
    show (operation.root schema >>= _) = _
    rw [hroot]
    show (operation.withDefaults request.vars >>= _) = _
    rw [hvars]
    rfl
  · intro level hlevel
    obtain ⟨selected, hselected, hlevel⟩ := Outcome.bind_ok_iff.mp hlevel
    obtain ⟨root, _, hlevel⟩ := Outcome.bind_ok_iff.mp hlevel
    obtain ⟨vars, _, hlevel⟩ := Outcome.bind_ok_iff.mp hlevel
    cases hoperation.symm.trans hselected
    exact Binder.nesting_of_bind hlevel

/-- Two fragments on animals that spread each other below their friends, one of them also itself. The tree is
as deep as it can be: the field of the query, that of the first fragment, and two of the second. -/
theorem animals_binding_ends :
    let friends : Fragment := ⟨"Friends", "Animal", [.field none "friend" [] [.spread "Circle"], .spread "Friends"]⟩
    let circle : Fragment := ⟨"Circle", "Animal", [.field none "friend" []
      [.field none "name" [] [], .spread "Circle", .spread "Friends"]]⟩
    let document : Document :=
      ⟨[⟨.query, none, [], [.field none "animals" [] [.spread "Friends"]]⟩], [circle, friends]⟩
    let binder : Binder := ⟨.animals, document.fragments, [], none⟩
    (∃ bound, binder.YieldsAll [] Schema.animals.query none 1
        [.field none "animals" [] [.spread "Friends"]] bound) ∧
      ∃ level, Schema.animals.bind none document .plain = .ok level ∧
        BoundSelection.nestingAll level = 4 ∧ BoundSelection.nestingAll level ≤ 1 + (2 + (1 + 0)) := by
  intro friends circle document binder
  obtain ⟨hrules, hdepth⟩ := @binding_ends .animals none document .plain _ rfl
  obtain ⟨bound, hbound, _⟩ := hrules _ _ rfl rfl
  refine ⟨⟨bound, hbound⟩, ?_⟩
  have hbinds : (Schema.animals.bind none document .plain).isOk = true := by decide +kernel
  obtain ⟨level, hlevel⟩ := Outcome.exists_of_isOk hbinds
  have hfour : ((Schema.animals.bind none document .plain).map BoundSelection.nestingAll).toOption = some 4 := by
    decide +kernel
  rw [hlevel] at hfour
  exact ⟨level, hlevel, Option.some.inj hfour, hdepth level hlevel⟩

end Schema

end GraphQuery
