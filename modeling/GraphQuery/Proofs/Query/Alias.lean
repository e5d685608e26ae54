import GraphQuery.Proofs.Query.Binding

/-! Aliases. A renaming of response keys gives every field of a document an alias, the new name of its old
response key. What binding asks of fields, arguments and conditions does not depend on aliases, and whether
two selections repeat each other does so only through equality of their keys: where no two keys get one
name, the selections that the document binds to get the same aliases and are otherwise the same. -/

namespace GraphQuery

section

variable (rename : String → String)

namespace Selection

mutual

/-- The selection with the new name of its response key as the alias of each field. -/
def realias : Selection → Selection
  | .field alias? name arguments selections =>
    .field (some (rename (alias?.getD name))) name arguments (realiasAll selections)
  | .inline condition? selections => .inline condition? (realiasAll selections)
  | .spread fragment => .spread fragment

/-- The selections with such aliases. -/
def realiasAll : List Selection → List Selection
  | [] => []
  | selection :: rest => realias selection :: realiasAll rest

end

theorem realiasAll_eq (selections : List Selection) :
    realiasAll rename selections = selections.map (realias rename) := by
  induction selections with
  | nil => rfl
  | cons selection rest ih => rw [realiasAll, ih, List.map_cons]

end Selection

namespace Fragment

/-- The fragment with new aliases. -/
def realias (fragment : Fragment) : Fragment :=
  { fragment with selections := fragment.selections.map (Selection.realias rename) }

theorem named?_realias (fragments : List Fragment) (name : String) :
    named? (fragments.map (realias rename)) name = (named? fragments name).map (realias rename) := by
  rw [named?, named?, ← List.map_reverse, List.find?_map]
  rfl

end Fragment

namespace Operation

/-- The operation with new aliases. -/
def realias (operation : Operation) : Operation :=
  { operation with selections := operation.selections.map (Selection.realias rename) }

end Operation

namespace Document

/-- The document with new aliases, in its operations and in its fragments. -/
def realias (document : Document) : Document :=
  ⟨document.operations.map (Operation.realias rename), document.fragments.map (Fragment.realias rename)⟩

theorem selectOperation_realias (document : Document) (name? : Option String) :
    (document.realias rename).selectOperation name? =
      (document.selectOperation name?).map (Operation.realias rename) := by
  obtain ⟨operations, fragments⟩ := document
  unfold selectOperation realias
  dsimp only
  cases name? with
  | none => cases operations <;> rfl
  | some name =>
      have hsame : (fun operation : Operation => operation.name? == some name) ∘ Operation.realias rename =
          fun operation => operation.name? == some name := rfl
      dsimp only
      rw [List.find?_map, hsame]
      cases operations.find? fun operation => operation.name? == some name <;> rfl

end Document

namespace BoundSelection

mutual

/-- The bound selection with the new name of its response key as its alias, at every depth. -/
def realias : BoundSelection → BoundSelection
  | ⟨name, alias?, field, condition?, arguments, children⟩ =>
    ⟨name, some (rename (alias?.getD name)), field, condition?, arguments, realiasAll children⟩

/-- The bound selections with such aliases. -/
def realiasAll : List BoundSelection → List BoundSelection
  | [] => []
  | selection :: rest => realias selection :: realiasAll rest

end

variable {rename}

theorem realiasAll_eq (selections : List BoundSelection) :
    realiasAll rename selections = selections.map (realias rename) := by
  induction selections with
  | nil => rfl
  | cons selection rest ih => rw [realiasAll, ih, List.map_cons]

theorem realias_eq (selection : BoundSelection) : selection.realias rename =
    { selection with
      alias? := some (rename selection.outputName)
      children := selection.children.map (realias rename) } := by
  cases selection
  rw [realias, realiasAll_eq]
  rfl

@[simp] theorem field_realias (selection : BoundSelection) :
    (selection.realias rename).field = selection.field := by
  rw [realias_eq]

@[simp] theorem condition?_realias (selection : BoundSelection) :
    (selection.realias rename).condition? = selection.condition? := by
  rw [realias_eq]

@[simp] theorem arguments_realias (selection : BoundSelection) :
    (selection.realias rename).arguments = selection.arguments := by
  rw [realias_eq]

@[simp] theorem outputName_realias (selection : BoundSelection) :
    (selection.realias rename).outputName = rename selection.outputName := by
  rw [realias_eq]
  rfl

@[simp] theorem children_realias (selection : BoundSelection) :
    (selection.realias rename).children = selection.children.map (realias rename) := by
  rw [realias_eq]

section

variable (hrename : Function.Injective rename)

include hrename

theorem repeats_realias (a b : BoundSelection) :
    (a.realias rename).repeats (b.realias rename) = a.repeats b := by
  rw [Bool.eq_iff_iff, repeats_iff, repeats_iff]
  simp only [signature, Prod.mk.injEq, field_realias, condition?_realias, outputName_realias,
    hrename.eq_iff]

theorem updateFirst_realias (selection : BoundSelection) {change change' : BoundSelection → BoundSelection}
    (hchange : ∀ earlier, change' (earlier.realias rename) = (change earlier).realias rename)
    (merged : List BoundSelection) :
    updateFirst (selection.realias rename) change' (merged.map (realias rename)) =
      (updateFirst selection change merged).map (realias rename) := by
  induction merged with
  | nil => rfl
  | cons earlier rest ih =>
      rw [List.map_cons, updateFirst, updateFirst, repeats_realias hrename]
      split
      · rw [hchange, List.map_cons]
      · rw [ih, List.map_cons]

theorem absorb_realias (others : List BoundSelection) : ∀ merged : List BoundSelection,
    absorb (merged.map (realias rename)) (others.map (realias rename)) =
      (absorb merged others).map (realias rename) := by
  induction others using level_induction with
  | step others below =>
      induction others with
      | nil => exact fun merged => rfl
      | cons selection rest ih =>
          intro merged
          have hrest := ih fun other hmem => below other (List.mem_cons_of_mem _ hmem)
          rw [List.map_cons, absorb_cons, absorb_cons, ← hrest, absorbOne_eq, absorbOne_eq]
          refine congrArg (absorb · _) (updateFirst_realias hrename selection (fun earlier => ?_) merged)
          have hchildren := below selection List.mem_cons_self earlier.children
          simp only [realias_eq, hchildren]
          rfl

theorem merge_realias (selections : List BoundSelection) :
    merge (selections.map (realias rename)) = (merge selections).map (realias rename) :=
  absorb_realias hrename selections []

end

end BoundSelection

/-! ### Binding with other aliases -/

namespace Binder

/-- The binder of a document with new aliases. -/
def realias (binder : Binder) : Binder :=
  { binder with fragments := binder.fragments.map (Fragment.realias rename) }

variable {rename} (binder : Binder)

@[simp] theorem schema_realias : (binder.realias rename).schema = binder.schema := rfl

theorem named?_realias (name : String) : Fragment.named? (binder.realias rename).fragments name =
    (Fragment.named? binder.fragments name).map (Fragment.realias rename) :=
  Fragment.named?_realias rename binder.fragments name

variable (hrename : Function.Injective rename)

include hrename

theorem bindSelections_realias {spread spread' : SpreadBinding}
    (hspread : ∀ owner depth name, spread' owner depth name =
      (spread owner depth name).map (List.map (BoundSelection.realias rename)))
    (selections : List Selection) : ∀ (owner : TypeId) (condition? : Option TypeId) (depth : Nat),
      (binder.realias rename).bindSelections spread' owner condition? depth
          (selections.map (Selection.realias rename)) =
        (binder.bindSelections spread owner condition? depth selections).map
          (List.map (BoundSelection.realias rename)) := by
  induction selections using Selection.set_induction with
  | step set below =>
      intro owner condition? depth
      induction set with
      | nil => rfl
      | cons selection rest ih =>
          have hrest := ih fun other hmem => below other (List.mem_cons_of_mem _ hmem)
          have hbelow := below selection List.mem_cons_self
          have hfirst : (binder.realias rename).bindSelection spread' owner condition? depth
              (selection.realias rename) =
                (binder.bindSelection spread owner condition? depth selection).map
                  (List.map (BoundSelection.realias rename)) := by
            cases selection with
            | field alias? name supplied selections =>
                -- checking the depth and resolving the field and its arguments do not see aliases
                rw [Selection.realias, Selection.realiasAll_eq, bindSelection, bindSelection]
                dsimp only
                rw [Outcome.map_bind]
                refine congrArg (binder.checkDepth depth >>= ·) (funext fun _ => ?_)
                rw [Outcome.map_bind]
                refine congrArg (binder.resolveField owner _ name >>= ·) (funext fun field => ?_)
                rw [Outcome.map_bind]
                refine congrArg (binder.bindArguments field supplied >>= ·) (funext fun arguments => ?_)
                have hsame (children : List BoundSelection) :
                    (⟨name, some (rename (alias?.getD name)), field.id, kept owner condition?, arguments,
                        BoundSelection.merge (children.map (BoundSelection.realias rename))⟩ :
                      BoundSelection) =
                    BoundSelection.realias rename ⟨name, alias?, field.id, kept owner condition?,
                      arguments, BoundSelection.merge children⟩ := by
                  rw [BoundSelection.realias_eq, BoundSelection.merge_realias hrename]
                  rfl
                rw [schema_realias]
                cases (binder.schema.type field.target).isLeaf with
                | true => exact congrArg (fun selection => Except.ok [selection]) (hsame [])
                | false =>
                    have hchildren := hbelow field.target none (depth + 1)
                    rw [Selection.selections] at hchildren
                    rw [if_neg Bool.false_ne_true, if_neg Bool.false_ne_true, hchildren]
                    cases binder.bindSelections spread field.target none (depth + 1) selections with
                    | error error => rfl
                    | ok children =>
                        exact congrArg (fun selection => Except.ok [selection]) (hsame children)
            | inline name? selections =>
                rw [Selection.realias, Selection.realiasAll_eq]
                cases name? with
                | none => exact hbelow owner condition? depth
                | some name =>
                    rw [bindSelection, bindSelection, Outcome.map_bind]
                    exact congrArg (binder.conditionType name >>= ·)
                      (funext fun type => hbelow owner (some type) depth)
            | spread name => exact hspread owner depth name
          rw [List.map_cons, bindSelections, bindSelections, hfirst, hrest]
          cases binder.bindSelection spread owner condition? depth selection with
          | error error => rfl
          | ok bound =>
              cases binder.bindSelections spread owner condition? depth rest with
              | error error => rfl
              | ok others => exact congrArg Except.ok List.map_append.symm

theorem bindSpread_realias (fuel : Nat) : ∀ (active : List String) (owner : TypeId) (depth : Nat)
    (name : String), (binder.realias rename).bindSpread fuel active owner depth name =
      (binder.bindSpread fuel active owner depth name).map (List.map (BoundSelection.realias rename)) := by
  induction fuel with
  | zero =>
      intro active owner depth name
      unfold bindSpread
      rw [named?_realias binder name]
      cases Fragment.named? binder.fragments name with
      | none => rfl
      | some fragment =>
          dsimp only [Option.map]
          split <;> rfl
  | succ fuel ih =>
      intro active owner depth name
      unfold bindSpread
      rw [named?_realias binder name]
      cases Fragment.named? binder.fragments name with
      | none => rfl
      | some fragment =>
          dsimp only [Option.map]
          split
          · rfl
          · rw [Outcome.map_bind]
            refine congrArg (binder.conditionType fragment.condition >>= ·) (funext fun type => ?_)
            exact bindSelections_realias binder hrename (ih (name :: active)) fragment.selections owner
              (some type) depth

theorem bind_realias (root : TypeId) (selections : List Selection) :
    (binder.realias rename).bind root (selections.map (Selection.realias rename)) =
      (binder.bind root selections).map (List.map (BoundSelection.realias rename)) := by
  have hlength : (binder.realias rename).fragments.length = binder.fragments.length :=
    List.length_map _
  rw [bind, bind, hlength, bindSelections_realias binder hrename (bindSpread_realias binder hrename _ _)]
  cases binder.bindSelections (binder.bindSpread binder.fragments.length []) root none 1 selections with
  | error error => rfl
  | ok bound => exact congrArg Except.ok (BoundSelection.merge_realias hrename bound)

end Binder

theorem Schema.bind_realias {rename : String → String} (hrename : Function.Injective rename)
    (schema : Schema) (maxDepth : Option Nat) (document : Document) (request : Request) :
    schema.bind maxDepth (document.realias rename) request =
      (schema.bind maxDepth document request).map (List.map (BoundSelection.realias rename)) := by
  unfold bind
  rw [Document.selectOperation_realias]
  cases document.selectOperation request.operation? with
  | error error => rfl
  | ok operation =>
      show (operation.root schema >>= _) = (operation.root schema >>= _).map _
      rw [Outcome.map_bind]
      refine congrArg (operation.root schema >>= ·) (funext fun root => ?_)
      show (operation.withDefaults request.vars >>= _) = (operation.withDefaults request.vars >>= _).map _
      rw [Outcome.map_bind]
      refine congrArg (operation.withDefaults request.vars >>= ·) (funext fun vars => ?_)
      exact Binder.bind_realias ⟨schema, document.fragments, vars, maxDepth⟩ hrename root
        operation.selections

end

end GraphQuery
