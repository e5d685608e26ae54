import GraphQuery.Proofs.Query.Enclosure
import GraphQuery.Proofs.Query.Root

/-! Spreads are inlined. The inlined document has an inline fragment in the place of every spread, on the
condition of the fragment and with what the fragment selects, itself inlined. Binding does not build that
document: it enters the fragment of a spread and skips the spreads of fragments that it is inside. Where no
fragment reaches itself, a fragment that binding is inside reaches every spread that it comes to, so that
no spread is skipped, and the names of these fragments are all different, so that fuel for each fragment
does not run out. -/

namespace GraphQuery

open Relation (TransGen)

namespace Selection

mutual

/-- The names that are spread in a selection, also inside its fields. -/
def spreads : Selection → List String
  | .field _ _ _ selections => spreadsAll selections
  | .inline _ selections => spreadsAll selections
  | .spread name => [name]

/-- The names that are spread in a selection set. -/
def spreadsAll : List Selection → List String
  | [] => []
  | selection :: rest => spreads selection ++ spreadsAll rest

end

mutual

/-- The second selection is the first one with an inline fragment in the place of every spread. -/
inductive Inlines (fragments : List Fragment) : Selection → Selection → Prop where
  | field {alias? : Option String} {name : String} {supplied : List (String × Literal)}
      {selections expanded : List Selection} (inside : InlinesAll fragments selections expanded) :
      Inlines fragments (.field alias? name supplied selections) (.field alias? name supplied expanded)
  | inline {condition? : Option String} {selections expanded : List Selection}
      (inside : InlinesAll fragments selections expanded) :
      Inlines fragments (.inline condition? selections) (.inline condition? expanded)
  | spread {name : String} {fragment : Fragment} {expanded : List Selection}
      (defined : Fragment.named? fragments name = some fragment)
      (inside : InlinesAll fragments fragment.selections expanded) :
      Inlines fragments (.spread name) (.inline (some fragment.condition) expanded)

/-- The selections of the second set are those of the first one, inlined. -/
inductive InlinesAll (fragments : List Fragment) : List Selection → List Selection → Prop where
  | nil : InlinesAll fragments [] []
  | cons {selection expanded : Selection} {rest others : List Selection}
      (first : Inlines fragments selection expanded) (tail : InlinesAll fragments rest others) :
      InlinesAll fragments (selection :: rest) (expanded :: others)

end

variable {fragments : List Fragment}

mutual

theorem Inlines.spreads_eq {selection expanded : Selection} (h : Inlines fragments selection expanded) :
    expanded.spreads = [] := by
  cases h with
  | field inside => exact inside.spreadsAll_eq
  | inline inside => exact inside.spreadsAll_eq
  | spread _ inside => exact inside.spreadsAll_eq

/-- Nothing is spread in an inlined selection set. -/
theorem InlinesAll.spreadsAll_eq {selections expanded : List Selection}
    (h : InlinesAll fragments selections expanded) : spreadsAll expanded = [] := by
  cases h with
  | nil => rfl
  | cons first tail => rw [spreadsAll, first.spreads_eq, tail.spreadsAll_eq, List.append_nil]

end

end Selection

namespace Fragment

/-- The fragment of the first name spreads the second one. -/
def Uses (fragments : List Fragment) (above name : String) : Prop :=
  ∃ fragment, named? fragments above = some fragment ∧ name ∈ Selection.spreadsAll fragment.selections

/-- Fragments that spread only names of a lower rank do not reach themselves. -/
theorem acyclic_of_rank {fragments : List Fragment} {rank : String → Nat}
    (h : ∀ fragment ∈ fragments, ∀ name ∈ Selection.spreadsAll fragment.selections,
      rank name < rank fragment.name) (name : String) : ¬ TransGen (Uses fragments) name name := by
  have hstep (above below : String) (huses : Uses fragments above below) : rank below < rank above := by
    obtain ⟨fragment, hnamed, hmem⟩ := huses
    have htest := List.find?_some hnamed
    have hname : fragment.name = above := beq_iff_eq.mp htest
    rw [← hname]
    exact h fragment (List.mem_reverse.mp (List.mem_of_find?_eq_some hnamed)) below hmem
  have hreach {above below : String} (hreaches : TransGen (Uses fragments) above below) :
      rank below < rank above := by
    induction hreaches with
    | single huses => exact hstep _ _ huses
    | tail _ huses ih => exact Nat.lt_trans (hstep _ _ huses) ih
  exact fun hcycle => Nat.lt_irrefl _ (hreach hcycle)

/-- What holds while binding is inside some fragments, with fuel for the others: none of them was entered
twice, and each reaches the names that are still to be bound. -/
structure Entered (fragments : List Fragment) (fuel : Nat) (active names : List String) : Prop where
  fuel_eq : fuel + active.length = fragments.length
  nodup : active.Nodup
  defined : active ⊆ fragments.map Fragment.name
  reaches : ∀ above ∈ active, ∀ name ∈ names, TransGen (Uses fragments) above name

namespace Entered

variable {fragments : List Fragment} {fuel : Nat} {active names : List String}

theorem start (fragments : List Fragment) (names : List String) :
    Entered fragments fragments.length [] names :=
  ⟨Nat.add_zero _, List.nodup_nil, List.nil_subset _, fun _ hmem => absurd hmem List.not_mem_nil⟩

theorem mono (h : Entered fragments fuel active names) {fewer : List String} (hsubset : fewer ⊆ names) :
    Entered fragments fuel active fewer :=
  ⟨h.fuel_eq, h.nodup, h.defined, fun above habove name hname => h.reaches above habove name (hsubset hname)⟩

/-- A fragment that binding is not inside can be entered: there is fuel for it. -/
theorem enter_new (h : Entered fragments fuel active names) {name : String} (hnew : name ∉ active)
    {fragment : Fragment} (hnamed : named? fragments name = some fragment) :
    ∃ left, fuel = left + 1 ∧ Entered fragments left (name :: active) [] := by
  have hdefined : name ∈ fragments.map Fragment.name := Binder.mem_names_of_named hnamed
  cases fuel with
  | zero =>
      have hfull : (fragments.map Fragment.name).length ≤ active.length := by
        rw [List.length_map, ← h.fuel_eq]
        omega
      exact absurd (Binder.mem_active_of_full hfull h.nodup h.defined hdefined) hnew
  | succ left =>
      refine ⟨left, rfl, ?_, List.nodup_cons.mpr ⟨hnew, h.nodup⟩, List.cons_subset.mpr ⟨hdefined, h.defined⟩, ?_⟩
      · rw [List.length_cons, ← h.fuel_eq]
        omega
      · exact fun _ _ _ hname => absurd hname List.not_mem_nil

/-- Where no fragment reaches itself, the fragment of a name that is to be bound can be entered. -/
theorem enter (hacyclic : ∀ name, ¬ TransGen (Uses fragments) name name)
    (h : Entered fragments fuel active names) {name : String} (hname : name ∈ names) {fragment : Fragment}
    (hnamed : named? fragments name = some fragment) :
    name ∉ active ∧ ∃ left, fuel = left + 1 ∧
      Entered fragments left (name :: active) (Selection.spreadsAll fragment.selections) := by
  have hnew : name ∉ active := fun hactive => hacyclic name (h.reaches name hactive name hname)
  obtain ⟨left, hleft, hinside⟩ := h.enter_new hnew hnamed
  refine ⟨hnew, left, hleft, hinside.fuel_eq, hinside.nodup, hinside.defined, ?_⟩
  intro above habove below hbelow
  have huses : Uses fragments name below := ⟨fragment, hnamed, hbelow⟩
  rcases List.mem_cons.mp habove with rfl | habove
  · exact .single huses
  · exact .tail (h.reaches above habove name hname) huses

end Entered

end Fragment

namespace Selection

variable {fragments : List Fragment}

/-- A selection set can be inlined when every spread in it can. -/
theorem exists_inlinesAll_of_spreads (selections : List Selection)
    (h : ∀ name ∈ spreadsAll selections, ∃ expanded, Inlines fragments (.spread name) expanded) :
    ∃ expanded, InlinesAll fragments selections expanded := by
  induction selections using set_induction with
  | step set below =>
      induction set with
      | nil => exact ⟨[], .nil⟩
      | cons selection rest ih =>
          obtain ⟨others, hothers⟩ := ih (fun other hmem => below other (List.mem_cons_of_mem _ hmem))
            fun name hname => h name (List.mem_append_right _ hname)
          have hfirst (name : String) (hname : name ∈ selection.spreads) :=
            h name (List.mem_append_left _ hname)
          have hbelow := below selection List.mem_cons_self
          cases selection with
          | field alias? name supplied selections =>
              obtain ⟨expanded, hexpanded⟩ := hbelow hfirst
              exact ⟨_, .cons (.field hexpanded) hothers⟩
          | inline condition? selections =>
              obtain ⟨expanded, hexpanded⟩ := hbelow hfirst
              exact ⟨_, .cons (.inline hexpanded) hothers⟩
          | spread name =>
              obtain ⟨expanded, hexpanded⟩ := hfirst name List.mem_cons_self
              exact ⟨_, .cons hexpanded hothers⟩

variable (hacyclic : ∀ name, ¬ TransGen (Fragment.Uses fragments) name name)

include hacyclic

/-- A spread can be inlined, by induction on the fragments that may still be entered. -/
theorem exists_inlines_spread
    (hdefined : ∀ fragment ∈ fragments, ∀ name ∈ spreadsAll fragment.selections,
      ∃ found, Fragment.named? fragments name = some found)
    (fuel : Nat) {active names : List String} (hentered : Fragment.Entered fragments fuel active names)
    {name : String} (hname : name ∈ names) {fragment : Fragment}
    (hnamed : Fragment.named? fragments name = some fragment) :
    ∃ expanded, Inlines fragments (.spread name) expanded := by
  induction fuel generalizing active names name fragment with
  | zero =>
      obtain ⟨_, left, hleft, _⟩ := hentered.enter hacyclic hname hnamed
      cases hleft
  | succ fuel ih =>
      obtain ⟨_, left, hleft, hinside⟩ := hentered.enter hacyclic hname hnamed
      cases hleft
      have hmem : fragment ∈ fragments := List.mem_reverse.mp (List.mem_of_find?_eq_some hnamed)
      have hspreads (below : String) (hbelow : below ∈ spreadsAll fragment.selections) :
          ∃ expanded, Inlines fragments (.spread below) expanded := by
        obtain ⟨found, hfound⟩ := hdefined fragment hmem below hbelow
        exact ih hinside hbelow hfound
      obtain ⟨expanded, hexpanded⟩ := exists_inlinesAll_of_spreads fragment.selections hspreads
      exact ⟨_, .spread hnamed hexpanded⟩

end Selection

/-! ### Binding -/

namespace Binder

variable {binder : Binder}

/-- A spread of a fragment that binding is not inside is that fragment. -/
theorem bindSpread_enter {fuel : Nat} {active : List String} {name : String} (hnew : name ∉ active)
    {fragment : Fragment} (hnamed : Fragment.named? binder.fragments name = some fragment)
    (owner : TypeId) (depth : Nat) :
    binder.bindSpread (fuel + 1) active owner depth name = (do
      let type ← binder.conditionType fragment.condition
      binder.bindSelections (binder.bindSpread fuel (name :: active)) owner (some type) depth
        fragment.selections) := by
  rw [bindSpread.eq_def]
  dsimp only
  rw [hnamed]
  dsimp only
  rw [if_neg fun hactive => hnew (List.contains_iff_mem.mp hactive)]

variable (others : List Fragment) (spread : SpreadBinding)

mutual

theorem bindSelection_of_inlines (hacyclic : ∀ name, ¬ TransGen (Fragment.Uses binder.fragments) name name)
    {selection expanded : Selection}
    (h : Selection.Inlines binder.fragments selection expanded) {fuel : Nat} {active : List String}
    (hentered : Fragment.Entered binder.fragments fuel active selection.spreads) (owner : TypeId)
    (condition? : Option TypeId) (depth : Nat) :
    bindSelection { binder with fragments := others } spread owner condition? depth expanded =
      binder.bindSelection (binder.bindSpread fuel active) owner condition? depth selection := by
  cases h with
  | @field alias? name supplied selections expanded inside =>
      have hinside (target : TypeId) :
          bindInside { binder with fragments := others } spread target depth expanded =
            binder.bindInside (binder.bindSpread fuel active) target depth selections := by
        unfold bindInside
        rw [bindSelections_of_inlines hacyclic inside hentered]
      rw [bindSelection_field, bindSelection_field]
      simp only [hinside]
      rfl
  | @inline condition? selections expanded inside =>
      cases condition? with
      | none => exact bindSelections_of_inlines hacyclic inside hentered owner _ depth
      | some name =>
          refine congrArg (binder.conditionType name >>= ·) (funext fun type => ?_)
          exact bindSelections_of_inlines hacyclic inside hentered owner (some type) depth
  | @spread name fragment expanded defined inside =>
      obtain ⟨hnew, left, rfl, hinside⟩ := hentered.enter hacyclic List.mem_cons_self defined
      rw [bindSelection, bindSelection, bindSpread_enter hnew defined]
      refine congrArg (binder.conditionType fragment.condition >>= ·) (funext fun type => ?_)
      exact bindSelections_of_inlines hacyclic inside hinside owner (some type) depth

/-- An inlined selection set binds to what the set binds to, whatever fragments there are for it. -/
theorem bindSelections_of_inlines
    (hacyclic : ∀ name, ¬ TransGen (Fragment.Uses binder.fragments) name name)
    {selections expanded : List Selection}
    (h : Selection.InlinesAll binder.fragments selections expanded) {fuel : Nat} {active : List String}
    (hentered : Fragment.Entered binder.fragments fuel active (Selection.spreadsAll selections))
    (owner : TypeId) (condition? : Option TypeId) (depth : Nat) :
    bindSelections { binder with fragments := others } spread owner condition? depth expanded =
      binder.bindSelections (binder.bindSpread fuel active) owner condition? depth selections := by
  cases h with
  | nil => rfl
  | cons first tail =>
      rw [bindSelections, bindSelections,
        bindSelection_of_inlines hacyclic first (hentered.mono (List.subset_append_left _ _)),
        bindSelections_of_inlines hacyclic tail (hentered.mono (List.subset_append_right _ _))]

end

end Binder

namespace Operation

/-- The second operation is the first one, inlined. -/
def Inlines (fragments : List Fragment) (operation inlined : Operation) : Prop :=
  ∃ expanded, Selection.InlinesAll fragments operation.selections expanded ∧
    inlined = { operation with selections := expanded }

end Operation

namespace Document

/-- The names that are spread in the operations and in the fragments of a document. -/
def spreads (document : Document) : List String :=
  document.operations.flatMap (fun operation => Selection.spreadsAll operation.selections) ++
    document.fragments.flatMap fun fragment => Selection.spreadsAll fragment.selections

/-- The operations of the second document are those of the first one, inlined. -/
def Inlines (document inlined : Document) : Prop :=
  List.Forall₂ (Operation.Inlines document.fragments) document.operations inlined.operations

variable {document inlined : Document}

/-- A document in which every spread names a fragment and no fragment reaches itself can be inlined; then
nothing is left of its fragments and their spreads. -/
theorem exists_inlines (hdefined : ∀ name ∈ document.spreads,
      ∃ fragment, Fragment.named? document.fragments name = some fragment)
    (hacyclic : ∀ name, ¬ TransGen (Fragment.Uses document.fragments) name name) :
    ∃ inlined, document.Inlines inlined ∧ inlined.spreads = [] := by
  have hfragments (fragment : Fragment) (hmem : fragment ∈ document.fragments) (name : String)
      (hname : name ∈ Selection.spreadsAll fragment.selections) :=
    hdefined name (List.mem_append_right _ (List.mem_flatMap.mpr ⟨fragment, hmem, hname⟩))
  have hoperations (operation : Operation) (hmem : operation ∈ document.operations) :
      ∃ inlined, operation.Inlines document.fragments inlined := by
    obtain ⟨expanded, hexpanded⟩ := Selection.exists_inlinesAll_of_spreads operation.selections
      fun name hname => by
        obtain ⟨fragment, hnamed⟩ :=
          hdefined name (List.mem_append_left _ (List.mem_flatMap.mpr ⟨operation, hmem, hname⟩))
        exact Selection.exists_inlines_spread hacyclic hfragments _ (.start document.fragments [name])
          List.mem_cons_self hnamed
    exact ⟨_, expanded, hexpanded, rfl⟩
  choose! inline hinline using hoperations
  refine ⟨⟨document.operations.map inline, []⟩, ?_, ?_⟩
  · exact List.forall₂_map_right_iff.mpr (List.forall₂_same.mpr hinline)
  · refine List.append_eq_nil_iff.mpr ⟨List.flatMap_eq_nil_iff.mpr fun operation hmem => ?_, rfl⟩
    obtain ⟨original, horiginal, rfl⟩ := List.mem_map.mp hmem
    obtain ⟨expanded, hexpanded, heq⟩ := hinline original horiginal
    rw [heq]
    exact hexpanded.spreadsAll_eq

theorem Inlines.selectOperation (h : document.Inlines inlined) (name? : Option String) :
    Outcome.Agree (Operation.Inlines document.fragments) (document.selectOperation name?)
      (inlined.selectOperation name?) := by
  obtain ⟨operations, fragments⟩ := document
  obtain ⟨inlinedOperations, others⟩ := inlined
  cases name? with
  | none =>
      cases h with
      | nil => exact .error _
      | cons hfirst _ => exact .ok hfirst
  | some name =>
      have hname (operation inlined : Operation) (hinlines : operation.Inlines fragments inlined) :
          (inlined.name? == some name) = (operation.name? == some name) := by
        obtain ⟨_, _, rfl⟩ := hinlines
        rfl
      have hfound := Keyed.find?_related hname h
      dsimp only [Document.selectOperation] at hfound ⊢
      generalize operations.find? _ = first, inlinedOperations.find? _ = second at hfound
      cases hfound with
      | none => exact .error _
      | some hfirst => exact .ok hfirst

end Document

section

variable {document inlined : Document}
  (hacyclic : ∀ name, ¬ TransGen (Fragment.Uses document.fragments) name name)
  (h : document.Inlines inlined)

include hacyclic h

/-- An inlined document binds to what the document binds to. -/
theorem Schema.bind_inlines (schema : Schema) (maxDepth : Option Nat) (request : Request) :
    schema.bind maxDepth inlined request = schema.bind maxDepth document request := by
  have hselected := h.selectOperation request.operation?
  have hbind (root : TypeId) (operation : Operation) (vars : Members) (expanded : List Selection)
      (hexpanded : Selection.InlinesAll document.fragments operation.selections expanded) :
      Binder.bind ⟨schema, inlined.fragments, vars, maxDepth⟩ root expanded =
        Binder.bind ⟨schema, document.fragments, vars, maxDepth⟩ root operation.selections :=
    congrArg (Except.map BoundSelection.merge)
      (@Binder.bindSelections_of_inlines ⟨schema, document.fragments, vars, maxDepth⟩ inlined.fragments _
        hacyclic _ _ hexpanded _ _ (.start document.fragments _) root none 1)
  unfold Schema.bind
  generalize document.selectOperation request.operation? = first,
    inlined.selectOperation request.operation? = second at hselected
  cases hselected with
  | error error => rfl
  | @ok operation other hoperation =>
      obtain ⟨expanded, hexpanded, rfl⟩ := hoperation
      change (operation.root schema >>= fun root => operation.withDefaults request.vars >>= fun vars => _) = _
      simp only [hbind _ operation _ expanded hexpanded]
      rfl

namespace Engine

theorem bind_inlines (engine : Engine) (request : Request) :
    engine.bind inlined request = engine.bind document request := by
  unfold Engine.bind
  simp only [Schema.bind_inlines hacyclic h]

theorem estimate_inlines (engine : Engine) (request : Request) :
    engine.estimate inlined request = engine.estimate document request := by
  unfold estimate
  rw [bind_inlines hacyclic h]

theorem execute_inlines (engine : Engine) (request : Request) (world : World) :
    engine.execute inlined request world = engine.execute document request world := by
  have hrun : engine.run inlined request = engine.run document request := by
    unfold run
    rw [bind_inlines hacyclic h]
  unfold execute
  rw [hrun]

end Engine

end

namespace Engine

/-- Where every spread names a fragment and no fragment reaches itself, the document can be inlined, and the
inlined document binds to the same selections or is refused with the same error, costs the same, and has the
same response, stores and calls. -/
theorem spreads_inlined {document : Document}
    (hdefined : ∀ name ∈ document.spreads,
      ∃ fragment, Fragment.named? document.fragments name = some fragment)
    (hacyclic : ∀ name, ¬ TransGen (Fragment.Uses document.fragments) name name) :
    (∃ inlined, document.Inlines inlined ∧ inlined.spreads = []) ∧
      ∀ inlined, document.Inlines inlined →
        (∀ (schema : Schema) (maxDepth : Option Nat) (request : Request),
          schema.bind maxDepth inlined request = schema.bind maxDepth document request) ∧
        ∀ (engine : Engine) (request : Request),
          engine.estimate inlined request = engine.estimate document request ∧
          ∀ world, engine.execute inlined request world = engine.execute document request world := by
  refine ⟨Document.exists_inlines hdefined hacyclic, fun inlined hinlines => ⟨?_, ?_⟩⟩
  · exact fun schema => schema.bind_inlines hacyclic hinlines
  · exact fun engine request => ⟨engine.estimate_inlines hacyclic hinlines request,
      engine.execute_inlines hacyclic hinlines request⟩

/-- Animals of a kennel by fragments, one of which is spread inside another one, inside a field and, twice,
beside it. -/
theorem kennel_spreads_inlined :
    let labels : Fragment := ⟨"Labels", "Toy", [.field none "label" [] []]⟩
    let numbers : Fragment := ⟨"Numbers", "Animal", [.field (some "number") "id" [] []]⟩
    let dogs : Fragment := ⟨"Dogs", "Dog", [.spread "Numbers", .field none "toys" [] [.spread "Labels"]]⟩
    let document : Document := ⟨(kennelQuery [.spread "Dogs", .spread "Numbers", .spread "Dogs"]).operations,
      [labels, numbers, dogs]⟩
    let number : Selection := .inline (some "Animal") [.field (some "number") "id" [] []]
    let dog : Selection := .inline (some "Dog")
      [number, .field none "toys" [] [.inline (some "Toy") [.field none "label" [] []]]]
    let inlined := kennelQuery [dog, number, dog]
    let engine : Engine := ⟨some .kennel, .standard⟩
    (∀ name ∈ document.spreads, ∃ fragment, Fragment.named? document.fragments name = some fragment) ∧
      (∀ name, ¬ TransGen (Fragment.Uses document.fragments) name name) ∧ document.Inlines inlined ∧
      (engine.execute inlined .plain kennelWorld).answer.isOk = true ∧
      Schema.kennel.bind none inlined .plain = Schema.kennel.bind none document .plain ∧
      engine.execute inlined .plain kennelWorld = engine.execute document .plain kennelWorld := by
  intro labels numbers dogs document number dog inlined engine
  have hdefined : ∀ name ∈ document.spreads,
      ∃ fragment, Fragment.named? document.fragments name = some fragment := by
    have hsome : ∀ name ∈ document.spreads, (Fragment.named? document.fragments name).isSome = true := by
      decide
    exact fun name hmem => Option.isSome_iff_exists.mp (hsome name hmem)
  -- dogs spread both other fragments, which spread nothing
  have hacyclic : ∀ name, ¬ TransGen (Fragment.Uses document.fragments) name name :=
    @Fragment.acyclic_of_rank _ (fun name => if name = "Dogs" then 1 else 0) (by decide)
  have hnumbers : Selection.Inlines document.fragments (.spread "Numbers") number :=
    @Selection.Inlines.spread _ _ numbers _ rfl (.cons (.field .nil) .nil)
  have hlabels : Selection.Inlines document.fragments (.spread "Labels")
      (.inline (some "Toy") [.field none "label" [] []]) :=
    @Selection.Inlines.spread _ _ labels _ rfl (.cons (.field .nil) .nil)
  have hdogs : Selection.Inlines document.fragments (.spread "Dogs") dog :=
    @Selection.Inlines.spread _ _ dogs _ rfl (.cons hnumbers (.cons (.field (.cons hlabels .nil)) .nil))
  have hinlines : document.Inlines inlined :=
    .cons ⟨_, .cons (.field (.cons hdogs (.cons hnumbers (.cons hdogs .nil)))) .nil, rfl⟩ .nil
  have hanswer : (engine.execute inlined .plain kennelWorld).answer.isOk = true := by
    decide +kernel
  obtain ⟨hbind, hengine⟩ := (spreads_inlined hdefined hacyclic).2 inlined hinlines
  exact ⟨hdefined, hacyclic, hinlines, hanswer, hbind .kennel none .plain, (hengine engine .plain).2 kennelWorld⟩

end Engine

end GraphQuery
