import GraphQuery.Proofs.Query.Estimate
import GraphQuery.Proofs.Query.SelectionPath

/-! What the cost of a query depends on. Merging selections neither adds any path nor takes one away, and in
what a query binds to no two siblings begin the same paths: the query that has more paths costs no less.
Documents are compared as they are written, in their operations and in their fragments. The order of
siblings does not count there, and what is added to a document, with a response key that is new or with one
that is there already, never makes its queries cheaper. -/

namespace GraphQuery

mutual

/-- A selection asks for part of what another one asks for. -/
inductive Selection.Part : Selection → Selection → Prop where
  | field {alias? : Option String} {name : String} {supplied : List (String × Literal)}
      {selections others : List Selection} (inside : Selection.PartAll selections others) :
      Selection.Part (.field alias? name supplied selections) (.field alias? name supplied others)
  | inline {condition? : Option String} {selections others : List Selection}
      (inside : Selection.PartAll selections others) :
      Selection.Part (.inline condition? selections) (.inline condition? others)
  | spread {name : String} : Selection.Part (.spread name) (.spread name)

/-- Each selection of a set asks for part of what one of another set asks for, in any order. -/
inductive Selection.PartAll : List Selection → List Selection → Prop where
  | nil {others : List Selection} : Selection.PartAll [] others
  | cons {selection other : Selection} {rest others : List Selection} (mem : other ∈ others)
      (first : Selection.Part selection other) (tail : Selection.PartAll rest others) :
      Selection.PartAll (selection :: rest) others

end

/-- An operation asks for part of what another one asks for. -/
structure Operation.Part (operation other : Operation) : Prop where
  kind_eq : operation.kind = other.kind
  name_eq : operation.name? = other.name?
  vars_eq : operation.vars = other.vars
  selections : Selection.PartAll operation.selections other.selections

/-- A fragment selects part of what another one selects. -/
structure Fragment.Part (fragment other : Fragment) : Prop where
  name_eq : fragment.name = other.name
  condition_eq : fragment.condition = other.condition
  selections : Selection.PartAll fragment.selections other.selections

/-- A document asks for part of what another one asks for: operation by operation, and fragment by
fragment. -/
structure Document.Part (document other : Document) : Prop where
  operations : List.Forall₂ Operation.Part document.operations other.operations
  fragments : List.Forall₂ Fragment.Part document.fragments other.fragments

namespace Selection

theorem partAll_of_subset {selections others : List Selection} (hsubset : selections ⊆ others)
    (hparts : ∀ selection ∈ selections, selection.Part selection) : PartAll selections others := by
  induction selections with
  | nil => exact .nil
  | cons selection rest ih =>
      obtain ⟨hmem, hrest⟩ := List.cons_subset.mp hsubset
      obtain ⟨hfirst, hparts⟩ := List.forall_mem_cons.mp hparts
      exact .cons hmem hfirst (ih hrest hparts)

theorem part_of_mem (set : List Selection) : ∀ selection ∈ set, selection.Part selection := by
  induction set using set_induction with
  | step set below =>
      intro selection hmem
      have hinside := partAll_of_subset (List.Subset.refl _) (below selection hmem)
      cases selection with
      | field alias? name supplied selections => exact .field hinside
      | inline condition? selections => exact .inline hinside
      | spread name => exact .spread

/-- Selections of a set, in any order and any number of times, ask for part of what the set asks for. -/
theorem PartAll.of_subset {selections others : List Selection} (h : selections ⊆ others) :
    PartAll selections others :=
  partAll_of_subset h (part_of_mem selections)

end Selection

/-- Searches in lists whose items correspond find items that do so. -/
theorem exists_of_find?_eq_some {α : Type} {relation : α → α → Prop} {test : α → Bool}
    (htest : ∀ one other, relation one other → test one = test other) {items others : List α}
    (h : List.Forall₂ relation items others) {other : α} (hfound : others.find? test = some other) :
    ∃ one, items.find? test = some one ∧ relation one other := by
  have hrelated := Keyed.find?_related (fun one other hone => (htest one other hone).symm) h
  rw [hfound] at hrelated
  generalize items.find? test = found at hrelated ⊢
  cases hrelated with
  | some hone => exact ⟨_, rfl, hone⟩

namespace Document.Part

variable {document other : Document} (h : document.Part other)

include h

theorem exists_named {name : String} {fragment : Fragment}
    (hnamed : Fragment.named? other.fragments name = some fragment) :
    ∃ part, Fragment.named? document.fragments name = some part ∧ part.Part fragment := by
  refine exists_of_find?_eq_some (fun one other hpart => ?_) (List.forall₂_reverse_iff.mpr h.fragments) hnamed
  rw [hpart.name_eq]

theorem exists_selected {name? : Option String} {operation : Operation}
    (hselected : other.selectOperation name? = .ok operation) :
    ∃ part, document.selectOperation name? = .ok part ∧ part.Part operation := by
  unfold selectOperation at hselected ⊢
  cases name? with
  | some name =>
      dsimp only at hselected ⊢
      split at hselected
      · next found hfound =>
          cases hselected
          obtain ⟨part, hpart, hpartof⟩ := exists_of_find?_eq_some
            (fun one other hpart => by rw [hpart.name_eq]) h.operations hfound
          exact ⟨part, by rw [hpart], hpartof⟩
      · cases hselected
  | none =>
      have hoperations := h.operations
      dsimp only at hselected ⊢
      split at hselected
      · next found _ hlist =>
          cases hselected
          rw [hlist] at hoperations
          obtain ⟨part, _, hpart, _, hparts⟩ := List.forall₂_cons_right_iff.mp hoperations
          rw [hparts]
          exact ⟨part, rfl, hpart⟩
      · cases hselected

end Document.Part

namespace Binder

open BoundSelection (PathsIn)

variable {schema : Schema} {fragments others : List Fragment} {vars : Members}

/-- Part of a selection set has an expansion when parts of its selections have one. -/
theorem exists_expandsAll_of_part {binder : Binder} {active : List String} {owner : TypeId}
    {condition? : Option TypeId} {selections set : List Selection} {whole : List BoundSelection}
    (hparts : ∀ other ∈ set, ∀ selection : Selection, selection.Part other →
      ∃ expanded, binder.Expands active owner condition? selection expanded ∧ PathsIn expanded whole)
    (h : Selection.PartAll selections set) :
    ∃ expanded, binder.ExpandsAll active owner condition? selections expanded ∧ PathsIn expanded whole := by
  induction selections with
  | nil => exact ⟨[], .nil, .of_subset (List.nil_subset _)⟩
  | cons selection rest ih =>
      cases h with
      | cons hmem hfirst htail =>
          obtain ⟨expanded, hexpanded, hpaths⟩ := hparts _ hmem selection hfirst
          obtain ⟨later, hlater, hpaths'⟩ := ih htail
          exact ⟨expanded ++ later, .cons hexpanded hlater, hpaths.append hpaths'⟩

/-- Each selection of a set has an expansion within that of the set. -/
theorem expands_of_mem {binder : Binder} {active : List String} {owner : TypeId} {condition? : Option TypeId}
    {set : List Selection} {whole : List BoundSelection}
    (h : binder.ExpandsAll active owner condition? set whole) {selection : Selection} (hmem : selection ∈ set) :
    ∃ expanded, binder.Expands active owner condition? selection expanded ∧ PathsIn expanded whole := by
  induction set generalizing whole with
  | nil => cases hmem
  | cons head rest ih =>
      cases h with
      | cons first tail =>
          rcases List.mem_cons.mp hmem with rfl | hrest
          · exact ⟨_, first, .of_subset (List.subset_append_left _ _)⟩
          · obtain ⟨expanded, hexpanded, hpaths⟩ := ih tail hrest
            exact ⟨expanded, hexpanded, hpaths.trans (.of_subset (List.subset_append_right _ _))⟩

/-- Part of a selection set expands within the expansion of the set, when this is so for every spread. -/
theorem expandsAll_part {active : List String}
    (hspread : ∀ {owner condition? name whole},
      Expands ⟨schema, others, vars, none⟩ active owner condition? (.spread name) whole →
        ∃ expanded, Expands ⟨schema, fragments, vars, none⟩ active owner condition? (.spread name) expanded ∧
          PathsIn expanded whole) (set : List Selection) :
    ∀ {owner condition? whole selections}, ExpandsAll ⟨schema, others, vars, none⟩ active owner condition? set whole →
      Selection.PartAll selections set →
        ∃ expanded, ExpandsAll ⟨schema, fragments, vars, none⟩ active owner condition? selections expanded ∧
          PathsIn expanded whole := by
  induction set using Selection.set_induction with
  | step set below =>
      intro owner condition? whole selections h hparts
      refine exists_expandsAll_of_part (fun other hmem selection hpart => ?_) hparts
      obtain ⟨one, hone, hwhole⟩ := expands_of_mem h hmem
      have hbelow := @below other hmem
      suffices hwithin : ∃ expanded, Expands ⟨schema, fragments, vars, none⟩ active owner condition? selection expanded ∧
          PathsIn expanded one by
        obtain ⟨expanded, hexpanded, hpaths⟩ := hwithin
        exact ⟨expanded, hexpanded, hpaths.trans hwhole⟩
      cases hpart with
      | field inside =>
          cases hone with
          | leaf found accepted isLeaf => exact ⟨_, .leaf found accepted isLeaf, .refl _⟩
          | field found accepted composite children =>
              obtain ⟨expanded, hexpanded, hpaths⟩ := hbelow children inside
              exact ⟨_, .field found accepted composite hexpanded, .of_children rfl hpaths⟩
      | inline inside =>
          cases hone with
          | grouped selected =>
              obtain ⟨expanded, hexpanded, hpaths⟩ := hbelow selected inside
              exact ⟨expanded, .grouped hexpanded, hpaths⟩
          | narrowed named selected =>
              obtain ⟨expanded, hexpanded, hpaths⟩ := hbelow selected inside
              exact ⟨expanded, .narrowed named hexpanded, hpaths⟩
      | spread => exact hspread hone

/-- A spread of part of a fragment expands within the expansion of the whole one, by induction on the fragments
that may still be entered. -/
theorem expands_spread_part (hfragments : ∀ {name other}, Fragment.named? others name = some other →
      ∃ fragment, Fragment.named? fragments name = some fragment ∧ fragment.Part other)
    {fuel : Nat} {active : List String} (hentered : Fragment.Entered others fuel active [])
    {owner : TypeId} {condition? : Option TypeId} {name : String} {whole : List BoundSelection}
    (h : Expands ⟨schema, others, vars, none⟩ active owner condition? (.spread name) whole) :
    ∃ expanded, Expands ⟨schema, fragments, vars, none⟩ active owner condition? (.spread name) expanded ∧
      PathsIn expanded whole := by
  cases h with
  | again defined mem =>
      obtain ⟨fragment, hfragment, _⟩ := hfragments defined
      exact ⟨[], .again hfragment mem, .refl _⟩
  | @spread _ _ _ _ other _ _ defined new named inside =>
      obtain ⟨fragment, hfragment, hpart⟩ := hfragments defined
      obtain ⟨left, rfl, hinside⟩ := hentered.enter_new new defined
      obtain ⟨expanded, hexpanded, hpaths⟩ :=
        expandsAll_part (expands_spread_part hfragments hinside) other.selections inside hpart.selections
      rw [← hpart.condition_eq] at named
      exact ⟨expanded, .spread hfragment new named hexpanded, hpaths⟩
termination_by fuel

end Binder

namespace Schema

open BoundSelection (PathsIn Apart Alike)

section

variable {schema : Schema} {settings : CostSettings} {bound : Cost → Nat}

/-- A level costs no more than one that has a selection for each of its own, with the same mark and no less
cost. -/
theorem exactSum_le_of_matches {level others : List BoundSelection}
    (hapart : (level.map BoundSelection.signature).Nodup)
    (hmatches : ∀ selection ∈ level, ∃ other ∈ others, other.signature = selection.signature ∧
      schema.exactCost settings bound selection ≤ schema.exactCost settings bound other) :
    schema.exactSum settings bound level ≤ schema.exactSum settings bound others := by
  induction level generalizing others with
  | nil => exact Nat.zero_le _
  | cons selection rest ih =>
      obtain ⟨hnew, hrest⟩ := List.nodup_cons.mp hapart
      obtain ⟨⟨other, hother, hsame, hcost⟩, hmatches⟩ := List.forall_mem_cons.mp hmatches
      obtain ⟨before, after, rfl⟩ := List.append_of_mem hother
      -- the others of the rest have other marks, so they are beside the one of the first
      have hbeside : ∀ later ∈ rest, ∃ other ∈ before ++ after, other.signature = later.signature ∧
          schema.exactCost settings bound later ≤ schema.exactCost settings bound other := by
        intro later hlater
        obtain ⟨found, hfound, hmark, hless⟩ := hmatches later hlater
        refine ⟨found, ?_, hmark, hless⟩
        rcases List.mem_append.mp hfound with hbefore | hafter
        · exact List.mem_append_left _ hbefore
        · rcases List.mem_cons.mp hafter with rfl | hafter
          · rw [← hsame, hmark] at hnew
            exact absurd (List.mem_map_of_mem hlater) hnew
          · exact List.mem_append_right _ hafter
      have hsum := ih hrest hbeside
      rw [exactSum_append] at hsum
      rw [exactSum, exactSum_append, exactSum]
      omega

/-- Where no siblings repeat each other, the level that has all paths of another one costs no less. -/
theorem exactSum_of_pathsIn {level : List BoundSelection} (h : Apart level) :
    ∀ {others : List BoundSelection}, Apart others → PathsIn level others →
      schema.exactSum settings bound level ≤ schema.exactSum settings bound others := by
  induction h with
  | @level level hapart _ hbelow =>
      intro others hothers hpaths
      refine exactSum_le_of_matches hapart fun selection hmem => ?_
      obtain ⟨found, hfound, hsame, _⟩ := (hpaths _ (.node hmem)).exists_top
      refine ⟨found, hfound, hsame, ?_⟩
      have hinside : PathsIn selection.children found.children := by
        intro path hpath
        obtain ⟨again, hagain, hmark, hrest⟩ := (hpaths _ (.under hmem hpath)).exists_top
        rcases hrest with rfl | hrest
        · exact absurd hpath BoundSelection.not_hasPath_nil
        · rwa [List.inj_on_of_nodup_map hothers.here hagain hfound (hmark.trans hsame.symm)] at hrest
      have hfield : found.field = selection.field := congrArg Prod.fst hsame
      rw [exactCost_eq, exactCost_eq, hfield]
      exact Nat.add_le_add_left
        (Nat.mul_le_mul_left _ (hbelow selection hmem (hothers.children found hfound) hinside)) _

/-- What a request binds to under any limit on depth is the expansion of its operation, merged. -/
theorem exists_expands_of_bind {maxDepth : Option Nat} {document : Document} {request : Request}
    {level : List BoundSelection} (h : schema.bind maxDepth document request = .ok level) :
    Apart level ∧ ∃ expanded, schema.Expands document request expanded ∧ Alike level expanded := by
  have hfree : schema.bind none document request = .ok level := by
    cases maxDepth with
    | none => exact h
    | some limit =>
        have hlimited := schema.limited_of_bind document request limit
        rw [h] at hlimited
        exact hlimited.free_of_ok
  obtain ⟨expanded, hexpanded, rfl⟩ := exists_expands hfree
  have hbelow := BoundSelection.apart_mergeBelowAll expanded
  exact ⟨BoundSelection.apart_absorb _ .nil hbelow, expanded, hexpanded,
    (BoundSelection.alike_absorb _ .nil hbelow).trans (BoundSelection.alike_mergeBelowAll expanded)⟩

theorem exists_expands_of_part {document other : Document} (h : document.Part other) {request : Request}
    {whole : List BoundSelection} (hwhole : schema.Expands other request whole) :
    ∃ expanded, schema.Expands document request expanded ∧ PathsIn expanded whole := by
  obtain ⟨operation, root, vars, hoperation, hroot, hvars, hexpands⟩ := hwhole
  obtain ⟨part, hselected, hpart⟩ := h.exists_selected hoperation
  obtain ⟨expanded, hexpanded, hpaths⟩ := Binder.expandsAll_part
    (Binder.expands_spread_part h.exists_named (.start other.fragments [])) _ hexpands hpart.selections
  refine ⟨expanded, ⟨part, root, vars, hselected, ?_, ?_, hexpanded⟩, hpaths⟩
  · rw [← hroot, Operation.root, Operation.root, hpart.kind_eq]
  · rw [← hvars, Operation.withDefaults, Operation.withDefaults, hpart.vars_eq]

/-- A query costs no less than its parts do. -/
theorem exactSum_of_part {maxDepth : Option Nat} {document other : Document} (h : document.Part other)
    {request : Request} {level others : List BoundSelection}
    (hlevel : schema.bind maxDepth document request = .ok level)
    (hothers : schema.bind maxDepth other request = .ok others) :
    schema.exactSum settings bound level ≤ schema.exactSum settings bound others := by
  obtain ⟨hapart, expanded, hexpanded, halike⟩ := exists_expands_of_bind hlevel
  obtain ⟨hapart', whole, hwhole, halike'⟩ := exists_expands_of_bind hothers
  obtain ⟨part, hpart, hpaths⟩ := exists_expands_of_part h hwhole
  refine exactSum_of_pathsIn hapart hapart' fun path hpath => ?_
  rw [halike.hasPath_iff, hexpanded.unique hpart] at hpath
  exact (halike'.hasPath_iff path).mpr (hpaths path hpath)

end

end Schema

namespace Engine

open BoundSelection (Reordered Extended)

variable {schema : Schema} {config : Config}

theorem estimate_eq (document : Document) (request : Request) :
    estimate ⟨some schema, config⟩ document request =
      (bind ⟨some schema, config⟩ document request).map (schema.totalCost config.cost) := by
  change (bind ⟨some schema, config⟩ document request >>= _) = _
  cases bind ⟨some schema, config⟩ document request <;> rfl

theorem estimate_part {document other : Document} (h : document.Part other) {request : Request}
    {cost cost' : Cost} (hcost : estimate ⟨some schema, config⟩ document request = .ok cost)
    (hcost' : estimate ⟨some schema, config⟩ other request = .ok cost') {bound : Cost → Nat}
    (hbound : Cost.IsBound bound) : bound cost ≤ bound cost' := by
  rw [estimate_eq, Outcome.map_ok_iff] at hcost hcost'
  obtain ⟨level, hlevel, rfl⟩ := hcost
  obtain ⟨others, hothers, rfl⟩ := hcost'
  rw [Schema.bound_totalCost hbound, Schema.bound_totalCost hbound]
  exact Cost.saturate_mono (Schema.exactSum_of_part h hlevel hothers)

theorem plain_of_estimate {document : Document} {request : Request} {cost : Cost}
    (h : estimate ⟨some schema, config⟩ document request = .ok cost) : cost.Plain := by
  rw [estimate_eq, Outcome.map_ok_iff] at h
  obtain ⟨level, _, rfl⟩ := h
  exact Schema.plain_totalCost level

/-- The advisory cost of a request is the exact cost of what it binds to, cut off once at the largest number
of 64 bits. It is the same for siblings in any order, and does not sink with what is added, in trees as in
documents; its bounds are in order where those of the settings and of all declared costs are. -/
theorem estimate_exact (schema : Schema) (config : Config) :
    (∀ document request, estimate ⟨some schema, config⟩ document request =
      (bind ⟨some schema, config⟩ document request).map (schema.totalCost config.cost)) ∧
    (∀ level, (schema.totalCost config.cost level).low =
        min (2 ^ 64 - 1) (schema.exactSum config.cost Cost.low level) ∧
      (schema.totalCost config.cost level).high =
        min (2 ^ 64 - 1) (schema.exactSum config.cost Cost.high level)) ∧
    (∀ level others, Reordered level others →
      schema.totalCost config.cost others = schema.totalCost config.cost level) ∧
    (∀ level others, Extended level others →
      (schema.totalCost config.cost level).low ≤ (schema.totalCost config.cost others).low ∧
        (schema.totalCost config.cost level).high ≤ (schema.totalCost config.cost others).high) ∧
    (∀ document other request cost cost', document.Part other →
      estimate ⟨some schema, config⟩ document request = .ok cost →
      estimate ⟨some schema, config⟩ other request = .ok cost' →
        cost.low ≤ cost'.low ∧ cost.high ≤ cost'.high ∧ (other.Part document → cost' = cost)) ∧
    (schema.CostsOrdered → config.cost.listLow ≤ config.cost.listHigh →
      ∀ document request cost, estimate ⟨some schema, config⟩ document request = .ok cost →
        cost.low ≤ cost.high) := by
  refine ⟨estimate_eq, fun level => ?_, fun level others => Schema.totalCost_reordered,
    fun level others h => ?_, fun document other request cost cost' h hcost hcost' => ?_,
    fun hcosts hlist document request cost hcost => ?_⟩
  · exact ⟨Schema.bound_totalCost Cost.isBound_low level, Schema.bound_totalCost Cost.isBound_high level⟩
  · exact ⟨Schema.totalCost_extended Cost.isBound_low h, Schema.totalCost_extended Cost.isBound_high h⟩
  · have hlow := estimate_part h hcost hcost' Cost.isBound_low
    have hhigh := estimate_part h hcost hcost' Cost.isBound_high
    refine ⟨hlow, hhigh, fun hback => ?_⟩
    have hlow' := estimate_part hback hcost' hcost Cost.isBound_low
    have hhigh' := estimate_part hback hcost' hcost Cost.isBound_high
    exact Cost.Plain.ext (plain_of_estimate hcost') (plain_of_estimate hcost)
      (Nat.le_antisymm hlow' hlow) (Nat.le_antisymm hhigh' hhigh)
  · rw [estimate_eq, Outcome.map_ok_iff] at hcost
    obtain ⟨level, _, rfl⟩ := hcost
    exact Schema.ordered_totalCost hlist hcosts level

/-- Animals with their names and friends, where lists have up to half of the largest number of rows: the
exact cost is above that number. With their friends first they cost the same, and without them no more. -/
theorem animals_estimate_exact :
    let config : Config := { Config.standard with cost := ⟨1, 2 ^ 63, none⟩ }
    let engine : Engine := ⟨some .animals, config⟩
    let name : Selection := .field none "name" [] []
    let friend : Selection := .field none "friend" [] [.field none "id" [] []]
    let document (selections : List Selection) : Document :=
      ⟨[⟨.query, none, [], [.field none "animals" [] selections]⟩], []⟩
    Schema.animals.Completed ∧ Schema.animals.CostsOrdered ∧
      ∃ level cost less, engine.bind (document [name, friend]) .plain = .ok level ∧
        Schema.animals.exactSum config.cost Cost.high level = 2 ^ 64 ∧
        engine.estimate (document [name, friend]) .plain = .ok cost ∧ cost.high = 2 ^ 64 - 1 ∧
        cost.low ≤ cost.high ∧ engine.estimate (document [friend, name]) .plain = .ok cost ∧
        engine.estimate (document [name]) .plain = .ok less ∧ less.low ≤ cost.low ∧ less.high ≤ cost.high := by
  intro config engine name friend document
  have hcosts : Schema.animals.CostsOrdered := by
    have hnone : ∀ field ∈ Schema.animals.fields, field.cost? = none := by decide +kernel
    intro field hmem cost hcost
    rw [hnone field hmem] at hcost
    cases hcost
  obtain ⟨hestimate, hexact, _, _, hparts, hordered⟩ := estimate_exact .animals config
  have hexactSum : ((engine.bind (document [name, friend]) .plain).map
      (Schema.animals.exactSum config.cost Cost.high)).toOption = some (2 ^ 64) := by decide +kernel
  obtain ⟨level, hlevel, hsum⟩ := Outcome.map_ok_iff.mp (Outcome.ok_of_toOption hexactSum)
  have hcost : engine.estimate (document [name, friend]) .plain =
      .ok (Schema.animals.totalCost config.cost level) := by
    rw [hestimate, hlevel]
    rfl
  have hpart {selections others : List Selection} (h : selections ⊆ others) :
      (document selections).Part (document others) :=
    ⟨.cons ⟨rfl, rfl, rfl, .cons List.mem_cons_self (.field (.of_subset h)) .nil⟩ .nil, .nil⟩
  have hothers : (engine.estimate (document [friend, name]) .plain).isOk = true ∧
      (engine.estimate (document [name]) .plain).isOk = true := by decide +kernel
  obtain ⟨turned, hturned⟩ := Outcome.exists_of_isOk hothers.1
  obtain ⟨less, hless⟩ := Outcome.exists_of_isOk hothers.2
  obtain ⟨_, _, hsame⟩ := hparts _ _ _ _ _ (hpart (by simp)) hcost hturned
  obtain ⟨hlow, hhigh, _⟩ := hparts _ _ _ _ _ (hpart (by simp)) hless hcost
  refine ⟨Schema.animals_completed, hcosts, level, _, less, hlevel, hsum, hcost, ?_,
    hordered hcosts (by decide) _ _ _ hcost, hsame (hpart (by simp)) ▸ hturned, hless, hlow, hhigh⟩
  rw [(hexact level).2, hsum]
  rfl

end Engine

end GraphQuery
