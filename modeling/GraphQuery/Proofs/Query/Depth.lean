import GraphQuery.Proofs.Query.Expansion

/-! A limit on depth filters trees. At the depth of a selection set so many levels are left under the limit;
binding within them gives what it gives without a limit, and refuses what lies deeper. It may then stop at
another error than without a limit, but never accepts what is refused there. Only fields have a depth: the
tree is as high as the expansion of its operation, in which there are no fragments. -/

namespace GraphQuery

/-- What binding gives without a limit, and under a limit that leaves some levels. -/
inductive Limited (limit left : Nat) :
    Except EngineError (List BoundSelection) → Except EngineError (List BoundSelection) → Prop where
  | within {bound : List BoundSelection} (fits : BoundSelection.nestingAll bound ≤ left) :
      Limited limit left (.ok bound) (.ok bound)
  | beyond {bound : List BoundSelection} (exceeds : left < BoundSelection.nestingAll bound) :
      Limited limit left (.ok bound) (.error (.document (.tooDeep limit)))
  | refused {error other : EngineError} : Limited limit left (.error error) (.error other)

namespace Limited

variable {limit left : Nat} {first first' others others' : Except EngineError (List BoundSelection)}

/-- Selections after each other leave as many levels as each of them. -/
theorem append (hfirst : Limited limit left first first') (hothers : Limited limit left others others') :
    Limited limit left (first.bind fun bound => others.map (bound ++ ·))
      (first'.bind fun bound => others'.map (bound ++ ·)) := by
  cases hfirst with
  | @within bound fits =>
      cases hothers with
      | @within later fits' =>
          refine .within ?_
          rw [BoundSelection.nestingAll_append]
          exact Nat.max_le.mpr ⟨fits, fits'⟩
      | @beyond later exceeds =>
          refine .beyond ?_
          rw [BoundSelection.nestingAll_append]
          exact Nat.lt_of_lt_of_le exceeds (Nat.le_max_right _ _)
      | refused => exact .refused
  | @beyond bound exceeds =>
      cases others with
      | error error => exact .refused
      | ok later =>
          refine .beyond ?_
          rw [BoundSelection.nestingAll_append]
          exact Nat.lt_of_lt_of_le exceeds (Nat.le_max_left _ _)
  | refused => exact .refused

theorem merged (h : Limited limit left first first') :
    Limited limit left (first.map BoundSelection.merge) (first'.map BoundSelection.merge) := by
  cases h with
  | within fits => exact .within (by rwa [BoundSelection.nestingAll_merge])
  | beyond exceeds => exact .beyond (by rwa [BoundSelection.nestingAll_merge])
  | refused => exact .refused

/-- A field takes one of the levels that are left. -/
theorem field (h : Limited limit left first first') (make : List BoundSelection → BoundSelection)
    (hmake : ∀ children, (make children).nesting = BoundSelection.nestingAll children + 1) :
    Limited limit (left + 1) (first.map fun children => [make children])
      (first'.map fun children => [make children]) := by
  cases h with
  | within fits =>
      refine .within ?_
      simp only [BoundSelection.nestingAll, hmake]
      omega
  | beyond exceeds =>
      refine .beyond ?_
      simp only [BoundSelection.nestingAll, hmake]
      omega
  | refused => exact .refused

theorem of_ok {bound : List BoundSelection} {limited : Except EngineError (List BoundSelection)}
    (h : Limited limit left (.ok bound) limited) :
    (BoundSelection.nestingAll bound ≤ left → limited = .ok bound) ∧
      (left < BoundSelection.nestingAll bound → limited = .error (.document (.tooDeep limit))) := by
  cases h with
  | within fits => exact ⟨fun _ => rfl, fun exceeds => absurd fits (Nat.not_le.mpr exceeds)⟩
  | beyond exceeds => exact ⟨fun fits => absurd fits (Nat.not_le.mpr exceeds), fun _ => rfl⟩

theorem of_error {error : EngineError} {limited : Except EngineError (List BoundSelection)}
    (h : Limited limit left (.error error) limited) : ∃ other, limited = .error other := by
  cases h
  exact ⟨_, rfl⟩

/-- What binds under a limit binds to the same without it. -/
theorem free_of_ok {bound : List BoundSelection} {free : Except EngineError (List BoundSelection)}
    (h : Limited limit left free (.ok bound)) : free = .ok bound := by
  cases h
  rfl

end Limited

namespace Binder

variable {binder : Binder} {limit : Nat}

/-- The same binder under a limit. -/
def upTo (binder : Binder) (limit : Nat) : Binder :=
  { binder with maxDepth := some limit }

theorem bindSelections_eq_bind {spread : SpreadBinding} {owner : TypeId} {condition? : Option TypeId} {depth : Nat}
    {selection : Selection} {rest : List Selection} :
    binder.bindSelections spread owner condition? depth (selection :: rest) =
      (binder.bindSelection spread owner condition? depth selection).bind fun bound =>
        (binder.bindSelections spread owner condition? depth rest).map (bound ++ ·) := by
  rw [bindSelections]
  refine congrArg (Except.bind _) (funext fun bound => ?_)
  cases binder.bindSelections spread owner condition? depth rest <;> rfl

section

variable (hfree : binder.maxDepth = none)

include hfree

theorem heading_upTo {owner : TypeId} {condition? : Option TypeId} {depth : Nat} (hdepth : depth ≤ limit)
    (name : String) (supplied : List (String × Literal)) :
    (binder.upTo limit).heading owner condition? depth name supplied =
      binder.heading owner condition? depth name supplied := by
  have hchecks : (binder.upTo limit).checkDepth depth = binder.checkDepth depth := by
    rw [checkDepth, checkDepth, hfree]
    exact if_neg (Nat.not_lt.mpr hdepth)
  rw [heading, heading, hchecks]
  rfl

omit hfree in
theorem heading_beyond {owner : TypeId} {condition? : Option TypeId} {depth : Nat} (hdepth : limit < depth)
    (name : String) (supplied : List (String × Literal)) :
    (binder.upTo limit).heading owner condition? depth name supplied = .error (.document (.tooDeep limit)) := by
  have hrefused : (binder.upTo limit).checkDepth depth = .error (.document (.tooDeep limit)) := if_pos hdepth
  rw [heading, hrefused]
  rfl

/-- A selection set binds to what fits in the levels that are left, when every spread does. -/
theorem limited_bindSelections {spread spread' : SpreadBinding}
    (hspread : ∀ owner depth name,
      Limited limit (limit + 1 - depth) (spread owner depth name) (spread' owner depth name))
    (selections : List Selection) : ∀ owner condition? depth,
      Limited limit (limit + 1 - depth) (binder.bindSelections spread owner condition? depth selections)
        ((binder.upTo limit).bindSelections spread' owner condition? depth selections) := by
  induction selections using Selection.set_induction with
  | step set below =>
      induction set with
      | nil => exact fun _ _ _ => .within (Nat.zero_le _)
      | cons selection rest ih =>
          intro owner condition? depth
          rw [bindSelections_eq_bind, bindSelections_eq_bind]
          refine .append ?_ (ih (fun other hmem => below other (List.mem_cons_of_mem _ hmem)) owner condition? depth)
          have hbelow := below selection List.mem_cons_self
          cases selection with
          | field alias? name supplied selections =>
              have hinside (target : TypeId) : Limited limit (limit + 1 - (depth + 1))
                  (binder.bindInside spread target depth selections)
                  ((binder.upTo limit).bindInside spread' target depth selections) := by
                unfold bindInside
                show Limited _ _ (if (binder.schema.type target).isLeaf = true then _ else _)
                  (if (binder.schema.type target).isLeaf = true then _ else _)
                split
                · exact @Limited.within _ _ [] (Nat.zero_le _)
                · exact hbelow target none (depth + 1)
              rw [bindSelection_heading, bindSelection_heading]
              by_cases hdepth : limit < depth
              · rw [heading_beyond hdepth]
                have hnone : limit + 1 - depth = 0 := Nat.sub_eq_zero_of_le hdepth
                cases binder.heading owner condition? depth name supplied with
                | error error => exact .refused
                | ok heading =>
                    show Limited _ _ ((binder.bindInside spread heading.1.target depth selections).map _) _
                    cases binder.bindInside spread heading.1.target depth selections with
                    | error error => exact .refused
                    | ok children =>
                        refine .beyond ?_
                        rw [hnone, BoundSelection.nestingAll, BoundSelection.nesting]
                        omega
              · rw [heading_upTo hfree (Nat.le_of_not_lt hdepth)]
                cases binder.heading owner condition? depth name supplied with
                | error error => exact .refused
                | ok heading =>
                    have hleft : limit + 1 - depth = limit + 1 - (depth + 1) + 1 := by omega
                    rw [hleft]
                    refine (hinside heading.1.target).field _ fun children => ?_
                    rw [BoundSelection.nesting, BoundSelection.nestingAll_merge]
          | inline name? selections =>
              cases name? with
              | none => exact hbelow owner condition? depth
              | some name =>
                  rw [bindSelection, bindSelection]
                  show Limited _ _ (binder.conditionType name >>= _) (binder.conditionType name >>= _)
                  cases binder.conditionType name with
                  | error error => exact .refused
                  | ok type => exact hbelow owner (some type) depth
          | spread name => exact hspread owner depth name

/-- A spread binds to what fits in the levels that are left: its fragment takes none of them. -/
theorem limited_bindSpread {fuel : Nat} {active : List String}
    (hentered : Fragment.Entered binder.fragments fuel active []) (owner : TypeId) (depth : Nat) (name : String) :
    Limited limit (limit + 1 - depth) (binder.bindSpread fuel active owner depth name)
      ((binder.upTo limit).bindSpread fuel active owner depth name) := by
  cases hdefined : Fragment.named? binder.fragments name with
  | none =>
      rw [bindSpread_undefined hdefined, @bindSpread_undefined (binder.upTo limit) _ hdefined]
      exact .refused
  | some fragment =>
      by_cases hactive : name ∈ active
      · rw [bindSpread_again hdefined hactive, @bindSpread_again (binder.upTo limit) _ _ hdefined _ hactive]
        exact .within (Nat.zero_le _)
      · obtain ⟨left, rfl, hinside⟩ := hentered.enter_new hactive hdefined
        rw [bindSpread_enter hactive hdefined, @bindSpread_enter (binder.upTo limit) _ _ _ hactive _ hdefined]
        show Limited _ _ (binder.conditionType fragment.condition >>= _)
          (binder.conditionType fragment.condition >>= _)
        cases binder.conditionType fragment.condition with
        | error error => exact .refused
        | ok type =>
            exact limited_bindSelections hfree (limited_bindSpread hinside) fragment.selections owner (some type) depth
termination_by fuel

theorem limited_bind (root : TypeId) (selections : List Selection) :
    Limited limit limit (binder.bind root selections) ((binder.upTo limit).bind root selections) :=
  (limited_bindSelections hfree (limited_bindSpread hfree (.start binder.fragments [])) selections root none 1).merged

end

end Binder

namespace Schema

variable (schema : Schema) (document : Document) (request : Request) (limit : Nat)

theorem limited_of_bind :
    Limited limit limit (schema.bind none document request) (schema.bind (some limit) document request) := by
  unfold bind
  cases document.selectOperation request.operation? with
  | error error => exact .refused
  | ok operation =>
      show Limited _ _ (operation.root schema >>= _) (operation.root schema >>= _)
      cases operation.root schema with
      | error error => exact .refused
      | ok root =>
          show Limited _ _ (operation.withDefaults request.vars >>= _) (operation.withDefaults request.vars >>= _)
          cases operation.withDefaults request.vars with
          | error error => exact .refused
          | ok vars => exact Binder.limited_bind rfl root operation.selections

/-- A limit on depth refuses the trees that are higher, and does nothing else. What binds without a limit to
a tree within the limit binds under it to the same tree; what binds to a higher one is refused for its depth;
what does not bind without a limit does not bind under it. A tree is as high as its operation once fragments
have given way to the fields that they select. -/
theorem depth_limit_filters :
    (∀ level, schema.bind none document request = .ok level →
      (BoundSelection.nestingAll level ≤ limit → schema.bind (some limit) document request = .ok level) ∧
      (limit < BoundSelection.nestingAll level →
        schema.bind (some limit) document request = .error (.document (.tooDeep limit))) ∧
      ∃ expanded, schema.Expands document request expanded ∧
        BoundSelection.nestingAll level = BoundSelection.nestingAll expanded) ∧
    ∀ error, schema.bind none document request = .error error →
      ∃ other, schema.bind (some limit) document request = .error other := by
  have hlimited := schema.limited_of_bind document request limit
  constructor
  · intro level hlevel
    rw [hlevel] at hlimited
    obtain ⟨expanded, hexpanded, rfl⟩ := exists_expands hlevel
    refine ⟨hlimited.of_ok.1, hlimited.of_ok.2, expanded, hexpanded, ?_⟩
    rw [BoundSelection.nestingAll_merge, BoundSelection.nestingAll_mergeBelowAll]
  · intro error herror
    rw [herror] at hlimited
    exact hlimited.of_error

/-- Friends of animals below inline fragments and a fragment that spreads itself: four levels, since fragments
add none. With an unknown field the query binds under no limit. -/
theorem animals_depth_limited :
    let friends : Fragment := ⟨"Friends", "Animal", [.field none "friend" [] [.field none "name" [] [],
      .inline (some "Dog") [.field none "id" [] []], .spread "Friends"], .spread "Friends"]⟩
    let document (name : String) : Document := ⟨[⟨.query, none, [], [.field none "animals" [] [.inline none
      [.field none "friend" [] [.inline (some "Dog") [.spread "Friends"], .field none name [] []]]]]⟩], [friends]⟩
    (∃ level, Schema.animals.bind none (document "id") .plain = .ok level ∧ BoundSelection.nestingAll level = 4 ∧
      Schema.animals.bind (some 4) (document "id") .plain = .ok level ∧
      Schema.animals.bind (some 3) (document "id") .plain = .error (.document (.tooDeep 3))) ∧
    ∃ error other, Schema.animals.bind none (document "age") .plain = .error error ∧
      Schema.animals.bind (some 0) (document "age") .plain = .error other := by
  intro friends document
  have hfour : ((Schema.animals.bind none (document "id") .plain).map BoundSelection.nestingAll).toOption =
      some 4 := by decide +kernel
  obtain ⟨level, hlevel, hheight⟩ := Outcome.map_ok_iff.mp (Outcome.ok_of_toOption hfour)
  constructor
  · refine ⟨level, hlevel, hheight, ?_, ?_⟩
    · exact ((depth_limit_filters .animals (document "id") .plain 4).1 level hlevel).1 (by omega)
    · exact ((depth_limit_filters .animals (document "id") .plain 3).1 level hlevel).2.1 (by omega)
  · have hfails : (Schema.animals.bind none (document "age") .plain).isOk = false := by decide +kernel
    cases hfree : Schema.animals.bind none (document "age") .plain with
    | ok level =>
        rw [hfree] at hfails
        cases hfails
    | error error =>
        obtain ⟨other, hother⟩ := (depth_limit_filters .animals (document "age") .plain 0).2 error hfree
        exact ⟨error, other, rfl, hother⟩

end Schema

end GraphQuery
